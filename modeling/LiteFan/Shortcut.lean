import LiteFan.Outstanding
import LiteFan.Selection

/-!
# The check that avoids the writer lock

A claim first asks a read-only query whether there is anything to do. When the
query says no, the writer transaction and the closing read would have changed
nothing and reported the same, and a claim with something to lease never takes
this way out. On both ways an empty claim names the earliest deadline of the
consumer's deliveries, and none only without outstanding work.
-/

namespace LiteFan.Shortcut

open LiteFan.Api LiteFan.Time LiteFan.Schema LiteFan.Storage LiteFan.Store LiteFan.Consumer
open LiteFan.System LiteFan.Invariant LiteFan.Effect LiteFan.Step LiteFan.Preservation
open LiteFan.Outstanding Relational

/-- A claim without its read-only check: the writer transaction and the closing read. -/
def writeClaim (e : Engine) (self : Consumer) (maxMessages : ℕ) (leaseMs now : ℤ) (db : Db) :
    Db × Except Error Claim :=
  match claimCommit e self maxMessages leaseMs now db with
  | (db', .error err) => (db', .error err)
  | (db', .ok granted) => (db', claimReread self now granted db')

/-- A claim is its check and, when the check finds work, the rest. -/
theorem claim_eq_check (e : Engine) (self : Consumer) (maxMessages : ℕ) (leaseMs now : ℤ)
    (db : Db) : claim e self maxMessages leaseMs now db =
      match claimCheck self now db with
      | .error err => (db, .error err)
      | .ok (some early) => (db, .ok early)
      | .ok none => writeClaim e self maxMessages leaseMs now db := rfl

/-- What an empty claim says about the next attempt: nothing is expected exactly without
outstanding work, and otherwise the earliest deadline of a delivery, which is still ahead. -/
structure Expects (db : Db) (row : ConsumerRow) (now : ℤ) (next : Option ℤ) : Prop where
  none_iff : next = none ↔ outstandingCount db row = 0
  due : ∀ visibleAt, next = some visibleAt →
    ∃ d ∈ db.deliveries, d.consumerId = row.id ∧ d.visibleAt = visibleAt
  least : ∀ visibleAt, next = some visibleAt →
    ∀ d ∈ db.deliveries, d.consumerId = row.id → visibleAt ≤ d.visibleAt
  ahead : ∀ visibleAt, next = some visibleAt → now < visibleAt

section Claims

variable {db : Db} {row : ConsumerRow} {self : Consumer} {fan : Inner} {limit : ℕ}
  {leaseMs now deadline : ℤ}

/-- The rest of a claim on a live consumer with a deadline in range. -/
theorem writeClaim_eq (e : Engine) (hinv : Inv db) (hid : self.id = row.id)
    (hrow : db.consumers.lookup row.id = some row)
    (hdeadline : checkedAdd now leaseMs = .ok deadline) (hlimit : (limit : ℤ) ≤ i64Max) :
    writeClaim e self limit leaseMs now db = (claimedDb db row now deadline limit,
      claimReread self now ⟨claimedDeliveries db row now deadline limit, row.drainingAt.isSome⟩
        (claimedDb db row now deadline limit)) := by
  simp only [writeClaim, claimCommit_eq e hinv hid hrow hdeadline hlimit]

/-- An empty claim picked no retry and no fresh entry. -/
theorem parts_of_empty (hinv : Inv db) (hempty : claimedDeliveries db row now deadline limit = []) :
    selectVisible db row.id now limit = [] ∧ freshMessages db row now limit = [] := by
  have hperm := claimed_ids_perm hinv row now deadline limit
  rw [hempty, List.map_nil] at hperm
  obtain ⟨hvisible, hfresh⟩ := List.append_eq_nil_iff.mp hperm.symm.eq_nil
  exact ⟨List.map_eq_nil_iff.mp hvisible, List.map_eq_nil_iff.mp hfresh⟩

/-- A claim that picked no retry has its whole batch left for the log. -/
theorem remaining_of_none (h : selectVisible db row.id now limit = []) :
    remaining db row.id now limit = limit := by rw [remaining, h, List.length_nil, Nat.sub_zero]

/-- An empty claim has nothing visible and nothing unseen. -/
theorem nothing_of_empty (hinv : Inv db) (hpos : 0 < limit)
    (hempty : claimedDeliveries db row now deadline limit = []) :
    (∀ d ∈ db.deliveries, d.consumerId = row.id → now < d.visibleAt) ∧ unseen db row = [] := by
  obtain ⟨hvisible, hfresh⟩ := parts_of_empty hinv hempty
  constructor
  · intro d hd hc
    by_contra hdue
    have hmem := ((Selection.visible_sorted db row.id now).mem d).mpr ⟨hd, hc, not_lt.mp hdue⟩
    rcases List.take_eq_nil_iff.mp hvisible with hzero | hnil
    · omega
    · rw [hnil] at hmem
      exact absurd hmem List.not_mem_nil
  · rw [freshMessages, remaining_of_none hvisible] at hfresh
    exact (List.take_eq_nil_iff.mp hfresh).resolve_left hpos.ne'

/-- The earliest deadline is expected once nothing is visible or unseen. -/
theorem expects_earliest (hvisible : ∀ d ∈ db.deliveries, d.consumerId = row.id → now < d.visibleAt)
    (hunseen : unseen db row = []) : Expects db row now (stateOf db row).earliestVisibleAt := by
  have hleast : ∀ visibleAt, (stateOf db row).earliestVisibleAt = some visibleAt →
      (∃ d ∈ db.deliveries, d.consumerId = row.id ∧ d.visibleAt = visibleAt) ∧
        ∀ d ∈ db.deliveries, d.consumerId = row.id → visibleAt ≤ d.visibleAt := by
    intro visibleAt hmin
    obtain ⟨hfound, hle⟩ := List.min?_eq_some_iff.mp hmin
    obtain ⟨d, hd, heq⟩ := List.mem_map.mp hfound
    obtain ⟨hstored, hc⟩ := mem_deliveriesOf.mp hd
    exact ⟨⟨d, hstored, hc, heq⟩, fun other hother hown =>
      hle _ (List.mem_map_of_mem (mem_deliveriesOf.mpr ⟨hother, hown⟩))⟩
  refine ⟨?_, fun visibleAt h => (hleast visibleAt h).1, fun visibleAt h => (hleast visibleAt h).2,
    fun visibleAt h => ?_⟩
  · have hcount : outstandingCount db row = (deliveriesOf db row.id).length := by
      rw [outstandingCount, ← unseen_eq, hunseen, List.length_nil, Nat.add_zero]
    have hmin : (stateOf db row).earliestVisibleAt = none ↔ deliveriesOf db row.id = [] := by
      rw [stateOf, List.min?_eq_none_iff, List.map_eq_nil_iff]
    rw [hmin, hcount, List.length_eq_zero_iff]
  · obtain ⟨d, hd, hc, rfl⟩ := (hleast visibleAt h).1
    exact hvisible d hd hc

/-- An empty claim leaves every delivery as it was. -/
theorem deliveries_of_empty (hinv : Inv db) (hrow : db.consumers.lookup row.id = some row)
    (hempty : claimedDeliveries db row now deadline limit = []) :
    (claimedDb db row now deadline limit).deliveries = db.deliveries := by
  obtain ⟨hvisible, hfresh⟩ := parts_of_empty hinv hempty
  refine Table.ext_mem fun d => ?_
  rw [mem_claimedDb hinv hrow, hvisible, hfresh]
  simp only [List.not_mem_nil, false_and, exists_false, not_false_eq_true, and_true, false_or,
    or_false]

/-- An empty claim with room has scanned as far as it may. -/
theorem cursor_of_empty (hinv : Inv db) (hpos : 0 < limit)
    (hempty : claimedDeliveries db row now deadline limit = []) :
    scanLimit db row ≤ cursorAfter db row now limit := by
  obtain ⟨hvisible, hfresh⟩ := parts_of_empty hinv hempty
  have hroom := remaining_of_none hvisible
  by_cases hbehind : row.scanCursor < scanLimit db row
  · rw [cursorAfter, if_pos ⟨by omega, hbehind⟩, nextCursor, if_pos]
    rw [hfresh, List.map_nil, List.length_nil]
    omega
  · have hkept := (cursorAfter_bounds db row now limit).1
    omega

/-- What the closing read of an empty claim reports, and what it says of the next attempt. -/
theorem reread_of_empty (hinv : Inv db) (hid : self.id = row.id)
    (hrow : db.consumers.lookup row.id = some row) (hpos : 0 < limit)
    (hempty : claimedDeliveries db row now deadline limit = []) (draining : Bool) :
    claimReread self now ⟨[], draining⟩ (claimedDb db row now deadline limit) =
        .ok ⟨[], (stateOf db row).earliestVisibleAt, row.drainingAt.isSome⟩ ∧
      Expects db row now (stateOf db row).earliestVisibleAt ∧
      Expects (claimedDb db row now deadline limit)
        (withCursor (cursorAfter db row now limit) row) now
        (stateOf db row).earliestVisibleAt := by
  have hrow' : (claimedDb db row now deadline limit).consumers.lookup self.id =
      some (withCursor (cursorAfter db row now limit) row) := hid ▸ lookup_claimedDb_self hrow
  have hsame := deliveries_of_empty hinv hrow hempty
  have hend := cursor_of_empty hinv hpos hempty
  obtain ⟨hvisible, hunseen⟩ := nothing_of_empty hinv hpos hempty
  have hearliest : (stateOf (claimedDb db row now deadline limit)
      (withCursor (cursorAfter db row now limit) row)).earliestVisibleAt =
      (stateOf db row).earliestVisibleAt := by
    simp only [stateOf, deliveriesOf, hsame]
    rfl
  refine ⟨?_, expects_earliest hvisible hunseen, ?_⟩
  · have hstop : ¬cursorAfter db row now limit < scanLimit db row := not_lt.mpr hend
    rw [claimReread, claimState_eq hrow', ← hearliest]
    simp only [List.isEmpty_nil, if_true]
    exact congrArg (fun next => Except.ok (⟨[], next, row.drainingAt.isSome⟩ : Claim))
      (if_neg hstop)
  · rw [← hearliest]
    refine expects_earliest ?_ ?_
    · rw [hsame]
      exact hvisible
    · refine List.eq_nil_iff_forall_not_mem.mpr fun message hmem => ?_
      obtain ⟨-, hbeyond, hwithin, -⟩ := mem_unseen.mp hmem
      have hbeyond : cursorAfter db row now limit < message.id := hbeyond
      have hwithin : message.id ≤ scanLimit db row := hwithin
      omega

/-- A claim on a live consumer does what its writer transaction and closing read do. -/
theorem claim_eq_writeClaim (e : Engine) (hinv : Inv db)
    (hrow : db.consumers.lookup self.id = some row)
    (hdeadline : checkedAdd now leaseMs = .ok deadline) (hlimit : (limit : ℤ) ≤ i64Max) :
    claim e self limit leaseMs now db = writeClaim e self limit leaseMs now db := by
  have hid : self.id = row.id := (AutoTable.lookup_eq_some.mp hrow).2.symm
  rw [claim_whole e hinv hid (hid ▸ hrow) hdeadline hlimit,
    writeClaim_eq e hinv hid (hid ▸ hrow) hdeadline hlimit]

/-- A claim that goes through, on either way, was made on a live consumer. -/
theorem live_of_claim {e : Engine} {db' : Db} {found : Claim}
    (h : writeClaim e self limit leaseMs now db = (db', .ok found)) :
    ∃ row, db.consumers.lookup self.id = some row := by
  cases hrow : db.consumers.lookup self.id with
  | some row => exact ⟨row, rfl⟩
  | none =>
    have hcommit : (claimCommit e self limit leaseMs now db).2 = .error .durationOutOfRange ∨
        (claimCommit e self limit leaseMs now db).2 = .error (.consumerDeleted self.name) := by
      unfold claimCommit commit claimTransaction
      rw [hrow]
      cases hdeadline : checkedAdd now leaseMs with
      | error err =>
        rw [checkedAdd_error hdeadline]
        exact .inl rfl
      | ok deadline => exact .inr rfl
    unfold writeClaim at h
    cases hfound : claimCommit e self limit leaseMs now db with
    | mk db'' result =>
      rw [hfound] at h hcommit
      rcases hcommit with herr | herr <;> (dsimp only at herr; rw [herr] at h; cases h)

/-- The way out is taken on a live consumer only. -/
theorem live_of_check {early : Claim} (h : claimCheck self now db = .ok (some early)) :
    ∃ row, db.consumers.lookup self.id = some row := by
  cases hrow : db.consumers.lookup self.id with
  | some row => exact ⟨row, rfl⟩
  | none =>
    rw [claimCheck, claimState, hrow] at h
    cases h

/-- An empty claim that goes through says what to expect. -/
theorem expects_of_empty {e : Engine} {db' : Db} {found : Claim} (hinv : Inv db)
    (hrow : db.consumers.lookup self.id = some row) (hpos : 0 < limit)
    (hdeadline : checkedAdd now leaseMs = .ok deadline) (hlimit : (limit : ℤ) ≤ i64Max)
    (hclaim : writeClaim e self limit leaseMs now db = (db', .ok found))
    (hnone : found.deliveries = []) :
    Expects db row now found.nextVisibleAt ∧
      ∃ row', db'.consumers.lookup self.id = some row' ∧
        Expects db' row' now found.nextVisibleAt := by
  have hid : self.id = row.id := (AutoTable.lookup_eq_some.mp hrow).2.symm
  have hself : db.consumers.lookup row.id = some row := hid ▸ hrow
  rw [writeClaim_eq e hinv hid hself hdeadline hlimit] at hclaim
  obtain ⟨rfl, hfound⟩ := Prod.mk.inj hclaim
  have hrow' : (claimedDb db row now deadline limit).consumers.lookup self.id =
      some (withCursor (cursorAfter db row now limit) row) := hid ▸ lookup_claimedDb_self hself
  obtain ⟨reported, hreported, hdeliveries⟩ := claimReread_deliveries hrow' now
    ⟨claimedDeliveries db row now deadline limit, row.drainingAt.isSome⟩
  obtain rfl : found = reported := Except.ok.inj (hfound.symm.trans hreported)
  have hempty : claimedDeliveries db row now deadline limit = [] := hdeliveries.symm.trans hnone
  obtain ⟨hreread, hbefore, hafter⟩ :=
    reread_of_empty hinv hid hself hpos hempty row.drainingAt.isSome
  rw [hempty, hreread] at hfound
  obtain rfl := Except.ok.inj hfound
  exact ⟨hbefore, _, hrow', hafter⟩

/-- In every reachable state the way out of a claim agrees with its transaction: it changes
nothing and reports the same, a claim that leases something does not take it, and on both ways
an empty claim expects the earliest deadline of what is outstanding. -/
theorem shortcut_agrees (hreachable : Reachable db) (hpos : 0 < limit)
    (hle : limit ≤ fan.maxBatchSize) (hdeadline : checkedAdd now leaseMs = .ok deadline) :
    (∀ early, claimCheck self now db = .ok (some early) → early.deliveries = [] ∧
      ∀ e, writeClaim e self limit leaseMs now db = (db, .ok early)) ∧
    (∀ e db' found, writeClaim e self limit leaseMs now db = (db', .ok found) →
      found.deliveries ≠ [] → claimCheck self now db = .ok none) ∧
    ∀ e db' found, claim e self limit leaseMs now db = (db', .ok found) ∨
        writeClaim e self limit leaseMs now db = (db', .ok found) → found.deliveries = [] →
      ∃ row row', db.consumers.lookup self.id = some row ∧
        db'.consumers.lookup self.id = some row' ∧
        Expects db row now found.nextVisibleAt ∧ Expects db' row' now found.nextVisibleAt := by
  have hinv := inv_reachable hreachable
  have hlimit : (limit : ℤ) ≤ i64Max := (Int.ofNat_le.mpr hle).trans fan.maxBatchSize_le
  have hearly : ∀ early, claimCheck self now db = .ok (some early) → early.deliveries = [] ∧
      ∀ e, writeClaim e self limit leaseMs now db = (db, .ok early) := by
    intro early hcheck
    obtain ⟨row, hrow⟩ := live_of_check hcheck
    constructor
    · by_cases hnothing : Nothing db row now
      · rw [(claimCheck_eq hrow).1 hnothing] at hcheck
        cases hcheck
        rfl
      · rw [(claimCheck_eq hrow).2 hnothing] at hcheck
        cases hcheck
    · intro e
      rw [← claim_eq_writeClaim e hinv hrow hdeadline hlimit, claim_eq_check, hcheck]
  refine ⟨hearly, fun e db' found hwrite hsome => ?_, fun e db' found hclaim hnone => ?_⟩
  · obtain ⟨row, hrow⟩ := live_of_claim hwrite
    by_cases hnothing : Nothing db row now
    · obtain ⟨hempty, hsame⟩ := hearly _ ((claimCheck_eq hrow).1 hnothing)
      have hfound := Except.ok.inj (Prod.mk.inj ((hsame e).symm.trans hwrite)).2
      exact absurd (hfound ▸ hempty) hsome
    · exact (claimCheck_eq hrow).2 hnothing
  · have hwrite : writeClaim e self limit leaseMs now db = (db', .ok found) := by
      rcases hclaim with hwhole | hwrite
      · cases hcheck : claimCheck self now db with
        | error err =>
          rw [claim_eq_check, hcheck] at hwhole
          cases hwhole
        | ok early =>
          cases early with
          | none => rwa [claim_eq_check, hcheck] at hwhole
          | some early =>
            rw [claim_eq_check, hcheck] at hwhole
            cases hwhole
            exact (hearly found hcheck).2 e
      · exact hwrite
    obtain ⟨row, hrow⟩ := live_of_claim hwrite
    obtain ⟨hbefore, row', hrow', hafter⟩ :=
      expects_of_empty hinv hrow hpos hdeadline hlimit hwrite hnone
    exact ⟨row, row', hrow, hrow', hbefore, hafter⟩

end Claims

/-- A message is published and leased until a millisecond later. -/
def heldOps : List Op :=
  [.openConsumer "jobs" .all 0, .publishBatch [⟨none, [7], none⟩] 0, .claim firstHandle pollOne 0]

set_option maxRecDepth 10000 in
/-- While the lease is in force the way out reports its end, as the transaction would. -/
theorem shortcut_agrees_leased :
    writeClaim Engine.inOrder firstHandle 1 5 0
      (outcomeDb Engine.inOrder Inner.default heldOps Db.empty) =
        (outcomeDb Engine.inOrder Inner.default heldOps Db.empty, .ok ⟨[], some 1, false⟩) := by
  have hcheck : claimCheck firstHandle 0
      (outcomeDb Engine.inOrder Inner.default heldOps Db.empty) =
        .ok (some ⟨[], some 1, false⟩) := rfl
  have hdeadline : checkedAdd 0 5 = .ok 5 := rfl
  have hle : 1 ≤ Inner.default.maxBatchSize := by decide
  obtain ⟨hagrees, -⟩ := shortcut_agrees (reachable_outcome Engine.inOrder Inner.default heldOps)
    Nat.one_pos hle hdeadline
  exact (hagrees _ hcheck).2 Engine.inOrder

end LiteFan.Shortcut

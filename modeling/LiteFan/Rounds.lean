import LiteFan.Alike

/-!
# One claim on two stores that look alike

A claim picks visible deliveries by their dates and identifiers and fresh
entries in log order, so it takes the same ones from both stores, and what its
closing read reports depends on the deliveries it leaves. Cursors may differ:
what they bound is the same.
-/

namespace LiteFan.Alike

open LiteFan.Api LiteFan.Time LiteFan.Schema LiteFan.Storage LiteFan.Store LiteFan.Consumer
open LiteFan.System LiteFan.Invariant LiteFan.Effect LiteFan.Step LiteFan.Preservation LiteFan.Calls
open LiteFan.Inbox Relational

section Claims

variable {a b : Db} {row row' : ConsumerRow} {now deadline : ℤ} {limit : ℕ}

/-- Two alike stores with the rows of a consumer that is live in them. -/
structure Abreast (a b : Db) (row row' : ConsumerRow) : Prop where
  log : SameLog a b
  inbox : SameInbox row.id a b
  left : a.consumers.lookup row.id = some row
  right : b.consumers.lookup row'.id = some row'
  plain : plain row = plain row'
  inv : Inv a
  inv' : Inv b

theorem Abreast.id (h : Abreast a b row row') : row.id = row'.id := (ConsumerRow.mk.inj h.plain).1

theorem Abreast.drainingAt (h : Abreast a b row row') : row.drainingAt = row'.drainingAt :=
  (ConsumerRow.mk.inj h.plain).2.2.2.2.1

theorem Abreast.symm (h : Abreast a b row row') : Abreast b a row' row :=
  ⟨h.log.symm, h.id ▸ h.inbox.symm, h.right, h.left, h.plain.symm, h.inv', h.inv⟩

/-- The consumer is live in both stores, with rows abreast, or in neither. -/
theorem SameInbox.abreast {c : ℤ} (h : SameInbox c a b) (hlog : SameLog a b) (ha : Inv a)
    (hb : Inv b) : (a.consumers.lookup c = none ∧ b.consumers.lookup c = none) ∨
      ∃ row row', a.consumers.lookup c = some row ∧ b.consumers.lookup c = some row' ∧
        c = row.id ∧ c = row'.id ∧ Abreast a b row row' := by
  rcases h.rows with hgone | ⟨row, row', hleft, hright, hplain⟩
  · exact .inl hgone
  · have hid : row.id = c := (AutoTable.lookup_eq_some.mp hleft).2
    have hid' : row'.id = c := (AutoTable.lookup_eq_some.mp hright).2
    subst hid
    exact .inr ⟨row, row', hleft, hright, rfl, hid'.symm, hlog, h, hleft, hid'.symm ▸ hright,
      hplain, ha, hb⟩

/-- What a live consumer awaits. -/
theorem waiting_row {db : Db} {c : ℤ} (hrow : db.consumers.lookup c = some row) :
    waiting db c = unseen db row := by
  unfold waiting
  rw [hrow]

theorem Abreast.unseen (h : Abreast a b row row') : Effect.unseen a row = Effect.unseen b row' := by
  rw [← waiting_row h.left, ← waiting_row h.right, ← h.id]
  exact h.inbox.waiting

/-- The deliveries a claim leases again are among the consumer's own. -/
theorem selectVisible_own (db : Db) (c now : ℤ) (limit : ℕ) :
    selectVisible db c now limit =
      (sortBy (fun d : DeliveryRow => (toLex (d.visibleAt, d.messageId) : ℤ ×ₗ ℤ))
        ((deliveriesOf db c).filter fun d => decide (d.visibleAt ≤ now))).take limit := by
  rw [selectVisible, deliveriesOf, Table.select, Table.select, List.filter_filter]
  refine congrArg (fun rows => List.take limit (sortBy _ rows)) (List.filter_congr fun d _ => ?_)
  exact Bool.and_comm _ _

theorem Abreast.visible (h : Abreast a b row row') (now : ℤ) (limit : ℕ) :
    selectVisible a row.id now limit = selectVisible b row'.id now limit := by
  rw [selectVisible_own, selectVisible_own, ← h.id, h.inbox.deliveries]

theorem Abreast.fresh (h : Abreast a b row row') (now : ℤ) (limit : ℕ) :
    freshMessages a row now limit = freshMessages b row' now limit := by
  rw [freshMessages, freshMessages, remaining, remaining, h.visible, h.unseen]

/-- A claim leases the same messages from both stores. -/
theorem Abreast.leases (h : Abreast a b row row') (now deadline : ℤ) (limit : ℕ) :
    claimedLeases a row now deadline limit = claimedLeases b row' now deadline limit := by
  rw [claimedLeases, claimedLeases, retriedLeases, retriedLeases, freshLeases, freshLeases,
    h.visible, h.fresh]

/-- A claim returns the same deliveries from both stores. -/
theorem Abreast.claimed (h : Abreast a b row row') (now deadline : ℤ) (limit : ℕ) :
    claimedDeliveries a row now deadline limit = claimedDeliveries b row' now deadline limit := by
  rw [claimedDeliveries, claimedDeliveries, ← h.leases, ← h.id]
  refine List.filterMap_congr fun lease hlease => ?_
  obtain ⟨message, hmessage⟩ := claimedLeases_stored h.inv hlease
  rw [h.leases] at hlease
  obtain ⟨message', hmessage'⟩ := claimedLeases_stored h.inv' hlease
  obtain ⟨hmem, hid⟩ := AutoTable.lookup_eq_some.mp hmessage
  obtain ⟨hmem', hid'⟩ := AutoTable.lookup_eq_some.mp hmessage'
  rw [deliveryOfLease, deliveryOfLease, hmessage, hmessage',
    h.log.agree message hmem message' hmem' (hid.trans hid'.symm)]

/-- After a claim the consumer awaits what it was not given. -/
theorem waiting_claimed {db : Db} (hrow : db.consumers.lookup row.id = some row) :
    waiting (claimedDb db row now deadline limit) row.id =
      (unseen db row).filter fun message =>
        decide (message ∉ freshMessages db row now limit) := by
  have hafter : (claimedDb db row now deadline limit).consumers.lookup row.id =
      some (withCursor (cursorAfter db row now limit) row) := lookup_claimedDb_self hrow
  have hwaiting : waiting (claimedDb db row now deadline limit) row.id =
      unseen (claimedDb db row now deadline limit)
        (withCursor (cursorAfter db row now limit) row) := waiting_row hafter
  rw [hwaiting]
  rw [unseen_eq, unseen_eq, AutoTable.select, AutoTable.select, Table.select, Table.select,
    List.filter_filter]
  refine List.filter_congr fun message hmessage => ?_
  obtain ⟨hmoved, -⟩ := cursorAfter_bounds db row now limit
  by_cases hawaits : awaits row message = true
  · have hunseen : message ∈ unseen db row := by
      rw [unseen_eq]
      exact AutoTable.mem_select.mpr ⟨hmessage, hawaits⟩
    have hbeyond : awaits (withCursor (cursorAfter db row now limit) row) message =
        decide (cursorAfter db row now limit < message.id) := by
      rw [awaits, Bool.and_assoc, Bool.and_eq_true] at hawaits
      rw [awaits, Bool.and_assoc]
      exact (congrArg _ hawaits.2).trans (Bool.and_true _)
    rw [hbeyond, hawaits, Bool.and_true, decide_eq_decide, mem_freshMessages_iff hunseen, not_le]
  · rw [Bool.not_eq_true] at hawaits
    rw [hawaits, Bool.and_false]
    rw [awaits, Bool.and_assoc] at hawaits ⊢
    rcases Bool.and_eq_false_iff.mp hawaits with hseen | hrest
    · have hle : message.id ≤ row.scanCursor := not_lt.mp (of_decide_eq_false hseen)
      exact Bool.and_eq_false_iff.mpr (.inl (decide_eq_false (not_lt.mpr (hle.trans hmoved))))
    · exact Bool.and_eq_false_iff.mpr (.inr hrest)

/-- A claim leaves the inboxes the same. -/
theorem Abreast.granted (h : Abreast a b row row') (now deadline : ℤ) (limit : ℕ) :
    SameInbox row.id (claimedDb a row now deadline limit)
      (claimedDb b row' now deadline limit) where
  row := by
    have hleft : (claimedDb a row now deadline limit).consumers.lookup row.id =
        some (withCursor (cursorAfter a row now limit) row) := lookup_claimedDb_self h.left
    have hright : (claimedDb b row' now deadline limit).consumers.lookup row'.id =
        some (withCursor (cursorAfter b row' now limit) row') := lookup_claimedDb_self h.right
    rw [hleft, h.id, hright]
    exact congrArg some h.plain
  waiting := by
    rw [waiting_claimed h.left, h.id, waiting_claimed h.right, h.unseen, h.fresh]
  deliveries := by
    refine deliveriesOf_ext fun d hd => ?_
    have hown : d ∈ a.deliveries ↔ d ∈ b.deliveries :=
      (and_iff_left hd).symm.trans (mem_deliveriesOf.symm.trans
        (h.inbox.deliveries ▸ mem_deliveriesOf.trans (and_iff_left hd)))
    rw [mem_claimedDb h.inv h.left, mem_claimedDb h.inv' h.right, h.fresh, h.visible, hown, h.id]
  archives := h.inbox.archives

end Claims

section Found

variable {a b db : Db} {row row' : ConsumerRow} {self : Consumer} {now deadline : ℤ} {limit : ℕ}

/-- What a claim finds that leased these deliveries and left these rows. -/
def foundIn (deliveries : List Delivery) (rows : List DeliveryRow) (draining : Bool) : Claim :=
  if deliveries.isEmpty then ⟨[], (rows.map DeliveryRow.visibleAt).min?, draining⟩
  else ⟨deliveries, none, draining⟩

/-- A claim that returns nothing leased nothing. -/
theorem leases_of_none (hinv : Inv db) (hnone : claimedDeliveries db row now deadline limit = []) :
    selectVisible db row.id now limit = [] ∧ freshMessages db row now limit = [] := by
  have hleases : claimedLeases db row now deadline limit = [] := by
    refine List.eq_nil_iff_forall_not_mem.mpr fun lease hlease => ?_
    obtain ⟨message, hmessage⟩ := claimedLeases_stored hinv hlease
    have hlost := List.filterMap_eq_nil_iff.mp hnone lease hlease
    rw [deliveryOfLease, hmessage] at hlost
    cases hlost
  have hperm := sortBy_perm Lease.messageId
    (retriedLeases db row.id now deadline limit ++ freshLeases db row now limit)
  rw [← claimedLeases, hleases] at hperm
  obtain ⟨hretried, hfresh⟩ := List.append_eq_nil_iff.mp hperm.symm.eq_nil
  exact ⟨List.map_eq_nil_iff.mp hretried, List.map_eq_nil_iff.mp hfresh⟩

/-- A claim that returns nothing scanned to its limit. -/
theorem scanned_of_none (hinv : Inv db) (hpos : 0 < limit)
    (hnone : claimedDeliveries db row now deadline limit = []) :
    scanLimit db row ≤ cursorAfter db row now limit := by
  obtain ⟨hvisible, hfresh⟩ := leases_of_none hinv hnone
  have hroom : 0 < remaining db row.id now limit := by
    rw [remaining, hvisible, List.length_nil, Nat.sub_zero]
    exact hpos
  by_cases hbehind : row.scanCursor < scanLimit db row
  · rw [cursorAfter, if_pos ⟨hroom, hbehind⟩, hfresh, nextCursor, List.map_nil,
      List.length_nil, if_pos hroom]
  · rw [cursorAfter, if_neg fun hscan => hbehind hscan.2]
    exact not_lt.mp hbehind

/-- What a whole claim on a live consumer finds, from what it leases and leaves. -/
theorem claim_found (e : Engine) (hinv : Inv db) (hid : self.id = row.id)
    (hrow : db.consumers.lookup row.id = some row) {leaseMs : ℤ}
    (hdeadline : checkedAdd now leaseMs = .ok deadline) (hlimit : (limit : ℤ) ≤ i64Max)
    (hpos : 0 < limit) :
    claim e self limit leaseMs now db = (claimedDb db row now deadline limit,
      .ok (foundIn (claimedDeliveries db row now deadline limit)
        (deliveriesOf (claimedDb db row now deadline limit) row.id) row.drainingAt.isSome)) := by
  rw [claim_whole e hinv hid hrow hdeadline hlimit, claimReread, foundIn]
  cases hnone : (claimedDeliveries db row now deadline limit).isEmpty with
  | false => rfl
  | true =>
    have hafter : (claimedDb db row now deadline limit).consumers.lookup row.id =
        some (withCursor (cursorAfter db row now limit) row) := lookup_claimedDb_self hrow
    have hscanned := scanned_of_none hinv hpos (List.isEmpty_iff.mp hnone)
    have hend : ¬cursorAfter db row now limit < scanLimit db row := not_lt.mpr hscanned
    rw [if_pos rfl, hid, claimState_eq hafter]
    refine Prod.ext rfl ?_
    change Except.ok (Claim.mk [] (if cursorAfter db row now limit < scanLimit db row then some now
      else _) _) = _
    rw [if_neg hend]
    rfl

/-- A round of a live consumer's poll whose lease fits is a whole claim. -/
theorem pollRound_claimed (e : Engine) {fan : Inner} {options : Poll} {leaseMs : ℤ} (hinv : Inv db)
    (hid : self.id = row.id) (hrow : db.consumers.lookup row.id = some row)
    {start : Start} (hchecks : pollChecks fan options start = .ok (some leaseMs))
    (hdeadline : checkedAdd now leaseMs = .ok deadline) :
    pollRound e fan self options start now db = (claimedDb db row now deadline options.maxMessages,
      .ok (some (foundIn (claimedDeliveries db row now deadline options.maxMessages)
        (deliveriesOf (claimedDb db row now deadline options.maxMessages) row.id)
        row.drainingAt.isSome))) := by
  have hlease := pollChecks_lease hchecks
  obtain ⟨hpos, -⟩ := pollLease_some hlease
  unfold pollRound
  rw [hchecks]
  dsimp only
  rw [claim_found e hinv hid hrow hdeadline (pollLease_fits hlease) hpos]

/-- A claim finds the same in both stores. -/
theorem Abreast.found (h : Abreast a b row row') (now deadline : ℤ) (limit : ℕ) :
    foundIn (claimedDeliveries a row now deadline limit)
        (deliveriesOf (claimedDb a row now deadline limit) row.id) row.drainingAt.isSome =
      foundIn (claimedDeliveries b row' now deadline limit)
        (deliveriesOf (claimedDb b row' now deadline limit) row'.id) row'.drainingAt.isSome := by
  rw [h.claimed, h.drainingAt, (h.granted now deadline limit).deliveries, h.id]

end Found

section Overflow

variable {a b db : Db} {e : Engine} {fan : Inner} {self : Consumer} {options : Poll}
    {start : Start} {now : ℤ}

/-- The lease a round asks for ends after the last timestamp there is. -/
def Overflows (fan : Inner) (options : Poll) (start : Start) (now : ℤ) : Prop :=
  ∃ leaseMs, pollChecks fan options start = .ok (some leaseMs) ∧
    checkedAdd now leaseMs = .error .durationOutOfRange

/-- A round that found nothing, or was refused for its lease. -/
def Barren (found : Except Error (Option Claim)) : Prop :=
  found = .error .durationOutOfRange ∨
    ∃ claim : Claim, claim.deliveries = [] ∧ found = .ok (some claim)

/-- A round whose lease ends too late changes nothing and is barren. -/
theorem pollRound_overflow (hover : Overflows fan options start now) {row : ConsumerRow}
    (hrow : db.consumers.lookup self.id = some row) :
    (pollRound e fan self options start now db).1 = db ∧
      Barren (pollRound e fan self options start now db).2 := by
  obtain ⟨leaseMs, hchecks, hdeadline⟩ := hover
  unfold pollRound
  rw [hchecks]
  dsimp only
  by_cases hnothing : Nothing db row now
  · rw [claim_nothing e hrow hnothing]
    exact ⟨rfl, .inr ⟨_, rfl, rfl⟩⟩
  · have hcommit : claimCommit e self options.maxMessages leaseMs now db =
        (db, .error .durationOutOfRange) := by
      rw [claimCommit, commit, claimTransaction, hdeadline]
      rfl
    rw [claim, (claimCheck_eq hrow).2 hnothing]
    dsimp only
    rw [hcommit]
    exact ⟨rfl, .inl rfl⟩

/-- What a round's arguments decide: that it does nothing, that its lease ends too late, or
that it is a claim. -/
theorem round_cases (fan : Inner) (options : Poll) (start : Start) (now : ℤ) :
    (∃ found : Except Error (Option Claim), (∀ claim, found ≠ .ok (some claim)) ∧
      ∀ e self db, pollRound e fan self options start now db = (db, found)) ∨
    Overflows fan options start now ∨
      ∃ leaseMs deadline, pollChecks fan options start = .ok (some leaseMs) ∧
        checkedAdd now leaseMs = .ok deadline := by
  cases hchecks : pollChecks fan options start with
  | error err =>
    refine .inl ⟨.error err, fun claim => by rintro ⟨⟩, fun e self db => ?_⟩
    rw [pollRound, hchecks]
  | ok lease =>
    cases lease with
    | none =>
      refine .inl ⟨.ok none, fun claim => by rintro ⟨⟩, fun e self db => ?_⟩
      rw [pollRound, hchecks]
    | some leaseMs =>
      cases hdeadline : checkedAdd now leaseMs with
      | error err =>
        have herr := checkedAdd_error hdeadline
        exact .inr (.inl ⟨leaseMs, hchecks, herr ▸ hdeadline⟩)
      | ok deadline => exact .inr (.inr ⟨leaseMs, deadline, rfl, hdeadline⟩)

/-- A round of a consumer that is not stored changes nothing. -/
theorem pollRound_deleted (hrow : db.consumers.lookup self.id = none) :
    pollRound e fan self options start now db = (db, match pollChecks fan options start with
      | .error err => .error err
      | .ok none => .ok none
      | .ok (some _) => .error (.consumerDeleted self.name)) := by
  unfold pollRound
  cases pollChecks fan options start with
  | error err => rfl
  | ok lease =>
    cases lease with
    | none => rfl
    | some leaseMs =>
      dsimp only
      rw [claim, claimCheck, claimState, hrow]
      rfl

/-- A round through the consumer's handle is answered the same in both stores, unless its lease
ends too late, when it is barren in both. -/
theorem SameInbox.pollRound (h : SameInbox self.id a b) (hlog : SameLog a b) (ha : Inv a)
    (hb : Inv b) (e : Engine) (fan : Inner) (options : Poll) (start : Start) (now : ℤ) :
    SameInbox self.id (Calls.pollRound e fan self options start now a).1
        (Calls.pollRound e fan self options start now b).1 ∧
      ((Calls.pollRound e fan self options start now a).2 =
          (Calls.pollRound e fan self options start now b).2 ∨
        Overflows fan options start now ∧
          Barren (Calls.pollRound e fan self options start now a).2 ∧
          Barren (Calls.pollRound e fan self options start now b).2) := by
  rcases h.abreast hlog ha hb with ⟨hleft, hright⟩ | ⟨row, row', hleft, hright, hid, -, habreast⟩
  · rw [pollRound_deleted hleft, pollRound_deleted hright]
    exact ⟨h, .inl rfl⟩
  · rcases round_cases fan options start now with ⟨found, -, hround⟩ | hover |
      ⟨leaseMs, deadline, hchecks, hdeadline⟩
    · rw [hround, hround]
      exact ⟨h, .inl rfl⟩
    · obtain ⟨hkeep, hbarren⟩ := pollRound_overflow (e := e) hover hleft
      obtain ⟨hkeep', hbarren'⟩ := pollRound_overflow (e := e) hover hright
      rw [hkeep, hkeep']
      exact ⟨h, .inr ⟨hover, hbarren, hbarren'⟩⟩
    · rw [pollRound_claimed e ha hid habreast.left hchecks hdeadline,
        pollRound_claimed e hb (hid.trans habreast.id) habreast.right hchecks hdeadline,
        habreast.found]
      exact ⟨hid ▸ habreast.granted now deadline options.maxMessages, .inl rfl⟩

end Overflow

end LiteFan.Alike

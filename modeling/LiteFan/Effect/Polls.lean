import LiteFan.Effect.Claims

/-!
# What one claim of a poll amounts to

The read-only check of a claim skips the writer lock exactly when no delivery is
visible and the cursor has reached its limit; then the writer transaction would
have changed nothing. Otherwise the transaction runs, and a claim that leased
nothing reads the state once more.
-/

namespace LiteFan.Effect

open LiteFan.Api LiteFan.Time LiteFan.Schema LiteFan.Storage LiteFan.Store LiteFan.Consumer
open LiteFan.Invariant Relational

section Polls

variable {db : Db} {row : ConsumerRow} {self : Consumer} {now : ℤ}

/-- What the read-only query returns for a stored consumer. -/
def stateOf (db : Db) (row : ConsumerRow) : ClaimState where
  draining := row.drainingAt.isSome
  scanCursor := row.scanCursor
  scanLimit := scanLimit db row
  earliestVisibleAt := ((deliveriesOf db row.id).map DeliveryRow.visibleAt).min?

theorem claimState_eq {c : ℤ} (hrow : db.consumers.lookup c = some row) :
    claimState db c = some (stateOf db row) := by
  rw [claimState, hrow]
  rfl

/-- The earliest deadline has passed when some delivery is visible. -/
theorem retryReady_iff : retryReady (stateOf db row) now = true ↔
    ∃ d ∈ db.deliveries, d.consumerId = row.id ∧ d.visibleAt ≤ now := by
  have hmem : ∀ d, d ∈ deliveriesOf db row.id ↔ d ∈ db.deliveries ∧ d.consumerId = row.id := by
    intro d
    rw [deliveriesOf, Table.mem_select, beq_iff_eq]
  unfold retryReady
  cases hmin : (stateOf db row).earliestVisibleAt with
  | none =>
    have hnil : deliveriesOf db row.id = [] :=
      List.map_eq_nil_iff.mp (List.min?_eq_none_iff.mp hmin)
    refine iff_of_false Bool.false_ne_true fun h => ?_
    obtain ⟨d, hd, hc, -⟩ := h
    have hd := (hmem d).mpr ⟨hd, hc⟩
    rw [hnil] at hd
    exact absurd hd List.not_mem_nil
  | some visibleAt =>
    obtain ⟨hfound, hleast⟩ := List.min?_eq_some_iff.mp hmin
    simp only [decide_eq_true_eq]
    constructor
    · intro hle
      obtain ⟨d, hd, rfl⟩ := List.mem_map.mp hfound
      obtain ⟨hstored, hc⟩ := (hmem d).mp hd
      exact ⟨d, hstored, hc, hle⟩
    · intro h
      obtain ⟨d, hd, hc, hle⟩ := h
      exact (hleast _ (List.mem_map_of_mem ((hmem d).mpr ⟨hd, hc⟩))).trans hle

/-- There is neither a visible delivery nor an unscanned entry. -/
def Nothing (db : Db) (row : ConsumerRow) (now : ℤ) : Prop :=
  (∀ d ∈ db.deliveries, d.consumerId = row.id → now < d.visibleAt) ∧
    scanLimit db row ≤ row.scanCursor

/-- The check skips the writer lock exactly when there is nothing. -/
theorem claimCheck_eq (hrow : db.consumers.lookup self.id = some row) :
    (Nothing db row now → claimCheck self now db =
      .ok (some ⟨[], (stateOf db row).earliestVisibleAt, row.drainingAt.isSome⟩)) ∧
    (¬Nothing db row now → claimCheck self now db = .ok none) := by
  have hcheck : (!retryReady (stateOf db row) now && decide ((stateOf db row).scanLimit ≤
      (stateOf db row).scanCursor)) = true ↔ Nothing db row now := by
    rw [Bool.and_eq_true, Bool.not_eq_true', decide_eq_true_eq, ← Bool.not_eq_true, retryReady_iff]
    simp only [not_exists, not_and, not_le]
    exact Iff.rfl
  unfold claimCheck
  rw [claimState_eq hrow]
  constructor
  · intro h
    simp only [hcheck.mpr h, if_true]
    rfl
  · intro h
    simp only [eq_false_of_ne_true fun htrue => h (hcheck.mp htrue), Bool.false_eq_true, if_false]

/-- With nothing to lease no row is picked. -/
theorem selectVisible_of_nothing (h : Nothing db row now) (limit : ℕ) :
    selectVisible db row.id now limit = [] := by
  refine List.eq_nil_iff_forall_not_mem.mpr fun d hd => ?_
  obtain ⟨hstored, hc, hle⟩ := mem_selectVisible hd
  have hlt := h.1 d hstored hc
  omega

/-- A claim whose check finds nothing changes nothing. -/
theorem claim_nothing (e : Engine) (hrow : db.consumers.lookup self.id = some row)
    (h : Nothing db row now) (limit : ℕ) (leaseMs : ℤ) :
    claim e self limit leaseMs now db =
      (db, .ok ⟨[], (stateOf db row).earliestVisibleAt, row.drainingAt.isSome⟩) := by
  rw [claim, (claimCheck_eq hrow).1 h]

/-- Another claim runs its transaction, and reads again when it leased nothing. -/
theorem claim_eq (e : Engine) (hinv : Inv db) (hid : self.id = row.id)
    (hrow : db.consumers.lookup row.id = some row) (h : ¬Nothing db row now) {limit : ℕ}
    {leaseMs deadline : ℤ} (hdeadline : checkedAdd now leaseMs = .ok deadline)
    (hlimit : (limit : ℤ) ≤ i64Max) :
    claim e self limit leaseMs now db = (claimedDb db row now deadline limit,
      claimReread self now ⟨claimedDeliveries db row now deadline limit, row.drainingAt.isSome⟩
        (claimedDb db row now deadline limit)) := by
  have hself : db.consumers.lookup self.id = some row := hid ▸ hrow
  rw [claim, (claimCheck_eq hself).2 h]
  simp only [claimCommit_eq e hinv hid hrow hdeadline hlimit]

/-- With nothing to lease the writer transaction would lease nothing and change nothing. -/
theorem claimed_of_nothing (hrow : db.consumers.lookup row.id = some row) (h : Nothing db row now)
    (deadline : ℤ) (limit : ℕ) : claimedDb db row now deadline limit = db ∧
      claimedDeliveries db row now deadline limit = [] := by
  have hvisible : selectVisible db row.id now limit = [] := selectVisible_of_nothing h limit
  have hscan : ¬(remaining db row.id now limit > 0 ∧ row.scanCursor < scanLimit db row) :=
    fun hscan => absurd hscan.2 (not_lt.mpr h.2)
  have hkeep : releasedTable db row.id now deadline limit = db.deliveries := by
    refine Table.updateWhere_eq_self fun d hd hchosen => ?_
    rw [chosen_iff hd, hvisible] at hchosen
    exact absurd hchosen List.not_mem_nil
  constructor
  · rw [claimedDb_not_scanned hrow hscan, hkeep]
  · have hnone : claimedLeases db row now deadline limit = [] := by
      rw [claimedLeases, retriedLeases, hvisible, freshLeases, (not_scanned hscan).2]
      rfl
    rw [claimedDeliveries, hnone, List.filterMap_nil]

/-- A whole claim on a live consumer leaves and returns what its writer transaction does, also
when the check skips it. -/
theorem claim_whole (e : Engine) (hinv : Inv db) (hid : self.id = row.id)
    (hrow : db.consumers.lookup row.id = some row) {limit : ℕ} {leaseMs deadline : ℤ}
    (hdeadline : checkedAdd now leaseMs = .ok deadline) (hlimit : (limit : ℤ) ≤ i64Max) :
    claim e self limit leaseMs now db = (claimedDb db row now deadline limit,
      claimReread self now ⟨claimedDeliveries db row now deadline limit, row.drainingAt.isSome⟩
        (claimedDb db row now deadline limit)) := by
  by_cases hnothing : Nothing db row now
  · obtain ⟨hdb, hnone⟩ := claimed_of_nothing hrow hnothing deadline limit
    have hself : db.consumers.lookup self.id = some row := hid ▸ hrow
    have hend : ¬(stateOf db row).scanCursor < (stateOf db row).scanLimit := not_lt.mpr hnothing.2
    rw [claim_nothing e hself hnothing, hdb, hnone, claimReread, claimState_eq hself]
    simp only [List.isEmpty_nil, if_true, if_neg hend]
    rfl
  · exact claim_eq e hinv hid hrow hnothing hdeadline hlimit

/-- The closing read of a claim reports what was leased. -/
theorem claimReread_deliveries {row' : ConsumerRow}
    (hrow' : db.consumers.lookup self.id = some row') (now : ℤ) (granted : Granted) :
    ∃ found, claimReread self now granted db = .ok found ∧
      found.deliveries = granted.deliveries := by
  unfold claimReread
  by_cases hempty : granted.deliveries.isEmpty = true
  · rw [if_pos hempty, claimState_eq hrow']
    exact ⟨_, rfl, (List.isEmpty_iff.mp hempty).symm⟩
  · rw [if_neg hempty]
    exact ⟨_, rfl, rfl⟩

end Polls

end LiteFan.Effect

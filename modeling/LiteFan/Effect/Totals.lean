import LiteFan.Effect.Snapshots

/-!
# What a store snapshot adds up

A store snapshot lists every consumer in name order with the numbers the
consumer's own snapshot reports, and adds up two of their columns. It fails only
when one of the sums leaves the 64-bit range.
-/

namespace LiteFan.Effect

open LiteFan.Api LiteFan.Time LiteFan.Schema LiteFan.Storage LiteFan.Store LiteFan.Consumer
open LiteFan.Invariant Relational

/-- The largest 64-bit unsigned integer. -/
def u64Max : ℕ := 18446744073709551615

/-- Add up one number of each stored consumer. -/
def consumerTotal (db : Db) (count : Db → ConsumerRow → ℕ) : ℕ :=
  (db.consumers.table.rows.map (count db)).sum

/-- The snapshots of all consumers, in name order. -/
def snapshotsOf (db : Db) (now : ℤ) : List ConsumerSnapshot :=
  (sortBy ConsumerRow.name db.consumers.table.rows).map (snapshotOf db now)

section Sums

variable {column : ConsumerSnapshot → ℕ} {db : Db}

/-- Adding up a column from a running total. -/
def addColumn (column : ConsumerSnapshot → ℕ) (total : ℕ) (consumer : ConsumerSnapshot) :
    Except Error ℕ :=
  if total + column consumer ≤ u64Max then .ok (total + column consumer)
  else .error .counterOutOfRange

/-- A checked sum is the sum, or out of range when the sum is. -/
theorem foldlM_addColumn (column : ConsumerSnapshot → ℕ) (consumers : List ConsumerSnapshot)
    (total : ℕ) (htotal : total ≤ u64Max) : consumers.foldlM (addColumn column) total =
      if total + (consumers.map column).sum ≤ u64Max then
        .ok (total + (consumers.map column).sum)
      else .error .counterOutOfRange := by
  induction consumers generalizing total with
  | nil =>
    rw [List.map_nil, List.sum_nil, Nat.add_zero, if_pos htotal]
    rfl
  | cons consumer consumers ih =>
    rw [List.foldlM_cons, addColumn, List.map_cons, List.sum_cons, ← Nat.add_assoc]
    by_cases hfits : total + column consumer ≤ u64Max
    · rw [if_pos hfits]
      exact ih _ hfits
    · have hlarge : ¬total + column consumer + (consumers.map column).sum ≤ u64Max := by omega
      rw [if_neg hfits, if_neg hlarge]
      rfl

/-- A column of the store snapshot. -/
theorem sumColumn_eq (column : ConsumerSnapshot → ℕ) (consumers : List ConsumerSnapshot) :
    sumColumn column consumers = if (consumers.map column).sum ≤ u64Max then
      .ok (consumers.map column).sum else .error .counterOutOfRange := by
  have hfold := foldlM_addColumn column consumers 0 (Nat.zero_le _)
  rw [Nat.zero_add] at hfold
  exact hfold

/-- The order of the consumers does not change a total. -/
theorem sum_snapshotsOf (count : Db → ConsumerRow → ℕ) (now : ℤ)
    (hcount : ∀ row, column (snapshotOf db now row) = count db row) :
    ((snapshotsOf db now).map column).sum = consumerTotal db count := by
  have hrows : (snapshotsOf db now).map column =
      (sortBy ConsumerRow.name db.consumers.table.rows).map (count db) := by
    rw [snapshotsOf, List.map_map]
    exact List.map_congr_left fun row _ => hcount row
  rw [hrows, consumerTotal]
  exact ((sortBy_perm _ _).map _).sum_nat

/-- The snapshots of all consumers are listed. -/
theorem fetchConsumerSnapshots_all (db : Db) (now : ℤ) :
    fetchConsumerSnapshots db now none = .ok (snapshotsOf db now) := by
  have hall : db.consumers.select (fun _ => true) = db.consumers.table.rows :=
    List.filter_eq_self.mpr fun _ _ => rfl
  unfold fetchConsumerSnapshots
  simp only [hall, mapM_consumerSnapshot]
  rfl

/-- What a store snapshot reports. -/
def storeSnapshotOf (db : Db) (now : ℤ) : StoreSnapshot where
  retainedMessages := db.messages.table.rows.length
  idempotencyKeys := db.idempotency.rows.length
  outstandingDeliveries := consumerTotal db outstandingCount
  archivedDeliveries := consumerTotal db archivedCount
  consumers := snapshotsOf db now

/-- A store snapshot reports the totals, unless one is out of range. -/
theorem storeSnapshot_eq (db : Db) (now : ℤ) : Store.snapshot db now =
    if consumerTotal db outstandingCount ≤ u64Max ∧ consumerTotal db archivedCount ≤ u64Max then
      .ok (storeSnapshotOf db now)
    else .error .counterOutOfRange := by
  have houtstanding := sumColumn_eq ConsumerSnapshot.outstanding (snapshotsOf db now)
  have harchived := sumColumn_eq ConsumerSnapshot.archived (snapshotsOf db now)
  rw [sum_snapshotsOf outstandingCount now fun _ => rfl] at houtstanding
  rw [sum_snapshotsOf archivedCount now fun _ => rfl] at harchived
  unfold Store.snapshot
  rw [fetchConsumerSnapshots_all]
  simp only [bind, Except.bind, houtstanding, harchived, u64TryFrom_nat]
  by_cases hfirst : consumerTotal db outstandingCount ≤ u64Max
  · by_cases hsecond : consumerTotal db archivedCount ≤ u64Max
    · rw [if_pos hfirst, if_pos hsecond, if_pos ⟨hfirst, hsecond⟩]
      rfl
    · rw [if_pos hfirst, if_neg hsecond, if_neg fun h => hsecond h.2]
  · have hneither : ¬(consumerTotal db outstandingCount ≤ u64Max ∧
        consumerTotal db archivedCount ≤ u64Max) := fun h => hfirst h.1
    rw [if_neg hneither, if_neg hfirst]

end Sums

end LiteFan.Effect

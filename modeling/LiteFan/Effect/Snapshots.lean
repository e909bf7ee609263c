import LiteFan.Effect.Identities

/-!
# What the read-only operations report

A snapshot counts what deletion counts: the boundary it reads, a drain cursor or
else the retained high-water mark, excludes no stored message. Its counters
always fit, so a snapshot of a stored consumer succeeds.
-/

namespace LiteFan.Effect

open LiteFan.Api LiteFan.Time LiteFan.Schema LiteFan.Storage LiteFan.Store LiteFan.Consumer
open LiteFan.Invariant Relational

section Snapshots

variable {db : Db} {row : ConsumerRow}

/-- A stored message awaits a consumer as a snapshot reads it when it awaits it as deletion does. -/
theorem awaitsBelow_eq {message : Message} (h : message ∈ db.messages) :
    awaitsBelow (highWater db) row message = awaits row message := by
  unfold awaitsBelow awaits
  cases row.drainCursor with
  | none =>
    have hle : decide (message.id ≤ highWater db) = true := decide_eq_true (le_highWater h)
    simp only [Option.getD_none, hle]
  | some limit => rfl

/-- The log entries a snapshot counts are those a deletion counts. -/
theorem select_awaitsBelow : db.messages.select (awaitsBelow (highWater db) row) =
    db.messages.select (awaits row) := Table.select_congr fun _ h => awaitsBelow_eq h

/-- The log entries a claim scans are those a deletion counts. -/
theorem unseen_eq : unseen db row = db.messages.select (awaits row) := by
  refine Table.select_congr fun message h => ?_
  rw [← awaitsBelow_eq h]
  rfl

/-- The snapshot of a stored consumer. -/
def snapshotOf (db : Db) (now : ℤ) (row : ConsumerRow) : ConsumerSnapshot where
  name := row.name
  filter := match row.topicFilter with
    | some name => .topic name
    | none => .all
  state := if row.drainingAt.isSome then .draining else .active
  createdAtMs := row.createdAt
  drainingAtMs := row.drainingAt
  outstanding := outstandingCount db row
  ready := ((deliveriesOf db row.id).filter fun d => decide (d.visibleAt ≤ now)).length +
    (db.messages.select (awaits row)).length
  nextReadyAtMs :=
    (((deliveriesOf db row.id).filter fun d =>
      decide (now < d.visibleAt)).map DeliveryRow.visibleAt).min?
  oldestOutstandingAtMs := ((db.messages.select fun message =>
    (deliveriesOf db row.id).any (fun d => d.messageId == message.id) || awaits row message).map
      Message.publishedAtMs).min?
  archived := archivedCount db row

/-- One row of the snapshot query. -/
theorem consumerSnapshot_eq (db : Db) (now : ℤ) (row : ConsumerRow) :
    consumerSnapshot db now row = .ok (snapshotOf db now row) := by
  have howed : (db.messages.select fun message =>
      (deliveriesOf db row.id).any (fun d => d.messageId == message.id) ||
        awaitsBelow (highWater db) row message) = db.messages.select fun message =>
      (deliveriesOf db row.id).any (fun d => d.messageId == message.id) || awaits row message :=
    Table.select_congr fun message h => by rw [awaitsBelow_eq h]
  unfold consumerSnapshot
  simp only [howed, select_awaitsBelow, ← Nat.cast_add, u64TryFrom_nat]
  rfl

/-- The snapshots of several rows. -/
theorem mapM_consumerSnapshot (db : Db) (now : ℤ) (rows : List ConsumerRow) :
    rows.mapM (consumerSnapshot db now) = .ok (rows.map (snapshotOf db now)) := by
  induction rows with
  | nil => rfl
  | cons row rows ih =>
    rw [List.mapM_cons, consumerSnapshot_eq, ih]
    rfl

/-- The snapshot of one consumer, or of none once it is deleted. -/
theorem snapshot_eq (self : Consumer) (now : ℤ) (db : Db) :
    Consumer.snapshot self now db = match db.consumers.lookup self.id with
      | some row => .ok (snapshotOf db now row)
      | none => .error (.consumerDeleted self.name) := by
  unfold Consumer.snapshot fetchConsumerSnapshots
  rw [mapM_consumerSnapshot]
  cases hrow : db.consumers.lookup self.id with
  | none =>
    have hnone : (db.consumers.select fun row => row.id == self.id) = [] := by
      refine List.filter_eq_nil_iff.mpr fun row hmem => ?_
      have hne := AutoTable.lookup_eq_none.mp hrow row hmem
      simpa using hne
    simp only [hnone]
    rfl
  | some row =>
    obtain ⟨hmem, hid⟩ := AutoTable.lookup_eq_some.mp hrow
    have hone : (db.consumers.select fun row => row.id == self.id) = [row] := by
      refine List.perm_singleton.mp ((List.perm_ext_iff_of_nodup (Table.select_nodup _ _)
        (List.nodup_singleton row)).mpr fun other => AutoTable.mem_select.trans ?_)
      rw [List.mem_singleton, beq_iff_eq]
      constructor
      · intro h
        exact AutoTable.eq_of_key h.1 hmem (h.2.trans hid.symm)
      · intro h
        rw [h]
        exact ⟨hmem, hid⟩
    simp only [hone]
    rfl

end Snapshots

end LiteFan.Effect

import LiteFan.Preservation

/-!
# No operation trips a schema constraint

The invariant says that references resolve, keys are free and counters are in
range before each statement runs, so a statement never reports a violated
constraint and no batch is aborted by one.
-/

namespace LiteFan.Constraints

open LiteFan.Api LiteFan.Time LiteFan.Schema LiteFan.Storage LiteFan.Consumer LiteFan.System
open LiteFan.Invariant LiteFan.Effect LiteFan.Step LiteFan.Preservation Relational

/-- The row belongs to a stored consumer and a stored message that its filter
matches, at or below its cursor. -/
def Resolves (db : Db) (consumerId messageId : ℤ) : Prop :=
  ∃ row ∈ db.consumers, ∃ message ∈ db.messages, row.id = consumerId ∧ message.id = messageId ∧
    topicMatches row.topicFilter message.topic = true ∧ messageId ≤ row.scanCursor

/-- The declared and implied constraints of the five tables are satisfied. -/
structure Satisfied (db : Db) : Prop where
  deliveries : ∀ d ∈ db.deliveries, Resolves db d.consumerId d.messageId
  archives : ∀ a ∈ db.archives, Resolves db a.consumerId a.messageId
  /-- No pair is in both tables. -/
  disjoint : ∀ d ∈ db.deliveries, ∀ a ∈ db.archives,
    ¬(a.consumerId = d.consumerId ∧ a.messageId = d.messageId)
  /-- No pair is archived twice. -/
  unique : ∀ a ∈ db.archives, ∀ b ∈ db.archives, a.consumerId = b.consumerId →
    a.messageId = b.messageId → a = b
  /-- A cursor is at most its boundary and the highest identifier ever assigned. -/
  cursors : ∀ row ∈ db.consumers, 0 ≤ row.scanCursor ∧ row.scanCursor ≤ db.messages.seq ∧
    ∀ limit, row.drainCursor = some limit → row.scanCursor ≤ limit
  delivery_counters : ∀ d ∈ db.deliveries, 0 ≤ d.generation ∧ 0 ≤ d.deliveryCount
  archive_counters : ∀ a ∈ db.archives, 0 ≤ a.lastGeneration ∧ 0 ≤ a.deliveryCount

/-- A reference of the invariant resolves. -/
theorem resolves_of_refers {db : Db} {c m : ℤ} (h : Refers db c m) : Resolves db c m := by
  obtain ⟨row, message, hrow, hmessage, hle, hmatches⟩ := h
  obtain ⟨hstored, hc⟩ := AutoTable.lookup_eq_some.mp hrow
  obtain ⟨hlogged, hm⟩ := AutoTable.lookup_eq_some.mp hmessage
  exact ⟨row, hstored, message, hlogged, hc, hm, hmatches, hle⟩

/-- The invariant gives every constraint. -/
theorem satisfied_of_inv {db : Db} (hinv : Inv db) : Satisfied db where
  deliveries d hd := resolves_of_refers (hinv.delivery_refers d hd)
  archives a ha := resolves_of_refers (hinv.archive_refers a ha)
  disjoint d hd a ha hpair := hinv.disjoint a ha d hd hpair.1 hpair.2
  unique := hinv.archive_pair
  cursors row hrow := by
    have hok := hinv.rows row hrow
    exact ⟨hok.nonneg, hok.le_seq, fun limit hlimit => (hok.drain limit hlimit).1⟩
  delivery_counters := hinv.delivery_counts
  archive_counters a ha := (hinv.archive_counts a ha).symm

/-- Under the invariant an operation is never refused by SQLite. -/
theorem no_violation {db : Db} (hinv : Inv db) (e : Engine) (fan : Inner) (op : Op)
    (cause : SqlxError) : (exec e fan op db).2 ≠ .error (.sqlx cause) := by
  intro hviolated
  have heffect := exec_effect e fan op hinv
  rw [hviolated] at heffect
  generalize (exec e fan op db).1 = after at heffect
  cases heffect with
  | rejected hdefect => cases hdefect

/-- In every reachable state the constraints hold, and no operation with any
arguments is refused because of one. -/
theorem constraints_reachable {db : Db} (h : Reachable db) :
    Satisfied db ∧
      ∀ (e : Engine) (fan : Inner) (op : Op) (cause : SqlxError),
        (exec e fan op db).2 ≠ .error (.sqlx cause) :=
  ⟨satisfied_of_inv (inv_reachable h), no_violation (inv_reachable h)⟩

/-- A message is pruned behind a consumer whose cursor stays ahead of the log. -/
def prunedOps : List Op :=
  [.publishBatch [⟨none, [7], none⟩] 0, .openConsumer "jobs" .all 0, .pruneMessages ⟨1, 1⟩]

/-- Draining that consumer is not refused either. -/
theorem constraints_pruned :
    Satisfied (outcomeDb Engine.inOrder Inner.default prunedOps Db.empty) ∧
      ∀ (e : Engine) (fan : Inner) (op : Op) (cause : SqlxError),
        (exec e fan op (outcomeDb Engine.inOrder Inner.default prunedOps Db.empty)).2 ≠
          .error (.sqlx cause) :=
  constraints_reachable (reachable_outcome Engine.inOrder Inner.default prunedOps)

end LiteFan.Constraints

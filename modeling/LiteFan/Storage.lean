import LiteFan.Schema
import LiteFan.Relational.Batch
import Mathlib.Data.String.Basic
import Mathlib.Data.List.Dedup

/-!
# Shared SQL limits, row mapping and query helpers

An engine stands for the orders the source does not control: the order of
`RETURNING` rows and the iteration order of a hash set. Messages are inserted
in chunks with sorted identifiers, receipts become a row predicate, and a
snapshot is one query per consumer over the tables at a clock reading.
-/

namespace LiteFan.Storage

open LiteFan.Api LiteFan.Time LiteFan.Schema Relational

/-- The orders a run may come with. Each is an arrangement of the rows or keys. -/
structure Engine : Type 1 where
  /-- `RETURNING` rows come in an order SQLite does not promise. -/
  returning : {α : Type} → List α → List α
  /-- No row is lost, added or repeated. -/
  returning_perm : ∀ {α : Type} (rows : List α), (returning rows).Perm rows
  /-- The iteration order of the hash set of a batch's keys. -/
  hashOrder : List Bytes → List Bytes
  /-- A set iterates over each key once. -/
  hashOrder_perm : ∀ keys, (hashOrder keys).Perm keys.dedup

/-- The engine that returns everything in the order it was written. -/
def Engine.inOrder : Engine where
  returning rows := rows
  returning_perm := List.Perm.refl
  hashOrder keys := keys.dedup
  hashOrder_perm keys := List.Perm.refl keys.dedup

/-- SQLite's historical variable limit. -/
def maxSqlVariables : ℕ := 999

/-- Receipt statements bind one consumer and three values per receipt. -/
def receiptsPerChunk : ℕ := (maxSqlVariables - 1) / 3

/-- Message statements bind three values per row. -/
def publishesPerChunk : ℕ := maxSqlVariables / 3

/-- A lease as the claim statements return it. -/
structure Lease where
  messageId : ℤ
  generation : ℤ
  deliveryCount : ℤ
  deriving DecidableEq

/-- One chunk of a message insert, collecting the identifiers it returns. -/
def insertMessageChunk (e : Engine) (publishedAt : ℤ) (acc : Db × List ℤ)
    (messages : List Publish) :
    Db × List ℤ :=
  let inserted := insertMessages acc.1 messages publishedAt
  (inserted.1, acc.2 ++ e.returning inserted.2)

/-- Insert messages chunk by chunk and sort the identifiers. -/
def insertMessageRows (e : Engine) (db : Db) (messages : List Publish) (publishedAt : ℤ) :
    Db × List ℤ :=
  let inserted := (chunks publishesPerChunk messages).foldl
    (insertMessageChunk e publishedAt) (db, [])
  (inserted.1, sortBy id inserted.2)

/-- A log entry the consumer has yet to be given, as deletion and pruning read it. -/
def awaits (row : ConsumerRow) (message : Message) : Bool :=
  decide (row.scanCursor < message.id) &&
    (match row.drainCursor with
      | none => true
      | some limit => decide (message.id ≤ limit)) &&
    topicMatches row.topicFilter message.topic

/-- A log entry the consumer has yet to be given, as a snapshot reads it. -/
def awaitsBelow (highWater : ℤ) (row : ConsumerRow) (message : Message) : Bool :=
  decide (row.scanCursor < message.id) &&
    decide (message.id ≤ row.drainCursor.getD highWater) &&
    topicMatches row.topicFilter message.topic

/-- The deliveries of one consumer. -/
def deliveriesOf (db : Db) (consumerId : ℤ) : List DeliveryRow :=
  db.deliveries.select fun d => d.consumerId == consumerId

/-- The archives of one consumer. -/
def archivesOf (db : Db) (consumerId : ℤ) : List ArchiveRow :=
  db.archives.select fun a => a.consumerId == consumerId

theorem mem_deliveriesOf {db : Db} {c : ℤ} {d : DeliveryRow} :
    d ∈ deliveriesOf db c ↔ d ∈ db.deliveries ∧ d.consumerId = c := by
  simp only [deliveriesOf, Table.mem_select, beq_iff_eq]

theorem mem_archivesOf {db : Db} {c : ℤ} {a : ArchiveRow} :
    a ∈ archivesOf db c ↔ a ∈ db.archives ∧ a.consumerId = c := by
  simp only [archivesOf, AutoTable.mem_select, beq_iff_eq]

/-- One consumer's row of the snapshot query. -/
def consumerSnapshot (db : Db) (now : ℤ) (row : ConsumerRow) : Except Error ConsumerSnapshot := do
  let unscanned := db.messages.select (awaitsBelow (highWater db) row)
  let visible := (deliveriesOf db row.id).filter fun d => decide (d.visibleAt ≤ now)
  let deferred := (deliveriesOf db row.id).filter fun d => decide (now < d.visibleAt)
  let owed := db.messages.select fun message =>
    (deliveriesOf db row.id).any (fun d => d.messageId == message.id) ||
      awaitsBelow (highWater db) row message
  let outstanding ← u64TryFrom ((deliveriesOf db row.id).length + unscanned.length)
  let ready ← u64TryFrom (visible.length + unscanned.length)
  let archived ← u64TryFrom (archivesOf db row.id).length
  return {
    name := row.name
    filter := match row.topicFilter with
      | some name => .topic name
      | none => .all
    state := if row.drainingAt.isSome then .draining else .active
    createdAtMs := row.createdAt
    drainingAtMs := row.drainingAt
    outstanding := outstanding
    ready := ready
    nextReadyAtMs := (deferred.map DeliveryRow.visibleAt).min?
    oldestOutstandingAtMs := (owed.map Message.publishedAtMs).min?
    archived := archived }

/-- Snapshots of one consumer or of all, in name order. -/
def fetchConsumerSnapshots (db : Db) (now : ℤ) (consumerId : Option ℤ) :
    Except Error (List ConsumerSnapshot) :=
  let rows := db.consumers.select fun row =>
    match consumerId with
    | none => true
    | some id => row.id == id
  (sortBy ConsumerRow.name rows).mapM (consumerSnapshot db now)

/-- Delete the ledger entries whose window has passed. -/
def purgeExpiredIdempotency (db : Db) (now : ℤ) : Db :=
  { db with idempotency := db.idempotency.deleteWhere fun row => decide (row.expiresAt ≤ now) }

/-- The receipt predicate: this consumer's delivery, named with its current generation. -/
def pushReceiptPredicate (consumerId : ℤ) (receipts : List Receipt) (d : DeliveryRow) : Bool :=
  d.consumerId == consumerId &&
    receipts.any fun r =>
      r.consumerId == d.consumerId && r.messageId == d.messageId && r.generation == d.generation

end LiteFan.Storage

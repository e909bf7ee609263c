import LiteFan.Time
import LiteFan.Relational.AutoTable
import Mathlib.Data.List.Lex

/-!
# The durable tables and the statements on them

Five tables hold everything. A statement either yields the next database or
names the constraint it would violate: primary keys, the unique name and the
unique archived pair, the cursor and counter checks, references that must
exist, deletions restricted by archives and cascading to deliveries.
-/

namespace LiteFan.Schema

open LiteFan.Api Relational

/-- Bytes are ordered as unsigned numbers, so keys are ordered bytewise. -/
instance linearOrderUInt8 : LinearOrder UInt8 where
  le_refl := UInt8.le_refl
  le_trans _ _ _ := UInt8.le_trans
  le_antisymm _ _ := UInt8.le_antisymm
  le_total := UInt8.le_total
  lt_iff_le_not_ge a b := by
    rw [UInt8.lt_iff_toNat_lt, UInt8.le_iff_toNat_le, UInt8.le_iff_toNat_le]
    omega
  toDecidableLE := inferInstance
  toDecidableLT := inferInstance

/-- `litefan_idempotency`: a key, the message published under it, its expiry. -/
structure IdempotencyRow where
  key : Bytes
  /-- Null between the claim of a key and the fill of its entry. -/
  messageId : Option ℤ
  expiresAt : ℤ
  deriving DecidableEq

/-- `litefan_consumers`: one durable identity and its next-search boundary. -/
structure ConsumerRow where
  id : ℤ
  name : String
  topicFilter : Option String
  createdAt : ℤ
  /-- Null while the consumer is active. -/
  drainingAt : Option ℤ
  /-- Every log entry up to here has been looked at. -/
  scanCursor : ℤ
  /-- The fixed final boundary of a draining consumer. -/
  drainCursor : Option ℤ
  deriving DecidableEq

/-- `litefan_deliveries`: one materialized lease. -/
structure DeliveryRow where
  consumerId : ℤ
  messageId : ℤ
  visibleAt : ℤ
  generation : ℤ
  deliveryCount : ℤ
  deriving DecidableEq

/-- Composite keys are equal when their parts are. -/
instance lawfulBEqKey : LawfulBEq (ℤ ×ₗ ℤ) := inferInstance

/-- The composite primary key of a delivery. -/
def DeliveryRow.key (d : DeliveryRow) : ℤ ×ₗ ℤ := toLex (d.consumerId, d.messageId)

/-- `litefan_archived_deliveries`: one terminal outcome. -/
structure ArchiveRow where
  id : ℤ
  consumerId : ℤ
  messageId : ℤ
  archivedAt : ℤ
  deliveryCount : ℤ
  lastGeneration : ℤ
  detail : Option String
  deriving DecidableEq

/-- The durable state. -/
structure Db where
  /-- `litefan_messages`, the append-only log. -/
  messages : AutoTable Message Message.id
  /-- `litefan_idempotency`, the expiring ledger. -/
  idempotency : Table IdempotencyRow IdempotencyRow.key
  /-- `litefan_consumers`. -/
  consumers : AutoTable ConsumerRow ConsumerRow.id
  /-- `litefan_deliveries`. -/
  deliveries : Table DeliveryRow DeliveryRow.key
  /-- `litefan_archived_deliveries`. -/
  archives : AutoTable ArchiveRow ArchiveRow.id
  deriving DecidableEq

/-- A freshly created store. -/
def Db.empty : Db := ⟨AutoTable.empty, Table.empty, AutoTable.empty, Table.empty, AutoTable.empty⟩

/-- `SELECT COALESCE(MAX(id), 0) FROM litefan_messages`. -/
def highWater (db : Db) : ℤ := db.messages.maxKey

/-- The consumer's filter accepts the topic; a message without topic fails
every comparison, so it passes only the null filter. -/
def topicMatches (filter topic : Option String) : Bool :=
  match filter with
  | none => true
  | some name => topic == some name

/-- The stored row built for a published message. -/
def messageRow (publishedAt : ℤ) (message : Publish) (id : ℤ) : Message :=
  ⟨id, message.topic, message.body, publishedAt⟩

theorem messageRow_id (publishedAt : ℤ) (message : Publish) (id : ℤ) :
    (messageRow publishedAt message id).id = id := rfl

/-- One multi-row insert into the log, returning the assigned identifiers. -/
def insertMessages (db : Db) (messages : List Publish) (publishedAt : ℤ) : Db × List ℤ :=
  ({ db with
      messages := db.messages.appendAll (messageRow publishedAt) (messageRow_id publishedAt)
        messages },
    db.messages.freshKeys messages.length)

/-- Delete log entries: restricted while an archive refers to one, cascading
to the deliveries that refer to one. -/
def deleteMessages (db : Db) (p : Message → Bool) : Except Error (Db × ℕ) :=
  let gone := db.messages.select p
  if db.archives.table.rows.any fun a => gone.any fun m => m.id == a.messageId then
    .error (.sqlx .foreignKey)
  else
    .ok ({ db with
      messages := db.messages.deleteWhere p
      deliveries := db.deliveries.deleteWhere fun d => gone.any fun m => m.id == d.messageId },
      gone.length)

/-- `CHECK (scan_cursor >= 0)` and `CHECK (drain_cursor >= scan_cursor)`. -/
def consumerCheck (row : ConsumerRow) : Bool :=
  decide (0 ≤ row.scanCursor) &&
    match row.drainCursor with
    | none => true
    | some limit => decide (row.scanCursor ≤ limit)

/-- The row stored under a name. -/
def consumerNamed (db : Db) (name : String) : Option ConsumerRow :=
  db.consumers.table.rows.find? fun row => row.name == name

/-- Insert an active consumer; a taken name stores nothing but still draws a key. -/
def insertConsumer (db : Db) (name : String) (topicFilter : Option String)
    (createdAt scanCursor : ℤ) : Except Error Db :=
  if ¬0 ≤ scanCursor then .error (.sqlx .check)
  else if (consumerNamed db name).isSome then .ok { db with consumers := db.consumers.bump }
  else .ok { db with
    consumers := db.consumers.append
      (fun id => ⟨id, name, topicFilter, createdAt, none, scanCursor, none⟩) fun _ => rfl }

/-- Rewrite the consumers that satisfy the condition. -/
def updateConsumers (db : Db) (p : ConsumerRow → Bool) (f : ConsumerRow → ConsumerRow)
    (hf : ∀ row, (f row).id = row.id) : Except Error Db :=
  if (db.consumers.select p).all fun row => consumerCheck (f row) then
    .ok { db with consumers := db.consumers.updateWhere p f hf }
  else .error (.sqlx .check)

/-- Delete consumers: restricted while an archive refers to one, cascading to
the deliveries that refer to one. -/
def deleteConsumers (db : Db) (p : ConsumerRow → Bool) : Except Error Db :=
  let gone := db.consumers.select p
  if db.archives.table.rows.any fun a => gone.any fun row => row.id == a.consumerId then
    .error (.sqlx .foreignKey)
  else
    .ok { db with
      consumers := db.consumers.deleteWhere p
      deliveries := db.deliveries.deleteWhere fun d => gone.any fun row => row.id == d.consumerId }

/-- `CHECK (generation >= 0)` and `CHECK (delivery_count >= 0)`. -/
def deliveryCheck (d : DeliveryRow) : Bool :=
  decide (0 ≤ d.generation) && decide (0 ≤ d.deliveryCount)

/-- Insert a delivery with its checks, its primary key and its two references. -/
def insertDelivery (db : Db) (d : DeliveryRow) : Except Error Db :=
  if ¬deliveryCheck d then .error (.sqlx .check)
  else
    match db.deliveries.insert d with
    | none => .error (.sqlx .primaryKey)
    | some deliveries =>
      if (db.consumers.lookup d.consumerId).isSome && (db.messages.lookup d.messageId).isSome then
        .ok { db with deliveries := deliveries }
      else .error (.sqlx .foreignKey)

/-- One multi-row insert into the deliveries. -/
def insertDeliveries (db : Db) (ds : List DeliveryRow) : Except Error Db :=
  ds.foldlM insertDelivery db

/-- Rewrite the deliveries that satisfy the condition. -/
def updateDeliveries (db : Db) (p : DeliveryRow → Bool) (f : DeliveryRow → DeliveryRow)
    (hf : ∀ d, (f d).key = d.key) : Except Error Db :=
  if (db.deliveries.select p).all fun d => deliveryCheck (f d) then
    .ok { db with deliveries := db.deliveries.updateWhere p f hf }
  else .error (.sqlx .check)

/-- Delete the deliveries that satisfy the condition. -/
def deleteDeliveries (db : Db) (p : DeliveryRow → Bool) : Db :=
  { db with deliveries := db.deliveries.deleteWhere p }

/-- `CHECK (delivery_count >= 0)` and `CHECK (last_generation >= 0)`. -/
def archiveCheck (deliveryCount lastGeneration : ℤ) : Bool :=
  decide (0 ≤ deliveryCount) && decide (0 ≤ lastGeneration)

/-- The archived outcome of one consumer's copy. -/
def archivedPair (db : Db) (consumerId messageId : ℤ) : Option ArchiveRow :=
  db.archives.table.rows.find? fun a => a.consumerId == consumerId && a.messageId == messageId

/-- Insert an archive with its checks, its unique pair and its two references. -/
def insertArchive (db : Db) (consumerId messageId archivedAt deliveryCount lastGeneration : ℤ)
    (detail : Option String) : Except Error Db :=
  if ¬archiveCheck deliveryCount lastGeneration then .error (.sqlx .check)
  else if (archivedPair db consumerId messageId).isSome then .error (.sqlx .unique)
  else if (db.consumers.lookup consumerId).isSome && (db.messages.lookup messageId).isSome then
    .ok { db with
      archives := db.archives.append
        (fun id => ⟨id, consumerId, messageId, archivedAt, deliveryCount, lastGeneration, detail⟩)
        fun _ => rfl }
  else .error (.sqlx .foreignKey)

/-- Delete the archives that satisfy the condition. -/
def deleteArchives (db : Db) (p : ArchiveRow → Bool) : Db :=
  { db with archives := db.archives.deleteWhere p }

end LiteFan.Schema

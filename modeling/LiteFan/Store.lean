import LiteFan.Storage
import Mathlib.Logic.Function.Basic

/-!
# Publishing, inspection, deletion and retention

Each operation is a transaction: it takes the database and yields either the
next database with a result or an error. An error drops the transaction, so
the database stays as it was. Where the source reads the clock, the reading is
an argument.
-/

namespace LiteFan.Store

open LiteFan.Api LiteFan.Time LiteFan.Schema LiteFan.Storage Relational

/-- A transaction: the next database with a result, or an error that rolls back. -/
abbrev Transaction (α : Type) := Db → Except Error (Db × α)

/-- Run a transaction: commit its database, or keep the old one. -/
def commit {α : Type} (transaction : Transaction α) (db : Db) : Db × Except Error α :=
  match transaction db with
  | .ok (db', a) => (db', .ok a)
  | .error err => (db, .error err)

/-- The unkeyed path: one set-based insert. -/
def publishUnkeyedBatch (e : Engine) (messages : List Publish) (publishedAt : ℤ) :
    Transaction (List PublishOutcome) := fun db =>
  let inserted := insertMessageRows e db messages publishedAt
  .ok (inserted.1, inserted.2.map .published)

/-- Insert the keys of one chunk with conflict-ignore. -/
def claimKeys (expiresAt : ℤ) (db : Db) (keys : List Bytes) : Db :=
  { db with
    idempotency := keys.foldl (fun t key => t.insertIgnore ⟨key, none, expiresAt⟩) db.idempotency }

/-- A hash map from keys to the ledger's message column, as its lookup function. -/
abbrev Ledger := Bytes → Option (Option ℤ)

/-- Read the ledger rows of one chunk of keys into the map. -/
def readKeys (db : Db) (ledger : Ledger) (keys : List Bytes) : Ledger :=
  (db.idempotency.select fun row => decide (row.key ∈ keys)).foldl
    (fun ledger row => Function.update ledger row.key (some row.messageId)) ledger

/-- Walk the batch, collecting the positions and messages to publish: the
unkeyed ones and the first occurrence of each newly claimed key. -/
def schedule (ledger : Ledger) : List (Publish × ℕ) → List Bytes → List ℕ × List Publish
  | [], _ => ([], [])
  | (message, index) :: rest, scheduledKeys =>
    match message.idempotencyKey with
    | none =>
      let tail := schedule ledger rest scheduledKeys
      (index :: tail.1, message :: tail.2)
    | some key =>
      if ledger key = some none ∧ key ∉ scheduledKeys then
        let tail := schedule ledger rest (key :: scheduledKeys)
        (index :: tail.1, message :: tail.2)
      else schedule ledger rest scheduledKeys

/-- Fill the entries of one chunk of updates. -/
def fillKeys (db : Db) (updates : List (Bytes × ℤ)) : Db :=
  let filled := db.idempotency.updateWhere
    (fun row => updates.any fun update => update.1 == row.key)
    (fun row => ⟨row.key, updates.lookup row.key, row.expiresAt⟩) fun _ => rfl
  { db with idempotency := filled }

/-- The ledger update of one inserted position, if its message is keyed. -/
def updateOf (messages : List Publish) (publishedId : ℕ × ℤ) : Option (Bytes × ℤ) :=
  (messages[publishedId.1]?.bind Publish.idempotencyKey).map fun key => (key, publishedId.2)

/-- Record a filled entry in the map. -/
def recordFill (ledger : Ledger) (update : Bytes × ℤ) : Ledger :=
  Function.update ledger update.1 (some (some update.2))

/-- The outcome of one position of the batch. -/
def outcomeAt (publishedIds : List (ℕ × ℤ)) (ledger : Ledger) (position : Publish × ℕ) :
    Except Error PublishOutcome :=
  match publishedIds.lookup position.2 with
  | some id => .ok (.published id)
  | none =>
    match (position.1.idempotencyKey.bind ledger).join with
    | some id => .ok (.duplicate id)
    | none => .error .incompleteIdempotencyEntry

/-- Publish a batch with one commit. -/
def publishBatch (e : Engine) (fan : Inner) (messages : List Publish) (publishedAt : ℤ) :
    Transaction (List PublishOutcome) := fun db =>
  if messages.isEmpty then .ok (db, [])
  else do
    ensureBatchSize fan messages.length
    if messages.all fun message => message.idempotencyKey.isNone then
      publishUnkeyedBatch e messages publishedAt db
    else
      let expiresAt ← checkedAdd publishedAt fan.idempotencyWindowMs
      let purged := purgeExpiredIdempotency db publishedAt
      let uniqueKeys := e.hashOrder (messages.filterMap Publish.idempotencyKey)
      let claimed := (chunks (maxSqlVariables / 2) uniqueKeys).foldl (claimKeys expiresAt) purged
      let ledger := (chunks maxSqlVariables uniqueKeys).foldl (readKeys claimed) fun _ => none
      let scheduled := schedule ledger messages.zipIdx []
      let inserted := insertMessageRows e claimed scheduled.2 publishedAt
      let publishedIds := scheduled.1.zip inserted.2
      let updates := publishedIds.filterMap (updateOf messages)
      let filled := (chunks (maxSqlVariables / 2) updates).foldl fillKeys inserted.1
      let outcomes ← messages.zipIdx.mapM (outcomeAt publishedIds (updates.foldl recordFill ledger))
      return (filled, outcomes)

/-- Publish one message. -/
def publish (e : Engine) (fan : Inner) (message : Publish) (publishedAt : ℤ) :
    Transaction PublishOutcome := fun db => do
  let result ← publishBatch e fan [message] publishedAt db
  return (result.1, result.2.headI)

/-- Add up one column of the consumer snapshots. -/
def sumColumn (column : ConsumerSnapshot → ℕ) (consumers : List ConsumerSnapshot) :
    Except Error ℕ :=
  consumers.foldlM (fun total consumer =>
    if total + column consumer ≤ 18446744073709551615 then .ok (total + column consumer)
    else .error .counterOutOfRange) 0

/-- Inspect the whole store. -/
def snapshot (db : Db) (now : ℤ) : Except Error StoreSnapshot := do
  let consumers ← fetchConsumerSnapshots db now none
  let outstandingDeliveries ← sumColumn ConsumerSnapshot.outstanding consumers
  let archivedDeliveries ← sumColumn ConsumerSnapshot.archived consumers
  let retainedMessages ← u64TryFrom db.messages.table.rows.length
  let idempotencyKeys ← u64TryFrom db.idempotency.rows.length
  return ⟨retainedMessages, idempotencyKeys, outstandingDeliveries, archivedDeliveries, consumers⟩

/-- Delete a durable consumer identity under an explicit safety policy. -/
def deleteConsumer (name : String) (mode : DeleteMode) : Transaction DeleteOutcome := fun db =>
  match consumerNamed db name with
  | none => .error (.consumerNotFound name)
  | some row => do
    let outstanding ← u64TryFrom
      ((deliveriesOf db row.id).length + (db.messages.select (awaits row)).length)
    let archived ← u64TryFrom (archivesOf db row.id).length
    if mode = .drainedOnly ∧ row.drainingAt.isNone then .error (.consumerNotDraining name)
    else if mode = .drainedOnly ∧ outstanding > 0 then .error (.consumerNotEmpty name outstanding)
    else if mode ≠ .discardAll ∧ archived > 0 then .error (.consumerHasArchives name archived)
    else
      let discarded :=
        if mode = .discardAll then deleteArchives db fun a => a.consumerId == row.id else db
      let deleted ← deleteConsumers discarded fun consumer => consumer.id == row.id
      return (deleted, ⟨outstanding, archived⟩)

/-- The prune predicate: old, and neither delivered, archived nor awaited. -/
def prunable (db : Db) (beforeMs : ℤ) (message : Message) : Bool :=
  decide (message.publishedAtMs < beforeMs) &&
    !(db.deliveries.rows.any fun d => d.messageId == message.id) &&
    !(db.archives.table.rows.any fun a => a.messageId == message.id) &&
    !(db.consumers.table.rows.any fun row => awaits row message)

/-- Delete a bounded number of old messages no consumer still references. -/
def pruneMessages (fan : Inner) (prune : Prune) : Transaction PruneOutcome := fun db =>
  if prune.maxMessages = 0 then .ok (db, ⟨0⟩)
  else do
    ensureBatchSize fan prune.maxMessages
    let _ ← i64TryFrom prune.maxMessages (.invalidConfig "prune max_messages must fit in SQLite")
    let picked := ((db.messages.select
      (prunable db prune.beforeMs)).take prune.maxMessages).map Message.id
    let deleted ← deleteMessages db fun message => decide (message.id ∈ picked)
    return (deleted.1, ⟨deleted.2⟩)

end LiteFan.Store

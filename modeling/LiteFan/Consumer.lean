import LiteFan.Store

/-!
# Consumer creation, leasing, receipts, archives and draining

A claim is three database accesses: a read-only check, the writer transaction,
and a closing read when nothing was leased. Each is a definition of its own, so
that other workers' commits can fall between them. A poll decides after each
claim whether to return or to wait.
-/

namespace LiteFan.Consumer

open LiteFan.Api LiteFan.Time LiteFan.Schema LiteFan.Storage LiteFan.Store Relational

/-- Open or create a durable named consumer. -/
def openConsumer (name : String) (filter : Filter) (now : ℤ) : Transaction Consumer := fun db =>
  if name = "" then .error .emptyConsumerName
  else do
    let inserted ← insertConsumer db name filter.asDatabaseValue now (highWater db)
    match consumerNamed inserted name with
    | none => .error (.sqlx .rowNotFound)
    | some row =>
      if row.topicFilter ≠ filter.asDatabaseValue then
        .error (.consumerConfigurationMismatch name)
      else return (inserted, ⟨row.id, name, filter⟩)

/-- The rewrite of a row that starts draining. -/
def startDraining (now highWater : ℤ) (row : ConsumerRow) : ConsumerRow :=
  { row with drainingAt := some now, drainCursor := some (max row.scanCursor highWater) }

/-- The guarded update that freezes the inbox; true when this call changed the row. -/
def drainTransition (self : Consumer) (now : ℤ) : Transaction Bool := fun db => do
  let guard := fun row : ConsumerRow => row.id == self.id && row.drainingAt.isNone
  let updated ← updateConsumers db guard (startDraining now (highWater db)) fun _ => rfl
  return (updated, (db.consumers.select guard).length == 1)

/-- What the call reports: the transition, or whether the identity still exists. -/
def drainReport (self : Consumer) (changed : Bool) (db : Db) : Except Error Bool :=
  if changed then .ok true
  else if (db.consumers.lookup self.id).isSome then .ok false
  else .error (.consumerDeleted self.name)

/-- Stop future fan-out, with nothing else happening in between. -/
def beginDraining (self : Consumer) (now : ℤ) (db : Db) : Db × Except Error Bool :=
  match commit (drainTransition self now) db with
  | (db', .ok changed) => (db', drainReport self changed db')
  | (db', .error err) => (db', .error err)

/-- Inspect this consumer's durable state and outstanding work. -/
def snapshot (self : Consumer) (now : ℤ) (db : Db) : Except Error ConsumerSnapshot := do
  let snapshots ← fetchConsumerSnapshots db now (some self.id)
  match snapshots.getLast? with
  | some found => .ok found
  | none => .error (.consumerDeleted self.name)

/-- What the two read-only queries of a claim see. -/
structure ClaimState where
  draining : Bool
  scanCursor : ℤ
  scanLimit : ℤ
  earliestVisibleAt : Option ℤ
  deriving DecidableEq

/-- The read-only query of a claim. -/
def claimState (db : Db) (consumerId : ℤ) : Option ClaimState :=
  (db.consumers.lookup consumerId).map fun row => {
    draining := row.drainingAt.isSome
    scanCursor := row.scanCursor
    scanLimit := row.drainCursor.getD (highWater db)
    earliestVisibleAt := ((deliveriesOf db row.id).map DeliveryRow.visibleAt).min? }

/-- What a claim reports to its poll. -/
structure Claim where
  deliveries : List Delivery
  nextVisibleAt : Option ℤ
  draining : Bool
  deriving DecidableEq

/-- A retry has become visible. -/
def retryReady (state : ClaimState) (now : ℤ) : Bool :=
  match state.earliestVisibleAt with
  | none => false
  | some visibleAt => decide (visibleAt ≤ now)

/-- The check that avoids the writer lock: a claim when there is neither a
visible retry nor an unseen log entry. -/
def claimCheck (self : Consumer) (now : ℤ) (db : Db) : Except Error (Option Claim) :=
  match claimState db self.id with
  | none => .error (.consumerDeleted self.name)
  | some state =>
    if !retryReady state now && decide (state.scanLimit ≤ state.scanCursor) then
      .ok (some ⟨[], state.earliestVisibleAt, state.draining⟩)
    else .ok none

/-- The deliveries the retry statement picks, in lease order. -/
def selectVisible (db : Db) (consumerId now : ℤ) (limit : ℕ) : List DeliveryRow :=
  (sortBy (fun d : DeliveryRow => (toLex (d.visibleAt, d.messageId) : ℤ ×ₗ ℤ))
    (db.deliveries.select fun d =>
      d.consumerId == consumerId && decide (d.visibleAt ≤ now))).take limit

/-- Lease a delivery again. -/
def releaseUntil (leaseDeadline : ℤ) (d : DeliveryRow) : DeliveryRow :=
  { d with
    visibleAt := leaseDeadline
    generation := d.generation + 1
    deliveryCount := d.deliveryCount + 1 }

/-- The lease a returned delivery row stands for. -/
def leaseOfRow (d : DeliveryRow) : Lease := ⟨d.messageId, d.generation, d.deliveryCount⟩

/-- The retry statement: lease the picked deliveries and return them. -/
def leaseVisible (e : Engine) (consumerId now leaseDeadline : ℤ) (limit : ℕ) :
    Transaction (List Lease) := fun db => do
  let picked := (selectVisible db consumerId now limit).map DeliveryRow.key
  let chosen := fun d : DeliveryRow => decide (d.key ∈ picked)
  let updated ← updateDeliveries db chosen (releaseUntil leaseDeadline) fun _ => rfl
  return (updated,
    e.returning ((db.deliveries.select chosen).map fun d =>
      leaseOfRow (releaseUntil leaseDeadline d)))

/-- The unseen matching log entries between two cursors. -/
def scanRange (db : Db) (topic : Option String) (scanCursor scanLimit : ℤ) : List Message :=
  db.messages.select fun message =>
    decide (scanCursor < message.id) && decide (message.id ≤ scanLimit) &&
      topicMatches topic message.topic

/-- The first lease of a log entry. -/
def firstLease (consumerId leaseDeadline messageId : ℤ) : DeliveryRow :=
  ⟨consumerId, messageId, leaseDeadline, 1, 1⟩

/-- The scan statement: lease unseen log entries and return their identifiers. -/
def leaseUnseen (e : Engine) (consumerId leaseDeadline : ℤ) (topic : Option String)
    (scanCursor scanLimit : ℤ) (remaining : ℕ) : Transaction (List ℤ) := fun db => do
  let ids := ((scanRange db topic scanCursor scanLimit).take remaining).map Message.id
  let inserted ← insertDeliveries db (ids.map (firstLease consumerId leaseDeadline))
  return (inserted, e.returning ids)

/-- The next search boundary: the scan limit when the scan came back short,
else the last match. -/
def nextCursor (scanCursor scanLimit : ℤ) (remaining : ℕ) (newIds : List ℤ) : ℤ :=
  if newIds.length < remaining then scanLimit else newIds.getLast?.getD scanCursor

/-- Set the consumer's search boundary. -/
def setScanCursor (db : Db) (consumerId scanCursor : ℤ) : Except Error Db :=
  updateConsumers db (fun row => row.id == consumerId)
    (fun row => { row with scanCursor := scanCursor })
    fun _ => rfl

/-- One chunk of a body fetch. -/
def fetchMessageChunk (db : Db) (leases : List Lease) : List Message :=
  db.messages.select fun message => decide (message.id ∈ leases.map Lease.messageId)

/-- Bodies of the leased messages, in identifier order. -/
def fetchMessages (db : Db) (leases : List Lease) : List Message :=
  sortBy Message.id ((chunks maxSqlVariables leases).flatMap (fetchMessageChunk db))

/-- What a committed claim transaction holds. -/
structure Leased where
  leases : List Lease
  messages : List Message
  draining : Bool

/-- The writer transaction of a claim. -/
def claimTransaction (e : Engine) (self : Consumer) (maxMessages : ℕ) (leaseMs now : ℤ) :
    Transaction Leased := fun db => do
  let leaseDeadline ← checkedAdd now leaseMs
  match db.consumers.lookup self.id with
  | none => .error (.consumerDeleted self.name)
  | some row =>
    let scanLimit := row.drainCursor.getD (highWater db)
    let _ ← i64TryFrom maxMessages (.invalidPoll "max_messages is too large")
    let visible ← leaseVisible e self.id now leaseDeadline maxMessages db
    let remaining := maxMessages - visible.2.length
    if remaining > 0 ∧ row.scanCursor < scanLimit then
      let unseen ← leaseUnseen e self.id leaseDeadline row.topicFilter row.scanCursor scanLimit
        remaining visible.1
      let newIds := sortBy id unseen.2
      let moved ← setScanCursor unseen.1 self.id
        (nextCursor row.scanCursor scanLimit remaining newIds)
      let leases := sortBy Lease.messageId
        (visible.2 ++ newIds.map fun messageId => ⟨messageId, 1, 1⟩)
      return (moved, ⟨leases, fetchMessages moved leases, row.drainingAt.isSome⟩)
    else
      let leases := sortBy Lease.messageId visible.2
      return (visible.1, ⟨leases, fetchMessages visible.1 leases, row.drainingAt.isSome⟩)

/-- Pair one lease with its message. -/
def toDelivery (self : Consumer) (pair : Lease × Message) : Except Error Delivery := do
  let deliveryCount ← u64TryFrom pair.1.deliveryCount
  return ⟨pair.2, deliveryCount, ⟨self.id, pair.1.messageId, pair.1.generation⟩⟩

/-- The checks after the commit, and the deliveries they let through. -/
def toDeliveries (self : Consumer) (leased : Leased) : Except Error (List Delivery) :=
  if leased.messages.length ≠ leased.leases.length ∨
      (leased.leases.zip leased.messages).any fun pair => pair.1.messageId != pair.2.id then
    .error (.storageInvariant "a claimed delivery has no matching message")
  else (leased.leases.zip leased.messages).mapM (toDelivery self)

/-- What the committed transaction of a claim reports. -/
structure Granted where
  deliveries : List Delivery
  draining : Bool
  deriving DecidableEq

/-- Run the writer transaction and the checks after its commit. -/
def claimCommit (e : Engine) (self : Consumer) (maxMessages : ℕ) (leaseMs now : ℤ) (db : Db) :
    Db × Except Error Granted :=
  match commit (claimTransaction e self maxMessages leaseMs now) db with
  | (db', .error err) => (db', .error err)
  | (db', .ok leased) =>
    (db', (toDeliveries self leased).map fun deliveries => ⟨deliveries, leased.draining⟩)

/-- The closing read of a claim that leased nothing. -/
def claimReread (self : Consumer) (now : ℤ) (granted : Granted) (db : Db) : Except Error Claim :=
  if granted.deliveries.isEmpty then
    match claimState db self.id with
    | none => .error (.consumerDeleted self.name)
    | some state =>
      .ok ⟨[], if state.scanCursor < state.scanLimit then some now else state.earliestVisibleAt,
        state.draining⟩
  else .ok ⟨granted.deliveries, none, granted.draining⟩

/-- A whole claim, with nothing else happening in between. -/
def claim (e : Engine) (self : Consumer) (maxMessages : ℕ) (leaseMs now : ℤ) (db : Db) :
    Db × Except Error Claim :=
  match claimCheck self now db with
  | .error err => (db, .error err)
  | .ok (some early) => (db, .ok early)
  | .ok none =>
    match claimCommit e self maxMessages leaseMs now db with
    | (db', .error err) => (db', .error err)
    | (db', .ok granted) => (db', claimReread self now granted db')

/-- The lease of a poll's arguments, none when it returns at once. -/
def pollLease (fan : Inner) (poll : Poll) : Except Error (Option ℤ) :=
  if poll.maxMessages = 0 then .ok none
  else do
    ensureBatchSize fan poll.maxMessages
    let leaseMs ← durationMs poll.visibilityTimeout
    if leaseMs = 0 then .error .invalidVisibilityTimeout else return some leaseMs

/-- The writer transaction a poll's claim runs with the poll's own arguments. -/
def pollCommit (e : Engine) (fan : Inner) (self : Consumer) (poll : Poll) (now : ℤ) (db : Db) :
    Db × Except Error Granted :=
  match pollLease fan poll with
  | .error err => (db, .error err)
  | .ok none => (db, .ok ⟨[], false⟩)
  | .ok (some leaseMs) => claimCommit e self poll.maxMessages leaseMs now db

/-- What a poll does with a claim before it looks at its deadline. -/
def pollVerdict (found : Claim) : Option (List Delivery) :=
  if !found.deliveries.isEmpty then some found.deliveries
  else if found.draining && found.nextVisibleAt.isNone then some []
  else none

/-- The monotonic reading a poll waits until, if the clock can hold it. -/
def pollDeadline (instantMax started : ℕ) (poll : Poll) : Except Error ℕ :=
  if started + poll.wait ≤ instantMax then .ok (started + poll.wait)
  else .error (.invalidPoll "wait is too large")

/-- The readings one round of a poll takes: the wall clock before its claim
and the monotonic clock after it. -/
structure Tick where
  now : ℤ
  instant : ℕ

/-- The rounds of a poll with nothing else happening in between, none while it
is still waiting after the given rounds. -/
def pollLoop (e : Engine) (self : Consumer) (maxMessages : ℕ) (leaseMs : ℤ) (deadline : ℕ) :
    List Tick → Db → Db × Except Error (Option (List Delivery))
  | [], db => (db, .ok none)
  | tick :: ticks, db =>
    match claim e self maxMessages leaseMs tick.now db with
    | (db', .error err) => (db', .error err)
    | (db', .ok found) =>
      match pollVerdict found with
      | some deliveries => (db', .ok (some deliveries))
      | none =>
        if deadline - tick.instant = 0 then (db', .ok (some []))
        else pollLoop e self maxMessages leaseMs deadline ticks db'

/-- A poll with nothing else happening in between. -/
def poll (e : Engine) (fan : Inner) (self : Consumer) (options : Poll) (instantMax started : ℕ)
    (ticks : List Tick) (db : Db) : Db × Except Error (Option (List Delivery)) :=
  match pollLease fan options with
  | .error err => (db, .error err)
  | .ok none => (db, .ok (some []))
  | .ok (some leaseMs) =>
    match pollDeadline instantMax started options with
    | .error err => (db, .error err)
    | .ok deadline => pollLoop e self options.maxMessages leaseMs deadline ticks db

/-- How long a poll waits before it claims again, unless it is woken. -/
def sleepFor (fan : Inner) (remaining : Duration) (nextVisibleAt : Option ℤ) (now : ℤ) : Duration :=
  let sleep := min remaining fan.crossProcessPollInterval
  match nextVisibleAt with
  | none => sleep
  | some visibleAt => min sleep (durationUntilMs visibleAt now)

/-- The receipt batches share their guards: an empty batch reports nothing, a
large one is refused. -/
def receiptBatch (fan : Inner) (size : ℕ) (body : Transaction BatchResult) :
    Transaction BatchResult :=
  fun db =>
    if size = 0 then .ok (db, BatchResult.default)
    else do
      ensureBatchSize fan size
      body db

/-- The result of a batch of which some receipts applied. -/
def batchResult (size applied : ℕ) : BatchResult := ⟨applied, size - applied⟩

/-- One chunk of an acknowledgement. -/
def ackChunk (self : Consumer) (acc : Db × ℕ) (receipts : List Receipt) : Db × ℕ :=
  let named := pushReceiptPredicate self.id receipts
  (deleteDeliveries acc.1 named, acc.2 + (acc.1.deliveries.select named).length)

/-- Acknowledge receipts. -/
def ackBatch (fan : Inner) (self : Consumer) (receipts : List Receipt) : Transaction BatchResult :=
  receiptBatch fan receipts.length fun db =>
    let acked := (chunks receiptsPerChunk receipts).foldl (ackChunk self) (db, 0)
    .ok (acked.1, batchResult receipts.length acked.2)

/-- One chunk of a receipt update. -/
def updateChunk (self : Consumer) (f : DeliveryRow → DeliveryRow) (hf : ∀ d, (f d).key = d.key)
    (acc : Db × ℕ) (receipts : List Receipt) : Except Error (Db × ℕ) := do
  let named := pushReceiptPredicate self.id receipts
  let updated ← updateDeliveries acc.1 named f hf
  return (updated, acc.2 + (acc.1.deliveries.select named).length)

/-- Release a delivery for retry, superseding its receipt. -/
def nackRow (visibleAt : ℤ) (d : DeliveryRow) : DeliveryRow :=
  { d with visibleAt := visibleAt, generation := d.generation + 1 }

/-- Release receipts after a shared delay. -/
def nackBatch (fan : Inner) (self : Consumer) (receipts : List Receipt) (retry : Retry) (now : ℤ) :
    Transaction BatchResult :=
  receiptBatch fan receipts.length fun db => do
    let visibleAt ← addDuration now retry.delay
    let nacked ← (chunks receiptsPerChunk receipts).foldlM
      (updateChunk self (nackRow visibleAt) fun _ => rfl) (db, 0)
    return (nacked.1, batchResult receipts.length nacked.2)

/-- Move a deadline later, never earlier. -/
def extendRow (visibleAt : ℤ) (d : DeliveryRow) : DeliveryRow :=
  { d with visibleAt := max d.visibleAt visibleAt }

/-- Extend receipts to one shared deadline. -/
def extendVisibilityBatch (fan : Inner) (self : Consumer) (receipts : List Receipt)
    (visibilityTimeout : Duration) (now : ℤ) : Transaction BatchResult :=
  receiptBatch fan receipts.length fun db => do
    let ms ← durationMs visibilityTimeout
    if ms = 0 then .error .invalidVisibilityTimeout
    else
      let visibleAt ← addDuration now visibilityTimeout
      let extended ← (chunks receiptsPerChunk receipts).foldlM
        (updateChunk self (extendRow visibleAt) fun _ => rfl) (db, 0)
      return (extended.1, batchResult receipts.length extended.2)

/-- A removed delivery on its way into the archive. -/
structure ArchivedLease where
  consumerId : ℤ
  messageId : ℤ
  generation : ℤ
  deliveryCount : ℤ
  deriving DecidableEq

/-- Read the returned columns of a removed delivery. -/
def ArchivedLease.fromRow (d : DeliveryRow) : ArchivedLease :=
  ⟨d.consumerId, d.messageId, d.generation, d.deliveryCount⟩

/-- One chunk of the removals of an archive batch. -/
def archiveChunk (e : Engine) (self : Consumer) (acc : Db × List ArchivedLease)
    (receipts : List Receipt) : Db × List ArchivedLease :=
  let named := pushReceiptPredicate self.id receipts
  (deleteDeliveries acc.1 named,
    acc.2 ++ e.returning ((acc.1.deliveries.select named).map ArchivedLease.fromRow))

/-- Insert one archived lease. -/
def insertArchivedLease (archivedAt : ℤ) (detail : Option String) (db : Db)
    (lease : ArchivedLease) :
    Except Error Db :=
  insertArchive db lease.consumerId lease.messageId archivedAt lease.deliveryCount lease.generation
    detail

/-- Insert archived leases chunk by chunk. -/
def insertArchivedLeases (db : Db) (leases : List ArchivedLease) (archivedAt : ℤ)
    (detail : Option String) : Except Error Db :=
  (chunks (maxSqlVariables / 6) leases).foldlM
    (fun db leases => leases.foldlM (insertArchivedLease archivedAt detail) db) db

/-- Archive current delivery attempts with shared diagnostic detail. -/
def archiveBatchWithDetail (e : Engine) (fan : Inner) (self : Consumer) (receipts : List Receipt)
    (detail : Option String) (archivedAt : ℤ) : Transaction BatchResult :=
  receiptBatch fan receipts.length fun db => do
    let removed := (chunks receiptsPerChunk receipts).foldl (archiveChunk e self) (db, [])
    let archived := sortBy ArchivedLease.messageId removed.2
    let stored ← insertArchivedLeases removed.1 archived archivedAt detail
    return (stored, batchResult receipts.length archived.length)

/-- One row of an archive page. -/
def archivedDelivery (archive : ArchiveRow) (message : Message) :
    Except Error ArchivedDelivery := do
  let deliveryCount ← u64TryFrom archive.deliveryCount
  return ⟨archive.id, message, deliveryCount, archive.archivedAt, archive.detail⟩

/-- List this consumer's archives in archive order, joined to their messages. -/
def archives (fan : Inner) (self : Consumer) (list : ListArchives) (db : Db) :
    Except Error (List ArchivedDelivery) :=
  if list.maxArchives = 0 then .ok []
  else do
    ensureBatchSize fan list.maxArchives
    let _ ← i64TryFrom list.maxArchives (.invalidConfig "archive page size must fit in SQLite")
    let found := db.archives.select fun a =>
      a.consumerId == self.id && decide (list.after.getD 0 < a.id)
    let joined := found.filterMap fun a => (db.messages.lookup a.messageId).map fun m => (a, m)
    (joined.take list.maxArchives).mapM fun pair => archivedDelivery pair.1 pair.2

/-- One chunk of the removals of a redrive. -/
def redriveChunk (e : Engine) (self : Consumer) (acc : Db × List ℤ) (archiveIds : List ℤ) :
    Db × List ℤ :=
  let named := fun a : ArchiveRow => a.consumerId == self.id && decide (a.id ∈ archiveIds)
  (deleteArchives acc.1 named, acc.2 ++
    e.returning ((acc.1.archives.select named).map ArchiveRow.messageId))

/-- A redriven delivery starts a new attempt cycle. -/
def redrivenRow (consumerId visibleAt messageId : ℤ) : DeliveryRow :=
  ⟨consumerId, messageId, visibleAt, 0, 0⟩

/-- Restore archived deliveries with a shared visibility delay. -/
def redriveBatch (e : Engine) (fan : Inner) (self : Consumer) (archiveIds : List ℤ) (retry : Retry)
    (now : ℤ) : Transaction BatchResult :=
  receiptBatch fan archiveIds.length fun db => do
    let visibleAt ← addDuration now retry.delay
    let removed := (chunks (maxSqlVariables - 1) archiveIds).foldl (redriveChunk e self) (db, [])
    let restored ← (chunks (maxSqlVariables / 5) removed.2).foldlM
      (fun db ids => insertDeliveries db (ids.map (redrivenRow self.id visibleAt))) removed.1
    return (restored, batchResult archiveIds.length removed.2.length)

/-- Delete a bounded number of this consumer's old archives. -/
def purgeArchives (fan : Inner) (self : Consumer) (purge : PurgeArchives) :
    Transaction PurgeArchivesOutcome := fun db =>
  if purge.maxArchives = 0 then .ok (db, ⟨0⟩)
  else do
    ensureBatchSize fan purge.maxArchives
    let _ ← i64TryFrom purge.maxArchives (.invalidConfig "archive purge size must fit in SQLite")
    let picked := ((db.archives.select fun a =>
      a.consumerId == self.id && decide (a.archivedAt < purge.beforeMs)).take purge.maxArchives).map
        ArchiveRow.id
    let named := fun a : ArchiveRow => decide (a.id ∈ picked)
    return (deleteArchives db named, ⟨(db.archives.select named).length⟩)

end LiteFan.Consumer

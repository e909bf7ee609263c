import Mathlib.Data.Nat.Notation
import Mathlib.Data.Int.Notation

/-!
# The public data model

Messages, receipts, deliveries, archives, the options of every call and what
each call reports. A duration is its number of nanoseconds and a timestamp its
milliseconds since the Unix epoch.
-/

namespace LiteFan.Api

/-- A message body or an idempotency key. -/
abbrev Bytes := List UInt8

/-- A span of time in nanoseconds. -/
abbrev Duration := ℕ

/-- Whole milliseconds of a span, sub-millisecond precision dropped. -/
def asMillis (duration : Duration) : ℕ := duration / 1000000

/-- Connection, batching and long-poll settings that a check or a call reads. -/
structure Config where
  /-- Maximum number of SQLite connections. -/
  maxConnections : ℕ
  /-- Largest slice accepted by a batch operation. -/
  maxBatchSize : ℕ
  /-- Poll cadence used to discover commits made by another process or handle. -/
  crossProcessPollInterval : Duration
  /-- How long a supplied idempotency key suppresses another publish. -/
  idempotencyWindow : Duration

/-- The default settings. -/
def Config.default : Config where
  maxConnections := 4
  maxBatchSize := 500
  crossProcessPollInterval := 250 * 1000000
  idempotencyWindow := 24 * 60 * 60 * 1000000000

/-- An exact topic filter, or all published messages. -/
inductive Filter where
  | all
  | topic (name : String)
  deriving DecidableEq

/-- The nullable column a filter is stored in. -/
def Filter.asDatabaseValue : Filter → Option String
  | .all => none
  | .topic name => some name

/-- A message to publish. -/
structure Publish where
  /-- Exact topic, if any. -/
  topic : Option String
  /-- Message bytes. -/
  body : Bytes
  /-- Key that suppresses a repeat within the configured window. -/
  idempotencyKey : Option Bytes
  deriving DecidableEq

/-- Whether publishing inserted a message or found an existing idempotency key. -/
inductive PublishOutcome where
  | published (id : ℤ)
  | duplicate (id : ℤ)
  deriving DecidableEq

instance : Inhabited PublishOutcome := ⟨.published 0⟩

/-- The message an outcome names. -/
def PublishOutcome.id : PublishOutcome → ℤ
  | .published n => n
  | .duplicate n => n

/-- Whether the outcome is a new message. -/
def PublishOutcome.isPublished : PublishOutcome → Bool
  | .published _ => true
  | .duplicate _ => false

/-- A stored message and its immutable metadata. -/
structure Message where
  /-- Stable identifier, assigned in publish order. -/
  id : ℤ
  /-- Exact topic, if any. -/
  topic : Option String
  /-- Message bytes. -/
  body : Bytes
  /-- When the message was published. -/
  publishedAtMs : ℤ
  deriving DecidableEq

/-- A capability for one particular lease generation. -/
structure Receipt where
  /-- The consumer the lease belongs to. -/
  consumerId : ℤ
  /-- The leased message. -/
  messageId : ℤ
  /-- The generation the lease was granted at. -/
  generation : ℤ
  deriving DecidableEq

/-- A message leased to a consumer. -/
structure Delivery where
  /-- The stored message. -/
  message : Message
  /-- Number of times this consumer has received the message. -/
  deliveryCount : ℕ
  /-- Capability for this lease. -/
  receipt : Receipt
  deriving DecidableEq

/-- A terminal delivery retained for inspection or redrive. -/
structure ArchivedDelivery where
  /-- Stable archive identifier. -/
  id : ℤ
  /-- The shared message. -/
  message : Message
  /-- Attempts made in the cycle the archive ended. -/
  deliveryCount : ℕ
  /-- When the delivery was archived. -/
  archivedAtMs : ℤ
  /-- Application-specific diagnostic detail. -/
  detail : Option String
  deriving DecidableEq

/-- Bounded, cursor-based archive inspection options. -/
structure ListArchives where
  /-- Return archive identifiers strictly after this one. -/
  after : Option ℤ
  /-- Largest page. -/
  maxArchives : ℕ

/-- Bounded archive-retention cleanup options. -/
structure PurgeArchives where
  /-- Delete archives created strictly before this timestamp. -/
  beforeMs : ℤ
  /-- Largest number of archives to delete. -/
  maxArchives : ℕ

/-- What a purge deleted. -/
structure PurgeArchivesOutcome where
  deletedArchives : ℕ
  deriving DecidableEq

/-- Options for one short or long poll. -/
structure Poll where
  /-- Largest batch. -/
  maxMessages : ℕ
  /-- How long each returned delivery is leased. -/
  visibilityTimeout : Duration
  /-- How long to wait when no work is available. -/
  wait : Duration

/-- When a nacked message becomes eligible for another delivery. -/
inductive Retry where
  | immediately
  | after (span : Duration)

/-- The delay of a retry. -/
def Retry.delay : Retry → Duration
  | .immediately => 0
  | .after span => span

/-- Result of a receipt mutation; stale includes duplicate and wrong-consumer receipts. -/
structure BatchResult where
  applied : ℕ
  stale : ℕ
  deriving DecidableEq

/-- The result of an empty batch. -/
def BatchResult.default : BatchResult := ⟨0, 0⟩

/-- Whether a consumer still accepts newly published messages. -/
inductive ConsumerState where
  | active
  | draining
  deriving DecidableEq

/-- A point-in-time view of one durable consumer and its outstanding work. -/
structure ConsumerSnapshot where
  name : String
  filter : Filter
  state : ConsumerState
  createdAtMs : ℤ
  drainingAtMs : Option ℤ
  /-- All unacknowledged deliveries, including leased and delayed deliveries. -/
  outstanding : ℕ
  /-- Deliveries whose visibility time has arrived. -/
  ready : ℕ
  /-- Earliest future visibility time among outstanding deliveries. -/
  nextReadyAtMs : Option ℤ
  /-- Publish time of the oldest outstanding message. -/
  oldestOutstandingAtMs : Option ℤ
  /-- Terminal deliveries retained for inspection or redrive. -/
  archived : ℕ
  deriving DecidableEq

/-- No unacknowledged delivery is left. -/
def ConsumerSnapshot.isEmpty (snapshot : ConsumerSnapshot) : Bool := snapshot.outstanding == 0

/-- No work is left, and none is fanned out any more. -/
def ConsumerSnapshot.isDrained (snapshot : ConsumerSnapshot) : Bool :=
  decide (snapshot.state = .draining) && snapshot.isEmpty

/-- Outstanding deliveries that are not ready. -/
def ConsumerSnapshot.notReady (snapshot : ConsumerSnapshot) : ℕ :=
  snapshot.outstanding - snapshot.ready

/-- A point-in-time view of the durable state. -/
structure StoreSnapshot where
  retainedMessages : ℕ
  /-- Stored ledger rows, including expired rows awaiting the next keyed publish. -/
  idempotencyKeys : ℕ
  outstandingDeliveries : ℕ
  archivedDeliveries : ℕ
  consumers : List ConsumerSnapshot
  deriving DecidableEq

/-- Safety policy for deleting a durable consumer identity. -/
inductive DeleteMode where
  /-- Only after fan-out has stopped and no outstanding or archived work remains. -/
  | drainedOnly
  /-- Discard outstanding work, but reject retained archives. -/
  | discardOutstanding
  /-- Discard outstanding and archived work. -/
  | discardAll
  deriving DecidableEq

/-- What a deletion discarded. -/
structure DeleteOutcome where
  discardedDeliveries : ℕ
  discardedArchives : ℕ
  deriving DecidableEq

/-- Bounded message-retention cleanup options. -/
structure Prune where
  /-- Delete eligible messages published strictly before this timestamp. -/
  beforeMs : ℤ
  /-- Largest number of messages to delete in one transaction. -/
  maxMessages : ℕ

/-- What a prune deleted. -/
structure PruneOutcome where
  deletedMessages : ℕ
  deriving DecidableEq

/-- A handle to one durable consumer identity. -/
structure Consumer where
  /-- The identity's row key. -/
  id : ℤ
  /-- The durable name. -/
  name : String
  /-- The filter the identity was opened with. -/
  filter : Filter
  deriving DecidableEq

/-- How a SQL statement fails: a violated schema constraint, or a missing row. -/
inductive SqlxError where
  | primaryKey
  | unique
  | check
  | foreignKey
  | rowNotFound
  deriving DecidableEq

/-- The public failure contract. -/
inductive Error where
  /-- SQLite rejected a statement. -/
  | sqlx (cause : SqlxError)
  | batchTooLarge (requested maximum : ℕ)
  | consumerConfigurationMismatch (name : String)
  | emptyConsumerName
  | invalidConfig (message : String)
  | invalidPoll (message : String)
  | invalidVisibilityTimeout
  | incompleteIdempotencyEntry
  | consumerDeleted (name : String)
  | consumerNotFound (name : String)
  | consumerNotDraining (name : String)
  | consumerNotEmpty (name : String) (outstanding : ℕ)
  | consumerHasArchives (name : String) (archived : ℕ)
  | clockBeforeUnixEpoch
  | durationOutOfRange
  | counterOutOfRange
  | storageInvariant (message : String)
  deriving DecidableEq

end LiteFan.Api

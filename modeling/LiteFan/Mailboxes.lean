import LiteFan.Engines
import LiteFan.Rounds
import LiteFan.Relational.View

/-!
# A store that fans out when it publishes

What the store is for: every consumer has a mailbox, a published message is put
at once into the mailbox of every active consumer whose filter it matches, a
poll takes copies out in order, and a mailbox has no cursor, no boundary and no
high-water mark. A copy that was taken out is a delivery until it is
acknowledged or archived. Nothing here scans the log for what a consumer has yet
to see.
-/

namespace LiteFan.Mailboxes

open LiteFan.Api LiteFan.Time LiteFan.Schema LiteFan.Storage LiteFan.Store LiteFan.Consumer
open LiteFan.System LiteFan.Effect LiteFan.Calls LiteFan.Alike LiteFan.Refusals LiteFan.Engines
open Relational

/-- One durable identity with the copies it was never handed. -/
structure Mailbox where
  id : ℤ
  name : String
  topicFilter : Option String
  createdAt : ℤ
  /-- Null while the mailbox takes new copies. -/
  drainingAt : Option ℤ
  /-- The copies never handed out, oldest first. -/
  fresh : List Message

/-- The durable state of a store that fans out when it publishes. -/
structure Post where
  messages : AutoTable Message Message.id
  idempotency : Table IdempotencyRow IdempotencyRow.key
  boxes : AutoTable Mailbox Mailbox.id
  deliveries : Table DeliveryRow DeliveryRow.key
  archives : AutoTable ArchiveRow ArchiveRow.id

/-- A freshly created store. -/
def Post.empty : Post :=
  ⟨AutoTable.empty, Table.empty, AutoTable.empty, Table.empty, AutoTable.empty⟩

/-- The tables that know nothing of how messages reach a consumer. -/
def Post.shared (post : Post) : Db :=
  ⟨post.messages, post.idempotency, AutoTable.empty, post.deliveries, post.archives⟩

/-- Put changed tables back. -/
def Post.restore (post : Post) (db : Db) : Post :=
  ⟨db.messages, db.idempotency, post.boxes, db.deliveries, db.archives⟩

/-- The mailbox of a name. -/
def Post.boxNamed (post : Post) (name : String) : Option Mailbox :=
  post.boxes.table.rows.find? fun box => box.name == name

/-- A copy of the message is put into the mailbox when it is published. -/
def Mailbox.accepts (box : Mailbox) (message : Message) : Bool :=
  box.drainingAt.isNone && topicMatches box.topicFilter message.topic

/-- Put copies of new messages into a mailbox. -/
def Mailbox.deliver (new : List Message) (box : Mailbox) : Mailbox :=
  { box with fresh := box.fresh ++ new.filter box.accepts }

/-- Take the oldest copies out of a mailbox. -/
def Mailbox.takeOut (count : ℕ) (box : Mailbox) : Mailbox :=
  { box with fresh := box.fresh.drop count }

/-- Close a mailbox to new copies. -/
def Mailbox.close (now : ℤ) (box : Mailbox) : Mailbox := { box with drainingAt := some now }

theorem Mailbox.deliver_id (new : List Message) (box : Mailbox) : (box.deliver new).id = box.id :=
  rfl

theorem Mailbox.takeOut_id (count : ℕ) (box : Mailbox) : (box.takeOut count).id = box.id := rfl

theorem Mailbox.close_id (now : ℤ) (box : Mailbox) : (box.close now).id = box.id := rfl

/-- A new mailbox is empty. -/
def newBox (name : String) (filter : Filter) (now id : ℤ) : Mailbox :=
  ⟨id, name, filter.asDatabaseValue, now, none, []⟩

theorem newBox_id (name : String) (filter : Filter) (now id : ℤ) :
    (newBox name filter now id).id = id := rfl

section Operations

variable (post : Post)

/-- Store a batch and put a copy of every new message into the mailboxes that accept it. -/
def Post.publish (fan : Inner) (messages : List Publish) (now : ℤ) : Post :=
  let stored := publishing fan messages now post.shared
  let new := stored.messages.select fun message => decide (post.messages.seq < message.id)
  { post.restore stored with
    boxes := post.boxes.updateWhere (fun _ => true) (Mailbox.deliver new)
      (Mailbox.deliver_id new) }

/-- The copies a claim takes out: as many as it has room for after the visible retries. -/
def Post.takes (box : Mailbox) (now : ℤ) (limit : ℕ) : List Message :=
  box.fresh.take (remaining post.shared box.id now limit)

/-- The leases of a claim, by message. -/
def Post.leases (box : Mailbox) (now deadline : ℤ) (limit : ℕ) : List Lease :=
  sortBy Lease.messageId (retriedLeases post.shared box.id now deadline limit ++
    (post.takes box now limit).map fun message => ⟨message.id, 1, 1⟩)

/-- The deliveries a claim hands out. -/
def Post.handed (box : Mailbox) (now deadline : ℤ) (limit : ℕ) : List Delivery :=
  (post.leases box now deadline limit).filterMap (deliveryOfLease post.shared box.id)

/-- The store after a claim. -/
def Post.claimed (box : Mailbox) (now deadline : ℤ) (limit : ℕ) : Post :=
  { post with
    boxes := post.boxes.updateWhere (fun other => other.id == box.id)
      (Mailbox.takeOut (remaining post.shared box.id now limit))
      (Mailbox.takeOut_id (remaining post.shared box.id now limit))
    deliveries := (releasedTable post.shared box.id now deadline limit).insertMany
      ((post.takes box now limit).map fun message => firstLease box.id deadline message.id) }

/-- Close the mailbox of an identity, if it is still open. -/
def Post.closed (c now : ℤ) : Post :=
  { post with
    boxes := post.boxes.updateWhere (fun box => box.id == c && box.drainingAt.isNone)
      (Mailbox.close now) (Mailbox.close_id now) }

/-- Whether there is an open mailbox to close. -/
def Post.closes (c : ℤ) : Bool := ((post.boxes.lookup c).any fun box => box.drainingAt.isNone)

/-- The number of copies a mailbox still owes. -/
def Post.owes (box : Mailbox) : ℕ := (deliveriesOf post.shared box.id).length + box.fresh.length

/-- The number of archived copies of a mailbox. -/
def Post.archived (box : Mailbox) : ℕ := (archivesOf post.shared box.id).length

/-- Remove a mailbox with everything that belongs to it. -/
def Post.removed (box : Mailbox) : Post :=
  { post with
    boxes := post.boxes.deleteWhere fun other => other.id == box.id
    deliveries := post.deliveries.deleteWhere fun d => d.consumerId == box.id
    archives := post.archives.deleteWhere fun a => a.consumerId == box.id }

/-- No copy of the message exists outside the log. -/
def Post.idle (beforeMs : ℤ) (message : Message) : Bool :=
  decide (message.publishedAtMs < beforeMs) &&
    !(post.deliveries.rows.any fun d => d.messageId == message.id) &&
    !(post.archives.table.rows.any fun a => a.messageId == message.id) &&
    !(post.boxes.table.rows.any fun box => box.fresh.any fun copy => copy.id == message.id)

/-- The messages a prune picks. -/
def Post.pruned (prune : Prune) : List ℤ :=
  ((post.messages.select (post.idle prune.beforeMs)).take prune.maxMessages).map Message.id

/-- The first guard of a deletion that fails. -/
def Post.deleteRefusal (name : String) (mode : DeleteMode) (box : Mailbox) : Option Error :=
  if mode = .drainedOnly ∧ box.drainingAt.isNone then some (.consumerNotDraining name)
  else if mode = .drainedOnly ∧ post.owes box > 0 then
    some (.consumerNotEmpty name (post.owes box))
  else if mode ≠ .discardAll ∧ post.archived box > 0 then
    some (.consumerHasArchives name (post.archived box))
  else none

/-- Why a transaction is refused, none when it commits. -/
def Post.refusal (fan : Inner) : Op → Option Error
  | .openConsumer name filter _ =>
    if name = "" then some .emptyConsumerName
    else
      match post.boxNamed name with
      | none => none
      | some box =>
        refuseIf (box.topicFilter ≠ filter.asDatabaseValue) (.consumerConfigurationMismatch name)
  | .claim handle poll now =>
    sizedRefusal fan poll.maxMessages ((leaseRefusal poll.visibilityTimeout).or
      ((lateRefusal now poll.visibilityTimeout).or
        (refuseIf ((post.boxes.lookup handle.id).isNone) (.consumerDeleted handle.name))))
  | .deleteConsumer name mode =>
    match post.boxNamed name with
    | none => some (.consumerNotFound name)
    | some box => post.deleteRefusal name mode box
  | op => Refusals.refusal fan post.shared op

/-- What a transaction whose guards pass leaves and replies. -/
def Post.outcome (fan : Inner) : Op → Post × Reply
  | .openConsumer name filter now =>
    match post.boxNamed name with
    | none =>
      ({ post with
        boxes := post.boxes.append (newBox name filter now) (newBox_id name filter now) },
        .opened ⟨post.boxes.seq + 1, name, filter⟩)
    | some box => ({ post with boxes := post.boxes.bump }, .opened ⟨box.id, name, filter⟩)
  | .publishBatch messages now =>
    (post.publish fan messages now, .outcomes (assigned now post.shared messages).outcomes)
  | .claim handle poll now =>
    sizedOutcome poll.maxMessages post (.granted ⟨[], false⟩)
      (match post.boxes.lookup handle.id with
      | none => (post, .granted ⟨[], false⟩)
      | some box =>
        (post.claimed box now (now + asMillis poll.visibilityTimeout) poll.maxMessages,
          .granted ⟨post.handed box now (now + asMillis poll.visibilityTimeout) poll.maxMessages,
            box.drainingAt.isSome⟩))
  | .beginDraining handle now => (post.closed handle.id now, .drained (post.closes handle.id))
  | .deleteConsumer name _ =>
    match post.boxNamed name with
    | none => (post, .deleted ⟨0, 0⟩)
    | some box => (post.removed box, .deleted ⟨post.owes box, post.archived box⟩)
  | .pruneMessages prune =>
    ({ post with
      messages := post.messages.deleteWhere fun message =>
        decide (message.id ∈ post.pruned prune) },
      .pruned ⟨(post.messages.select fun message =>
        decide (message.id ∈ post.pruned prune)).length⟩)
  | op =>
    let result := Engines.outcome fan post.shared op
    (post.restore result.1, result.2)

/-- Run one transaction. -/
def Post.exec (fan : Inner) (op : Op) : Post × Except Error Reply :=
  match post.refusal fan op with
  | some err => (post, .error err)
  | none => ((post.outcome fan op).1, .ok (post.outcome fan op).2)

/-- The snapshot of a mailbox. -/
def Post.snapshotOf (now : ℤ) (box : Mailbox) : ConsumerSnapshot where
  name := box.name
  filter := match box.topicFilter with
    | some name => .topic name
    | none => .all
  state := if box.drainingAt.isSome then .draining else .active
  createdAtMs := box.createdAt
  drainingAtMs := box.drainingAt
  outstanding := post.owes box
  ready := ((deliveriesOf post.shared box.id).filter fun d => decide (d.visibleAt ≤ now)).length +
    box.fresh.length
  nextReadyAtMs :=
    (((deliveriesOf post.shared box.id).filter fun d =>
      decide (now < d.visibleAt)).map DeliveryRow.visibleAt).min?
  oldestOutstandingAtMs := ((post.messages.select fun message =>
    (deliveriesOf post.shared box.id).any (fun d => d.messageId == message.id) ||
      box.fresh.any fun copy => copy.id == message.id).map Message.publishedAtMs).min?
  archived := post.archived box

/-- Add up one number of each mailbox. -/
def Post.total (count : Post → Mailbox → ℕ) : ℕ := (post.boxes.table.rows.map (count post)).sum

/-- The snapshot of the store. -/
def Post.storeSnapshot (now : ℤ) : Except Error StoreSnapshot :=
  if post.total Post.owes ≤ u64Max ∧ post.total Post.archived ≤ u64Max then
    .ok ⟨post.messages.table.rows.length, post.idempotency.rows.length, post.total Post.owes,
      post.total Post.archived,
      (sortBy Mailbox.name post.boxes.table.rows).map (post.snapshotOf now)⟩
  else .error .counterOutOfRange

/-- One poll: the copies it takes out, and when the next one is due if there are none. -/
def Post.poll (fan : Inner) (handle : Consumer) (options : Poll) (start : Start) (now : ℤ) :
    Post × Except Error (Option Claim) :=
  match argumentRefusal fan options start with
  | some err => (post, .error err)
  | none =>
    if options.maxMessages = 0 then (post, .ok none)
    else
      match post.boxes.lookup handle.id with
      | none => (post, .error (.consumerDeleted handle.name))
      | some box =>
        let deadline := now + asMillis options.visibilityTimeout
        let left := post.claimed box now deadline options.maxMessages
        (left, .ok (some (foundIn (post.handed box now deadline options.maxMessages)
          (deliveriesOf left.shared box.id) box.drainingAt.isSome)))

/-- Answer a call. -/
def Post.run (fan : Inner) : Call → Post × Except Error Answer
  | .commit op => ((post.exec fan op).1, (post.exec fan op).2.map .reply)
  | .poll handle options start now =>
    ((post.poll fan handle options start now).1,
      (post.poll fan handle options start now).2.map .polled)
  | .archives handle list => (post, (Consumer.archives fan handle list post.shared).map .page)
  | .beginDraining handle now =>
    if (post.boxes.lookup handle.id).isSome then
      (post.closed handle.id now, .ok (.drained (post.closes handle.id)))
    else (post, .error (.consumerDeleted handle.name))
  | .consumerSnapshot handle now =>
    (post, match post.boxes.lookup handle.id with
      | some box => .ok (.consumerSnapshot (post.snapshotOf now box))
      | none => .error (.consumerDeleted handle.name))
  | .snapshot now => (post, (post.storeSnapshot now).map .snapshot)

end Operations

/-- The answers of calls made one after the other. -/
def Post.answers : List (Inner × Call) → Post → List (Except Error Answer)
  | [], _ => []
  | (fan, call) :: calls, post => (post.run fan call).2 :: Post.answers calls (post.run fan call).1

end LiteFan.Mailboxes

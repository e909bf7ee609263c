import LiteFan.Effect.Snapshots
import LiteFan.Relational.Query

/-!
# The queries as they are written

The queries that count, list and pick are expressions over the tables, with the
null values and the joins of the source. Evaluated in three truth values they
return what the functions on the typed rows compute: a message without topic
matches no topic, a consumer without deliveries still joins once, and an
aggregate over nothing is null.
-/

namespace LiteFan.Selects

open LiteFan.Api LiteFan.Time LiteFan.Schema LiteFan.Storage LiteFan.Store LiteFan.Consumer
open LiteFan.Effect Relational

/-- The tables, and the one that a query names for itself. -/
inductive TableName where
  | messages
  | idempotency
  | consumers
  | deliveries
  | archivedDeliveries
  | highWater
  deriving DecidableEq

/-- The names that the queries give to the rows they look at. -/
inductive Alias where
  | message
  | consumer
  | delivery
  | archive
  | highWater
  /-- `litefan_messages` under its own name. -/
  | messages
  deriving DecidableEq

/-- The columns. -/
inductive Column where
  | id
  | topic
  | body
  | publishedAt
  | name
  | topicFilter
  | createdAt
  | drainingAt
  | scanCursor
  | drainCursor
  | consumerId
  | messageId
  | visibleAt
  | generation
  | deliveryCount
  | archivedAt
  | lastGeneration
  | detail
  | key
  | expiresAt
  deriving DecidableEq

/-- `litefan_messages`. -/
def messageColumns (message : Message) : Row Column
  | .id => .int message.id
  | .topic => .ofOption .text message.topic
  | .body => .blob message.body
  | .publishedAt => .int message.publishedAtMs
  | _ => .null

/-- `litefan_idempotency`. -/
def idempotencyColumns (row : IdempotencyRow) : Row Column
  | .key => .blob row.key
  | .messageId => .ofOption .int row.messageId
  | .expiresAt => .int row.expiresAt
  | _ => .null

/-- `litefan_consumers`. -/
def consumerColumns (row : ConsumerRow) : Row Column
  | .id => .int row.id
  | .name => .text row.name
  | .topicFilter => .ofOption .text row.topicFilter
  | .createdAt => .int row.createdAt
  | .drainingAt => .ofOption .int row.drainingAt
  | .scanCursor => .int row.scanCursor
  | .drainCursor => .ofOption .int row.drainCursor
  | _ => .null

/-- `litefan_deliveries`. -/
def deliveryColumns (d : DeliveryRow) : Row Column
  | .consumerId => .int d.consumerId
  | .messageId => .int d.messageId
  | .visibleAt => .int d.visibleAt
  | .generation => .int d.generation
  | .deliveryCount => .int d.deliveryCount
  | _ => .null

/-- `litefan_archived_deliveries`. -/
def archiveColumns (a : ArchiveRow) : Row Column
  | .id => .int a.id
  | .consumerId => .int a.consumerId
  | .messageId => .int a.messageId
  | .archivedAt => .int a.archivedAt
  | .deliveryCount => .int a.deliveryCount
  | .lastGeneration => .int a.lastGeneration
  | .detail => .ofOption .text a.detail
  | _ => .null

/-- The rows of the tables. -/
def tablesOf (db : Db) : Tables TableName Column
  | .messages => db.messages.table.rows.map messageColumns
  | .idempotency => db.idempotency.rows.map idempotencyColumns
  | .consumers => db.consumers.table.rows.map consumerColumns
  | .deliveries => db.deliveries.rows.map deliveryColumns
  | .archivedDeliveries => db.archives.table.rows.map archiveColumns
  | .highWater => []

section Source

/-- An expression of the queries. -/
abbrev Sql := Expr TableName Alias Column

/-- A number in a query, or one bound to it. -/
def number (n : ℤ) : Sql := .literal (.int n)

/-- `SELECT COALESCE(MAX(id), 0) FROM litefan_messages`. -/
def newestId : Sql :=
  .coalesce (.max (.column .messages .id) [(.messages, .messages)] (number 1)) (number 0)

/-- `consumer.topic_filter IS NULL OR message.topic = consumer.topic_filter`. -/
def topicClause : Sql :=
  .either (.isNull (.column .consumer .topicFilter))
    (.compare .eq (.column .message .topic) (.column .consumer .topicFilter))

/-- The unscanned messages of a consumer, where it deletes and where messages are pruned. -/
def awaitsClause : Sql :=
  .both (.both (.compare .gt (.column .message .id) (.column .consumer .scanCursor))
    (.either (.isNull (.column .consumer .drainCursor))
      (.compare .le (.column .message .id) (.column .consumer .drainCursor)))) topicClause

/-- The unscanned messages of a consumer, where snapshots are taken. -/
def awaitsBelowClause : Sql :=
  .both (.both (.compare .gt (.column .message .id) (.column .consumer .scanCursor))
    (.compare .le (.column .message .id)
      (.coalesce (.column .consumer .drainCursor) (.column .highWater .id)))) topicClause

/-- `delivery.consumer_id = consumer.id`. -/
def ownDelivery : Sql := .compare .eq (.column .delivery .consumerId) (.column .consumer .id)

/-- `(SELECT COUNT(*) FROM litefan_archived_deliveries AS archive WHERE …)`. -/
def archivedColumn : Sql :=
  .count [(.archivedDeliveries, .archive)]
    (.compare .eq (.column .archive .consumerId) (.column .consumer .id))

/-- The columns of a snapshot. -/
def snapshotColumns (now : ℤ) : List Sql :=
  [.column .consumer .name, .column .consumer .topicFilter, .column .consumer .createdAt,
    .column .consumer .drainingAt,
    .plus (.count [(.deliveries, .delivery)] ownDelivery)
      (.count [(.messages, .message), (.highWater, .highWater)] awaitsBelowClause),
    .plus (.count [(.deliveries, .delivery)]
        (.both ownDelivery (.compare .le (.column .delivery .visibleAt) (number now))))
      (.count [(.messages, .message), (.highWater, .highWater)] awaitsBelowClause),
    .min (.column .delivery .visibleAt) [(.deliveries, .delivery)]
      (.both ownDelivery (.compare .gt (.column .delivery .visibleAt) (number now))),
    .min (.column .message .publishedAt) [(.messages, .message), (.highWater, .highWater)]
      (.either
        (.exists [(.deliveries, .delivery)]
          (.both ownDelivery
            (.compare .eq (.column .delivery .messageId) (.column .message .id))))
        awaitsBelowClause),
    archivedColumn]

/-- `WITH high_water(id) AS (SELECT COALESCE(MAX(id), 0) FROM litefan_messages)`. -/
def withHighWater (db : Db) : Tables TableName Column :=
  (tablesOf db).withRow .highWater .id newestId

/-- `FROM litefan_consumers AS consumer`, and the condition when it is for one consumer. -/
def snapshotClause : Option ℤ → Sql
  | none => number 1
  | some consumerId => .compare .eq (.column .consumer .id) (number consumerId)

/-- The rows of the snapshot query, in the order of the names. -/
def snapshotRows (db : Db) (now : ℤ) (consumerId : Option ℤ) : List (List Value) :=
  sortBy (fun row => (row.headI.text?).getD "")
    ((selected (withHighWater db) [(.consumers, .consumer)] (snapshotClause consumerId)).map
      (project (withHighWater db) (snapshotColumns now)))

/-- A column that a query returned. -/
def field (row : List Value) (position : ℕ) : Value := row.getD position .null

/-- A column that is a number. -/
def intField (row : List Value) (position : ℕ) : ℤ := (field row position).int?.getD 0

/-- A snapshot as it is read from a row. -/
def readSnapshot (row : List Value) : Except Error ConsumerSnapshot := do
  let outstanding ← u64TryFrom (intField row 4)
  let ready ← u64TryFrom (intField row 5)
  let archived ← u64TryFrom (intField row 8)
  return {
    name := (field row 0).text?.getD ""
    filter := match (field row 1).text? with
      | some topic => .topic topic
      | none => .all
    state := if (field row 3).int?.isSome then .draining else .active
    createdAtMs := intField row 2
    drainingAtMs := (field row 3).int?
    outstanding := outstanding
    ready := ready
    nextReadyAtMs := (field row 6).int?
    oldestOutstandingAtMs := (field row 7).int?
    archived := archived }

/-- The columns of the guards of a deletion. -/
def guardColumns : List Sql :=
  [.column .consumer .id, .column .consumer .drainingAt,
    .plus (.count [(.deliveries, .delivery)] ownDelivery)
      (.count [(.messages, .message)] awaitsClause),
    archivedColumn]

/-- The rows of the guards of a deletion. -/
def guardRows (db : Db) (name : String) : List (List Value) :=
  (selected (tablesOf db) [(.consumers, .consumer)]
    (.compare .eq (.column .consumer .name) (.literal (.text name)))).map
      (project (tablesOf db) guardColumns)

/-- The columns of a claim's read-only query that are not aggregates. -/
def claimColumns : List Sql :=
  [.column .consumer .drainingAt, .column .consumer .scanCursor,
    .coalesce (.column .consumer .drainCursor) newestId]

/-- `LEFT JOIN litefan_deliveries … WHERE consumer.id = ? GROUP BY consumer.id`. -/
def claimGroups (db : Db) (consumerId : ℤ) : List (List (Scope Alias Column)) :=
  groupBy (tablesOf db) (.column .consumer .id)
    ((leftJoin (tablesOf db) (.consumers, .consumer) (.deliveries, .delivery) ownDelivery).filter
      (holds (tablesOf db) (.compare .eq (.column .consumer .id) (number consumerId))))

/-- The rows of a claim's read-only query: the least deadline comes with the columns of the
group. -/
def claimRows (db : Db) (consumerId : ℤ) : List (List Value) :=
  (claimGroups db consumerId).map fun group =>
    project (tablesOf db) claimColumns group.headI ++
      [.minimum (group.map (eval (tablesOf db) (.column .delivery .visibleAt)))]

/-- A claim's state as it is read from a row. -/
def readClaimState (row : List Value) : ClaimState where
  draining := (field row 0).int?.isSome
  scanCursor := intField row 1
  scanLimit := intField row 2
  earliestVisibleAt := (field row 3).int?

/-- The keys that the retry statement picks: `ORDER BY visible_at, message_id LIMIT ?`. -/
def retryRows (db : Db) (consumerId now : ℤ) (limit : ℕ) : List (List Value) :=
  ((orderByTwo (tablesOf db) (.column .delivery .visibleAt) (.column .delivery .messageId)
    (selected (tablesOf db) [(.deliveries, .delivery)]
      (.both (.compare .eq (.column .delivery .consumerId) (number consumerId))
        (.compare .le (.column .delivery .visibleAt) (number now))))).take limit).map
      (project (tablesOf db) [.column .delivery .consumerId, .column .delivery .messageId])

/-- `WHERE id > ? AND id <= ?`, with the topic when there is one. -/
def scanClause (topic : Option String) (scanCursor scanLimit : ℤ) : Sql :=
  let range : Sql := .both (.compare .gt (.column .messages .id) (number scanCursor))
    (.compare .le (.column .messages .id) (number scanLimit))
  match topic with
  | none => range
  | some name => .both range (.compare .eq (.column .messages .topic) (.literal (.text name)))

/-- The identifiers that the scan statement picks: `ORDER BY id LIMIT ?`. -/
def scanRows (db : Db) (topic : Option String) (scanCursor scanLimit : ℤ) (limit : ℕ) :
    List (List Value) :=
  ((orderBy (tablesOf db) (.column .messages .id)
    (selected (tablesOf db) [(.messages, .messages)]
      (scanClause topic scanCursor scanLimit))).take limit).map
    (project (tablesOf db) [.column .messages .id])

/-- `WHERE id IN (…) ORDER BY id`, of one chunk of leases. -/
def bodyRows (db : Db) (leases : List Lease) : List (List Value) :=
  (orderBy (tablesOf db) (.column .messages .id)
    (selected (tablesOf db) [(.messages, .messages)]
      (.anyOf (leases.map fun lease =>
        .compare .eq (.column .messages .id) (number lease.messageId))))).map
    (project (tablesOf db) [.column .messages .id, .column .messages .topic,
      .column .messages .body, .column .messages .publishedAt])

/-- A message as it is read from a row. -/
def readMessage (row : List Value) : Message where
  id := intField row 0
  topic := (field row 1).text?
  body := (field row 2).blob?.getD []
  publishedAtMs := intField row 3

/-- `consumer_id = ? AND (consumer_id, message_id, generation) IN (…)`. -/
def receiptClause (consumerId : ℤ) (receipts : List Receipt) : Sql :=
  .both (.compare .eq (.column .delivery .consumerId) (number consumerId))
    (.anyOf (receipts.map fun receipt =>
      .both (.both
        (.compare .eq (.column .delivery .consumerId) (number receipt.consumerId))
        (.compare .eq (.column .delivery .messageId) (number receipt.messageId)))
        (.compare .eq (.column .delivery .generation) (number receipt.generation))))

/-- The condition of the messages to prune. -/
def pruneClause (beforeMs : ℤ) : Sql :=
  .both (.both (.both (.compare .lt (.column .message .publishedAt) (number beforeMs))
    (.negate (.exists [(.deliveries, .delivery)]
      (.compare .eq (.column .delivery .messageId) (.column .message .id)))))
    (.negate (.exists [(.archivedDeliveries, .archive)]
      (.compare .eq (.column .archive .messageId) (.column .message .id)))))
    (.negate (.exists [(.consumers, .consumer)] awaitsClause))

/-- The identifiers that are pruned: `ORDER BY message.id LIMIT ?`. -/
def pruneRows (db : Db) (beforeMs : ℤ) (limit : ℕ) : List (List Value) :=
  ((orderBy (tablesOf db) (.column .message .id)
    (selected (tablesOf db) [(.messages, .message)] (pruneClause beforeMs))).take limit).map
    (project (tablesOf db) [.column .message .id])

/-- `JOIN litefan_messages AS message ON … WHERE archive.consumer_id = ? AND archive.id > ?`. -/
def archiveClause (consumerId after : ℤ) : Sql :=
  .both (.compare .eq (.column .message .id) (.column .archive .messageId))
    (.both (.compare .eq (.column .archive .consumerId) (number consumerId))
      (.compare .gt (.column .archive .id) (number after)))

/-- The columns of a page of archives. -/
def archivePageColumns : List Sql :=
  [.column .archive .id, .column .archive .archivedAt, .column .archive .deliveryCount,
    .column .archive .detail, .column .message .id, .column .message .topic,
    .column .message .body, .column .message .publishedAt]

/-- The archives joined to their messages: `ORDER BY archive.id LIMIT ?`. -/
def archiveRows (db : Db) (consumerId after : ℤ) (limit : ℕ) : List (List Value) :=
  ((orderBy (tablesOf db) (.column .archive .id)
    (selected (tablesOf db) [(.archivedDeliveries, .archive), (.messages, .message)]
      (archiveClause consumerId after))).take limit).map
    (project (tablesOf db) archivePageColumns)

/-- An archive as it is read from a row. -/
def readArchived (row : List Value) : Except Error ArchivedDelivery := do
  let deliveryCount ← u64TryFrom (intField row 2)
  return ⟨intField row 0, readMessage (row.drop 4), deliveryCount, intField row 1,
    (field row 3).text?⟩

/-- The identifiers of the archives to purge: `ORDER BY id LIMIT ?`. -/
def purgeRows (db : Db) (consumerId beforeMs : ℤ) (limit : ℕ) : List (List Value) :=
  ((orderBy (tablesOf db) (.column .archive .id)
    (selected (tablesOf db) [(.archivedDeliveries, .archive)]
      (.both (.compare .eq (.column .archive .consumerId) (number consumerId))
        (.compare .lt (.column .archive .archivedAt) (number beforeMs))))).take limit).map
    (project (tablesOf db) [.column .archive .id])

/-- `WHERE id = ? AND draining_at IS NULL`. -/
def drainClause (consumerId : ℤ) : Sql :=
  .both (.compare .eq (.column .consumer .id) (number consumerId))
    (.isNull (.column .consumer .drainingAt))

/-- `drain_cursor = MAX(scan_cursor, (SELECT COALESCE(MAX(id), 0) FROM litefan_messages))`. -/
def drainCursorColumn : Sql := .greatest (.column .consumer .scanCursor) newestId

end Source

section Clauses

variable {db : Db} {tables : Tables TableName Column} {scope : Scope Alias Column}
  {message : Message} {row : ConsumerRow}

/-- The newest identifier, or zero. -/
theorem eval_newestId (db : Db) (scope : Scope Alias Column) :
    eval (tablesOf db) newestId scope = .int (highWater db) := by
  have hmax : eval (tablesOf db) (.max (.column .messages .id) [(.messages, .messages)] (number 1))
      scope = .ofOption .int ((db.messages.table.rows.filter fun _ => true).map Message.id).max? :=
    eval_max (bindings_of rfl) (fun _ => rfl) fun _ => rfl
  rw [List.filter_true] at hmax
  exact eval_coalesce_int hmax rfl

/-- A consumer without filter takes everything; one with a filter takes no message without
topic. -/
theorem holds_topicClause (hrow : scope.lookup .consumer = some (consumerColumns row))
    (hmessage : scope.lookup .message = some (messageColumns message)) :
    holds tables topicClause scope = topicMatches row.topicFilter message.topic := by
  have hfilter : eval tables (.column .consumer .topicFilter) scope =
      .ofOption .text row.topicFilter := Scope.column_of hrow _
  have htopic : eval tables (.column .message .topic) scope = .ofOption .text message.topic :=
    Scope.column_of hmessage _
  rw [topicClause, holds_either, holds_isNull, holds_eq_text htopic hfilter, hfilter]
  unfold topicMatches
  cases row.topicFilter with
  | none => rfl
  | some name => cases message.topic <;> simp [Value.ofOption]

/-- The unscanned messages of a consumer, compared with its own boundary. -/
theorem holds_awaitsClause (hrow : scope.lookup .consumer = some (consumerColumns row))
    (hmessage : scope.lookup .message = some (messageColumns message)) :
    holds tables awaitsClause scope = awaits row message := by
  have hid : eval tables (.column .message .id) scope = .int message.id :=
    Scope.column_of hmessage _
  have hscan : eval tables (.column .consumer .scanCursor) scope = .int row.scanCursor :=
    Scope.column_of hrow _
  have hdrain : eval tables (.column .consumer .drainCursor) scope =
      .ofOption .int row.drainCursor := Scope.column_of hrow _
  have hlimit : holds tables (.either (.isNull (.column .consumer .drainCursor))
      (.compare .le (.column .message .id) (.column .consumer .drainCursor))) scope =
      (match row.drainCursor with
        | none => true
        | some limit => decide (message.id ≤ limit)) := by
    rw [holds_either, holds_isNull, hdrain]
    cases hcursor : row.drainCursor with
    | none => rfl
    | some limit =>
      rw [hcursor] at hdrain
      rw [holds_compare_int hid hdrain]
      rfl
  rw [awaitsClause, holds_both, holds_both, holds_compare_int hid hscan, hlimit,
    holds_topicClause hrow hmessage]
  rfl

/-- The unscanned messages of a consumer, compared with its boundary or the newest message. -/
theorem holds_awaitsBelowClause {highWater : ℤ}
    (hrow : scope.lookup .consumer = some (consumerColumns row))
    (hmessage : scope.lookup .message = some (messageColumns message))
    (hnewest : eval tables (.column .highWater .id) scope = .int highWater) :
    holds tables awaitsBelowClause scope = awaitsBelow highWater row message := by
  have hid : eval tables (.column .message .id) scope = .int message.id :=
    Scope.column_of hmessage _
  have hscan : eval tables (.column .consumer .scanCursor) scope = .int row.scanCursor :=
    Scope.column_of hrow _
  have hdrain : eval tables (.column .consumer .drainCursor) scope =
      .ofOption .int row.drainCursor := Scope.column_of hrow _
  rw [awaitsBelowClause, holds_both, holds_both, holds_compare_int hid hscan,
    holds_compare_int hid (eval_coalesce_int hdrain hnewest), holds_topicClause hrow hmessage]
  rfl

/-- The rows of a consumer among those that name one. -/
theorem holds_own {source : Alias} {columns : Row Column} {c : ℤ}
    (hcolumns : scope.lookup source = some columns) (hc : columns .consumerId = .int c)
    (hrow : scope.lookup .consumer = some (consumerColumns row)) :
    holds tables (.compare .eq (.column source .consumerId) (.column .consumer .id)) scope =
      (c == row.id) := by
  have howner : eval tables (.column source .consumerId) scope = .int c :=
    (Scope.column_of hcolumns _).trans hc
  have hid : eval tables (.column .consumer .id) scope = .int row.id := Scope.column_of hrow _
  rw [holds_compare_int howner hid]
  rfl

end Clauses

section Snapshots

variable (db : Db) (row : ConsumerRow)

/-- The query's own table holds the newest identifier. -/
theorem withHighWater_own :
    withHighWater db .highWater = [Function.update (fun _ => .null) .id (.int (highWater db))] := by
  rw [withHighWater, Tables.withRow, Function.update_self, eval_newestId]

variable {db row}

/-- The archived copies of a consumer are counted. -/
theorem eval_archivedColumn {tables : Tables TableName Column} {scope : Scope Alias Column}
    (htable : tables .archivedDeliveries = db.archives.table.rows.map archiveColumns)
    (hrow : scope.lookup .consumer = some (consumerColumns row)) :
    eval tables archivedColumn scope = .int (archivesOf db row.id).length := by
  refine eval_count (bindings_of htable) fun a => ?_
  exact holds_own rfl rfl hrow

/-- The deliveries of a consumer that satisfy a further condition. -/
theorem filter_deliveriesOf (p : DeliveryRow → Bool) :
    db.deliveries.rows.filter (fun d => d.consumerId == row.id && p d) =
      (deliveriesOf db row.id).filter p := by
  have hcomm : (fun d : DeliveryRow => d.consumerId == row.id && p d) =
      fun d => p d && d.consumerId == row.id := funext fun d => Bool.and_comm _ _
  rw [hcomm]
  exact List.filter_filter.symm

section Scope

variable {tables : Tables TableName Column} {scope : Scope Alias Column}

/-- The deliveries of a consumer are counted. -/
theorem eval_deliveryCount
    (htable : tables .deliveries = db.deliveries.rows.map deliveryColumns)
    (hrow : scope.lookup .consumer = some (consumerColumns row)) :
    eval tables (.count [(.deliveries, .delivery)] ownDelivery) scope =
      .int (deliveriesOf db row.id).length :=
  eval_count (bindings_of htable) fun _ => holds_own rfl rfl hrow

end Scope

variable (db row) (now : ℤ)

/-- A snapshot looks at one consumer's row. -/
def ofConsumer : Scope Alias Column := [(.consumer, consumerColumns row)]

/-- The unscanned messages are counted below the boundary. -/
theorem eval_unscannedCount :
    eval (withHighWater db) (.count [(.messages, .message), (.highWater, .highWater)]
      awaitsBelowClause) (ofConsumer row) =
      .int (db.messages.select (awaitsBelow (highWater db) row)).length := by
  refine eval_count (bindings_of_single rfl (withHighWater_own db)) fun message => ?_
  exact holds_awaitsBelowClause rfl rfl rfl

/-- The deliveries that are visible, or that are not yet. -/
theorem holds_visibility (op : Comparison) (d : DeliveryRow) :
    holds (withHighWater db) (.both ownDelivery
      (.compare op (.column .delivery .visibleAt) (number now)))
      ((.delivery, deliveryColumns d) :: ofConsumer row) =
      (d.consumerId == row.id && op.ofInts d.visibleAt now) := by
  have hvisible : eval (withHighWater db) (.column .delivery .visibleAt)
      ((.delivery, deliveryColumns d) :: ofConsumer row) = .int d.visibleAt := rfl
  have hown : holds (withHighWater db) ownDelivery
      ((.delivery, deliveryColumns d) :: ofConsumer row) = (d.consumerId == row.id) :=
    holds_own rfl rfl rfl
  rw [holds_both, hown, holds_compare_int hvisible rfl]

/-- The visible deliveries are counted. -/
theorem eval_visibleCount :
    eval (withHighWater db) (.count [(.deliveries, .delivery)]
      (.both ownDelivery (.compare .le (.column .delivery .visibleAt) (number now))))
      (ofConsumer row) =
      .int ((deliveriesOf db row.id).filter fun d => decide (d.visibleAt ≤ now)).length := by
  rw [← filter_deliveriesOf]
  exact eval_count (bindings_of rfl) fun d => holds_visibility db row now .le d

/-- The first delivery that is not yet visible. -/
theorem eval_nextReady :
    eval (withHighWater db) (.min (.column .delivery .visibleAt) [(.deliveries, .delivery)]
      (.both ownDelivery (.compare .gt (.column .delivery .visibleAt) (number now))))
      (ofConsumer row) =
      .ofOption .int ((((deliveriesOf db row.id).filter fun d =>
        decide (now < d.visibleAt)).map DeliveryRow.visibleAt).min?) := by
  rw [← filter_deliveriesOf]
  exact eval_min (bindings_of rfl) (fun d => holds_visibility db row now .gt d) fun _ => rfl

/-- A message is owed when one of the consumer's deliveries names it, or when it is unscanned. -/
theorem eval_oldestOutstanding :
    eval (withHighWater db) (.min (.column .message .publishedAt)
      [(.messages, .message), (.highWater, .highWater)]
      (.either (.exists [(.deliveries, .delivery)] (.both ownDelivery
        (.compare .eq (.column .delivery .messageId) (.column .message .id)))) awaitsBelowClause))
      (ofConsumer row) =
      .ofOption .int (((db.messages.select fun message =>
        (deliveriesOf db row.id).any (fun d => d.messageId == message.id) ||
          awaitsBelow (highWater db) row message).map Message.publishedAtMs).min?) := by
  refine eval_min (bindings_of_single rfl (withHighWater_own db)) (fun message => ?_) fun _ => rfl
  have hnamed : ∀ (scope : Scope Alias Column),
      scope.lookup .consumer = some (consumerColumns row) →
      scope.lookup .message = some (messageColumns message) →
      holds (withHighWater db) (.exists [(.deliveries, .delivery)] (.both ownDelivery
        (.compare .eq (.column .delivery .messageId) (.column .message .id)))) scope =
        (deliveriesOf db row.id).any fun d => d.messageId == message.id := by
    intro scope hrow hmessage
    have hany : (deliveriesOf db row.id).any (fun d => d.messageId == message.id) =
        db.deliveries.rows.any fun d => d.consumerId == row.id && d.messageId == message.id :=
      List.any_filter
    rw [hany]
    refine holds_exists_bound (bindings_of rfl) fun d => ?_
    have hlookup : List.lookup Alias.message ((.delivery, deliveryColumns d) :: scope) =
        some (messageColumns message) := hmessage
    have hown : holds (withHighWater db) ownDelivery ((.delivery, deliveryColumns d) :: scope) =
        (d.consumerId == row.id) := holds_own rfl rfl hrow
    have hid : holds (withHighWater db)
        (.compare .eq (.column .delivery .messageId) (.column .message .id))
        ((.delivery, deliveryColumns d) :: scope) = (d.messageId == message.id) :=
      holds_compare_int rfl (Scope.column_of hlookup _)
    rw [holds_both, hown, hid]
  rw [holds_either, holds_awaitsBelowClause rfl rfl rfl, hnamed _ rfl rfl]

/-- The row that reports a snapshot. -/
def snapshotValues (found : ConsumerSnapshot) : List Value :=
  [.text found.name, .ofOption .text found.filter.asDatabaseValue, .int found.createdAtMs,
    .ofOption .int found.drainingAtMs, .int found.outstanding, .int found.ready,
    .ofOption .int found.nextReadyAtMs, .ofOption .int found.oldestOutstandingAtMs,
    .int found.archived]

/-- The messages owed are the same below the newest message. -/
theorem owed_eq : (db.messages.select fun message =>
    (deliveriesOf db row.id).any (fun d => d.messageId == message.id) ||
      awaitsBelow (highWater db) row message) = db.messages.select fun message =>
    (deliveriesOf db row.id).any (fun d => d.messageId == message.id) || awaits row message :=
  Table.select_congr fun message h => by rw [awaitsBelow_eq h]

/-- Each column of a snapshot. -/
theorem project_snapshotColumns :
    project (withHighWater db) (snapshotColumns now) (ofConsumer row) =
      snapshotValues (snapshotOf db now row) := by
  have hunscanned := eval_unscannedCount db row
  have hdelivered : eval (withHighWater db) (.count [(.deliveries, .delivery)] ownDelivery)
      (ofConsumer row) = .int (deliveriesOf db row.id).length := eval_deliveryCount rfl rfl
  have harchived : eval (withHighWater db) archivedColumn (ofConsumer row) =
      .int (archivesOf db row.id).length := eval_archivedColumn rfl rfl
  have houtstanding := eval_plus_int hdelivered hunscanned
  have hready := eval_plus_int (eval_visibleCount db row now) hunscanned
  simp only [project, snapshotColumns, List.map_cons, List.map_nil]
  rw [houtstanding, hready, eval_nextReady, eval_oldestOutstanding, harchived]
  have hfilter : (snapshotOf db now row).filter.asDatabaseValue = row.topicFilter := by
    unfold snapshotOf
    cases row.topicFilter <;> rfl
  rw [select_awaitsBelow, owed_eq, snapshotValues, hfilter]
  simp only [snapshotOf, outstandingCount, archivedCount, Nat.cast_add]
  rfl

/-- A snapshot is read back from the row that reports it. -/
theorem readSnapshot_values {found : ConsumerSnapshot}
    (hstate : found.state = if found.drainingAtMs.isSome then .draining else .active) :
    readSnapshot (snapshotValues found) = .ok found := by
  have houtstanding : intField (snapshotValues found) 4 = found.outstanding := rfl
  have hready : intField (snapshotValues found) 5 = found.ready := rfl
  have harchived : intField (snapshotValues found) 8 = found.archived := rfl
  have hdraining : (field (snapshotValues found) 3).int? = found.drainingAtMs :=
    Value.int?_ofOption _
  have hnext : (field (snapshotValues found) 6).int? = found.nextReadyAtMs :=
    Value.int?_ofOption _
  have holdest : (field (snapshotValues found) 7).int? = found.oldestOutstandingAtMs :=
    Value.int?_ofOption _
  have hfilter : (match (field (snapshotValues found) 1).text? with
      | some topic => .topic topic
      | none => .all) = found.filter := by
    cases hf : found.filter <;> simp [field, snapshotValues, hf, Filter.asDatabaseValue]
  unfold readSnapshot
  rw [houtstanding, hready, harchived, hdraining, hnext, holdest, hfilter, u64TryFrom_nat,
    u64TryFrom_nat, u64TryFrom_nat, ← hstate]
  rfl

/-- One row for each consumer that the condition chooses, in the order of the names. -/
theorem snapshotRows_of {consumerId : Option ℤ} {p : ConsumerRow → Bool}
    (hp : ∀ row, holds (withHighWater db) (snapshotClause consumerId) (ofConsumer row) = p row) :
    snapshotRows db now consumerId = (sortBy ConsumerRow.name (db.consumers.select p)).map
      fun row => snapshotValues (snapshotOf db now row) := by
  have hbind : bindings (withHighWater db) [(.consumers, .consumer)] [] =
      db.consumers.table.rows.map ofConsumer := bindings_of rfl
  have hselected : selected (withHighWater db) [(.consumers, .consumer)]
      (snapshotClause consumerId) = (db.consumers.select p).map ofConsumer := by
    rw [selected, hbind]
    exact filter_bound hp
  have hrows : (db.consumers.select p).map (project (withHighWater db) (snapshotColumns now) ∘
      ofConsumer) = (db.consumers.select p).map fun row => snapshotValues (snapshotOf db now row) :=
    List.map_congr_left fun row _ => project_snapshotColumns db row now
  rw [snapshotRows, hselected, List.map_map, hrows, sortBy_map]
  rfl

/-- The snapshots are what the query returns. -/
theorem fetchConsumerSnapshots_eq (consumerId : Option ℤ) :
    fetchConsumerSnapshots db now consumerId =
      (snapshotRows db now consumerId).mapM readSnapshot := by
  have hread : (readSnapshot ∘ fun row => snapshotValues (snapshotOf db now row)) =
      consumerSnapshot db now := funext fun row =>
    (readSnapshot_values rfl).trans (consumerSnapshot_eq db now row).symm
  cases consumerId with
  | none =>
    rw [snapshotRows_of db now fun _ => rfl, List.mapM_map, hread]
    rfl
  | some id =>
    rw [snapshotRows_of db now fun _ => holds_compare_int rfl rfl, List.mapM_map, hread]
    rfl

end Snapshots

section Guards

variable (db : Db) (row : ConsumerRow)

/-- The row that the guards of a deletion are checked on. -/
def guardValues : List Value :=
  [.int row.id, .ofOption .int row.drainingAt, .int (outstandingCount db row),
    .int (archivedCount db row)]

/-- The columns of the guards. -/
theorem project_guardColumns :
    project (tablesOf db) guardColumns (ofConsumer row) = guardValues db row := by
  have hunscanned : eval (tablesOf db) (.count [(.messages, .message)] awaitsClause)
      (ofConsumer row) = .int (db.messages.select (awaits row)).length :=
    eval_count (bindings_of rfl) fun message => holds_awaitsClause rfl rfl
  have hdelivered : eval (tablesOf db) (.count [(.deliveries, .delivery)] ownDelivery)
      (ofConsumer row) = .int (deliveriesOf db row.id).length := eval_deliveryCount rfl rfl
  have harchived : eval (tablesOf db) archivedColumn (ofConsumer row) =
      .int (archivesOf db row.id).length := eval_archivedColumn rfl rfl
  have houtstanding := eval_plus_int hdelivered hunscanned
  simp only [project, guardColumns, List.map_cons, List.map_nil]
  rw [houtstanding, harchived]
  simp only [guardValues, outstandingCount, archivedCount, Nat.cast_add]
  rfl

/-- A deletion is guarded by the row of the consumer it names. -/
theorem guardRows_eq (name : String) :
    (guardRows db name).head? = (consumerNamed db name).map (guardValues db) := by
  have hbind : bindings (tablesOf db) [(.consumers, .consumer)] [] =
      db.consumers.table.rows.map ofConsumer := bindings_of rfl
  have hselected : selected (tablesOf db) [(.consumers, .consumer)]
      (.compare .eq (.column .consumer .name) (.literal (.text name))) =
      (db.consumers.table.rows.filter fun row => row.name == name).map ofConsumer := by
    rw [selected, hbind]
    refine filter_bound fun row => ?_
    exact holds_eq_text (s := some row.name) (t := some name) rfl rfl
  rw [guardRows, hselected, List.map_map, List.head?_map, List.head?_filter]
  exact congrFun (congrArg Option.map (funext fun row => project_guardColumns db row)) _

end Guards

section Claims

variable (db : Db)

/-- The joined rows of one consumer: its deliveries, or a row of nulls. -/
def joinedOf (row : ConsumerRow) : List (Scope Alias Column) :=
  if (deliveriesOf db row.id).isEmpty then
    [[(.delivery, fun _ => .null), (.consumer, consumerColumns row)]]
  else (deliveriesOf db row.id).map fun d =>
    [(.delivery, deliveryColumns d), (.consumer, consumerColumns row)]

/-- The joined rows of a consumer have its columns. -/
theorem joinedOf_lookup {row : ConsumerRow} {scope : Scope Alias Column}
    (h : scope ∈ joinedOf db row) : scope.lookup .consumer = some (consumerColumns row) := by
  unfold joinedOf at h
  split at h
  · rw [List.mem_singleton.mp h]
    rfl
  · obtain ⟨d, -, rfl⟩ := List.mem_map.mp h
    rfl

/-- A consumer without deliveries is joined all the same. -/
theorem joinedOf_ne_nil (row : ConsumerRow) : joinedOf db row ≠ [] := by
  unfold joinedOf
  split
  · exact List.cons_ne_nil _ _
  · rename_i hne
    rw [Ne, List.map_eq_nil_iff]
    exact fun hnil => hne (hnil ▸ rfl)

/-- The rows that the claim's query groups are those of one consumer. -/
theorem joined_of (consumerId : ℤ) :
    (leftJoin (tablesOf db) (.consumers, .consumer) (.deliveries, .delivery) ownDelivery).filter
      (holds (tablesOf db) (.compare .eq (.column .consumer .id) (number consumerId))) =
      (db.consumers.lookup consumerId).toList.flatMap (joinedOf db) := by
  have hjoin : leftJoin (tablesOf db) (.consumers, .consumer) (.deliveries, .delivery)
      ownDelivery = db.consumers.table.rows.flatMap (joinedOf db) :=
    leftJoin_of rfl rfl fun _ _ => holds_own rfl rfl rfl
  have hkey := db.consumers.table.select_key consumerId
  rw [hjoin, filter_flatMap_of (p := fun row => decide (row.id = consumerId))]
  · exact congrArg (List.flatMap (joinedOf db)) hkey
  · intro row scope hscope
    exact holds_compare_int (Scope.column_of (joinedOf_lookup db hscope) .id) rfl

/-- The least deadline of the joined rows: a row of nulls has none. -/
theorem minimum_joinedOf (row : ConsumerRow) :
    Value.minimum ((joinedOf db row).map (eval (tablesOf db) (.column .delivery .visibleAt))) =
      .ofOption .int ((deliveriesOf db row.id).map DeliveryRow.visibleAt).min? := by
  unfold joinedOf
  cases hown : deliveriesOf db row.id with
  | nil => rfl
  | cons d ds =>
    rw [← minimum_int]
    simp only [List.isEmpty_cons, Bool.false_eq_true, if_false, List.map_map]
    rfl

/-- The row of a claim's read-only query. -/
theorem claimRows_eq (consumerId : ℤ) :
    (claimRows db consumerId).head?.map readClaimState = claimState db consumerId := by
  unfold claimRows claimGroups claimState
  rw [joined_of]
  cases db.consumers.lookup consumerId with
  | none => rfl
  | some row =>
    have hgroup : groupBy (tablesOf db) (.column .consumer .id) (joinedOf db row) =
        [joinedOf db row] := groupBy_single (joinedOf_ne_nil db row) fun scope hscope =>
      Scope.column_of (joinedOf_lookup db hscope) .id
    have hfirst : (joinedOf db row).headI.lookup .consumer = some (consumerColumns row) := by
      refine joinedOf_lookup db ?_
      cases hjoined : joinedOf db row with
      | nil => exact absurd hjoined (joinedOf_ne_nil db row)
      | cons scope scopes => exact List.mem_cons_self
    have hcolumns : project (tablesOf db) claimColumns (joinedOf db row).headI =
        [.ofOption .int row.drainingAt, .int row.scanCursor,
          .int (row.drainCursor.getD (highWater db))] := by
      simp only [project, claimColumns, List.map_cons, List.map_nil]
      have hdrain : eval (tablesOf db) (.column .consumer .drainCursor) (joinedOf db row).headI =
          .ofOption .int row.drainCursor := Scope.column_of hfirst _
      have hdraining : eval (tablesOf db) (.column .consumer .drainingAt) (joinedOf db row).headI =
          .ofOption .int row.drainingAt := Scope.column_of hfirst _
      have hscan : eval (tablesOf db) (.column .consumer .scanCursor) (joinedOf db row).headI =
          .int row.scanCursor := Scope.column_of hfirst _
      rw [eval_coalesce_int hdrain (eval_newestId db _), hdraining, hscan]
    rw [Option.toList_some, List.flatMap_singleton, hgroup, List.map_singleton, hcolumns,
      minimum_joinedOf]
    simp only [List.cons_append, List.nil_append, List.head?_cons, Option.map_some,
      readClaimState, field, intField, List.getD_cons_zero, List.getD_cons_succ,
      Value.int?_ofOption]
    rfl

end Claims

section Statements

variable (db : Db)

/-- A delivery alone. -/
def ofDelivery (d : DeliveryRow) : Scope Alias Column := [(.delivery, deliveryColumns d)]

/-- An archive alone. -/
def ofArchive (a : ArchiveRow) : Scope Alias Column := [(.archive, archiveColumns a)]

/-- A message alone, under either name. -/
def ofMessage (source : Alias) (message : Message) : Scope Alias Column :=
  [(source, messageColumns message)]

/-- Deliveries are selected by their columns. -/
theorem selected_deliveries {cond : Sql} {p : DeliveryRow → Bool}
    (h : ∀ d, holds (tablesOf db) cond (ofDelivery d) = p d) :
    selected (tablesOf db) [(.deliveries, .delivery)] cond =
      (db.deliveries.select p).map ofDelivery := by
  have hbind : bindings (tablesOf db) [(.deliveries, .delivery)] [] =
      db.deliveries.rows.map ofDelivery := bindings_of rfl
  rw [selected, hbind]
  exact filter_bound h

/-- Messages are selected in the order of their identifiers. -/
theorem ordered_messages {source : Alias} {cond : Sql} {p : Message → Bool}
    (h : ∀ message, holds (tablesOf db) cond (ofMessage source message) = p message) :
    orderBy (tablesOf db) (.column source .id)
      (selected (tablesOf db) [(.messages, source)] cond) =
      (db.messages.select p).map (ofMessage source) := by
  have hbind : bindings (tablesOf db) [(.messages, source)] [] =
      db.messages.table.rows.map (ofMessage source) := bindings_of rfl
  have hordered : sortBy Message.id (db.messages.select p) = db.messages.select p :=
    sortBy_eq_of_perm (List.Perm.refl _) (db.messages.table.select_sorted p)
  have hselected : selected (tablesOf db) [(.messages, source)] cond =
      (db.messages.select p).map (ofMessage source) := by
    rw [selected, hbind]
    exact filter_bound h
  have hkey : ∀ message, eval (tablesOf db) (.column source .id) (ofMessage source message) =
      .int message.id := by
    intro message
    have hrow : (ofMessage source message).lookup source = some (messageColumns message) := by
      simp [ofMessage]
    exact Scope.column_of hrow _
  rw [hselected, orderBy_of hkey, hordered]

/-- Archives are selected in the order of their identifiers. -/
theorem ordered_archives {cond : Sql} {p : ArchiveRow → Bool}
    (h : ∀ a, holds (tablesOf db) cond (ofArchive a) = p a) :
    orderBy (tablesOf db) (.column .archive .id)
      (selected (tablesOf db) [(.archivedDeliveries, .archive)] cond) =
      (db.archives.select p).map ofArchive := by
  have hbind : bindings (tablesOf db) [(.archivedDeliveries, .archive)] [] =
      db.archives.table.rows.map ofArchive := bindings_of rfl
  have hordered : sortBy ArchiveRow.id (db.archives.select p) = db.archives.select p :=
    sortBy_eq_of_perm (List.Perm.refl _) (db.archives.table.select_sorted p)
  have hselected : selected (tablesOf db) [(.archivedDeliveries, .archive)] cond =
      (db.archives.select p).map ofArchive := by
    rw [selected, hbind]
    exact filter_bound h
  rw [hselected, orderBy_of (g := ArchiveRow.id) fun _ => rfl, hordered]

/-- The retry statement picks the due deliveries, the longest overdue first. -/
theorem retryRows_eq (consumerId now : ℤ) (limit : ℕ) :
    retryRows db consumerId now limit =
      (selectVisible db consumerId now limit).map fun d =>
        [.int d.consumerId, .int d.messageId] := by
  have hcond : ∀ d, holds (tablesOf db)
      (.both (.compare .eq (.column .delivery .consumerId) (number consumerId))
        (.compare .le (.column .delivery .visibleAt) (number now))) (ofDelivery d) =
      (d.consumerId == consumerId && decide (d.visibleAt ≤ now)) := fun _ =>
    holds_both_of (holds_compare_int rfl rfl) (holds_compare_int rfl rfl)
  unfold retryRows selectVisible
  rw [selected_deliveries db hcond, orderByTwo_of (g := DeliveryRow.visibleAt)
    (h := DeliveryRow.messageId) (fun _ => rfl) fun _ => rfl, ← List.map_take, List.map_map]
  rfl

/-- The scan statement picks the first matching messages between the two cursors. -/
theorem scanRows_eq (topic : Option String) (scanCursor scanLimit : ℤ) (limit : ℕ) :
    scanRows db topic scanCursor scanLimit limit =
      ((scanRange db topic scanCursor scanLimit).take limit).map fun message =>
        [.int message.id] := by
  have hcond : ∀ message, holds (tablesOf db) (scanClause topic scanCursor scanLimit)
      (ofMessage .messages message) = (decide (scanCursor < message.id) &&
        decide (message.id ≤ scanLimit) && topicMatches topic message.topic) := by
    intro message
    have hrange : holds (tablesOf db) (.both
        (.compare .gt (.column .messages .id) (number scanCursor))
        (.compare .le (.column .messages .id) (number scanLimit))) (ofMessage .messages message) =
        (decide (scanCursor < message.id) && decide (message.id ≤ scanLimit)) :=
      holds_both_of (holds_compare_int rfl rfl) (holds_compare_int rfl rfl)
    cases topic with
    | none =>
      rw [topicMatches, Bool.and_true]
      exact hrange
    | some name =>
      have htopic : holds (tablesOf db)
          (.compare .eq (.column .messages .topic) (.literal (.text name)))
          (ofMessage .messages message) = (message.topic == some name) := by
        rw [holds_eq_text (s := message.topic) (t := some name) rfl rfl]
        cases message.topic <;> rfl
      exact holds_both_of hrange htopic
  unfold scanRows scanRange
  rw [ordered_messages db hcond, ← List.map_take, List.map_map]
  rfl

/-- A body fetch reads the messages that the leases name. -/
theorem bodyRows_eq (leases : List Lease) :
    (bodyRows db leases).map readMessage = fetchMessageChunk db leases := by
  have hcond : ∀ message, holds (tablesOf db) (.anyOf (leases.map fun lease =>
      .compare .eq (.column .messages .id) (number lease.messageId)))
      (ofMessage .messages message) = decide (message.id ∈ leases.map Lease.messageId) := by
    intro message
    have hnamed : holds (tablesOf db) (.anyOf ((leases.map Lease.messageId).map fun id =>
        .compare .eq (.column .messages .id) (.literal (.int id)))) (ofMessage .messages message) =
        decide (message.id ∈ leases.map Lease.messageId) := holds_in_ints rfl
    rw [List.map_map] at hnamed
    exact hnamed
  have hread : ∀ message, readMessage (project (tablesOf db) [.column .messages .id,
      .column .messages .topic, .column .messages .body, .column .messages .publishedAt]
      (ofMessage .messages message)) = message := by
    intro message
    have htopic : (Value.ofOption .text message.topic).text? = message.topic :=
      Value.text?_ofOption _
    exact congrArg (fun topic : Option String => { message with topic }) htopic
  unfold bodyRows fetchMessageChunk
  rw [ordered_messages db hcond, List.map_map, List.map_map]
  exact List.map_id'' hread _

/-- A receipt names a delivery in its current generation. -/
theorem selected_receipts (consumerId : ℤ) (receipts : List Receipt) :
    selected (tablesOf db) [(.deliveries, .delivery)] (receiptClause consumerId receipts) =
      (db.deliveries.select (pushReceiptPredicate consumerId receipts)).map ofDelivery := by
  refine selected_deliveries db fun d => holds_both_of (holds_compare_int rfl rfl) ?_
  have hone : ∀ receipt : Receipt, holds (tablesOf db) (.both (.both
      (.compare .eq (.column .delivery .consumerId) (number receipt.consumerId))
      (.compare .eq (.column .delivery .messageId) (number receipt.messageId)))
      (.compare .eq (.column .delivery .generation) (number receipt.generation)))
      (ofDelivery d) = (receipt.consumerId == d.consumerId && receipt.messageId == d.messageId &&
        receipt.generation == d.generation) := by
    intro receipt
    refine holds_both_of (holds_both_of ?_ ?_) ?_
    · exact (holds_compare_int rfl rfl).trans (Comparison.ofInts_eq _ _)
    · exact (holds_compare_int rfl rfl).trans (Comparison.ofInts_eq _ _)
    · exact (holds_compare_int rfl rfl).trans (Comparison.ofInts_eq _ _)
  rw [holds_anyOf, List.any_map]
  exact List.any_congr rfl hone

/-- A message is pruned when it is old, and neither delivered, archived nor awaited. -/
theorem holds_pruneClause (beforeMs : ℤ) (message : Message) :
    holds (tablesOf db) (pruneClause beforeMs) (ofMessage .message message) =
      prunable db beforeMs message := by
  refine holds_both_of (holds_both_of (holds_both_of (holds_compare_int rfl rfl) ?_) ?_) ?_
  · exact holds_not_exists_bound (bindings_of rfl) fun d => holds_compare_int rfl rfl
  · exact holds_not_exists_bound (bindings_of rfl) fun a => holds_compare_int rfl rfl
  · exact holds_not_exists_bound (bindings_of rfl) fun row => holds_awaitsClause rfl rfl

/-- A prune picks the first such messages. -/
theorem pruneRows_eq (beforeMs : ℤ) (limit : ℕ) :
    pruneRows db beforeMs limit = ((db.messages.select (prunable db beforeMs)).take limit).map
      fun message => [.int message.id] := by
  unfold pruneRows
  rw [ordered_messages db (holds_pruneClause db beforeMs), ← List.map_take, List.map_map]
  rfl

/-- An archive bound with the message it joins. -/
def ofJoined (pair : ArchiveRow × Message) : Scope Alias Column :=
  [(.message, messageColumns pair.2), (.archive, archiveColumns pair.1)]

/-- An archive with its message. -/
def withMessage (a : ArchiveRow) : Option (ArchiveRow × Message) :=
  (db.messages.lookup a.messageId).map fun message => (a, message)

/-- `WHERE archive.consumer_id = ? AND archive.id > ?`. -/
def onPage (consumerId after : ℤ) (a : ArchiveRow) : Bool :=
  a.consumerId == consumerId && decide (after < a.id)

/-- `JOIN litefan_messages AS message ON message.id = archive.message_id WHERE …`. -/
theorem holds_archiveClause (consumerId after : ℤ) (a : ArchiveRow) (message : Message) :
    holds (tablesOf db) (archiveClause consumerId after) (ofJoined (a, message)) =
      (decide (message.id = a.messageId) && onPage consumerId after a) :=
  holds_both_of (holds_compare_int rfl rfl)
    (holds_both_of (holds_compare_int rfl rfl) (holds_compare_int rfl rfl))

/-- The messages that are joined to one archive. -/
theorem joined_messages (consumerId after : ℤ) (a : ArchiveRow) :
    ((db.messages.table.rows.map fun message => ofJoined (a, message)).filter
      (holds (tablesOf db) (archiveClause consumerId after))) =
      if onPage consumerId after a then (withMessage db a).toList.map ofJoined else [] := by
  rw [filter_bound (holds_archiveClause db consumerId after a)]
  cases hpage : onPage consumerId after a with
  | false => simp
  | true =>
    have hkey : (db.messages.table.rows.filter fun message => decide (message.id = a.messageId)) =
        (db.messages.lookup a.messageId).toList := db.messages.table.select_key a.messageId
    simp only [Bool.and_true, if_true, hkey, withMessage]
    cases db.messages.lookup a.messageId <;> rfl

/-- The join finds the message of each of the consumer's archives. -/
theorem selected_joined (consumerId after : ℤ) :
    selected (tablesOf db) [(.archivedDeliveries, .archive), (.messages, .message)]
      (archiveClause consumerId after) =
      ((db.archives.select (onPage consumerId after)).filterMap (withMessage db)).map ofJoined := by
  have hbind : bindings (tablesOf db) [(.archivedDeliveries, .archive), (.messages, .message)] [] =
      db.archives.table.rows.flatMap fun a =>
        db.messages.table.rows.map fun message => ofJoined (a, message) := bindings_pair rfl rfl
  rw [selected, hbind, List.filter_flatMap]
  simp only [joined_messages]
  have hrows : ∀ rows : List ArchiveRow, (rows.flatMap fun a =>
      if onPage consumerId after a then (withMessage db a).toList.map ofJoined else []) =
      ((rows.filter (onPage consumerId after)).filterMap (withMessage db)).map ofJoined := by
    intro rows
    induction rows with
    | nil => rfl
    | cons a rows ih =>
      rw [List.flatMap_cons, ih, List.filter_cons]
      cases hpage : onPage consumerId after a with
      | false => simp
      | true =>
        rw [if_pos rfl, if_pos rfl, List.filterMap_cons]
        cases withMessage db a <;> rfl
  exact hrows _

/-- The joined archives are in the order of the archives. -/
theorem ordered_joined (consumerId after : ℤ) :
    orderBy (tablesOf db) (.column .archive .id)
      (((db.archives.select (onPage consumerId after)).filterMap (withMessage db)).map ofJoined) =
      ((db.archives.select (onPage consumerId after)).filterMap (withMessage db)).map ofJoined := by
  have hsorted : ((db.archives.select (onPage consumerId after)).filterMap
      (withMessage db)).Pairwise fun p q => p.1.id < q.1.id := by
    refine List.pairwise_filterMap.mpr ((db.archives.table.select_sorted _).imp ?_)
    intro a b hab p hp q hq
    obtain ⟨m, -, rfl⟩ := Option.map_eq_some_iff.mp hp
    obtain ⟨n, -, rfl⟩ := Option.map_eq_some_iff.mp hq
    exact hab
  rw [orderBy_of (g := fun pair : ArchiveRow × Message => pair.1.id) fun _ => rfl,
    sortBy_eq_of_perm (List.Perm.refl _) hsorted]

/-- An archive is read back from the row that reports it. -/
theorem readArchived_values (pair : ArchiveRow × Message) :
    readArchived (project (tablesOf db) archivePageColumns (ofJoined pair)) =
      archivedDelivery pair.1 pair.2 := by
  have htopic : (Value.ofOption .text pair.2.topic).text? = pair.2.topic :=
    Value.text?_ofOption _
  have hdetail : (Value.ofOption .text pair.1.detail).text? = pair.1.detail :=
    Value.text?_ofOption _
  have hmessage : readMessage ((project (tablesOf db) archivePageColumns (ofJoined pair)).drop 4) =
      pair.2 := congrArg (fun topic : Option String => { pair.2 with topic }) htopic
  have hcount : intField (project (tablesOf db) archivePageColumns (ofJoined pair)) 2 =
      pair.1.deliveryCount := rfl
  have hnote : (field (project (tablesOf db) archivePageColumns (ofJoined pair)) 3).text? =
      pair.1.detail := hdetail
  unfold readArchived archivedDelivery
  rw [hmessage, hcount, hnote]
  rfl

/-- A page of archives is what the join returns. -/
theorem archives_eq (fan : Inner) (handle : Consumer) (list : ListArchives) :
    archives fan handle list db =
      (if list.maxArchives = 0 then .ok []
      else do
        ensureBatchSize fan list.maxArchives
        let _ ← i64TryFrom list.maxArchives
          (.invalidConfig "archive page size must fit in SQLite")
        (archiveRows db handle.id (list.after.getD 0) list.maxArchives).mapM readArchived) := by
  have hread : (readArchived ∘ project (tablesOf db) archivePageColumns ∘ ofJoined) =
      fun pair => archivedDelivery pair.1 pair.2 := funext (readArchived_values db)
  have hrows : (archiveRows db handle.id (list.after.getD 0) list.maxArchives).mapM readArchived =
      (((db.archives.select (onPage handle.id (list.after.getD 0))).filterMap
        (withMessage db)).take list.maxArchives).mapM fun pair =>
          archivedDelivery pair.1 pair.2 := by
    unfold archiveRows
    rw [selected_joined, ordered_joined, ← List.map_take, List.map_map, List.mapM_map, hread]
  rw [hrows]
  rfl

/-- A purge picks the first archives that are old enough. -/
theorem purgeRows_eq (consumerId beforeMs : ℤ) (limit : ℕ) :
    purgeRows db consumerId beforeMs limit = ((db.archives.select fun a =>
      a.consumerId == consumerId && decide (a.archivedAt < beforeMs)).take limit).map
        fun a => [.int a.id] := by
  have hcond : ∀ a, holds (tablesOf db)
      (.both (.compare .eq (.column .archive .consumerId) (number consumerId))
        (.compare .lt (.column .archive .archivedAt) (number beforeMs))) (ofArchive a) =
      (a.consumerId == consumerId && decide (a.archivedAt < beforeMs)) := fun _ =>
    holds_both_of (holds_compare_int rfl rfl) (holds_compare_int rfl rfl)
  unfold purgeRows
  rw [ordered_archives db hcond, ← List.map_take, List.map_map]
  rfl

/-- Draining starts where the consumer is named and has not started. -/
theorem holds_drainClause (consumerId : ℤ) (row : ConsumerRow) :
    holds (tablesOf db) (drainClause consumerId) (ofConsumer row) =
      (row.id == consumerId && row.drainingAt.isNone) := by
  refine holds_both_of (holds_compare_int rfl rfl) ?_
  have hdraining : eval (tablesOf db) (.column .consumer .drainingAt) (ofConsumer row) =
      .ofOption .int row.drainingAt := rfl
  rw [holds_isNull, hdraining]
  cases row.drainingAt <;> rfl

/-- The boundary that draining freezes. -/
theorem eval_drainCursor (now : ℤ) (row : ConsumerRow) :
    (eval (tablesOf db) drainCursorColumn (ofConsumer row)).int? =
      (startDraining now (highWater db) row).drainCursor := by
  rw [drainCursorColumn, eval_greatest_int (x := row.scanCursor) rfl (eval_newestId db _)]
  rfl

end Statements

/-- Each query as it is written answers as the function on the typed rows. -/
structure QueriesAgree (db : Db) : Prop where
  /-- The snapshots of all consumers or of one, at any clock reading. -/
  snapshots : ∀ now consumerId, fetchConsumerSnapshots db now consumerId =
    (snapshotRows db now consumerId).mapM readSnapshot
  /-- The counts a deletion is guarded by. -/
  guards : ∀ name, (guardRows db name).head? = (consumerNamed db name).map (guardValues db)
  /-- The state that a claim reads without the writer lock. -/
  claims : ∀ consumerId,
    (claimRows db consumerId).head?.map readClaimState = claimState db consumerId
  /-- The deliveries that are leased again. -/
  retries : ∀ consumerId now limit, retryRows db consumerId now limit =
    (selectVisible db consumerId now limit).map fun d => [.int d.consumerId, .int d.messageId]
  /-- The messages that are leased for the first time. -/
  scans : ∀ topic scanCursor scanLimit limit, scanRows db topic scanCursor scanLimit limit =
    ((scanRange db topic scanCursor scanLimit).take limit).map fun message => [.int message.id]
  /-- The bodies of what is leased. -/
  bodies : ∀ leases, (bodyRows db leases).map readMessage = fetchMessageChunk db leases
  /-- The deliveries that a chunk of receipts names. -/
  receipts : ∀ consumerId receipts,
    selected (tablesOf db) [(.deliveries, .delivery)] (receiptClause consumerId receipts) =
      (db.deliveries.select (pushReceiptPredicate consumerId receipts)).map ofDelivery
  /-- The messages that are pruned. -/
  prunes : ∀ beforeMs limit, pruneRows db beforeMs limit =
    ((db.messages.select (prunable db beforeMs)).take limit).map fun message => [.int message.id]
  /-- The pages of archives. -/
  pages : ∀ (fan : Inner) (handle : Consumer) (list : ListArchives), archives fan handle list db =
    (if list.maxArchives = 0 then .ok []
    else do
      ensureBatchSize fan list.maxArchives
      let _ ← i64TryFrom list.maxArchives (.invalidConfig "archive page size must fit in SQLite")
      (archiveRows db handle.id (list.after.getD 0) list.maxArchives).mapM readArchived)
  /-- The archives that are purged. -/
  purges : ∀ consumerId beforeMs limit, purgeRows db consumerId beforeMs limit =
    ((db.archives.select fun a =>
      a.consumerId == consumerId && decide (a.archivedAt < beforeMs)).take limit).map
        fun a => [.int a.id]
  /-- Where draining starts, and the boundary that it freezes. -/
  drains : ∀ consumerId now row,
    holds (tablesOf db) (drainClause consumerId) (ofConsumer row) =
      (row.id == consumerId && row.drainingAt.isNone) ∧
    (eval (tablesOf db) drainCursorColumn (ofConsumer row)).int? =
      (startDraining now (highWater db) row).drainCursor

/-- Whatever the tables hold, null topics, filters, boundaries and details included, the queries
and the functions agree. -/
theorem queries_agree (db : Db) : QueriesAgree db where
  snapshots := fetchConsumerSnapshots_eq db
  guards := guardRows_eq db
  claims := claimRows_eq db
  retries := retryRows_eq db
  scans := scanRows_eq db
  bodies := bodyRows_eq db
  receipts := selected_receipts db
  prunes := pruneRows_eq db
  pages := archives_eq db
  purges := purgeRows_eq db
  drains consumerId now row := ⟨holds_drainClause db consumerId row, eval_drainCursor db now row⟩

end LiteFan.Selects

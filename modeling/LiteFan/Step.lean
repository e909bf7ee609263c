import LiteFan.Effect.Identities

/-!
# What one event can do

Under the invariant an operation is refused for a reason of its own and leaves
the database as it was, has nothing to do, or leaves one of eleven databases.
No schema constraint, broken storage invariant or unfilled ledger entry is ever
the reason. Everything later is derived from this inversion.
-/

namespace LiteFan.Step

open LiteFan.Api LiteFan.Time LiteFan.Schema LiteFan.Storage LiteFan.Store LiteFan.Consumer
open LiteFan.System LiteFan.Invariant LiteFan.Effect Relational

/-- The errors that would show a defect: a violated constraint, a lease without
its message, a ledger entry without its identifier. -/
def defect : Error → Bool
  | .sqlx _ => true
  | .storageInvariant _ => true
  | .incompleteIdempotencyEntry => true
  | _ => false

/-- An operation that was asked for nothing, and its reply. -/
def Idle (op : Op) (reply : Reply) : Prop :=
  match op with
  | .claim _ poll _ => poll.maxMessages = 0 ∧ reply = .granted ⟨[], false⟩
  | .ackBatch _ receipts => receipts.length = 0 ∧ reply = .batch BatchResult.default
  | .nackBatch _ receipts _ _ => receipts.length = 0 ∧ reply = .batch BatchResult.default
  | .extendVisibilityBatch _ receipts _ _ =>
    receipts.length = 0 ∧ reply = .batch BatchResult.default
  | .archiveBatch _ receipts _ _ => receipts.length = 0 ∧ reply = .batch BatchResult.default
  | .redriveBatch _ archiveIds _ _ => archiveIds.length = 0 ∧ reply = .batch BatchResult.default
  | .purgeArchives _ purge => purge.maxArchives = 0 ∧ reply = .purged ⟨0⟩
  | .pruneMessages prune => prune.maxMessages = 0 ∧ reply = .pruned ⟨0⟩
  | _ => False

/-- The databases and replies an operation can produce. -/
inductive Effect (fan : Inner) (db : Db) : Op → Db → Except Error Reply → Prop
  /-- A refusal leaves the database as it was. -/
  | rejected {op : Op} {err : Error} (h : defect err = false) : Effect fan db op db (.error err)
  /-- Nothing was asked for. -/
  | idle {op : Op} {reply : Reply} (h : Idle op reply) : Effect fan db op db (.ok reply)
  | created {name : String} {filter : Filter} {now : ℤ} (hname : name ≠ "")
      (hfree : consumerNamed db name = none) :
      Effect fan db (.openConsumer name filter now) (openedDb db name filter now)
        (.ok (.opened ⟨nextConsumer db, name, filter⟩))
  | reopened {name : String} {filter : Filter} {now : ℤ} {row : ConsumerRow} (hname : name ≠ "")
      (hrow : consumerNamed db name = some row)
      (hfilter : row.topicFilter = filter.asDatabaseValue) :
      Effect fan db (.openConsumer name filter now) (reopenedDb db)
        (.ok (.opened ⟨row.id, name, filter⟩))
  | published {messages : List Publish} {now : ℤ} (hle : messages.length ≤ fan.maxBatchSize) :
      Effect fan db (.publishBatch messages now)
        (publishedDb now (now + fan.idempotencyWindowMs) (ledgerAt now db messages)
          (assigned now db messages))
        (.ok (.outcomes (assigned now db messages).outcomes))
  | granted {self : Consumer} {poll : Poll} {now leaseMs deadline : ℤ} {row : ConsumerRow}
      (hlease : pollLease fan poll = .ok (some leaseMs)) (hid : self.id = row.id)
      (hrow : db.consumers.lookup row.id = some row)
      (hdeadline : checkedAdd now leaseMs = .ok deadline) :
      Effect fan db (.claim self poll now) (claimedDb db row now deadline poll.maxMessages)
        (.ok (.granted ⟨claimedDeliveries db row now deadline poll.maxMessages,
          row.drainingAt.isSome⟩))
  | acked {self : Consumer} {receipts : List Receipt} (hpos : 0 < receipts.length)
      (hle : receipts.length ≤ fan.maxBatchSize) :
      Effect fan db (.ackBatch self receipts)
        (deleteDeliveries db (pushReceiptPredicate self.id receipts))
        (.ok (.batch (batchResult receipts.length
          (db.deliveries.select (pushReceiptPredicate self.id receipts)).length)))
  | nacked {self : Consumer} {receipts : List Receipt} {retry : Retry} {now visibleAt : ℤ}
      (hpos : 0 < receipts.length) (hle : receipts.length ≤ fan.maxBatchSize)
      (hvisible : addDuration now retry.delay = .ok visibleAt) :
      Effect fan db (.nackBatch self receipts retry now)
        (touched db self.id (nackRow visibleAt) (nackRow_key visibleAt)
          (chunks receiptsPerChunk receipts))
        (.ok (.batch (batchResult receipts.length (touchedRows self.id (nackRow visibleAt)
          (nackRow_key visibleAt) db.deliveries (chunks receiptsPerChunk receipts)))))
  | extended {self : Consumer} {receipts : List Receipt} {timeout : Duration} {now ms visibleAt : ℤ}
      (hpos : 0 < receipts.length) (hle : receipts.length ≤ fan.maxBatchSize)
      (hms : durationMs timeout = .ok ms) (hne : ms ≠ 0)
      (hvisible : addDuration now timeout = .ok visibleAt) :
      Effect fan db (.extendVisibilityBatch self receipts timeout now)
        (touched db self.id (extendRow visibleAt) (extendRow_key visibleAt)
          (chunks receiptsPerChunk receipts))
        (.ok (.batch (batchResult receipts.length (touchedRows self.id (extendRow visibleAt)
          (extendRow_key visibleAt) db.deliveries (chunks receiptsPerChunk receipts)))))
  | archived {self : Consumer} {receipts : List Receipt} {detail : Option String} {now : ℤ}
      (hpos : 0 < receipts.length) (hle : receipts.length ≤ fan.maxBatchSize) :
      Effect fan db (.archiveBatch self receipts detail now)
        (archivedDb db self.id receipts now detail)
        (.ok (.batch (batchResult receipts.length (archivedLeases db self.id receipts).length)))
  | redriven {self : Consumer} {archiveIds : List ℤ} {retry : Retry} {now visibleAt : ℤ}
      (hpos : 0 < archiveIds.length) (hle : archiveIds.length ≤ fan.maxBatchSize)
      (hvisible : addDuration now retry.delay = .ok visibleAt) :
      Effect fan db (.redriveBatch self archiveIds retry now)
        (redrivenDb db self.id archiveIds visibleAt)
        (.ok (.batch (batchResult archiveIds.length
          (db.archives.select (archiveNamed self.id archiveIds)).length)))
  | purged {self : Consumer} {purge : PurgeArchives} :
      Effect fan db (.purgeArchives self purge) (deleteArchives db (purgedNamed db self.id purge))
        (.ok (.purged ⟨(db.archives.select (purgedNamed db self.id purge)).length⟩))
  | drained {self : Consumer} {now : ℤ} :
      Effect fan db (.beginDraining self now) (drainedDb db self.id now)
        (.ok (.drained (drainChanges db self.id)))
  | deleted {name : String} {mode : DeleteMode} {row : ConsumerRow}
      (hrow : consumerNamed db name = some row) (haccept : deleteRefusal name mode db row = none) :
      Effect fan db (.deleteConsumer name mode) (deletedDb db row)
        (.ok (.deleted ⟨outstandingCount db row, archivedCount db row⟩))
  | pruned {prune : Prune} :
      Effect fan db (.pruneMessages prune) (prunedDb db prune)
        (.ok (.pruned
          ⟨(db.messages.select fun message => decide (message.id ∈ prunedIds db prune)).length⟩))

section Commit

variable {α : Type} {wrap : α → Reply} {transaction : Transaction α} {db db' : Db} {a : α}
    {err : Error}

/-- A transaction that succeeds commits. -/
theorem replying_ok (h : transaction db = .ok (db', a)) :
    replying wrap (commit transaction db) = (db', .ok (wrap a)) := by
  rw [commit, h]
  rfl

/-- A transaction that fails leaves the database as it was. -/
theorem replying_error (h : transaction db = .error err) :
    replying wrap (commit transaction db) = (db, .error err) := by
  rw [commit, h]
  rfl

end Commit

section Refusals

/-- A publish is refused for its size or its expiry. -/
theorem publishBatch_error {e : Engine} {fan : Inner} {messages : List Publish} {now : ℤ} {db : Db}
    {err : Error} (h : publishBatch e fan messages now db = .error err) : defect err = false := by
  rw [publishBatch_cases] at h
  cases hrefusal : publishRefusal fan messages now with
  | none =>
    rw [hrefusal] at h
    cases h
  | some refusal =>
    rw [hrefusal] at h
    cases h
    unfold publishRefusal at hrefusal
    split_ifs at hrefusal with hlarge hall
    · cases hrefusal
      rfl
    · cases hexpiry : checkedAdd now fan.idempotencyWindowMs with
      | ok expiresAt =>
        rw [hexpiry] at hrefusal
        cases hrefusal
      | error err =>
        rw [hexpiry] at hrefusal
        cases hrefusal
        rw [checkedAdd_error hexpiry]
        rfl

/-- A poll asks for nothing, is refused for its size or its lease, or asks for a batch inside the
limit and a real lease. -/
theorem pollLease_cases (fan : Inner) (poll : Poll) :
    (poll.maxMessages = 0 ∧ pollLease fan poll = .ok none) ∨
      (∃ err, defect err = false ∧ pollLease fan poll = .error err) ∨
      (0 < poll.maxMessages ∧ poll.maxMessages ≤ fan.maxBatchSize ∧
        0 < asMillis poll.visibilityTimeout ∧
        pollLease fan poll = .ok (some (asMillis poll.visibilityTimeout))) := by
  unfold pollLease
  by_cases hpos : poll.maxMessages = 0
  · rw [if_pos hpos]
    exact .inl ⟨hpos, rfl⟩
  · rw [if_neg hpos]
    by_cases hle : poll.maxMessages ≤ fan.maxBatchSize
    · rw [ensureBatchSize_ok.mpr hle]
      cases hms : durationMs poll.visibilityTimeout with
      | error err => exact .inr (.inl ⟨err, by rw [durationMs_error hms]; rfl, rfl⟩)
      | ok ms =>
        have hvalue := durationMs_ok hms
        simp only [bind, Except.bind]
        by_cases hzero : ms = 0
        · rw [if_pos hzero]
          exact .inr (.inl ⟨_, rfl, rfl⟩)
        · rw [if_neg hzero, ← hvalue]
          exact .inr (.inr ⟨Nat.pos_of_ne_zero hpos, hle, by omega, rfl⟩)
    · rw [ensureBatchSize_error (not_le.mp hle)]
      exact .inr (.inl ⟨_, rfl, rfl⟩)

/-- A poll is refused for its size or its lease. -/
theorem pollLease_error {fan : Inner} {poll : Poll} {err : Error}
    (h : pollLease fan poll = .error err) : defect err = false := by
  rcases pollLease_cases fan poll with ⟨-, hnone⟩ | ⟨err', herr, hrefused⟩ | ⟨-, -, -, hlease⟩
  · rw [hnone] at h
    cases h
  · rw [hrefused] at h
    cases h
    exact herr
  · rw [hlease] at h
    cases h

/-- A poll that claims asks for a batch inside the limit and a real lease. -/
theorem pollLease_some {fan : Inner} {poll : Poll} {leaseMs : ℤ}
    (h : pollLease fan poll = .ok (some leaseMs)) :
    0 < poll.maxMessages ∧ poll.maxMessages ≤ fan.maxBatchSize ∧ 0 < leaseMs ∧
      leaseMs = asMillis poll.visibilityTimeout := by
  rcases pollLease_cases fan poll with ⟨-, hnone⟩ | ⟨_, -, hrefused⟩ | ⟨hpos, hle, hms, hlease⟩
  · rw [hnone] at h
    cases h
  · rw [hrefused] at h
    cases h
  · rw [hlease] at h
    cases h
    exact ⟨hpos, hle, Nat.cast_pos.mpr hms, rfl⟩

/-- A poll that returns at once asked for nothing. -/
theorem pollLease_none {fan : Inner} {poll : Poll} (h : pollLease fan poll = .ok none) :
    poll.maxMessages = 0 := by
  rcases pollLease_cases fan poll with ⟨hnothing, -⟩ | ⟨_, -, hrefused⟩ | ⟨-, -, -, hlease⟩
  · exact hnothing
  · rw [hrefused] at h
    cases h
  · rw [hlease] at h
    cases h

/-- The batch of a claim fits SQLite. -/
theorem pollLease_fits {fan : Inner} {poll : Poll} {leaseMs : ℤ}
    (h : pollLease fan poll = .ok (some leaseMs)) : (poll.maxMessages : ℤ) ≤ i64Max := by
  have hle := (pollLease_some h).2.1
  have hmax := fan.maxBatchSize_le
  omega

end Refusals

section Inversion

variable {fan : Inner} {db : Db}

/-- The counter checks hold of every stored delivery. -/
theorem delivery_checks (hinv : Inv db) : ∀ d ∈ db.deliveries, deliveryCheck d = true :=
  fun d hd => deliveryCheck_iff.mpr (hinv.delivery_counts d hd)

/-- A sized operation has nothing to do, is refused for its size, or does its work. -/
theorem effect_sized {α : Type} {wrap : α → Reply} {op : Op} {size : ℕ}
    {transaction : Transaction α}
    {none : α} (hnone : size = 0 → Idle op (wrap none))
    (hzero : size = 0 → transaction db = .ok (db, none))
    (hlarge : fan.maxBatchSize < size →
      transaction db = .error (.batchTooLarge size fan.maxBatchSize))
    (hbody : 0 < size → size ≤ fan.maxBatchSize →
      Effect fan db op (replying wrap (commit transaction db)).1
        (replying wrap (commit transaction db)).2) :
    Effect fan db op (replying wrap (commit transaction db)).1
      (replying wrap (commit transaction db)).2 := by
  by_cases hpos : size = 0
  · rw [replying_ok (hzero hpos)]
    exact .idle (hnone hpos)
  · by_cases hle : size ≤ fan.maxBatchSize
    · exact hbody (Nat.pos_of_ne_zero hpos) hle
    · rw [replying_error (hlarge (by omega))]
      exact .rejected rfl

/-- Opening creates the identity, finds it, or is refused. -/
theorem effect_openConsumer (name : String) (filter : Filter) (now : ℤ) :
    Effect fan db (.openConsumer name filter now)
      (replying .opened (commit (openConsumer name filter now) db)).1
      (replying .opened (commit (openConsumer name filter now) db)).2 := by
  by_cases hname : name = ""
  · rw [replying_error (openConsumer_empty hname)]
    exact .rejected rfl
  · cases hrow : consumerNamed db name with
    | none =>
      rw [replying_ok (openConsumer_new hname hrow)]
      exact .created hname hrow
    | some row =>
      have htaken : openConsumer name filter now db = _ := openConsumer_taken hname hrow
      by_cases hfilter : row.topicFilter = filter.asDatabaseValue
      · rw [if_neg (not_not.mpr hfilter)] at htaken
        rw [replying_ok htaken]
        exact .reopened hname hrow hfilter
      · rw [if_pos hfilter] at htaken
        rw [replying_error htaken]
        exact .rejected rfl

/-- Publishing stores the batch, or is refused. -/
theorem effect_publishBatch (e : Engine) (messages : List Publish) (now : ℤ) :
    Effect fan db (.publishBatch messages now)
      (replying .outcomes (commit (publishBatch e fan messages now) db)).1
      (replying .outcomes (commit (publishBatch e fan messages now) db)).2 := by
  cases h : publishBatch e fan messages now db with
  | ok result =>
    obtain ⟨hle, hdb, houtcomes⟩ := publishBatch_ok h
    rw [replying_ok h, hdb, houtcomes]
    exact .published hle
  | error err =>
    rw [replying_error h]
    exact .rejected (publishBatch_error h)

/-- A claim of a poll leases, or is refused. -/
theorem effect_claim (e : Engine) (hinv : Inv db) (self : Consumer) (poll : Poll) (now : ℤ) :
    Effect fan db (.claim self poll now) (replying .granted (pollCommit e fan self poll now db)).1
      (replying .granted (pollCommit e fan self poll now db)).2 := by
  have hrefused : ∀ err, defect err = false → pollCommit e fan self poll now db = (db, .error err) →
      Effect fan db (.claim self poll now) (replying .granted (pollCommit e fan self poll now db)).1
        (replying .granted (pollCommit e fan self poll now db)).2 := by
    intro err herr h
    rw [h]
    exact .rejected herr
  cases hlease : pollLease fan poll with
  | error err =>
    refine hrefused err ?_ (by rw [pollCommit, hlease])
    exact pollLease_error hlease
  | ok lease =>
    cases lease with
    | none =>
      have hnothing : pollCommit e fan self poll now db = (db, .ok ⟨[], false⟩) := by
        rw [pollCommit, hlease]
      rw [hnothing]
      exact .idle ⟨pollLease_none hlease, rfl⟩
    | some leaseMs =>
      have hcommit : pollCommit e fan self poll now db =
          claimCommit e self poll.maxMessages leaseMs now db := by rw [pollCommit, hlease]
      cases hdeadline : checkedAdd now leaseMs with
      | error err =>
        refine hrefused err (by rw [checkedAdd_error hdeadline]; rfl) ?_
        rw [hcommit, claimCommit, commit, claimTransaction, hdeadline]
        rfl
      | ok deadline =>
        cases hrow : db.consumers.lookup self.id with
        | none =>
          refine hrefused (.consumerDeleted self.name) rfl ?_
          rw [hcommit, claimCommit, commit, claimTransaction, hdeadline]
          simp only [bind, Except.bind, hrow]
        | some row =>
          have hid : self.id = row.id := (AutoTable.lookup_eq_some.mp hrow).2.symm
          have hrow' : db.consumers.lookup row.id = some row := hid ▸ hrow
          rw [hcommit, claimCommit_eq e hinv hid hrow' hdeadline (pollLease_fits hlease)]
          exact .granted hlease hid hrow' hdeadline

/-- Releasing touches the named rows, or is refused. -/
theorem effect_nackBatch (hinv : Inv db) (self : Consumer) (receipts : List Receipt) (retry : Retry)
    (now : ℤ) :
    Effect fan db (.nackBatch self receipts retry now)
      (replying .batch (commit (nackBatch fan self receipts retry now) db)).1
      (replying .batch (commit (nackBatch fan self receipts retry now) db)).2 := by
  refine effect_sized (fun h => ⟨h, rfl⟩) (fun h => receiptBatch_zero h)
    (fun h => receiptBatch_large h)
    fun hpos hle => ?_
  cases hvisible : addDuration now retry.delay with
  | ok visibleAt =>
    rw [replying_ok (nackBatch_eq hpos hle hvisible (delivery_checks hinv))]
    exact .nacked hpos hle hvisible
  | error err =>
    rw [replying_error (nackBatch_late hpos hle hvisible)]
    exact .rejected (by rw [addDuration_error hvisible]; rfl)

/-- Extending touches the named rows, or is refused. -/
theorem effect_extendVisibilityBatch (hinv : Inv db) (self : Consumer) (receipts : List Receipt)
    (timeout : Duration) (now : ℤ) :
    Effect fan db (.extendVisibilityBatch self receipts timeout now)
      (replying .batch (commit (extendVisibilityBatch fan self receipts timeout now) db)).1
      (replying .batch (commit (extendVisibilityBatch fan self receipts timeout now) db)).2 := by
  refine effect_sized (fun h => ⟨h, rfl⟩) (fun h => receiptBatch_zero h)
    (fun h => receiptBatch_large h)
    fun hpos hle => ?_
  cases hms : durationMs timeout with
  | error err =>
    rw [replying_error (extendVisibilityBatch_unfit hpos hle hms)]
    exact .rejected (by rw [durationMs_error hms]; rfl)
  | ok ms =>
    by_cases hzero : ms = 0
    · subst hzero
      rw [replying_error (extendVisibilityBatch_zero hpos hle hms)]
      exact .rejected rfl
    · cases hvisible : addDuration now timeout with
      | ok visibleAt =>
        rw [replying_ok (extendVisibilityBatch_eq hpos hle hms hzero hvisible
          (delivery_checks hinv))]
        exact .extended hpos hle hms hzero hvisible
      | error err =>
        rw [replying_error (extendVisibilityBatch_late hpos hle hms hzero hvisible)]
        exact .rejected (by rw [addDuration_error hvisible]; rfl)

/-- Redriving restores the named archives, or is refused. -/
theorem effect_redriveBatch (e : Engine) (hinv : Inv db) (self : Consumer) (archiveIds : List ℤ)
    (retry : Retry) (now : ℤ) :
    Effect fan db (.redriveBatch self archiveIds retry now)
      (replying .batch (commit (redriveBatch e fan self archiveIds retry now) db)).1
      (replying .batch (commit (redriveBatch e fan self archiveIds retry now) db)).2 := by
  refine effect_sized (fun h => ⟨h, rfl⟩) (fun h => receiptBatch_zero h)
    (fun h => receiptBatch_large h)
    fun hpos hle => ?_
  cases hvisible : addDuration now retry.delay with
  | ok visibleAt =>
    rw [replying_ok (redriveBatch_eq e hinv hpos hle hvisible)]
    exact .redriven hpos hle hvisible
  | error err =>
    rw [replying_error (redriveBatch_late e hpos hle hvisible)]
    exact .rejected (by rw [addDuration_error hvisible]; rfl)

/-- Deleting takes the identity, or is refused. -/
theorem effect_deleteConsumer (name : String) (mode : DeleteMode) :
    Effect fan db (.deleteConsumer name mode)
      (replying .deleted (commit (deleteConsumer name mode) db)).1
      (replying .deleted (commit (deleteConsumer name mode) db)).2 := by
  cases hrow : consumerNamed db name with
  | none =>
    rw [replying_error (deleteConsumer_free hrow)]
    exact .rejected rfl
  | some row =>
    have heq : deleteConsumer name mode db = _ := deleteConsumer_eq hrow
    cases hrefusal : deleteRefusal name mode db row with
    | some err =>
      rw [hrefusal] at heq
      rw [replying_error heq]
      refine .rejected ?_
      unfold deleteRefusal at hrefusal
      split_ifs at hrefusal
      all_goals
        cases hrefusal
        rfl
    | none =>
      rw [hrefusal] at heq
      rw [replying_ok heq]
      exact .deleted hrow hrefusal

/-- Every operation under the invariant has one of the listed effects. -/
theorem exec_effect (e : Engine) (fan : Inner) (op : Op) (hinv : Inv db) :
    Effect fan db op (exec e fan op db).1 (exec e fan op db).2 := by
  cases op with
  | openConsumer name filter now => exact effect_openConsumer name filter now
  | publishBatch messages now => exact effect_publishBatch e messages now
  | claim self poll now => exact effect_claim e hinv self poll now
  | ackBatch self receipts =>
    refine effect_sized (fun h => ⟨h, rfl⟩) (fun h => receiptBatch_zero h)
      (fun h => receiptBatch_large h)
      fun hpos hle => ?_
    rw [replying_ok (ackBatch_eq hpos hle)]
    exact .acked hpos hle
  | nackBatch self receipts retry now => exact effect_nackBatch hinv self receipts retry now
  | extendVisibilityBatch self receipts timeout now =>
    exact effect_extendVisibilityBatch hinv self receipts timeout now
  | archiveBatch self receipts detail now =>
    refine effect_sized (fun h => ⟨h, rfl⟩) (fun h => receiptBatch_zero h)
      (fun h => receiptBatch_large h)
      fun hpos hle => ?_
    rw [replying_ok (archiveBatchWithDetail_eq e hinv hpos hle)]
    exact .archived hpos hle
  | redriveBatch self archiveIds retry now =>
    exact effect_redriveBatch e hinv self archiveIds retry now
  | purgeArchives self purge =>
    refine effect_sized (fun h => ⟨h, rfl⟩) (fun h => purgeArchives_zero h)
      (fun h => purgeArchives_large h) fun hpos hle => ?_
    rw [replying_ok (purgeArchives_eq hpos.ne' hle)]
    exact .purged
  | beginDraining self now =>
    change Effect fan db _ (replying .drained (commit (drainTransition self now) db)).1
      (replying .drained (commit (drainTransition self now) db)).2
    rw [replying_ok (drainTransition_eq hinv)]
    exact .drained
  | deleteConsumer name mode => exact effect_deleteConsumer name mode
  | pruneMessages prune =>
    refine effect_sized (fun h => ⟨h, rfl⟩) (fun h => pruneMessages_zero h)
      (fun h => pruneMessages_large h) fun hpos hle => ?_
    rw [replying_ok (pruneMessages_eq hpos.ne' hle)]
    exact .pruned

/-- An operation that returned a delivery is a claim that leased it to a live consumer. -/
theorem Effect.returning {op : Op} {db' : Db} {granted : Granted} {delivery : Delivery}
    (heffect : Effect fan db op db' (.ok (.granted granted)))
    (hmem : delivery ∈ granted.deliveries) :
    ∃ self poll now leaseMs deadline row, op = .claim self poll now ∧
      pollLease fan poll = .ok (some leaseMs) ∧ checkedAdd now leaseMs = .ok deadline ∧
      self.id = row.id ∧ db.consumers.lookup row.id = some row ∧
      db' = claimedDb db row now deadline poll.maxMessages ∧
      granted = ⟨claimedDeliveries db row now deadline poll.maxMessages,
        row.drainingAt.isSome⟩ := by
  cases heffect with
  | idle hidle =>
    have hnil : granted = ⟨[], false⟩ := by
      unfold Idle at hidle
      cases op <;> simp at hidle
      exact hidle.2
    rw [hnil] at hmem
    exact absurd hmem List.not_mem_nil
  | @granted self poll now leaseMs deadline row hlease hid hrow hdeadline =>
    exact ⟨self, poll, now, leaseMs, deadline, row, rfl, hlease, hdeadline, hid, hrow, rfl, rfl⟩

/-- Every event of the system has one of the listed effects. -/
theorem effect_of_valid {event : Event} (hv : system.valid event) (hinv : Inv event.before) :
    Effect event.fan event.before event.op event.after event.reply := by
  obtain ⟨e, hexec⟩ := hv
  have heffect := exec_effect e event.fan event.op hinv
  rw [hexec] at heffect
  exact heffect

end Inversion

end LiteFan.Step

import LiteFan.Rounds

/-!
# One call on two stores that look alike

A transaction through a consumer's handle, a round of its polls, its drain call
and its snapshot are answered the same in both stores and leave its inbox the
same; so do a publish and a deletion of the consumer itself.
-/

namespace LiteFan.Alike

open LiteFan.Api LiteFan.Time LiteFan.Schema LiteFan.Storage LiteFan.Store LiteFan.Consumer
open LiteFan.System LiteFan.Invariant LiteFan.Effect LiteFan.Step LiteFan.Preservation LiteFan.Calls
open LiteFan.Inbox Relational

section Transactions

variable {α : Type} {wrap : α → Reply} {transaction transaction' : Transaction α} {a b a' b' : Db}
  {c : ℤ} {answer : α} {err : Error}

/-- Two transactions that commit with one result. -/
theorem matched_ok (hleft : transaction a = .ok (a', answer))
    (hright : transaction' b = .ok (b', answer)) (h : SameInbox c a' b') :
    Matched c (replying wrap (commit transaction a)) (replying wrap (commit transaction' b)) := by
  rw [replying_ok hleft, replying_ok hright]
  exact ⟨rfl, h⟩

/-- Two transactions that are refused for one reason. -/
theorem matched_refused (hleft : transaction a = .error err) (hright : transaction' b = .error err)
    (h : SameInbox c a b) :
    Matched c (replying wrap (commit transaction a)) (replying wrap (commit transaction' b)) := by
  rw [replying_error hleft, replying_error hright]
  exact ⟨rfl, h⟩

/-- Two transactions of one size have nothing to do, are refused for it, or do their work. -/
theorem matched_sized {fan : Inner} {size : ℕ} {large : Error} (h : SameInbox c a b)
    (hzero : size = 0 → transaction a = .ok (a, answer) ∧ transaction' b = .ok (b, answer))
    (hlarge : fan.maxBatchSize < size → transaction a = .error large ∧
      transaction' b = .error large)
    (hbody : 0 < size → size ≤ fan.maxBatchSize →
      Matched c (replying wrap (commit transaction a)) (replying wrap (commit transaction' b))) :
    Matched c (replying wrap (commit transaction a)) (replying wrap (commit transaction' b)) := by
  by_cases hpos : size = 0
  · obtain ⟨hleft, hright⟩ := hzero hpos
    exact matched_ok hleft hright h
  · by_cases hle : size ≤ fan.maxBatchSize
    · exact hbody (Nat.pos_of_ne_zero hpos) hle
    · obtain ⟨hleft, hright⟩ := hlarge (by omega)
      exact matched_refused hleft hright h

end Transactions

section Own

variable {a b : Db} {fan : Inner} {self : Consumer}

/-- The writer transaction of a claim. -/
theorem SameInbox.claimed (h : SameInbox self.id a b) (hlog : SameLog a b) (ha : Inv a) (hb : Inv b)
    (e : Engine) (fan : Inner) (options : Poll) (now : ℤ) :
    Matched self.id (exec e fan (.claim self options now) a)
      (exec e fan (.claim self options now) b) := by
  change Matched self.id (replying .granted (pollCommit e fan self options now a))
    (replying .granted (pollCommit e fan self options now b))
  have hsame : ∀ result : Except Error Granted, pollCommit e fan self options now a = (a, result) →
      pollCommit e fan self options now b = (b, result) →
      Matched self.id (replying .granted (pollCommit e fan self options now a))
        (replying .granted (pollCommit e fan self options now b)) := by
    intro result hleft hright
    rw [hleft, hright]
    exact ⟨rfl, h⟩
  cases hlease : pollLease fan options with
  | error err => exact hsame (.error err) (by rw [pollCommit, hlease]) (by rw [pollCommit, hlease])
  | ok lease =>
    cases lease with
    | none =>
      exact hsame (.ok ⟨[], false⟩) (by rw [pollCommit, hlease]) (by rw [pollCommit, hlease])
    | some leaseMs =>
      have hcommit : ∀ db, pollCommit e fan self options now db =
          claimCommit e self options.maxMessages leaseMs now db := fun db => by
        rw [pollCommit, hlease]
      cases hdeadline : checkedAdd now leaseMs with
      | error err =>
        have hfail : ∀ db, pollCommit e fan self options now db = (db, .error err) := fun db => by
          rw [hcommit, claimCommit, commit, claimTransaction, hdeadline]
          rfl
        exact hsame (.error err) (hfail a) (hfail b)
      | ok deadline =>
        rcases h.abreast hlog ha hb with
          ⟨hleft, hright⟩ | ⟨row, row', hleft, hright, hid, hid', habreast⟩
        · have hfail : ∀ db : Db, db.consumers.lookup self.id = none →
              pollCommit e fan self options now db = (db, .error (.consumerDeleted self.name)) := by
            intro db hrow
            rw [hcommit, claimCommit, commit, claimTransaction, hdeadline]
            simp only [bind, Except.bind, hrow]
          exact hsame _ (hfail a hleft) (hfail b hright)
        · rw [hcommit, hcommit,
            claimCommit_eq e ha hid habreast.left hdeadline (pollLease_fits hlease),
            claimCommit_eq e hb hid' habreast.right hdeadline (pollLease_fits hlease),
            habreast.claimed, habreast.drainingAt]
          exact ⟨rfl, hid ▸ habreast.granted now deadline options.maxMessages⟩

/-- A release. -/
theorem SameInbox.nacked (h : SameInbox self.id a b) (ha : Inv a) (hb : Inv b)
    (receipts : List Receipt) (retry : Retry) (now : ℤ) :
    Matched self.id (replying .batch (commit (nackBatch fan self receipts retry now) a))
      (replying .batch (commit (nackBatch fan self receipts retry now) b)) := by
  refine matched_sized h (fun h => ⟨receiptBatch_zero h, receiptBatch_zero h⟩)
    (fun h => ⟨receiptBatch_large h, receiptBatch_large h⟩) fun hpos hle => ?_
  cases hvisible : addDuration now retry.delay with
  | ok visibleAt =>
    have hleft : nackBatch fan self receipts retry now a = _ :=
      nackBatch_eq hpos hle hvisible (delivery_checks ha)
    have hright : nackBatch fan self receipts retry now b = _ :=
      nackBatch_eq hpos hle hvisible (delivery_checks hb)
    rw [← touchedRows_own (nackRow_key visibleAt) _ _ _ h.deliveries] at hright
    exact matched_ok hleft hright (h.touched (nackRow_key visibleAt) _)
  | error err =>
    exact matched_refused (nackBatch_late hpos hle hvisible) (nackBatch_late hpos hle hvisible) h

/-- An extension. -/
theorem SameInbox.extended (h : SameInbox self.id a b) (ha : Inv a) (hb : Inv b)
    (receipts : List Receipt) (timeout : Duration) (now : ℤ) :
    Matched self.id
      (replying .batch (commit (extendVisibilityBatch fan self receipts timeout now) a))
      (replying .batch (commit (extendVisibilityBatch fan self receipts timeout now) b)) := by
  refine matched_sized h (fun h => ⟨receiptBatch_zero h, receiptBatch_zero h⟩)
    (fun h => ⟨receiptBatch_large h, receiptBatch_large h⟩) fun hpos hle => ?_
  cases hms : durationMs timeout with
  | error err =>
    exact matched_refused (extendVisibilityBatch_unfit hpos hle hms)
      (extendVisibilityBatch_unfit hpos hle hms) h
  | ok ms =>
    by_cases hzero : ms = 0
    · subst hzero
      exact matched_refused (extendVisibilityBatch_zero hpos hle hms)
        (extendVisibilityBatch_zero hpos hle hms) h
    · cases hvisible : addDuration now timeout with
      | ok visibleAt =>
        have hleft : extendVisibilityBatch fan self receipts timeout now a = _ :=
          extendVisibilityBatch_eq hpos hle hms hzero hvisible (delivery_checks ha)
        have hright : extendVisibilityBatch fan self receipts timeout now b = _ :=
          extendVisibilityBatch_eq hpos hle hms hzero hvisible (delivery_checks hb)
        rw [← touchedRows_own (extendRow_key visibleAt) _ _ _ h.deliveries] at hright
        exact matched_ok hleft hright (h.touched (extendRow_key visibleAt) _)
      | error err =>
        exact matched_refused (extendVisibilityBatch_late hpos hle hms hzero hvisible)
          (extendVisibilityBatch_late hpos hle hms hzero hvisible) h

/-- A redrive of identifiers that correspond. -/
theorem SameInbox.redrove (h : SameInbox self.id a b) (ha : Inv a) (hb : Inv b) (e : Engine)
    {ids ids' : List ℤ} (hids : Corresponds self.id a b ids ids') (retry : Retry) (now : ℤ) :
    Matched self.id (replying .batch (commit (redriveBatch e fan self ids retry now) a))
      (replying .batch (commit (redriveBatch e fan self ids' retry now) b)) := by
  have hsize := hids.1
  refine matched_sized h (fun h => ⟨receiptBatch_zero h, receiptBatch_zero (hsize ▸ h)⟩)
    (fun h => ⟨receiptBatch_large h, hsize ▸ receiptBatch_large (hsize ▸ h)⟩) fun hpos hle => ?_
  cases hvisible : addDuration now retry.delay with
  | ok visibleAt =>
    have hleft : redriveBatch e fan self ids retry now a = _ :=
      redriveBatch_eq e ha hpos hle hvisible
    have hright : redriveBatch e fan self ids' retry now b = _ :=
      redriveBatch_eq e hb (hsize ▸ hpos) (hsize ▸ hle) hvisible
    rw [← hids.named.length_eq, ← hsize] at hright
    exact matched_ok hleft hright (h.redriven ha hb hids visibleAt)
  | error err =>
    exact matched_refused (redriveBatch_late e hpos hle hvisible)
      (redriveBatch_late e (hsize ▸ hpos) (hsize ▸ hle) hvisible) h

/-- The archive identifiers an operation redrives. -/
def redriveIds : Op → Option (List ℤ)
  | .redriveBatch _ archiveIds _ _ => some archiveIds
  | _ => none

/-- The operation with other archive identifiers to redrive. -/
def renumber (f : List ℤ → List ℤ) : Op → Op
  | .redriveBatch self archiveIds retry now => .redriveBatch self (f archiveIds) retry now
  | op => op

/-- A transaction through the consumer's handle. -/
theorem SameInbox.exec (h : SameInbox self.id a b) (hlog : SameLog a b) (ha : Inv a) (hb : Inv b)
    (e : Engine) (fan : Inner) {op : Op} (hthrough : System.through op = some self)
    {f : List ℤ → List ℤ}
    (hf : ∀ ids, redriveIds op = some ids → Corresponds self.id a b ids (f ids)) :
    Matched self.id (System.exec e fan op a) (System.exec e fan (renumber f op) b) := by
  cases op with
  | claim other options now =>
    obtain rfl := Option.some.inj hthrough
    exact h.claimed hlog ha hb e fan options now
  | ackBatch other receipts =>
    obtain rfl := Option.some.inj hthrough
    refine matched_sized h (fun h => ⟨receiptBatch_zero h, receiptBatch_zero h⟩)
      (fun h => ⟨receiptBatch_large h, receiptBatch_large h⟩) fun hpos hle => ?_
    have hright : ackBatch fan other receipts b = _ := ackBatch_eq hpos hle
    rw [← h.named] at hright
    exact matched_ok (ackBatch_eq hpos hle) hright (h.acked receipts)
  | nackBatch other receipts retry now =>
    obtain rfl := Option.some.inj hthrough
    exact h.nacked ha hb receipts retry now
  | extendVisibilityBatch other receipts timeout now =>
    obtain rfl := Option.some.inj hthrough
    exact h.extended ha hb receipts timeout now
  | archiveBatch other receipts detail now =>
    obtain rfl := Option.some.inj hthrough
    refine matched_sized h (fun h => ⟨receiptBatch_zero h, receiptBatch_zero h⟩)
      (fun h => ⟨receiptBatch_large h, receiptBatch_large h⟩) fun hpos hle => ?_
    have hright : archiveBatchWithDetail e fan other receipts detail now b = _ :=
      archiveBatchWithDetail_eq e hb hpos hle
    rw [archivedLeases, ← h.named] at hright
    exact matched_ok (archiveBatchWithDetail_eq e ha hpos hle) hright
      (h.archived receipts now detail)
  | redriveBatch other ids retry now =>
    obtain rfl := Option.some.inj hthrough
    exact h.redrove ha hb e (hf ids rfl) retry now
  | purgeArchives other purge =>
    obtain rfl := Option.some.inj hthrough
    refine matched_sized h (fun h => ⟨purgeArchives_zero h, purgeArchives_zero h⟩)
      (fun h => ⟨purgeArchives_large h, purgeArchives_large h⟩) fun hpos hle => ?_
    have hright : purgeArchives fan other purge b = _ := purgeArchives_eq hpos.ne' hle
    have htwins := twins_filter (h.purgedNamed purge)
    rw [← select_purgedNamed, ← select_purgedNamed] at htwins
    rw [← htwins.length_eq] at hright
    exact matched_ok (purgeArchives_eq hpos.ne' hle) hright (h.unarchived (h.purgedNamed purge))
  | beginDraining other now =>
    obtain rfl := Option.some.inj hthrough
    have hright : drainTransition other now b = _ := drainTransition_eq hb
    rw [← h.drainChanges] at hright
    exact matched_ok (drainTransition_eq ha) hright (h.drained ha hb now)
  | openConsumer | publishBatch | deleteConsumer | pruneMessages => cases hthrough

end Own

section Publishes

variable {a b db : Db} {c : ℤ} {fan : Inner} {messages : List Publish} {now : ℤ}

/-- A batch is assigned the same identifiers over the same ledger. -/
theorem SameLog.assigned (h : SameLog a b) (now : ℤ) (messages : List Publish) :
    (ledgerAt now a messages).idempotency = (ledgerAt now b messages).idempotency ∧
      Effect.assigned now a messages = Effect.assigned now b messages := by
  have hledger : (ledgerAt now a messages).idempotency = (ledgerAt now b messages).idempotency := by
    unfold ledgerAt
    split
    · exact h.ledger
    · change a.idempotency.deleteWhere _ = b.idempotency.deleteWhere _
      rw [h.ledger]
  have hknown : known (ledgerAt now a messages) = known (ledgerAt now b messages) := by
    funext key
    rw [known, known, hledger]
  exact ⟨hledger, by rw [Effect.assigned, Effect.assigned, hknown, h.seq]⟩

theorem SameLog.newRows (h : SameLog a b) (now : ℤ) (messages : List Publish) :
    Effect.newRows now messages a = Effect.newRows now messages b := by
  rw [Effect.newRows, Effect.newRows, (h.assigned now messages).2, AutoTable.freshKeys,
    AutoTable.freshKeys, h.seq]

/-- Two logs that agree still do after the same publish. -/
theorem SameLog.published (h : SameLog a b) (fan : Inner) (messages : List Publish) (now : ℤ) :
    SameLog (publishing fan messages now a) (publishing fan messages now b) where
  seq := by
    rw [publishing, publishing, publishedDb_messages, publishedDb_messages,
      AutoTable.appendAll_seq, AutoTable.appendAll_seq, h.seq, (h.assigned now messages).2]
  ledger := by
    change fillTable _ (ledgerAt now a messages).idempotency _ =
      fillTable _ (ledgerAt now b messages).idempotency _
    rw [(h.assigned now messages).1, (h.assigned now messages).2]
  agree m hm m' hm' hid := by
    change m ∈ (publishing fan messages now a).messages.table.rows at hm
    change m' ∈ (publishing fan messages now b).messages.table.rows at hm'
    rw [publishing, publishedDb_rows, List.mem_append] at hm hm'
    rcases hm with hm | hm <;> rcases hm' with hm' | hm'
    · exact h.agree m hm m' hm' hid
    · have hle := a.messages.key_le m hm
      have hlt := lt_of_newRows hm'
      rw [← h.seq] at hlt
      omega
    · have hle := b.messages.key_le m' hm'
      have hlt := lt_of_newRows hm
      rw [h.seq] at hlt
      omega
    · have hstored : m ∈ (publishing fan messages now b).messages := by
        change m ∈ (publishing fan messages now b).messages.table.rows
        rw [publishing, publishedDb_rows, List.mem_append, ← h.newRows]
        exact .inr hm
      have hstored' : m' ∈ (publishing fan messages now b).messages := by
        change m' ∈ (publishing fan messages now b).messages.table.rows
        rw [publishing, publishedDb_rows, List.mem_append]
        exact .inr hm'
      exact AutoTable.eq_of_key hstored hstored' hid

/-- After a publish an active consumer also awaits the new rows its filter accepts. -/
theorem waiting_published (hinv : Inv db) (fan : Inner) (messages : List Publish) (now c : ℤ) :
    waiting (publishing fan messages now db) c = waiting db c ++
      match db.consumers.lookup c with
      | none => []
      | some row => (newRows now messages db).filter fun message =>
          row.drainingAt.isNone && topicMatches row.topicFilter message.topic := by
  have hconsumers : (publishing fan messages now db).consumers = db.consumers :=
    (ledgerAt_parts now db messages).2.1
  unfold waiting
  rw [hconsumers]
  cases hrow : db.consumers.lookup c with
  | none => rfl
  | some row =>
    have hok := hinv.rows row (AutoTable.lookup_eq_some.mp hrow).1
    simp only [unseen_eq, AutoTable.select, Table.select]
    rw [publishing, publishedDb_rows, List.filter_append]
    exact congrArg _ (List.filter_congr fun message h => hok.awaits_new (lt_of_newRows h))

/-- A publish leaves every inbox the same. -/
theorem SameInbox.published (h : SameInbox c a b) (hlog : SameLog a b) (ha : Inv a) (hb : Inv b)
    (fan : Inner) (messages : List Publish) (now : ℤ) :
    SameInbox c (publishing fan messages now a) (publishing fan messages now b) := by
  have hparts : ∀ db, (publishing fan messages now db).consumers = db.consumers ∧
      (publishing fan messages now db).deliveries = db.deliveries ∧
      (publishing fan messages now db).archives = db.archives := fun db =>
    ⟨(ledgerAt_parts now db messages).2.1, (ledgerAt_parts now db messages).2.2.1,
      (ledgerAt_parts now db messages).2.2.2.1⟩
  obtain ⟨hconsumers, hdeliveries, harchives⟩ := hparts a
  obtain ⟨hconsumers', hdeliveries', harchives'⟩ := hparts b
  refine ⟨by rw [hconsumers, hconsumers', h.row], ?_, ?_, ?_⟩
  · rw [waiting_published ha, waiting_published hb, h.waiting, hlog.newRows]
    rcases h.rows with ⟨hleft, hright⟩ | ⟨row, row', hleft, hright, hplain⟩
    · rw [hleft, hright]
    · have hfilter : row.topicFilter = row'.topicFilter := (ConsumerRow.mk.inj hplain).2.2.1
      have hdraining : row.drainingAt = row'.drainingAt := (ConsumerRow.mk.inj hplain).2.2.2.2.1
      rw [hleft, hright]
      dsimp only
      rw [hfilter, hdraining]
  · rw [deliveriesOf, hdeliveries, deliveriesOf, hdeliveries']
    exact h.deliveries
  · rw [archivesOf, harchives, archivesOf, harchives']
    exact h.archives

end Publishes

section Deletions

variable {a b db : Db} {row row' : ConsumerRow} {c : ℤ} {name : String} {mode : DeleteMode}

/-- Nothing is left of a deleted consumer. -/
theorem deletedDb_empty (db : Db) (row : ConsumerRow) :
    (deletedDb db row).consumers.lookup row.id = none ∧
      deliveriesOf (deletedDb db row) row.id = [] ∧
      archivesOf (deletedDb db row) row.id = [] := by
  refine ⟨?_, ?_, ?_⟩
  · change (db.consumers.deleteWhere _).lookup row.id = none
    rw [AutoTable.lookup_deleteWhere]
    cases hrow : db.consumers.lookup row.id with
    | none => rfl
    | some other =>
      have hid : other.id = row.id := (AutoTable.lookup_eq_some.mp hrow).2
      rw [Option.filter_some, hid, beq_self_eq_true]
      rfl
  · refine List.eq_nil_iff_forall_not_mem.mpr fun d hd => ?_
    obtain ⟨hmem, howner⟩ := mem_deliveriesOf.mp hd
    have hkept := (Table.mem_deleteWhere.mp hmem).2
    rw [howner, beq_self_eq_true] at hkept
    cases hkept
  · refine List.eq_nil_iff_forall_not_mem.mpr fun r hr => ?_
    obtain ⟨hmem, howner⟩ := mem_archivesOf.mp hr
    have hkept := (AutoTable.mem_deleteWhere.mp hmem).2
    rw [howner, beq_self_eq_true] at hkept
    cases hkept

/-- Two stores that hold nothing of a consumer look alike to it. -/
theorem SameInbox.empty (hrow : a.consumers.lookup c = none) (hrow' : b.consumers.lookup c = none)
    (hdeliveries : deliveriesOf a c = []) (hdeliveries' : deliveriesOf b c = [])
    (harchives : archivesOf a c = []) (harchives' : archivesOf b c = []) : SameInbox c a b where
  row := by rw [hrow, hrow']
  waiting := by
    unfold Inbox.waiting
    rw [hrow, hrow']
  deliveries := by rw [hdeliveries, hdeliveries']
  archives := by
    rw [harchives, harchives']
    exact .nil

/-- A deletion counts the same in both stores. -/
theorem Abreast.counts (h : Abreast a b row row') :
    outstandingCount a row = outstandingCount b row' ∧
      archivedCount a row = archivedCount b row' := by
  constructor
  · rw [outstandingCount, outstandingCount, ← unseen_eq, ← unseen_eq, h.unseen, h.inbox.deliveries,
      h.id]
  · rw [archivedCount, archivedCount, h.inbox.archives.length_eq, h.id]

/-- A deletion is refused in both stores or in neither. -/
theorem Abreast.refusal (h : Abreast a b row row') (name : String) (mode : DeleteMode) :
    deleteRefusal name mode a row = deleteRefusal name mode b row' := by
  rw [deleteRefusal, deleteRefusal, h.counts.1, h.counts.2, h.drainingAt]

/-- A deletion of the consumer. -/
theorem Abreast.deleted (h : Abreast a b row row') (e : Engine) (fan : Inner) (mode : DeleteMode)
    (hrow : consumerNamed a name = some row) (hrow' : consumerNamed b name = some row') :
    Matched row.id (System.exec e fan (.deleteConsumer name mode) a)
      (System.exec e fan (.deleteConsumer name mode) b) := by
  have hleft : deleteConsumer name mode a = _ := deleteConsumer_eq hrow
  have hright : deleteConsumer name mode b = _ := deleteConsumer_eq hrow'
  rw [← h.refusal] at hright
  cases hrefusal : deleteRefusal name mode a row with
  | some err =>
    rw [hrefusal] at hleft hright
    exact matched_refused hleft hright h.inbox
  | none =>
    rw [hrefusal] at hleft hright
    rw [← h.counts.1, ← h.counts.2] at hright
    obtain ⟨hgone, hdeliveries, harchives⟩ := deletedDb_empty a row
    obtain ⟨hgone', hdeliveries', harchives'⟩ := deletedDb_empty b row'
    rw [← h.id] at hgone' hdeliveries' harchives'
    exact matched_ok hleft hright
      (.empty hgone hgone' hdeliveries hdeliveries' harchives harchives')

end Deletions

section Stores

variable {a b : Db} {c : ℤ} {op : Op}

/-- A publish of the store, by what its arguments decide. -/
theorem exec_publishBatch (e : Engine) (fan : Inner) (messages : List Publish) (now : ℤ) (db : Db) :
    System.exec e fan (.publishBatch messages now) db =
      match publishRefusal fan messages now with
      | some err => (db, .error err)
      | none => (publishing fan messages now db,
        .ok (.outcomes (assigned now db messages).outcomes)) := by
  have hcases := publishBatch_cases e fan messages now db
  change replying .outcomes (commit (publishBatch e fan messages now) db) = _
  cases hrefusal : publishRefusal fan messages now with
  | some err =>
    rw [hrefusal] at hcases
    exact replying_error hcases
  | none =>
    rw [hrefusal] at hcases
    exact replying_ok hcases

/-- An operation of the store leaves logs that agree in agreement. -/
theorem SameLog.exec (h : SameLog a b) (ha : Inv a) (hb : Inv b) (e : Engine) (fan : Inner)
    (op op' : Op) (hsame : ∀ messages now, op = .publishBatch messages now ↔
      op' = .publishBatch messages now) :
    SameLog (System.exec e fan op a).1 (System.exec e fan op' b).1 := by
  by_cases hpublish : ∃ messages now, op = .publishBatch messages now
  · obtain ⟨messages, now, rfl⟩ := hpublish
    obtain rfl := (hsame messages now).mp rfl
    rw [exec_publishBatch, exec_publishBatch]
    cases publishRefusal fan messages now with
    | some err => exact h
    | none => exact h.published fan messages now
  · have hleft := shortened_effect (exec_effect e fan op ha) fun messages now heq =>
      hpublish ⟨messages, now, heq⟩
    have hright := shortened_effect (exec_effect e fan op' hb) fun messages now heq =>
      hpublish ⟨messages, now, (hsame messages now).mpr heq⟩
    exact ((h.shortened hright).symm.shortened hleft).symm

/-- An operation of the store leaves the inbox of a known consumer the same. -/
theorem SameInbox.store (h : SameInbox c a b) (hlog : SameLog a b) (ha : Inv a) (hb : Inv b)
    (e : Engine) (fan : Inner) (hthrough : System.through op = none) (hle : c ≤ a.consumers.seq)
    (hle' : c ≤ b.consumers.seq) :
    SameInbox c (System.exec e fan op a).1 (System.exec e fan op b).1 := by
  have hforeign : Foreign a c op → Foreign b c op →
      SameInbox c (System.exec e fan op a).1 (System.exec e fan op b).1 := by
    intro hleft hright
    have hkept := kept_effect (exec_effect e fan op ha) ha hle hleft
    have hkept' := kept_effect (exec_effect e fan op hb) hb hle' hright
    exact ((h.kept hkept').symm.kept hkept).symm
  cases op with
  | publishBatch messages now =>
    rw [exec_publishBatch, exec_publishBatch]
    cases publishRefusal fan messages now with
    | some err => exact h
    | none => exact h.published hlog ha hb fan messages now
  | deleteConsumer name mode =>
    rcases h.abreast hlog ha hb with ⟨hleft, hright⟩ | ⟨row, row', hleft, hright, rfl, -, habreast⟩
    · refine hforeign (fun row hrow => ?_) fun row hrow => ?_
      · rw [hleft] at hrow
        cases hrow
      · rw [hright] at hrow
        cases hrow
    · obtain ⟨hmem, -⟩ := AutoTable.lookup_eq_some.mp hleft
      obtain ⟨hmem', -⟩ := AutoTable.lookup_eq_some.mp hright
      have hname : row.name = row'.name := (ConsumerRow.mk.inj habreast.plain).2.1
      by_cases htarget : row.name = name
      · have hfound : consumerNamed a name = some row := htarget ▸ consumerNamed_of_mem ha hmem
        have hfound' : consumerNamed b name = some row' := by
          rw [← htarget, hname]
          exact consumerNamed_of_mem hb hmem'
        exact (habreast.deleted e fan mode hfound hfound').inbox
      · refine hforeign (fun other hother => ?_) fun other hother => ?_
        · rw [hleft] at hother
          exact Option.some.inj hother ▸ htarget
        · rw [hright] at hother
          rw [← Option.some.inj hother, ← hname]
          exact htarget
  | openConsumer | pruneMessages =>
    refine hforeign (fun other hother => ?_) fun other hother => ?_ <;> cases hother
  | claim | ackBatch | nackBatch | extendVisibilityBatch | archiveBatch | redriveBatch
  | purgeArchives | beginDraining => cases hthrough

end Stores

end LiteFan.Alike

import LiteFan.Identity
import LiteFan.Outstanding
import LiteFan.Refusals

/-!
# The orders the source does not control never show

SQLite promises no order of the rows a statement returns, and a hash set no
order of its keys. Whichever orders a run comes with, a call from a reachable
state leaves the same tables and gets the same answer, to the last identifier,
so a run of calls is determined by its arguments and clock readings alone.
-/

namespace LiteFan.Engines

open LiteFan.Api LiteFan.Time LiteFan.Schema LiteFan.Storage LiteFan.Store LiteFan.Consumer
open LiteFan.System LiteFan.Invariant LiteFan.Effect LiteFan.Step LiteFan.Preservation
open LiteFan.Calls LiteFan.Identity LiteFan.Outstanding LiteFan.Refusals Relational

/-- What a batch leaves and reports, given what its body does. -/
def sizedOutcome {σ α : Type} (size : ℕ) (state : σ) (nothing : α) (body : σ × α) : σ × α :=
  if size = 0 then (state, nothing) else body

/-- What a transaction whose guards all pass leaves and replies, with no order left open. -/
def outcome (fan : Inner) (db : Db) : Op → Db × Reply
  | .openConsumer name filter now =>
    match consumerNamed db name with
    | none => (openedDb db name filter now, .opened ⟨nextConsumer db, name, filter⟩)
    | some row => (reopenedDb db, .opened ⟨row.id, name, filter⟩)
  | .publishBatch messages now =>
    (publishing fan messages now db, .outcomes (assigned now db messages).outcomes)
  | .claim handle poll now =>
    sizedOutcome poll.maxMessages db (.granted ⟨[], false⟩)
      (match db.consumers.lookup handle.id with
      | none => (db, .granted ⟨[], false⟩)
      | some row =>
        (claimedDb db row now (now + asMillis poll.visibilityTimeout) poll.maxMessages,
          .granted ⟨claimedDeliveries db row now (now + asMillis poll.visibilityTimeout)
            poll.maxMessages, row.drainingAt.isSome⟩))
  | .ackBatch handle receipts =>
    (deleteDeliveries db (pushReceiptPredicate handle.id receipts),
      .batch (batchResult receipts.length
        (db.deliveries.select (pushReceiptPredicate handle.id receipts)).length))
  | .nackBatch handle receipts retry now =>
    (touched db handle.id (nackRow (now + asMillis retry.delay))
        (nackRow_key (now + asMillis retry.delay)) (chunks receiptsPerChunk receipts),
      .batch (batchResult receipts.length (touchedRows handle.id
        (nackRow (now + asMillis retry.delay)) (nackRow_key (now + asMillis retry.delay))
        db.deliveries (chunks receiptsPerChunk receipts))))
  | .extendVisibilityBatch handle receipts timeout now =>
    (touched db handle.id (extendRow (now + asMillis timeout))
        (extendRow_key (now + asMillis timeout)) (chunks receiptsPerChunk receipts),
      .batch (batchResult receipts.length (touchedRows handle.id
        (extendRow (now + asMillis timeout)) (extendRow_key (now + asMillis timeout))
        db.deliveries (chunks receiptsPerChunk receipts))))
  | .archiveBatch handle receipts detail now =>
    (archivedDb db handle.id receipts now detail,
      .batch (batchResult receipts.length (archivedLeases db handle.id receipts).length))
  | .redriveBatch handle archiveIds retry now =>
    (redrivenDb db handle.id archiveIds (now + asMillis retry.delay),
      .batch (batchResult archiveIds.length
        (db.archives.select (archiveNamed handle.id archiveIds)).length))
  | .purgeArchives handle purge =>
    (deleteArchives db (purgedNamed db handle.id purge),
      .purged ⟨(db.archives.select (purgedNamed db handle.id purge)).length⟩)
  | .beginDraining handle now =>
    (drainedDb db handle.id now, .drained (drainChanges db handle.id))
  | .deleteConsumer name _ =>
    match consumerNamed db name with
    | none => (db, .deleted ⟨0, 0⟩)
    | some row => (deletedDb db row, .deleted ⟨outstandingCount db row, archivedCount db row⟩)
  | .pruneMessages prune =>
    (prunedDb db prune, .pruned
      ⟨(db.messages.select fun message => decide (message.id ∈ prunedIds db prune)).length⟩)

section Transactions

variable {fan : Inner} {db db' : Db} {op : Op} {reply : Reply}

/-- Without receipts nothing is named. -/
theorem select_nil (db : Db) (c : ℤ) : db.deliveries.select (pushReceiptPredicate c []) = [] :=
  List.filter_eq_nil_iff.mpr fun d _ => by
    rw [pushReceiptPredicate_nil]
    exact Bool.false_ne_true

/-- Without identifiers no archive is named. -/
theorem archiveNamed_nil (c : ℤ) (a : ArchiveRow) : archiveNamed c [] a = false := by
  simp only [archiveNamed, List.not_mem_nil, decide_false, Bool.and_false]

/-- Redriving nothing restores nothing. -/
theorem redrivenDb_nil (db : Db) (c visibleAt : ℤ) : redrivenDb db c [] visibleAt = db ∧
    db.archives.select (archiveNamed c []) = [] := by
  have hselect : db.archives.select (archiveNamed c []) = [] :=
    List.filter_eq_nil_iff.mpr fun a _ => by
      rw [archiveNamed_nil]
      exact Bool.false_ne_true
  refine ⟨?_, hselect⟩
  rw [redrivenDb, redrivenRows, hselect, deleteArchives,
    AutoTable.deleteWhere_eq_self fun a _ => archiveNamed_nil c a]
  rfl

/-- A purge of nothing names no archive. -/
theorem purgedNamed_nothing (db : Db) (c : ℤ) {purge : PurgeArchives} (h : purge.maxArchives = 0)
    (a : ArchiveRow) : purgedNamed db c purge a = false := by
  rw [purgedNamed, purgedIds, h, List.take_zero]
  rfl

/-- A prune of nothing picks no message. -/
theorem prunedIds_nothing (db : Db) {prune : Prune} (h : prune.maxMessages = 0) :
    prunedIds db prune = [] := by
  rw [prunedIds, h, List.take_zero]
  rfl

/-- Asked for nothing, a transaction has nothing to do. -/
theorem idle_outcome (h : Idle op reply) : outcome fan db op = (db, reply) := by
  cases op with
  | openConsumer name filter now => exact h.elim
  | publishBatch messages now => exact h.elim
  | beginDraining handle now => exact h.elim
  | deleteConsumer name mode => exact h.elim
  | claim handle poll now =>
    obtain ⟨hnone, rfl⟩ := h
    rw [outcome, sizedOutcome, if_pos hnone]
  | ackBatch handle receipts =>
    obtain ⟨hnone, rfl⟩ := h
    obtain rfl := List.length_eq_zero_iff.mp hnone
    rw [outcome, deleteDeliveries_nil, select_nil]
    rfl
  | nackBatch handle receipts retry now =>
    obtain ⟨hnone, rfl⟩ := h
    obtain rfl := List.length_eq_zero_iff.mp hnone
    rw [outcome, touched_eq_self fun d _ => pushReceiptPredicate_nil handle.id d]
    rfl
  | extendVisibilityBatch handle receipts timeout now =>
    obtain ⟨hnone, rfl⟩ := h
    obtain rfl := List.length_eq_zero_iff.mp hnone
    rw [outcome, touched_eq_self fun d _ => pushReceiptPredicate_nil handle.id d]
    rfl
  | archiveBatch handle receipts detail now =>
    obtain ⟨hnone, rfl⟩ := h
    obtain rfl := List.length_eq_zero_iff.mp hnone
    rw [outcome, archivedDb, deleteDeliveries_nil, archivedLeases, select_nil]
    rfl
  | redriveBatch handle archiveIds retry now =>
    obtain ⟨hnone, rfl⟩ := h
    obtain rfl := List.length_eq_zero_iff.mp hnone
    rw [outcome, (redrivenDb_nil db handle.id _).1, (redrivenDb_nil db handle.id 0).2]
    rfl
  | purgeArchives handle purge =>
    obtain ⟨hnone, rfl⟩ := h
    have hnamed := purgedNamed_nothing db handle.id hnone
    have hselect : db.archives.select (purgedNamed db handle.id purge) = [] :=
      List.filter_eq_nil_iff.mpr fun a _ => by
        rw [hnamed]
        exact Bool.false_ne_true
    rw [outcome, deleteArchives, AutoTable.deleteWhere_eq_self fun a _ => hnamed a, hselect]
    rfl
  | pruneMessages prune =>
    obtain ⟨hnone, rfl⟩ := h
    have hpicked : ∀ message ∈ db.messages, decide (message.id ∈ prunedIds db prune) = false := by
      intro message _
      rw [prunedIds_nothing db hnone]
      rfl
    have hselect : (db.messages.select fun message => decide (message.id ∈ prunedIds db prune)) =
        [] := List.filter_eq_nil_iff.mpr fun message hmem => by
      rw [hpicked message hmem]
      exact Bool.false_ne_true
    rw [outcome, prunedDb, AutoTable.deleteWhere_eq_self hpicked, hselect]
    rfl

/-- A committed transaction leaves and replies its outcome. -/
theorem effect_outcome (h : Effect fan db op db' (.ok reply)) :
    db' = (outcome fan db op).1 ∧ reply = (outcome fan db op).2 := by
  cases h with
  | idle h =>
    rw [idle_outcome h]
    exact ⟨rfl, rfl⟩
  | created hname hfree =>
    rw [outcome, hfree]
    exact ⟨rfl, rfl⟩
  | reopened hname hrow hfilter =>
    rw [outcome, hrow]
    exact ⟨rfl, rfl⟩
  | published hle => exact ⟨rfl, rfl⟩
  | @granted handle poll now leaseMs deadline row hlease hid hrow hdeadline =>
    obtain ⟨hpos, -, -, hms⟩ := pollLease_some hlease
    rw [outcome, sizedOutcome, if_neg hpos.ne', hid, hrow, checkedAdd_ok hdeadline, hms]
    exact ⟨rfl, rfl⟩
  | acked hpos hle => exact ⟨rfl, rfl⟩
  | nacked hpos hle hvisible =>
    rw [outcome, ← addDuration_ok hvisible]
    exact ⟨rfl, rfl⟩
  | extended hpos hle hms hne hvisible =>
    rw [outcome, ← addDuration_ok hvisible]
    exact ⟨rfl, rfl⟩
  | archived hpos hle => exact ⟨rfl, rfl⟩
  | redriven hpos hle hvisible =>
    rw [outcome, ← addDuration_ok hvisible]
    exact ⟨rfl, rfl⟩
  | purged => exact ⟨rfl, rfl⟩
  | drained => exact ⟨rfl, rfl⟩
  | deleted hrow haccept =>
    rw [outcome, hrow]
    exact ⟨rfl, rfl⟩
  | pruned => exact ⟨rfl, rfl⟩

/-- Every transaction under the invariant is refused for its first failing guard, or has its
outcome, whatever the engine. -/
theorem exec_outcome (e : Engine) (fan : Inner) (op : Op) (hinv : Inv db) :
    exec e fan op db = match refusal fan db op with
      | some err => (db, .error err)
      | none => ((outcome fan db op).1, .ok (outcome fan db op).2) := by
  have hsettles := exec_settles e fan op hinv
  have heffect := exec_effect e fan op hinv
  cases hrefusal : refusal fan db op with
  | some err =>
    rw [hrefusal] at hsettles
    exact hsettles
  | none =>
    rw [hrefusal] at hsettles
    obtain ⟨reply, hreply⟩ := hsettles
    rw [hreply] at heffect
    obtain ⟨hdb, hsame⟩ := effect_outcome heffect
    exact Prod.ext hdb (hreply.trans (congrArg Except.ok hsame))

/-- A transaction does the same over any two engines. -/
theorem exec_engine (e e' : Engine) (fan : Inner) (op : Op) (hinv : Inv db) :
    exec e fan op db = exec e' fan op db := by
  rw [exec_outcome e fan op hinv, exec_outcome e' fan op hinv]

end Transactions

section Calls

variable {fan : Inner} {db : Db}

/-- The claim of a poll commits the same over any two engines. -/
theorem pollCommit_engine (e e' : Engine) (fan : Inner) (handle : Consumer) (options : Poll)
    (now : ℤ) (hinv : Inv db) :
    pollCommit e fan handle options now db = pollCommit e' fan handle options now db := by
  have hexec : replying .granted (pollCommit e fan handle options now db) =
      replying .granted (pollCommit e' fan handle options now db) :=
    exec_engine e e' fan (.claim handle options now) hinv
  obtain ⟨hdb, hreply⟩ := Prod.mk.inj hexec
  refine Prod.ext hdb ?_
  cases h : (pollCommit e fan handle options now db).2 with
  | error err =>
    cases h' : (pollCommit e' fan handle options now db).2 with
    | error err' =>
      rw [h, h'] at hreply
      cases hreply
      rfl
    | ok granted =>
      rw [h, h'] at hreply
      cases hreply
  | ok granted =>
    cases h' : (pollCommit e' fan handle options now db).2 with
    | error err =>
      rw [h, h'] at hreply
      cases hreply
    | ok granted' =>
      rw [h, h'] at hreply
      cases hreply
      rfl

/-- A round of a poll does the same over any two engines. -/
theorem pollRound_engine (e e' : Engine) (fan : Inner) (handle : Consumer) (options : Poll)
    (start : Start) (now : ℤ) (hinv : Inv db) :
    pollRound e fan handle options start now db = pollRound e' fan handle options start now db := by
  have hcommit := pollCommit_engine e e' fan handle options now hinv
  unfold pollCommit at hcommit
  unfold pollRound
  cases hchecks : pollChecks fan options start with
  | error err => rfl
  | ok lease =>
    cases lease with
    | none => rfl
    | some leaseMs =>
      rw [pollChecks_lease hchecks] at hcommit
      dsimp only at hcommit ⊢
      rw [claim, claim, hcommit]

/-- A call does the same over any two engines. -/
theorem call_engine (e e' : Engine) (fan : Inner) (call : Call) (hinv : Inv db) :
    call.run e fan db = call.run e' fan db := by
  cases call with
  | commit op => rw [Call.run, exec_engine e e' fan op hinv, Call.run]
  | poll handle options start now =>
    rw [Call.run, pollRound_engine e e' fan handle options start now hinv, Call.run]
  | archives handle list | beginDraining handle now | consumerSnapshot handle now | snapshot now =>
    rfl

/-- A call keeps the cross-table invariant. -/
theorem inv_call (e : Engine) (fan : Inner) (call : Call) (hinv : Inv db) :
    Inv (call.run e fan db).1 := by
  rcases call_after e fan call db with hsame | ⟨op, -, hexec⟩
  · rw [hsame]
    exact hinv
  · rw [hexec]
    exact inv_effect (exec_effect e fan op hinv) hinv

end Calls

section Requests

/-- The database requests leave, made one after the other. -/
def afterAll : List Request → Db → Db
  | [], db => db
  | request :: requests, db => afterAll requests (request.after db)

/-- What the caller decides of a request. -/
def Request.asked (request : Request) : Inner × Call := (request.fan, request.call)

/-- The same calls get the same answers and leave the same tables, whatever the engines. -/
theorem answers_asked {requests requests' : List Request}
    (hsame : requests.map Request.asked = requests'.map Request.asked) {db : Db} (hinv : Inv db) :
    answers requests db = answers requests' db ∧ afterAll requests db = afterAll requests' db := by
  induction requests generalizing requests' db with
  | nil =>
    obtain rfl := List.map_eq_nil_iff.mp hsame.symm
    exact ⟨rfl, rfl⟩
  | cons request requests ih =>
    cases requests' with
    | nil => cases hsame
    | cons request' requests' =>
      obtain ⟨hhead, htail⟩ := List.cons.inj hsame
      obtain ⟨hfan, hcall⟩ := Prod.mk.inj hhead
      have hrun : request.call.run request.e request.fan db =
          request'.call.run request'.e request'.fan db := by
        rw [hfan, hcall]
        exact call_engine _ _ _ _ hinv
      have hafter : request.after db = request'.after db := congrArg Prod.fst hrun
      have hanswer : request.answer db = request'.answer db := congrArg Prod.snd hrun
      have hnext : Inv (request'.after db) := inv_call _ _ _ hinv
      obtain ⟨hanswers, hleft⟩ := ih htail hnext
      rw [answers, answers, afterAll, afterAll, hafter, hanswer, hanswers, hleft]
      exact ⟨rfl, rfl⟩

end Requests

/-- From every reachable state, two runs of the same calls, over any engines at any step, get
the same answers and leave the same database: no order of returned rows or of hashed keys is
ever visible. -/
theorem engines_invisible {db : Db} (hreach : Reachable db) {requests requests' : List Request}
    (hsame : requests.map Request.asked = requests'.map Request.asked) :
    answers requests db = answers requests' db ∧ afterAll requests db = afterAll requests' db :=
  answers_asked hsame (inv_reachable hreach)

/-- The engine that returns everything in the reverse order. -/
def backwards : Engine where
  returning rows := rows.reverse
  returning_perm := List.reverse_perm
  hashOrder keys := keys.dedup.reverse
  hashOrder_perm keys := List.reverse_perm keys.dedup

/-- An open, a batch of two keys and a poll for both, over one engine at every step. -/
def twoKeys (e : Engine) : List Request :=
  [⟨e, Inner.default, .commit (.openConsumer "jobs" .all 0)⟩,
    ⟨e, Inner.default, .commit (.publishBatch [⟨none, [7], some [1]⟩, ⟨none, [8], some [2]⟩] 1)⟩,
    ⟨e, Inner.default, .poll firstHandle ⟨2, 1000000, 0⟩ ⟨9, 0⟩ 2⟩]

/-- Two keyed messages are published and delivered in the same order over both engines. -/
theorem engines_invisible_two :
    answers (twoKeys Engine.inOrder) Db.empty = answers (twoKeys backwards) Db.empty ∧
      afterAll (twoKeys Engine.inOrder) Db.empty = afterAll (twoKeys backwards) Db.empty :=
  engines_invisible ⟨[], .nil⟩ rfl

end LiteFan.Engines

import LiteFan.Alike
import LiteFan.Draining
import LiteFan.Effect.Pages
import LiteFan.Effect.Totals

/-!
# The error contract

A call is refused for the first guard that fails, and for nothing else: the size
of its batch, its lease, a deadline outside the 64-bit range, its name, or the
consumer it is about. The guards read the arguments, the clock and the stored
rows; no statement of a transaction ever adds a reason of its own. A refused
call leaves every table as it was.
-/

namespace LiteFan.Refusals

open LiteFan.Api LiteFan.Time LiteFan.Schema LiteFan.Storage LiteFan.Store LiteFan.Consumer
open LiteFan.System LiteFan.Invariant LiteFan.Effect LiteFan.Step LiteFan.Preservation
open LiteFan.Calls LiteFan.Alike LiteFan.Draining Relational

/-- A guard: its error when the condition holds. -/
def refuseIf (condition : Prop) [Decidable condition] (err : Error) : Option Error :=
  if condition then some err else none

/-- A number SQLite's integer column can hold. -/
def InRange (a : ℤ) : Prop := i64Min ≤ a ∧ a ≤ i64Max

instance (a : ℤ) : Decidable (InRange a) := inferInstanceAs (Decidable (_ ∧ _))

/-- The guard of a timestamp a span after a reading. -/
def lateRefusal (now : ℤ) (span : Duration) : Option Error :=
  refuseIf (¬((asMillis span : ℤ) ≤ i64Max ∧ InRange (now + asMillis span))) .durationOutOfRange

/-- The guards of a lease. -/
def leaseRefusal (timeout : Duration) : Option Error :=
  (refuseIf (¬(asMillis timeout : ℤ) ≤ i64Max) .durationOutOfRange).or
    (refuseIf (asMillis timeout = 0) .invalidVisibilityTimeout)

/-- Nothing asked for is never refused; a request over the limit is refused before the rest is
looked at. -/
def sizedRefusal (fan : Inner) (size : ℕ) (rest : Option Error) : Option Error :=
  if size = 0 then none
  else (refuseIf (fan.maxBatchSize < size) (.batchTooLarge size fan.maxBatchSize)).or rest

/-- Why a transaction is refused, none when it commits. -/
def refusal (fan : Inner) (db : Db) : Op → Option Error
  | .openConsumer name filter _ =>
    if name = "" then some .emptyConsumerName
    else
      match consumerNamed db name with
      | none => none
      | some row =>
        refuseIf (row.topicFilter ≠ filter.asDatabaseValue) (.consumerConfigurationMismatch name)
  | .publishBatch messages now =>
    sizedRefusal fan messages.length
      (if messages.all fun message => message.idempotencyKey.isNone then none
      else refuseIf (¬InRange (now + fan.idempotencyWindowMs)) .durationOutOfRange)
  | .claim handle poll now =>
    sizedRefusal fan poll.maxMessages ((leaseRefusal poll.visibilityTimeout).or
      ((lateRefusal now poll.visibilityTimeout).or
        (refuseIf ((db.consumers.lookup handle.id).isNone) (.consumerDeleted handle.name))))
  | .ackBatch _ receipts => sizedRefusal fan receipts.length none
  | .nackBatch _ receipts retry now =>
    sizedRefusal fan receipts.length (lateRefusal now retry.delay)
  | .extendVisibilityBatch _ receipts timeout now =>
    sizedRefusal fan receipts.length ((leaseRefusal timeout).or (lateRefusal now timeout))
  | .archiveBatch _ receipts _ _ => sizedRefusal fan receipts.length none
  | .redriveBatch _ archiveIds retry now =>
    sizedRefusal fan archiveIds.length (lateRefusal now retry.delay)
  | .purgeArchives _ purge => sizedRefusal fan purge.maxArchives none
  | .beginDraining .. => none
  | .deleteConsumer name mode =>
    match consumerNamed db name with
    | none => some (.consumerNotFound name)
    | some row => deleteRefusal name mode db row
  | .pruneMessages prune => sizedRefusal fan prune.maxMessages none

/-- A claim of the consumer would have something to look at. -/
def hasWork (db : Db) (row : ConsumerRow) (now : ℤ) : Bool :=
  (db.deliveries.rows.any fun d => d.consumerId == row.id && decide (d.visibleAt ≤ now)) ||
    decide (row.scanCursor < scanLimit db row)

/-- The guards of a poll's arguments: its size, its lease and its deadline. -/
def argumentRefusal (fan : Inner) (options : Poll) (start : Start) : Option Error :=
  sizedRefusal fan options.maxMessages ((leaseRefusal options.visibilityTimeout).or
    (refuseIf (¬start.started + options.wait ≤ start.instantMax)
      (.invalidPoll "wait is too large")))

/-- Why a call is refused, none when it is answered. -/
def callRefusal (fan : Inner) (db : Db) : Call → Option Error
  | .commit op => refusal fan db op
  | .poll handle options start now =>
    (argumentRefusal fan options start).or
      (if options.maxMessages = 0 then none
      else
        match db.consumers.lookup handle.id with
        | none => some (.consumerDeleted handle.name)
        | some row =>
          if hasWork db row now then lateRefusal now options.visibilityTimeout else none)
  | .archives _ list => sizedRefusal fan list.maxArchives none
  | .beginDraining handle _ | .consumerSnapshot handle _ =>
    refuseIf ((db.consumers.lookup handle.id).isNone) (.consumerDeleted handle.name)
  | .snapshot _ =>
    refuseIf (u64Max < consumerTotal db outstandingCount ∨ u64Max < consumerTotal db archivedCount)
      .counterOutOfRange

/-- What a call does that is refused or not. -/
def Settles {α : Type} (refused : Option Error) (db : Db) (result : Db × Except Error α) : Prop :=
  match refused with
  | some err => result = (db, .error err)
  | none => ∃ a, result.2 = .ok a

section Guards

variable {condition : Prop} [Decidable condition] {err err' : Error} {now : ℤ} {span : Duration}

theorem refuseIf_some : refuseIf condition err = some err' ↔ condition ∧ err = err' := by
  unfold refuseIf
  split_ifs with h <;> simp [h]

theorem refuseIf_none : refuseIf condition err = none ↔ ¬condition := by
  unfold refuseIf
  split_ifs with h <;> simp [h]

/-- A checked sum in range is the sum. -/
theorem checkedAdd_inRange {a b : ℤ} (h : InRange (a + b)) : checkedAdd a b = .ok (a + b) := by
  unfold checkedAdd
  exact if_pos h

/-- A checked sum outside the range is refused. -/
theorem checkedAdd_outside {a b : ℤ} (h : ¬InRange (a + b)) :
    checkedAdd a b = .error .durationOutOfRange := by
  unfold checkedAdd
  exact if_neg h

/-- A span that fits is its milliseconds. -/
theorem durationMs_fits (h : (asMillis span : ℤ) ≤ i64Max) :
    durationMs span = .ok (asMillis span) := by
  unfold durationMs i64TryFrom
  exact if_pos h

/-- A span that does not fit is refused. -/
theorem durationMs_outside (h : ¬(asMillis span : ℤ) ≤ i64Max) :
    durationMs span = .error .durationOutOfRange := by
  unfold durationMs i64TryFrom
  exact if_neg h

/-- A deadline is computed, or refused as its guard says. -/
theorem addDuration_settles (now : ℤ) (span : Duration) :
    match lateRefusal now span with
    | some err => addDuration now span = .error err
    | none => addDuration now span = .ok (now + asMillis span) := by
  unfold lateRefusal refuseIf addDuration
  by_cases hfits : (asMillis span : ℤ) ≤ i64Max
  · rw [durationMs_fits hfits]
    by_cases hrange : InRange (now + asMillis span)
    · rw [if_neg (not_not.mpr ⟨hfits, hrange⟩)]
      exact checkedAdd_inRange hrange
    · rw [if_pos fun h => hrange h.2]
      exact checkedAdd_outside hrange
  · rw [durationMs_outside hfits, if_pos fun h => hfits h.1]
    rfl

end Guards

section Transactions

variable {fan : Inner} {db : Db}

/-- A call whose guards all pass is answered. -/
theorem settles_ok {α : Type} {db db' : Db} {a : α} : Settles none db (db', Except.ok a) :=
  ⟨a, rfl⟩

/-- A sized operation is refused for its size, or as its body is. -/
theorem settles_sized {α : Type} {wrap : α → Reply} {size : ℕ} {rest : Option Error}
    {transaction : Transaction α} {nothing : α}
    (hzero : size = 0 → transaction db = .ok (db, nothing))
    (hlarge : fan.maxBatchSize < size →
      transaction db = .error (.batchTooLarge size fan.maxBatchSize))
    (hbody : 0 < size → size ≤ fan.maxBatchSize →
      Settles rest db (replying wrap (commit transaction db))) :
    Settles (sizedRefusal fan size rest) db (replying wrap (commit transaction db)) := by
  unfold sizedRefusal
  by_cases hpos : size = 0
  · rw [if_pos hpos, replying_ok (hzero hpos)]
    exact settles_ok
  · rw [if_neg hpos]
    by_cases hle : fan.maxBatchSize < size
    · rw [replying_error (hlarge hle), refuseIf, if_pos hle]
      rfl
    · rw [refuseIf, if_neg hle]
      exact hbody (Nat.pos_of_ne_zero hpos) (not_lt.mp hle)

/-- Opening is refused for its name or for the filter of the identity it finds. -/
theorem settles_openConsumer (name : String) (filter : Filter) (now : ℤ) :
    Settles (refusal fan db (.openConsumer name filter now)) db
      (replying .opened (commit (openConsumer name filter now) db)) := by
  rw [refusal]
  by_cases hname : name = ""
  · rw [if_pos hname, replying_error (openConsumer_empty hname)]
    rfl
  · rw [if_neg hname]
    cases hrow : consumerNamed db name with
    | none =>
      rw [replying_ok (openConsumer_new hname hrow)]
      exact settles_ok
    | some row =>
      have htaken : openConsumer name filter now db = _ := openConsumer_taken hname hrow
      dsimp only
      by_cases hfilter : row.topicFilter ≠ filter.asDatabaseValue
      · rw [if_pos hfilter] at htaken
        rw [replying_error htaken, refuseIf, if_pos hfilter]
        rfl
      · rw [if_neg hfilter] at htaken
        rw [replying_ok htaken, refuseIf, if_neg hfilter]
        exact settles_ok

/-- The guards of a publish are its size and, when a message is keyed, its expiry. -/
theorem publishRefusal_eq (fan : Inner) (db : Db) (messages : List Publish) (now : ℤ) :
    publishRefusal fan messages now = refusal fan db (.publishBatch messages now) := by
  rw [refusal]
  unfold publishRefusal sizedRefusal
  by_cases hempty : messages.length = 0
  · have hnil : messages = [] := List.length_eq_zero_iff.mp hempty
    rw [if_pos hempty, if_neg (by omega), hnil]
    rfl
  · rw [if_neg hempty]
    by_cases hlarge : fan.maxBatchSize < messages.length
    · rw [if_pos hlarge, refuseIf, if_pos hlarge]
      rfl
    · rw [if_neg hlarge, refuseIf, if_neg hlarge, Option.none_or]
      split_ifs with hunkeyed
      · rfl
      · by_cases hrange : InRange (now + fan.idempotencyWindowMs)
        · rw [checkedAdd_inRange hrange, refuseIf, if_neg (not_not.mpr hrange)]
        · rw [checkedAdd_outside hrange, refuseIf, if_pos hrange]

/-- A guard that fails is not followed by others. -/
theorem sizedRefusal_or {size : ℕ} {rest more : Option Error} {err : Error}
    (h : sizedRefusal fan size rest = some err) :
    sizedRefusal fan size (rest.or more) = some err := by
  unfold sizedRefusal at h ⊢
  split_ifs at h ⊢
  rw [← Option.or_assoc, h]
  rfl

/-- Guards that pass leave the decision to the next. -/
theorem sizedRefusal_pass {size : ℕ} {rest more : Option Error}
    (h : sizedRefusal fan size rest = none) :
    sizedRefusal fan size (rest.or more) = if size = 0 then none else more := by
  unfold sizedRefusal at h ⊢
  split_ifs at h ⊢ with hpos
  · rfl
  · rw [← Option.or_assoc, h]
    rfl

/-- Guards that pass all pass. -/
theorem sizedRefusal_rest {size : ℕ} {rest : Option Error} (h : sizedRefusal fan size rest = none)
    (hpos : size ≠ 0) : rest = none := by
  unfold sizedRefusal at h
  rw [if_neg hpos, Option.or_eq_none_iff] at h
  exact h.2

/-- A lease that is not refused fits and is real. -/
theorem leaseRefusal_none {timeout : Duration} (h : leaseRefusal timeout = none) :
    (asMillis timeout : ℤ) ≤ i64Max ∧ asMillis timeout ≠ 0 := by
  unfold leaseRefusal at h
  rw [Option.or_eq_none_iff, refuseIf_none, refuseIf_none, not_not] at h
  exact h

/-- What a poll's arguments ask for, unless they are refused. -/
theorem pollLease_settles (fan : Inner) (poll : Poll) :
    match sizedRefusal fan poll.maxMessages (leaseRefusal poll.visibilityTimeout) with
    | some err => pollLease fan poll = .error err
    | none => pollLease fan poll =
        .ok (if poll.maxMessages = 0 then none else some (asMillis poll.visibilityTimeout)) := by
  unfold sizedRefusal leaseRefusal refuseIf pollLease
  by_cases hpos : poll.maxMessages = 0
  · simp only [if_pos hpos]
  · simp only [if_neg hpos]
    by_cases hlarge : fan.maxBatchSize < poll.maxMessages
    · simp only [if_pos hlarge, ensureBatchSize_error hlarge]
      rfl
    · rw [if_neg hlarge, ensureBatchSize_ok.mpr (not_lt.mp hlarge)]
      by_cases hfits : (asMillis poll.visibilityTimeout : ℤ) ≤ i64Max
      · rw [durationMs_fits hfits, if_neg (not_not.mpr hfits)]
        by_cases hzero : asMillis poll.visibilityTimeout = 0
        · simp only [if_pos hzero, bind, Except.bind, Nat.cast_eq_zero]
          rfl
        · simp only [if_neg hzero, bind, Except.bind, Nat.cast_eq_zero]
          rfl
      · rw [durationMs_outside hfits, if_pos hfits]
        rfl

/-- What a poll's checks leave for its rounds, unless they refuse it. -/
theorem pollChecks_settles (fan : Inner) (options : Poll) (start : Start) :
    match argumentRefusal fan options start with
    | some err => pollChecks fan options start = .error err
    | none => pollChecks fan options start =
        .ok (if options.maxMessages = 0 then none
          else some (asMillis options.visibilityTimeout)) := by
  have hlease := pollLease_settles fan options
  unfold argumentRefusal pollChecks
  cases hrefused : sizedRefusal fan options.maxMessages
      (leaseRefusal options.visibilityTimeout) with
  | some err =>
    rw [hrefused] at hlease
    rw [sizedRefusal_or hrefused, hlease]
  | none =>
    rw [hrefused] at hlease
    rw [sizedRefusal_pass hrefused, hlease]
    by_cases hpos : options.maxMessages = 0
    · simp only [if_pos hpos]
    · simp only [if_neg hpos]
      unfold refuseIf pollDeadline
      by_cases hfits : start.started + options.wait ≤ start.instantMax
      · simp only [if_neg (not_not.mpr hfits), if_pos hfits]
      · simp only [if_pos hfits, if_neg hfits]

/-- A poll that is not refused for its arguments asks for nothing, or its lease fits. -/
theorem argumentRefusal_none {options : Poll} {start : Start}
    (h : argumentRefusal fan options start = none) (hpos : options.maxMessages ≠ 0) :
    (asMillis options.visibilityTimeout : ℤ) ≤ i64Max := by
  have hrest := sizedRefusal_rest h hpos
  rw [Option.or_eq_none_iff] at hrest
  exact (leaseRefusal_none hrest.1).1

/-- A claim is refused for its size, its lease, its deadline or its consumer, in this order. -/
theorem settles_claim (e : Engine) (hinv : Inv db) (handle : Consumer) (poll : Poll) (now : ℤ) :
    Settles (refusal fan db (.claim handle poll now)) db
      (replying .granted (pollCommit e fan handle poll now db)) := by
  rw [refusal, replying, pollCommit]
  have hlease := pollLease_settles fan poll
  cases hrefused : sizedRefusal fan poll.maxMessages (leaseRefusal poll.visibilityTimeout) with
  | some err =>
    rw [hrefused] at hlease
    rw [hlease, sizedRefusal_or hrefused]
    rfl
  | none =>
    rw [hrefused] at hlease
    rw [hlease, sizedRefusal_pass hrefused]
    by_cases hpos : poll.maxMessages = 0
    · rw [if_pos hpos, if_pos hpos]
      exact settles_ok
    · rw [if_neg hpos] at hlease
      rw [if_neg hpos, if_neg hpos]
      obtain ⟨hfits, hlimit⟩ := And.intro (leaseRefusal_none (sizedRefusal_rest hrefused hpos)).1
        (pollLease_fits hlease)
      dsimp only
      unfold lateRefusal refuseIf
      by_cases hrange : InRange (now + asMillis poll.visibilityTimeout)
      · have hdeadline := checkedAdd_inRange hrange
        rw [if_neg (not_not.mpr ⟨hfits, hrange⟩), Option.none_or]
        cases hrow : db.consumers.lookup handle.id with
        | none =>
          rw [claimCommit, commit, claimTransaction, hdeadline]
          simp only [bind, Except.bind, hrow]
          rfl
        | some row =>
          have hid : handle.id = row.id := (AutoTable.lookup_eq_some.mp hrow).2.symm
          have hrow' : db.consumers.lookup row.id = some row := hid ▸ hrow
          rw [claimCommit_eq e hinv hid hrow' hdeadline hlimit]
          exact settles_ok
      · rw [if_pos fun h => hrange h.2, Option.some_or, claimCommit, commit, claimTransaction,
          checkedAdd_outside hrange]
        rfl

/-- A batch that computes a deadline is refused when it leaves the range. -/
theorem settles_late {α : Type} {wrap : α → Reply} {transaction : Transaction α} {now : ℤ}
    {span : Duration}
    (hlate : ∀ err, addDuration now span = .error err → transaction db = .error err)
    (hdone : ∀ visibleAt, addDuration now span = .ok visibleAt →
      ∃ db' a, transaction db = .ok (db', a)) :
    Settles (lateRefusal now span) db (replying wrap (commit transaction db)) := by
  have hsettles := addDuration_settles now span
  cases hrefusal : lateRefusal now span with
  | some err =>
    rw [hrefusal] at hsettles
    rw [replying_error (hlate err hsettles)]
    rfl
  | none =>
    rw [hrefusal] at hsettles
    obtain ⟨db', a, hok⟩ := hdone _ hsettles
    rw [replying_ok hok]
    exact settles_ok

/-- An extension is refused for its size, its lease or its deadline. -/
theorem settles_extend (hinv : Inv db) (handle : Consumer) (receipts : List Receipt)
    (timeout : Duration) (now : ℤ) :
    Settles (refusal fan db (.extendVisibilityBatch handle receipts timeout now)) db
      (replying .batch (commit (extendVisibilityBatch fan handle receipts timeout now) db)) := by
  rw [refusal]
  refine settles_sized (fun h => receiptBatch_zero h) (fun h => receiptBatch_large h)
    fun hpos hle => ?_
  unfold leaseRefusal
  by_cases hfits : (asMillis timeout : ℤ) ≤ i64Max
  · have hms := durationMs_fits hfits
    rw [refuseIf, if_neg (not_not.mpr hfits), Option.none_or]
    by_cases hzero : asMillis timeout = 0
    · rw [hzero] at hms
      rw [refuseIf, if_pos hzero, Option.some_or,
        replying_error (extendVisibilityBatch_zero hpos hle hms)]
      rfl
    · have hne : (asMillis timeout : ℤ) ≠ 0 := Nat.cast_ne_zero.mpr hzero
      rw [refuseIf, if_neg hzero, Option.none_or]
      exact settles_late (fun err h => extendVisibilityBatch_late hpos hle hms hne h)
        fun visibleAt h =>
          ⟨_, _, extendVisibilityBatch_eq hpos hle hms hne h (delivery_checks hinv)⟩
  · rw [refuseIf, if_pos hfits, Option.some_or, Option.some_or,
      replying_error (extendVisibilityBatch_unfit hpos hle (durationMs_outside hfits))]
    rfl

/-- Every transaction under the invariant is refused for the first guard that fails, or commits. -/
theorem exec_settles (e : Engine) (fan : Inner) (op : Op) (hinv : Inv db) :
    Settles (refusal fan db op) db (exec e fan op db) := by
  cases op with
  | openConsumer name filter now => exact settles_openConsumer name filter now
  | publishBatch messages now =>
    have hcases : publishBatch e fan messages now db = _ := publishBatch_cases e fan messages now db
    rw [publishRefusal_eq fan db] at hcases
    cases hrefusal : refusal fan db (.publishBatch messages now) with
    | some err =>
      rw [hrefusal] at hcases
      rw [exec, replying_error hcases]
      rfl
    | none =>
      rw [hrefusal] at hcases
      rw [exec, replying_ok hcases]
      exact settles_ok
  | claim handle poll now => exact settles_claim e hinv handle poll now
  | ackBatch handle receipts =>
    rw [refusal]
    refine settles_sized (fun h => receiptBatch_zero h) (fun h => receiptBatch_large h)
      fun hpos hle => ?_
    rw [replying_ok (ackBatch_eq hpos hle)]
    exact settles_ok
  | nackBatch handle receipts retry now =>
    rw [refusal]
    exact settles_sized (fun h => receiptBatch_zero h) (fun h => receiptBatch_large h)
      fun hpos hle => settles_late (fun err h => nackBatch_late hpos hle h)
        fun visibleAt h => ⟨_, _, nackBatch_eq hpos hle h (delivery_checks hinv)⟩
  | extendVisibilityBatch handle receipts timeout now =>
    exact settles_extend hinv handle receipts timeout now
  | archiveBatch handle receipts detail now =>
    rw [refusal]
    refine settles_sized (fun h => receiptBatch_zero h) (fun h => receiptBatch_large h)
      fun hpos hle => ?_
    rw [replying_ok (archiveBatchWithDetail_eq e hinv hpos hle)]
    exact settles_ok
  | redriveBatch handle archiveIds retry now =>
    rw [refusal]
    exact settles_sized (fun h => receiptBatch_zero h) (fun h => receiptBatch_large h)
      fun hpos hle => settles_late (fun err h => redriveBatch_late e hpos hle h)
        fun visibleAt h => ⟨_, _, redriveBatch_eq e hinv hpos hle h⟩
  | purgeArchives handle purge =>
    rw [refusal]
    refine settles_sized (fun h => purgeArchives_zero h) (fun h => purgeArchives_large h)
      fun hpos hle => ?_
    rw [replying_ok (purgeArchives_eq hpos.ne' hle)]
    exact settles_ok
  | beginDraining handle now =>
    rw [refusal, exec, replying_ok (drainTransition_eq hinv)]
    exact settles_ok
  | deleteConsumer name mode =>
    rw [refusal, exec]
    cases hrow : consumerNamed db name with
    | none =>
      rw [replying_error (deleteConsumer_free hrow)]
      rfl
    | some row =>
      have heq : deleteConsumer name mode db = _ := deleteConsumer_eq hrow
      dsimp only
      cases hrefusal : deleteRefusal name mode db row with
      | some err =>
        rw [hrefusal] at heq
        rw [replying_error heq]
        rfl
      | none =>
        rw [hrefusal] at heq
        rw [replying_ok heq]
        exact settles_ok
  | pruneMessages prune =>
    rw [refusal]
    refine settles_sized (fun h => pruneMessages_zero h) (fun h => pruneMessages_large h)
      fun hpos hle => ?_
    rw [replying_ok (pruneMessages_eq hpos.ne' hle)]
    exact settles_ok

end Transactions

section Calls

variable {fan : Inner} {db : Db}

/-- Wrapping an answer keeps what is refused. -/
theorem Settles.answering {α : Type} {refused : Option Error} {result : Db × Except Error α}
    {wrap : α → Answer} (h : Settles refused db result) :
    Settles refused db (answering wrap result) := by
  cases refused with
  | some err =>
    have hresult : result = (db, .error err) := h
    rw [hresult]
    rfl
  | none =>
    obtain ⟨a, ha⟩ := h
    refine ⟨wrap a, ?_⟩
    rw [Calls.answering, ha]
    rfl

/-- There is work exactly when the check does not skip the claim. -/
theorem hasWork_iff {row : ConsumerRow} {now : ℤ} :
    hasWork db row now = true ↔ ¬Nothing db row now := by
  unfold hasWork Nothing
  rw [Bool.or_eq_true, List.any_eq_true, decide_eq_true_eq]
  constructor
  · rintro (⟨d, hd, hdue⟩ | hunseen) ⟨hlater, hend⟩
    · rw [Bool.and_eq_true, beq_iff_eq, decide_eq_true_eq] at hdue
      have hlt := hlater d hd hdue.1
      omega
    · omega
  · intro h
    by_cases hend : row.scanCursor < scanLimit db row
    · exact .inr hend
    · left
      by_contra hnone
      refine h ⟨fun d hd hc => ?_, not_lt.mp hend⟩
      by_contra hdue
      exact hnone ⟨d, hd, by rw [hc, beq_self_eq_true, Bool.true_and, decide_eq_true (by omega)]⟩

/-- A poll of one round is refused for its arguments, its consumer, or a lease it needs. -/
theorem settles_pollRound (e : Engine) (hinv : Inv db) (handle : Consumer) (options : Poll)
    (start : Start) (now : ℤ) :
    Settles (callRefusal fan db (.poll handle options start now)) db
      (pollRound e fan handle options start now db) := by
  rw [callRefusal, pollRound]
  have hchecks := pollChecks_settles fan options start
  cases hrefused : argumentRefusal fan options start with
  | some err =>
    rw [hrefused] at hchecks
    rw [hchecks, Option.some_or]
    rfl
  | none =>
    rw [hrefused] at hchecks
    rw [hchecks, Option.none_or]
    by_cases hpos : options.maxMessages = 0
    · rw [if_pos hpos, if_pos hpos]
      exact settles_ok
    · rw [if_neg hpos] at hchecks
      rw [if_neg hpos, if_neg hpos]
      have hlease := pollChecks_lease hchecks
      have hfits := argumentRefusal_none hrefused hpos
      dsimp only
      cases hrow : db.consumers.lookup handle.id with
      | none =>
        have hgone : claimCheck handle now db = .error (.consumerDeleted handle.name) := by
          rw [claimCheck, claimState, hrow]
          rfl
        rw [claim, hgone]
        rfl
      | some row =>
        have hid : handle.id = row.id := (AutoTable.lookup_eq_some.mp hrow).2.symm
        have hrow' : db.consumers.lookup row.id = some row := hid ▸ hrow
        dsimp only
        by_cases hnothing : Nothing db row now
        · rw [if_neg fun h => hasWork_iff.mp h hnothing, claim_nothing e hrow hnothing]
          exact settles_ok
        · rw [if_pos (hasWork_iff.mpr hnothing)]
          unfold lateRefusal refuseIf
          by_cases hrange : InRange (now + asMillis options.visibilityTimeout)
          · have hdeadline := checkedAdd_inRange hrange
            have hself : (claimedDb db row now (now + asMillis options.visibilityTimeout)
                options.maxMessages).consumers.lookup row.id =
                  some (withCursor (cursorAfter db row now options.maxMessages) row) :=
              lookup_claimedDb_self hrow'
            rw [if_neg (not_not.mpr ⟨hfits, hrange⟩),
              claim_eq e hinv hid hrow' hnothing hdeadline (pollLease_fits hlease)]
            rw [← hid] at hself
            obtain ⟨found, hfound, -⟩ := claimReread_deliveries hself now
              ⟨claimedDeliveries db row now (now + asMillis options.visibilityTimeout)
                options.maxMessages, row.drainingAt.isSome⟩
            rw [hfound]
            exact settles_ok
          · rw [if_pos fun h => hrange h.2, claim, (claimCheck_eq hrow).2 hnothing]
            dsimp only
            rw [claimCommit, commit, claimTransaction, checkedAdd_outside hrange]
            rfl

/-- A page is refused for its size. -/
theorem settles_archives (hinv : Inv db) (handle : Consumer) (list : ListArchives) :
    Settles (callRefusal fan db (.archives handle list)) db
      (db, Consumer.archives fan handle list db) := by
  rw [callRefusal, sizedRefusal]
  by_cases hpos : list.maxArchives = 0
  · rw [if_pos hpos, Consumer.archives, if_pos hpos]
    exact settles_ok
  · rw [if_neg hpos]
    by_cases hlarge : fan.maxBatchSize < list.maxArchives
    · rw [refuseIf, if_pos hlarge, Consumer.archives, if_neg hpos, ensureBatchSize_error hlarge]
      rfl
    · rw [refuseIf, if_neg hlarge, archives_eq hinv hpos (not_lt.mp hlarge)]
      exact settles_ok

/-- What a drain call leaves and reports. -/
theorem beginDraining_eq (hinv : Inv db) (handle : Consumer) (now : ℤ) :
    Consumer.beginDraining handle now db = if (db.consumers.lookup handle.id).isSome then
        (drainedDb db handle.id now, .ok (drainChanges db handle.id))
      else (db, .error (.consumerDeleted handle.name)) := by
  rw [Consumer.beginDraining, commit, drainTransition_eq hinv]
  dsimp only
  cases hrow : db.consumers.lookup handle.id with
  | none =>
    have hunchanged : drainChanges db handle.id = false := by
      rw [← Bool.not_eq_true, drainChanges_iff]
      rintro ⟨row, hfound, -⟩
      rw [hrow] at hfound
      cases hfound
    have hgone : (drainedDb db handle.id now).consumers.lookup handle.id = none := by
      rw [lookup_drainedDb, hrow]
      rfl
    rw [drainReport, hunchanged, hgone, drainedDb_eq_self hunchanged]
    rfl
  | some row =>
    have hstays : ((drainedDb db handle.id now).consumers.lookup handle.id).isSome = true := by
      rw [lookup_drainedDb, hrow]
      rfl
    rw [drainReport, hstays]
    cases drainChanges db handle.id <;> rfl

/-- A drain call is refused for its consumer. -/
theorem settles_beginDraining (hinv : Inv db) (handle : Consumer) (now : ℤ) :
    Settles (callRefusal fan db (.beginDraining handle now)) db
      (Consumer.beginDraining handle now db) := by
  rw [callRefusal, beginDraining_eq hinv]
  cases db.consumers.lookup handle.id with
  | none => rfl
  | some row => exact settles_ok

/-- A snapshot of a consumer is refused for its consumer. -/
theorem settles_consumerSnapshot (handle : Consumer) (now : ℤ) :
    Settles (callRefusal fan db (.consumerSnapshot handle now)) db
      (db, Consumer.snapshot handle now db) := by
  rw [callRefusal, snapshot_eq]
  cases db.consumers.lookup handle.id with
  | none => rfl
  | some row => exact settles_ok

/-- A store snapshot is refused for its sums. -/
theorem settles_snapshot (now : ℤ) :
    Settles (callRefusal fan db (.snapshot now)) db (db, Store.snapshot db now) := by
  rw [callRefusal, storeSnapshot_eq, refuseIf]
  by_cases hfits : consumerTotal db outstandingCount ≤ u64Max ∧
      consumerTotal db archivedCount ≤ u64Max
  · rw [if_pos hfits, if_neg (by omega)]
    exact settles_ok
  · rw [if_neg hfits, if_pos (by omega)]
    rfl

/-- Every call under the invariant is refused for the first guard that fails, or answered. -/
theorem call_settles (e : Engine) (fan : Inner) (call : Call) (hinv : Inv db) :
    Settles (callRefusal fan db call) db (call.run e fan db) := by
  cases call with
  | commit op => exact (exec_settles e fan op hinv).answering
  | poll handle options start now =>
    exact (settles_pollRound e hinv handle options start now).answering
  | archives handle list => exact (settles_archives hinv handle list).answering
  | beginDraining handle now => exact (settles_beginDraining hinv handle now).answering
  | consumerSnapshot handle now => exact (settles_consumerSnapshot handle now).answering
  | snapshot now => exact (settles_snapshot now).answering

end Calls

/-- No guard of a list stands for a defect. -/
def Sound (refused : Option Error) : Prop := ∀ err, refused = some err → defect err = false

section Soundness

variable {refused rest : Option Error} {condition : Prop} [Decidable condition]

theorem Sound.nothing : Sound none := fun _ h => nomatch h

theorem Sound.guard {err : Error} (h : defect err = false) : Sound (refuseIf condition err) := by
  intro err' hsome
  rw [← (refuseIf_some.mp hsome).2]
  exact h

theorem Sound.or (h : Sound refused) (hrest : Sound rest) : Sound (refused.or rest) := by
  intro err hsome
  rcases Option.or_eq_some_iff.mp hsome with hfirst | ⟨-, hsecond⟩
  · exact h err hfirst
  · exact hrest err hsecond

theorem Sound.sized (fan : Inner) (size : ℕ) (hrest : Sound rest) :
    Sound (sizedRefusal fan size rest) := by
  unfold sizedRefusal
  split_ifs
  · exact .nothing
  · exact Sound.or (.guard rfl) hrest

theorem Sound.lease (timeout : Duration) : Sound (leaseRefusal timeout) :=
  Sound.or (.guard rfl) (.guard rfl)

theorem Sound.late (now : ℤ) (span : Duration) : Sound (lateRefusal now span) := .guard rfl

/-- A refusal shows no defect. -/
theorem defect_of_error {fan : Inner} {db db' : Db} {op : Op} {err : Error}
    (h : Effect fan db op db' (.error err)) : defect err = false := by
  cases h with
  | rejected h => exact h

/-- The guards of a transaction. -/
theorem refusal_sound {fan : Inner} {db : Db} (hinv : Inv db) (op : Op) :
    Sound (refusal fan db op) := by
  intro err hsome
  have hsettles := exec_settles Engine.inOrder fan op hinv
  have heffect := exec_effect Engine.inOrder fan op hinv
  rw [hsome] at hsettles
  have hexec : exec Engine.inOrder fan op db = (db, .error err) := hsettles
  rw [hexec] at heffect
  exact defect_of_error heffect

/-- The guards of a call. -/
theorem callRefusal_sound {fan : Inner} {db : Db} (hinv : Inv db) (call : Call) :
    Sound (callRefusal fan db call) := by
  cases call with
  | commit op => exact refusal_sound hinv op
  | poll handle options start now =>
    rw [callRefusal]
    refine Sound.or (Sound.sized fan _ (Sound.or (.lease _) (.guard rfl))) ?_
    split_ifs
    · exact .nothing
    · cases db.consumers.lookup handle.id with
      | none =>
        intro err hsome
        cases hsome
        rfl
      | some row =>
        dsimp only
        split_ifs
        · exact .late now _
        · exact .nothing
  | archives handle list => exact Sound.sized fan _ .nothing
  | beginDraining handle now | consumerSnapshot handle now | snapshot now => exact .guard rfl

end Soundness

/-- In every reachable state a call fails with an error exactly when that error belongs to the
first of its guards that fails; the state is then unchanged, and the error is no schema
constraint, broken storage invariant or incomplete ledger entry. -/
theorem refused_iff {db : Db} (hreach : Reachable db) (e : Engine) (fan : Inner) (call : Call)
    (err : Error) :
    ((call.run e fan db).2 = .error err ↔ callRefusal fan db call = some err) ∧
      (callRefusal fan db call = some err → (call.run e fan db).1 = db ∧ defect err = false) := by
  have hinv := inv_reachable hreach
  have hsettles := call_settles e fan call hinv
  cases hrefusal : callRefusal fan db call with
  | some first =>
    rw [hrefusal] at hsettles
    have hrun : call.run e fan db = (db, .error first) := hsettles
    rw [hrun]
    refine ⟨⟨fun h => ?_, fun h => ?_⟩, fun h => ⟨rfl, ?_⟩⟩
    · cases h
      rfl
    · cases h
      rfl
    · cases h
      exact callRefusal_sound hinv call _ hrefusal
  | none =>
    rw [hrefusal] at hsettles
    obtain ⟨answer, hanswer⟩ := hsettles
    rw [hanswer]
    refine ⟨⟨fun h => ?_, fun h => ?_⟩, fun h => ?_⟩
    all_goals cases h

set_option maxRecDepth 10000 in
/-- Deleting a draining consumer that still has a message is refused, and says how many. -/
theorem refused_not_empty :
    ((Call.commit (.deleteConsumer "jobs" .drainedOnly)).run Engine.inOrder Inner.default
      (outcomeDb Engine.inOrder Inner.default [.openConsumer "jobs" .all 0,
        .publishBatch [⟨none, [7], none⟩] 1, .beginDraining firstHandle 2] Db.empty)).2 =
      .error (.consumerNotEmpty "jobs" 1) :=
  (refused_iff (reachable_outcome Engine.inOrder Inner.default [.openConsumer "jobs" .all 0,
    .publishBatch [⟨none, [7], none⟩] 1, .beginDraining firstHandle 2]) Engine.inOrder Inner.default
    (.commit (.deleteConsumer "jobs" .drainedOnly)) (.consumerNotEmpty "jobs" 1)).1.mpr rfl

/-- A poll that would wait past the last instant is refused before its consumer is looked up. -/
example : callRefusal Inner.default Db.empty (.poll firstHandle ⟨1, 1000000, 10⟩ ⟨9, 0⟩ 0) =
    some (.invalidPoll "wait is too large") := rfl

end LiteFan.Refusals

import LiteFan.Effect.Pages
import LiteFan.Owing
import Mathlib.Data.Finset.Dedup
import Mathlib.Data.Finset.Insert
import Mathlib.Data.Finset.Order

/-!
# Pruning collects exactly the garbage

A message is garbage when no existing consumer can be given it any more: no
sequence of polls, receipt operations, redrives and archive listings, at clock
readings however late, ends with one that returns it. Deadlines are exact sums
here, so a reading close to the end of the 64-bit range still leases. What the
prune statement looks for in the tables is exactly this.
-/

namespace LiteFan.Garbage

open LiteFan.Api LiteFan.Time LiteFan.Schema LiteFan.Storage LiteFan.Store LiteFan.Consumer
open LiteFan.System LiteFan.Invariant LiteFan.Effect LiteFan.Step LiteFan.Preservation
open LiteFan.Outstanding LiteFan.Owing Relational

/-- One claim of a poll whose lease ends at an exact sum. -/
def pollUntil (e : Engine) (fan : Inner) (self : Consumer) (options : Poll) (now : ℤ) (db : Db) :
    Db × Except Error (List Delivery) :=
  match pollLease fan options with
  | .error err => (db, .error err)
  | .ok none => (db, .ok [])
  | .ok (some leaseMs) =>
    match claimCheck self now db with
    | .error err => (db, .error err)
    | .ok (some early) => (db, .ok early.deliveries)
    | .ok none =>
      match commit (claimUntil e self options.maxMessages (now + leaseMs) now) db with
      | (db', .error err) => (db', .error err)
      | (db', .ok leased) => (db', toDeliveries self leased)

/-- What an existing consumer can be asked without another publish. -/
inductive Ask : Type 1 where
  | poll (e : Engine) (fan : Inner) (self : Consumer) (options : Poll) (now : ℤ)
  | ackBatch (fan : Inner) (self : Consumer) (receipts : List Receipt)
  | nackBatch (fan : Inner) (self : Consumer) (receipts : List Receipt) (retry : Retry) (now : ℤ)
  | extendVisibilityBatch (fan : Inner) (self : Consumer) (receipts : List Receipt)
      (visibilityTimeout : Duration) (now : ℤ)
  | archiveBatch (e : Engine) (fan : Inner) (self : Consumer) (receipts : List Receipt)
      (detail : Option String) (now : ℤ)
  | redriveBatch (e : Engine) (fan : Inner) (self : Consumer) (archiveIds : List ℤ) (retry : Retry)
      (now : ℤ)
  | archives (fan : Inner) (self : Consumer) (list : ListArchives)

/-- The messages a result shows, none when it is an error. -/
def shown {α : Type} (message : α → Message) : Except Error (List α) → List Message
  | .error _ => []
  | .ok results => results.map message

/-- The database an ask leaves and the messages it returns. -/
def Ask.run : Ask → Db → Db × List Message
  | .poll e fan self options now, db =>
    ((pollUntil e fan self options now db).1,
      shown Delivery.message (pollUntil e fan self options now db).2)
  | .ackBatch fan self receipts, db => ((commit (Consumer.ackBatch fan self receipts) db).1, [])
  | .nackBatch fan self receipts retry now, db =>
    ((commit (nackUntil fan self receipts (now + asMillis retry.delay)) db).1, [])
  | .extendVisibilityBatch fan self receipts visibilityTimeout now, db =>
    if asMillis visibilityTimeout = 0 then (db, [])
    else ((commit (extendUntil fan self receipts (now + asMillis visibilityTimeout)) db).1, [])
  | .archiveBatch e fan self receipts detail now, db =>
    ((commit (archiveBatchWithDetail e fan self receipts detail now) db).1, [])
  | .redriveBatch e fan self archiveIds retry now, db =>
    ((commit (redriveUntil e fan self archiveIds (now + asMillis retry.delay)) db).1, [])
  | .archives fan self list, db =>
    (db, shown ArchivedDelivery.message (Consumer.archives fan self list db))

/-- The clock an ask reads is not before the given reading. -/
def Ask.notBefore (since : ℤ) : Ask → Prop
  | .poll _ _ _ _ now | .nackBatch _ _ _ _ now | .extendVisibilityBatch _ _ _ _ now
  | .archiveBatch _ _ _ _ _ now | .redriveBatch _ _ _ _ _ now => since ≤ now
  | .ackBatch _ _ _ | .archives _ _ _ => True

/-- Some sequence of asks at readings from the given one on ends with one that returns the
message. -/
inductive Givable (since : ℤ) : Db → Message → Prop
  | now {db : Db} {message : Message} {ask : Ask} (h : ask.notBefore since)
      (hshown : message ∈ (ask.run db).2) : Givable since db message
  | later {db : Db} {message : Message} {ask : Ask} (h : ask.notBefore since)
      (hrest : Givable since (ask.run db).1 message) : Givable since db message

/-- Some consumer is owed the message or has it archived. -/
def Needed (db : Db) (m : ℤ) : Prop := ∃ c, Owes db c m ∨ Archived db c m

section Exact

variable {e : Engine} {fan : Inner} {self : Consumer} {options : Poll} {now : ℤ} {db : Db}

/-- A claim whose deadline is in range is the claim up to the exact sum. -/
theorem pollUntil_claim {leaseMs deadline : ℤ} (hlease : pollLease fan options = .ok (some leaseMs))
    (hdeadline : checkedAdd now leaseMs = .ok deadline) {db' : Db} {found : Claim}
    (hclaim : claim e self options.maxMessages leaseMs now db = (db', .ok found)) :
    pollUntil e fan self options now db = (db', .ok found.deliveries) := by
  obtain rfl := checkedAdd_ok hdeadline
  unfold pollUntil
  unfold claim at hclaim
  rw [hlease]
  dsimp only
  cases hcheck : claimCheck self now db with
  | error err => rw [hcheck] at hclaim; cases hclaim
  | ok early =>
    rw [hcheck] at hclaim
    cases early with
    | some early =>
      cases hclaim
      rfl
    | none =>
      have htransaction : claimTransaction e self options.maxMessages leaseMs now =
          claimUntil e self options.maxMessages (now + leaseMs) now := by
        funext store
        rw [claimTransaction_until, hdeadline]
        rfl
      dsimp only at hclaim ⊢
      rw [claimCommit, htransaction] at hclaim
      cases hcommit : commit (claimUntil e self options.maxMessages (now + leaseMs) now) db with
      | mk after result =>
        rw [hcommit] at hclaim
        cases result with
        | error err => cases hclaim
        | ok leased =>
          dsimp only at hclaim ⊢
          cases hdeliveries : toDeliveries self leased with
          | error err => rw [hdeliveries] at hclaim; cases hclaim
          | ok deliveries =>
            rw [hdeliveries] at hclaim
            dsimp only [Except.map] at hclaim
            obtain ⟨rfl, hreread⟩ := Prod.mk.inj hclaim
            have hsame : found.deliveries = deliveries := by
              unfold claimReread at hreread
              split at hreread
              · next hempty =>
                cases hstate : claimState after self.id with
                | none => rw [hstate] at hreread; cases hreread
                | some state =>
                  rw [hstate] at hreread
                  rw [← Except.ok.inj hreread]
                  exact (List.isEmpty_iff.mp hempty).symm
              · rw [← Except.ok.inj hreread]
            rw [hsame]

/-- An exact claim on a live consumer leaves and returns what its writer transaction does. -/
theorem pollUntil_eq (e : Engine) (hinv : Inv db) {row : ConsumerRow} {leaseMs : ℤ}
    (hrow : db.consumers.lookup row.id = some row) (hid : self.id = row.id)
    (hlease : pollLease fan options = .ok (some leaseMs)) :
    pollUntil e fan self options now db =
      (claimedDb db row now (now + leaseMs) options.maxMessages,
        .ok (claimedDeliveries db row now (now + leaseMs) options.maxMessages)) := by
  have hself : db.consumers.lookup self.id = some row := hid ▸ hrow
  unfold pollUntil
  rw [hlease]
  dsimp only
  by_cases hnothing : Nothing db row now
  · obtain ⟨hdb, hnone⟩ := claimed_of_nothing hrow hnothing (now + leaseMs) options.maxMessages
    rw [(claimCheck_eq hself).1 hnothing, hdb, hnone]
  · have hfits := pollLease_fits hlease
    rw [(claimCheck_eq hself).2 hnothing, commit, claimUntil_eq e hinv hid hrow hfits]
    simp only [toDeliveries_claimed self hinv hid]

end Exact

section Sound

variable {db db' : Db} {row : ConsumerRow} {message : Message} {since : ℤ}

/-- What an ask may do: it keeps the log, makes nothing needed that was not, and returns only
messages that were. -/
structure Frame (db db' : Db) (given : List Message) : Prop where
  inv : Inv db'
  log : db'.messages = db.messages
  needed : ∀ m, Needed db' m → Needed db m
  given : ∀ message ∈ given, message ∈ db.messages ∧ Needed db message.id

theorem Frame.refl (hinv : Inv db) : Frame db db [] :=
  ⟨hinv, rfl, fun _ h => h, fun _ h => absurd h List.not_mem_nil⟩

/-- A batch that is empty, too large or framed is framed. -/
theorem frame_batch {fan : Inner} {size : ℕ} {body : Transaction BatchResult} (hinv : Inv db)
    (hbody : 0 < size → size ≤ fan.maxBatchSize →
      ∃ db' result, receiptBatch fan size body db = .ok (db', result) ∧ Frame db db' []) :
    Frame db (commit (receiptBatch fan size body) db).1 [] := by
  rcases Nat.eq_zero_or_pos size with hzero | hpos
  · rw [commit, receiptBatch_zero hzero]
    exact Frame.refl hinv
  · by_cases hle : size ≤ fan.maxBatchSize
    · obtain ⟨db', result, hresult, hframe⟩ := hbody hpos hle
      rw [commit, hresult]
      exact hframe
    · rw [commit, receiptBatch_large (not_le.mp hle)]
      exact Frame.refl hinv

/-- What a claim returns is stored, and was owed to its consumer. -/
theorem owes_of_claimed (hrow : db.consumers.lookup row.id = some row) {now deadline : ℤ}
    {limit : ℕ} {delivery : Delivery}
    (h : delivery ∈ claimedDeliveries db row now deadline limit) :
    delivery.message ∈ db.messages ∧ Owes db row.id delivery.message.id := by
  rcases mem_claimedDeliveries.mp h with ⟨d, hd, message, hmessage, rfl⟩ | ⟨message, hfresh, rfl⟩
  · obtain ⟨hstored, hid⟩ := AutoTable.lookup_eq_some.mp hmessage
    obtain ⟨hmem, hc, -⟩ := mem_selectVisible hd
    exact ⟨hstored, .inl ⟨d, hmem, hc, hid.symm⟩⟩
  · have hunseen := mem_unseen_of_fresh hfresh
    exact ⟨(mem_unseen.mp hunseen).1, .inr ⟨row, message, hrow, hunseen, rfl⟩⟩

/-- A claim of a poll is framed. -/
theorem frame_poll (e : Engine) (fan : Inner) (self : Consumer) (options : Poll) (now : ℤ)
    (hinv : Inv db) : Frame db (pollUntil e fan self options now db).1
      (shown Delivery.message (pollUntil e fan self options now db).2) := by
  cases hlease : pollLease fan options with
  | error err =>
    simp only [pollUntil, hlease]
    exact Frame.refl hinv
  | ok lease =>
    cases lease with
    | none =>
      simp only [pollUntil, hlease]
      exact Frame.refl hinv
    | some leaseMs =>
      cases hself : db.consumers.lookup self.id with
      | none =>
        have hgone : claimCheck self now db = .error (.consumerDeleted self.name) := by
          rw [claimCheck, claimState, hself, Option.map_none]
        simp only [pollUntil, hlease, hgone]
        exact Frame.refl hinv
      | some row =>
        have hid : self.id = row.id := (AutoTable.lookup_eq_some.mp hself).2.symm
        have hrow : db.consumers.lookup row.id = some row := hid ▸ hself
        rw [pollUntil_eq e hinv hrow hid hlease]
        refine ⟨inv_granted hinv hrow _ _ _, rfl, fun m hneeded => ?_, fun message hgiven => ?_⟩
        · obtain ⟨c, howes | harchived⟩ := hneeded
          · exact ⟨c, .inl ((owes_claimed hinv hrow).mp howes)⟩
          · exact ⟨c, .inr harchived⟩
        · obtain ⟨delivery, hdelivery, rfl⟩ := List.mem_map.mp hgiven
          obtain ⟨hstored, howes⟩ := owes_of_claimed hrow hdelivery
          exact ⟨hstored, row.id, .inl howes⟩

/-- An acknowledgement is framed. -/
theorem frame_ack (fan : Inner) (self : Consumer) (receipts : List Receipt) (hinv : Inv db) :
    Frame db (commit (ackBatch fan self receipts) db).1 [] := by
  refine frame_batch hinv fun hpos hle => ⟨_, _, ackBatch_eq hpos hle, inv_acked hinv _, rfl, ?_,
    fun _ h => absurd h List.not_mem_nil⟩
  rintro m ⟨c, howes | harchived⟩
  · exact ⟨c, .inl (owes_of_deleted howes)⟩
  · exact ⟨c, .inr harchived⟩

/-- An update that keeps keys and does not lower counters is framed. -/
theorem frame_touched {c : ℤ} {f : DeliveryRow → DeliveryRow} {hf : ∀ d, (f d).key = d.key}
    {batches : List (List Receipt)} (hinv : Inv db)
    (hgrow : ∀ d, d.generation ≤ (touch c f batches d).generation ∧
      d.deliveryCount ≤ (touch c f batches d).deliveryCount) :
    Frame db (touched db c f hf batches) [] := by
  refine ⟨inv_touched hinv hf hgrow, rfl, ?_, fun _ h => absurd h List.not_mem_nil⟩
  rintro m ⟨c, howes | harchived⟩
  · exact ⟨c, .inl (owes_touched.mp howes)⟩
  · exact ⟨c, .inr harchived⟩

/-- An archive batch is framed. -/
theorem frame_archive (e : Engine) (fan : Inner) (self : Consumer) (receipts : List Receipt)
    (detail : Option String) (now : ℤ) (hinv : Inv db) :
    Frame db (commit (archiveBatchWithDetail e fan self receipts detail now) db).1 [] := by
  refine frame_batch hinv fun hpos hle => ⟨_, _, archiveBatchWithDetail_eq e hinv hpos hle,
    inv_archived hinv _ _ _ _, rfl, ?_, fun _ h => absurd h List.not_mem_nil⟩
  rintro m ⟨c, howes | harchived⟩
  · exact ⟨c, .inl (owes_of_deleted howes)⟩
  · rcases archived_archived.mp harchived with hold | ⟨d, hd, hc, hm, -⟩
    · exact ⟨c, .inr hold⟩
    · exact ⟨c, .inl (.inl ⟨d, hd, hc, hm⟩)⟩

/-- A redrive is framed. -/
theorem frame_redrive (e : Engine) (fan : Inner) (self : Consumer) (ids : List ℤ) (visibleAt : ℤ)
    (hinv : Inv db) : Frame db (commit (redriveUntil e fan self ids visibleAt) db).1 [] := by
  refine frame_batch hinv fun hpos hle => ⟨_, _, redriveUntil_eq e hinv visibleAt hpos hle,
    inv_redriven hinv _ _ _, rfl, ?_, fun _ h => absurd h List.not_mem_nil⟩
  rintro m ⟨c, (hdelivered | hawaited) | harchived⟩
  · rcases (delivered_redriven hinv).mp hdelivered with hold | ⟨a, ha, hc, hm, -⟩
    · exact ⟨c, .inl (.inl hold)⟩
    · exact ⟨c, .inr ⟨a, ha, hc, hm⟩⟩
  · exact ⟨c, .inl (.inr hawaited)⟩
  · exact ⟨c, .inr (archived_of_redriven harchived)⟩

/-- A listing is framed. -/
theorem frame_archives (fan : Inner) (self : Consumer) (list : ListArchives) (hinv : Inv db) :
    Frame db db (shown ArchivedDelivery.message (archives fan self list db)) := by
  refine ⟨hinv, rfl, fun _ h => h, fun message hgiven => ?_⟩
  cases hpage : archives fan self list db with
  | error err =>
    rw [hpage] at hgiven
    exact absurd hgiven List.not_mem_nil
  | ok page =>
    rw [hpage, archives_ok hinv hpage] at hgiven
    obtain ⟨view, hview, rfl⟩ := List.mem_map.mp hgiven
    obtain ⟨a, ha, hshown⟩ := List.mem_filterMap.mp hview
    obtain ⟨message, hmessage, rfl⟩ := Option.map_eq_some_iff.mp hshown
    obtain ⟨hstored, hid⟩ := AutoTable.lookup_eq_some.mp hmessage
    obtain ⟨hmem, hc, -⟩ := mem_archivesAfter.mp (List.mem_of_mem_take ha)
    exact ⟨hstored, a.consumerId, .inr ⟨a, hmem, rfl, hid.symm⟩⟩

/-- Every ask is framed. -/
theorem frame_ask (ask : Ask) (hinv : Inv db) : Frame db (ask.run db).1 (ask.run db).2 := by
  have hrows := delivery_checks hinv
  cases ask with
  | poll e fan self options now => exact frame_poll e fan self options now hinv
  | ackBatch fan self receipts => exact frame_ack fan self receipts hinv
  | nackBatch fan self receipts retry now =>
    exact frame_batch hinv fun hpos hle => ⟨_, _, nackUntil_eq _ hpos hle hrows,
      frame_touched hinv (nackRow_grows _ _ _)⟩
  | extendVisibilityBatch fan self receipts visibilityTimeout now =>
    by_cases hzero : asMillis visibilityTimeout = 0
    · simp only [Ask.run, if_pos hzero]
      exact Frame.refl hinv
    · simp only [Ask.run, if_neg hzero]
      exact frame_batch hinv fun hpos hle => ⟨_, _, extendUntil_eq _ hpos hle hrows,
        frame_touched hinv (extendRow_grows _ _ _)⟩
  | archiveBatch e fan self receipts detail now =>
    exact frame_archive e fan self receipts detail now hinv
  | redriveBatch e fan self archiveIds retry now =>
    exact frame_redrive e fan self archiveIds _ hinv
  | archives fan self list => exact frame_archives fan self list hinv

/-- What can be given is stored and needed. -/
theorem needed_of_givable (h : Givable since db message) (hinv : Inv db) :
    message ∈ db.messages ∧ Needed db message.id := by
  induction h with
  | @now db message ask _ hshown => exact (frame_ask ask hinv).given message hshown
  | @later db message ask _ _ ih =>
    have hframe := frame_ask ask hinv
    obtain ⟨hstored, hneeded⟩ := ih hframe.inv
    exact ⟨hframe.log ▸ hstored, hframe.needed _ hneeded⟩

end Sound

section Complete

variable {db : Db} {row : ConsumerRow} {message : Message} {since now : ℤ}

/-- A handle of a stored consumer. -/
def handleOf (row : ConsumerRow) : Consumer :=
  ⟨row.id, row.name, row.topicFilter.elim .all .topic⟩

/-- A poll for one message returns what its claim leases. -/
theorem pollOne_run (hinv : Inv db) (hrow : db.consumers.lookup row.id = some row) (now : ℤ) :
    (Ask.poll Engine.inOrder Inner.default (handleOf row) pollOne now).run db =
      (claimedDb db row now (now + 1) pollOne.maxMessages,
        (claimedDeliveries db row now (now + 1) pollOne.maxMessages).map Delivery.message) := by
  have hlease : pollLease Inner.default pollOne = .ok (some 1) := rfl
  have hpoll : pollUntil Engine.inOrder Inner.default (handleOf row) pollOne now db = _ :=
    pollUntil_eq Engine.inOrder hinv hrow rfl hlease
  simp only [Ask.run, hpoll, shown]

/-- Acknowledging what it returned hands it over. -/
theorem ackOne_run (hinv : Inv db) (hrow : db.consumers.lookup row.id = some row) (now : ℤ) :
    ((Ask.ackBatch Inner.default (handleOf row) ((claimedDeliveries db row now (now + 1)
      pollOne.maxMessages).map Delivery.receipt)).run
        (claimedDb db row now (now + 1) pollOne.maxMessages)).1 =
      handedDb db row now pollOne.maxMessages := by
  have hone := claimed_length_le hinv row now (now + 1) pollOne.maxMessages
  obtain ⟨result, hresult⟩ := acked_delivered Inner.default (handleOf row)
    (hone.trans (by decide : pollOne.maxMessages ≤ Inner.default.maxBatchSize))
    (claimedDb db row now (now + 1) pollOne.maxMessages)
  have hacked : deleteDeliveries (claimedDb db row now (now + 1) pollOne.maxMessages)
      (pushReceiptPredicate (handleOf row).id ((claimedDeliveries db row now (now + 1)
        pollOne.maxMessages).map Delivery.receipt)) = handedDb db row now pollOne.maxMessages :=
    acked_claimed hinv hrow now (now + 1) pollOne.maxMessages
  rw [← hacked]
  exact congrArg Prod.fst hresult

/-- What can be given once one more message has been handed over can be given. -/
theorem givable_of_handed (hsince : since ≤ now) (hinv : Inv db)
    (hrow : db.consumers.lookup row.id = some row)
    (h : Givable since (handedDb db row now pollOne.maxMessages) message) :
    Givable since db message := by
  refine @Givable.later since db message
    (.poll Engine.inOrder Inner.default (handleOf row) pollOne now) hsince ?_
  rw [pollOne_run hinv hrow]
  refine @Givable.later since _ message (.ackBatch Inner.default (handleOf row)
    ((claimedDeliveries db row now (now + 1) pollOne.maxMessages).map Delivery.receipt)) trivial ?_
  rw [ackOne_run hinv hrow]
  exact h

/-- Polling for one message at a time, late enough, and acknowledging it returns everything
owed: each round uses up one of what is outstanding. -/
theorem givable_of_owed (hsince : since ≤ now) (n : ℕ) (hinv : Inv db)
    (hrow : db.consumers.lookup row.id = some row) (hcount : (owedIds db row).length ≤ n)
    (hlate : ∀ d ∈ db.deliveries, d.consumerId = row.id → d.visibleAt ≤ now)
    (hstored : message ∈ db.messages) (howed : message.id ∈ owedIds db row) :
    Givable since db message := by
  induction n generalizing db row with
  | zero =>
    rw [List.length_eq_zero_iff.mp (Nat.le_zero.mp hcount)] at howed
    exact absurd howed List.not_mem_nil
  | succ n ih =>
    have hperm := handed_perm hinv row now (now + 1) pollOne.maxMessages
    have hrun := pollOne_run hinv hrow now
    set claimed := claimedDeliveries db row now (now + 1) pollOne.maxMessages with hclaimed
    by_cases hgiven : message ∈ claimed.map Delivery.message
    · exact @Givable.now since db message
        (.poll Engine.inOrder Inner.default (handleOf row) pollOne now) hsince (hrun ▸ hgiven)
    · -- hand over what was claimed, and go on with the rest
      have hlength := hperm.length_eq
      rw [List.length_append, List.length_map] at hlength
      have hsome : claimed.length ≠ 0 := by
        intro hzero
        have hnil := owedIds_of_empty hinv Nat.one_pos hlate (List.length_eq_zero_iff.mp hzero)
        rw [hnil] at howed
        exact absurd howed List.not_mem_nil
      have hrest : message.id ∈ owedIds (handedDb db row now pollOne.maxMessages)
          (withCursor (cursorAfter db row now pollOne.maxMessages) row) := by
        rcases List.mem_append.mp (hperm.mem_iff.mpr howed) with hin | hrest
        · obtain ⟨delivery, hdelivery, hid⟩ := List.mem_map.mp hin
          have hlogged := (owes_of_claimed hrow hdelivery).1
          obtain rfl := AutoTable.eq_of_key hlogged hstored hid
          exact absurd (List.mem_map_of_mem hdelivery) hgiven
        · exact hrest
      refine givable_of_handed hsince hinv hrow ?_
      exact @ih (handedDb db row now pollOne.maxMessages)
        (withCursor (cursorAfter db row now pollOne.maxMessages) row)
        (inv_handed hinv hrow now pollOne.maxMessages)
        (lookup_handed hrow now pollOne.maxMessages) (by omega)
        (fun d hd hc => hlate d (Table.mem_deleteWhere.mp hd).1 hc) hstored hrest

/-- A page from just before an archive shows its message. -/
theorem givable_of_archived (hinv : Inv db) {a : ArchiveRow} (ha : a ∈ db.archives)
    (hstored : message ∈ db.messages) (hid : a.messageId = message.id) :
    Givable since db message := by
  obtain ⟨row, -, hrow, -⟩ := hinv.archive_refers a ha
  have howner : row.id = a.consumerId := (AutoTable.lookup_eq_some.mp hrow).2
  let list : ListArchives := ⟨if 1 < a.id then some (a.id - 1) else none, 1⟩
  have hafter : list.after.getD 0 = a.id - 1 := by
    have hpos := db.archives.key_pos a ha
    by_cases hone : 1 < a.id
    · simp only [list, if_pos hone, Option.getD_some]
    · simp only [list, if_neg hone, Option.getD_none]
      omega
  have hpage : archives Inner.default (handleOf row) list db = _ :=
    archives_eq hinv one_ne_zero Inner.default.maxBatchSize_pos
  have hfirst : pageRows db (handleOf row).id list = [a] := by
    have hmem : a ∈ archivesAfter db (handleOf row).id (list.after.getD 0) :=
      mem_archivesAfter.mpr ⟨ha, howner.symm, by omega⟩
    have hsorted := archivesAfter_sorted db (handleOf row).id (list.after.getD 0)
    unfold pageRows
    cases hrows : archivesAfter db (handleOf row).id (list.after.getD 0) with
    | nil =>
      rw [hrows] at hmem
      exact absurd hmem List.not_mem_nil
    | cons b rest =>
      have hbound := (mem_archivesAfter.mp (hrows ▸ List.mem_cons_self : b ∈ archivesAfter db
        (handleOf row).id (list.after.getD 0))).2.2
      rw [hrows] at hmem hsorted
      rcases List.mem_cons.mp hmem with rfl | hlater
      · rfl
      · have hlt := (List.pairwise_cons.mp hsorted).1 a hlater
        omega
  have hview : archiveView db a = some ⟨a.id, message, a.deliveryCount.toNat, a.archivedAt,
      a.detail⟩ := by
    rw [archiveView, hid, AutoTable.lookup_key hstored]
    rfl
  rw [hfirst, List.filterMap_cons_some hview, List.filterMap_nil] at hpage
  refine @Givable.now since db message (.archives Inner.default (handleOf row) list) trivial ?_
  simp only [Ask.run, hpage, shown, List.map_cons, List.map_nil]
  exact List.mem_singleton.mpr rfl

/-- What is stored and needed can be given, however late. -/
theorem givable_of_needed (hinv : Inv db) (hstored : message ∈ db.messages)
    (hneeded : Needed db message.id) : Givable since db message := by
  obtain ⟨c, howes | ⟨a, ha, -, hid⟩⟩ := hneeded
  · obtain ⟨row, hrow⟩ := live_of_owes hinv howes
    have hid : row.id = c := (AutoTable.lookup_eq_some.mp hrow).2
    obtain ⟨now, hnow⟩ := Finset.exists_le
      (insert since (db.deliveries.rows.map DeliveryRow.visibleAt).toFinset)
    have hlate : ∀ d ∈ db.deliveries, d.consumerId = row.id → d.visibleAt ≤ now := fun d hd _ =>
      hnow _ (Finset.mem_insert_of_mem (List.mem_toFinset.mpr (List.mem_map_of_mem hd)))
    exact givable_of_owed (hnow since (Finset.mem_insert_self _ _)) _ hinv (hid.symm ▸ hrow) le_rfl
      hlate hstored ((owes_iff_mem hrow).mp howes)
  · exact givable_of_archived hinv ha hstored hid

/-- A stored message can be given, from any reading on, exactly when some consumer needs it. -/
theorem givable_iff (hinv : Inv db) (hstored : message ∈ db.messages) :
    Givable since db message ↔ Needed db message.id :=
  ⟨fun h => (needed_of_givable h hinv).2, givable_of_needed hinv hstored⟩

end Complete

/-- A prune repeated a number of times. -/
def pruneTimes (fan : Inner) (prune : Prune) : ℕ → Db → Db
  | 0, db => db
  | n + 1, db => pruneTimes fan prune n (commit (pruneMessages fan prune) db).1

/-- What a prune has to collect: stored, older than the cutoff, and no longer givable. -/
def Doomed (since beforeMs : ℤ) (db : Db) (message : Message) : Prop :=
  message ∈ db.messages ∧ message.publishedAtMs < beforeMs ∧ ¬Givable since db message

/-- The first of the doomed messages are gone, their number is reported, and the ledger, the
consumers, the deliveries and the archives are as before. -/
structure Collects (since : ℤ) (prune : Prune) (db db' : Db) (deletedMessages : ℕ)
    (doomed : List Message) : Prop where
  members : ∀ message, message ∈ doomed ↔ Doomed since prune.beforeMs db message
  ordered : doomed.Pairwise fun a b => a.id < b.id
  log : ∀ message, message ∈ db'.messages ↔
    message ∈ db.messages ∧ message ∉ doomed.take prune.maxMessages
  count : deletedMessages = (doomed.take prune.maxMessages).length
  ledger : db'.idempotency = db.idempotency
  consumers : db'.consumers = db.consumers
  deliveries : db'.deliveries = db.deliveries
  archives : db'.archives = db.archives

section Prunes

variable {fan : Inner} {prune : Prune} {db : Db} {since : ℤ}

/-- What the prune statement looks for is an old message that nobody needs. -/
theorem prunable_iff {message : Message} (hstored : message ∈ db.messages) :
    prunable db prune.beforeMs message = true ↔
      message.publishedAtMs < prune.beforeMs ∧ ¬Needed db message.id := by
  simp only [prunable, Bool.and_eq_true, Bool.not_eq_true', decide_eq_true_eq, List.any_eq_false,
    beq_iff_eq, and_assoc]
  refine and_congr_right fun _ => ?_
  constructor
  · rintro ⟨hdeliveries, harchives, hconsumers⟩ ⟨c, (⟨d, hd, -, hm⟩ | hawaited) | ⟨a, ha, -, hm⟩⟩
    · exact hdeliveries d hd hm
    · obtain ⟨row, other, hrow, hunseen, hm⟩ := hawaited
      rw [unseen_eq] at hunseen
      obtain ⟨hlogged, hawaits⟩ := AutoTable.mem_select.mp hunseen
      obtain rfl := AutoTable.eq_of_key hlogged hstored hm
      exact hconsumers row (AutoTable.lookup_eq_some.mp hrow).1 hawaits
    · exact harchives a ha hm
  · intro hfree
    refine ⟨fun d hd hm => hfree ⟨d.consumerId, .inl (.inl ⟨d, hd, rfl, hm⟩)⟩,
      fun a ha hm => hfree ⟨a.consumerId, .inr ⟨a, ha, rfl, hm⟩⟩, fun row hrow hawaits => ?_⟩
    refine hfree ⟨row.id, .inl (.inr ⟨row, message, AutoTable.lookup_key hrow, ?_, rfl⟩)⟩
    rw [unseen_eq]
    exact AutoTable.mem_select.mpr ⟨hstored, hawaits⟩

/-- The messages the prune statement finds are the doomed ones. -/
theorem mem_prunable (hinv : Inv db) {message : Message} :
    message ∈ db.messages.select (prunable db prune.beforeMs) ↔
      Doomed since prune.beforeMs db message := by
  rw [AutoTable.mem_select, Doomed]
  refine and_congr_right fun hstored => ?_
  rw [prunable_iff hstored, givable_iff hinv hstored]

/-- A prune inside the limits collects the first of the doomed messages. -/
theorem collects (hinv : Inv db) (hpos : 0 < prune.maxMessages)
    (hle : prune.maxMessages ≤ fan.maxBatchSize) (since : ℤ) :
    ∃ deleted, commit (pruneMessages fan prune) db = (prunedDb db prune, .ok ⟨deleted⟩) ∧
      Collects since prune db (prunedDb db prune) deleted
        (db.messages.select (prunable db prune.beforeMs)) := by
  refine ⟨_, by rw [commit, pruneMessages_eq hpos.ne' hle], fun _ => mem_prunable hinv,
    Table.select_sorted _ _, fun message => ?_, ?_, rfl, rfl, rfl, rfl⟩
  · change message ∈ db.messages.deleteWhere _ ↔ _
    rw [AutoTable.mem_deleteWhere, decide_eq_false_iff_not]
    refine and_congr_right fun hstored => not_congr ?_
    constructor
    · intro hpicked
      obtain ⟨other, hother, hid⟩ := List.mem_map.mp hpicked
      have hlogged := (AutoTable.mem_select.mp (List.mem_of_mem_take hother)).1
      rwa [AutoTable.eq_of_key hlogged hstored hid] at hother
    · exact fun hpicked => List.mem_map_of_mem hpicked
  · exact congrArg List.length (Table.select_first _ _ _)

/-- A prune that reports nothing changes nothing and leaves nothing that is doomed. -/
theorem clean_of_zero (hinv : Inv db) (hpos : 0 < prune.maxMessages)
    (hle : prune.maxMessages ≤ fan.maxBatchSize)
    (hzero : (commit (pruneMessages fan prune) db).2 = .ok ⟨0⟩) :
    (commit (pruneMessages fan prune) db).1 = db ∧ ∀ message ∈ db.messages,
      message.publishedAtMs < prune.beforeMs → Givable since db message := by
  obtain ⟨deleted, hcommit, hcollects⟩ := @collects fan prune db hinv hpos hle since
  rw [hcommit] at hzero ⊢
  obtain rfl := PruneOutcome.mk.inj (Except.ok.inj hzero)
  have hnone := List.length_eq_zero_iff.mp hcollects.count.symm
  constructor
  · have hlog : db.messages.deleteWhere (fun message => decide (message.id ∈ prunedIds db prune)) =
        db.messages := by
      refine AutoTable.deleteWhere_eq_self fun message hstored => ?_
      exact (AutoTable.mem_deleteWhere.mp ((hcollects.log message).mpr
        ⟨hstored, by rw [hnone]; exact List.not_mem_nil⟩)).2
    rw [prunedDb, hlog]
  · intro message hstored hold
    by_contra hgone
    have hdoomed := (hcollects.members message).mpr ⟨hstored, hold, hgone⟩
    rcases List.take_eq_nil_iff.mp hnone with hzero | hnil
    · exact absurd hzero hpos.ne'
    · rw [hnil] at hdoomed
      exact absurd hdoomed List.not_mem_nil

/-- A repeated prune leaves the invariant. -/
theorem inv_pruneTimes (n : ℕ) (hinv : Inv db) (hpos : 0 < prune.maxMessages)
    (hle : prune.maxMessages ≤ fan.maxBatchSize) : Inv (pruneTimes fan prune n db) := by
  induction n generalizing db with
  | zero => exact hinv
  | succ n ih =>
    obtain ⟨deleted, hcommit, -⟩ := @collects fan prune db hinv hpos hle 0
    rw [pruneTimes, hcommit]
    exact ih (inv_pruned hinv prune)

/-- A repeated prune comes to report nothing: each one before shortens the log. -/
theorem pruneTimes_zero (hinv : Inv db) (hpos : 0 < prune.maxMessages)
    (hle : prune.maxMessages ≤ fan.maxBatchSize) :
    ∃ n, (commit (pruneMessages fan prune) (pruneTimes fan prune n db)).2 = .ok ⟨0⟩ := by
  generalize hsize : db.messages.table.rows.length = size
  induction size using Nat.strong_induction_on generalizing db with
  | _ size ih =>
    have hcommit : commit (pruneMessages fan prune) db = (prunedDb db prune, .ok
        ⟨(db.messages.select fun message => decide (message.id ∈ prunedIds db prune)).length⟩) := by
      rw [commit, pruneMessages_eq hpos.ne' hle]
    by_cases hzero :
        (db.messages.select fun message => decide (message.id ∈ prunedIds db prune)).length = 0
    · exact ⟨0, by rw [pruneTimes, hcommit, hzero]⟩
    · have hsplit := List.length_eq_length_filter_add (l := db.messages.table.rows)
        fun message => decide (message.id ∈ prunedIds db prune)
      have hshorter : (prunedDb db prune).messages.table.rows.length < size := by
        change (db.messages.table.rows.filter fun message =>
          !decide (message.id ∈ prunedIds db prune)).length < size
        change (db.messages.table.rows.filter _).length ≠ 0 at hzero
        omega
      obtain ⟨n, hn⟩ := ih _ hshorter (inv_pruned hinv prune) rfl
      refine ⟨n + 1, ?_⟩
      rw [pruneTimes, hcommit]
      exact hn

/-- In every reachable state a prune deletes exactly the first of the messages below its cutoff
that no consumer can be given any more, and nothing else; repeated it comes to report nothing,
and then every retained message below the cutoff can still be given. -/
theorem prune_collects (hreachable : Reachable db) (hpos : 0 < prune.maxMessages)
    (hle : prune.maxMessages ≤ fan.maxBatchSize) (since : ℤ) :
    (∃ db' deleted doomed, commit (pruneMessages fan prune) db = (db', .ok ⟨deleted⟩) ∧
      Collects since prune db db' deleted doomed) ∧
    (∃ n, (commit (pruneMessages fan prune) (pruneTimes fan prune n db)).2 = .ok ⟨0⟩) ∧
    ∀ n last, pruneTimes fan prune n db = last →
      (commit (pruneMessages fan prune) last).2 = .ok ⟨0⟩ →
      (commit (pruneMessages fan prune) last).1 = last ∧ ∀ message ∈ last.messages,
        message.publishedAtMs < prune.beforeMs → Givable since last message := by
  have hinv := inv_reachable hreachable
  refine ⟨?_, pruneTimes_zero hinv hpos hle, fun n last hlast hzero => ?_⟩
  · obtain ⟨deleted, hcommit, hcollects⟩ := @collects fan prune db hinv hpos hle since
    exact ⟨_, deleted, _, hcommit, hcollects⟩
  · exact clean_of_zero (hlast ▸ inv_pruneTimes n hinv hpos hle) hpos hle hzero

end Prunes

/-- One message from before the only consumer and one it has still to see. -/
def unreadOps : List Op :=
  [.publishBatch [⟨none, [7], none⟩] 0, .openConsumer "jobs" .all 0,
    .publishBatch [⟨none, [8], none⟩] 0]

set_option maxRecDepth 10000 in
/-- Pruning there collects the message from before the consumer only. -/
theorem prune_collects_unread : ∃ db' doomed,
    commit (pruneMessages Inner.default ⟨5, 2⟩)
      (outcomeDb Engine.inOrder Inner.default unreadOps Db.empty) = (db', .ok ⟨1⟩) ∧
    Collects 0 ⟨5, 2⟩ (outcomeDb Engine.inOrder Inner.default unreadOps Db.empty) db' 1 doomed := by
  obtain ⟨⟨db', deleted, doomed, hcommit, hcollects⟩, -⟩ := @prune_collects Inner.default ⟨5, 2⟩ _
    (reachable_outcome Engine.inOrder Inner.default unreadOps) (by decide) (by decide) 0
  have hone : (commit (pruneMessages Inner.default ⟨5, 2⟩)
      (outcomeDb Engine.inOrder Inner.default unreadOps Db.empty)).2 = .ok ⟨1⟩ := rfl
  rw [hcommit] at hone
  obtain rfl := PruneOutcome.mk.inj (Except.ok.inj hone)
  exact ⟨db', doomed, hcommit, hcollects⟩

end LiteFan.Garbage

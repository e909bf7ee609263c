import LiteFan.Lineage
import LiteFan.Parallel
import LiteFan.ReceiptBatches
import LiteFan.RedriveMoves

/-!
# Consumers are isolated

A call through one handle leaves every other inbox, the log and the ledger as
they were, counts nothing of another consumer's as applied and returns nothing
of another consumer's. So a run without the calls of one consumer gives another
one the same rounds of polls, where archive identifiers are those of the shorter
run. One exception is left: a round whose lease ends after the last timestamp is
refused where it has something to look at, and finds nothing where the log holds
nothing beyond its cursor, which another consumer's outstanding work can decide.
-/

namespace LiteFan.Isolation

open LiteFan.Api LiteFan.Time LiteFan.Schema LiteFan.Storage LiteFan.Store LiteFan.Consumer
open LiteFan.System LiteFan.Invariant LiteFan.Effect LiteFan.Step LiteFan.Preservation LiteFan.Calls
open LiteFan.Inbox LiteFan.Alike Relational

section Answers

variable {fan : Inner} {db db' : Db} {self : Consumer} {op : Op} {reply : Except Error Reply}

/-- The deliveries an answer carries. -/
def deliveriesIn : Answer → List Delivery
  | .polled (some found) => found.deliveries
  | .reply (.granted granted) => granted.deliveries
  | _ => []

/-- The archives an answer shows. -/
def archivesIn : Answer → List ArchivedDelivery
  | .page page => page
  | _ => []

/-- How many receipts or archive identifiers of a batch are not the consumer's own. -/
def strangers (db : Db) (c : ℤ) : Op → ℕ
  | .ackBatch _ receipts | .nackBatch _ receipts _ _ | .extendVisibilityBatch _ receipts _ _
  | .archiveBatch _ receipts _ _ => (receipts.filter fun r => !decide (r.consumerId = c)).length
  | .redriveBatch _ archiveIds _ _ =>
    (archiveIds.filter fun i => !(archivesOf db c).any fun r => r.id == i).length
  | _ => 0

/-- Rows of the consumer that a list of receipts names are at most its own receipts. -/
theorem named_le_own (db : Db) (c : ℤ) (receipts : List Receipt) :
    (db.deliveries.select (pushReceiptPredicate c receipts)).length ≤
      (receipts.filter fun r => decide (r.consumerId = c)).length := by
  rw [← ReceiptBatches.length_current]
  have hown : (ReceiptBatches.current db c receipts).Sublist
      (receipts.dedup.filter fun r => decide (r.consumerId = c)) := by
    refine List.monotone_filter_right _ fun r hr => ?_
    obtain ⟨d, -, hd⟩ := List.any_eq_true.mp hr
    rw [Bool.and_eq_true, beq_iff_eq, decide_eq_true_iff] at hd
    exact decide_eq_true (hd.2 ▸ hd.1)
  exact (hown.trans ((List.dedup_sublist receipts).filter _)).length_le

/-- Own receipts and strangers make up the batch. -/
theorem own_add_strangers {α : Type} (p : α → Bool) (xs : List α) :
    (xs.filter p).length + (xs.filter fun x => !p x).length = xs.length :=
  (List.length_eq_length_filter_add p).symm

/-- What an update reports is at most the consumer's own receipts. -/
theorem touchedRows_le_own (c : ℤ) {f : DeliveryRow → DeliveryRow} (hf : ∀ d, (f d).key = d.key)
    (db : Db) (batches : List (List Receipt)) :
    touchedRows c f hf db.deliveries batches ≤
      (batches.flatten.filter fun r => decide (r.consumerId = c)).length := by
  induction batches generalizing db with
  | nil => exact le_rfl
  | cons receipts batches ih =>
    have htail := ih { db with
      deliveries := db.deliveries.updateWhere (pushReceiptPredicate c receipts) f hf }
    rw [touchedRows, List.flatten_cons, List.filter_append, List.length_append]
    exact Nat.add_le_add (named_le_own db c receipts) htail

/-- A batch counts every stranger as stale. -/
theorem strangers_stale {result : BatchResult} (heffect : Effect fan db op db' reply)
    (hthrough : System.through op = some self) (hreply : reply = .ok (.batch result)) :
    strangers db self.id op ≤ result.stale := by
  have hstale : ∀ {size applied own : ℕ}, applied ≤ own → own + strangers db self.id op = size →
      result = batchResult size applied → strangers db self.id op ≤ result.stale := by
    intro size applied own hle hsize hresult
    rw [hresult]
    change _ ≤ size - applied
    omega
  have hchunks : ∀ receipts : List Receipt, (chunks receiptsPerChunk receipts).flatten = receipts :=
    flatten_chunks receiptsPerChunk_pos
  cases heffect with
  | rejected => cases hreply
  | @idle op reply hidle =>
    have hnone : ∀ {size : ℕ}, strangers db self.id op ≤ size → size = 0 →
        strangers db self.id op ≤ result.stale := by
      intro size hle hzero
      omega
    cases op with
    | ackBatch other receipts | nackBatch other receipts | extendVisibilityBatch other receipts
    | archiveBatch other receipts | redriveBatch other receipts =>
      exact hnone (List.length_filter_le _ _) hidle.1
    | claim | purgeArchives | beginDraining => exact Nat.zero_le _
    | openConsumer | publishBatch | deleteConsumer | pruneMessages => cases hthrough
  | @acked other receipts hpos hle =>
    obtain rfl := Option.some.inj hthrough
    exact hstale (named_le_own db other.id receipts) (own_add_strangers _ receipts)
      (by cases hreply; rfl)
  | @nacked other receipts retry now visibleAt hpos hle hvisible =>
    obtain rfl := Option.some.inj hthrough
    have hown := touchedRows_le_own other.id (nackRow_key visibleAt) db
      (chunks receiptsPerChunk receipts)
    rw [hchunks] at hown
    exact hstale hown (own_add_strangers _ receipts) (by cases hreply; rfl)
  | @extended other receipts timeout now ms visibleAt hpos hle hms hne hvisible =>
    obtain rfl := Option.some.inj hthrough
    have hown := touchedRows_le_own other.id (extendRow_key visibleAt) db
      (chunks receiptsPerChunk receipts)
    rw [hchunks] at hown
    exact hstale hown (own_add_strangers _ receipts) (by cases hreply; rfl)
  | @archived other receipts detail now hpos hle =>
    obtain rfl := Option.some.inj hthrough
    have hown := named_le_own db other.id receipts
    rw [← List.length_map (f := ArchivedLease.fromRow)] at hown
    exact hstale hown (own_add_strangers _ receipts) (by cases hreply; rfl)
  | @redriven other ids retry now visibleAt hpos hle hvisible =>
    obtain rfl := Option.some.inj hthrough
    have hown : (db.archives.select (archiveNamed other.id ids)).length ≤
        (ids.filter fun i => (archivesOf db other.id).any fun r => r.id == i).length := by
      rw [← RedriveMoves.length_matching]
      have hsub : (RedriveMoves.matching db other.id ids).Sublist
          (ids.dedup.filter fun i => (archivesOf db other.id).any fun r => r.id == i) := by
        refine List.monotone_filter_right _ fun i hi => ?_
        obtain ⟨r, hr, hnamed⟩ := List.any_eq_true.mp hi
        rw [Bool.and_eq_true, decide_eq_true_iff, beq_iff_eq] at hnamed
        exact List.any_eq_true.mpr ⟨r, mem_archivesOf.mpr ⟨hr, hnamed.1⟩, beq_iff_eq.mpr hnamed.2⟩
      exact (hsub.trans ((List.dedup_sublist ids).filter _)).length_le
    exact hstale hown (own_add_strangers _ ids) (by cases hreply; rfl)
  | granted | purged | drained | created | reopened | published | deleted | pruned => cases hreply

end Answers

section Swaps

variable {fan : Inner} {db : Db} {self : Consumer} {f : Receipt → Receipt} {g : ℤ → ℤ}

/-- A rewriting that keeps what is the consumer's own and makes nothing else its own. -/
def Keeps {α : Type} (own : α → Prop) (f : α → α) : Prop :=
  ∀ x, (own x → f x = x) ∧ (¬own x → ¬own (f x))

/-- The operation with other receipts and other archive identifiers in their places. -/
def swap (f : Receipt → Receipt) (g : ℤ → ℤ) : Op → Op
  | .ackBatch self receipts => .ackBatch self (receipts.map f)
  | .nackBatch self receipts retry now => .nackBatch self (receipts.map f) retry now
  | .extendVisibilityBatch self receipts timeout now =>
    .extendVisibilityBatch self (receipts.map f) timeout now
  | .archiveBatch self receipts detail now => .archiveBatch self (receipts.map f) detail now
  | .redriveBatch self archiveIds retry now => .redriveBatch self (archiveIds.map g) retry now
  | op => op

/-- Receipts of others in a list name nothing, whatever they are. -/
theorem named_swap {c : ℤ} (hf : Keeps (fun r : Receipt => r.consumerId = c) f)
    (receipts : List Receipt) :
    pushReceiptPredicate c (receipts.map f) = pushReceiptPredicate c receipts := by
  funext d
  rw [Bool.eq_iff_iff, pushReceiptPredicate_iff, pushReceiptPredicate_iff, List.mem_map]
  refine and_congr_right fun hown => ⟨?_, fun hlisted => ?_⟩
  · rintro ⟨r, hr, heq⟩
    by_cases hr' : r.consumerId = c
    · rw [← heq, (hf r).1 hr']
      exact hr
    · refine absurd ?_ ((hf r).2 hr')
      rw [heq]
      exact hown
  · exact ⟨receiptOf d, hlisted, (hf (receiptOf d)).1 hown⟩

/-- Identifiers of archives that are not the consumer's name nothing, whatever they are. -/
theorem archiveNamed_swap {c : ℤ}
    (hg : Keeps (fun i => ∃ r ∈ archivesOf db c, r.id = i) g) (ids : List ℤ) {r : ArchiveRow}
    (hr : r ∈ db.archives) : archiveNamed c (ids.map g) r = archiveNamed c ids r := by
  rw [Bool.eq_iff_iff, archiveNamed_iff, archiveNamed_iff, List.mem_map]
  refine and_congr_right fun hown => ?_
  have hmine : ∃ r' ∈ archivesOf db c, r'.id = r.id := ⟨r, mem_archivesOf.mpr ⟨hr, hown⟩, rfl⟩
  constructor
  · rintro ⟨i, hi, heq⟩
    by_cases hi' : ∃ r' ∈ archivesOf db c, r'.id = i
    · rw [← heq, (hg i).1 hi']
      exact hi
    · refine absurd ?_ ((hg i).2 hi')
      rw [heq]
      exact hmine
  · exact fun hlisted => ⟨r.id, hlisted, (hg r.id).1 hmine⟩

/-- An update of one chunk does the same. -/
theorem updateChunk_swap (hf : Keeps (fun r : Receipt => r.consumerId = self.id) f)
    {rewrite : DeliveryRow → DeliveryRow} (hkey : ∀ d, (rewrite d).key = d.key) (acc : Db × ℕ)
    (receipts : List Receipt) :
    updateChunk self rewrite hkey acc (receipts.map f) =
      updateChunk self rewrite hkey acc receipts := by
  rw [updateChunk, named_swap hf, updateChunk]

/-- A redrive does the same. -/
theorem redriveBatch_swap (e : Engine) (fan : Inner) (hinv : Inv db)
    (hg : Keeps (fun i => ∃ r ∈ archivesOf db self.id, r.id = i) g) (ids : List ℤ) (retry : Retry)
    (now : ℤ) :
    redriveBatch e fan self (ids.map g) retry now db =
      redriveBatch e fan self ids retry now db := by
  have hselect : db.archives.select (archiveNamed self.id (ids.map g)) =
      db.archives.select (archiveNamed self.id ids) :=
    Table.select_congr fun r hr => archiveNamed_swap hg ids hr
  have hdelete : db.archives.deleteWhere (archiveNamed self.id (ids.map g)) =
      db.archives.deleteWhere (archiveNamed self.id ids) :=
    AutoTable.deleteWhere_congr fun r hr => archiveNamed_swap hg ids hr
  have hsize : (ids.map g).length = ids.length := List.length_map g
  by_cases hpos : ids.length = 0
  · rw [redriveBatch, redriveBatch, receiptBatch_zero (hsize.trans hpos), receiptBatch_zero hpos]
  · have hpos := Nat.pos_of_ne_zero hpos
    by_cases hle : ids.length ≤ fan.maxBatchSize
    · cases hvisible : addDuration now retry.delay with
      | ok visibleAt =>
        rw [redriveBatch_eq e hinv hpos hle hvisible,
          redriveBatch_eq e hinv (hsize ▸ hpos) (hsize ▸ hle) hvisible, hselect, hsize,
          redrivenDb, redrivenDb, redrivenRows, redrivenRows, hselect, deleteArchives,
          deleteArchives, hdelete]
      | error err =>
        rw [redriveBatch_late e hpos hle hvisible,
          redriveBatch_late e (hsize ▸ hpos) (hsize ▸ hle) hvisible]
    · rw [redriveBatch, redriveBatch, receiptBatch_large (not_le.mp hle),
        receiptBatch_large (hsize ▸ not_le.mp hle), hsize]

/-- A batch does the same whatever stands in the places of receipts and archive identifiers
that are not the consumer's own. -/
theorem exec_swap (e : Engine) (fan : Inner) (hinv : Inv db) {op : Op}
    (hthrough : System.through op = some self)
    (hf : Keeps (fun r : Receipt => r.consumerId = self.id) f)
    (hg : Keeps (fun i => ∃ r ∈ archivesOf db self.id, r.id = i) g) :
    exec e fan (swap f g op) db = exec e fan op db := by
  have hnamed := named_swap hf
  cases op with
  | ackBatch other receipts =>
    obtain rfl := Option.some.inj hthrough
    have hchunk : ∀ acc receipts, ackChunk other acc (receipts.map f) =
        ackChunk other acc receipts :=
      fun acc receipts => by rw [ackChunk, hnamed, ackChunk]
    change replying .batch (commit (ackBatch fan other (receipts.map f)) db) =
      replying .batch (commit (ackBatch fan other receipts) db)
    rw [ackBatch, ackBatch, List.length_map, chunks_map]
    simp only [List.foldl_map, hchunk]
  | nackBatch other receipts retry now =>
    obtain rfl := Option.some.inj hthrough
    have hchunk : ∀ visibleAt acc receipts,
        updateChunk other (nackRow visibleAt) (nackRow_key visibleAt) acc (receipts.map f) =
          updateChunk other (nackRow visibleAt) (nackRow_key visibleAt) acc receipts :=
      fun visibleAt => updateChunk_swap hf (nackRow_key visibleAt)
    change replying .batch (commit (nackBatch fan other (receipts.map f) retry now) db) =
      replying .batch (commit (nackBatch fan other receipts retry now) db)
    rw [nackBatch, nackBatch, List.length_map, chunks_map]
    simp only [List.foldlM_map, hchunk]
  | extendVisibilityBatch other receipts timeout now =>
    obtain rfl := Option.some.inj hthrough
    have hchunk : ∀ visibleAt acc receipts,
        updateChunk other (extendRow visibleAt) (extendRow_key visibleAt) acc (receipts.map f) =
          updateChunk other (extendRow visibleAt) (extendRow_key visibleAt) acc receipts :=
      fun visibleAt => updateChunk_swap hf (extendRow_key visibleAt)
    change replying .batch
        (commit (extendVisibilityBatch fan other (receipts.map f) timeout now) db) =
      replying .batch (commit (extendVisibilityBatch fan other receipts timeout now) db)
    rw [extendVisibilityBatch, extendVisibilityBatch, List.length_map, chunks_map]
    simp only [List.foldlM_map, hchunk]
  | archiveBatch other receipts detail now =>
    obtain rfl := Option.some.inj hthrough
    have hchunk : ∀ acc receipts,
        archiveChunk e other acc (receipts.map f) = archiveChunk e other acc receipts :=
      fun acc receipts => by rw [archiveChunk, hnamed, archiveChunk]
    change replying .batch
        (commit (archiveBatchWithDetail e fan other (receipts.map f) detail now) db) =
      replying .batch (commit (archiveBatchWithDetail e fan other receipts detail now) db)
    rw [archiveBatchWithDetail, archiveBatchWithDetail, List.length_map, chunks_map]
    simp only [List.foldl_map, hchunk]
  | redriveBatch other ids retry now =>
    obtain rfl := Option.some.inj hthrough
    change replying .batch (commit (redriveBatch e fan other (ids.map g) retry now) db) =
      replying .batch (commit (redriveBatch e fan other ids retry now) db)
    rw [commit, commit, redriveBatch_swap e fan hinv hg]
  | claim | purgeArchives | beginDraining => rfl
  | openConsumer | publishBatch | deleteConsumer | pruneMessages => cases hthrough

end Swaps

section Calls

variable {db : Db} {self : Consumer}

/-- What a call through one handle does to another consumer. -/
structure Isolated (self : Consumer) (c : ℤ) (e : Engine) (fan : Inner) (call : Call) (db : Db) :
    Prop where
  /-- The whole log and the whole ledger are as before. -/
  log : (call.run e fan db).1.messages = db.messages ∧
    (call.run e fan db).1.idempotency = db.idempotency
  /-- So are the other's row, deliveries and archives. -/
  inbox : Untouched c db (call.run e fan db).1
  /-- Every receipt and archive identifier that is not the caller's own counts as stale. -/
  stale : ∀ op, call = .commit op → ∀ result, (call.run e fan db).2 = .ok (.reply (.batch result)) →
    strangers db self.id op ≤ result.stale
  /-- What stands in their places makes no difference. -/
  swapped : ∀ op, call = .commit op → ∀ (f : Receipt → Receipt) (g : ℤ → ℤ),
    Keeps (fun r : Receipt => r.consumerId = self.id) f →
    Keeps (fun i => ∃ r ∈ archivesOf db self.id, r.id = i) g →
    exec e fan (swap f g op) db = exec e fan op db
  /-- Only the caller's own deliveries and archives are returned. -/
  returned : ∀ answer, (call.run e fan db).2 = .ok answer →
    (∀ delivery ∈ deliveriesIn answer, delivery.receipt.consumerId = self.id) ∧
      ∀ shown ∈ archivesIn answer, ∃ r ∈ db.archives, r.consumerId = self.id ∧ r.id = shown.id

/-- A claim returns its own deliveries. -/
theorem own_of_claimed {row : ConsumerRow} {now deadline : ℤ} {limit : ℕ} {delivery : Delivery}
    (h : delivery ∈ claimedDeliveries db row now deadline limit) :
    delivery.receipt.consumerId = row.id := by
  rcases mem_claimedDeliveries.mp h with ⟨d, -, message, -, rfl⟩ | ⟨message, -, rfl⟩ <;> rfl

/-- A round of a poll returns its own deliveries. -/
theorem own_of_round (hinv : Inv db) (e : Engine) (fan : Inner) (options : Poll) (start : Start)
    (now : ℤ) {found : Claim}
    (h : (pollRound e fan self options start now db).2 = .ok (some found)) :
    ∀ delivery ∈ found.deliveries, delivery.receipt.consumerId = self.id := by
  cases hrow : db.consumers.lookup self.id with
  | none =>
    rw [pollRound_deleted hrow] at h
    cases hchecks : pollChecks fan options start with
    | error err =>
      rw [hchecks] at h
      cases h
    | ok lease =>
      rw [hchecks] at h
      cases lease <;> cases h
  | some row =>
    have hid : self.id = row.id := (AutoTable.lookup_eq_some.mp hrow).2.symm
    rcases round_cases fan options start now with ⟨result, hnone, hround⟩ | hover |
      ⟨leaseMs, deadline, hchecks, hdeadline⟩
    · rw [hround] at h
      exact absurd h (hnone found)
    · rcases (pollRound_overflow (e := e) hover hrow).2 with herr | ⟨claim, hnone, hok⟩
      · rw [herr] at h
        cases h
      · rw [hok] at h
        cases h
        rw [hnone]
        exact fun delivery hmem => absurd hmem List.not_mem_nil
    · rw [pollRound_claimed e hinv hid (hid ▸ hrow) hchecks hdeadline] at h
      cases h
      intro delivery hmem
      rw [foundIn] at hmem
      split_ifs at hmem
      · exact absurd hmem List.not_mem_nil
      · exact (own_of_claimed hmem).trans hid.symm

/-- A mapped result that is one was one before. -/
theorem ok_of_map {ε α β : Type} {wrap : α → β} {x : Except ε α} {b : β} (h : x.map wrap = .ok b) :
    ∃ a, x = .ok a ∧ wrap a = b := by
  cases x with
  | error err => cases h
  | ok a => exact ⟨a, rfl, Except.ok.inj h⟩

/-- A transaction through a handle returns its own deliveries. -/
theorem own_of_reply {fan : Inner} {db' : Db} {op : Op} {reply : Reply}
    (heffect : Effect fan db op db' (.ok reply)) (hthrough : System.through op = some self) :
    ∀ delivery ∈ deliveriesIn (.reply reply), delivery.receipt.consumerId = self.id := by
  have hnone : deliveriesIn (.reply reply) = [] →
      ∀ delivery ∈ deliveriesIn (.reply reply), delivery.receipt.consumerId = self.id := by
    intro hnil delivery hmem
    rw [hnil] at hmem
    exact absurd hmem List.not_mem_nil
  cases heffect with
  | idle hidle =>
    refine hnone ?_
    cases op with
    | claim other poll now => rw [hidle.2]; rfl
    | ackBatch | nackBatch | extendVisibilityBatch | archiveBatch | redriveBatch | purgeArchives =>
      rw [hidle.2]
      rfl
    | beginDraining => exact hidle.elim
    | openConsumer | publishBatch | deleteConsumer | pruneMessages => cases hthrough
  | @granted other poll now leaseMs deadline row hlease hid hrow hdeadline =>
    obtain rfl := Option.some.inj hthrough
    exact fun delivery hmem => (own_of_claimed hmem).trans hid.symm
  | acked | nacked | extended | archived | redriven | purged | drained => exact hnone rfl
  | created | reopened | published | deleted | pruned => cases hthrough

/-- A call through one handle is isolated from every other consumer. -/
theorem isolated_call (hinv : Inv db) (e : Engine) (fan : Inner) {call : Call}
    (hthrough : call.through = some self) {c : ℤ} (hc : c ≠ self.id) :
    Isolated self c e fan call db := by
  have hconfined := confined_call e fan hinv hthrough
  refine ⟨⟨hconfined.messages, hconfined.ledger⟩, hconfined.others c hc, ?_, ?_, ?_⟩
  · rintro op rfl result hresult
    obtain ⟨reply, hreply, hanswer⟩ := ok_of_map hresult
    obtain rfl := (Answer.reply.inj hanswer)
    exact strangers_stale (exec_effect e fan op hinv) hthrough hreply
  · rintro op rfl f g hf hg
    exact exec_swap e fan hinv hthrough hf hg
  · intro answer hanswer
    have hnone : deliveriesIn answer = [] → archivesIn answer = [] →
        (∀ delivery ∈ deliveriesIn answer, delivery.receipt.consumerId = self.id) ∧
          ∀ shown ∈ archivesIn answer,
            ∃ r ∈ db.archives, r.consumerId = self.id ∧ r.id = shown.id := by
      intro hdeliveries harchives
      rw [hdeliveries, harchives]
      exact ⟨fun _ hmem => absurd hmem List.not_mem_nil, fun _ hmem => absurd hmem List.not_mem_nil⟩
    cases call with
    | commit op =>
      obtain ⟨reply, hreply, rfl⟩ := ok_of_map hanswer
      have heffect := exec_effect e fan op hinv
      rw [hreply] at heffect
      exact ⟨own_of_reply heffect hthrough, fun _ hmem => absurd hmem List.not_mem_nil⟩
    | poll other options start now =>
      obtain rfl := Option.some.inj hthrough
      obtain ⟨found, hfound, rfl⟩ := ok_of_map hanswer
      cases found with
      | none => exact hnone rfl rfl
      | some found =>
        exact ⟨own_of_round hinv e fan options start now hfound, fun _ hmem =>
          absurd hmem List.not_mem_nil⟩
    | archives other list =>
      obtain rfl := Option.some.inj hthrough
      obtain ⟨page, hpage, rfl⟩ := ok_of_map hanswer
      refine ⟨fun _ hmem => absurd hmem List.not_mem_nil, fun shown hshown => ?_⟩
      obtain rfl := archives_ok hinv hpage
      obtain ⟨r, hr, howner, -, hid, -⟩ := mem_page hinv hshown
      exact ⟨r, hr, howner, hid.symm⟩
    | beginDraining other now =>
      obtain ⟨changed, -, rfl⟩ := ok_of_map hanswer
      exact hnone rfl rfl
    | consumerSnapshot other now =>
      obtain ⟨found, -, rfl⟩ := ok_of_map hanswer
      exact hnone rfl rfl
    | snapshot now => cases hthrough

end Calls

section Renumbering

variable {a b : Db} {c : ℤ}

/-- The identifier of the same archive of the consumer in another run, none naming zero. -/
def archiveNumber (c : ℤ) (a b : Db) (id : ℤ) : ℤ :=
  ((((archivesOf a c).map ArchiveRow.id).zip ((archivesOf b c).map ArchiveRow.id)).lookup id).getD 0

/-- Renumbered identifiers name the same archives. -/
theorem corresponds_renumbered (h : SameInbox c a b) (ids : List ℤ) :
    Corresponds c a b ids (ids.map (archiveNumber c a b)) := by
  have hkeys : ∀ db : Db, ((archivesOf db c).map ArchiveRow.id).Nodup := fun db =>
    List.pairwise_map.mpr ((Table.select_sorted _ _).imp fun hlt => hlt.ne)
  refine ⟨(List.length_map _).symm,
    List.forall₂_iff_get.mpr ⟨h.archives.length_eq, fun i hi hi' => ?_⟩⟩
  have htwins := h.archives.get hi hi'
  refine ⟨htwins, ?_⟩
  generalize hr : (archivesOf a c).get ⟨i, hi⟩ = r
  generalize hr' : (archivesOf b c).get ⟨i, hi'⟩ = r'
  have hat : ((archivesOf a c).map ArchiveRow.id)[i]? = some r.id := by
    rw [List.getElem?_map, List.getElem?_eq_getElem hi, Option.map_some, ← hr, List.get_eq_getElem]
  have hat' : ((archivesOf b c).map ArchiveRow.id)[i]? = some r'.id := by
    rw [List.getElem?_map, List.getElem?_eq_getElem hi', Option.map_some, ← hr',
      List.get_eq_getElem]
  have hnumber : archiveNumber c a b r.id = r'.id := by
    rw [archiveNumber, lookup_zip (hkeys a) hat hat', Option.getD_some]
  rw [List.mem_map]
  constructor
  · exact fun hlisted => ⟨r.id, hlisted, hnumber⟩
  · rintro ⟨id, hlisted, hid⟩
    have hmem' : r' ∈ archivesOf b c := by
      rw [← hr']
      exact List.get_mem _ _
    have hpos : 0 < r'.id := b.archives.key_pos r' (mem_archivesOf.mp hmem').1
    -- An identifier that is renumbered to a stored one stands at its place.
    cases hlookup : (((archivesOf a c).map ArchiveRow.id).zip
        ((archivesOf b c).map ArchiveRow.id)).lookup id with
    | none =>
      rw [archiveNumber, hlookup, Option.getD_none] at hid
      omega
    | some number =>
      rw [archiveNumber, hlookup, Option.getD_some] at hid
      subst hid
      have hpair : (id, r'.id) ∈ ((archivesOf a c).map ArchiveRow.id).zip
          ((archivesOf b c).map ArchiveRow.id) := mem_of_lookup hlookup
      obtain ⟨j, hj⟩ := List.mem_iff_getElem?.mp hpair
      obtain ⟨hat₂, hat₂'⟩ := List.getElem?_zip_eq_some.mp hj
      have hi₂ : i < ((archivesOf b c).map ArchiveRow.id).length := by
        rw [List.length_map]
        exact hi'
      obtain rfl : i = j := (List.getElem?_inj hi₂ (hkeys b)).mp (hat'.trans hat₂'.symm)
      obtain rfl : r.id = id := Option.some.inj (hat.symm.trans hat₂)
      exact hlisted

end Renumbering

section Runs

variable {α β : ℤ} {a b : Db}

/-- One round of a poll with its arguments. -/
structure Round where
  fan : Inner
  options : Poll
  start : Start
  now : ℤ
  found : Except Error (Option Claim)

/-- The rounds of one consumer's polls along requests. -/
def rounds (c : ℤ) : List Request → Db → List Round
  | [], _ => []
  | request :: requests, db =>
    match request.call with
    | .poll self options start now =>
      if self.id = c then
        ⟨request.fan, options, start, now,
            (pollRound request.e request.fan self options start now db).2⟩ ::
          rounds c requests (request.after db)
      else rounds c requests (request.after db)
    | _ => rounds c requests (request.after db)

/-- Two rounds with the same arguments found the same, or their lease ends too late and
neither found anything. -/
def SameRound (x y : Round) : Prop :=
  x.fan = y.fan ∧ x.options = y.options ∧ x.start = y.start ∧ x.now = y.now ∧
    (x.found = y.found ∨
      Overflows x.fan x.options x.start x.now ∧ Barren x.found ∧ Barren y.found)

/-- The request of the shorter run, with the redriven archives of the listed consumers
renumbered. -/
def renumbered (renumbers : ℤ → Bool) (a b : Db) (request : Request) : Request :=
  match request.call.through with
  | some self =>
    if renumbers self.id then
      ⟨request.e, request.fan, Call.renumber (List.map (archiveNumber self.id a b)) request.call⟩
    else request
  | none => request

/-- The run without the calls through one consumer's handle. -/
def without (c : ℤ) (renumbers : ℤ → Bool) : List Request → Db → Db → List Request
  | [], _, _ => []
  | request :: requests, a, b =>
    if request.call.through.map Api.Consumer.id = some c then
      without c renumbers requests (request.after a) b
    else
      renumbered renumbers a b request ::
        without c renumbers requests (request.after a) ((renumbered renumbers a b request).after b)

/-- Every request meets a condition on the database it is made on. -/
def Throughout (ok : Request → Db → Prop) : List Request → Db → Prop
  | [], _ => True
  | request :: requests, db => ok request db ∧ Throughout ok requests (request.after db)

/-- The request does not ask for the deletion of the consumer. -/
def Spares (c : ℤ) (request : Request) (db : Db) : Prop :=
  ∀ name mode, request.call = .commit (.deleteConsumer name mode) →
    ∀ row, db.consumers.lookup c = some row → row.name ≠ name

/-- Renumbering changes no poll. -/
theorem poll_renumbered (renumbers : ℤ → Bool) (a b : Db) {request : Request} {self : Consumer}
    {options : Poll} {start : Start} {now : ℤ} (h : request.call = .poll self options start now) :
    renumbered renumbers a b request = request := by
  unfold renumbered
  rw [h]
  dsimp only [Call.through]
  split
  · exact congrArg (Request.mk request.e request.fan) h.symm
  · rfl

/-- Along requests whose kept calls keep two stores related and whose dropped calls keep the
longer run related to the shorter one, the rounds of another consumer are the same. -/
theorem rounds_without {R : Db → Db → Prop} {ok : Request → Db → Prop} {renumbers : ℤ → Bool}
    (hne : α ≠ β)
    (hdrop : ∀ request a b, ok request a → R a b →
      request.call.through.map Api.Consumer.id = some α → R (request.after a) b)
    (hkeep : ∀ request a b, ok request a → R a b →
      request.call.through.map Api.Consumer.id ≠ some α →
      R (request.after a) ((renumbered renumbers a b request).after b))
    (hround : ∀ (request : Request) self options start now a b, R a b → self.id = β →
      (pollRound request.e request.fan self options start now a).2 =
          (pollRound request.e request.fan self options start now b).2 ∨
        Overflows request.fan options start now ∧
          Barren (pollRound request.e request.fan self options start now a).2 ∧
          Barren (pollRound request.e request.fan self options start now b).2)
    (requests : List Request) (hok : Throughout ok requests a) (h : R a b) :
    List.Forall₂ SameRound (rounds β requests a)
      (rounds β (without α renumbers requests a b) b) := by
  induction requests generalizing a b with
  | nil => exact .nil
  | cons request requests ih =>
    obtain ⟨hnow, hlater⟩ := hok
    by_cases hdropped : request.call.through.map Api.Consumer.id = some α
    · rw [without, if_pos hdropped]
      have hrest := ih hlater (hdrop request a b hnow h hdropped)
      rw [rounds]
      split
      · rename_i self options start now hcall
        rw [hcall] at hdropped
        have hown : self.id = α := Option.some.inj hdropped
        rw [if_neg (hown ▸ hne)]
        exact hrest
      · exact hrest
    · rw [without, if_neg hdropped]
      have hrest := ih hlater (hkeep request a b hnow h hdropped)
      cases hcall : request.call with
      | poll self options start now =>
        have hsame : renumbered renumbers a b request = request := poll_renumbered _ _ _ hcall
        rw [hsame] at hrest ⊢
        rw [rounds, rounds, hcall]
        dsimp only
        by_cases hown : self.id = β
        · rw [if_pos hown, if_pos hown]
          exact .cons ⟨rfl, rfl, rfl, rfl, hround request self options start now a b h hown⟩ hrest
        · rw [if_neg hown, if_neg hown]
          exact hrest
      | commit | archives | beginDraining | consumerSnapshot | snapshot =>
        have hother : ∀ self options start now, (renumbered renumbers a b request).call ≠
            .poll self options start now := by
          intro self options start now hpoll
          unfold renumbered at hpoll
          rw [hcall] at hpoll
          split at hpoll
          · split at hpoll
            · cases hpoll
            · rw [hcall] at hpoll
              cases hpoll
          · rw [hcall] at hpoll
            cases hpoll
        rw [rounds, rounds, hcall]
        dsimp only
        split
        · rename_i self options start now hpoll
          exact absurd hpoll (hother self options start now)
        · exact hrest

end Runs

section Live

variable {α β : ℤ} {a a' b b' : Db} {c : ℤ}

/-- Two stores that look alike to one consumer that was opened in both. -/
structure Near (β : ℤ) (a b : Db) : Prop where
  inv : Inv a
  inv' : Inv b
  log : SameLog a b
  inbox : SameInbox β a b
  known : β ≤ a.consumers.seq
  known' : β ≤ b.consumers.seq

/-- Calls of another consumer on both stores. -/
theorem Near.confined (h : Near β a b) {c' : ℤ} (hc : c ≠ β) (hc' : c' ≠ β) (ha : Confined c a a')
    (hb : Confined c' b b') : Near β a' b' where
  inv := ha.inv
  inv' := hb.inv
  log := h.log.confined ha hb
  inbox := ((h.inbox.kept (hb.kept hc'.symm)).symm.kept (ha.kept hc.symm)).symm
  known := ha.seq ▸ h.known
  known' := hb.seq ▸ h.known'

/-- A request of the shorter run keeps the stores near. -/
theorem Near.kept (h : Near β a b) {request : Request} :
    Near β (request.after a) ((renumbered (fun c => c == β) a b request).after b) := by
  obtain ⟨e, fan, call⟩ := request
  cases hthrough : call.through with
  | some self =>
    by_cases hown : self.id = β
    · subst hown
      have hsame : renumbered (fun c => c == self.id) a b ⟨e, fan, call⟩ =
          ⟨e, fan, Call.renumber (List.map (archiveNumber self.id a b)) call⟩ := by
        unfold renumbered
        rw [hthrough]
        dsimp only
        rw [if_pos (beq_self_eq_true self.id)]
      have ha := confined_call e fan h.inv hthrough
      have hb := confined_call e fan h.inv' ((Call.through_renumber
        (List.map (archiveNumber self.id a b)) call).trans hthrough)
      rw [hsame]
      exact ⟨ha.inv, hb.inv, h.log.confined ha hb,
        h.inbox.call h.log h.inv h.inv' e fan hthrough fun ids _ =>
          corresponds_renumbered h.inbox ids,
        ha.seq ▸ h.known, hb.seq ▸ h.known'⟩
    · have hsame : renumbered (fun c => c == β) a b ⟨e, fan, call⟩ = ⟨e, fan, call⟩ := by
        unfold renumbered
        rw [hthrough]
        dsimp only
        rw [if_neg (by rw [beq_iff_eq]; exact hown)]
      rw [hsame]
      exact h.confined hown hown (confined_call e fan h.inv hthrough)
        (confined_call e fan h.inv' hthrough)
  | none =>
    have hsame : renumbered (fun c => c == β) a b ⟨e, fan, call⟩ = ⟨e, fan, call⟩ := by
      unfold renumbered
      rw [hthrough]
    rw [hsame]
    cases call with
    | commit op =>
      have hgrows : ∀ {db : Db}, Inv db → db.consumers.seq ≤ (exec e fan op db).1.consumers.seq :=
        fun {db} hinv => @Lifecycle.consumers_seq_mono (perform e fan op db) ⟨e, rfl⟩ hinv
      exact ⟨inv_effect (exec_effect e fan op h.inv) h.inv,
        inv_effect (exec_effect e fan op h.inv') h.inv',
        h.log.exec h.inv h.inv' e fan op op fun _ _ => Iff.rfl,
        h.inbox.store h.log h.inv h.inv' e fan hthrough h.known h.known',
        h.known.trans (hgrows h.inv), h.known'.trans (hgrows h.inv')⟩
    | snapshot now => exact h
    | poll | archives | beginDraining | consumerSnapshot => cases hthrough

end Live

section Created

variable {α : ℤ} {a b : Db}

/-- A request of the shorter run that spares the consumer set apart keeps the stores alike. -/
theorem alike_kept (h : AlikeBut (fun c => c = α) a b) {request : Request}
    (hspares : Spares α request a)
    (hkept : request.call.through.map Api.Consumer.id ≠ some α) :
    AlikeBut (fun c => c = α) (request.after a)
      ((renumbered (fun _ => true) a b request).after b) := by
  obtain ⟨e, fan, call⟩ := request
  cases hthrough : call.through with
  | some self =>
    have hne : ¬self.id = α := fun heq => hkept (by rw [hthrough, Option.map_some, heq])
    have hsame : renumbered (fun _ => true) a b ⟨e, fan, call⟩ =
        ⟨e, fan, Call.renumber (List.map (archiveNumber self.id a b)) call⟩ := by
      unfold renumbered
      rw [hthrough]
      rfl
    rw [hsame]
    have hinbox := h.inbox self.id hne
    exact h.confined (confined_call e fan h.inv hthrough)
      (confined_call e fan h.inv' ((Call.through_renumber _ call).trans hthrough)) fun _ =>
        hinbox.call h.log h.inv h.inv' e fan hthrough fun ids _ => corresponds_renumbered hinbox ids
  | none =>
    have hsame : renumbered (fun _ => true) a b ⟨e, fan, call⟩ = ⟨e, fan, call⟩ := by
      unfold renumbered
      rw [hthrough]
    rw [hsame]
    cases call with
    | commit op =>
      refine (h.store e fan hthrough fun name mode hop row hrow hid => ?_).1
      obtain ⟨hmem, hname⟩ := consumerNamed_some hrow
      exact hspares name mode (congrArg Call.commit hop) row (hid ▸ AutoTable.lookup_key hmem) hname
    | snapshot now => exact h
    | poll | archives | beginDraining | consumerSnapshot => cases hthrough

end Created

section Isolation

variable {db : Db} {α β : Consumer}

/-- A call through one handle is isolated from every other consumer. Along any requests the
rounds of a live consumer's polls are the same without another consumer's calls, up to rounds
whose lease ends too late, with its own redrives renumbered. They are the same too for a consumer
opened on the way, when everybody's redrives are renumbered and nobody asks for the deletion of
the consumer whose calls are left out. -/
theorem isolation (hreachable : Reachable db) (hne : α.id ≠ β.id) :
    (∀ e fan call, call.through = some α → Isolated α β.id e fan call db) ∧
    ((db.consumers.lookup β.id).isSome = true → ∀ requests,
      List.Forall₂ SameRound (rounds β.id requests db)
        (rounds β.id (without α.id (fun c => c == β.id) requests db db) db)) ∧
    ∀ requests, Throughout (Spares α.id) requests db →
      List.Forall₂ SameRound (rounds β.id requests db)
        (rounds β.id (without α.id (fun _ => true) requests db db) db) := by
  have hinv := inv_reachable hreachable
  refine ⟨fun e fan call hthrough => isolated_call hinv e fan hthrough hne.symm, ?_, ?_⟩
  · intro hlive requests
    obtain ⟨row, hrow⟩ := Option.isSome_iff_exists.mp hlive
    obtain ⟨hmem, hid⟩ := AutoTable.lookup_eq_some.mp hrow
    have hknown : β.id ≤ db.consumers.seq := hid ▸ db.consumers.key_le row hmem
    have hnear : Near β.id db db :=
      ⟨hinv, hinv, .refl db, .refl β.id db, hknown, hknown⟩
    have hany : ∀ (requests : List Request) db, Throughout (fun _ _ => True) requests db := by
      intro requests
      induction requests with
      | nil => exact fun _ => trivial
      | cons request requests ih => exact fun db => ⟨trivial, ih (request.after db)⟩
    refine rounds_without (R := Near β.id) hne ?_ ?_ ?_ requests (hany requests db) hnear
    · intro request a b _ h hown
      obtain ⟨self, hthrough, hid⟩ := Option.map_eq_some_iff.mp hown
      exact h.confined (hid ▸ hne) (hid ▸ hne) (confined_call request.e request.fan h.inv hthrough)
        (.refl h.inv' self.id)
    · exact fun request a b _ h _ => h.kept
    · intro request self options start now a b h hown
      have hinbox : SameInbox self.id a b := by
        rw [hown]
        exact h.inbox
      exact (hinbox.pollRound h.log h.inv h.inv' request.e request.fan options start now).2
  · intro requests hspares
    refine rounds_without (R := AlikeBut fun c => c = α.id) hne ?_ ?_ ?_ requests hspares
      (.refl hinv)
    · intro request a b _ h hown
      obtain ⟨self, hthrough, hid⟩ := Option.map_eq_some_iff.mp hown
      exact h.confined (confined_call request.e request.fan h.inv hthrough)
        (.refl h.inv' self.id) fun hother => absurd hid hother
    · exact fun request a b hspares h hkept => alike_kept h hspares hkept
    · intro request self options start now a b h hown
      have hother : ¬self.id = α.id := fun heq => hne (heq.symm.trans hown)
      have hinbox := h.inbox self.id hother
      exact (hinbox.pollRound h.log h.inv h.inv' request.e request.fan options start now).2

/-- Two consumers with topics of their own, and a message for the first. -/
def topicOps : List Op :=
  [.openConsumer "a" (.topic "a") 0, .openConsumer "b" (.topic "b") 0,
    .publishBatch [⟨some "a", [7], none⟩] 0]

/-- The database they lead to. -/
def topicDb : Db := outcomeDb Engine.inOrder Inner.default topicOps Db.empty

/-- The first consumer takes and acknowledges its message, the message is pruned, and the second
consumer polls with the given lease. -/
def pollAfter (lease : Duration) : List Request :=
  [⟨.inOrder, .default, .poll ⟨1, "a", .topic "a"⟩ pollOne ⟨9, 0⟩ 0⟩,
    ⟨.inOrder, .default, .commit (.ackBatch ⟨1, "a", .topic "a"⟩ [⟨1, 1, 1⟩])⟩,
    ⟨.inOrder, .default, .commit (.pruneMessages ⟨1, 1⟩)⟩,
    ⟨.inOrder, .default, .poll ⟨2, "b", .topic "b"⟩ ⟨1, lease, 0⟩ ⟨9, 0⟩ 1⟩]

/-- The second consumer's rounds with a short lease. -/
theorem isolation_topics :
    List.Forall₂ SameRound (rounds 2 (pollAfter 1000000) topicDb)
      (rounds 2 (without 1 (fun c => c == 2) (pollAfter 1000000) topicDb topicDb) topicDb) :=
  (@isolation topicDb ⟨1, "a", .topic "a"⟩ ⟨2, "b", .topic "b"⟩
    (reachable_outcome Engine.inOrder Inner.default topicOps) (by decide)).2.1 (by decide)
    (pollAfter 1000000)

/-- With a lease to the end of time its round finds nothing after the prune, and is refused
where the first consumer still holds the message back. -/
theorem isolation_overflow : ¬∀ db, Reachable db → ∀ α β : Consumer, α.id ≠ β.id →
    (db.consumers.lookup α.id).isSome = true → (db.consumers.lookup β.id).isSome = true →
    ∀ requests, Throughout (Spares α.id) requests db →
      (rounds β.id requests db).map Round.found =
        (rounds β.id (without α.id (fun c => c == β.id) requests db db) db).map Round.found := by
  intro h
  have hspares : Throughout (Spares 1) (pollAfter 9223372036854775807000000) topicDb := by
    refine ⟨?_, ?_, ?_, ?_, trivial⟩
    all_goals
      intro name mode hcall
      cases hcall
  have hsame := h topicDb (reachable_outcome Engine.inOrder Inner.default topicOps)
    ⟨1, "a", .topic "a"⟩ ⟨2, "b", .topic "b"⟩ (by decide) (by decide) (by decide)
    (pollAfter 9223372036854775807000000) hspares
  have hlong : (rounds 2 (pollAfter 9223372036854775807000000) topicDb).map Round.found =
      [.ok (some ⟨[], none, false⟩)] := by rfl
  have hshort : (rounds 2 (without 1 (fun c => c == 2) (pollAfter 9223372036854775807000000)
      topicDb topicDb) topicDb).map Round.found = [.error .durationOutOfRange] := by rfl
  rw [hlong, hshort] at hsame
  cases hsame

end Isolation

end LiteFan.Isolation

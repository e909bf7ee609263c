import LiteFan.Calls

/-!
# What belongs to one consumer

A consumer's inbox is its row, its deliveries, its archives and the log entries
it has yet to be given. An operation through one handle touches no other inbox
and neither the log nor the ledger; an open, a deletion of somebody else and a
prune keep every inbox too, though a prune shortens the log.
-/

namespace LiteFan.Inbox

open LiteFan.Api LiteFan.Time LiteFan.Schema LiteFan.Storage LiteFan.Store LiteFan.Consumer
open LiteFan.System LiteFan.Invariant LiteFan.Effect LiteFan.Step LiteFan.Preservation LiteFan.Calls
open Relational

/-- The log entries a consumer has yet to be given, none without a row. -/
def waiting (db : Db) (c : ℤ) : List Message :=
  match db.consumers.lookup c with
  | none => []
  | some row => unseen db row

/-- The row, deliveries and archives of a consumer are as before. -/
structure Untouched (c : ℤ) (db db' : Db) : Prop where
  row : db'.consumers.lookup c = db.consumers.lookup c
  deliveries : deliveriesOf db' c = deliveriesOf db c
  archives : archivesOf db' c = archivesOf db c

/-- The identifiers and the ledger are as before, and the log has no new entry. -/
structure Shortened (db db' : Db) : Prop where
  seq : db'.messages.seq = db.messages.seq
  ledger : db'.idempotency = db.idempotency
  log : ∀ message ∈ db'.messages, message ∈ db.messages

/-- A whole inbox is as before, over a log without new entries. -/
structure Kept (c : ℤ) (db db' : Db) : Prop where
  untouched : Untouched c db db'
  waiting : waiting db' c = waiting db c
  log : Shortened db db'

section Frames

variable {fan : Inner} {db db' : Db} {c : ℤ} {op : Op} {reply : Except Error Reply}

/-- The deliveries of a consumer are determined by which ones there are. -/
theorem deliveriesOf_ext {a b : Db} {c : ℤ}
    (h : ∀ d, d.consumerId = c → (d ∈ a.deliveries ↔ d ∈ b.deliveries)) :
    deliveriesOf a c = deliveriesOf b c := by
  refine Table.select_eq_of_mem fun d => ?_
  simp only [beq_iff_eq]
  exact and_congr_left (h d)

/-- The archives of a consumer are determined by which ones there are. -/
theorem archivesOf_ext {a b : Db} {c : ℤ}
    (h : ∀ r, r.consumerId = c → (r ∈ a.archives ↔ r ∈ b.archives)) :
    archivesOf a c = archivesOf b c := by
  refine Table.select_eq_of_mem fun r => ?_
  simp only [beq_iff_eq]
  exact and_congr_left (h r)

theorem Untouched.refl (c : ℤ) (db : Db) : Untouched c db db := ⟨rfl, rfl, rfl⟩

theorem Shortened.refl (db : Db) : Shortened db db := ⟨rfl, rfl, fun _ h => h⟩

theorem Kept.refl (c : ℤ) (db : Db) : Kept c db db := ⟨Untouched.refl c db, rfl, Shortened.refl db⟩

/-- Over the same log an untouched inbox awaits the same entries. -/
theorem waiting_congr (hrow : db'.consumers.lookup c = db.consumers.lookup c)
    (hmessages : db'.messages = db.messages) : waiting db' c = waiting db c := by
  unfold waiting
  rw [hrow]
  cases db.consumers.lookup c with
  | none => rfl
  | some row => simp only [unseen_eq, hmessages]

/-- An update of one consumer's row leaves the other rows alone. -/
theorem lookup_update_other {p : ConsumerRow → Bool} {f : ConsumerRow → ConsumerRow}
    {hf : ∀ row, (f row).id = row.id} (h : ∀ row, row.id = c → p row = false) :
    (db.consumers.updateWhere p f hf).lookup c = db.consumers.lookup c := by
  have hupdate := Table.lookup_updateWhere db.consumers.table p f hf c
  refine hupdate.trans ?_
  change (db.consumers.lookup c).map _ = _
  cases hrow : db.consumers.lookup c with
  | none => rfl
  | some row =>
    rw [Option.map_some, Table.rowUpdate, h row (AutoTable.lookup_eq_some.mp hrow).2]
    rfl

/-- Receipts used through another handle name nothing. -/
theorem not_named_other {own : ℤ} {receipts : List Receipt} {d : DeliveryRow}
    (hd : d.consumerId = c) (hc : c ≠ own) : pushReceiptPredicate own receipts d = false := by
  rw [Bool.eq_false_iff, Ne, pushReceiptPredicate_iff, not_and]
  exact fun hown => absurd (hd.symm.trans hown) hc

theorem deleted_other {p : DeliveryRow → Bool}
    (h : ∀ d : DeliveryRow, d.consumerId = c → p d = false) :
    deliveriesOf (deleteDeliveries db p) c = deliveriesOf db c := by
  refine deliveriesOf_ext fun d hd => ?_
  change d ∈ db.deliveries.deleteWhere p ↔ _
  rw [Table.mem_deleteWhere]
  exact ⟨And.left, fun hmem => ⟨hmem, h d hd⟩⟩

theorem unarchived_other {p : ArchiveRow → Bool}
    (h : ∀ r : ArchiveRow, r.consumerId = c → p r = false) :
    archivesOf (deleteArchives db p) c = archivesOf db c := by
  refine archivesOf_ext fun r hr => ?_
  change r ∈ db.archives.deleteWhere p ↔ _
  rw [AutoTable.mem_deleteWhere]
  exact ⟨And.left, fun hmem => ⟨hmem, h r hr⟩⟩

theorem touched_other {own : ℤ} {f : DeliveryRow → DeliveryRow} {hf : ∀ d, (f d).key = d.key}
    {batches : List (List Receipt)} (hc : c ≠ own) :
    deliveriesOf (touched db own f hf batches) c = deliveriesOf db c := by
  refine deliveriesOf_ext fun d hd => ?_
  rw [mem_touched]
  have hsame : ∀ b : DeliveryRow, b.consumerId = c → touch own f batches b = b := fun b hb =>
    touch_of_not_named (not_named_other hb hc)
  constructor
  · rintro ⟨b, hb, rfl⟩
    have howner : b.consumerId = c := by
      rw [← hd]
      exact (key_eq_iff.mp (touch_key hf own batches b)).1.symm
    rw [hsame b howner]
    exact hb
  · exact fun hmem => ⟨d, hmem, hsame d hd⟩

/-- An operation through a handle touches neither the log, nor the ledger, nor
another consumer's row, deliveries and archives. -/
theorem untouched_effect (heffect : Effect fan db op db' reply) (hinv : Inv db) {self : Consumer}
    (hthrough : through op = some self) :
    db'.messages = db.messages ∧ db'.idempotency = db.idempotency ∧
      ∀ c, c ≠ self.id → Untouched c db db' := by
  cases heffect with
  | rejected => exact ⟨rfl, rfl, fun c _ => Untouched.refl c db⟩
  | idle => exact ⟨rfl, rfl, fun c _ => Untouched.refl c db⟩
  | @granted other poll now leaseMs deadline row hlease hid hrow hdeadline =>
    obtain rfl := Option.some.inj hthrough
    refine ⟨rfl, rfl, fun c hc => ⟨?_, ?_, rfl⟩⟩
    · exact lookup_claimedDb_other (hid ▸ hc)
    · refine deliveriesOf_ext fun d hd => ?_
      rw [mem_claimedDb hinv hrow]
      constructor
      · rintro (⟨message, -, rfl⟩ | ⟨hmem, -⟩ | ⟨b, hb, rfl⟩)
        · exact absurd (hd.symm.trans hid.symm) hc
        · exact hmem
        · have howner := (mem_selectVisible hb).2.1
          exact absurd (hd.symm.trans (howner.trans hid.symm)) hc
      · intro hmem
        refine .inr (.inl ⟨hmem, fun hpicked => ?_⟩)
        exact hc (hd.symm.trans ((mem_selectVisible hpicked).2.1.trans hid.symm))
  | @acked other receipts hpos hle =>
    obtain rfl := Option.some.inj hthrough
    exact ⟨rfl, rfl, fun c hc => ⟨rfl, deleted_other fun d hd => not_named_other hd hc, rfl⟩⟩
  | @nacked other receipts retry now visibleAt hpos hle hvisible =>
    obtain rfl := Option.some.inj hthrough
    exact ⟨rfl, rfl, fun c hc => ⟨rfl, touched_other hc, rfl⟩⟩
  | @extended other receipts timeout now ms visibleAt hpos hle hms hne hvisible =>
    obtain rfl := Option.some.inj hthrough
    exact ⟨rfl, rfl, fun c hc => ⟨rfl, touched_other hc, rfl⟩⟩
  | @archived other receipts detail now hpos hle =>
    obtain rfl := Option.some.inj hthrough
    refine ⟨rfl, rfl, fun c hc => ⟨rfl, deleted_other fun d hd => not_named_other hd hc, ?_⟩⟩
    refine archivesOf_ext fun r hr => ?_
    rw [mem_archivedDb]
    refine ⟨fun h => h.resolve_right ?_, .inl⟩
    rintro ⟨i, lease, hlease, rfl⟩
    obtain ⟨d, -, hnamed, rfl⟩ := mem_archivedLeases.mp (List.mem_of_getElem? hlease)
    exact hc (hr.symm.trans (pushReceiptPredicate_iff.mp hnamed).1)
  | @redriven other ids retry now visibleAt hpos hle hvisible =>
    obtain rfl := Option.some.inj hthrough
    refine ⟨rfl, rfl, fun c hc => ⟨rfl, deliveriesOf_ext fun d hd => ?_, ?_⟩⟩
    · rw [mem_redrivenDb hinv]
      refine ⟨fun h => h.resolve_left fun hrow => ?_, .inr⟩
      obtain ⟨r, -, -, rfl⟩ := mem_redrivenRows.mp hrow
      exact hc hd.symm
    · refine unarchived_other fun r hr => ?_
      rw [Bool.eq_false_iff, Ne, archiveNamed_iff, not_and]
      exact fun hown => absurd (hr.symm.trans hown) hc
  | @purged other purge =>
    obtain rfl := Option.some.inj hthrough
    refine ⟨rfl, rfl, fun c hc => ⟨rfl, rfl, archivesOf_ext fun r hr => ?_⟩⟩
    change r ∈ db.archives.deleteWhere _ ↔ _
    rw [AutoTable.mem_deleteWhere]
    refine ⟨And.left, fun hmem => ⟨hmem, ?_⟩⟩
    rw [Bool.eq_false_iff]
    exact fun hpurged => hc (hr.symm.trans (purgedNamed_own hmem hpurged).1)
  | @drained other now =>
    obtain rfl := Option.some.inj hthrough
    refine ⟨rfl, rfl, fun c hc => ⟨lookup_update_other fun row hrow => ?_, rfl, rfl⟩⟩
    have hother : (row.id == other.id) = false := beq_eq_false_iff_ne.mpr (hrow ▸ hc)
    rw [drainGuard, hother, Bool.false_and]
  | created | reopened | published | deleted | pruned => cases hthrough

/-- An operation that leaves the inbox of a consumer alone: one through another
handle, an open, a deletion of another name, or a prune. -/
def Foreign (db : Db) (c : ℤ) (op : Op) : Prop :=
  match op with
  | .publishBatch _ _ => False
  | .deleteConsumer name _ => ∀ row, db.consumers.lookup c = some row → row.name ≠ name
  | _ => ∀ self, System.through op = some self → c ≠ self.id

/-- A prune drops nothing that a consumer awaits. -/
theorem waiting_pruned (prune : Prune) : waiting (prunedDb db prune) c = waiting db c := by
  unfold waiting
  change (match db.consumers.lookup c with
    | none => []
    | some row => unseen (prunedDb db prune) row) = _
  cases hrow : db.consumers.lookup c with
  | none => rfl
  | some row =>
    simp only [unseen_eq]
    refine Table.select_eq_of_mem fun message => ?_
    change message ∈ db.messages.deleteWhere _ ∧ _ ↔ message ∈ db.messages ∧ _
    rw [AutoTable.mem_deleteWhere]
    refine ⟨fun h => ⟨h.1.1, h.2⟩, fun h => ⟨⟨h.1, ?_⟩, h.2⟩⟩
    refine decide_eq_false fun hpruned => ?_
    obtain ⟨stored, hstored, hid, -, -, -, hawaits⟩ := prunable_of_pruned hpruned
    obtain rfl := AutoTable.eq_of_key hstored h.1 hid
    rw [hawaits row (AutoTable.lookup_eq_some.mp hrow).1] at h
    exact absurd h.2 Bool.false_ne_true

/-- A prune keeps every inbox. -/
theorem kept_pruned (prune : Prune) : Kept c db (prunedDb db prune) :=
  ⟨⟨rfl, rfl, rfl⟩, waiting_pruned prune, ⟨rfl, rfl, fun _ h => (AutoTable.mem_deleteWhere.mp h).1⟩⟩

/-- A deletion leaves every other inbox alone. -/
theorem untouched_deletedDb {row : ConsumerRow} (hne : row.id ≠ c) :
    Untouched c db (deletedDb db row) := by
  refine ⟨?_, deleted_other fun d hd => ?_, unarchived_other fun r hr => ?_⟩
  · change (db.consumers.deleteWhere _).lookup c = _
    rw [AutoTable.lookup_deleteWhere]
    cases hrow : db.consumers.lookup c with
    | none => rfl
    | some other =>
      have hother : other.id = c := (AutoTable.lookup_eq_some.mp hrow).2
      have hkept : (other.id == row.id) = false := beq_eq_false_iff_ne.mpr (hother ▸ hne.symm)
      rw [Option.filter_some_pos (by rw [hkept]; rfl)]
  · exact beq_eq_false_iff_ne.mpr (hd ▸ hne.symm)
  · exact beq_eq_false_iff_ne.mpr (hr ▸ hne.symm)

/-- Nothing but a publish adds to the log. -/
theorem shortened_effect (heffect : Effect fan db op db' reply)
    (hother : ∀ messages now, op ≠ .publishBatch messages now) : Shortened db db' := by
  cases heffect with
  | published => exact absurd rfl (hother _ _)
  | pruned => exact ⟨rfl, rfl, fun message h => (AutoTable.mem_deleteWhere.mp h).1⟩
  | rejected | idle | created | reopened | granted | acked | nacked | extended | archived | redriven
  | purged | drained | deleted => exact ⟨rfl, rfl, fun _ h => h⟩

/-- An operation that is foreign to a consumer keeps its inbox. -/
theorem kept_effect (heffect : Effect fan db op db' reply) (hinv : Inv db)
    (hle : c ≤ db.consumers.seq) (hforeign : Foreign db c op) : Kept c db db' := by
  cases hthrough : System.through op with
  | some self =>
    have hne : c ≠ self.id := by
      cases op with
      | publishBatch messages now => exact hforeign.elim
      | deleteConsumer name mode => cases hthrough
      | openConsumer | claim | ackBatch | nackBatch | extendVisibilityBatch | archiveBatch
      | redriveBatch | purgeArchives | beginDraining | pruneMessages =>
        exact hforeign self hthrough
    obtain ⟨hmessages, hledger, huntouched⟩ := untouched_effect heffect hinv hthrough
    have hkept := huntouched c hne
    exact ⟨hkept, waiting_congr hkept.row hmessages,
      ⟨by rw [hmessages], hledger, fun message h => hmessages ▸ h⟩⟩
  | none =>
    cases heffect with
    | rejected => exact Kept.refl c db
    | idle => exact Kept.refl c db
    | @created name filter now hname hfree =>
      have hrow : (openedDb db name filter now).consumers.lookup c = db.consumers.lookup c := by
        rw [lookup_openedDb, if_neg (by omega)]
      exact ⟨⟨hrow, rfl, rfl⟩, waiting_congr hrow rfl, ⟨rfl, rfl, fun _ h => h⟩⟩
    | reopened => exact ⟨⟨rfl, rfl, rfl⟩, waiting_congr rfl rfl, ⟨rfl, rfl, fun _ h => h⟩⟩
    | published => exact hforeign.elim
    | @deleted name mode row hrow haccept =>
      obtain ⟨hmem, hname⟩ := consumerNamed_some hrow
      have hne : row.id ≠ c := fun heq => hforeign row (heq ▸ AutoTable.lookup_key hmem) hname
      have huntouched : Untouched c db (deletedDb db row) := untouched_deletedDb hne
      exact ⟨huntouched, waiting_congr huntouched.row rfl, ⟨rfl, rfl, fun _ h => h⟩⟩
    | @pruned prune => exact kept_pruned prune
    | granted | acked | nacked | extended | archived | redriven | purged | drained => cases hthrough

end Frames

end LiteFan.Inbox

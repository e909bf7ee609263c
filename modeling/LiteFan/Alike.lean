import LiteFan.Inbox

/-!
# Two stores that look alike to a consumer

Two stores look alike to a consumer when they assign the same next identifier,
hold the same ledger and store no two different messages under one identifier,
and when the consumer's inbox is the same in both, up to the cursors of its row
and the identifiers of its archives. A call through the consumer's own handle is
then answered the same in both and leaves them alike.
-/

namespace LiteFan.Alike

open LiteFan.Api LiteFan.Time LiteFan.Schema LiteFan.Storage LiteFan.Store LiteFan.Consumer
open LiteFan.System LiteFan.Invariant LiteFan.Effect LiteFan.Step LiteFan.Preservation LiteFan.Calls
open LiteFan.Inbox Relational

/-- A row without its cursors. -/
def plain (row : ConsumerRow) : ConsumerRow := { row with scanCursor := 0, drainCursor := none }

/-- An archive without its identifier. -/
def nameless (r : ArchiveRow) : ArchiveRow := { r with id := 0 }

/-- Archives that differ in their identifiers only. -/
def Twins (r r' : ArchiveRow) : Prop := nameless r = nameless r'

/-- The same next identifier and ledger, and no identifier that names two messages. -/
structure SameLog (a b : Db) : Prop where
  seq : a.messages.seq = b.messages.seq
  ledger : a.idempotency = b.idempotency
  agree : ∀ m ∈ a.messages, ∀ m' ∈ b.messages, m.id = m'.id → m = m'

/-- The same inbox, up to cursors and archive identifiers. -/
structure SameInbox (c : ℤ) (a b : Db) : Prop where
  row : (a.consumers.lookup c).map plain = (b.consumers.lookup c).map plain
  waiting : waiting a c = waiting b c
  deliveries : deliveriesOf a c = deliveriesOf b c
  archives : List.Forall₂ Twins (archivesOf a c) (archivesOf b c)

/-- One call on two stores is answered the same and leaves the inboxes the same. -/
structure Matched {β : Type} (c : ℤ) (x y : Db × β) : Prop where
  answer : x.2 = y.2
  inbox : SameInbox c x.1 y.1

section Relation

variable {a b b' : Db} {c : ℤ}

theorem Twins.message {r r' : ArchiveRow} (h : Twins r r') : r.messageId = r'.messageId :=
  (ArchiveRow.mk.inj h).2.2.1

theorem Twins.archivedAt {r r' : ArchiveRow} (h : Twins r r') : r.archivedAt = r'.archivedAt :=
  (ArchiveRow.mk.inj h).2.2.2.1

theorem Twins.symm {r r' : ArchiveRow} (h : Twins r r') : Twins r' r := Eq.symm h

theorem SameLog.refl (db : Db) : SameLog db db :=
  ⟨rfl, rfl, fun _ hm _ hm' hid => AutoTable.eq_of_key hm hm' hid⟩

theorem SameLog.symm (h : SameLog a b) : SameLog b a :=
  ⟨h.seq.symm, h.ledger.symm, fun m hm m' hm' hid => (h.agree m' hm' m hm hid.symm).symm⟩

theorem SameInbox.refl (c : ℤ) (db : Db) : SameInbox c db db :=
  ⟨rfl, rfl, rfl, List.forall₂_same.mpr fun _ _ => rfl⟩

theorem SameInbox.symm (h : SameInbox c a b) : SameInbox c b a :=
  ⟨h.row.symm, h.waiting.symm, h.deliveries.symm, h.archives.flip.imp fun _ _ => Twins.symm⟩

/-- A log without new entries still agrees. -/
theorem SameLog.shortened (h : SameLog a b) (hlog : Shortened b b') : SameLog a b' where
  seq := h.seq.trans hlog.seq.symm
  ledger := h.ledger.trans hlog.ledger.symm
  agree m hm m' hm' := h.agree m hm m' (hlog.log m' hm')

/-- An inbox that is as before is still the same. -/
theorem SameInbox.kept (h : SameInbox c a b) (hkept : Kept c b b') : SameInbox c a b' where
  row := by rw [hkept.untouched.row]; exact h.row
  waiting := h.waiting.trans hkept.waiting.symm
  deliveries := h.deliveries.trans hkept.untouched.deliveries.symm
  archives := by rw [hkept.untouched.archives]; exact h.archives

/-- The consumer is live in both stores or in neither. -/
theorem SameInbox.rows (h : SameInbox c a b) :
    (a.consumers.lookup c = none ∧ b.consumers.lookup c = none) ∨
      ∃ row row', a.consumers.lookup c = some row ∧ b.consumers.lookup c = some row' ∧
        plain row = plain row' := by
  have hrow := h.row
  cases ha : a.consumers.lookup c with
  | none =>
    rw [ha, Option.map_none, eq_comm, Option.map_eq_none_iff] at hrow
    exact .inl ⟨rfl, hrow⟩
  | some row =>
    rw [ha, Option.map_some] at hrow
    obtain ⟨row', hb, hplain⟩ := Option.map_eq_some_iff.mp hrow.symm
    exact .inr ⟨row, row', rfl, hb, hplain.symm⟩

end Relation

section Receipts

variable {a b : Db} {c : ℤ}

/-- Deliveries removed by the consumer's own receipts. -/
theorem deliveriesOf_delete (db : Db) (p : DeliveryRow → Bool) :
    deliveriesOf (deleteDeliveries db p) c = (deliveriesOf db c).filter fun d => !p d :=
  List.filter_comm _ _ _

/-- What the consumer's receipts name is among its deliveries. -/
theorem select_named (db : Db) (receipts : List Receipt) :
    db.deliveries.select (pushReceiptPredicate c receipts) =
      (deliveriesOf db c).filter (pushReceiptPredicate c receipts) := by
  rw [deliveriesOf, Table.select, Table.select, List.filter_filter]
  refine List.filter_congr fun d _ => ?_
  rw [pushReceiptPredicate, Bool.and_right_comm, Bool.and_self]

/-- The consumer's receipts name the same deliveries in both stores. -/
theorem SameInbox.named (h : SameInbox c a b) (receipts : List Receipt) :
    a.deliveries.select (pushReceiptPredicate c receipts) =
      b.deliveries.select (pushReceiptPredicate c receipts) := by
  rw [select_named, select_named, h.deliveries]

/-- An acknowledgement leaves the inboxes the same. -/
theorem SameInbox.acked (h : SameInbox c a b) (receipts : List Receipt) :
    SameInbox c (deleteDeliveries a (pushReceiptPredicate c receipts))
      (deleteDeliveries b (pushReceiptPredicate c receipts)) where
  row := h.row
  waiting := h.waiting
  deliveries := by rw [deliveriesOf_delete, deliveriesOf_delete, h.deliveries]
  archives := h.archives

/-- Deliveries rewritten through the consumer's own receipts. -/
theorem deliveriesOf_touched (db : Db) {f : DeliveryRow → DeliveryRow} (hf : ∀ d, (f d).key = d.key)
    (batches : List (List Receipt)) :
    deliveriesOf (touched db c f hf batches) c = (deliveriesOf db c).map (touch c f batches) := by
  change (db.deliveries.rows.map (touch c f batches)).filter _ = _
  rw [List.filter_map]
  refine congrArg _ (List.filter_congr fun d _ => ?_)
  have howner : (touch c f batches d).consumerId = d.consumerId :=
    (key_eq_iff.mp (touch_key hf c batches d)).1
  simp only [Function.comp_apply, howner]

/-- What an update reports depends on the consumer's own deliveries. -/
theorem touchedRows_own {f : DeliveryRow → DeliveryRow} (hf : ∀ d, (f d).key = d.key)
    (batches : List (List Receipt)) (t t' : Table DeliveryRow DeliveryRow.key)
    (h : (t.select fun d => d.consumerId == c) = t'.select fun d => d.consumerId == c) :
    touchedRows c f hf t batches = touchedRows c f hf t' batches := by
  induction batches generalizing t t' with
  | nil => rfl
  | cons receipts batches ih =>
    have hnamed : ∀ t : Table DeliveryRow DeliveryRow.key,
        t.select (pushReceiptPredicate c receipts) =
          (t.select fun d => d.consumerId == c).filter (pushReceiptPredicate c receipts) := by
      intro t
      rw [Table.select, Table.select, List.filter_filter]
      refine List.filter_congr fun d _ => ?_
      rw [pushReceiptPredicate, Bool.and_right_comm, Bool.and_self]
    have hupdate : ∀ t : Table DeliveryRow DeliveryRow.key,
        ((t.updateWhere (pushReceiptPredicate c receipts) f hf).select fun d => d.consumerId == c) =
          (t.select fun d => d.consumerId == c).map
            (Table.rowUpdate (pushReceiptPredicate c receipts) f) := by
      intro t
      change (t.rows.map _).filter _ = _
      rw [List.filter_map]
      refine congrArg _ (List.filter_congr fun d _ => ?_)
      have howner : (Table.rowUpdate (pushReceiptPredicate c receipts) f d).consumerId =
          d.consumerId := (key_eq_iff.mp (Table.key_rowUpdate hf d)).1
      simp only [Function.comp_apply, howner]
    rw [touchedRows, touchedRows, hnamed t, hnamed t', h]
    rw [ih _ _ ((hupdate t).trans ((congrArg _ h).trans (hupdate t').symm))]

/-- Archived rows of the consumer come after the ones it had. -/
theorem archivesOf_archivedDb (db : Db) (receipts : List Receipt) (now : ℤ)
    (detail : Option String) :
    archivesOf (archivedDb db c receipts now detail) c = archivesOf db c ++
      List.zipWith (archiveRow now detail) (archivedLeases db c receipts)
        (db.archives.freshKeys (archivedLeases db c receipts).length) := by
  have hrows : (archivedDb db c receipts now detail).archives.table.rows =
      db.archives.table.rows ++ List.zipWith (archiveRow now detail) (archivedLeases db c receipts)
        (db.archives.freshKeys (archivedLeases db c receipts).length) :=
          AutoTable.appendAll_rows _ _
  change List.filter _ _ = List.filter _ _ ++ _
  rw [hrows, List.filter_append]
  refine congrArg _ (List.filter_eq_self.mpr fun r hr => ?_)
  rw [← List.map_uncurry_zip_eq_zipWith] at hr
  obtain ⟨⟨lease, id⟩, hmem, rfl⟩ := List.mem_map.mp hr
  obtain ⟨d, -, hnamed, rfl⟩ := mem_archivedLeases.mp (List.of_mem_zip hmem).1
  exact beq_iff_eq.mpr (pushReceiptPredicate_iff.mp hnamed).1

/-- A release or an extension leaves the inboxes the same. -/
theorem SameInbox.touched (h : SameInbox c a b) {f : DeliveryRow → DeliveryRow}
    (hf : ∀ d, (f d).key = d.key) (batches : List (List Receipt)) :
    SameInbox c (touched a c f hf batches) (touched b c f hf batches) where
  row := h.row
  waiting := h.waiting
  deliveries := by rw [deliveriesOf_touched, deliveriesOf_touched, h.deliveries]
  archives := h.archives

/-- An archive batch leaves the inboxes the same, each new row its twin's outcome. -/
theorem SameInbox.archived (h : SameInbox c a b) (receipts : List Receipt) (now : ℤ)
    (detail : Option String) :
    SameInbox c (archivedDb a c receipts now detail) (archivedDb b c receipts now detail) := by
  have hleases : archivedLeases a c receipts = archivedLeases b c receipts :=
    congrArg _ (h.named receipts)
  refine ⟨h.row, h.waiting, (h.acked receipts).deliveries, ?_⟩
  rw [archivesOf_archivedDb, archivesOf_archivedDb, hleases]
  refine List.rel_append h.archives (List.forall₂_iff_get.mpr ⟨?_, fun i hi hi' => ?_⟩)
  · simp only [List.length_zipWith, AutoTable.length_freshKeys]
  · simp only [List.get_eq_getElem, List.getElem_zipWith]
    rfl

end Receipts

section Archives

variable {a b : Db} {c : ℤ}

/-- The identifiers of one list name archives where those of the other name their twins. -/
def Corresponds (c : ℤ) (a b : Db) (ids ids' : List ℤ) : Prop :=
  ids.length = ids'.length ∧
    List.Forall₂ (fun r r' => Twins r r' ∧ (r.id ∈ ids ↔ r'.id ∈ ids')) (archivesOf a c)
      (archivesOf b c)

/-- The named archives of a consumer are among its own. -/
theorem select_archiveNamed (db : Db) (ids : List ℤ) :
    db.archives.select (archiveNamed c ids) =
      (archivesOf db c).filter fun r => decide (r.id ∈ ids) := by
  rw [archivesOf, AutoTable.select, AutoTable.select, Table.select, Table.select,
    List.filter_filter]
  exact List.filter_congr fun r _ => Bool.and_comm _ _

/-- Archives of the consumer removed by a condition. -/
theorem archivesOf_delete (db : Db) (p : ArchiveRow → Bool) :
    archivesOf (deleteArchives db p) c = (archivesOf db c).filter fun r => !p r :=
  List.filter_comm _ _ _

/-- Conditions that agree on twins pick twins. -/
theorem twins_filter {p p' : ArchiveRow → Bool} {rows rows' : List ArchiveRow}
    (hp : List.Forall₂ (fun r r' => Twins r r' ∧ (p r = true ↔ p' r' = true)) rows rows') :
    List.Forall₂ Twins (rows.filter p) (rows'.filter p') :=
  (List.rel_filter (fun _ _ hr => hr.2) hp).imp fun _ _ hr => hr.1

/-- Archives removed by conditions that agree on twins leave twins. -/
theorem SameInbox.unarchived (h : SameInbox c a b) {p p' : ArchiveRow → Bool}
    (hp : List.Forall₂ (fun r r' => Twins r r' ∧ (p r = true ↔ p' r' = true)) (archivesOf a c)
      (archivesOf b c)) : SameInbox c (deleteArchives a p) (deleteArchives b p') where
  row := h.row
  waiting := h.waiting
  deliveries := h.deliveries
  archives := by
    rw [archivesOf_delete, archivesOf_delete]
    refine twins_filter (hp.imp fun r r' hr => ⟨hr.1, ?_⟩)
    rw [Bool.eq_iff_iff.mpr hr.2]

/-- Identifiers that correspond name twins. -/
theorem Corresponds.named {ids ids' : List ℤ} (h : Corresponds c a b ids ids') :
    List.Forall₂ Twins (a.archives.select (archiveNamed c ids))
      (b.archives.select (archiveNamed c ids')) := by
  rw [select_archiveNamed, select_archiveNamed]
  refine twins_filter (h.2.imp fun r r' hr => ⟨hr.1, ?_⟩)
  rw [decide_eq_true_iff, decide_eq_true_iff]
  exact hr.2

/-- Identifiers that correspond restore the same deliveries. -/
theorem Corresponds.redrivenRows {ids ids' : List ℤ} (h : Corresponds c a b ids ids')
    (visibleAt : ℤ) : Effect.redrivenRows a c ids visibleAt =
      Effect.redrivenRows b c ids' visibleAt := by
  unfold Effect.redrivenRows
  rw [← List.forall₂_eq_eq_eq, List.forall₂_map_left_iff, List.forall₂_map_right_iff]
  exact h.named.imp fun r r' hr => congrArg _ hr.message

/-- A redrive of identifiers that correspond leaves the inboxes the same. -/
theorem SameInbox.redriven (h : SameInbox c a b) (ha : Inv a) (hb : Inv b) {ids ids' : List ℤ}
    (hids : Corresponds c a b ids ids') (visibleAt : ℤ) :
    SameInbox c (redrivenDb a c ids visibleAt) (redrivenDb b c ids' visibleAt) := by
  have hremoved : SameInbox c (deleteArchives a (archiveNamed c ids))
      (deleteArchives b (archiveNamed c ids')) := by
    refine h.unarchived (List.forall₂_iff_zip.mpr ⟨h.archives.length_eq, fun {r r'} hr => ?_⟩)
    have hown : ∀ {db : Db} {r}, r ∈ archivesOf db c → r.consumerId = c := fun hmem =>
      (mem_archivesOf.mp hmem).2
    have htwins := List.forall₂_zip hids.2 hr
    refine ⟨htwins.1, ?_⟩
    rw [archiveNamed_iff, archiveNamed_iff, htwins.2]
    exact and_congr_left fun _ => iff_of_true (hown (List.of_mem_zip hr).1)
      (hown (List.of_mem_zip hr).2)
  refine ⟨h.row, h.waiting, deliveriesOf_ext fun d hd => ?_, hremoved.archives⟩
  rw [mem_redrivenDb ha, mem_redrivenDb hb, hids.redrivenRows]
  exact or_congr_right ((and_iff_left hd).symm.trans (mem_deliveriesOf.symm.trans
    (h.deliveries ▸ mem_deliveriesOf.trans (and_iff_left hd))))

/-- The consumer's own archives that a purge picks. -/
theorem purgedIds_own (db : Db) (purge : PurgeArchives) :
    purgedIds db c purge = (((archivesOf db c).filter fun r =>
      decide (r.archivedAt < purge.beforeMs)).take purge.maxArchives).map ArchiveRow.id := by
  rw [purgedIds, archivesOf, AutoTable.select, AutoTable.select, Table.select, Table.select,
    List.filter_filter]
  refine congrArg (fun rows => List.map _ (List.take _ rows)) (List.filter_congr fun r _ => ?_)
  exact Bool.and_comm _ _

/-- A purge picks twins. -/
theorem SameInbox.purgedNamed (h : SameInbox c a b) (purge : PurgeArchives) :
    List.Forall₂ (fun r r' => Twins r r' ∧ (Effect.purgedNamed a c purge r = true ↔
      Effect.purgedNamed b c purge r' = true)) (archivesOf a c) (archivesOf b c) := by
  have hkeys : ∀ db : Db, ((archivesOf db c).map ArchiveRow.id).Nodup := fun db =>
    List.pairwise_map.mpr ((Table.select_sorted _ _).imp fun hlt => hlt.ne)
  have hold : ∀ r r', Twins r r' →
      decide (r.archivedAt < purge.beforeMs) = decide (r'.archivedAt < purge.beforeMs) :=
    fun r r' hr => by rw [hr.archivedAt]
  refine (forall₂_picked hold h.archives (hkeys a) (hkeys b) purge.maxArchives).imp
    fun r r' hr => ⟨hr.1, ?_⟩
  unfold Effect.purgedNamed
  rw [decide_eq_true_iff, decide_eq_true_iff, purgedIds_own, purgedIds_own]
  exact hr.2

/-- What a purge removes is among the consumer's own. -/
theorem select_purgedNamed (db : Db) (purge : PurgeArchives) :
    db.archives.select (Effect.purgedNamed db c purge) =
      (archivesOf db c).filter (Effect.purgedNamed db c purge) := by
  rw [archivesOf, AutoTable.select, AutoTable.select, Table.select, Table.select,
    List.filter_filter]
  refine List.filter_congr fun r hr => ?_
  rw [Bool.eq_iff_iff, Bool.and_eq_true, beq_iff_eq]
  exact ⟨fun hp => ⟨hp, (purgedNamed_own hr hp).1⟩, And.left⟩

end Archives

section Drains

variable {a b : Db} {c : ℤ}

/-- A drain writes the same to a row whatever its cursor. -/
theorem plain_drained (now limit : ℤ) (row : ConsumerRow) :
    plain (Table.rowUpdate (drainGuard c) (startDraining now limit) row) =
      Table.rowUpdate (drainGuard c) (fun row => { row with drainingAt := some now })
        (plain row) := by
  unfold Table.rowUpdate
  have hguard : drainGuard c (plain row) = drainGuard c row := rfl
  rw [hguard]
  split <;> rfl

/-- The rows after a drain. -/
theorem lookup_drainedDb (db : Db) (c now k : ℤ) : (drainedDb db c now).consumers.lookup k =
    (db.consumers.lookup k).map
      (Table.rowUpdate (drainGuard c) (startDraining now (highWater db))) :=
  AutoTable.lookup_updateWhere _ _

/-- A drain takes nothing from what the consumer awaits, since its boundary is above every
stored entry. -/
theorem waiting_drained {db : Db} (hinv : Inv db) (c now : ℤ) :
    waiting (drainedDb db c now) c = waiting db c := by
  unfold waiting
  rw [lookup_drainedDb]
  cases hrow : db.consumers.lookup c with
  | none => rfl
  | some row =>
    have hok := hinv.rows row (AutoTable.lookup_eq_some.mp hrow).1
    rw [Option.map_some]
    simp only [unseen_eq]
    refine Table.select_congr fun message hmessage => ?_
    unfold Table.rowUpdate
    split
    · rename_i hguard
      have hactive : row.drainingAt = none := by
        rw [drainGuard, Bool.and_eq_true, Option.isNone_iff_eq_none] at hguard
        exact hguard.2
      have hopen : row.drainCursor = none := by
        have hdraining := hok.draining
        rw [hactive, Option.isSome_none, eq_comm, Option.isSome_eq_false_iff,
          Option.isNone_iff_eq_none] at hdraining
        exact hdraining
      have hle : message.id ≤ max row.scanCursor (highWater db) :=
        (le_highWater hmessage).trans (le_max_right _ _)
      simp only [awaits, startDraining, hopen, decide_eq_true hle]
      rfl
    · rfl

/-- A drain leaves the inboxes the same. -/
theorem SameInbox.drained (h : SameInbox c a b) (ha : Inv a) (hb : Inv b) (now : ℤ) :
    SameInbox c (drainedDb a c now) (drainedDb b c now) where
  row := by
    have hplain : ∀ db : Db, ((drainedDb db c now).consumers.lookup c).map plain =
        ((db.consumers.lookup c).map plain).map
          (Table.rowUpdate (drainGuard c) fun row => { row with drainingAt := some now }) := by
      intro db
      rw [lookup_drainedDb, Option.map_map, Option.map_map]
      exact congrArg (fun f => Option.map f _) (funext (plain_drained now (highWater db)))
    rw [hplain, hplain, h.row]
  waiting := by rw [waiting_drained ha, waiting_drained hb, h.waiting]
  deliveries := h.deliveries
  archives := h.archives

/-- A drain changes the row in both stores or in neither. -/
theorem SameInbox.drainChanges (h : SameInbox c a b) :
    Effect.drainChanges a c = Effect.drainChanges b c := by
  rw [Bool.eq_iff_iff, drainChanges_iff, drainChanges_iff]
  rcases h.rows with ⟨ha, hb⟩ | ⟨row, row', ha, hb, hplain⟩
  · simp only [ha, hb, reduceCtorEq, false_and, exists_false]
  · have hdraining : row.drainingAt = row'.drainingAt := (ConsumerRow.mk.inj hplain).2.2.2.2.1
    simp only [ha, hb, Option.some.injEq, exists_eq_left', hdraining]

end Drains

end LiteFan.Alike

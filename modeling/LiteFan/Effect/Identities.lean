import LiteFan.Effect.Claims
import LiteFan.Effect.Publishing

/-!
# What opening, draining, deleting and retention do to the tables

Opening a new name appends one row that starts at the retained high-water mark,
and draining fixes a row's final boundary. Deleting an identity takes its row,
its deliveries and its archives. Pruning removes log entries only: the prune
predicate excludes everything another row refers to.
-/

namespace LiteFan.Effect

open LiteFan.Api LiteFan.Time LiteFan.Schema LiteFan.Storage LiteFan.Store LiteFan.Consumer
open LiteFan.Invariant Relational

/-- A non-negative counter reads back as it is. -/
theorem u64TryFrom_nat (n : ℕ) : u64TryFrom (n : ℤ) = .ok n := by
  rw [u64TryFrom, if_pos (Int.natCast_nonneg n), Int.toNat_natCast]

section Open

/-- The row of a newly opened consumer. -/
def activeRow (name : String) (filter : Filter) (now scanCursor id : ℤ) : ConsumerRow :=
  ⟨id, name, filter.asDatabaseValue, now, none, scanCursor, none⟩

theorem activeRow_id (name : String) (filter : Filter) (now scanCursor id : ℤ) :
    (activeRow name filter now scanCursor id).id = id := rfl

/-- The database a newly opened consumer leaves. -/
def openedDb (db : Db) (name : String) (filter : Filter) (now : ℤ) : Db :=
  { db with
    consumers := db.consumers.append (activeRow name filter now (highWater db))
      (activeRow_id name filter now (highWater db)) }

/-- The new row is stored after the others. -/
theorem mem_openedDb {db : Db} {name : String} {filter : Filter} {now : ℤ} {row : ConsumerRow} :
    row ∈ (openedDb db name filter now).consumers ↔
      row ∈ db.consumers ∨ row = activeRow name filter now (highWater db) (db.consumers.seq + 1) :=
  show row ∈ db.consumers.append _ (activeRow_id name filter now (highWater db)) ↔ _ from
    AutoTable.mem_append

theorem lookup_openedDb (db : Db) (name : String) (filter : Filter) (now c : ℤ) :
    (openedDb db name filter now).consumers.lookup c =
      if c = db.consumers.seq + 1 then some (activeRow name filter now (highWater db) c)
      else db.consumers.lookup c :=
  show (db.consumers.append _ (activeRow_id name filter now (highWater db))).lookup c = _ from
    AutoTable.lookup_append _ _

/-- The database an open of an existing name leaves. -/
def reopenedDb (db : Db) : Db := { db with consumers := db.consumers.bump }

/-- The next consumer key. -/
def nextConsumer (db : Db) : ℤ := db.consumers.seq + 1

/-- No consumer has the empty name. -/
theorem openConsumer_empty {name : String} {filter : Filter} {now : ℤ} {db : Db} (h : name = "") :
    openConsumer name filter now db = .error .emptyConsumerName := by
  rw [openConsumer, if_pos h]

/-- Opening a free name creates a consumer that has seen the whole retained log. -/
theorem openConsumer_new {name : String} {filter : Filter} {now : ℤ} {db : Db} (hname : name ≠ "")
    (hfree : consumerNamed db name = none) :
    openConsumer name filter now db =
      .ok (openedDb db name filter now, ⟨nextConsumer db, name, filter⟩) := by
  have hinsert : insertConsumer db name filter.asDatabaseValue now (highWater db) =
      .ok (openedDb db name filter now) := by
    unfold insertConsumer
    rw [if_neg (not_not.mpr (highWater_nonneg db)), hfree]
    rfl
  have hfound : consumerNamed (openedDb db name filter now) name =
      some (activeRow name filter now (highWater db) (nextConsumer db)) := by
    unfold consumerNamed at hfree ⊢
    rw [openedDb, AutoTable.append_rows, List.find?_append, hfree, Option.none_or]
    simp [activeRow, nextConsumer]
  unfold openConsumer
  rw [if_neg hname]
  simp only [bind, Except.bind, hinsert, hfound]
  simp [activeRow]
  rfl

/-- Opening a taken name only draws a key, when the filter is the stored one. -/
theorem openConsumer_taken {name : String} {filter : Filter} {now : ℤ} {db : Db} {row : ConsumerRow}
    (hname : name ≠ "") (hrow : consumerNamed db name = some row) :
    openConsumer name filter now db =
      if row.topicFilter ≠ filter.asDatabaseValue then .error (.consumerConfigurationMismatch name)
      else .ok (reopenedDb db, ⟨row.id, name, filter⟩) := by
  have hinsert : insertConsumer db name filter.asDatabaseValue now (highWater db) =
      .ok (reopenedDb db) := by
    unfold insertConsumer
    rw [if_neg (not_not.mpr (highWater_nonneg db)), hrow]
    rfl
  have hfound : consumerNamed (reopenedDb db) name = some row := hrow
  unfold openConsumer
  rw [if_neg hname]
  simp only [bind, Except.bind, hinsert, hfound]
  rfl

end Open

section Drain

/-- Whether the guarded update of a drain call applies to a row. -/
def drainGuard (c : ℤ) (row : ConsumerRow) : Bool := row.id == c && row.drainingAt.isNone

theorem startDraining_id (now limit : ℤ) (row : ConsumerRow) :
    (startDraining now limit row).id = row.id := rfl

/-- The database a drain call leaves. -/
def drainedDb (db : Db) (c now : ℤ) : Db :=
  { db with
    consumers := db.consumers.updateWhere (drainGuard c) (startDraining now (highWater db))
      (startDraining_id now (highWater db)) }

/-- Whether a drain call changes a row. -/
def drainChanges (db : Db) (c : ℤ) : Bool := (db.consumers.select (drainGuard c)).length == 1

/-- A draining row's boundary is ahead of its cursor and not ahead of the identifiers assigned. -/
theorem startDraining_ok {db : Db} {row : ConsumerRow} (hok : RowOk db.messages.seq row) (now : ℤ) :
    RowOk db.messages.seq (startDraining now (highWater db) row) := by
  refine ⟨hok.nonneg, hok.le_seq, ?_, rfl⟩
  intro limit hlimit
  have hlimit : max row.scanCursor (highWater db) = limit := Option.some_inj.mp hlimit
  rw [← hlimit]
  exact ⟨le_max_left _ _, max_le hok.le_seq (highWater_le_seq db)⟩

/-- A drain call succeeds and changes the row it guards. -/
theorem drainTransition_eq {self : Consumer} {now : ℤ} {db : Db} (hinv : Inv db) :
    drainTransition self now db = .ok (drainedDb db self.id now, drainChanges db self.id) := by
  have hupdate : updateConsumers db (drainGuard self.id) (startDraining now (highWater db))
      (fun _ => rfl) = .ok (drainedDb db self.id now) :=
    updateConsumers_eq fun row hrow _ => (startDraining_ok (hinv.rows row hrow) now).check
  unfold drainTransition
  change (updateConsumers db (drainGuard self.id) (startDraining now (highWater db))
    fun _ => rfl).bind _ = _
  rw [hupdate]
  rfl

/-- The call changes a row exactly when the identity exists and is active. -/
theorem drainChanges_iff {db : Db} {c : ℤ} :
    drainChanges db c = true ↔ ∃ row, db.consumers.lookup c = some row ∧ row.drainingAt = none := by
  unfold drainChanges
  have hmem : ∀ row, row ∈ db.consumers.select (drainGuard c) ↔
      db.consumers.lookup c = some row ∧ row.drainingAt = none := by
    intro row
    simp only [AutoTable.mem_select, drainGuard, Bool.and_eq_true, beq_iff_eq,
      Option.isNone_iff_eq_none,
      AutoTable.lookup_eq_some, and_assoc]
  constructor
  · intro h
    have hlen : (db.consumers.select (drainGuard c)).length = 1 := by simpa using h
    obtain ⟨row, hone⟩ := List.length_eq_one_iff.mp hlen
    exact ⟨row, (hmem row).mp (by rw [hone]; exact List.mem_singleton_self row)⟩
  · intro h
    obtain ⟨row, hrow⟩ := h
    have hone : db.consumers.select (drainGuard c) = [row] := by
      refine List.perm_singleton.mp ((List.perm_ext_iff_of_nodup
        (Table.select_nodup _ _) (List.nodup_singleton row)).mpr fun other => ?_)
      rw [List.mem_singleton]
      constructor
      · intro hother
        have hl := ((hmem other).mp hother).1
        rw [hrow.1] at hl
        exact (Option.some_inj.mp hl).symm
      · intro hsame
        rw [hsame]
        exact (hmem row).mpr hrow
    rw [hone]
    rfl

end Drain

section Delete

/-- The number of outstanding copies a deletion counts. -/
def outstandingCount (db : Db) (row : ConsumerRow) : ℕ :=
  (deliveriesOf db row.id).length + (db.messages.select (awaits row)).length

/-- The number of archived copies a deletion counts. -/
def archivedCount (db : Db) (row : ConsumerRow) : ℕ := (archivesOf db row.id).length

/-- The database a deletion leaves. -/
def deletedDb (db : Db) (row : ConsumerRow) : Db :=
  { db with
    consumers := db.consumers.deleteWhere fun other => other.id == row.id
    deliveries := db.deliveries.deleteWhere fun d => d.consumerId == row.id
    archives := db.archives.deleteWhere fun a => a.consumerId == row.id }

/-- The guards of a deletion, in the order they are checked. -/
def deleteRefusal (name : String) (mode : DeleteMode) (db : Db) (row : ConsumerRow) :
    Option Error :=
  if mode = .drainedOnly ∧ row.drainingAt.isNone then some (.consumerNotDraining name)
  else if mode = .drainedOnly ∧ outstandingCount db row > 0 then
    some (.consumerNotEmpty name (outstandingCount db row))
  else if mode ≠ .discardAll ∧ archivedCount db row > 0 then
    some (.consumerHasArchives name (archivedCount db row))
  else none

/-- A deletion the guards let through meets no archive it would have to keep. -/
theorem no_archives_of_accepted {name : String} {mode : DeleteMode} {db : Db} {row : ConsumerRow}
    (h : deleteRefusal name mode db row = none) (hmode : mode ≠ .discardAll) :
    ∀ a ∈ db.archives, a.consumerId ≠ row.id := by
  unfold deleteRefusal at h
  split_ifs at h with h₁ h₂ h₃
  have hzero : archivedCount db row = 0 := by
    by_contra hne
    exact h₃ ⟨hmode, Nat.pos_of_ne_zero hne⟩
  have hnil : archivesOf db row.id = [] := List.length_eq_zero_iff.mp hzero
  intro a ha hc
  have hmem : a ∈ archivesOf db row.id := AutoTable.mem_select.mpr ⟨ha, by simpa using hc⟩
  rw [hnil] at hmem
  exact absurd hmem List.not_mem_nil

/-- A name that is free is not deleted. -/
theorem deleteConsumer_free {name : String} {mode : DeleteMode} {db : Db}
    (hfree : consumerNamed db name = none) :
    deleteConsumer name mode db = .error (.consumerNotFound name) := by
  rw [deleteConsumer, hfree]

/-- The consumers of one identifier are the one that has it. -/
theorem select_any_id {db : Db} {row : ConsumerRow} (hmem : row ∈ db.consumers) (c : ℤ) :
    ((db.consumers.select fun other => other.id == row.id).any fun other => other.id == c) =
      (c == row.id) := by
  rw [Bool.eq_iff_iff, List.any_eq_true, beq_iff_eq]
  constructor
  · intro h
    obtain ⟨other, hother, hid⟩ := h
    have hsame : other.id = row.id := by simpa using (AutoTable.mem_select.mp hother).2
    have hid : other.id = c := by simpa using hid
    exact hid.symm.trans hsame
  · intro h
    exact ⟨row, AutoTable.mem_select.mpr ⟨hmem, by simp⟩, by simp [h]⟩

/-- Without archives left the deletion of a consumer takes its row and its deliveries. -/
theorem deleteConsumers_own {db : Db} {row : ConsumerRow} (hmem : row ∈ db.consumers)
    (archives : AutoTable ArchiveRow ArchiveRow.id) (hfree : ∀ a ∈ archives, a.consumerId ≠ row.id)
    (harchives : archives = db.archives.deleteWhere (fun a => a.consumerId == row.id)) :
    deleteConsumers { db with archives := archives } (fun other => other.id == row.id) =
      .ok (deletedDb db row) := by
  unfold deleteConsumers
  simp only [select_any_id hmem]
  rw [if_neg]
  · rw [harchives]
    rfl
  · intro hany
    obtain ⟨a, ha, hc⟩ := List.any_eq_true.mp hany
    exact hfree a ha (by simpa using hc)

/-- A deletion is refused by a guard, or takes the row and everything it owns. -/
theorem deleteConsumer_eq {name : String} {mode : DeleteMode} {db : Db} {row : ConsumerRow}
    (hrow : consumerNamed db name = some row) :
    deleteConsumer name mode db =
      match deleteRefusal name mode db row with
      | some err => .error err
      | none => .ok (deletedDb db row, ⟨outstandingCount db row, archivedCount db row⟩) := by
  have houtstanding : u64TryFrom (((deliveriesOf db row.id).length : ℤ) +
      ((db.messages.select (awaits row)).length : ℤ)) = .ok (outstandingCount db row) := by
    rw [← Nat.cast_add, u64TryFrom_nat]
    rfl
  have hmem := (consumerNamed_some hrow).1
  have hpurged : ∀ a ∈ db.archives.deleteWhere (fun a => a.consumerId == row.id),
      a.consumerId ≠ row.id := by
    intro a ha
    have hkept := (AutoTable.mem_deleteWhere.mp ha).2
    simpa using hkept
  unfold deleteConsumer
  simp only [hrow, bind, Except.bind, houtstanding, u64TryFrom_nat]
  change (if mode = .drainedOnly ∧ row.drainingAt.isNone then _
    else if mode = .drainedOnly ∧ outstandingCount db row > 0 then _
    else if mode ≠ .discardAll ∧ archivedCount db row > 0 then _ else _) = _
  cases hrefusal : deleteRefusal name mode db row with
  | some err =>
    unfold deleteRefusal at hrefusal
    split_ifs at hrefusal with h₁ h₂ h₃
    · cases hrefusal
      rw [if_pos h₁]
    · cases hrefusal
      rw [if_neg h₁, if_pos h₂]
    · cases hrefusal
      rw [if_neg h₁, if_neg h₂, if_pos h₃]
      rfl
  | none =>
    have hfree := no_archives_of_accepted hrefusal
    unfold deleteRefusal at hrefusal
    split_ifs at hrefusal with h₁ h₂ h₃
    rw [if_neg h₁, if_neg h₂, if_neg h₃]
    by_cases hmode : mode = .discardAll
    · rw [if_pos hmode]
      simp only [deleteArchives]
      rw [deleteConsumers_own hmem _ hpurged rfl]
      rfl
    · rw [if_neg hmode]
      have hkeep : db.archives.deleteWhere (fun a => a.consumerId == row.id) = db.archives :=
        AutoTable.deleteWhere_eq_self fun a ha => by simpa using hfree hmode a ha
      have hdone := deleteConsumers_own hmem db.archives (hfree hmode) hkeep.symm
      have hsame : ({ db with archives := db.archives } : Db) = db := rfl
      rw [hsame] at hdone
      rw [hdone]
      rfl

end Delete

section Retention

/-- The identifiers a prune picks. -/
def prunedIds (db : Db) (prune : Prune) : List ℤ :=
  ((db.messages.select (prunable db prune.beforeMs)).take prune.maxMessages).map Message.id

/-- The database a prune leaves: fewer log entries, everything else as before. -/
def prunedDb (db : Db) (prune : Prune) : Db :=
  { db with
    messages := db.messages.deleteWhere fun message => decide (message.id ∈ prunedIds db prune) }

/-- A pruned entry is old, and nothing refers to it or awaits it. -/
theorem prunable_of_pruned {db : Db} {prune : Prune} {id : ℤ} (h : id ∈ prunedIds db prune) :
    ∃ message ∈ db.messages, message.id = id ∧ message.publishedAtMs < prune.beforeMs ∧
      (∀ d ∈ db.deliveries, d.messageId ≠ id) ∧ (∀ a ∈ db.archives, a.messageId ≠ id) ∧
      ∀ row ∈ db.consumers, awaits row message = false := by
  obtain ⟨message, hmem, rfl⟩ := List.mem_map.mp h
  obtain ⟨hstored, hprunable⟩ := AutoTable.mem_select.mp (List.mem_of_mem_take hmem)
  simp only [prunable, Bool.and_eq_true, Bool.not_eq_true', decide_eq_true_eq, List.any_eq_false,
    beq_iff_eq] at hprunable
  obtain ⟨⟨⟨hold, hdeliveries⟩, harchives⟩, hconsumers⟩ := hprunable
  refine ⟨message, hstored, rfl, hold, hdeliveries, harchives, fun row hrow => ?_⟩
  have hnot := hconsumers row hrow
  simpa using hnot

/-- A prune of nothing prunes nothing. -/
theorem pruneMessages_zero {fan : Inner} {prune : Prune} {db : Db} (h : prune.maxMessages = 0) :
    pruneMessages fan prune db = .ok (db, ⟨0⟩) := by
  rw [pruneMessages, if_pos h]

/-- A prune over the limit is refused. -/
theorem pruneMessages_large {fan : Inner} {prune : Prune} {db : Db}
    (h : fan.maxBatchSize < prune.maxMessages) :
    pruneMessages fan prune db = .error (.batchTooLarge prune.maxMessages fan.maxBatchSize) := by
  rw [pruneMessages, if_neg (by omega), ensureBatchSize_error h]
  rfl

/-- A prune inside the limits is never restricted and cascades to nothing. -/
theorem pruneMessages_eq {fan : Inner} {prune : Prune} {db : Db} (hpos : prune.maxMessages ≠ 0)
    (hle : prune.maxMessages ≤ fan.maxBatchSize) :
    pruneMessages fan prune db =
      .ok (prunedDb db prune,
        ⟨(db.messages.select fun message => decide (message.id ∈ prunedIds db prune)).length⟩) := by
  have hfits : (prune.maxMessages : ℤ) ≤ i64Max := by
    have hmax := fan.maxBatchSize_le
    omega
  have htry : i64TryFrom prune.maxMessages
      (.invalidConfig "prune max_messages must fit in SQLite") =
      .ok (prune.maxMessages : ℤ) := by rw [i64TryFrom, if_pos hfits]
  have hdelete : deleteMessages db (fun message => decide (message.id ∈ prunedIds db prune)) =
      .ok (prunedDb db prune,
        (db.messages.select fun message => decide (message.id ∈ prunedIds db prune)).length) := by
    have hgone : ∀ m ∈ db.messages.select (fun message => decide (message.id ∈ prunedIds db prune)),
        m.id ∈ prunedIds db prune := by
      intro m hm
      simpa using (AutoTable.mem_select.mp hm).2
    have hdeliveries : (db.deliveries.deleteWhere fun d =>
        (db.messages.select fun message => decide (message.id ∈ prunedIds db prune)).any
          fun m => m.id == d.messageId) = db.deliveries := by
      refine Table.deleteWhere_eq_self fun d hd => List.any_eq_false.mpr fun m hm hid => ?_
      obtain ⟨-, -, -, -, hfree, -⟩ := prunable_of_pruned (hgone m hm)
      have hid : m.id = d.messageId := by simpa using hid
      exact hfree d hd hid.symm
    unfold deleteMessages
    rw [if_neg]
    · rw [hdeliveries]
      rfl
    · intro hany
      obtain ⟨a, ha, hrefers⟩ := List.any_eq_true.mp hany
      obtain ⟨m, hm, hid⟩ := List.any_eq_true.mp hrefers
      obtain ⟨-, -, -, -, -, hfree, -⟩ := prunable_of_pruned (hgone m hm)
      have hid : m.id = a.messageId := by simpa using hid
      exact hfree a ha hid.symm
  have hids : ((db.messages.select (prunable db prune.beforeMs)).take prune.maxMessages).map
      Message.id = prunedIds db prune := rfl
  unfold pruneMessages
  rw [if_neg hpos, ensureBatchSize_ok.mpr hle]
  simp only [bind, Except.bind, htry, hids, hdelete]
  rfl

/-- The identifiers an archive purge picks. -/
def purgedIds (db : Db) (c : ℤ) (purge : PurgeArchives) : List ℤ :=
  ((db.archives.select fun a =>
    a.consumerId == c && decide (a.archivedAt < purge.beforeMs)).take purge.maxArchives).map
      ArchiveRow.id

/-- Whether an archive purge deletes a row. -/
def purgedNamed (db : Db) (c : ℤ) (purge : PurgeArchives) (a : ArchiveRow) : Bool :=
  decide (a.id ∈ purgedIds db c purge)

/-- A purged archive is the handle's own and old. -/
theorem purgedNamed_own {db : Db} {c : ℤ} {purge : PurgeArchives} {a : ArchiveRow}
    (ha : a ∈ db.archives) (h : purgedNamed db c purge a = true) :
    a.consumerId = c ∧ a.archivedAt < purge.beforeMs := by
  unfold purgedNamed purgedIds at h
  obtain ⟨b, hb, hid⟩ := List.mem_map.mp (of_decide_eq_true h)
  obtain ⟨hstored, hold⟩ := AutoTable.mem_select.mp (List.mem_of_mem_take hb)
  have hsame : b = a := AutoTable.eq_of_key hstored ha hid
  rw [hsame] at hold
  simpa using hold

/-- A purge of nothing purges nothing. -/
theorem purgeArchives_zero {fan : Inner} {self : Consumer} {purge : PurgeArchives} {db : Db}
    (h : purge.maxArchives = 0) : purgeArchives fan self purge db = .ok (db, ⟨0⟩) := by
  rw [purgeArchives, if_pos h]

/-- A purge over the limit is refused. -/
theorem purgeArchives_large {fan : Inner} {self : Consumer} {purge : PurgeArchives} {db : Db}
    (h : fan.maxBatchSize < purge.maxArchives) :
    purgeArchives fan self purge db =
      .error (.batchTooLarge purge.maxArchives fan.maxBatchSize) := by
  rw [purgeArchives, if_neg (by omega), ensureBatchSize_error h]
  rfl

/-- A purge inside the limits deletes the archives it picks. -/
theorem purgeArchives_eq {fan : Inner} {self : Consumer} {purge : PurgeArchives} {db : Db}
    (hpos : purge.maxArchives ≠ 0) (hle : purge.maxArchives ≤ fan.maxBatchSize) :
    purgeArchives fan self purge db =
      .ok (deleteArchives db (purgedNamed db self.id purge),
        ⟨(db.archives.select (purgedNamed db self.id purge)).length⟩) := by
  have hfits : (purge.maxArchives : ℤ) ≤ i64Max := by
    have hmax := fan.maxBatchSize_le
    omega
  have htry : i64TryFrom purge.maxArchives
      (.invalidConfig "archive purge size must fit in SQLite") =
      .ok (purge.maxArchives : ℤ) := by rw [i64TryFrom, if_pos hfits]
  unfold purgeArchives
  rw [if_neg hpos, ensureBatchSize_ok.mpr hle]
  simp only [bind, Except.bind, htry]
  rfl

end Retention

end LiteFan.Effect

import LiteFan.Effect.Receipts

/-!
# What an archive page shows

Every archive refers to a stored message, so the join to the log drops no row:
a page is the first rows of the consumer beyond the given identifier, each with
its own message, detail and count.
-/

namespace LiteFan.Effect

open LiteFan.Api LiteFan.Time LiteFan.Schema LiteFan.Storage LiteFan.Store LiteFan.Consumer
open LiteFan.Invariant Relational

/-- The archives of a consumer beyond an identifier, in identifier order. -/
def archivesAfter (db : Db) (c after : ℤ) : List ArchiveRow :=
  db.archives.select fun a => a.consumerId == c && decide (after < a.id)

/-- What a page shows of an archive row whose message is stored. -/
def archiveView (db : Db) (a : ArchiveRow) : Option ArchivedDelivery :=
  (db.messages.lookup a.messageId).map fun message =>
    ⟨a.id, message, a.deliveryCount.toNat, a.archivedAt, a.detail⟩

/-- The rows on a page. -/
def pageRows (db : Db) (c : ℤ) (list : ListArchives) : List ArchiveRow :=
  (archivesAfter db c (list.after.getD 0)).take list.maxArchives

theorem mem_archivesAfter {db : Db} {c after : ℤ} {a : ArchiveRow} :
    a ∈ archivesAfter db c after ↔ a ∈ db.archives ∧ a.consumerId = c ∧ after < a.id := by
  simp only [archivesAfter, AutoTable.mem_select, Bool.and_eq_true, beq_iff_eq, decide_eq_true_eq]

theorem archivesAfter_sorted (db : Db) (c after : ℤ) :
    (archivesAfter db c after).Pairwise fun a b => a.id < b.id := Table.select_sorted _ _

/-- Rows that all find their messages are all shown. -/
theorem view_rows (db : Db) (rows : List ArchiveRow) (limit : ℕ)
    (hstored : ∀ a ∈ rows, ∃ message, db.messages.lookup a.messageId = some message)
    (hcount : ∀ a ∈ rows, 0 ≤ a.deliveryCount) :
    ((rows.filterMap fun a => (db.messages.lookup a.messageId).map fun m => (a, m)).take limit).mapM
        (fun pair => archivedDelivery pair.1 pair.2) =
      .ok ((rows.take limit).filterMap (archiveView db)) := by
  induction rows generalizing limit with
  | nil =>
    rw [List.filterMap_nil, List.take_nil, List.take_nil]
    rfl
  | cons a rows ih =>
    obtain ⟨message, hmessage⟩ := hstored a List.mem_cons_self
    have hpair : (a :: rows).filterMap
        (fun a => (db.messages.lookup a.messageId).map fun m => (a, m)) =
        (a, message) :: rows.filterMap fun a =>
          (db.messages.lookup a.messageId).map fun m => (a, m) :=
      List.filterMap_cons_some (by rw [hmessage, Option.map_some])
    have hview : archiveView db a =
        some ⟨a.id, message, a.deliveryCount.toNat, a.archivedAt, a.detail⟩ := by
      rw [archiveView, hmessage, Option.map_some]
    have hread : archivedDelivery a message =
        .ok ⟨a.id, message, a.deliveryCount.toNat, a.archivedAt, a.detail⟩ := by
      simp only [archivedDelivery, u64TryFrom, if_pos (hcount a List.mem_cons_self)]
      rfl
    rw [hpair]
    cases limit with
    | zero => rfl
    | succ limit =>
      have hrest := ih limit (fun b hb => hstored b (List.mem_cons_of_mem _ hb))
        fun b hb => hcount b (List.mem_cons_of_mem _ hb)
      rw [List.take_succ_cons, List.take_succ_cons, List.mapM_cons, List.filterMap_cons_some hview,
        hread, hrest]
      rfl

/-- A page within the limits shows the first rows beyond its start, none dropped. -/
theorem archives_eq {db : Db} (hinv : Inv db) {fan : Inner} {self : Consumer} {list : ListArchives}
    (hpos : list.maxArchives ≠ 0) (hle : list.maxArchives ≤ fan.maxBatchSize) :
    archives fan self list db = .ok ((pageRows db self.id list).filterMap (archiveView db)) := by
  have hfits : (list.maxArchives : ℤ) ≤ i64Max := by
    have hmax := fan.maxBatchSize_le
    omega
  have hrows := view_rows db (archivesAfter db self.id (list.after.getD 0)) list.maxArchives
    (fun a ha => by
      obtain ⟨-, message, -, hmessage, -⟩ := hinv.archive_refers a (mem_archivesAfter.mp ha).1
      exact ⟨message, hmessage⟩)
    fun a ha => (hinv.archive_counts a (mem_archivesAfter.mp ha).1).1
  unfold archives
  rw [if_neg hpos, ensureBatchSize_ok.mpr hle]
  simp only [bind, Except.bind, i64TryFrom, if_pos hfits]
  exact hrows

/-- A page that is listed is empty for want of room, or within the limits. -/
theorem archives_ok {db : Db} (hinv : Inv db) {fan : Inner} {self : Consumer} {list : ListArchives}
    {page : List ArchivedDelivery} (h : archives fan self list db = .ok page) :
    page = (pageRows db self.id list).filterMap (archiveView db) := by
  by_cases hpos : list.maxArchives = 0
  · unfold archives at h
    rw [if_pos hpos] at h
    cases h
    rw [pageRows, hpos, List.take_zero, List.filterMap_nil]
  · by_cases hle : list.maxArchives ≤ fan.maxBatchSize
    · rw [archives_eq hinv hpos hle] at h
      cases h
      rfl
    · unfold archives at h
      rw [if_neg hpos, ensureBatchSize_error (by omega)] at h
      cases h

/-- What a page shows is an archive row of the consumer beyond its start, with its own
message, detail and count. -/
theorem mem_page {db : Db} (hinv : Inv db) {c : ℤ} {list : ListArchives} {shown : ArchivedDelivery}
    (h : shown ∈ (pageRows db c list).filterMap (archiveView db)) :
    ∃ a ∈ db.archives, a.consumerId = c ∧ list.after.getD 0 < a.id ∧ shown.id = a.id ∧
      db.messages.lookup a.messageId = some shown.message ∧
      (shown.deliveryCount : ℤ) = a.deliveryCount ∧ shown.archivedAtMs = a.archivedAt ∧
      shown.detail = a.detail := by
  obtain ⟨a, ha, hview⟩ := List.mem_filterMap.mp h
  obtain ⟨hmem, hc, hbeyond⟩ := mem_archivesAfter.mp (List.mem_of_mem_take ha)
  obtain ⟨message, hmessage, rfl⟩ := Option.map_eq_some_iff.mp hview
  have hcount := (hinv.archive_counts a hmem).1
  exact ⟨a, hmem, hc, hbeyond, rfl, hmessage, Int.toNat_of_nonneg hcount, rfl, rfl⟩

end LiteFan.Effect

import LiteFan.Inbox
import LiteFan.Outstanding

/-!
# What a consumer is owed, message by message

A consumer is owed a message while it has a delivery row of it or has yet to be
given it from the log. For each statement that changes deliveries, archives or
cursors there is one fact about who is owed what afterwards.
-/

namespace LiteFan.Owing

open LiteFan.Api LiteFan.Time LiteFan.Schema LiteFan.Storage LiteFan.Store LiteFan.Consumer
open LiteFan.System LiteFan.Invariant LiteFan.Effect LiteFan.Step LiteFan.Preservation
open LiteFan.Outstanding Relational

/-- The consumer has a delivery row of the message. -/
def Delivered (db : Db) (c m : ℤ) : Prop := ∃ d ∈ db.deliveries, d.consumerId = c ∧ d.messageId = m

/-- The consumer has yet to be given the message from the log. -/
def Awaited (db : Db) (c m : ℤ) : Prop :=
  ∃ row message, db.consumers.lookup c = some row ∧ message ∈ unseen db row ∧ message.id = m

/-- The consumer has an archived copy of the message. -/
def Archived (db : Db) (c m : ℤ) : Prop := ∃ a ∈ db.archives, a.consumerId = c ∧ a.messageId = m

/-- The consumer is owed the message. -/
def Owes (db : Db) (c m : ℤ) : Prop := Delivered db c m ∨ Awaited db c m

section Owed

variable {db db' : Db} {row : ConsumerRow} {c m : ℤ}

/-- What a live consumer is owed is what is outstanding for it. -/
theorem owes_iff_mem (hrow : db.consumers.lookup c = some row) :
    Owes db c m ↔ m ∈ owedIds db row := by
  have hid : row.id = c := (AutoTable.lookup_eq_some.mp hrow).2
  rw [owedIds, List.mem_append, List.mem_map, List.mem_map]
  refine or_congr ?_ ?_
  · constructor
    · rintro ⟨d, hd, hc, hm⟩
      exact ⟨d, mem_deliveriesOf.mpr ⟨hd, hc.trans hid.symm⟩, hm⟩
    · rintro ⟨d, hd, hm⟩
      obtain ⟨hstored, hc⟩ := mem_deliveriesOf.mp hd
      exact ⟨d, hstored, hc.trans hid, hm⟩
  · constructor
    · rintro ⟨other, message, hother, hmem, hm⟩
      obtain rfl := Option.some.inj (hrow.symm.trans hother)
      exact ⟨message, hmem, hm⟩
    · rintro ⟨message, hmem, hm⟩
      exact ⟨row, message, hrow, hmem, hm⟩

/-- Nothing is outstanding exactly when nothing is owed. -/
theorem outstandingCount_zero_iff (hrow : db.consumers.lookup c = some row) :
    outstandingCount db row = 0 ↔ ∀ m, ¬Owes db c m := by
  rw [← length_owedIds, List.length_eq_zero_iff, List.eq_nil_iff_forall_not_mem]
  simp only [owes_iff_mem hrow]

/-- Whoever is owed something is live. -/
theorem live_of_owes (hinv : Inv db) (h : Owes db c m) :
    ∃ row, db.consumers.lookup c = some row := by
  rcases h with ⟨d, hd, rfl, -⟩ | ⟨row, -, hrow, -⟩
  · obtain ⟨row, -, hrow, -⟩ := hinv.delivery_refers d hd
    exact ⟨row, hrow⟩
  · exact ⟨row, hrow⟩

/-- Over the same log with the same row, the same is awaited. -/
theorem awaited_congr (hrow : db'.consumers.lookup c = db.consumers.lookup c)
    (hlog : db'.messages = db.messages) : Awaited db' c m ↔ Awaited db c m := by
  simp only [Awaited, hrow, unseen_congr hlog]

/-- A whole inbox that is kept is owed the same. -/
theorem owes_kept (h : Inbox.Kept c db db') : Owes db' c m ↔ Owes db c m := by
  refine or_congr ?_ ?_
  · have hmem : ∀ d, d ∈ db'.deliveries ∧ d.consumerId = c ↔ d ∈ db.deliveries ∧ d.consumerId = c :=
      fun d => by rw [← mem_deliveriesOf, ← mem_deliveriesOf, h.untouched.deliveries]
    constructor
    · rintro ⟨d, hd, hc, hm⟩
      exact ⟨d, ((hmem d).mp ⟨hd, hc⟩).1, hc, hm⟩
    · rintro ⟨d, hd, hc, hm⟩
      exact ⟨d, ((hmem d).mpr ⟨hd, hc⟩).1, hc, hm⟩
  · have hwaiting := h.waiting
    unfold Inbox.waiting at hwaiting
    unfold Awaited
    rw [h.untouched.row] at hwaiting ⊢
    cases hrow : db.consumers.lookup c with
    | none =>
      refine iff_of_false ?_ ?_ <;> rintro ⟨_, _, hsome, -⟩ <;> cases hsome
    | some row =>
      rw [hrow] at hwaiting
      simp only at hwaiting
      constructor
      · rintro ⟨other, message, hother, hmem, hm⟩
        obtain rfl := Option.some.inj hother
        exact ⟨row, message, rfl, hwaiting ▸ hmem, hm⟩
      · rintro ⟨other, message, hother, hmem, hm⟩
        obtain rfl := Option.some.inj hother
        exact ⟨row, message, rfl, hwaiting.symm ▸ hmem, hm⟩

end Owed

section Claim

variable {db : Db} {row : ConsumerRow} {now deadline : ℤ} {limit : ℕ} {c m : ℤ}

/-- A claim makes deliveries of what its consumer was given from the log. -/
theorem delivered_claimed (hinv : Inv db) (hrow : db.consumers.lookup row.id = some row) :
    Delivered (claimedDb db row now deadline limit) c m ↔ Delivered db c m ∨
      c = row.id ∧ ∃ message ∈ freshMessages db row now limit, message.id = m := by
  constructor
  · rintro ⟨d, hd, rfl, rfl⟩
    rcases (mem_claimedDb hinv hrow).mp hd with ⟨message, hfresh, rfl⟩ | ⟨hstored, -⟩ | ⟨b, hb, rfl⟩
    · exact .inr ⟨rfl, message, hfresh, rfl⟩
    · exact .inl ⟨d, hstored, rfl, rfl⟩
    · exact .inl ⟨b, (mem_selectVisible hb).1, rfl, rfl⟩
  · rintro (⟨d, hd, rfl, rfl⟩ | ⟨rfl, message, hfresh, rfl⟩)
    · by_cases hpicked : d ∈ selectVisible db row.id now limit
      · exact ⟨_, (mem_claimedDb hinv hrow).mpr (.inr (.inr ⟨d, hpicked, rfl⟩)), rfl, rfl⟩
      · exact ⟨d, (mem_claimedDb hinv hrow).mpr (.inr (.inl ⟨hd, hpicked⟩)), rfl, rfl⟩
    · exact ⟨_, (mem_claimedDb hinv hrow).mpr (.inl ⟨message, hfresh, rfl⟩), rfl, rfl⟩

/-- A claim leaves awaited what its consumer was not given. -/
theorem awaited_claimed (hrow : db.consumers.lookup row.id = some row) :
    Awaited (claimedDb db row now deadline limit) c m ↔ Awaited db c m ∧
      ¬(c = row.id ∧ ∃ message ∈ freshMessages db row now limit, message.id = m) := by
  by_cases hc : c = row.id
  · subst hc
    have hself : (claimedDb db row now deadline limit).consumers.lookup row.id =
        some (withCursor (cursorAfter db row now limit) row) := lookup_claimedDb_self hrow
    have hrest : ∀ message, message ∈ unseen (claimedDb db row now deadline limit)
        (withCursor (cursorAfter db row now limit) row) ↔
        message ∈ unseen db row ∧ message ∉ freshMessages db row now limit := by
      intro message
      have hsame : (claimedDb db row now deadline limit).messages = db.messages := rfl
      rw [unseen_congr hsame, mem_unseen_advanced]
    constructor
    · rintro ⟨other, message, hother, hmem, rfl⟩
      obtain rfl := Option.some.inj (hself.symm.trans hother)
      obtain ⟨hunseen, hfresh⟩ := (hrest message).mp hmem
      refine ⟨⟨row, message, hrow, hunseen, rfl⟩, fun hgiven => ?_⟩
      obtain ⟨-, given, hgiven, hsame⟩ := hgiven
      have hlogged := (mem_unseen.mp (mem_unseen_of_fresh hgiven)).1
      obtain rfl := AutoTable.eq_of_key hlogged (mem_unseen.mp hunseen).1 hsame
      exact hfresh hgiven
    · rintro ⟨⟨other, message, hother, hmem, rfl⟩, hnot⟩
      obtain rfl := Option.some.inj (hrow.symm.trans hother)
      exact ⟨_, message, hself,
        (hrest message).mpr ⟨hmem, fun hfresh => hnot ⟨rfl, message, hfresh, rfl⟩⟩, rfl⟩
  · rw [awaited_congr (lookup_claimedDb_other hc) rfl]
    exact (and_iff_left fun hgiven => hc hgiven.1).symm

/-- A claim changes nothing of what anybody is owed. -/
theorem owes_claimed (hinv : Inv db) (hrow : db.consumers.lookup row.id = some row) :
    Owes (claimedDb db row now deadline limit) c m ↔ Owes db c m := by
  rw [Owes, delivered_claimed hinv hrow, awaited_claimed hrow, Owes]
  constructor
  · rintro ((hdelivered | ⟨rfl, message, hfresh, rfl⟩) | ⟨hawaited, -⟩)
    · exact .inl hdelivered
    · exact .inr ⟨row, message, hrow, mem_unseen_of_fresh hfresh, rfl⟩
    · exact .inr hawaited
  · rintro (hdelivered | hawaited)
    · exact .inl (.inl hdelivered)
    · by_cases hgiven : c = row.id ∧ ∃ message ∈ freshMessages db row now limit, message.id = m
      · exact .inl (.inr hgiven)
      · exact .inr ⟨hawaited, hgiven⟩

end Claim

section Batches

variable {db : Db} {own c m : ℤ}

/-- An update that keeps keys changes nothing of what anybody is owed. -/
theorem owes_touched {f : DeliveryRow → DeliveryRow} {hf : ∀ d, (f d).key = d.key}
    {batches : List (List Receipt)} : Owes (touched db own f hf batches) c m ↔ Owes db c m := by
  refine or_congr ?_ Iff.rfl
  have hkey : ∀ d, (touch own f batches d).consumerId = d.consumerId ∧
      (touch own f batches d).messageId = d.messageId :=
    fun d => key_eq_iff.mp (touch_key hf own batches d)
  constructor
  · rintro ⟨d, hd, rfl, rfl⟩
    obtain ⟨b, hb, rfl⟩ := mem_touched.mp hd
    exact ⟨b, hb, (hkey b).1.symm, (hkey b).2.symm⟩
  · rintro ⟨d, hd, rfl, rfl⟩
    exact ⟨_, mem_touched.mpr ⟨d, hd, rfl⟩, hkey d⟩

/-- Removing deliveries leaves those that were not named. -/
theorem delivered_deleted {p : DeliveryRow → Bool} : Delivered (deleteDeliveries db p) c m ↔
    ∃ d ∈ db.deliveries, d.consumerId = c ∧ d.messageId = m ∧ p d = false := by
  constructor
  · rintro ⟨d, hd, hc, hm⟩
    obtain ⟨hstored, hkept⟩ := Table.mem_deleteWhere.mp hd
    exact ⟨d, hstored, hc, hm, hkept⟩
  · rintro ⟨d, hd, hc, hm, hkept⟩
    exact ⟨d, Table.mem_deleteWhere.mpr ⟨hd, hkept⟩, hc, hm⟩

/-- Removing deliveries owes nobody anything new. -/
theorem owes_of_deleted {p : DeliveryRow → Bool} (h : Owes (deleteDeliveries db p) c m) :
    Owes db c m := by
  refine h.imp (fun hdelivered => ?_) id
  obtain ⟨d, hd, hc, hm, -⟩ := delivered_deleted.mp hdelivered
  exact ⟨d, hd, hc, hm⟩

/-- A redrive delivers what the named archives held, and leaves what was delivered. -/
theorem delivered_redriven (hinv : Inv db) {ids : List ℤ} {visibleAt : ℤ} :
    Delivered (redrivenDb db own ids visibleAt) c m ↔ Delivered db c m ∨
      ∃ a ∈ db.archives, a.consumerId = c ∧ a.messageId = m ∧ archiveNamed own ids a = true := by
  constructor
  · rintro ⟨d, hd, rfl, rfl⟩
    rcases (mem_redrivenDb hinv).mp hd with hrestored | hstored
    · obtain ⟨a, ha, hnamed, rfl⟩ := mem_redrivenRows.mp hrestored
      exact .inr ⟨a, ha, (archiveNamed_iff.mp hnamed).1, rfl, hnamed⟩
    · exact .inl ⟨d, hstored, rfl, rfl⟩
  · rintro (⟨d, hd, hc, hm⟩ | ⟨a, ha, hc, hm, hnamed⟩)
    · exact ⟨d, (mem_redrivenDb hinv).mpr (.inr hd), hc, hm⟩
    · refine ⟨_, (mem_redrivenDb hinv).mpr
        (.inl (mem_redrivenRows.mpr ⟨a, ha, hnamed, rfl⟩)), ?_, hm⟩
      exact (archiveNamed_iff.mp hnamed).1.symm.trans hc

/-- An archive batch archives the named deliveries, and leaves what was archived. -/
theorem archived_archived {receipts : List Receipt} {archivedAt : ℤ} {detail : Option String} :
    Archived (archivedDb db own receipts archivedAt detail) c m ↔ Archived db c m ∨
      ∃ d ∈ db.deliveries, d.consumerId = c ∧ d.messageId = m ∧
        pushReceiptPredicate own receipts d = true := by
  constructor
  · rintro ⟨a, ha, rfl, rfl⟩
    rcases mem_archivedDb.mp ha with hstored | ⟨i, lease, hlease, rfl⟩
    · exact .inl ⟨a, hstored, rfl, rfl⟩
    · obtain ⟨d, hd, hnamed, rfl⟩ := mem_archivedLeases.mp (List.mem_of_getElem? hlease)
      exact .inr ⟨d, hd, rfl, rfl, hnamed⟩
  · rintro (⟨a, ha, hc, hm⟩ | ⟨d, hd, rfl, rfl, hnamed⟩)
    · exact ⟨a, mem_archivedDb.mpr (.inl ha), hc, hm⟩
    · obtain ⟨i, hi⟩ := List.mem_iff_getElem?.mp (mem_archivedLeases.mpr ⟨d, hd, hnamed, rfl⟩)
      exact ⟨_, mem_archivedDb.mpr (.inr ⟨i, _, hi, rfl⟩), rfl, rfl⟩

/-- A redrive leaves archived what it did not name. -/
theorem archived_of_redriven {ids : List ℤ} {visibleAt : ℤ}
    (h : Archived (redrivenDb db own ids visibleAt) c m) : Archived db c m := by
  obtain ⟨a, ha, hc, hm⟩ := h
  exact ⟨a, (AutoTable.mem_deleteWhere.mp ha).1, hc, hm⟩

end Batches

end LiteFan.Owing

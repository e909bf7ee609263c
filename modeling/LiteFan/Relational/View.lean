import LiteFan.Relational.AutoTable

/-!
# Views of a table

A view shows every row of a table as something else under the same key. It has
the rows of the table in the same order and hands out the same keys, and each
statement on the table is the matching statement on the view.
-/

namespace Relational

universe u v w

namespace Table

variable {α : Type u} {β : Type w} {κ : Type v} [LinearOrder κ] {key : α → κ} {key' : β → κ}

/-- Show every row of a table under its own key. -/
def view (t : Table α key) (f : α → β) (hf : ∀ a, key' (f a) = key a) : Table β key' :=
  ⟨t.rows.map f, List.pairwise_map.mpr (t.sorted.imp fun h => by rw [hf, hf]; exact h)⟩

variable {f g : α → β} {hf : ∀ a, key' (f a) = key a} {hg : ∀ a, key' (g a) = key a}

@[simp] theorem mem_view {t : Table α key} {b : β} : b ∈ t.view f hf ↔ ∃ a ∈ t, f a = b :=
  List.mem_map

theorem lookup_view (t : Table α key) (k : κ) : (t.view f hf).lookup k = (t.lookup k).map f := by
  unfold lookup view
  rw [List.find?_map]
  congr 2
  funext a
  simp only [Function.comp_apply, hf]

theorem view_congr {t : Table α key} (h : ∀ a ∈ t, f a = g a) : t.view f hf = t.view g hg := by
  have hrows : t.rows.map f = t.rows.map g := List.map_congr_left h
  unfold view
  congr 1

theorem view_deleteWhere {t : Table α key} {p : α → Bool} {q : β → Bool}
    (h : ∀ a ∈ t, q (f a) = p a) : (t.deleteWhere p).view f hf = (t.view f hf).deleteWhere q := by
  refine ext_mem fun b => ?_
  rw [mem_deleteWhere, mem_view, mem_view]
  constructor
  · rintro ⟨a, ha, rfl⟩
    obtain ⟨hmem, hp⟩ := mem_deleteWhere.mp ha
    exact ⟨⟨a, hmem, rfl⟩, (h a hmem).trans hp⟩
  · rintro ⟨⟨a, ha, rfl⟩, hq⟩
    exact ⟨a, mem_deleteWhere.mpr ⟨ha, (h a ha).symm.trans hq⟩, rfl⟩

theorem view_updateWhere {t : Table α key} {p : α → Bool} {u : α → α} {hu : ∀ a, key (u a) = key a}
    {q : β → Bool} {u' : β → β} {hu' : ∀ b, key' (u' b) = key' b}
    (h : ∀ a ∈ t, g (rowUpdate p u a) = rowUpdate q u' (f a)) :
    (t.updateWhere p u hu).view g hg = (t.view f hf).updateWhere q u' hu' := by
  have hrows : (t.rows.map (rowUpdate p u)).map g = (t.rows.map f).map (rowUpdate q u') := by
    rw [List.map_map, List.map_map]
    exact List.map_congr_left h
  unfold updateWhere mapRows view
  congr 1

end Table

namespace AutoTable

variable {α : Type u} {β : Type w} {key : α → ℤ} {key' : β → ℤ}

/-- Show every row of an automatic table under its own key. -/
def view (t : AutoTable α key) (f : α → β) (hf : ∀ a, key' (f a) = key a) : AutoTable β key' where
  table := t.table.view f hf
  seq := t.seq
  seq_nonneg := t.seq_nonneg
  key_pos b hb := by
    obtain ⟨a, ha, rfl⟩ := Table.mem_view.mp hb
    rw [hf]
    exact t.key_pos a ha
  key_le b hb := by
    obtain ⟨a, ha, rfl⟩ := Table.mem_view.mp hb
    rw [hf]
    exact t.key_le a ha

variable {f g : α → β} {hf : ∀ a, key' (f a) = key a} {hg : ∀ a, key' (g a) = key a}

@[simp] theorem view_rows (t : AutoTable α key) :
    (t.view f hf).table.rows = t.table.rows.map f := rfl

theorem mem_view {t : AutoTable α key} {b : β} : b ∈ t.view f hf ↔ ∃ a ∈ t, f a = b :=
  show b ∈ t.table.view f hf ↔ _ from Table.mem_view

theorem lookup_view (t : AutoTable α key) (k : ℤ) :
    (t.view f hf).lookup k = (t.lookup k).map f :=
  show (t.table.view f hf).lookup k = _ from Table.lookup_view t.table k

theorem view_congr {t : AutoTable α key} (h : ∀ a ∈ t, f a = g a) :
    t.view f hf = t.view g hg :=
  ext_table (show t.table.view f hf = t.table.view g hg from Table.view_congr h) rfl

theorem view_bump (t : AutoTable α key) : t.bump.view f hf = (t.view f hf).bump := rfl

theorem view_append {t : AutoTable α key} {mk : ℤ → α} {hmk : ∀ i, key (mk i) = i} {mk' : ℤ → β}
    {hmk' : ∀ i, key' (mk' i) = i} (hnew : f (mk (t.seq + 1)) = mk' (t.seq + 1)) :
    (t.append mk hmk).view f hf = (t.view f hf).append mk' hmk' := by
  refine ext_table (Table.ext_mem fun b => ?_) rfl
  have hleft : b ∈ ((t.append mk hmk).view f hf).table ↔
      ∃ a, (a ∈ t ∨ a = mk (t.seq + 1)) ∧ f a = b := by
    have hview : b ∈ (t.append mk hmk).view f hf ↔ ∃ a ∈ t.append mk hmk, f a = b := mem_view
    simp only [mem_append] at hview
    exact hview
  have hright : b ∈ ((t.view f hf).append mk' hmk').table ↔
      (∃ a ∈ t, f a = b) ∨ b = mk' (t.seq + 1) := by
    refine mem_append.trans (or_congr_left ?_)
    exact mem_view
  rw [hleft, hright]
  constructor
  · rintro ⟨a, ha | rfl, rfl⟩
    · exact .inl ⟨a, ha, rfl⟩
    · exact .inr hnew
  · rintro (⟨a, ha, rfl⟩ | rfl)
    · exact ⟨a, .inl ha, rfl⟩
    · exact ⟨mk (t.seq + 1), .inr rfl, hnew⟩

theorem view_deleteWhere {t : AutoTable α key} {p : α → Bool} {q : β → Bool}
    (h : ∀ a ∈ t, q (f a) = p a) : (t.deleteWhere p).view f hf = (t.view f hf).deleteWhere q :=
  ext_table (show (t.table.deleteWhere p).view f hf = (t.table.view f hf).deleteWhere q from
    Table.view_deleteWhere h) rfl

theorem view_updateWhere {t : AutoTable α key} {p : α → Bool} {u : α → α}
    {hu : ∀ a, key (u a) = key a} {q : β → Bool} {u' : β → β} {hu' : ∀ b, key' (u' b) = key' b}
    (h : ∀ a ∈ t, g (Table.rowUpdate p u a) = Table.rowUpdate q u' (f a)) :
    (t.updateWhere p u hu).view g hg = (t.view f hf).updateWhere q u' hu' :=
  ext_table (show (t.table.updateWhere p u hu).view g hg =
    (t.table.view f hf).updateWhere q u' hu' from Table.view_updateWhere h) rfl

theorem view_rewrite {t : AutoTable α key} {q : β → Bool} {u' : β → β}
    {hu' : ∀ b, key' (u' b) = key' b} (h : ∀ a ∈ t, g a = Table.rowUpdate q u' (f a)) :
    t.view g hg = (t.view f hf).updateWhere q u' hu' := by
  have hsame : t.updateWhere (fun _ => false) (fun a => a) (fun _ => rfl) = t :=
    updateWhere_eq_self fun _ _ _ => rfl
  have hview : (t.updateWhere (fun _ => false) (fun a => a) fun _ => rfl).view g hg =
      (t.view f hf).updateWhere q u' hu' := view_updateWhere h
  rw [← hview, hsame]

end AutoTable

end Relational

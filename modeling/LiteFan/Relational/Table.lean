import Mathlib.Data.List.Sort
import Mathlib.Data.List.Pairwise
import Mathlib.Order.Lex
import Mathlib.Data.Prod.Lex

/-!
# Keyed tables

A table is a list of rows in strictly increasing key order. The order is a
field, so a table with a repeated primary key cannot be built, and two tables
with the same rows are equal. Selection, deletion and update are by predicate;
insertion reports a key that is already there. Every operation is described
by what it does to the lookup of one key and to membership of one row.
-/

namespace Relational

universe u v

/-- Rows in strictly increasing key order. -/
structure Table (α : Type u) {κ : Type v} [LinearOrder κ] (key : α → κ) where
  /-- The stored rows, first key first. -/
  rows : List α
  /-- No key occurs twice, and the rows stand in key order. -/
  sorted : rows.Pairwise fun a b => key a < key b

namespace Table

variable {α : Type u} {κ : Type v} [LinearOrder κ] {key : α → κ}

instance : Membership α (Table α key) := ⟨fun t a => a ∈ t.rows⟩

/-- Membership in a table is membership in its row list. -/
theorem mem_def {t : Table α key} {a : α} : a ∈ t ↔ a ∈ t.rows := Iff.rfl

instance [DecidableEq α] : DecidableEq (Table α key) := fun s t =>
  decidable_of_iff (s.rows = t.rows) ⟨fun h => by cases s; cases t; cases h; rfl, fun h => h ▸ rfl⟩

/-- The table without rows. -/
def empty : Table α key := ⟨[], List.Pairwise.nil⟩

instance : Inhabited (Table α key) := ⟨empty⟩

@[simp] theorem not_mem_empty (a : α) : a ∉ (empty : Table α key) := List.not_mem_nil

/-- Two rows of one table with the same key are the same row. -/
theorem eq_of_key {t : Table α key} {a b : α} (ha : a ∈ t) (hb : b ∈ t) (hk : key a = key b) :
    a = b := by
  by_contra hne
  have hp : t.rows.Pairwise fun x y => key x ≠ key y := t.sorted.imp fun h => h.ne
  have hsymm : Std.Symm fun x y : α => key x ≠ key y := ⟨fun _ _ h => h.symm⟩
  exact hp.forall ha hb hne hk

/-- A table's rows are pairwise different. -/
theorem nodup (t : Table α key) : t.rows.Nodup :=
  t.sorted.imp fun h he => (he ▸ h).false

/-- A table is determined by its rows. -/
theorem ext_mem {s t : Table α key} (h : ∀ a, a ∈ s ↔ a ∈ t) : s = t := by
  have hrows : s.rows = t.rows := by
    have hp : s.rows.Perm t.rows :=
      (List.perm_ext_iff_of_nodup s.nodup t.nodup).mpr h
    exact hp.eq_of_pairwise (fun a b _ _ hab hba => absurd hab hba.not_gt) s.sorted t.sorted
  cases s
  cases t
  cases hrows
  rfl

/-- The row stored under a key. -/
def lookup (t : Table α key) (k : κ) : Option α := t.rows.find? fun a => key a = k

theorem lookup_eq_some {t : Table α key} {k : κ} {a : α} :
    t.lookup k = some a ↔ a ∈ t ∧ key a = k := by
  constructor
  · intro h
    exact ⟨List.mem_of_find?_eq_some h, by simpa using List.find?_some h⟩
  · rintro ⟨ha, hk⟩
    cases hf : t.lookup k with
    | none =>
      have hn := List.find?_eq_none.mp hf a ha
      simp only [hk, decide_true, not_true_eq_false] at hn
    | some b =>
      have hb := List.mem_of_find?_eq_some hf
      have hkb : key b = k := by simpa using List.find?_some hf
      rw [eq_of_key ha hb (hk.trans hkb.symm)]

theorem lookup_eq_none {t : Table α key} {k : κ} : t.lookup k = none ↔ ∀ a ∈ t, key a ≠ k := by
  simp only [lookup, List.find?_eq_none, decide_eq_true_eq]
  exact Iff.rfl

/-- A stored row is found under its own key. -/
theorem lookup_key {t : Table α key} {a : α} (ha : a ∈ t) : t.lookup (key a) = some a :=
  lookup_eq_some.mpr ⟨ha, rfl⟩

/-- A table is determined by its lookups. -/
theorem ext_lookup {s t : Table α key} (h : ∀ k, s.lookup k = t.lookup k) : s = t := by
  refine ext_mem fun a => ⟨fun ha => ?_, fun ha => ?_⟩
  · exact (lookup_eq_some.mp ((h (key a)) ▸ lookup_key ha)).1
  · exact (lookup_eq_some.mp ((h (key a)).symm ▸ lookup_key ha)).1

/-- The rows that satisfy a condition, in key order. -/
def select (t : Table α key) (p : α → Bool) : List α := t.rows.filter p

@[simp] theorem mem_select {t : Table α key} {p : α → Bool} {a : α} :
    a ∈ t.select p ↔ a ∈ t ∧ p a = true := List.mem_filter

theorem select_sorted (t : Table α key) (p : α → Bool) :
    (t.select p).Pairwise fun a b => key a < key b := t.sorted.filter p

theorem select_nodup (t : Table α key) (p : α → Bool) : (t.select p).Nodup := t.nodup.filter p

theorem select_congr {t : Table α key} {p q : α → Bool} (h : ∀ a ∈ t, p a = q a) :
    t.select p = t.select q := List.filter_congr h

/-- Selections with the same members in the same key order are equal. -/
theorem select_eq_of_mem {s t : Table α key} {p q : α → Bool}
    (h : ∀ a, (a ∈ s ∧ p a = true) ↔ (a ∈ t ∧ q a = true)) : s.select p = t.select q := by
  have hp : (s.select p).Perm (t.select q) :=
    (List.perm_ext_iff_of_nodup (s.select_nodup p) (t.select_nodup q)).mpr fun a => by
      simpa only [mem_select] using h a
  exact hp.eq_of_pairwise (fun a b _ _ hab hba => absurd hab hba.not_gt) (s.select_sorted p)
    (t.select_sorted q)

/-- The rows under a list of keys in key order, by looking the keys up one by one. -/
theorem select_keys (t : Table α key) {ks : List κ} (hs : ks.Pairwise (· < ·)) :
    (t.select fun a => decide (key a ∈ ks)) = ks.filterMap t.lookup := by
  have hsorted : (ks.filterMap t.lookup).Pairwise fun a b => key a < key b := by
    refine List.pairwise_filterMap.mpr (hs.imp ?_)
    intro k k' hlt a ha b hb
    rw [(lookup_eq_some.mp ha).2, (lookup_eq_some.mp hb).2]
    exact hlt
  have hnodup : (ks.filterMap t.lookup).Nodup := hsorted.imp fun h he => (he ▸ h).false
  have hp : (t.select fun a => decide (key a ∈ ks)).Perm (ks.filterMap t.lookup) := by
    refine (List.perm_ext_iff_of_nodup (t.select_nodup _) hnodup).mpr fun a => ?_
    simp only [mem_select, decide_eq_true_eq, List.mem_filterMap, lookup_eq_some]
    constructor
    · rintro ⟨ha, hk⟩
      exact ⟨key a, hk, ha, rfl⟩
    · rintro ⟨k, hk, ha, rfl⟩
      exact ⟨ha, hk⟩
  exact hp.eq_of_pairwise (fun a b _ _ hab hba => absurd hab hba.not_gt) (t.select_sorted _) hsorted

/-- At most one row has a key. -/
theorem select_key (t : Table α key) (k : κ) :
    t.select (fun a => decide (key a = k)) = (t.lookup k).toList := by
  have hkeys := t.select_keys (List.pairwise_singleton (· < ·) k)
  simp only [List.mem_singleton, List.filterMap_cons, List.filterMap_nil] at hkeys
  rw [hkeys]
  cases t.lookup k <;> rfl

/-- The rows under the keys of the first rows of a selection are those rows. -/
theorem select_first (t : Table α key) (p : α → Bool) (n : ℕ) :
    (t.select fun a => decide (key a ∈ ((t.select p).take n).map key)) = (t.select p).take n := by
  have hsorted : (((t.select p).take n).map key).Pairwise (· < ·) :=
    List.pairwise_map.mpr ((t.select_sorted p).sublist (List.take_sublist n _))
  have hfound : ∀ a ∈ (t.select p).take n, (t.lookup ∘ key) a = some a := fun a ha =>
    lookup_eq_some.mpr ⟨(mem_select.mp (List.mem_of_mem_take ha)).1, rfl⟩
  rw [select_keys t hsorted, List.filterMap_map, List.filterMap_congr hfound, List.filterMap_some]

/-- Keep the rows that do not satisfy the condition. -/
def deleteWhere (t : Table α key) (p : α → Bool) : Table α key :=
  ⟨t.rows.filter fun a => !p a, t.sorted.filter _⟩

@[simp] theorem mem_deleteWhere {t : Table α key} {p : α → Bool} {a : α} :
    a ∈ t.deleteWhere p ↔ a ∈ t ∧ p a = false := by
  simp only [mem_def, deleteWhere, List.mem_filter, Bool.not_eq_true']

theorem lookup_deleteWhere (t : Table α key) (p : α → Bool) (k : κ) :
    (t.deleteWhere p).lookup k = (t.lookup k).filter fun a => !p a := by
  ext a
  simp only [lookup_eq_some, Option.filter_eq_some_iff, mem_deleteWhere,
    Bool.not_eq_true']
  tauto

/-- Deleting nothing leaves the table as it is. -/
theorem deleteWhere_eq_self {t : Table α key} {p : α → Bool} (h : ∀ a ∈ t, p a = false) :
    t.deleteWhere p = t :=
  ext_mem fun a => by
    rw [mem_deleteWhere]
    exact ⟨And.left, fun ha => ⟨ha, h a ha⟩⟩

theorem deleteWhere_congr {t : Table α key} {p q : α → Bool} (h : ∀ a ∈ t, p a = q a) :
    t.deleteWhere p = t.deleteWhere q :=
  ext_mem fun a => by
    simp only [mem_deleteWhere]
    exact and_congr_right fun ha => by rw [h a ha]

/-- Two deletions in sequence are one. -/
theorem deleteWhere_deleteWhere (t : Table α key) (p q : α → Bool) :
    (t.deleteWhere p).deleteWhere q = t.deleteWhere fun a => p a || q a :=
  ext_mem fun a => by
    simp only [mem_deleteWhere, Bool.or_eq_false_iff, and_assoc]

/-- Selecting by either of two conditions is selecting by the first, then by
the second from what the first leaves. -/
theorem select_or_perm (t : Table α key) (p q : α → Bool) :
    (t.select p ++ (t.deleteWhere p).select q).Perm (t.select fun a => p a || q a) := by
  have hdisjoint : List.Disjoint (t.select p) ((t.deleteWhere p).select q) := by
    intro a ha hb
    have hkept := (mem_deleteWhere.mp (mem_select.mp hb).1).2
    rw [(mem_select.mp ha).2] at hkept
    cases hkept
  have hn : (t.select p ++ (t.deleteWhere p).select q).Nodup :=
    List.nodup_append'.mpr ⟨t.select_nodup p, (t.deleteWhere p).select_nodup q, hdisjoint⟩
  refine (List.perm_ext_iff_of_nodup hn (t.select_nodup _)).mpr fun a => ?_
  simp only [List.mem_append, mem_select, mem_deleteWhere, Bool.or_eq_true]
  cases hp : p a <;> simp

/-- Rewrite every row by a function that keeps its key. -/
def mapRows (t : Table α key) (f : α → α) (hf : ∀ a, key (f a) = key a) : Table α key :=
  ⟨t.rows.map f, List.pairwise_map.mpr (t.sorted.imp fun h => by rw [hf, hf]; exact h)⟩

@[simp] theorem mem_mapRows {t : Table α key} {f : α → α} {hf : ∀ a, key (f a) = key a} {a : α} :
    a ∈ t.mapRows f hf ↔ ∃ b ∈ t, f b = a := List.mem_map

theorem lookup_mapRows (t : Table α key) (f : α → α) (hf : ∀ a, key (f a) = key a) (k : κ) :
    (t.mapRows f hf).lookup k = (t.lookup k).map f := by
  ext a
  simp only [lookup_eq_some, Option.map_eq_some_iff, mem_mapRows]
  constructor
  · rintro ⟨⟨b, hb, rfl⟩, hk⟩
    exact ⟨b, ⟨hb, (hf b).symm.trans hk⟩, rfl⟩
  · rintro ⟨b, ⟨hb, hk⟩, rfl⟩
    exact ⟨⟨b, hb, rfl⟩, (hf b).trans hk⟩

theorem mapRows_mapRows (t : Table α key) (f g : α → α) (hf : ∀ a, key (f a) = key a)
    (hg : ∀ a, key (g a) = key a) :
    (t.mapRows f hf).mapRows g hg = t.mapRows (fun a => g (f a)) fun a => (hg _).trans (hf a) := by
  simp only [mapRows, List.map_map, Function.comp_def]

theorem mapRows_congr {t : Table α key} {f g : α → α} {hf : ∀ a, key (f a) = key a}
    {hg : ∀ a, key (g a) = key a} (h : ∀ a ∈ t, f a = g a) : t.mapRows f hf = t.mapRows g hg := by
  have hm : t.rows.map f = t.rows.map g := List.map_congr_left h
  simp only [mapRows, hm]

/-- The row function of an update: rewrite the rows that satisfy the condition. -/
def rowUpdate (p : α → Bool) (f : α → α) (a : α) : α := if p a then f a else a

omit [LinearOrder κ] in
theorem key_rowUpdate {p : α → Bool} {f : α → α} (hf : ∀ a, key (f a) = key a) (a : α) :
    key (rowUpdate p f a) = key a := by
  unfold rowUpdate
  split
  · exact hf a
  · rfl

/-- Rewrite the rows that satisfy the condition by a function that keeps the key. -/
def updateWhere (t : Table α key) (p : α → Bool) (f : α → α) (hf : ∀ a, key (f a) = key a) :
    Table α key :=
  t.mapRows (rowUpdate p f) (key_rowUpdate hf)

theorem lookup_updateWhere (t : Table α key) (p : α → Bool) (f : α → α)
    (hf : ∀ a, key (f a) = key a) (k : κ) :
    (t.updateWhere p f hf).lookup k = (t.lookup k).map (rowUpdate p f) :=
  lookup_mapRows t _ _ k

theorem mem_updateWhere {t : Table α key} {p : α → Bool} {f : α → α}
    {hf : ∀ a, key (f a) = key a} {a : α} :
    a ∈ t.updateWhere p f hf ↔ (a ∈ t ∧ p a = false) ∨ ∃ b ∈ t, p b = true ∧ f b = a := by
  simp only [updateWhere, mem_mapRows, rowUpdate]
  constructor
  · rintro ⟨b, hb, rfl⟩
    cases hp : p b with
    | false => exact Or.inl (by simpa [hp] using hb)
    | true => exact Or.inr ⟨b, hb, hp, by simp⟩
  · rintro (⟨ha, hp⟩ | ⟨b, hb, hp, rfl⟩)
    · exact ⟨a, ha, by simp [hp]⟩
    · exact ⟨b, hb, by simp [hp]⟩

/-- An update that changes no stored row leaves the table as it is. -/
theorem updateWhere_eq_self {t : Table α key} {p : α → Bool} {f : α → α}
    {hf : ∀ a, key (f a) = key a} (h : ∀ a ∈ t, p a = true → f a = a) :
    t.updateWhere p f hf = t := by
  have hm : t.rows.map (rowUpdate p f) = t.rows := by
    conv_rhs => rw [← List.map_id t.rows]
    refine List.map_congr_left fun a ha => ?_
    unfold rowUpdate
    split
    · exact h a ha (by assumption)
    · rfl
  cases t
  simp only [updateWhere, mapRows, hm]

/-- Put a row before the first stored row with a larger key. -/
def insertRow (key : α → κ) (a : α) : List α → List α
  | [] => [a]
  | b :: rest => if key a < key b then a :: b :: rest else b :: insertRow key a rest

theorem insertRow_perm (a : α) (rows : List α) : (insertRow key a rows).Perm (a :: rows) := by
  induction rows with
  | nil => exact List.Perm.refl _
  | cons b rest ih =>
    unfold insertRow
    split
    · exact List.Perm.refl _
    · exact (ih.cons b).trans (List.Perm.swap a b rest)

theorem insertRow_sorted {a : α} {rows : List α} (hs : rows.Pairwise fun x y => key x < key y)
    (hn : ∀ b ∈ rows, key b ≠ key a) :
    (insertRow key a rows).Pairwise fun x y => key x < key y := by
  induction rows with
  | nil => exact List.pairwise_singleton _ _
  | cons b rest ih =>
    obtain ⟨hb, hrest⟩ := List.pairwise_cons.mp hs
    unfold insertRow
    split
    · rename_i hlt
      refine List.pairwise_cons.mpr ⟨fun x hx => ?_, hs⟩
      rcases List.mem_cons.mp hx with rfl | hx
      · exact hlt
      · exact hlt.trans (hb x hx)
    · rename_i hlt
      have hba : key b < key a :=
        lt_of_le_of_ne (not_lt.mp hlt) (hn b List.mem_cons_self)
      refine List.pairwise_cons.mpr ⟨fun x hx => ?_, ih hrest fun x hx =>
        hn x (List.mem_cons_of_mem _ hx)⟩
      rcases List.mem_cons.mp ((insertRow_perm a rest).mem_iff.mp hx) with rfl | hx
      · exact hba
      · exact hb x hx

/-- Insert a row, unless its key is taken. -/
def insert (t : Table α key) (a : α) : Option (Table α key) :=
  if h : ∀ b ∈ t.rows, key b ≠ key a then
    some ⟨insertRow key a t.rows, insertRow_sorted t.sorted h⟩
  else none

theorem insert_eq_none {t : Table α key} {a : α} :
    t.insert a = none ↔ ∃ b ∈ t, key b = key a := by
  unfold insert
  split
  · rename_i h
    simp only [reduceCtorEq, false_iff, not_exists, not_and]
    exact h
  · rename_i h
    push Not at h
    exact iff_of_true rfl h

/-- A free key is accepted. -/
theorem exists_insert {t : Table α key} {a : α} (h : ∀ b ∈ t, key b ≠ key a) :
    ∃ t', t.insert a = some t' := by
  cases hi : t.insert a with
  | some t' => exact ⟨t', rfl⟩
  | none =>
    obtain ⟨b, hb, hk⟩ := insert_eq_none.mp hi
    exact absurd hk (h b hb)

theorem mem_insert {t t' : Table α key} {a b : α} (h : t.insert a = some t') :
    b ∈ t' ↔ b = a ∨ b ∈ t := by
  unfold insert at h
  split at h
  · cases h
    exact (insertRow_perm a t.rows).mem_iff.trans List.mem_cons
  · cases h

theorem lookup_insert {t t' : Table α key} {a : α} (h : t.insert a = some t') (k : κ) :
    t'.lookup k = if key a = k then some a else t.lookup k := by
  have hfree : ∀ b ∈ t, key b ≠ key a := by
    intro b hb hk
    rw [insert_eq_none.mpr ⟨b, hb, hk⟩] at h
    cases h
  split
  · rename_i hk
    exact lookup_eq_some.mpr ⟨(mem_insert h).mpr (Or.inl rfl), hk⟩
  · rename_i hk
    ext b
    simp only [lookup_eq_some, mem_insert h]
    constructor
    · rintro ⟨rfl | hb, hkb⟩
      · exact absurd hkb hk
      · exact ⟨hb, hkb⟩
    · rintro ⟨hb, hkb⟩
      exact ⟨Or.inr hb, hkb⟩

/-- Insert a row, and leave the table as it is when the key is taken. -/
def insertIgnore (t : Table α key) (a : α) : Table α key := (t.insert a).getD t

theorem lookup_insertIgnore (t : Table α key) (a : α) (k : κ) :
    (t.insertIgnore a).lookup k =
      if key a = k ∧ t.lookup k = none then some a else t.lookup k := by
  unfold insertIgnore
  cases hi : t.insert a with
  | some t' =>
    have hfree : t.lookup (key a) = none := by
      refine lookup_eq_none.mpr fun b hb hk => ?_
      rw [insert_eq_none.mpr ⟨b, hb, hk⟩] at hi
      cases hi
    rw [Option.getD_some, lookup_insert hi]
    by_cases hk : key a = k
    · subst hk
      rw [if_pos rfl, if_pos ⟨rfl, hfree⟩]
    · rw [if_neg hk, if_neg fun h => hk h.1]
  | none =>
    obtain ⟨b, hb, hkb⟩ := insert_eq_none.mp hi
    rw [Option.getD_none, if_neg]
    rintro ⟨rfl, hnone⟩
    exact lookup_eq_none.mp hnone b hb hkb

/-- A free key is stored, and nothing else changes. -/
theorem mem_insertIgnore {t : Table α key} {a b : α} (h : ∀ c ∈ t, key c ≠ key a) :
    b ∈ t.insertIgnore a ↔ b = a ∨ b ∈ t := by
  obtain ⟨t', ht'⟩ := exists_insert h
  have hi : t.insertIgnore a = t' := by rw [insertIgnore, ht', Option.getD_some]
  rw [hi]
  exact mem_insert ht'

/-- Insert rows one after the other, leaving out those whose key is taken. -/
def insertMany (t : Table α key) (rows : List α) : Table α key := rows.foldl insertIgnore t

@[simp] theorem insertMany_nil (t : Table α key) : t.insertMany [] = t := rfl

theorem insertMany_cons (t : Table α key) (a : α) (rows : List α) :
    t.insertMany (a :: rows) = (t.insertIgnore a).insertMany rows := rfl

/-- Free and different keys are all stored. -/
theorem mem_insertMany {t : Table α key} {rows : List α} {b : α}
    (hfree : ∀ a ∈ rows, ∀ c ∈ t, key c ≠ key a) (hn : (rows.map key).Nodup) :
    b ∈ t.insertMany rows ↔ b ∈ rows ∨ b ∈ t := by
  induction rows generalizing t with
  | nil => simp
  | cons a rows ih =>
    obtain ⟨ha, hrest⟩ := List.nodup_cons.mp hn
    have hat : ∀ c ∈ t, key c ≠ key a := hfree a List.mem_cons_self
    have hfree' : ∀ x ∈ rows, ∀ c ∈ t.insertIgnore a, key c ≠ key x := by
      intro x hx c hc
      rcases (mem_insertIgnore hat).mp hc with rfl | hc
      · exact fun he => ha (he ▸ List.mem_map_of_mem hx)
      · exact hfree x (List.mem_cons_of_mem _ hx) c hc
    rw [insertMany_cons, ih hfree' hrest, mem_insertIgnore hat, List.mem_cons]
    tauto

/-- The order in which free and different keys arrive does not matter. -/
theorem insertMany_perm {t : Table α key} {rows rows' : List α} (hp : rows.Perm rows')
    (hfree : ∀ a ∈ rows, ∀ c ∈ t, key c ≠ key a) (hn : (rows.map key).Nodup) :
    t.insertMany rows = t.insertMany rows' := by
  have hfree' : ∀ a ∈ rows', ∀ c ∈ t, key c ≠ key a := fun a ha => hfree a (hp.mem_iff.mpr ha)
  have hn' : (rows'.map key).Nodup := (hp.map key).nodup_iff.mp hn
  refine ext_mem fun b => ?_
  rw [mem_insertMany hfree hn, mem_insertMany hfree' hn', hp.mem_iff]

/-- What is stored under a key after inserting rows: the old row, else the first new one. -/
theorem lookup_insertMany (t : Table α key) (rows : List α) (k : κ) :
    (t.insertMany rows).lookup k = (t.lookup k).or (rows.find? fun a => key a = k) := by
  induction rows generalizing t with
  | nil => rw [insertMany_nil, List.find?_nil, Option.or_none]
  | cons a rows ih =>
    rw [insertMany_cons, ih, lookup_insertIgnore]
    by_cases hk : key a = k
    · cases hl : t.lookup k with
      | none => simp [hk]
      | some b => simp
    · have hno : ¬(key a = k ∧ t.lookup k = none) := fun h => hk h.1
      rw [if_neg hno, List.find?_cons_of_neg (by simpa using hk)]

end Table

end Relational

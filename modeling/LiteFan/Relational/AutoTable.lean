import LiteFan.Relational.Table
import Mathlib.Order.Interval.Set.Defs
import Mathlib.Tactic.Linarith

/-!
# Tables with an automatic primary key

An automatic table pairs a keyed table with the counter its keys are drawn
from. A new row receives the successor of the counter, the counter never
falls, and deleting rows does not give their keys back. The bounds are fields,
so every stored key is positive and was drawn from the counter.
-/

namespace Relational

universe u w

/-- A keyed table whose integer keys are drawn from a counter. -/
structure AutoTable (α : Type u) (key : α → ℤ) where
  /-- The stored rows. -/
  table : Table α key
  /-- The largest key ever handed out, zero before the first. -/
  seq : ℤ
  /-- The counter starts at zero and only grows. -/
  seq_nonneg : 0 ≤ seq
  /-- Keys start at one. -/
  key_pos : ∀ a ∈ table, 0 < key a
  /-- Every stored key was handed out. -/
  key_le : ∀ a ∈ table, key a ≤ seq

namespace AutoTable

variable {α : Type u} {β : Type w} {key : α → ℤ}

instance : Membership α (AutoTable α key) := ⟨fun t a => a ∈ t.table⟩

theorem mem_def {t : AutoTable α key} {a : α} : a ∈ t ↔ a ∈ t.table := Iff.rfl

instance [DecidableEq α] : DecidableEq (AutoTable α key) := fun s t =>
  decidable_of_iff (s.table = t.table ∧ s.seq = t.seq)
    ⟨fun h => by cases s; cases t; obtain ⟨rfl, rfl⟩ := h; rfl, fun h => h ▸ ⟨rfl, rfl⟩⟩

/-- An automatic table is its rows and its counter. -/
theorem ext_table {s t : AutoTable α key} (htable : s.table = t.table) (hseq : s.seq = t.seq) :
    s = t := by
  cases s
  cases t
  cases htable
  cases hseq
  rfl

/-- No rows, and no key handed out. -/
def empty : AutoTable α key where
  table := Table.empty
  seq := 0
  seq_nonneg := le_refl 0
  key_pos _ ha := absurd ha (Table.not_mem_empty _)
  key_le _ ha := absurd ha (Table.not_mem_empty _)

instance : Inhabited (AutoTable α key) := ⟨empty⟩

@[simp] theorem not_mem_empty (a : α) : a ∉ (empty : AutoTable α key) := Table.not_mem_empty a

/-- The rows that satisfy a condition, in key order. -/
def select (t : AutoTable α key) (p : α → Bool) : List α := t.table.select p

@[simp] theorem mem_select {t : AutoTable α key} {p : α → Bool} {a : α} :
    a ∈ t.select p ↔ a ∈ t ∧ p a = true := Table.mem_select

/-- The row stored under a key. -/
def lookup (t : AutoTable α key) (k : ℤ) : Option α := t.table.lookup k

theorem lookup_eq_some {t : AutoTable α key} {k : ℤ} {a : α} :
    t.lookup k = some a ↔ a ∈ t ∧ key a = k := Table.lookup_eq_some

theorem lookup_eq_none {t : AutoTable α key} {k : ℤ} : t.lookup k = none ↔ ∀ a ∈ t, key a ≠ k :=
  Table.lookup_eq_none

theorem lookup_key {t : AutoTable α key} {a : α} (ha : a ∈ t) : t.lookup (key a) = some a :=
  Table.lookup_key ha

/-- Two rows with the same key are the same row. -/
theorem eq_of_key {t : AutoTable α key} {a b : α} (ha : a ∈ t) (hb : b ∈ t) (hk : key a = key b) :
    a = b := Table.eq_of_key ha hb hk

/-- The largest stored key, zero for a table without rows. -/
def maxKey (t : AutoTable α key) : ℤ := (t.table.rows.map key).max?.getD 0

/-- The largest key is zero on the empty table and otherwise some row's key. -/
theorem maxKey_cases (t : AutoTable α key) :
    (t.maxKey = 0 ∧ t.table.rows = []) ∨ ∃ a ∈ t, key a = t.maxKey := by
  unfold maxKey
  cases hm : (t.table.rows.map key).max? with
  | none =>
    have hnil := List.max?_eq_none_iff.mp hm
    exact Or.inl ⟨rfl, List.map_eq_nil_iff.mp hnil⟩
  | some k =>
    obtain ⟨a, ha, hk⟩ := List.mem_map.mp (List.max?_mem hm)
    exact Or.inr ⟨a, ha, hk⟩

/-- No stored key exceeds the largest one. -/
theorem key_le_maxKey {t : AutoTable α key} {a : α} (ha : a ∈ t) : key a ≤ t.maxKey := by
  unfold maxKey
  cases hm : (t.table.rows.map key).max? with
  | none =>
    have hnil := List.map_eq_nil_iff.mp (List.max?_eq_none_iff.mp hm)
    have hin : a ∈ t.table.rows := ha
    rw [hnil] at hin
    exact absurd hin List.not_mem_nil
  | some k => exact (List.max?_le_iff hm).mp (le_refl k) _ (List.mem_map_of_mem ha)

theorem maxKey_nonneg (t : AutoTable α key) : 0 ≤ t.maxKey := by
  rcases t.maxKey_cases with ⟨h, -⟩ | ⟨a, ha, hk⟩
  · exact h.ge
  · exact hk ▸ (t.key_pos a ha).le

/-- Deleting rows may lower the largest stored key, never below the counter's past. -/
theorem maxKey_le_seq (t : AutoTable α key) : t.maxKey ≤ t.seq := by
  rcases t.maxKey_cases with ⟨h, -⟩ | ⟨a, ha, hk⟩
  · exact h ▸ t.seq_nonneg
  · exact hk ▸ t.key_le a ha

/-- Draw a key without storing a row. -/
def bump (t : AutoTable α key) : AutoTable α key where
  table := t.table
  seq := t.seq + 1
  seq_nonneg := by have h := t.seq_nonneg; omega
  key_pos := t.key_pos
  key_le a ha := by have h := t.key_le a ha; omega

/-- Store the row built for the next key. -/
def append (t : AutoTable α key) (mk : ℤ → α) (hmk : ∀ i, key (mk i) = i) : AutoTable α key where
  table :=
    ⟨t.table.rows ++ [mk (t.seq + 1)], by
      refine List.pairwise_append.mpr ⟨t.table.sorted, List.pairwise_singleton _ _, ?_⟩
      intro a ha b hb
      have hle := t.key_le a ha
      rw [List.mem_singleton.mp hb, hmk]
      omega⟩
  seq := t.seq + 1
  seq_nonneg := by have h := t.seq_nonneg; omega
  key_pos a ha := by
    rcases List.mem_append.mp ha with ha | ha
    · exact t.key_pos a ha
    · have h := t.seq_nonneg
      rw [List.mem_singleton.mp ha, hmk]
      omega
  key_le a ha := by
    rcases List.mem_append.mp ha with ha | ha
    · have h := t.key_le a ha
      omega
    · rw [List.mem_singleton.mp ha, hmk]

section Append

variable {mk : ℤ → α} {hmk : ∀ i, key (mk i) = i}

@[simp] theorem append_seq (t : AutoTable α key) : (t.append mk hmk).seq = t.seq + 1 := rfl

theorem append_rows (t : AutoTable α key) :
    (t.append mk hmk).table.rows = t.table.rows ++ [mk (t.seq + 1)] := rfl

theorem mem_append {t : AutoTable α key} {a : α} :
    a ∈ t.append mk hmk ↔ a ∈ t ∨ a = mk (t.seq + 1) := by
  simp only [mem_def, Table.mem_def, append_rows, List.mem_append, List.mem_singleton]

theorem lookup_append (t : AutoTable α key) (k : ℤ) :
    (t.append mk hmk).lookup k = if k = t.seq + 1 then some (mk k) else t.lookup k := by
  split
  · rename_i hk
    exact lookup_eq_some.mpr ⟨mem_append.mpr (Or.inr (hk ▸ rfl)), hmk k⟩
  · rename_i hk
    ext a
    simp only [lookup_eq_some, mem_append]
    constructor
    · rintro ⟨ha | rfl, hka⟩
      · exact ⟨ha, hka⟩
      · exact absurd (hka.symm.trans (hmk _)) hk
    · rintro ⟨ha, hka⟩
      exact ⟨Or.inl ha, hka⟩

end Append

/-- Store one row for each value, in the order given. -/
def appendAll (t : AutoTable α key) (mk : β → ℤ → α) (hmk : ∀ b i, key (mk b i) = i) :
    List β → AutoTable α key
  | [] => t
  | b :: bs => (t.append (mk b) (hmk b)).appendAll mk hmk bs

/-- The keys a store of `n` rows draws, in order. -/
def freshKeys (t : AutoTable α key) (n : ℕ) : List ℤ :=
  (List.range n).map fun i : ℕ => t.seq + 1 + (i : ℤ)

@[simp] theorem length_freshKeys (t : AutoTable α key) (n : ℕ) : (t.freshKeys n).length = n := by
  simp only [freshKeys, List.length_map, List.length_range]

/-- The first of consecutive keys, and those after it. -/
theorem consecutive_succ (seq : ℤ) (n : ℕ) :
    ((List.range (n + 1)).map fun i : ℕ => seq + 1 + (i : ℤ)) =
      (seq + 1) :: (List.range n).map fun i : ℕ => seq + 1 + 1 + (i : ℤ) := by
  simp only [List.range_succ_eq_map, List.map_cons, List.map_map]
  congr 1
  · simp
  · refine List.map_congr_left fun i _ => ?_
    simp only [Function.comp_apply, Nat.succ_eq_add_one, Nat.cast_add, Nat.cast_one]
    omega

theorem freshKeys_succ (t : AutoTable α key) (n : ℕ) (mk : ℤ → α) (hmk : ∀ i, key (mk i) = i) :
    t.freshKeys (n + 1) = (t.seq + 1) :: (t.append mk hmk).freshKeys n :=
  consecutive_succ t.seq n

theorem mem_freshKeys {t : AutoTable α key} {n : ℕ} {k : ℤ} :
    k ∈ t.freshKeys n ↔ t.seq < k ∧ k ≤ t.seq + n := by
  simp only [freshKeys, List.mem_map, List.mem_range]
  constructor
  · rintro ⟨i, hi, rfl⟩
    constructor <;> omega
  · rintro ⟨hlo, hhi⟩
    exact ⟨(k - t.seq - 1).toNat, by omega, by omega⟩

theorem freshKeys_sorted (t : AutoTable α key) (n : ℕ) : (t.freshKeys n).Pairwise (· < ·) := by
  refine List.pairwise_map.mpr (List.pairwise_lt_range.imp fun h => ?_)
  omega

section AppendAll

variable {mk : β → ℤ → α} {hmk : ∀ b i, key (mk b i) = i}

@[simp] theorem appendAll_nil (t : AutoTable α key) : t.appendAll mk hmk [] = t := rfl

theorem appendAll_cons (t : AutoTable α key) (b : β) (bs : List β) :
    t.appendAll mk hmk (b :: bs) = (t.append (mk b) (hmk b)).appendAll mk hmk bs := rfl

theorem appendAll_append (t : AutoTable α key) (bs cs : List β) :
    t.appendAll mk hmk (bs ++ cs) = (t.appendAll mk hmk bs).appendAll mk hmk cs := by
  induction bs generalizing t with
  | nil => rfl
  | cons b bs ih => exact ih (t.append (mk b) (hmk b))

@[simp] theorem appendAll_seq (t : AutoTable α key) (bs : List β) :
    (t.appendAll mk hmk bs).seq = t.seq + bs.length := by
  induction bs generalizing t with
  | nil => simp
  | cons b bs ih =>
    rw [appendAll_cons, ih, append_seq, List.length_cons]
    push_cast
    omega

theorem appendAll_rows (t : AutoTable α key) (bs : List β) :
    (t.appendAll mk hmk bs).table.rows =
      t.table.rows ++ List.zipWith mk bs (t.freshKeys bs.length) := by
  induction bs generalizing t with
  | nil => simp [appendAll, freshKeys]
  | cons b bs ih =>
    rw [appendAll_cons, ih, append_rows, List.length_cons,
      freshKeys_succ t bs.length (mk b) (hmk b)]
    simp only [List.zipWith_cons_cons, List.append_assoc, List.cons_append, List.nil_append]

theorem mem_appendAll {t : AutoTable α key} {bs : List β} {a : α} :
    a ∈ t.appendAll mk hmk bs ↔
      a ∈ t ∨ ∃ i : ℕ, ∃ b, bs[i]? = some b ∧ a = mk b (t.seq + 1 + i) := by
  induction bs generalizing t with
  | nil => simp [appendAll]
  | cons b bs ih =>
    rw [appendAll_cons, ih, mem_append, append_seq, or_assoc]
    refine or_congr_right ⟨?_, ?_⟩
    · rintro (rfl | ⟨i, c, hc, rfl⟩)
      · exact ⟨0, b, rfl, by simp⟩
      · exact ⟨i + 1, c, hc, by push_cast; congr 1; omega⟩
    · rintro ⟨i, c, hc, rfl⟩
      cases i with
      | zero =>
        obtain rfl : b = c := by simpa using hc
        exact Or.inl (by simp)
      | succ i => exact Or.inr ⟨i, c, by simpa using hc, by push_cast; congr 1; omega⟩

/-- The keys of one store and of the next are the keys of both. -/
theorem freshKeys_add (t : AutoTable α key) (bs : List β) (n : ℕ) :
    t.freshKeys bs.length ++ (t.appendAll mk hmk bs).freshKeys n = t.freshKeys (bs.length + n) := by
  induction bs generalizing t with
  | nil => simp [freshKeys]
  | cons b bs ih =>
    have hlen : (b :: bs).length + n = (bs.length + n) + 1 := by
      rw [List.length_cons]
      omega
    rw [hlen, List.length_cons, freshKeys_succ t bs.length (mk b) (hmk b),
      freshKeys_succ t (bs.length + n) (mk b) (hmk b), appendAll_cons, List.cons_append, ih]

/-- Rows stored before keep their place, and new keys exceed every old one. -/
theorem lookup_appendAll_of_le (t : AutoTable α key) (bs : List β) {k : ℤ} (hk : k ≤ t.seq) :
    (t.appendAll mk hmk bs).lookup k = t.lookup k := by
  induction bs generalizing t with
  | nil => rfl
  | cons b bs ih =>
    rw [appendAll_cons, ih _ (by rw [append_seq]; omega), lookup_append, if_neg (by omega)]

end AppendAll

/-- Keep the rows that do not satisfy the condition. -/
def deleteWhere (t : AutoTable α key) (p : α → Bool) : AutoTable α key where
  table := t.table.deleteWhere p
  seq := t.seq
  seq_nonneg := t.seq_nonneg
  key_pos a ha := t.key_pos a (Table.mem_deleteWhere.mp ha).1
  key_le a ha := t.key_le a (Table.mem_deleteWhere.mp ha).1

@[simp] theorem mem_deleteWhere {t : AutoTable α key} {p : α → Bool} {a : α} :
    a ∈ t.deleteWhere p ↔ a ∈ t ∧ p a = false := Table.mem_deleteWhere

theorem lookup_deleteWhere (t : AutoTable α key) (p : α → Bool) (k : ℤ) :
    (t.deleteWhere p).lookup k = (t.lookup k).filter fun a => !p a :=
  Table.lookup_deleteWhere t.table p k

theorem deleteWhere_eq_self {t : AutoTable α key} {p : α → Bool} (h : ∀ a ∈ t, p a = false) :
    t.deleteWhere p = t :=
  ext_table (Table.deleteWhere_eq_self h) rfl

theorem deleteWhere_congr {t : AutoTable α key} {p q : α → Bool} (h : ∀ a ∈ t, p a = q a) :
    t.deleteWhere p = t.deleteWhere q :=
  ext_table (Table.deleteWhere_congr h) rfl

theorem deleteWhere_deleteWhere (t : AutoTable α key) (p q : α → Bool) :
    (t.deleteWhere p).deleteWhere q = t.deleteWhere fun a => p a || q a :=
  ext_table (Table.deleteWhere_deleteWhere t.table p q) rfl

theorem select_or_perm (t : AutoTable α key) (p q : α → Bool) :
    (t.select p ++ (t.deleteWhere p).select q).Perm (t.select fun a => p a || q a) :=
  Table.select_or_perm t.table p q

/-- Rewrite the rows that satisfy the condition by a function that keeps the key. -/
def updateWhere (t : AutoTable α key) (p : α → Bool) (f : α → α) (hf : ∀ a, key (f a) = key a) :
    AutoTable α key where
  table := t.table.updateWhere p f hf
  seq := t.seq
  seq_nonneg := t.seq_nonneg
  key_pos a ha := by
    obtain ⟨b, hb, rfl⟩ := Table.mem_mapRows.mp ha
    rw [Table.key_rowUpdate hf]
    exact t.key_pos b hb
  key_le a ha := by
    obtain ⟨b, hb, rfl⟩ := Table.mem_mapRows.mp ha
    rw [Table.key_rowUpdate hf]
    exact t.key_le b hb

section UpdateWhere

variable {p : α → Bool} {f : α → α} {hf : ∀ a, key (f a) = key a}

/-- Every row after an update is an old row, rewritten or not. -/
theorem mem_updateWhere_rowUpdate {t : AutoTable α key} {a : α} :
    a ∈ t.updateWhere p f hf ↔ ∃ b ∈ t, Table.rowUpdate p f b = a :=
  show a ∈ t.table.mapRows (Table.rowUpdate p f) (Table.key_rowUpdate hf) ↔ _ from Table.mem_mapRows

/-- An update that changes no stored row leaves the table as it is. -/
theorem updateWhere_eq_self {t : AutoTable α key} (h : ∀ a ∈ t, p a = true → f a = a) :
    t.updateWhere p f hf = t :=
  ext_table (show t.table.updateWhere p f hf = t.table from Table.updateWhere_eq_self h) rfl

theorem lookup_updateWhere (t : AutoTable α key) (k : ℤ) :
    (t.updateWhere p f hf).lookup k = (t.lookup k).map (Table.rowUpdate p f) :=
  Table.lookup_updateWhere t.table p f hf k

end UpdateWhere

end AutoTable

end Relational

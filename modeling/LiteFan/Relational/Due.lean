import Mathlib.Data.List.Basic
import Mathlib.Order.Bounds.Basic

/-!
# Counting what is due

Items fall due at a time each. The number that is due grows with time up to the
number of all items, and it grows next at the earliest time that lies ahead.
-/

namespace Relational

universe u v

variable {α : Type u} {κ : Type v} [LinearOrder κ] {time : α → κ} {items : List α} {now later : κ}

/-- How many items are due at a time. -/
def due (time : α → κ) (items : List α) (now : κ) : ℕ :=
  (items.filter fun item => decide (time item ≤ now)).length

/-- Items are due, or they fall due later. -/
theorem due_add_later (time : α → κ) (items : List α) (now : κ) :
    due time items now + (items.filter fun item => decide (now < time item)).length =
      items.length := by
  induction items with
  | nil => rfl
  | cons item items ih =>
    simp only [due, List.filter_cons, List.length_cons] at ih ⊢
    rcases le_or_gt (time item) now with hdue | hlater
    · simp only [hdue, not_lt.mpr hdue, decide_true, decide_false, Bool.false_eq_true, if_true,
        if_false, List.length_cons]
      omega
    · simp only [hlater, not_le.mpr hlater, decide_true, decide_false, Bool.false_eq_true, if_true,
        if_false, List.length_cons]
      omega

/-- No more items are due than there are. -/
theorem due_le_length (time : α → κ) (items : List α) (now : κ) :
    due time items now ≤ items.length := List.length_filter_le _ _

/-- What is due stays due. -/
theorem due_mono (time : α → κ) (items : List α) (h : now ≤ later) :
    due time items now ≤ due time items later := by
  refine (List.monotone_filter_right items fun item hdue => ?_).length_le
  exact decide_eq_true ((of_decide_eq_true hdue).trans h)

/-- More items are due later exactly when one falls due in between. -/
theorem due_lt_iff (h : now ≤ later) : due time items now < due time items later ↔
    ∃ item ∈ items, now < time item ∧ time item ≤ later := by
  induction items with
  | nil => exact iff_of_false (Nat.lt_irrefl 0) (by simp)
  | cons item items ih =>
    have hmono := due_mono time items h
    simp only [due, List.filter_cons, List.mem_cons, exists_eq_or_imp] at ih hmono ⊢
    by_cases hnow : time item ≤ now
    · have hlater := hnow.trans h
      simp only [hnow, hlater, decide_true, if_true, List.length_cons, not_lt.mpr hnow, false_and,
        false_or, ← ih]
      omega
    · by_cases hlater : time item ≤ later
      · simp only [hnow, hlater, decide_true, decide_false, Bool.false_eq_true, if_true, if_false,
          List.length_cons, not_le.mp hnow, true_and, true_or, iff_true]
        omega
      · simp only [hnow, hlater, decide_false, Bool.false_eq_true, if_false, and_false, false_or,
          ih]

/-- The next time something falls due. -/
def nextDue (time : α → κ) (items : List α) (now : κ) : Option κ :=
  ((items.filter fun item => decide (now < time item)).map time).min?

/-- Nothing falls due any more exactly when everything is due. -/
theorem nextDue_eq_none : nextDue time items now = none ↔ due time items now = items.length := by
  have hsum := due_add_later time items now
  rw [nextDue, List.min?_eq_none_iff, List.map_eq_nil_iff, ← List.length_eq_zero_iff]
  omega

/-- The number of due items grows next when the earliest later item falls due. -/
theorem nextDue_eq_some [Std.LawfulOrderMin κ] : nextDue time items now = some later ↔
    IsLeast {t | now < t ∧ due time items now < due time items t} later := by
  have hmem : ∀ t, t ∈ (items.filter fun item => decide (now < time item)).map time ↔
      ∃ item ∈ items, now < time item ∧ time item = t := by
    intro t
    simp only [List.mem_map, List.mem_filter, decide_eq_true_eq, and_assoc]
  rw [nextDue, List.min?_eq_some_iff]
  constructor
  · rintro ⟨hfound, hleast⟩
    obtain ⟨item, hitem, hlater, rfl⟩ := (hmem later).mp hfound
    refine ⟨⟨hlater, (due_lt_iff hlater.le).mpr ⟨item, hitem, hlater, le_rfl⟩⟩, ?_⟩
    rintro t ⟨hlt, hgrows⟩
    obtain ⟨other, hother, hahead, hle⟩ := (due_lt_iff hlt.le).mp hgrows
    exact (hleast _ ((hmem _).mpr ⟨other, hother, hahead, rfl⟩)).trans hle
  · rintro ⟨⟨hlt, hgrows⟩, hleast⟩
    have hafter : ∀ t ∈ (items.filter fun item => decide (now < time item)).map time,
        later ≤ t := by
      intro t ht
      obtain ⟨item, hitem, hahead, rfl⟩ := (hmem t).mp ht
      exact hleast ⟨hahead, (due_lt_iff hahead.le).mpr ⟨item, hitem, hahead, le_rfl⟩⟩
    refine ⟨?_, hafter⟩
    obtain ⟨item, hitem, hahead, hle⟩ := (due_lt_iff hlt.le).mp hgrows
    have hmember := (hmem _).mpr ⟨item, hitem, hahead, rfl⟩
    rwa [le_antisymm hle (hafter _ hmember)] at hmember

end Relational

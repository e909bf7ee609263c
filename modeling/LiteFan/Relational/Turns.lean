import LiteFan.Relational.Batch
import Mathlib.Data.List.Perm.Subperm

/-!
# Taking turns

Items wait in the order of a key and are taken from the front. Whoever is not
taken is behind everyone who was, and its place moves up by as many as were
taken, provided whoever joins or comes back stands behind it.
-/

namespace Relational

universe u v

variable {α : Type u} {κ : Type v} [LinearOrder κ] {key : α → κ} {items later taken : List α}
  {place : κ}

/-- How many items stand in front of a place. -/
def ahead (key : α → κ) (items : List α) (place : κ) : ℕ :=
  items.countP fun item => decide (key item < place)

/-- Whoever is left behind by a batch leaves a full batch of items that stood in front. -/
theorem taken_ahead {a : α} {n : ℕ} (hn : (items.map key).Nodup) (ha : a ∈ items)
    (hleft : a ∉ (sortBy key items).take n) :
    ((sortBy key items).take n).length = n ∧
      ∀ b ∈ (sortBy key items).take n, b ∈ items ∧ key b < key a := by
  have hmem : a ∈ sortBy key items := mem_sortBy.mpr ha
  have hsplit := List.take_append_drop n (sortBy key items)
  have hstrict := sortBy_strict hn
  rw [← hsplit, List.mem_append] at hmem
  rw [← hsplit, List.pairwise_append] at hstrict
  have hdrop : a ∈ (sortBy key items).drop n := hmem.resolve_left hleft
  constructor
  · have hpos : 0 < ((sortBy key items).drop n).length := List.length_pos_of_mem hdrop
    rw [List.length_drop] at hpos
    rw [List.length_take]
    omega
  · intro b hb
    exact ⟨mem_sortBy.mp (List.mem_of_mem_take hb), hstrict.2.2 b hb a hdrop⟩

/-- A place moves up by those taken from in front of it, when nobody comes in front of it. -/
theorem ahead_add_taken (hlater : later.Nodup) (htaken : taken.Nodup)
    (hold : ∀ b ∈ later, key b < place → b ∈ items ∧ b ∉ taken)
    (hfront : ∀ b ∈ taken, b ∈ items ∧ key b < place) :
    ahead key later place + taken.length ≤ ahead key items place := by
  rw [ahead, ahead, List.countP_eq_length_filter, List.countP_eq_length_filter,
    ← List.length_append]
  have hdisjoint : List.Disjoint (later.filter fun item => decide (key item < place)) taken := by
    intro b hb hgone
    obtain ⟨hmem, hlt⟩ := List.mem_filter.mp hb
    exact (hold b hmem (of_decide_eq_true hlt)).2 hgone
  have hnodup := List.nodup_append'.mpr ⟨hlater.filter _, htaken, hdisjoint⟩
  refine (hnodup.subperm fun b hb => ?_).length_le
  rcases List.mem_append.mp hb with hb | hb
  · obtain ⟨hmem, hlt⟩ := List.mem_filter.mp hb
    exact List.mem_filter.mpr ⟨(hold b hmem (of_decide_eq_true hlt)).1, hlt⟩
  · exact List.mem_filter.mpr ⟨(hfront b hb).1, decide_eq_true (hfront b hb).2⟩

end Relational

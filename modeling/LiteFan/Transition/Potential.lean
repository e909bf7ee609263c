import LiteFan.Transition.Run
import Mathlib.Algebra.BigOperators.Group.List.Basic
import Mathlib.Algebra.Order.Monoid.Defs

/-!
# Quantities along a run

A quantity whose every change is entered balances over a run: what it is at the
end and what was taken from it make up what it was at the start and what was
added to it. A quantity that pays for every event bounds what the events of a
run cost together.
-/

namespace Transition

universe u v w

namespace Run

variable {σ : Type u} {ε : Type v} {M : Type w} {S : System σ ε} {s u : σ} {es : List ε}

/-- What an event adds and takes, entered at each event, balances over a run. -/
theorem balance [AddCommMonoid M] {I : σ → Prop} (f : σ → M) (gain loss : ε → M)
    (h : Run S s es u) (h₀ : I s) (hinv : ∀ e, S.valid e → I (S.before e) → I (S.after e))
    (hstep : ∀ e, S.valid e → I (S.before e) →
      f (S.after e) + loss e = f (S.before e) + gain e) :
    f u + (es.map loss).sum = f s + (es.map gain).sum := by
  induction h with
  | nil => rfl
  | @snoc es e hrun hv ih =>
    have hi := hrun.invariant h₀ hinv
    rw [List.map_append, List.map_append, List.sum_append, List.sum_append, List.map_singleton,
      List.map_singleton, List.sum_singleton, List.sum_singleton]
    calc f (S.after e) + ((es.map loss).sum + loss e)
        = f (S.after e) + loss e + (es.map loss).sum := by rw [add_right_comm, add_assoc]
      _ = f (S.before e) + (es.map loss).sum + gain e := by rw [hstep e hv hi, add_right_comm]
      _ = f s + ((es.map gain).sum + gain e) := by rw [ih, add_assoc]

/-- What pays for every event pays for the run, as long as a property lasts that never comes
back once it is lost. -/
theorem spends [AddCommMonoid M] [PartialOrder M] [IsOrderedAddMonoid M] {I P : σ → Prop}
    (f : σ → M) (cost : ε → M) (h : Run S s es u) (h₀ : I s) (hend : P u)
    (hinv : ∀ e, S.valid e → I (S.before e) → I (S.after e))
    (hlasts : ∀ e ∈ es, S.valid e → I (S.before e) → P (S.after e) → P (S.before e))
    (hstep : ∀ e ∈ es, S.valid e → I (S.before e) → P (S.after e) →
      f (S.after e) + cost e ≤ f (S.before e)) :
    f u + (es.map cost).sum ≤ f s := by
  induction h with
  | nil => rw [List.map_nil, List.sum_nil, add_zero]
  | @snoc es e hrun hv ih =>
    have hpast : ∀ e' ∈ es, e' ∈ es ++ [e] := fun _ h => List.mem_append_left _ h
    have hlast : e ∈ es ++ [e] := List.mem_append_right _ (List.mem_singleton_self e)
    have hi := hrun.invariant h₀ hinv
    have hbefore := ih (hlasts e hlast hv hi hend) (fun e' he' => hlasts e' (hpast e' he'))
      fun e' he' => hstep e' (hpast e' he')
    rw [List.map_append, List.sum_append, List.map_singleton, List.sum_singleton]
    calc f (S.after e) + ((es.map cost).sum + cost e)
        = f (S.after e) + cost e + (es.map cost).sum := by rw [add_right_comm, add_assoc]
      _ ≤ f (S.before e) + (es.map cost).sum :=
          add_le_add_left (hstep e hlast hv hi hend) _
      _ ≤ f s := hbefore

end Run

end Transition

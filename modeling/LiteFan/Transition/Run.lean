import Mathlib.Data.List.Induction
import Mathlib.Order.Basic

/-!
# Runs of a transition system

An event records the state it starts from and the state it leaves, and a run
is a list of valid events in which each starts where the last one stopped.
Runs split and join at any event, a preserved property holds in every state
reached, a property that changes along a run changes at some event of it, and
a map that takes valid events to valid events takes runs to runs. The latest
event of a kind divides a list of events into what lies before it and the rest.
-/

namespace Transition

universe u v u' v'

/-- States, events with their two end states, and the events that can happen. -/
structure System (σ : Type u) (ε : Type v) where
  /-- The state an event starts from. -/
  before : ε → σ
  /-- The state an event leaves. -/
  after : ε → σ
  /-- Whether the event can happen. -/
  valid : ε → Prop

/-- A run from one state to another through the listed events. -/
inductive Run {σ : Type u} {ε : Type v} (S : System σ ε) (s : σ) : List ε → σ → Prop
  /-- Nothing has happened yet. -/
  | nil : Run S s [] s
  /-- One more event starts where the run stands. -/
  | snoc {es : List ε} (e : ε) :
      Run S s es (S.before e) → S.valid e → Run S s (es ++ [e]) (S.after e)

namespace Run

variable {σ : Type u} {ε : Type v} {S : System σ ε} {s t u : σ} {es fs : List ε} {e : ε}

/-- A run of one event. -/
theorem single (h : S.valid e) : Run S (S.before e) [e] (S.after e) :=
  show Run S (S.before e) ([] ++ [e]) (S.after e) from snoc e nil h

/-- Runs that meet in a state join. -/
theorem append (h : Run S s es t) (k : Run S t fs u) : Run S s (es ++ fs) u := by
  induction k with
  | nil => simpa only [List.append_nil] using h
  | snoc e _ hv ih =>
    rw [← List.append_assoc]
    exact snoc e ih hv

/-- The last event of a nonempty run. -/
theorem snoc_inv (h : Run S s (es ++ [e]) u) :
    Run S s es (S.before e) ∧ S.valid e ∧ u = S.after e := by
  generalize hl : es ++ [e] = l at h
  cases h with
  | nil => exact absurd hl (by simp)
  | @snoc es' e' hrun hv =>
    obtain ⟨rfl, he⟩ := List.append_inj' hl rfl
    obtain rfl : e = e' := by simpa using he
    exact ⟨hrun, hv, rfl⟩

/-- A run over two lists passes through a state between them. -/
theorem split (h : Run S s (es ++ fs) u) : ∃ t, Run S s es t ∧ Run S t fs u := by
  induction fs using List.reverseRecOn generalizing u with
  | nil => exact ⟨u, by simpa only [List.append_nil] using h, nil⟩
  | append_singleton fs e ih =>
    rw [← List.append_assoc] at h
    obtain ⟨hrun, hv, rfl⟩ := h.snoc_inv
    obtain ⟨t, h₁, h₂⟩ := ih hrun
    exact ⟨t, h₁, snoc e h₂ hv⟩

/-- An empty run stays where it is. -/
theorem nil_inv (h : Run S s [] u) : u = s := by
  generalize hl : ([] : List ε) = l at h
  cases h with
  | nil => rfl
  | snoc e _ _ => exact absurd hl (by simp)

/-- The first event of a nonempty run. -/
theorem cons_inv (h : Run S s (e :: es) u) :
    S.before e = s ∧ S.valid e ∧ Run S (S.after e) es u := by
  have hcons : Run S s ([e] ++ es) u := h
  obtain ⟨t, h₁, h₂⟩ := hcons.split
  have hsingle : Run S s ([] ++ [e]) t := h₁
  obtain ⟨hrun, hv, rfl⟩ := hsingle.snoc_inv
  exact ⟨hrun.nil_inv, hv, h₂⟩

/-- A run around one of its events. -/
theorem around (h : Run S s (es ++ e :: fs) u) :
    Run S s es (S.before e) ∧ S.valid e ∧ Run S (S.after e) fs u := by
  obtain ⟨t, h₁, h₂⟩ := h.split
  obtain ⟨rfl, hv, h₃⟩ := h₂.cons_inv
  exact ⟨h₁, hv, h₃⟩

/-- What every event preserves holds in every state reached. -/
theorem invariant {I : σ → Prop} (h : Run S s es u) (h₀ : I s)
    (hstep : ∀ e, S.valid e → I (S.before e) → I (S.after e)) : I u := by
  induction h with
  | nil => exact h₀
  | snoc e _ hv ih => exact hstep e hv ih

/-- What every event of the run preserves holds at its end; the events may
be constrained by their place in the run. -/
theorem invariant_mem {I : σ → Prop} (h : Run S s es u) (h₀ : I s)
    (hstep : ∀ e ∈ es, S.valid e → I (S.before e) → I (S.after e)) : I u := by
  induction h with
  | nil => exact h₀
  | snoc e _ hv ih =>
    exact hstep e (by simp) hv (ih fun f hf => hstep f (List.mem_append_left _ hf))

/-- What every event of the run preserves under an invariant holds at its end. -/
theorem keeps {I P : σ → Prop} (h : Run S s es u) (h₀ : I s)
    (hinv : ∀ e, S.valid e → I (S.before e) → I (S.after e)) (hp : P s)
    (hstep : ∀ e ∈ es, S.valid e → I (S.before e) → P (S.before e) → P (S.after e)) : P u := by
  have hboth := h.invariant_mem (I := fun s => I s ∧ P s) ⟨h₀, hp⟩
    fun e he hv hi => ⟨hinv e hv hi.1, hstep e he hv hi.1 hi.2⟩
  exact hboth.2

/-- A property gained along a run is gained at one of its events. -/
theorem exists_gain {P : σ → Prop} (h : Run S s es u) (h₀ : ¬P s) (h₁ : P u) :
    ∃ pre e post, es = pre ++ e :: post ∧ ¬P (S.before e) ∧ P (S.after e) := by
  induction h with
  | nil => exact absurd h₁ h₀
  | @snoc es e _ _ ih =>
    by_cases hb : P (S.before e)
    · obtain ⟨pre, e', post, rfl, hn, hp⟩ := ih hb
      exact ⟨pre, e', post ++ [e], by simp, hn, hp⟩
    · exact ⟨es, e, [], rfl, hb, h₁⟩

/-- What the events of a run emit increases over the whole run, when each event
emits increasing values, all above those that are already behind and all behind
after it, and what is behind stays behind. -/
theorem increasing {κ : Type*} [LT κ] {I : σ → Prop} {f : ε → List κ} (behind : σ → κ → Prop)
    (h : Run S s es u) (h₀ : I s) (hinv : ∀ e, S.valid e → I (S.before e) → I (S.after e))
    (hsorted : ∀ e, S.valid e → I (S.before e) → (f e).Pairwise (· < ·))
    (habove : ∀ e, S.valid e → I (S.before e) → ∀ x ∈ f e,
      behind (S.after e) x ∧ ∀ y, behind (S.before e) y → y < x)
    (hstays : ∀ e, S.valid e → I (S.before e) → ∀ x, behind (S.before e) x → behind (S.after e) x) :
    (es.flatMap f).Pairwise (· < ·) ∧ ∀ x ∈ es.flatMap f, behind u x := by
  induction h with
  | nil => exact ⟨List.Pairwise.nil, fun x hx => absurd hx List.not_mem_nil⟩
  | @snoc es e hrun hv ih =>
    have hi := hrun.invariant h₀ hinv
    obtain ⟨hpast, hbehind⟩ := ih
    have hsplit : (es ++ [e]).flatMap f = es.flatMap f ++ f e := by
      rw [List.flatMap_append, List.flatMap_singleton]
    rw [hsplit]
    constructor
    · refine List.pairwise_append.mpr ⟨hpast, hsorted e hv hi, fun x hx y hy => ?_⟩
      exact (habove e hv hi y hy).2 x (hbehind x hx)
    · intro x hx
      rcases List.mem_append.mp hx with hold | hnew
      · exact hstays e hv hi x (hbehind x hold)
      · exact (habove e hv hi x hnew).1

/-- Refinement: a map of states and events that takes each valid event from a
state with the invariant to a valid event takes runs to runs. -/
theorem refine {τ : Type u'} {δ : Type v'} {T : System τ δ} {I : σ → Prop} {f : σ → τ} {g : ε → δ}
    (h : Run S s es u) (h₀ : I s) (hinv : ∀ e, S.valid e → I (S.before e) → I (S.after e))
    (hbefore : ∀ e, T.before (g e) = f (S.before e)) (hafter : ∀ e, T.after (g e) = f (S.after e))
    (hvalid : ∀ e, S.valid e → I (S.before e) → T.valid (g e)) :
    Run T (f s) (es.map g) (f u) := by
  induction h with
  | nil => exact nil
  | snoc e hrun hv ih =>
    have hi := hrun.invariant h₀ hinv
    rw [List.map_append, List.map_singleton, ← hafter]
    exact snoc (g e) ((hbefore e).symm ▸ ih) (hvalid e hv hi)

end Run

section Latest

variable {ε : Type v} {P Q : ε → Prop} {es pre : List ε} {e : ε}

/-- What lies before the latest event of a kind. -/
def Latest (P : ε → Prop) (es pre : List ε) : Prop :=
  ∃ e post, es = pre ++ e :: post ∧ P e ∧ ∀ f ∈ post, ¬P f

/-- An event of the kind is the latest one as it happens. -/
theorem Latest.here (he : P e) : Latest P (es ++ [e]) es :=
  ⟨e, [], rfl, he, fun _ hf => absurd hf List.not_mem_nil⟩

/-- An event of another kind leaves the latest one where it is. -/
theorem Latest.snoc (h : Latest P es pre) (he : ¬P e) : Latest P (es ++ [e]) pre := by
  obtain ⟨first, post, rfl, hfirst, hpost⟩ := h
  refine ⟨first, post ++ [e], by simp only [List.append_assoc, List.cons_append], hfirst, ?_⟩
  intro f hf
  rcases List.mem_append.mp hf with hold | hnew
  · exact hpost f hold
  · rw [List.mem_singleton.mp hnew]
    exact he

/-- What lies before the latest event of a kind is where the list begins. -/
theorem Latest.leads (h : Latest P es pre) : pre <+: es := by
  obtain ⟨e, post, rfl, -, -⟩ := h
  exact List.prefix_append _ _

end Latest

end Transition

import LiteFan.Transition.Run

/-!
# Machines with a step function

A machine takes an action where its step function allows it. Its runs are those
of the transition system whose events are the moves it can make, and a list of
actions that can all be taken in turn gives a run.
-/

namespace Transition

universe u v

/-- One action a machine has taken. -/
structure Move (σ : Type u) (α : Type v) where
  before : σ
  action : α
  after : σ

variable {σ : Type u} {α : Type v} {step : σ → α → Option σ}

/-- The transition system of a step function. -/
def labelled (step : σ → α → Option σ) : System σ (Move σ α) where
  before := Move.before
  after := Move.after
  valid move := step move.before move.action = some move.after

/-- A possible action is a run of one move. -/
theorem labelled_single {s t : σ} {a : α} (h : step s a = some t) :
    Run (labelled step) s [⟨s, a, t⟩] t :=
  .single (S := labelled step) (e := ⟨s, a, t⟩) h

/-- A run goes on with a possible action. -/
theorem labelled_snoc {s t u : σ} {a : α} {moves : List (Move σ α)}
    (hrun : Run (labelled step) s moves t) (h : step t a = some u) :
    Run (labelled step) s (moves ++ [⟨t, a, u⟩]) u :=
  hrun.append (labelled_single h)

/-- The moves of actions taken one after the other, if each is possible. -/
def play (step : σ → α → Option σ) : List α → σ → Option (List (Move σ α) × σ)
  | [], s => some ([], s)
  | a :: actions, s =>
    (step s a).bind fun t =>
      (play step actions t).map fun played => (⟨s, a, t⟩ :: played.1, played.2)

/-- The first action leads on to the rest. -/
theorem play_cons {a : α} {actions : List α} {s u : σ} {moves : List (Move σ α)} :
    play step (a :: actions) s = some (moves, u) ↔ ∃ t rest, step s a = some t ∧
      play step actions t = some (rest, u) ∧ moves = ⟨s, a, t⟩ :: rest := by
  rw [play, Option.bind_eq_some_iff]
  constructor
  · rintro ⟨t, hstep, hrest⟩
    obtain ⟨⟨rest, last⟩, hplay, hmoves⟩ := Option.map_eq_some_iff.mp hrest
    cases hmoves
    exact ⟨t, rest, hstep, hplay, rfl⟩
  · rintro ⟨t, rest, hstep, hplay, rfl⟩
    exact ⟨t, hstep, Option.map_eq_some_iff.mpr ⟨(rest, u), hplay, rfl⟩⟩

/-- Actions taken one after the other are a run, and its moves take them in turn. -/
theorem play_spec {actions : List α} {s t : σ} {moves : List (Move σ α)}
    (h : play step actions s = some (moves, t)) :
    Run (labelled step) s moves t ∧ moves.map Move.action = actions := by
  induction actions generalizing s moves with
  | nil =>
    cases h
    exact ⟨.nil, rfl⟩
  | cons a actions ih =>
    obtain ⟨next, rest, hstep, hplay, rfl⟩ := play_cons.mp h
    obtain ⟨hrun, hactions⟩ := ih hplay
    exact ⟨(labelled_single hstep).append hrun, congrArg (a :: ·) hactions⟩

theorem play_run {actions : List α} {s t : σ} {moves : List (Move σ α)}
    (h : play step actions s = some (moves, t)) : Run (labelled step) s moves t :=
  (play_spec h).1

end Transition

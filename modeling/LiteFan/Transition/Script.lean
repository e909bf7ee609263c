import Mathlib.Data.List.Basic

/-!
# Scripts that many processes run at once

A statement that succeeded once succeeds again and changes nothing, and no
statement of a harmless script undoes another. Then processes that run the
script statement by statement on one shared state, started at any time and
stopped anywhere, behave as one: each that finishes ends as the script ends when
it is run alone, and leaves the state the script leaves alone.
-/

namespace Transition

universe u v

variable {σ : Type u} {ε : Type v}

/-- A statement that can be repeated. -/
structure Statement (σ : Type u) (ε : Type v) where
  run : σ → Except ε σ
  /-- What holds once the statement has succeeded. -/
  done : σ → Prop
  settles : ∀ {s t : σ}, run s = .ok t → done t
  again : ∀ {s : σ}, done s → run s = .ok s

/-- No statement undoes another. -/
def Harmless (script : List (Statement σ ε)) : Prop :=
  ∀ f ∈ script, ∀ g ∈ script, ∀ s t, f.done s → g.run s = .ok t → f.done t

/-- Run the statements one after the other, up to the first that fails. -/
def runAll : List (Statement σ ε) → σ → σ × Except ε Unit
  | [], s => (s, .ok ())
  | f :: rest, s =>
    match f.run s with
    | .error err => (s, .error err)
    | .ok t => runAll rest t

/-- A process on its way through a script. -/
inductive Process (σ : Type u) (ε : Type v) where
  /-- These statements are still to be run. -/
  | running (rest : List (Statement σ ε))
  | finished (result : Except ε Unit)

/-- What one step of a process does to it and to the shared state. -/
def Process.advance (s : σ) : Process σ ε → Option (Process σ ε × σ)
  | .finished _ => none
  | .running [] => some (.finished (.ok ()), s)
  | .running (f :: rest) =>
    match f.run s with
    | .error err => some (.finished (.error err), s)
    | .ok t => some (.running rest, t)

/-- A process starts, or one of them takes a step. -/
inductive Turn where
  | start
  | advance (i : ℕ)

/-- The shared state and the processes. -/
structure Crowd (σ : Type u) (ε : Type v) where
  state : σ
  processes : List (Process σ ε)

/-- One step of the crowd. -/
def Crowd.step (script : List (Statement σ ε)) (crowd : Crowd σ ε) : Turn → Option (Crowd σ ε)
  | .start => some { crowd with processes := crowd.processes ++ [.running script] }
  | .advance i =>
    match crowd.processes[i]? with
    | none => none
    | some process =>
      (process.advance crowd.state).map fun moved => ⟨moved.2, crowd.processes.set i moved.1⟩

section Sequence

variable {script past rest : List (Statement σ ε)} {f : Statement σ ε} {s t : σ}

/-- A script that succeeds goes on with what follows. -/
theorem runAll_append (h : runAll past s = (t, .ok ())) :
    runAll (past ++ rest) s = runAll rest t := by
  induction past generalizing s with
  | nil =>
    cases h
    rfl
  | cons f past ih =>
    rw [List.cons_append, runAll]
    rw [runAll] at h
    cases hrun : f.run s with
    | error err =>
      rw [hrun] at h
      cases h
    | ok next =>
      rw [hrun] at h
      exact ih h

/-- One more statement that succeeds. -/
theorem runAll_snoc {u : σ} (h : runAll past s = (t, .ok ())) (hrun : f.run t = .ok u) :
    runAll (past ++ [f]) s = (u, .ok ()) := by
  rw [runAll_append h, runAll, hrun]
  rfl

/-- A script ends where its next statement fails. -/
theorem runAll_stops {err : ε} (h : runAll past s = (t, .ok ())) (hrun : f.run t = .error err) :
    runAll (past ++ f :: rest) s = (t, .error err) := by
  rw [runAll_append h, runAll, hrun]

/-- What follows a script that fails is not run. -/
theorem runAll_stopped {err : ε} (h : runAll past s = (t, .error err)) :
    runAll (past ++ rest) s = (t, .error err) := by
  induction past generalizing s with
  | nil => cases h
  | cons f past ih =>
    rw [List.cons_append, runAll]
    rw [runAll] at h
    cases hrun : f.run s with
    | error _ =>
      rw [hrun] at h
      exact h
    | ok next =>
      rw [hrun] at h
      exact ih h

/-- Where every statement has had its effect, the script does nothing. -/
theorem runAll_again (h : ∀ f ∈ script, f.done s) : runAll script s = (s, .ok ()) := by
  induction script with
  | nil => rfl
  | cons f script ih =>
    rw [runAll, f.again (h f List.mem_cons_self)]
    exact ih fun g hg => h g (List.mem_cons_of_mem f hg)

/-- What every statement keeps, the script keeps. -/
theorem runAll_keeps (P : σ → Prop) (h : P s)
    (hstep : ∀ f ∈ script, ∀ s t, P s → f.run s = .ok t → P t) : P (runAll script s).1 := by
  induction script generalizing s with
  | nil => exact h
  | cons f script ih =>
    rw [runAll]
    cases hrun : f.run s with
    | error err => exact h
    | ok t =>
      exact ih (hstep f List.mem_cons_self s t h hrun) fun g hg =>
        hstep g (List.mem_cons_of_mem f hg)

end Sequence

/-- How a process stands to the statements that have taken effect and those ahead of them. -/
def Follows (past ahead : List (Statement σ ε)) (s : σ) : Process σ ε → Prop
  | .running rest => ∃ before after, past = before ++ after ∧ rest = after ++ ahead
  | .finished (.ok _) => ahead = []
  | .finished (.error err) => ∃ f rest, ahead = f :: rest ∧ f.run s = .error err

/-- Some statements have taken effect as in a run alone, others are ahead, and every process
follows. -/
structure Abreast (past ahead : List (Statement σ ε)) (s : σ) (crowd : Crowd σ ε) : Prop where
  ran : runAll past s = (crowd.state, .ok ())
  done : ∀ f ∈ past, f.done crowd.state
  follows : ∀ process ∈ crowd.processes, Follows past ahead crowd.state process

section Crowds

variable {past ahead : List (Statement σ ε)} {s t : σ} {crowd crowd' : Crowd σ ε}

/-- A process may be replaced by one that follows too. -/
theorem Abreast.replace (h : Abreast past ahead s crowd) {i : ℕ} {process : Process σ ε}
    (hfollows : Follows past ahead crowd.state process) :
    Abreast past ahead s ⟨crowd.state, crowd.processes.set i process⟩ where
  ran := h.ran
  done := h.done
  follows other hother := by
    rcases List.mem_or_eq_of_mem_set hother with hold | rfl
    · exact h.follows other hold
    · exact hfollows

/-- When the next statement takes effect, every other process still follows. -/
theorem Follows.pushed {f : Statement σ ε} {process : Process σ ε}
    (h : Follows past (f :: ahead) s process) (hrun : f.run s = .ok t) :
    Follows (past ++ [f]) ahead t process := by
  cases process with
  | running rest =>
    obtain ⟨before, after, rfl, rfl⟩ := h
    exact ⟨before, after ++ [f], by simp, by simp⟩
  | finished result =>
    cases result with
    | ok _ => cases h
    | error err =>
      obtain ⟨g, rest, hnext, hfails⟩ := h
      cases hnext
      rw [hrun] at hfails
      cases hfails

/-- A process that is behind repeats a statement; one in front runs the next. -/
theorem Abreast.step (hharmless : Harmless (past ++ ahead)) (h : Abreast past ahead s crowd)
    {turn : Turn} (hstep : crowd.step (past ++ ahead) turn = some crowd') :
    ∃ past' ahead', past' ++ ahead' = past ++ ahead ∧ Abreast past' ahead' s crowd' := by
  cases turn with
  | start =>
    cases hstep
    refine ⟨past, ahead, rfl, h.ran, h.done, fun process hprocess => ?_⟩
    rcases List.mem_append.mp hprocess with hold | hnew
    · exact h.follows process hold
    · rw [List.mem_singleton.mp hnew]
      exact ⟨[], past, rfl, rfl⟩
  | advance i =>
    obtain ⟨process, hprocess, moved, hmoved, rfl⟩ : ∃ process, crowd.processes[i]? = some process ∧
        ∃ moved, process.advance crowd.state = some moved ∧
          crowd' = ⟨moved.2, crowd.processes.set i moved.1⟩ := by
      rw [Crowd.step] at hstep
      cases hprocess : crowd.processes[i]? with
      | none =>
        rw [hprocess] at hstep
        cases hstep
      | some process =>
        rw [hprocess] at hstep
        obtain ⟨moved, hmoved, hcrowd⟩ := Option.map_eq_some_iff.mp hstep
        exact ⟨process, rfl, moved, hmoved, hcrowd.symm⟩
    have hfollows := h.follows process (List.mem_of_getElem? hprocess)
    cases process with
    | finished result => cases hmoved
    | running todo =>
      obtain ⟨before, after, hpast, htodo⟩ := hfollows
      cases after with
      | nil =>
        rw [htodo, List.nil_append] at hmoved
        cases ahead with
        | nil =>
          cases hmoved
          exact ⟨past, [], rfl, h.replace rfl⟩
        | cons f ahead =>
          cases hrun : f.run crowd.state with
          | error err =>
            simp only [Process.advance, hrun] at hmoved
            cases hmoved
            exact ⟨past, f :: ahead, rfl, h.replace ⟨f, ahead, rfl, hrun⟩⟩
          | ok next =>
            simp only [Process.advance, hrun] at hmoved
            cases hmoved
            refine ⟨past ++ [f], ahead, by simp, runAll_snoc h.ran hrun, ?_, ?_⟩
            · intro g hg
              rcases List.mem_append.mp hg with hold | hnew
              · exact hharmless g (List.mem_append_left _ hold) f (by simp) _ _ (h.done g hold) hrun
              · rw [List.mem_singleton.mp hnew]
                exact f.settles hrun
            · intro other hother
              rcases List.mem_or_eq_of_mem_set hother with hold | rfl
              · exact (h.follows other hold).pushed hrun
              · exact ⟨past ++ [f], [], by simp, rfl⟩
      | cons f after =>
        subst htodo
        have hagain := f.again (h.done f (by simp [hpast]))
        simp only [List.cons_append, Process.advance, hagain] at hmoved
        cases hmoved
        exact ⟨past, ahead, rfl, h.replace ⟨before ++ [f], after, by simp [hpast], rfl⟩⟩

end Crowds

end Transition

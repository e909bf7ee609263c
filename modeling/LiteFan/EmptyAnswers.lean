import LiteFan.LeaseClock
import LiteFan.PollAnswers
import LiteFan.Polling

/-!
# What an empty answer means

A poll that returns nothing has looked: in its last round there was a moment at
which nothing was due to the consumer, by the reading of that round. It has then
seen its deadline pass, or the consumer exhausted. It never sleeps past its
deadline, and once it has seen that pass it makes no further claim.
-/

namespace LiteFan.EmptyAnswers

open LiteFan.Api LiteFan.Time LiteFan.Schema LiteFan.Storage LiteFan.Store LiteFan.Consumer
open LiteFan.System LiteFan.Invariant LiteFan.Effect LiteFan.Step LiteFan.Preservation
open LiteFan.PollAnswers Relational
open LiteFan.LeaseClock (Due claimed_empty_iff)
open LiteFan.Polling (Exhausted exhausted_of_state pollVerdict_empty)

/-- The move begins a round. -/
def Begins (move : Move) : Prop := ∃ sinceEpoch, move.action = .readClock sinceEpoch

/-- The move belongs to the last round of the moves. -/
def InLastRound (moves : List Move) (move : Move) : Prop :=
  ∃ before after, moves = before ++ move :: after ∧ ∀ later ∈ after, ¬Begins later

/-- A claim looks for work by the reading of its round: in its check, or in its transaction. -/
def LooksAt (now : ℤ) (move : Move) : Prop :=
  (∃ deadline, move.before.stage = .clockRead deadline now ∧ move.action = .check) ∨
    ∃ deadline e, move.before.stage = .workFound deadline now ∧ move.action = .write e

/-- The last claim looked at a moment at which nothing was due. -/
def Looked (handle : Consumer) (moves : List Move) : Prop :=
  ∃ move now, InLastRound moves move ∧ LooksAt now move ∧ ¬Due move.before.db handle.id now

/-- The last claim read a consumer that was draining and had nothing left. -/
def SawExhausted (handle : Consumer) (moves : List Move) : Prop :=
  ∃ move, InLastRound moves move ∧ (move.action = .check ∨ move.action = .reread) ∧
    Exhausted move.before.db handle.id

/-- The deadline had passed when the last round ended. -/
def TimedOut (deadline : ℕ) (moves : List Move) : Prop :=
  ∃ move instant sinceEpoch, InLastRound moves move ∧
    move.action = .wait instant sinceEpoch ∧ deadline ≤ instant

/-- The deadline a started poll carries is its own. -/
def Timed (deadline : ℕ) : Stage → Prop
  | .called => False
  | .looping limit | .clockRead limit _ | .workFound limit _ | .written limit _ _
  | .claimed limit _ | .waiting limit _ => limit = deadline
  | .returned _ => True

/-- What is known of a poll that has been asked for something. -/
def Explained (handle : Consumer) (deadline : ℕ) (moves : List Move) : Stage → Prop
  | .written _ _ granted => granted.deliveries = [] → Looked handle moves
  | .claimed _ found =>
    (found.deliveries = [] → Looked handle moves) ∧
      (pollVerdict found = some [] → SawExhausted handle moves)
  | .returned (.ok []) =>
    Looked handle moves ∧ (TimedOut deadline moves ∨ SawExhausted handle moves)
  | _ => True

/-- A wait past the deadline is the last, and no other sleeps past it. -/
def Bounded (deadline : ℕ) (move : Move) : Prop :=
  ∀ instant sinceEpoch, move.action = .wait instant sinceEpoch →
    (deadline ≤ instant → ∃ result, move.after.stage = .returned result) ∧
    ∀ limit sleep, move.after.stage = .waiting limit sleep → instant + sleep ≤ deadline

section Rounds

variable {handle : Consumer} {deadline : ℕ} {moves : List Move} {move : Move}

/-- The last move belongs to the last round. -/
theorem inLastRound_last : InLastRound (moves ++ [move]) move :=
  ⟨moves, [], rfl, fun _ h => absurd h List.not_mem_nil⟩

/-- The last round goes on while no other begins. -/
theorem InLastRound.snoc {next : Move} (h : InLastRound moves move) (hnext : ¬Begins next) :
    InLastRound (moves ++ [next]) move := by
  obtain ⟨before, after, rfl, hafter⟩ := h
  refine ⟨before, after ++ [next], by simp, fun later hlater => ?_⟩
  rcases List.mem_append.mp hlater with hold | hnew
  · exact hafter later hold
  · rw [List.mem_singleton.mp hnew]
    exact hnext

theorem Looked.snoc {next : Move} (h : Looked handle moves) (hnext : ¬Begins next) :
    Looked handle (moves ++ [next]) := by
  obtain ⟨move, now, hround, hlooks, hnothing⟩ := h
  exact ⟨move, now, hround.snoc hnext, hlooks, hnothing⟩

theorem SawExhausted.snoc {next : Move} (h : SawExhausted handle moves) (hnext : ¬Begins next) :
    SawExhausted handle (moves ++ [next]) := by
  obtain ⟨move, hround, hreads, hexhausted⟩ := h
  exact ⟨move, hround.snoc hnext, hreads, hexhausted⟩

theorem TimedOut.snoc {next : Move} (h : TimedOut deadline moves) (hnext : ¬Begins next) :
    TimedOut deadline (moves ++ [next]) := by
  obtain ⟨move, instant, sinceEpoch, hround, haction, hle⟩ := h
  exact ⟨move, instant, sinceEpoch, hround.snoc hnext, haction, hle⟩

/-- What is known of a poll stays known while others commit. -/
theorem Explained.snoc {stage : Stage} {next : Move} (h : Explained handle deadline moves stage)
    (hnext : ¬Begins next) : Explained handle deadline (moves ++ [next]) stage := by
  cases stage with
  | called => exact trivial
  | looping limit => exact trivial
  | clockRead limit now => exact trivial
  | workFound limit now => exact trivial
  | waiting limit sleep => exact trivial
  | written limit now granted => exact fun hempty => (h hempty).snoc hnext
  | claimed limit found =>
    exact ⟨fun hempty => (h.1 hempty).snoc hnext, fun hverdict => (h.2 hverdict).snoc hnext⟩
  | returned result =>
    cases result with
    | error err => exact trivial
    | ok deliveries =>
      cases deliveries with
      | cons delivery deliveries => exact trivial
      | nil =>
        obtain ⟨hlooked, hend⟩ := h
        exact ⟨hlooked.snoc hnext, hend.imp (·.snoc hnext) (·.snoc hnext)⟩

end Rounds

section Reads

variable {self : Consumer} {db : Db} {now : ℤ}

/-- A check that completes the claim found nothing due, and shows a consumer that has nothing
left if that is the verdict. -/
theorem check_nothing (hinv : Inv db) {early : Claim}
    (h : claimCheck self now db = .ok (some early)) :
    ¬Due db self.id now ∧ (pollVerdict early = some [] → Exhausted db self.id) := by
  cases hrow : db.consumers.lookup self.id with
  | none =>
    rw [claimCheck, claimState, hrow] at h
    cases h
  | some row =>
    have hid : row.id = self.id := (AutoTable.lookup_eq_some.mp hrow).2
    by_cases hnothing : Nothing db row now
    · rw [(claimCheck_eq hrow).1 hnothing] at h
      cases h
      refine ⟨?_, fun hverdict => ?_⟩
      · obtain ⟨-, hnone⟩ := claimed_of_nothing (hid ▸ hrow) hnothing 0 1
        exact hid ▸ (claimed_empty_iff hinv (hid ▸ hrow) 0 Nat.one_pos).mp hnone
      · obtain ⟨-, hdraining, hnext⟩ := pollVerdict_empty hverdict
        exact exhausted_of_state hinv hrow hdraining hnext hnothing.2
    · rw [(claimCheck_eq hrow).2 hnothing] at h
      cases h

/-- A closing read shows a consumer that has nothing left if that is the verdict. -/
theorem reread_exhausted (hinv : Inv db) {granted : Granted} {found : Claim}
    (h : claimReread self now granted db = .ok found) (hverdict : pollVerdict found = some []) :
    Exhausted db self.id := by
  obtain ⟨hnone, hdraining, hnext⟩ := pollVerdict_empty hverdict
  unfold claimReread at h
  by_cases hempty : granted.deliveries.isEmpty = true
  · rw [if_pos hempty] at h
    cases hrow : db.consumers.lookup self.id with
    | none =>
      rw [claimState, hrow] at h
      cases h
    | some row =>
      rw [claimState_eq hrow] at h
      cases h
      by_cases hmore : (stateOf db row).scanCursor < (stateOf db row).scanLimit
      · simp only [if_pos hmore] at hnext
        cases hnext
      · simp only [if_neg hmore] at hnext
        exact exhausted_of_state hinv hrow hdraining hnext (not_lt.mp hmore)
  · rw [if_neg hempty] at h
    cases h
    exact absurd (List.isEmpty_iff.mpr hnone) hempty

/-- A transaction that leased nothing found nothing due. -/
theorem write_nothing (hinv : Inv db) {e : Engine} {fan : Inner} {options : Poll} {db' : Db}
    {granted : Granted} (hpos : options.maxMessages ≠ 0)
    (h : pollCommit e fan self options now db = (db', .ok granted))
    (hempty : granted.deliveries = []) : ¬Due db self.id now := by
  have heffect := @effect_claim fan db e hinv self options now
  rw [h] at heffect
  change Effect fan db (.claim self options now) db' (.ok (.granted granted)) at heffect
  cases heffect with
  | idle hidle => exact absurd hidle.1 hpos
  | granted _ hid hrow _ =>
    rw [hid]
    exact (claimed_empty_iff hinv hrow _ (Nat.pos_of_ne_zero hpos)).mp hempty

end Reads

section Steps

variable {fan : Inner} {self : Consumer} {options : Poll} {deadline : ℕ} {db : Db} {stage : Stage}
  {action : Action} {after : State} {moves : List Move}

/-- A verdict that waits comes of a claim without deliveries. -/
theorem empty_of_waits {found : Claim} (h : pollVerdict found = none) : found.deliveries = [] := by
  unfold pollVerdict at h
  split_ifs at h with hsome
  all_goals simpa using hsome

/-- A poll sleeps no longer than it has left. -/
theorem sleepFor_le (remaining : Duration) (next : Option ℤ) (now : ℤ) :
    sleepFor fan remaining next now ≤ remaining := by
  unfold sleepFor
  cases next with
  | none => exact min_le_left _ _
  | some visibleAt => exact (min_le_left _ _).trans (min_le_left _ _)

/-- The end of a round returns past the deadline, and sleeps no further than that. -/
theorem waited_bounded {instant : ℕ} {sinceEpoch : Option Duration} {found : Claim} :
    (deadline ≤ instant → ∃ result,
      waited fan deadline instant sinceEpoch found = .returned result) ∧
    ∀ limit sleep, waited fan deadline instant sinceEpoch found = .waiting limit sleep →
      instant + sleep ≤ deadline := by
  have hsleep (next : Option ℤ) (now : ℤ) :
      sleepFor fan (deadline - instant) next now ≤ deadline - instant :=
    sleepFor_le (deadline - instant) next now
  unfold waited
  cases hverdict : pollVerdict found with
  | some deliveries => exact ⟨fun _ => ⟨_, rfl⟩, fun limit sleep h => by cases h⟩
  | none =>
    by_cases hpassed : deadline - instant = 0
    · simp only [if_pos hpassed]
      exact ⟨fun _ => ⟨_, rfl⟩, fun limit sleep h => by cases h⟩
    · have hahead : instant ≤ deadline := by omega
      simp only [if_neg hpassed]
      refine ⟨fun hle => absurd (Nat.sub_eq_zero_of_le hle) hpassed, fun limit sleep h => ?_⟩
      cases hnext : found.nextVisibleAt with
      | none =>
        rw [hnext] at h
        cases h
        exact Nat.add_le_of_le_sub' hahead (hsleep none 0)
      | some visibleAt =>
        rw [hnext] at h
        cases hnow : nowMs sinceEpoch with
        | error err =>
          rw [hnow] at h
          cases h
        | ok now =>
          rw [hnow] at h
          cases h
          exact Nat.add_le_of_le_sub' hahead (hsleep (some visibleAt) now)

/-- A result that is in time goes on in time. -/
theorem timed_onward {α : Type} {next : α → Stage} (hnext : ∀ found, Timed deadline (next found))
    (result : Except Error α) : Timed deadline (onward next result) := by
  cases result with
  | error err => exact trivial
  | ok found => exact hnext found

/-- A round ends with the deadline it began with. -/
theorem timed_waited (instant : ℕ) (sinceEpoch : Option Duration) (found : Claim) :
    Timed deadline (waited fan deadline instant sinceEpoch found) := by
  unfold waited
  cases pollVerdict found with
  | some deliveries => exact trivial
  | none =>
    by_cases hpassed : deadline - instant = 0
    · rw [if_pos hpassed]
      exact trivial
    · simp only [if_neg hpassed]
      cases found.nextVisibleAt with
      | none => exact rfl
      | some visibleAt =>
        refine timed_onward (fun now => ?_) _
        exact rfl

/-- Every step of a poll keeps its deadline, and waits no longer than it may. -/
theorem timed_step (hstep : step fan self options ⟨db, stage⟩ action = some after)
    (h : Timed deadline stage) :
    Timed deadline after.stage ∧ Bounded deadline ⟨⟨db, stage⟩, action, after⟩ := by
  unfold step at hstep
  split at hstep
  · next e other op =>
    obtain rfl := Option.some.inj hstep
    exact ⟨h, fun _ _ haction => by cases haction⟩
  · next instantMax started hstage =>
    obtain rfl : stage = .called := hstage
    exact h.elim
  · next limit sinceEpoch hstage =>
    obtain rfl : stage = .looping limit := hstage
    obtain rfl := Option.some.inj hstep
    refine ⟨timed_onward (fun _ => ?_) _, fun _ _ haction => by cases haction⟩
    exact h
  · next limit now hstage =>
    obtain rfl : stage = .clockRead limit now := hstage
    obtain rfl := Option.some.inj hstep
    refine ⟨timed_onward (fun found => ?_) _, fun _ _ haction => by cases haction⟩
    cases found <;> exact h
  · next limit now e hstage =>
    obtain rfl : stage = .workFound limit now := hstage
    obtain rfl := Option.some.inj hstep
    refine ⟨timed_onward (fun _ => ?_) _, fun _ _ haction => by cases haction⟩
    exact h
  · next limit now granted hstage =>
    obtain rfl : stage = .written limit now granted := hstage
    obtain rfl := Option.some.inj hstep
    refine ⟨timed_onward (fun _ => ?_) _, fun _ _ haction => by cases haction⟩
    exact h
  · next limit found instant sinceEpoch hstage =>
    obtain rfl : stage = .claimed limit found := hstage
    obtain rfl := Option.some.inj hstep
    obtain rfl : limit = deadline := h
    refine ⟨timed_waited instant sinceEpoch found, fun _ _ haction => ?_⟩
    cases haction
    exact waited_bounded
  · next limit sleep hstage =>
    obtain rfl : stage = .waiting limit sleep := hstage
    obtain rfl := Option.some.inj hstep
    exact ⟨h, fun _ _ haction => by cases haction⟩
  · cases hstep

/-- The end of a round knows why it returns nothing. -/
theorem explained_waited {instant : ℕ} {sinceEpoch : Option Duration} {found : Claim} {move : Move}
    (haction : move.action = .wait instant sinceEpoch)
    (h : Explained self deadline moves (.claimed deadline found)) :
    Explained self deadline (moves ++ [move]) (waited fan deadline instant sinceEpoch found) := by
  have hround : ¬Begins move := by
    rintro ⟨_, hbegins⟩
    rw [haction] at hbegins
    cases hbegins
  obtain ⟨hlooked, hexhausted⟩ := h
  unfold waited
  cases hverdict : pollVerdict found with
  | some deliveries =>
    cases deliveries with
    | cons delivery deliveries => exact trivial
    | nil =>
      exact ⟨(hlooked (pollVerdict_empty hverdict).1).snoc hround,
        .inr ((hexhausted hverdict).snoc hround)⟩
  | none =>
    by_cases hpassed : deadline - instant = 0
    · simp only [if_pos hpassed]
      exact ⟨(hlooked (empty_of_waits hverdict)).snoc hround,
        .inl ⟨move, instant, sinceEpoch, inLastRound_last, haction, by omega⟩⟩
    · simp only [if_neg hpassed]
      cases found.nextVisibleAt with
      | none => exact trivial
      | some visibleAt =>
        cases nowMs sinceEpoch with
        | error err => exact trivial
        | ok now => exact trivial

/-- Every step of a poll keeps what is known of it. -/
theorem explained_step (hpos : options.maxMessages ≠ 0) (hinv : Inv db)
    (hstep : step fan self options ⟨db, stage⟩ action = some after) (htimed : Timed deadline stage)
    (h : Explained self deadline moves stage) :
    Explained self deadline (moves ++ [⟨⟨db, stage⟩, action, after⟩]) after.stage := by
  unfold step at hstep
  split at hstep
  · next e other op =>
    obtain rfl := Option.some.inj hstep
    refine h.snoc ?_
    rintro ⟨_, hbegins⟩
    cases hbegins
  · next instantMax started hstage =>
    obtain rfl : stage = .called := hstage
    exact htimed.elim
  · next limit sinceEpoch hstage =>
    obtain rfl := Option.some.inj hstep
    cases nowMs sinceEpoch <;> exact trivial
  · next limit now hstage =>
    obtain rfl : stage = .clockRead limit now := hstage
    obtain rfl := Option.some.inj hstep
    cases hcheck : claimCheck self now db with
    | error err => exact trivial
    | ok found =>
      cases found with
      | none => exact trivial
      | some early =>
        obtain ⟨hnothing, hexhausted⟩ := check_nothing hinv hcheck
        exact ⟨fun _ => ⟨_, now, inLastRound_last, .inl ⟨limit, rfl, rfl⟩, hnothing⟩,
          fun hverdict => ⟨_, inLastRound_last, .inl rfl, hexhausted hverdict⟩⟩
  · next limit now e hstage =>
    obtain rfl : stage = .workFound limit now := hstage
    obtain rfl := Option.some.inj hstep
    cases hcommit : pollCommit e fan self options now db with
    | mk db' result =>
      cases result with
      | error err => exact trivial
      | ok granted =>
        exact fun hempty => ⟨_, now, inLastRound_last, .inr ⟨limit, e, rfl, rfl⟩,
          write_nothing hinv hpos hcommit hempty⟩
  · next limit now granted hstage =>
    obtain rfl : stage = .written limit now granted := hstage
    obtain rfl := Option.some.inj hstep
    cases hreread : claimReread self now granted db with
    | error err => exact trivial
    | ok found =>
      have hcarries : (onward (.claimed limit) (claimReread self now granted db)).Carries self
          granted.deliveries := carries_reread limit now granted db
      have hheld := hcarries.held
      rw [hreread] at hheld
      have hsame : found.deliveries = granted.deliveries := hheld
      refine ⟨fun hempty => Looked.snoc (h (hsame ▸ hempty)) ?_, fun hverdict => ?_⟩
      · rintro ⟨_, hbegins⟩
        cases hbegins
      · exact ⟨_, inLastRound_last, .inr rfl, reread_exhausted hinv hreread hverdict⟩
  · next limit found instant sinceEpoch hstage =>
    obtain rfl : stage = .claimed limit found := hstage
    obtain rfl := Option.some.inj hstep
    obtain rfl : limit = deadline := htimed
    exact explained_waited rfl h
  · next limit sleep hstage =>
    obtain rfl := Option.some.inj hstep
    exact trivial
  · cases hstep

end Steps

section Runs

variable {fan : Inner} {self : Consumer} {options : Poll} {instantMax started : ℕ} {start : Db}
  {moves : List Move} {last : State}

/-- A poll starts with the deadline of its arguments. -/
theorem timed_called :
    Timed (started + options.wait) (called fan options instantMax started) := by
  refine timed_onward (fun lease => ?_) _
  cases lease with
  | none => exact trivial
  | some leaseMs =>
    unfold pollDeadline
    by_cases hfits : started + options.wait ≤ instantMax
    · simp only [if_pos hfits]
      exact rfl
    · simp only [if_neg hfits]
      exact trivial

/-- A poll that is asked for something starts to loop, or is refused. -/
theorem explained_called (hpos : options.maxMessages ≠ 0) :
    Explained self (started + options.wait) [] (called fan options instantMax started) := by
  unfold called
  cases hlease : pollLease fan options with
  | error err => exact trivial
  | ok lease =>
    cases lease with
    | none => exact absurd (pollLease_none hlease) hpos
    | some leaseMs => cases pollDeadline instantMax started options <;> exact trivial

/-- Whoever else works on the store, no poll sleeps past its deadline. -/
theorem bounded_run (hrun : Transition.Run (polling fan self options)
      ⟨start, called fan options instantMax started⟩ moves last) :
    Timed (started + options.wait) last.stage ∧
      ∀ move ∈ moves, Bounded (started + options.wait) move := by
  induction hrun with
  | nil => exact ⟨timed_called, fun _ h => absurd h List.not_mem_nil⟩
  | @snoc moves move hsteps hv ih =>
    obtain ⟨htimed, hbounded⟩ := ih
    obtain ⟨hnext, hlast⟩ := timed_step hv htimed
    refine ⟨hnext, fun move hmove => ?_⟩
    rcases List.mem_append.mp hmove with hold | hnew
    · exact hbounded move hold
    · rw [List.mem_singleton.mp hnew]
      exact hlast

/-- What is known of a poll at every moment among other workers. -/
theorem explained_run (hpos : options.maxMessages ≠ 0) (hreach : Reachable start)
    (hrun : Transition.Run (polling fan self options)
      ⟨start, called fan options instantMax started⟩ moves last) :
    Reachable last.db ∧ Explained self (started + options.wait) moves last.stage := by
  induction hrun with
  | nil => exact ⟨hreach, explained_called hpos⟩
  | @snoc moves move hsteps hv ih =>
    obtain ⟨hreached, hexplained⟩ := ih
    obtain ⟨htimed, -⟩ := bounded_run hsteps
    obtain ⟨⟨db, stage⟩, action, after⟩ := move
    refine ⟨?_, explained_step hpos (inv_reachable hreached) hv htimed hexplained⟩
    rcases step_cases hv with ⟨e, other, op, rfl, rfl⟩ | ⟨e, limit, now, rfl, rfl, rfl⟩ |
      ⟨-, -, hdb, -⟩
    · exact reachable_exec hreached e other op
    · exact reachable_exec hreached e fan (.claim self options now)
    · exact hdb ▸ hreached

/-- Among any other workers a poll at no time sleeps past its deadline, and when it has seen that
pass it makes no further claim. If it returns nothing, it was asked for nothing, or it has looked
in its last round at a moment at which nothing was due, and has then seen its deadline pass or
the consumer exhausted. -/
theorem empty_answer (hreach : Reachable start)
    (hrun : Transition.Run (polling fan self options)
      ⟨start, called fan options instantMax started⟩ moves last) :
    (∀ move ∈ moves, Bounded (started + options.wait) move) ∧
      (last.stage = .returned (.ok []) → options.maxMessages = 0 ∨
        Looked self moves ∧
          (TimedOut (started + options.wait) moves ∨ SawExhausted self moves)) := by
  refine ⟨(bounded_run hrun).2, fun hempty => ?_⟩
  by_cases hpos : options.maxMessages = 0
  · exact .inl hpos
  · obtain ⟨-, hexplained⟩ := explained_run hpos hreach hrun
    rw [hempty] at hexplained
    exact .inr hexplained

end Runs

/-- A consumer with one message to lease. -/
def readyOps : List Op :=
  [.openConsumer "jobs" .all 0, .publishBatch [⟨none, [7], none⟩] 0]

/-- A poll of a consumer of which another worker has just leased the only message. -/
def leasedUnder : List Action :=
  [.readClock (some 0), .check,
    .elsewhere Engine.inOrder Inner.default (.claim firstHandle pollOne 0),
    .write Engine.inOrder, .reread, .wait 0 (some 0)]

set_option maxRecDepth 10000 in
theorem empty_answer_leased : ∃ moves last,
    Transition.Run (polling Inner.default firstHandle pollOne)
      ⟨outcomeDb Engine.inOrder Inner.default readyOps Db.empty,
        called Inner.default pollOne 1000 0⟩ moves last ∧
    Looked firstHandle moves ∧
    (TimedOut (0 + pollOne.wait) moves ∨ SawExhausted firstHandle moves) ∧
    ∀ move ∈ moves, Bounded (0 + pollOne.wait) move := by
  obtain ⟨moves, last, hplay, hstage⟩ : ∃ moves last,
      Transition.play (step Inner.default firstHandle pollOne) leasedUnder
        ⟨outcomeDb Engine.inOrder Inner.default readyOps Db.empty,
          called Inner.default pollOne 1000 0⟩ = some (moves, last) ∧
      last.stage = .returned (.ok []) :=
    ⟨_, _, rfl, rfl⟩
  have hrun := Transition.play_run hplay
  obtain ⟨hbounded, hanswer⟩ := empty_answer
    (reachable_outcome Engine.inOrder Inner.default readyOps) hrun
  obtain ⟨hlooked, hend⟩ := (hanswer hstage).resolve_left (by decide)
  exact ⟨moves, last, hrun, hlooked, hend, hbounded⟩

end LiteFan.EmptyAnswers

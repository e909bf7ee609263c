import LiteFan.RedriveMoves
import LiteFan.Shortcut
import LiteFan.Transition.Labelled

/-!
# What a poll answers among other workers

A poll checks its arguments, reads the clocks and makes its database accesses
one at a time, and anything may commit in between. Its claims commit before the
checks that could still refuse them, and before a further read that fails when
the consumer is gone; by then they have leased nothing. What it returns is what
one of its claims has committed.
-/

namespace LiteFan.PollAnswers

open LiteFan.Api LiteFan.Time LiteFan.Schema LiteFan.Storage LiteFan.Store LiteFan.Consumer
open LiteFan.System LiteFan.Invariant LiteFan.Effect LiteFan.Step LiteFan.Preservation
open LiteFan.Lifecycle LiteFan.Returned LiteFan.RedriveMoves LiteFan.Shortcut Relational

/-- Where a poll stands. -/
inductive Stage where
  | called
  /-- At the top of the loop, with the monotonic deadline. -/
  | looping (deadline : ℕ)
  | clockRead (deadline : ℕ) (now : ℤ)
  /-- The read-only check found work. -/
  | workFound (deadline : ℕ) (now : ℤ)
  /-- The writer transaction has committed. -/
  | written (deadline : ℕ) (now : ℤ) (granted : Granted)
  | claimed (deadline : ℕ) (found : Claim)
  | waiting (deadline : ℕ) (sleep : Duration)
  | returned (result : Except Error (List Delivery))

/-- The database and the poll. -/
structure State where
  db : Db
  stage : Stage

/-- What happens next, with the readings the poll takes. -/
inductive Action : Type 1 where
  | call (instantMax started : ℕ)
  | readClock (sinceEpoch : Option Duration)
  | check
  | write (e : Engine)
  | reread
  | wait (instant : ℕ) (sinceEpoch : Option Duration)
  | wake
  /-- Another worker commits. -/
  | elsewhere (e : Engine) (other : Inner) (op : Op)

/-- An error ends the poll. -/
def onward {α : Type} (next : α → Stage) : Except Error α → Stage
  | .error err => .returned (.error err)
  | .ok found => next found

/-- The arguments are checked before the first claim. -/
def called (fan : Inner) (options : Poll) (instantMax started : ℕ) : Stage :=
  onward (fun
    | none => .returned (.ok [])
    | some _ => onward .looping (pollDeadline instantMax started options)) (pollLease fan options)

/-- The read-only check either completes the claim or finds work. -/
def checked (deadline : ℕ) (now : ℤ) : Except Error (Option Claim) → Stage :=
  onward fun
    | some early => .claimed deadline early
    | none => .workFound deadline now

/-- The poll returns what it has found, gives up at its deadline, or computes its wait, which
takes another clock reading when something is due later. -/
def waited (fan : Inner) (deadline instant : ℕ) (sinceEpoch : Option Duration) (found : Claim) :
    Stage :=
  match pollVerdict found with
  | some deliveries => .returned (.ok deliveries)
  | none =>
    if deadline - instant = 0 then .returned (.ok [])
    else
      match found.nextVisibleAt with
      | none => .waiting deadline (sleepFor fan (deadline - instant) none 0)
      | some visibleAt =>
        onward (fun now =>
          .waiting deadline (sleepFor fan (deadline - instant) (some visibleAt) now))
          (nowMs sinceEpoch)

/-- One step, if it is the next one. -/
def step (fan : Inner) (self : Consumer) (options : Poll) (state : State) (action : Action) :
    Option State :=
  match state.stage, action with
  | stage, .elsewhere e other op => some ⟨(exec e other op state.db).1, stage⟩
  | .called, .call instantMax started =>
    some ⟨state.db, called fan options instantMax started⟩
  | .looping deadline, .readClock sinceEpoch =>
    some ⟨state.db, onward (.clockRead deadline) (nowMs sinceEpoch)⟩
  | .clockRead deadline now, .check =>
    some ⟨state.db, checked deadline now (claimCheck self now state.db)⟩
  | .workFound deadline now, .write e =>
    let written := pollCommit e fan self options now state.db
    some ⟨written.1, onward (.written deadline now) written.2⟩
  | .written deadline now granted, .reread =>
    some ⟨state.db, onward (.claimed deadline) (claimReread self now granted state.db)⟩
  | .claimed deadline found, .wait instant sinceEpoch =>
    some ⟨state.db, waited fan deadline instant sinceEpoch found⟩
  | .waiting deadline _, .wake => some ⟨state.db, .looping deadline⟩
  | _, _ => none

/-- One thing that has happened. -/
abbrev Move := Transition.Move State Action

/-- A poll and the workers around it, step by step. -/
abbrev polling (fan : Inner) (self : Consumer) (options : Poll) : Transition.System State Move :=
  Transition.labelled (step fan self options)

/-- The writer transaction of one of the poll's own claims. -/
def Writes (move : Move) : Prop := ∃ e, move.action = .write e

/-- What a move commits. -/
def commits (fan : Inner) (self : Consumer) (options : Poll) (move : Move) : List Event :=
  match move.before.stage, move.action with
  | _, .elsewhere e other op => [perform e other op move.before.db]
  | .workFound _ now, .write e => [perform e fan (.claim self options now) move.before.db]
  | _, _ => []

/-- The deliveries that a poll has to return. -/
def Stage.held : Stage → List Delivery
  | .written _ _ granted => granted.deliveries
  | .claimed _ found => found.deliveries
  | .returned (.ok deliveries) => deliveries
  | _ => []

/-- The errors a poll may end with: arguments outside their limits, a clock that cannot be read,
a deadline out of range, a deleted consumer. -/
def refusal (self : Consumer) : Error → Bool
  | .batchTooLarge _ _ => true
  | .invalidVisibilityTimeout => true
  | .invalidPoll _ => true
  | .clockBeforeUnixEpoch => true
  | .durationOutOfRange => true
  | .consumerDeleted name => name == self.name
  | _ => false

section Refusals

variable {fan : Inner} {self : Consumer} {options : Poll} {db db' : Db} {err : Error} {now : ℤ}

theorem refusal_range {n : ℕ} (h : i64TryFrom n .durationOutOfRange = .error err) :
    refusal self err = true := by
  unfold i64TryFrom at h
  split at h
  · cases h
  · cases h
    rfl

theorem refusal_clock {sinceEpoch : Option Duration} (h : nowMs sinceEpoch = .error err) :
    refusal self err = true := by
  cases sinceEpoch with
  | none =>
    cases h
    rfl
  | some span => exact refusal_range h

theorem refusal_lease (h : pollLease fan options = .error err) : refusal self err = true := by
  unfold pollLease at h
  split at h
  · cases h
  · cases hsize : ensureBatchSize fan options.maxMessages with
    | error large =>
      rw [hsize] at h
      obtain rfl : large = err := Except.error.inj h
      unfold ensureBatchSize at hsize
      split at hsize
      · cases hsize
        rfl
      · cases hsize
    | ok size =>
      cases hlease : durationMs options.visibilityTimeout with
      | error out =>
        rw [hsize, hlease] at h
        obtain rfl : out = err := Except.error.inj h
        exact refusal_range hlease
      | ok leaseMs =>
        rw [hsize, hlease] at h
        simp only [bind, Except.bind] at h
        split at h
        · cases h
          rfl
        · cases h

theorem refusal_deadline {instantMax started : ℕ}
    (h : pollDeadline instantMax started options = .error err) : refusal self err = true := by
  unfold pollDeadline at h
  split at h
  · cases h
  · cases h
    rfl

theorem refusal_check (h : claimCheck self now db = .error err) : refusal self err = true := by
  unfold claimCheck at h
  split at h
  · cases h
    exact beq_self_eq_true self.name
  · split at h <;> cases h

/-- The checks after the commit let every claim through. -/
theorem refusal_commit {e : Engine} (hinv : Inv db)
    (h : pollCommit e fan self options now db = (db', .error err)) : refusal self err = true := by
  unfold pollCommit at h
  cases hlease : pollLease fan options with
  | error refused =>
    rw [hlease] at h
    obtain rfl := Except.error.inj (Prod.mk.inj h).2
    exact refusal_lease hlease
  | ok lease =>
    cases lease with
    | none => rw [hlease] at h; cases h
    | some leaseMs =>
      rw [hlease] at h
      cases hdeadline : checkedAdd now leaseMs with
      | error out =>
        dsimp only at h
        rw [claimCommit, commit, claimTransaction, hdeadline] at h
        obtain rfl := Except.error.inj (Prod.mk.inj h).2
        rw [checkedAdd_error hdeadline]
        rfl
      | ok deadline =>
        dsimp only at h
        cases hrow : db.consumers.lookup self.id with
        | none =>
          rw [claimCommit, commit, claimTransaction, hdeadline] at h
          simp only [bind, Except.bind, hrow] at h
          obtain rfl := Except.error.inj (Prod.mk.inj h).2
          exact beq_self_eq_true self.name
        | some row =>
          have hid : self.id = row.id := (AutoTable.lookup_eq_some.mp hrow).2.symm
          rw [claimCommit_eq e hinv hid (hid ▸ hrow) hdeadline (pollLease_fits hlease)] at h
          cases h

/-- The closing read refuses only a claim that leased nothing. -/
theorem refusal_reread {granted : Granted} (h : claimReread self now granted db = .error err) :
    granted.deliveries = [] ∧ refusal self err = true := by
  unfold claimReread at h
  split at h
  · next hempty =>
    refine ⟨List.isEmpty_iff.mp hempty, ?_⟩
    split at h
    · cases h
      exact beq_self_eq_true self.name
    · cases h
  · cases h

end Refusals

section Steps

variable {fan : Inner} {self : Consumer} {options : Poll} {db db' : Db} {stage : Stage}
  {action : Action} {after : State}

/-- A stage that keeps to the deliveries the poll has to return, and ends only with a refusal. -/
structure Stage.Carries (handle : Consumer) (deliveries : List Delivery) (stage : Stage) :
    Prop where
  held : stage.held = deliveries
  refused : ∀ err, stage = .returned (.error err) → refusal handle err = true

/-- A refusal holds nothing, and a result goes on with what it holds. -/
theorem carries_onward {α : Type} {next : α → Stage} {result : Except Error α}
    {deliveries : List Delivery}
    (herror : ∀ err, result = .error err → deliveries = [] ∧ refusal self err = true)
    (hok : ∀ found, result = .ok found → (next found).Carries self deliveries) :
    (onward next result).Carries self deliveries := by
  cases result with
  | error err =>
    obtain ⟨rfl, hrefusal⟩ := herror err rfl
    refine ⟨rfl, fun other h => ?_⟩
    obtain rfl : err = other := by
      simpa only [onward, Stage.returned.injEq, Except.error.injEq] using h
    exact hrefusal
  | ok found => exact hok found rfl

/-- The checks of the arguments hold nothing. -/
theorem carries_called (instantMax started : ℕ) :
    (called fan options instantMax started).Carries self [] := by
  refine carries_onward (fun _ h => ⟨rfl, refusal_lease h⟩) fun lease _ => ?_
  cases lease with
  | none => exact ⟨rfl, fun _ h => by cases h⟩
  | some leaseMs =>
    refine carries_onward (fun _ h => ⟨rfl, refusal_deadline h⟩) fun deadline _ => ?_
    exact ⟨rfl, fun _ h => by cases h⟩

/-- The check holds nothing: the claim it completes is empty. -/
theorem carries_checked (deadline : ℕ) (now : ℤ) (db : Db) :
    (checked deadline now (claimCheck self now db)).Carries self [] := by
  refine carries_onward (fun _ h => ⟨rfl, refusal_check h⟩) fun found hfound => ?_
  cases found with
  | none => exact ⟨rfl, fun _ h => by cases h⟩
  | some early =>
    have hnone : early.deliveries = [] := by
      unfold claimCheck at hfound
      split at hfound
      · cases hfound
      · split at hfound
        · cases hfound
          rfl
        · cases hfound
    exact ⟨hnone, fun _ h => by cases h⟩

/-- The closing read keeps what was leased. -/
theorem carries_reread (deadline : ℕ) (now : ℤ) (granted : Granted) (db : Db) :
    (onward (.claimed deadline) (claimReread self now granted db)).Carries self
      granted.deliveries := by
  refine carries_onward (fun _ h => refusal_reread h) fun found hfound => ?_
  refine ⟨?_, fun _ h => by cases h⟩
  unfold claimReread at hfound
  split at hfound
  · next hempty =>
    split at hfound
    · cases hfound
    · cases hfound
      exact (List.isEmpty_iff.mp hempty).symm
  · cases hfound
    rfl

/-- The poll returns what its claim has found, and waits only when that is nothing. -/
theorem carries_waited (deadline instant : ℕ) (sinceEpoch : Option Duration) (found : Claim) :
    (waited fan deadline instant sinceEpoch found).Carries self found.deliveries := by
  unfold waited
  by_cases hempty : found.deliveries = []
  · rw [hempty]
    split
    · next deliveries hverdict =>
      have hnone : deliveries = [] := by
        unfold pollVerdict at hverdict
        rw [hempty] at hverdict
        simp only [List.isEmpty_nil, Bool.not_true, Bool.false_eq_true, if_false] at hverdict
        split at hverdict
        · exact (Option.some.inj hverdict).symm
        · cases hverdict
      exact ⟨hnone, fun _ h => by cases h⟩
    · split
      · exact ⟨rfl, fun _ h => by cases h⟩
      · split
        · exact ⟨rfl, fun _ h => by cases h⟩
        · refine carries_onward (fun _ h => ⟨rfl, refusal_clock h⟩) fun now _ => ?_
          exact ⟨rfl, fun _ h => by cases h⟩
  · have hverdict : pollVerdict found = some found.deliveries := by
      rw [pollVerdict, if_pos]
      simpa only [Bool.not_eq_true', List.isEmpty_eq_false_iff] using hempty
    rw [hverdict]
    exact ⟨rfl, fun _ h => by cases h⟩

/-- The possible steps: another worker's, the poll's own writer transaction, or one that leaves
the database alone and keeps to what the poll holds. -/
theorem step_cases (h : step fan self options ⟨db, stage⟩ action = some after) :
    (∃ e other op, action = .elsewhere e other op ∧
      after = ⟨(exec e other op db).1, stage⟩) ∨
    (∃ e deadline now, action = .write e ∧ stage = .workFound deadline now ∧
      after = ⟨(pollCommit e fan self options now db).1,
        onward (.written deadline now) (pollCommit e fan self options now db).2⟩) ∨
    ((∀ e, action ≠ .write e) ∧ (∀ e other op, action ≠ .elsewhere e other op) ∧
      after.db = db ∧ after.stage.Carries self stage.held) := by
  unfold step at h
  split at h
  · next e other op => exact .inl ⟨e, other, op, rfl, (Option.some.inj h).symm⟩
  · next instantMax started hstage =>
    obtain rfl : stage = .called := hstage
    obtain rfl := Option.some.inj h
    exact .inr (.inr ⟨by simp, by simp, rfl, carries_called instantMax started⟩)
  · next deadline sinceEpoch hstage =>
    obtain rfl : stage = .looping deadline := hstage
    obtain rfl := Option.some.inj h
    refine .inr (.inr ⟨by simp, by simp, rfl, ?_⟩)
    refine carries_onward (fun _ h => ⟨rfl, refusal_clock h⟩) fun now _ => ?_
    exact ⟨rfl, fun _ h => by cases h⟩
  · next deadline now hstage =>
    obtain rfl : stage = .clockRead deadline now := hstage
    obtain rfl := Option.some.inj h
    exact .inr (.inr ⟨by simp, by simp, rfl, carries_checked deadline now db⟩)
  · next deadline now e hstage =>
    exact .inr (.inl ⟨e, deadline, now, rfl, hstage, (Option.some.inj h).symm⟩)
  · next deadline now granted hstage =>
    obtain rfl : stage = .written deadline now granted := hstage
    obtain rfl := Option.some.inj h
    exact .inr (.inr ⟨by simp, by simp, rfl, carries_reread deadline now granted db⟩)
  · next deadline found instant sinceEpoch hstage =>
    obtain rfl : stage = .claimed deadline found := hstage
    obtain rfl := Option.some.inj h
    exact .inr (.inr ⟨by simp, by simp, rfl, carries_waited deadline instant sinceEpoch found⟩)
  · next deadline sleep hstage =>
    obtain rfl : stage = .waiting deadline sleep := hstage
    obtain rfl := Option.some.inj h
    exact .inr (.inr ⟨by simp, by simp, rfl, rfl, fun _ h => by cases h⟩)
  · cases h

end Steps

section Sequential

variable {e : Engine} {fan : Inner} {self : Consumer} {options : Poll} {leaseMs : ℤ} {deadline : ℕ}
  {db db' : Db}

/-- The wall clock can read every millisecond of its range. -/
theorem nowMs_span {now : ℤ} (hpos : 0 ≤ now) (hle : now ≤ i64Max) :
    ∃ sinceEpoch, nowMs sinceEpoch = .ok now := by
  refine ⟨some (now.toNat * 1000000), ?_⟩
  have hmillis : asMillis (now.toNat * 1000000) = now.toNat := by
    unfold asMillis
    omega
  rw [nowMs, hmillis, i64TryFrom, if_pos (by omega), Int.toNat_of_nonneg hpos]

/-- A claim with nothing else happening is a path of the machine. -/
theorem claim_path (hlease : pollLease fan options = .ok (some leaseMs)) {now : ℤ} (hpos : 0 ≤ now)
    (hle : now ≤ i64Max) {result : Except Error Claim}
    (h : claim e self options.maxMessages leaseMs now db = (db', result)) :
    ∃ moves, Transition.Run (polling fan self options) ⟨db, .looping deadline⟩ moves
      ⟨db', onward (.claimed deadline) result⟩ := by
  obtain ⟨sinceEpoch, hnow⟩ := nowMs_span hpos hle
  have hclock : step fan self options ⟨db, .looping deadline⟩ (.readClock sinceEpoch) =
      some ⟨db, .clockRead deadline now⟩ := by
    simp only [step, hnow, onward]
  have hread := Transition.labelled_single hclock
  have hcheck : step fan self options ⟨db, .clockRead deadline now⟩ .check =
      some ⟨db, checked deadline now (claimCheck self now db)⟩ := rfl
  unfold claim at h
  cases hfound : claimCheck self now db with
  | error err =>
    rw [hfound] at h hcheck
    cases h
    exact ⟨_, Transition.labelled_snoc hread hcheck⟩
  | ok early =>
    rw [hfound] at h hcheck
    cases early with
    | some early =>
      cases h
      exact ⟨_, Transition.labelled_snoc hread hcheck⟩
    | none =>
      have hwrite : step fan self options ⟨db, .workFound deadline now⟩ (.write e) =
          some ⟨(pollCommit e fan self options now db).1,
            onward (.written deadline now) (pollCommit e fan self options now db).2⟩ := rfl
      have hcommit : pollCommit e fan self options now db =
          claimCommit e self options.maxMessages leaseMs now db := by rw [pollCommit, hlease]
      rw [hcommit] at hwrite
      dsimp only at h
      generalize claimCommit e self options.maxMessages leaseMs now db = committed at h hwrite
      obtain ⟨after, granted⟩ := committed
      have hwritten := Transition.labelled_snoc (Transition.labelled_snoc hread hcheck) hwrite
      cases granted with
      | error err =>
        cases h
        exact ⟨_, hwritten⟩
      | ok granted =>
        obtain ⟨rfl, rfl⟩ := Prod.mk.inj h
        have hreread : step fan self options ⟨after, .written deadline now granted⟩ .reread =
            some ⟨after, onward (.claimed deadline) (claimReread self now granted after)⟩ := rfl
        exact ⟨_, Transition.labelled_snoc hwritten hreread⟩

/-- The rounds of a poll with nothing else happening are a path of the machine. -/
theorem pollLoop_path (hlease : pollLease fan options = .ok (some leaseMs)) {ticks : List Tick}
    (hticks : ∀ tick ∈ ticks, 0 ≤ tick.now ∧ tick.now ≤ i64Max)
    {result : Except Error (List Delivery)}
    (h : pollLoop e self options.maxMessages leaseMs deadline ticks db =
      (db', result.map some)) :
    ∃ moves, Transition.Run (polling fan self options) ⟨db, .looping deadline⟩ moves
      ⟨db', .returned result⟩ := by
  induction ticks generalizing db with
  | nil => cases result <;> cases h
  | cons tick ticks ih =>
    obtain ⟨hpos, hle⟩ := hticks tick List.mem_cons_self
    unfold pollLoop at h
    cases hclaim : claim e self options.maxMessages leaseMs tick.now db with
    | mk after found =>
      rw [hclaim] at h
      obtain ⟨moves, hclaimed⟩ := @claim_path _ _ _ _ _ deadline _ _ hlease _ hpos hle _ hclaim
      cases found with
      | error err =>
        cases result <;> cases h
        exact ⟨moves, hclaimed⟩
      | ok found =>
        have hwait := Transition.labelled_snoc hclaimed
          (rfl : step fan self options ⟨after, .claimed deadline found⟩
            (.wait tick.instant (some 0)) = _)
        dsimp only at h
        unfold waited at hwait
        cases hverdict : pollVerdict found with
        | some deliveries =>
          rw [hverdict] at h hwait
          cases result <;> cases h
          exact ⟨_, hwait⟩
        | none =>
          rw [hverdict] at h hwait
          dsimp only at h hwait
          by_cases hdue : deadline - tick.instant = 0
          · rw [if_pos hdue] at h hwait
            cases result <;> cases h
            exact ⟨_, hwait⟩
          · rw [if_neg hdue] at h hwait
            obtain ⟨rest, hrest⟩ := ih (fun later hlater => hticks later
              (List.mem_cons_of_mem _ hlater)) h
            cases hnext : found.nextVisibleAt with
            | none =>
              rw [hnext] at hwait
              exact ⟨_, (Transition.labelled_snoc hwait
                (rfl : step fan self options ⟨after, .waiting deadline _⟩ .wake = _)).append hrest⟩
            | some visibleAt =>
              rw [hnext] at hwait
              exact ⟨_, (Transition.labelled_snoc hwait
                (rfl : step fan self options ⟨after, .waiting deadline _⟩ .wake = _)).append hrest⟩

/-- A poll with nothing else happening is a path of the machine. -/
theorem poll_path {instantMax started : ℕ} {ticks : List Tick}
    (hticks : ∀ tick ∈ ticks, 0 ≤ tick.now ∧ tick.now ≤ i64Max)
    {result : Except Error (List Delivery)}
    (h : poll e fan self options instantMax started ticks db = (db', result.map some)) :
    ∃ moves, Transition.Run (polling fan self options) ⟨db, .called⟩ moves
      ⟨db', .returned result⟩ := by
  have hcall : step fan self options ⟨db, .called⟩ (.call instantMax started) =
      some ⟨db, called fan options instantMax started⟩ := rfl
  have hcalled := Transition.labelled_single hcall
  unfold poll at h
  unfold called at hcalled
  cases hlease : pollLease fan options with
  | error err =>
    rw [hlease] at h hcalled
    cases result <;> cases h
    exact ⟨_, hcalled⟩
  | ok lease =>
    rw [hlease] at h hcalled
    cases lease with
    | none =>
      cases result <;> cases h
      exact ⟨_, hcalled⟩
    | some leaseMs =>
      dsimp only [onward] at h hcalled
      cases hdeadline : pollDeadline instantMax started options with
      | error err =>
        rw [hdeadline] at h hcalled
        cases result <;> cases h
        exact ⟨_, hcalled⟩
      | ok deadline =>
        rw [hdeadline] at h hcalled
        obtain ⟨moves, hmoves⟩ := pollLoop_path hlease hticks h
        exact ⟨_, hcalled.append hmoves⟩

end Sequential

section Writes

variable {fan : Inner} {self : Consumer} {options : Poll} {db db' : Db} {e : Engine} {now : ℤ}

/-- A refused claim changes nothing. -/
theorem unchanged_of_refused (hinv : Inv db) {err : Error}
    (h : pollCommit e fan self options now db = (db', .error err)) : db' = db := by
  have heffect := @effect_claim fan db e hinv self options now
  rw [h] at heffect
  cases heffect
  rfl

/-- A committed claim leaves and returns what its lease amounts to, or was asked for nothing. -/
theorem granted_cases (hinv : Inv db) {granted : Granted}
    (h : pollCommit e fan self options now db = (db', .ok granted)) :
    (db' = db ∧ granted.deliveries = []) ∨
      ∃ row deadline, db.consumers.lookup row.id = some row ∧ self.id = row.id ∧
        db' = claimedDb db row now deadline options.maxMessages ∧
        granted.deliveries = claimedDeliveries db row now deadline options.maxMessages := by
  have heffect := @effect_claim fan db e hinv self options now
  rw [h] at heffect
  change Effect fan db (.claim self options now) db' (.ok (.granted granted)) at heffect
  cases heffect with
  | idle hidle =>
    obtain rfl : granted = ⟨[], false⟩ := by simpa using hidle.2
    exact .inl ⟨rfl, rfl⟩
  | granted _ hid hrow _ => exact .inr ⟨_, _, hrow, hid, rfl, rfl⟩

/-- A claim that leased nothing leaves every delivery as it was. -/
theorem unchanged_of_empty (hinv : Inv db) {granted : Granted}
    (h : pollCommit e fan self options now db = (db', .ok granted))
    (hempty : granted.deliveries = []) : db'.deliveries = db.deliveries := by
  rcases granted_cases hinv h with ⟨rfl, -⟩ | ⟨row, deadline, hrow, -, rfl, hdeliveries⟩
  · rfl
  · exact deliveries_of_empty hinv hrow (hdeliveries ▸ hempty)

/-- Every row a claim has written is one it returns. -/
theorem returned_of_written (hinv : Inv db) {granted : Granted}
    (h : pollCommit e fan self options now db = (db', .ok granted)) {d : DeliveryRow}
    (hd : d ∈ db'.deliveries) (hnew : d ∉ db.deliveries) :
    ∃ delivery ∈ granted.deliveries,
      delivery.receipt = ⟨d.consumerId, d.messageId, d.generation⟩ := by
  rcases granted_cases hinv h with ⟨rfl, -⟩ | ⟨row, deadline, hrow, -, rfl, hdeliveries⟩
  · exact absurd hd hnew
  · rw [hdeliveries]
    rcases (mem_claimedDb hinv hrow).mp hd with ⟨message, hfresh, rfl⟩ | ⟨hkept, -⟩ |
      ⟨b, hb, rfl⟩
    · exact ⟨_, mem_claimedDeliveries.mpr (.inr ⟨message, hfresh, rfl⟩), rfl⟩
    · exact absurd hkept hnew
    · obtain ⟨hstored, hc, -⟩ := mem_selectVisible hb
      obtain ⟨-, message, -, hmessage, -⟩ := hinv.delivery_refers b hstored
      refine ⟨_, mem_claimedDeliveries.mpr (.inl ⟨b, hb, message, hmessage, rfl⟩), ?_⟩
      exact congrArg (Receipt.mk · b.messageId (b.generation + 1)) hc.symm

/-- A returned delivery names its message and is a row the claim has written. -/
theorem written_of_returned (hinv : Inv db) {granted : Granted}
    (h : pollCommit e fan self options now db = (db', .ok granted)) {delivery : Delivery}
    (hmem : delivery ∈ granted.deliveries) :
    delivery.receipt.consumerId = self.id ∧ delivery.receipt.messageId = delivery.message.id ∧
      delivery.message ∈ db.messages ∧
      ∃ visibleAt, let d : DeliveryRow := ⟨self.id, delivery.message.id, visibleAt,
          delivery.receipt.generation, delivery.deliveryCount⟩
        d ∈ db'.deliveries ∧ d ∉ db.deliveries := by
  let event := perform e fan (.claim self options now) db
  have hv : system.valid event := ⟨e, rfl⟩
  have hafter : event.after = db' := by
    change (pollCommit e fan self options now db).1 = db'
    rw [h]
  have hreply : event.reply = .ok (.granted granted) := by
    change (pollCommit e fan self options now db).2.map Reply.granted = _
    rw [h]
    rfl
  have hreturned : returned self.id event = granted.deliveries := returned_granted rfl hreply rfl
  obtain ⟨row, hleases⟩ := returned_step hv hinv (hreturned ▸ hmem)
  obtain ⟨visibleAt, hcopy⟩ := hleases.after
  refine ⟨hleases.receipt.1, hleases.receipt.2, hleases.stored, visibleAt, ?_, fun hold => ?_⟩
  · rw [hafter] at hcopy
    exact copyOf_leased.mp hcopy
  · have hbefore : copyOf db self.id delivery.message.id = _ := copyOf_leased.mpr hold
    rcases hleases.before with ⟨habsent, -⟩ | ⟨v, g, n, hleased, hcount⟩
    · cases habsent.symm.trans hbefore
    · have hsame := hleased.symm.trans hbefore
      injection hsame with _ _ hn
      omega

end Writes

section Runs

variable {fan : Inner} {self : Consumer} {options : Poll} {past : List Event} {start : Db}
  {moves : List Move} {last : State}

/-- What the moves of a poll commit. -/
def history (fan : Inner) (self : Consumer) (options : Poll) (moves : List Move) : List Event :=
  moves.flatMap (commits fan self options)

/-- The poll's own claims have changed no delivery. -/
def Quiet (moves : List Move) : Prop :=
  ∀ move ∈ moves, Writes move → move.after.db.deliveries = move.before.db.deliveries

/-- A delivery pairs a message as it was published with the receipt of a row that one of the
poll's own claims has committed. -/
structure Paired (handle : Consumer) (events : List Event) (moves : List Move)
    (delivery : Delivery) : Prop where
  consumer : delivery.receipt.consumerId = handle.id
  message : delivery.receipt.messageId = delivery.message.id
  original : Originally events delivery.message
  committed : ∃ move ∈ moves, Writes move ∧ ∃ visibleAt,
    let d : DeliveryRow := ⟨handle.id, delivery.message.id, visibleAt, delivery.receipt.generation,
      delivery.deliveryCount⟩
    d ∈ move.after.db.deliveries ∧ d ∉ move.before.db.deliveries

/-- Every row the poll's own claims have written is among the deliveries. -/
def Seen (moves : List Move) (deliveries : List Delivery) : Prop :=
  ∀ move ∈ moves, Writes move → ∀ d ∈ move.after.db.deliveries, d ∉ move.before.db.deliveries →
    ∃ delivery ∈ deliveries, delivery.receipt = ⟨d.consumerId, d.messageId, d.generation⟩

/-- A poll after some moves. -/
structure Sound (fan : Inner) (handle : Consumer) (options : Poll) (past : List Event)
    (moves : List Move) (stage : Stage) : Prop where
  refused : ∀ err, stage = .returned (.error err) → refusal handle err = true
  quiet : stage.held = [] → Quiet moves
  seen : Seen moves stage.held
  paired : ∀ delivery ∈ stage.held,
    Paired handle (past ++ history fan handle options moves) moves delivery

/-- What was published in a history was published in a longer one. -/
theorem Paired.mono {events : List Event} {delivery : Delivery}
    (h : Paired self events moves delivery) (more : List Event) (move : Move) :
    Paired self (events ++ more) (moves ++ [move]) delivery where
  consumer := h.consumer
  message := h.message
  original := by
    obtain ⟨event, hevent, hpublished⟩ := h.original
    exact ⟨event, List.mem_append_left _ hevent, hpublished⟩
  committed := by
    obtain ⟨other, hother, hrow⟩ := h.committed
    exact ⟨other, List.mem_append_left _ hother, hrow⟩

theorem history_snoc (moves : List Move) (move : Move) :
    history fan self options (moves ++ [move]) =
      history fan self options moves ++ commits fan self options move := by
  rw [history, List.flatMap_append, List.flatMap_singleton]
  rfl

/-- The moves of a poll continue the history of the store. -/
theorem history_run (hpast : Run past start)
    (hrun : Transition.Run (polling fan self options) ⟨start, .called⟩ moves last) :
    Run (past ++ history fan self options moves) last.db := by
  induction hrun with
  | nil =>
    rw [history, List.flatMap_nil, List.append_nil]
    exact hpast
  | @snoc moves move _ hv ih =>
    obtain ⟨⟨db, stage⟩, action, after⟩ := move
    change Run (past ++ history fan self options moves) db at ih
    change Run _ after.db
    rw [history_snoc, ← List.append_assoc]
    rcases step_cases hv with ⟨e, other, op, rfl, rfl⟩ | ⟨e, deadline, now, rfl, rfl, rfl⟩ |
      ⟨hwrite, helsewhere, hdb, -⟩
    · have hevents : commits fan self options
          ⟨⟨db, stage⟩, .elsewhere e other op, ⟨(exec e other op db).1, stage⟩⟩ =
            [perform e other op db] := by
        cases stage <;> rfl
      rw [hevents]
      exact ih.snoc (S := system) (perform e other op db) ⟨e, rfl⟩
    · exact ih.snoc (S := system) (perform e fan (.claim self options now) db) ⟨e, rfl⟩
    · have hevents : commits fan self options ⟨⟨db, stage⟩, action, after⟩ = [] := by
        unfold commits
        split
        · next e other op haction => exact absurd haction (helsewhere e other op)
        · next e _ haction => exact absurd haction (hwrite e)
        · rfl
      rw [hevents, List.append_nil, hdb]
      exact ih

/-- A move that is no claim of the poll keeps what is known of it. -/
theorem Sound.later {stage stage' : Stage} {move : Move}
    (h : Sound fan self options past moves stage) (hwrite : ¬Writes move)
    (hheld : stage'.held = stage.held)
    (hrefused : ∀ err, stage' = .returned (.error err) → refusal self err = true) :
    Sound fan self options past (moves ++ [move]) stage' := by
  have hown : ∀ other ∈ moves ++ [move], Writes other → other ∈ moves := by
    intro other hother hwrites
    rcases List.mem_append.mp hother with hold | hnew
    · exact hold
    · obtain rfl := List.mem_singleton.mp hnew
      exact absurd hwrites hwrite
  refine ⟨hrefused, fun hnone other hother hwrites => ?_, fun other hother hwrites => ?_, ?_⟩
  · exact h.quiet (hheld ▸ hnone) other (hown other hother hwrites) hwrites
  · rw [hheld]
    exact h.seen other (hown other hother hwrites) hwrites
  · rw [hheld, history_snoc, ← List.append_assoc]
    exact fun delivery hdelivery => (h.paired delivery hdelivery).mono _ move

/-- Another move that changes no delivery keeps the poll's claims quiet. -/
theorem Quiet.snoc (h : Quiet moves) {move : Move}
    (hsame : move.after.db.deliveries = move.before.db.deliveries) : Quiet (moves ++ [move]) := by
  intro other hother hwrites
  rcases List.mem_append.mp hother with hold | hnew
  · exact h other hold hwrites
  · obtain rfl := List.mem_singleton.mp hnew
    exact hsame

/-- After quiet claims only what the last one has written has to be seen. -/
theorem Quiet.seen (h : Quiet moves) {move : Move} {deliveries : List Delivery}
    (hlast : ∀ d ∈ move.after.db.deliveries, d ∉ move.before.db.deliveries →
      ∃ delivery ∈ deliveries, delivery.receipt = ⟨d.consumerId, d.messageId, d.generation⟩) :
    Seen (moves ++ [move]) deliveries := by
  intro other hother hwrites d hd hnew
  rcases List.mem_append.mp hother with hold | hother
  · exact absurd (h other hold hwrites ▸ hd) hnew
  · obtain rfl := List.mem_singleton.mp hother
    exact hlast d hd hnew

/-- A claim of the poll is the first that leases anything. -/
theorem Sound.written {db : Db} {e : Engine} {deadline : ℕ} {now : ℤ}
    (h : Sound fan self options past moves (.workFound deadline now)) (hinv : Inv db)
    (hrun : Run (past ++ history fan self options moves) db) {after : State}
    (hafter : after = ⟨(pollCommit e fan self options now db).1,
      onward (.written deadline now) (pollCommit e fan self options now db).2⟩) :
    Sound fan self options past (moves ++ [⟨⟨db, .workFound deadline now⟩, .write e, after⟩])
      after.stage := by
  have hquiet : Quiet moves := h.quiet rfl
  cases hresult : pollCommit e fan self options now db with
  | mk db' result =>
    rw [hresult] at hafter
    subst hafter
    cases result with
    | error err =>
      obtain rfl := unchanged_of_refused hinv hresult
      refine ⟨fun other hother => ?_, fun _ => hquiet.snoc rfl,
        hquiet.seen fun d hd hnew => absurd hd hnew,
        fun delivery hdelivery => absurd hdelivery List.not_mem_nil⟩
      obtain rfl : err = other := by
        simpa only [onward, Stage.returned.injEq, Except.error.injEq] using hother
      exact refusal_commit hinv hresult
    | ok granted =>
      refine ⟨fun _ hother => absurd hother (by simp [onward]),
        fun hnone => hquiet.snoc (unchanged_of_empty hinv hresult hnone),
        hquiet.seen fun d hd hnew => returned_of_written hinv hresult hd hnew,
        fun delivery hdelivery => ?_⟩
      obtain ⟨hconsumer, hmessage, hstored, visibleAt, hrow⟩ :=
        written_of_returned hinv hresult hdelivery
      obtain ⟨event, hevent, hpublished⟩ := originally_run hrun delivery.message hstored
      refine ⟨hconsumer, hmessage, ⟨event, ?_, hpublished⟩, _, List.mem_append_right _
        (List.mem_singleton.mpr rfl), ⟨e, rfl⟩, visibleAt, hrow⟩
      rw [history_snoc, ← List.append_assoc]
      exact List.mem_append_left _ hevent

/-- Every run of a poll is sound. -/
theorem sound_run (hpast : Run past start)
    (hrun : Transition.Run (polling fan self options) ⟨start, .called⟩ moves last) :
    Sound fan self options past moves last.stage := by
  induction hrun with
  | nil =>
    exact ⟨fun _ h => (by cases h), fun _ _ h => absurd h List.not_mem_nil,
      fun _ h => absurd h List.not_mem_nil, fun _ h => absurd h List.not_mem_nil⟩
  | @snoc moves move hsteps hv ih =>
    have hhistory := history_run hpast hsteps
    obtain ⟨⟨db, stage⟩, action, after⟩ := move
    change Sound fan self options past moves stage at ih
    change Run (past ++ history fan self options moves) db at hhistory
    rcases step_cases hv with ⟨e, other, op, rfl, rfl⟩ | ⟨e, deadline, now, rfl, rfl, hafter⟩ |
      ⟨hwrite, -, -, hcarries⟩
    · exact ih.later (fun ⟨_, h⟩ => by cases h) rfl ih.refused
    · exact ih.written (inv_run hhistory) hhistory hafter
    · exact ih.later (fun ⟨e, h⟩ => hwrite e h) hcarries.held hcarries.refused

/-- In every run, among any other workers, a poll that ends with an error has leased nothing and
the error is no broken invariant; a poll that succeeds returns every row its claims have leased,
each with the message published under its identifier and a receipt for the row as committed. -/
theorem poll_answers (hpast : Run past start)
    (hrun : Transition.Run (polling fan self options) ⟨start, .called⟩ moves last) :
    (∀ err, last.stage = .returned (.error err) →
      Quiet moves ∧ err ≠ .counterOutOfRange ∧ ∀ message, err ≠ .storageInvariant message) ∧
    ∀ deliveries, last.stage = .returned (.ok deliveries) →
      Seen moves deliveries ∧ ∀ delivery ∈ deliveries,
        Paired self (past ++ history fan self options moves) moves delivery := by
  have hsound := sound_run hpast hrun
  constructor
  · intro err herr
    have hrefusal := hsound.refused err herr
    refine ⟨hsound.quiet (by rw [herr]; rfl), ?_, fun message => ?_⟩ <;>
    · rintro rfl
      cases hrefusal
  · intro deliveries hok
    have hheld : last.stage.held = deliveries := by rw [hok]; rfl
    exact ⟨hheld ▸ hsound.seen, hheld ▸ hsound.paired⟩

end Runs

/-- A consumer of one topic and a message of another. -/
def passedOps : List Op :=
  [.openConsumer "jobs" (.topic "a") 0, .publishBatch [⟨some "b", [7], none⟩] 0]

/-- A poll whose consumer is deleted behind the commit of its claim. -/
def deletedUnder : List Action :=
  [.call 1000 0, .readClock (some 0), .check, .write Engine.inOrder,
    .elsewhere Engine.inOrder Inner.default (.deleteConsumer "jobs" .discardAll), .reread]

set_option maxRecDepth 10000 in
/-- That poll fails after its commit, and has leased nothing. -/
theorem poll_answers_deleted : ∃ moves last,
    Transition.Run (polling Inner.default ⟨1, "jobs", .topic "a"⟩ pollOne)
      ⟨outcomeDb Engine.inOrder Inner.default passedOps Db.empty, .called⟩ moves last ∧
    last.stage = .returned (.error (.consumerDeleted "jobs")) ∧
    (∃ move ∈ moves, Writes move) ∧ Quiet moves := by
  obtain ⟨moves, last, hplay, hstage⟩ : ∃ moves last,
      Transition.play (step Inner.default ⟨1, "jobs", .topic "a"⟩ pollOne) deletedUnder
        ⟨outcomeDb Engine.inOrder Inner.default passedOps Db.empty, .called⟩ =
          some (moves, last) ∧
      last.stage = .returned (.error (.consumerDeleted "jobs")) :=
    ⟨_, _, rfl, rfl⟩
  obtain ⟨hrun, hactions⟩ := Transition.play_spec hplay
  have hwrite : Action.write Engine.inOrder ∈ moves.map Transition.Move.action := by
    simp [hactions, deletedUnder]
  obtain ⟨move, hmove, haction⟩ := List.mem_map.mp hwrite
  have hanswers := poll_answers (trace_run Engine.inOrder Inner.default passedOps Db.empty) hrun
  exact ⟨moves, last, hrun, hstage, ⟨move, hmove, _, haction⟩, (hanswers.1 _ hstage).1⟩

end LiteFan.PollAnswers

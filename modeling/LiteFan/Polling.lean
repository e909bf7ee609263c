import LiteFan.Effect.Polls
import LiteFan.Preservation
import Mathlib.Logic.Relation

/-!
# A poll among other workers

Between two database accesses of a poll any transaction of another worker may
commit. The poll is a machine that makes one access at a time and remembers the
database of its last read; the sequential poll is the path on which nothing else
happens.
-/

namespace LiteFan.Polling

open LiteFan.Api LiteFan.Time LiteFan.Schema LiteFan.Storage LiteFan.Store LiteFan.Consumer
open LiteFan.System LiteFan.Invariant LiteFan.Effect LiteFan.Step LiteFan.Preservation
open Relation Relational

/-- Where a poll stands. -/
inductive Phase where
  /-- About to read the clock and take the read-only check of a claim. -/
  | reading
  /-- The check found work; about to run the writer transaction. -/
  | writing (now : ℤ)
  /-- The transaction committed; about to take the closing read. -/
  | rereading (now : ℤ) (granted : Granted)
  /-- The claim is complete, with the database its last read saw. -/
  | deciding (found : Claim) (read : Db)
  /-- The poll returned, before it looked at its deadline or at its deadline. -/
  | returned (deliveries : List Delivery) (early : Bool) (read : Db)
  | failed (err : Error)

/-- The phase after the read-only check. -/
def afterCheck (now : ℤ) (db : Db) : Except Error (Option Claim) → Phase
  | .error err => .failed err
  | .ok (some found) => .deciding found db
  | .ok none => .writing now

/-- The phase after the writer transaction. -/
def afterCommit (now : ℤ) : Except Error Granted → Phase
  | .error err => .failed err
  | .ok granted => .rereading now granted

/-- The phase after the closing read. -/
def afterReread (db : Db) : Except Error Claim → Phase
  | .error err => .failed err
  | .ok found => .deciding found db

/-- The phase after the decision: return, give up at the deadline, or claim again. -/
def afterDecision (deadline instant : ℕ) (found : Claim) (read : Db) : Phase :=
  match pollVerdict found with
  | some deliveries => .returned deliveries true read
  | none => if deadline - instant = 0 then .returned [] false read else .reading

/-- One move of the poll, or one transaction of another worker. -/
inductive Move (fan : Inner) (self : Consumer) (poll : Poll) (deadline : ℕ) :
    Db × Phase → Db × Phase → Prop
  | elsewhere {event : Event} (hv : system.valid event) (phase : Phase) :
      Move fan self poll deadline (event.before, phase) (event.after, phase)
  | check (now : ℤ) (db : Db) :
      Move fan self poll deadline (db, .reading) (db, afterCheck now db (claimCheck self now db))
  | write (e : Engine) (now : ℤ) (db : Db) :
      Move fan self poll deadline (db, .writing now) ((pollCommit e fan self poll now db).1,
        afterCommit now (pollCommit e fan self poll now db).2)
  | reread (now : ℤ) (granted : Granted) (db : Db) :
      Move fan self poll deadline (db, .rereading now granted)
        (db, afterReread db (claimReread self now granted db))
  | decide (found : Claim) (read : Db) (instant : ℕ) (db : Db) :
      Move fan self poll deadline (db, .deciding found read)
        (db, afterDecision deadline instant found read)

/-- The moves of a poll and of the workers around it. -/
abbrev Moves (fan : Inner) (self : Consumer) (poll : Poll) (deadline : ℕ) :
    Db × Phase → Db × Phase → Prop := ReflTransGen (Move fan self poll deadline)

section Sequential

variable {e : Engine} {fan : Inner} {self : Consumer} {poll : Poll} {deadline : ℕ} {leaseMs : ℤ}
  {db db' : Db}

/-- A claim with nothing else happening is a path of moves. -/
theorem claim_moves (hlease : pollLease fan poll = .ok (some leaseMs)) {now : ℤ} {found : Claim}
    (h : claim e self poll.maxMessages leaseMs now db = (db', .ok found)) :
    ∃ read, Moves fan self poll deadline (db, .reading) (db', .deciding found read) := by
  have hcheck : Move fan self poll deadline (db, .reading)
      (db, afterCheck now db (claimCheck self now db)) := .check now db
  unfold claim at h
  cases hfound : claimCheck self now db with
  | error err => rw [hfound] at h; cases h
  | ok early =>
    rw [hfound] at h hcheck
    cases early with
    | some early =>
      cases h
      exact ⟨db, .single hcheck⟩
    | none =>
      have hwrite : Move fan self poll deadline (db, .writing now)
          ((pollCommit e fan self poll now db).1,
            afterCommit now (pollCommit e fan self poll now db).2) := .write e now db
      have hcommit : pollCommit e fan self poll now db =
          claimCommit e self poll.maxMessages leaseMs now db := by rw [pollCommit, hlease]
      rw [hcommit] at hwrite
      dsimp only at h
      generalize claimCommit e self poll.maxMessages leaseMs now db = committed at h hwrite
      obtain ⟨after, result⟩ := committed
      cases result with
      | error err => cases h
      | ok granted =>
        obtain ⟨hafter, hreread⟩ := Prod.mk.inj h
        subst hafter
        have hlast : Move fan self poll deadline (after, .rereading now granted)
            (after, afterReread after (claimReread self now granted after)) :=
          .reread now granted after
        rw [hreread] at hlast
        exact ⟨after, ((ReflTransGen.single hcheck).tail hwrite).tail hlast⟩

/-- A poll with nothing else happening is a path of moves. -/
theorem pollLoop_moves (hlease : pollLease fan poll = .ok (some leaseMs)) {ticks : List Tick}
    {deliveries : List Delivery}
    (h : pollLoop e self poll.maxMessages leaseMs deadline ticks db =
      (db', .ok (some deliveries))) :
    ∃ early read,
      Moves fan self poll deadline (db, .reading) (db', .returned deliveries early read) := by
  induction ticks generalizing db with
  | nil => cases h
  | cons tick ticks ih =>
    unfold pollLoop at h
    cases hclaim : claim e self poll.maxMessages leaseMs tick.now db with
    | mk after result =>
      rw [hclaim] at h
      cases result with
      | error err => cases h
      | ok found =>
        obtain ⟨read, hmoves⟩ : ∃ read, Moves fan self poll deadline (db, .reading)
            (after, .deciding found read) := claim_moves hlease hclaim
        have hdecide := hmoves.tail (Move.decide found read tick.instant after)
        unfold afterDecision at hdecide
        dsimp only at h
        cases hverdict : pollVerdict found with
        | some verdict =>
          rw [hverdict] at h hdecide
          cases h
          exact ⟨true, read, hdecide⟩
        | none =>
          rw [hverdict] at h hdecide
          dsimp only at h hdecide
          by_cases hdone : deadline - tick.instant = 0
          · rw [if_pos hdone] at h hdecide
            cases h
            exact ⟨false, read, hdecide⟩
          · rw [if_neg hdone] at h hdecide
            obtain ⟨early, last, hrest⟩ := ih h
            exact ⟨early, last, hdecide.trans hrest⟩

end Sequential

section Early

variable {fan : Inner} {self : Consumer} {poll : Poll} {deadline : ℕ}

/-- At the read the consumer was draining, had no delivery row and had scanned up to
its boundary. -/
def Exhausted (read : Db) (c : ℤ) : Prop :=
  ∃ row limit, read.consumers.lookup c = some row ∧ row.drainingAt.isSome = true ∧
    row.drainCursor = some limit ∧ (∀ d ∈ read.deliveries, d.consumerId ≠ c) ∧
    ∀ message ∈ read.messages, topicMatches row.topicFilter message.topic = true →
      message.id ≤ limit → message.id ≤ row.scanCursor

/-- What the poll may conclude from the reads behind its phase. -/
def Sound (c : ℤ) : Phase → Prop
  | .deciding found read => pollVerdict found = some [] → Reachable read ∧ Exhausted read c
  | .returned deliveries early read =>
    early = true → deliveries = [] → Reachable read ∧ Exhausted read c
  | _ => True

/-- A read that sees a draining consumer without deliveries or unscanned entries. -/
theorem exhausted_of_state {read : Db} (hinv : Inv read) {row : ConsumerRow} {c : ℤ}
    (hrow : read.consumers.lookup c = some row) (hdraining : row.drainingAt.isSome = true)
    (hearliest : (stateOf read row).earliestVisibleAt = none)
    (hend : scanLimit read row ≤ row.scanCursor) : Exhausted read c := by
  obtain ⟨hstored, hid⟩ := AutoTable.lookup_eq_some.mp hrow
  have hok := hinv.rows row hstored
  obtain ⟨limit, hlimit⟩ := Option.isSome_iff_exists.mp (hok.draining ▸ hdraining)
  have hbound : scanLimit read row = limit := by rw [scanLimit, hlimit, Option.getD_some]
  have hnone : deliveriesOf read row.id = [] :=
    List.map_eq_nil_iff.mp (List.min?_eq_none_iff.mp hearliest)
  refine ⟨row, limit, hrow, hdraining, hlimit, fun d hd hc => ?_, fun message _ _ hle => ?_⟩
  · have hmem : d ∈ deliveriesOf read row.id :=
      Table.mem_select.mpr ⟨hd, beq_iff_eq.mpr (hc.trans hid.symm)⟩
    rw [hnone] at hmem
    exact absurd hmem List.not_mem_nil
  · omega

/-- A verdict of nothing needs a draining claim with nothing to wait for. -/
theorem pollVerdict_empty {found : Claim} (h : pollVerdict found = some []) :
    found.deliveries = [] ∧ found.draining = true ∧ found.nextVisibleAt = none := by
  unfold pollVerdict at h
  by_cases hempty : found.deliveries.isEmpty = true
  · have hnil := List.isEmpty_iff.mp hempty
    rw [hempty] at h
    simp only [Bool.not_true, Bool.false_eq_true, if_false, Bool.and_eq_true,
      Option.isNone_iff_eq_none, ite_eq_left_iff] at h
    by_contra hcontra
    exact absurd (h fun hboth => hcontra ⟨hnil, hboth⟩) (by simp)
  · rw [eq_false_of_ne_true hempty] at h
    simp only [Bool.not_false, if_true, Option.some.injEq] at h
    rw [h] at hempty
    exact absurd rfl hempty

/-- The check of a claim concludes only what its read shows. -/
theorem sound_check {db : Db} (hreach : Reachable db) (now : ℤ) :
    Sound self.id (afterCheck now db (claimCheck self now db)) := by
  cases hrow : db.consumers.lookup self.id with
  | none =>
    have hgone : claimCheck self now db = .error (.consumerDeleted self.name) := by
      rw [claimCheck, claimState, hrow, Option.map_none]
    rw [hgone]
    exact trivial
  | some row =>
    by_cases hnothing : Nothing db row now
    · rw [(claimCheck_eq hrow).1 hnothing]
      intro hverdict
      obtain ⟨-, hdraining, hearliest⟩ := pollVerdict_empty hverdict
      exact ⟨hreach, exhausted_of_state (inv_reachable hreach) hrow hdraining hearliest hnothing.2⟩
    · rw [(claimCheck_eq hrow).2 hnothing]
      exact trivial

/-- The closing read of a claim concludes only what it shows. -/
theorem sound_reread {db : Db} (hreach : Reachable db) (now : ℤ) (granted : Granted) :
    Sound self.id (afterReread db (claimReread self now granted db)) := by
  unfold claimReread
  by_cases hempty : granted.deliveries.isEmpty = true
  · rw [if_pos hempty]
    cases hrow : db.consumers.lookup self.id with
    | none =>
      rw [claimState, hrow, Option.map_none]
      exact trivial
    | some row =>
      rw [claimState_eq hrow]
      intro hverdict
      obtain ⟨-, hdraining, hnext⟩ := pollVerdict_empty hverdict
      dsimp only at hdraining hnext
      by_cases hend : (stateOf db row).scanCursor < (stateOf db row).scanLimit
      · rw [if_pos hend] at hnext
        cases hnext
      · rw [if_neg hend] at hnext
        exact ⟨hreach,
          exhausted_of_state (inv_reachable hreach) hrow hdraining hnext (not_lt.mp hend)⟩
  · rw [if_neg hempty]
    intro hverdict
    have hnil : granted.deliveries = [] := (pollVerdict_empty hverdict).1
    exact absurd (List.isEmpty_iff.mpr hnil) hempty

/-- One move keeps the database reachable and the phase sound. -/
theorem sound_move {s t : Db × Phase} (h : Move fan self poll deadline s t)
    (hs : Reachable s.1 ∧ Sound self.id s.2) : Reachable t.1 ∧ Sound self.id t.2 := by
  obtain ⟨hreach, hsound⟩ := hs
  cases h with
  | @elsewhere event hv phase =>
    obtain ⟨events, hrun⟩ := hreach
    exact ⟨⟨_, hrun.snoc event hv⟩, hsound⟩
  | check now db => exact ⟨hreach, sound_check hreach now⟩
  | write e now db =>
    obtain ⟨events, hrun⟩ := hreach
    have hv : system.valid (perform e fan (.claim self poll now) db) := ⟨e, rfl⟩
    refine ⟨⟨_, hrun.snoc (perform e fan (.claim self poll now) db) hv⟩, ?_⟩
    cases (pollCommit e fan self poll now db).2 with
    | error err => exact trivial
    | ok granted => exact trivial
  | reread now granted db => exact ⟨hreach, sound_reread hreach now granted⟩
  | decide found read instant db =>
    refine ⟨hreach, ?_⟩
    unfold afterDecision
    cases hverdict : pollVerdict found with
    | some deliveries =>
      intro _ hnil
      exact hsound (hverdict.trans (congrArg some hnil))
    | none =>
      dsimp only
      split_ifs with hdone
      · intro hearly
        cases hearly
      · exact trivial

/-- So does any number of moves. -/
theorem sound_moves {s t : Db × Phase} (h : Moves fan self poll deadline s t)
    (hs : Reachable s.1 ∧ Sound self.id s.2) : Reachable t.1 ∧ Sound self.id t.2 := by
  induction h with
  | refl => exact hs
  | tail _ hmove ih => exact sound_move hmove ih

/-- A poll that returns nothing before its deadline has, at its last read, seen an
exhausted consumer, whatever happened around it. -/
theorem early_exhausted {db db' read : Db} (hreach : Reachable db)
    (h : Moves fan self poll deadline (db, .reading) (db', .returned [] true read)) :
    Reachable read ∧ Exhausted read self.id := by
  exact (sound_moves h ⟨hreach, trivial⟩).2 rfl rfl

end Early

end LiteFan.Polling

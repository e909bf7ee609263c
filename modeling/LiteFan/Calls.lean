import LiteFan.Effect.Polls
import LiteFan.Effect.Snapshots
import LiteFan.Preservation

/-!
# Whole calls

A call is a write transaction, one round of a poll with its check, its claim and
its closing read, a drain call with its report, or a read. Requests answered one
after the other keep the cross-table invariant.
-/

namespace LiteFan.Calls

open LiteFan.Api LiteFan.Time LiteFan.Schema LiteFan.Storage LiteFan.Store LiteFan.Consumer
open LiteFan.System LiteFan.Invariant LiteFan.Effect LiteFan.Step LiteFan.Preservation

/-- The monotonic clock when a poll is called: the last instant it can hold, and its reading. -/
structure Start where
  instantMax : ℕ
  started : ℕ
  deriving DecidableEq

/-- One call with its arguments and clock reading. -/
inductive Call where
  | commit (op : Op)
  /-- One round of a poll, none when the arguments ask for nothing. -/
  | poll (self : Consumer) (options : Poll) (start : Start) (now : ℤ)
  | archives (self : Consumer) (list : ListArchives)
  | beginDraining (self : Consumer) (now : ℤ)
  | consumerSnapshot (self : Consumer) (now : ℤ)
  | snapshot (now : ℤ)

/-- What a call reports. -/
inductive Answer where
  | reply (reply : Reply)
  | polled (found : Option Claim)
  | page (page : List ArchivedDelivery)
  | drained (changed : Bool)
  | consumerSnapshot (found : ConsumerSnapshot)
  | snapshot (found : StoreSnapshot)
  deriving DecidableEq

/-- The handle a call goes through, none for a call of the store. -/
def Call.through : Call → Option Consumer
  | .commit op => System.through op
  | .poll self .. | .archives self _ | .beginDraining self _ | .consumerSnapshot self _ => some self
  | .snapshot _ => none

/-- The checks of a poll's arguments: its lease, none when it asks for nothing, once its
deadline is an instant. -/
def pollChecks (fan : Inner) (options : Poll) (start : Start) : Except Error (Option ℤ) :=
  match pollLease fan options with
  | .error err => .error err
  | .ok none => .ok none
  | .ok (some leaseMs) =>
    match pollDeadline start.instantMax start.started options with
    | .error err => .error err
    | .ok _ => .ok (some leaseMs)

/-- A poll of one round: the checks of its arguments and one claim. -/
def pollRound (e : Engine) (fan : Inner) (self : Consumer) (options : Poll) (start : Start)
    (now : ℤ) (db : Db) : Db × Except Error (Option Claim) :=
  match pollChecks fan options start with
  | .error err => (db, .error err)
  | .ok none => (db, .ok none)
  | .ok (some leaseMs) =>
    match claim e self options.maxMessages leaseMs now db with
    | (db', .error err) => (db', .error err)
    | (db', .ok found) => (db', .ok (some found))

/-- Wrap the result of a part of a call. -/
def answering {α : Type} (wrap : α → Answer) (result : Db × Except Error α) :
    Db × Except Error Answer := (result.1, result.2.map wrap)

/-- Answer a call. -/
def Call.run (e : Engine) (fan : Inner) (call : Call) (db : Db) : Db × Except Error Answer :=
  match call with
  | .commit op => answering .reply (exec e fan op db)
  | .poll self options start now =>
    answering .polled (pollRound e fan self options start now db)
  | .archives self list => answering .page (db, Consumer.archives fan self list db)
  | .beginDraining self now => answering .drained (Consumer.beginDraining self now db)
  | .consumerSnapshot self now => answering .consumerSnapshot (db, Consumer.snapshot self now db)
  | .snapshot now => answering .snapshot (db, Store.snapshot db now)

/-- A call with the engine that runs it and the store handle it goes through. -/
structure Request : Type 1 where
  e : Engine
  fan : Inner
  call : Call

/-- The database a request leaves. -/
def Request.after (request : Request) (db : Db) : Db :=
  (request.call.run request.e request.fan db).1

/-- What a request is answered. -/
def Request.answer (request : Request) (db : Db) : Except Error Answer :=
  (request.call.run request.e request.fan db).2

/-- The answers of requests made one after the other. -/
def answers : List Request → Db → List (Except Error Answer)
  | [], _ => []
  | request :: requests, db => request.answer db :: answers requests (request.after db)

section Writes

variable {e : Engine} {fan : Inner} {self : Consumer} {options : Poll} {start : Start} {now : ℤ}
    {db : Db}

/-- A poll that passes its checks has a lease. -/
theorem pollChecks_lease {leaseMs : ℤ} (h : pollChecks fan options start = .ok (some leaseMs)) :
    pollLease fan options = .ok (some leaseMs) := by
  unfold pollChecks at h
  split at h
  · cases h
  · cases h
  · next found hlease =>
    split at h
    · cases h
    · cases h
      exact hlease

/-- A round of a poll writes nothing or what its writer transaction writes. -/
theorem pollRound_after (e : Engine) (fan : Inner) (self : Consumer) (options : Poll)
    (start : Start) (now : ℤ) (db : Db) : (pollRound e fan self options start now db).1 = db ∨
      (pollRound e fan self options start now db).1 =
        (exec e fan (.claim self options now) db).1 := by
  unfold pollRound
  cases hchecks : pollChecks fan options start with
  | error err => exact .inl rfl
  | ok lease =>
    cases lease with
    | none => exact .inl rfl
    | some leaseMs =>
      have hlease := pollChecks_lease hchecks
      have hexec : (exec e fan (.claim self options now) db).1 =
          (claimCommit e self options.maxMessages leaseMs now db).1 := by
        simp only [exec, replying, pollCommit, hlease]
      rw [hexec]
      dsimp only
      unfold claim
      cases claimCheck self now db with
      | error err => exact .inl rfl
      | ok early =>
        cases early with
        | some found => exact .inl rfl
        | none =>
          right
          cases hcommit : claimCommit e self options.maxMessages leaseMs now db with
          | mk db' granted =>
            cases granted with
            | error err => rfl
            | ok granted =>
              dsimp only
              cases claimReread self now granted db' <;> rfl

/-- A drain call writes what its guarded update writes. -/
theorem beginDraining_after : (beginDraining self now db).1 =
    (exec e fan (.beginDraining self now) db).1 := by
  change _ = (commit (drainTransition self now) db).1
  unfold beginDraining
  cases commit (drainTransition self now) db with
  | mk db' changed => cases changed <;> rfl

/-- A call writes nothing or what one operation through the same handle writes. -/
theorem call_after (e : Engine) (fan : Inner) (call : Call) (db : Db) :
    (call.run e fan db).1 = db ∨
      ∃ op, System.through op = call.through ∧ (call.run e fan db).1 = (exec e fan op db).1 := by
  cases call with
  | commit op => exact .inr ⟨op, rfl, rfl⟩
  | poll self options start now =>
    rcases pollRound_after e fan self options start now db with hsame | hexec
    · exact .inl hsame
    · exact .inr ⟨.claim self options now, rfl, hexec⟩
  | beginDraining self now => exact .inr ⟨.beginDraining self now, rfl, beginDraining_after⟩
  | archives self list | consumerSnapshot self now | snapshot now => exact .inl rfl

end Writes

end LiteFan.Calls

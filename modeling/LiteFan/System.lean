import LiteFan.Consumer
import LiteFan.Transition.Run

/-!
# The store as a system of committed transactions

SQLite serialises writers, so any interleaving of workers is a sequence of
committed transactions, each on the state its predecessor left. An operation
carries the handle, the arguments and the clock reading of one transaction; an
event adds the store handle it ran through, the states before and after it and
the reply. Nothing relates the clock readings of successive operations.
-/

namespace LiteFan.System

open LiteFan.Api LiteFan.Time LiteFan.Schema LiteFan.Storage LiteFan.Store LiteFan.Consumer

/-- One write transaction with its arguments. -/
inductive Op where
  | openConsumer (name : String) (filter : Filter) (now : ℤ)
  | publishBatch (messages : List Publish) (now : ℤ)
  /-- The writer transaction of one claim of a poll. -/
  | claim (self : Consumer) (poll : Poll) (now : ℤ)
  | ackBatch (self : Consumer) (receipts : List Receipt)
  | nackBatch (self : Consumer) (receipts : List Receipt) (retry : Retry) (now : ℤ)
  | extendVisibilityBatch (self : Consumer) (receipts : List Receipt) (visibilityTimeout : Duration)
      (now : ℤ)
  | archiveBatch (self : Consumer) (receipts : List Receipt) (detail : Option String) (now : ℤ)
  | redriveBatch (self : Consumer) (archiveIds : List ℤ) (retry : Retry) (now : ℤ)
  | purgeArchives (self : Consumer) (purge : PurgeArchives)
  /-- The guarded update of a drain call. -/
  | beginDraining (self : Consumer) (now : ℤ)
  | deleteConsumer (name : String) (mode : DeleteMode)
  | pruneMessages (prune : Prune)

/-- The handle an operation is called through, none for an operation of the store. -/
def through : Op → Option Consumer
  | .claim self .. | .ackBatch self _ | .nackBatch self .. | .extendVisibilityBatch self ..
  | .archiveBatch self .. | .redriveBatch self .. | .purgeArchives self _ | .beginDraining self _ =>
    some self
  | .openConsumer .. | .publishBatch .. | .deleteConsumer .. | .pruneMessages _ => none

/-- What a transaction reports. -/
inductive Reply where
  | opened (handle : Consumer)
  | outcomes (outcomes : List PublishOutcome)
  | granted (granted : Granted)
  | batch (result : BatchResult)
  | purged (outcome : PurgeArchivesOutcome)
  /-- Whether the guarded update changed the row. -/
  | drained (changed : Bool)
  | deleted (outcome : DeleteOutcome)
  | pruned (outcome : PruneOutcome)
  deriving DecidableEq

/-- Wrap the result of a transaction. -/
def replying {α : Type} (wrap : α → Reply) (result : Db × Except Error α) :
    Db × Except Error Reply :=
  (result.1, result.2.map wrap)

/-- Run one operation. -/
def exec (e : Engine) (fan : Inner) (op : Op) (db : Db) : Db × Except Error Reply :=
  match op with
  | .openConsumer name filter now => replying .opened (commit (openConsumer name filter now) db)
  | .publishBatch messages now => replying .outcomes (commit (publishBatch e fan messages now) db)
  | .claim self poll now => replying .granted (pollCommit e fan self poll now db)
  | .ackBatch self receipts => replying .batch (commit (ackBatch fan self receipts) db)
  | .nackBatch self receipts retry now =>
    replying .batch (commit (nackBatch fan self receipts retry now) db)
  | .extendVisibilityBatch self receipts visibilityTimeout now =>
    replying .batch (commit (extendVisibilityBatch fan self receipts visibilityTimeout now) db)
  | .archiveBatch self receipts detail now =>
    replying .batch (commit (archiveBatchWithDetail e fan self receipts detail now) db)
  | .redriveBatch self archiveIds retry now =>
    replying .batch (commit (redriveBatch e fan self archiveIds retry now) db)
  | .purgeArchives self purge => replying .purged (commit (purgeArchives fan self purge) db)
  | .beginDraining self now => replying .drained (commit (drainTransition self now) db)
  | .deleteConsumer name mode => replying .deleted (commit (deleteConsumer name mode) db)
  | .pruneMessages prune => replying .pruned (commit (pruneMessages fan prune) db)

/-- One committed or refused transaction of a run. -/
structure Event where
  /-- The store handle it ran through. -/
  fan : Inner
  op : Op
  before : Db
  after : Db
  reply : Except Error Reply

/-- The transition system of the store, over every engine at every step. -/
def system : Transition.System Db Event where
  before := Event.before
  after := Event.after
  valid event := ∃ e : Engine, exec e event.fan event.op event.before = (event.after, event.reply)

/-- A run of the store from its creation. -/
abbrev Run (events : List Event) (db : Db) : Prop := Transition.Run system Db.empty events db

/-- A state some run leads to. -/
def Reachable (db : Db) : Prop := ∃ events, Run events db

/-- The event of an operation performed on a database. -/
def perform (e : Engine) (fan : Inner) (op : Op) (db : Db) : Event :=
  ⟨fan, op, db, (exec e fan op db).1, (exec e fan op db).2⟩

/-- The events of operations performed one after the other. -/
def trace (e : Engine) (fan : Inner) : List Op → Db → List Event
  | [], _ => []
  | op :: ops, db => perform e fan op db :: trace e fan ops (exec e fan op db).1

/-- The database operations lead to. -/
def outcomeDb (e : Engine) (fan : Inner) (ops : List Op) (db : Db) : Db :=
  ops.foldl (fun db op => (exec e fan op db).1) db

/-- Operations performed one after the other are a run. -/
theorem trace_run (e : Engine) (fan : Inner) (ops : List Op) (db : Db) :
    Transition.Run system db (trace e fan ops db) (outcomeDb e fan ops db) := by
  induction ops generalizing db with
  | nil => exact .nil
  | cons op ops ih =>
    have hfirst : Transition.Run system db [perform e fan op db] (exec e fan op db).1 :=
      .single (S := system) (e := perform e fan op db) ⟨e, rfl⟩
    exact hfirst.append (ih (exec e fan op db).1)

/-- What operations lead to from the creation is reachable. -/
theorem reachable_outcome (e : Engine) (fan : Inner) (ops : List Op) :
    Reachable (outcomeDb e fan ops Db.empty) := ⟨_, trace_run e fan ops Db.empty⟩

/-- A transaction leads from a reachable state to a reachable state. -/
theorem reachable_exec {db : Db} (h : Reachable db) (e : Engine) (fan : Inner) (op : Op) :
    Reachable (exec e fan op db).1 := by
  obtain ⟨events, hrun⟩ := h
  have hvalid : system.valid (perform e fan op db) := ⟨e, rfl⟩
  exact ⟨_, hrun.snoc (perform e fan op db) hvalid⟩

/-- An event of operations performed one after the other carries one of them. -/
theorem op_of_mem_trace {e : Engine} {fan : Inner} {ops : List Op} {db : Db} {event : Event}
    (h : event ∈ trace e fan ops db) : event.op ∈ ops := by
  induction ops generalizing db with
  | nil => exact absurd h List.not_mem_nil
  | cons op ops ih =>
    rcases List.mem_cons.mp h with rfl | hrest
    · exact List.mem_cons_self
    · exact List.mem_cons_of_mem _ (ih hrest)

/-- The first handle of a fresh store, for runs on fixed inputs. -/
def firstHandle : Consumer := ⟨1, "jobs", .all⟩

/-- A poll for one message, leased for a millisecond. -/
def pollOne : Poll := ⟨1, 1000000, 0⟩

end LiteFan.System

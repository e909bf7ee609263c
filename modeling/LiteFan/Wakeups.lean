import LiteFan.Signals
import LiteFan.System
import LiteFan.Transition.Labelled

/-!
# Long polls and the operations that wake them

A long poll marks both of its signals seen, claims, and then waits until a
signal changes or its timer fires. A call commits its transaction and then
raises its signals one by one. Any number of both take turns step by step, and
other processes and store handles commit in between without raising anything.
-/

namespace LiteFan.Wakeups

open LiteFan.Api LiteFan.Time LiteFan.Schema LiteFan.Storage LiteFan.Store LiteFan.Consumer
open LiteFan.System LiteFan.Signals

/-- A consumer handle with the signals it holds. -/
structure Handle where
  consumer : Consumer
  publishSignal : Signal
  consumerSignal : Signal
  deriving DecidableEq

/-- A handle keeps both of its signals alive. -/
def Handle.holds (handle : Handle) (signal : Signal) : Bool :=
  handle.publishSignal == signal || handle.consumerSignal == signal

/-- Where a long poll stands. -/
inductive Phase where
  /-- At the top of the loop. -/
  | looping
  | publishesMarked
  | bothMarked
  /-- The claim has read the clock. -/
  | clockRead (now : ℤ)
  /-- The read-only check found work. -/
  | workFound (now : ℤ)
  /-- The writer transaction has committed. -/
  | written (now : ℤ) (granted : Granted)
  | claimed (found : Claim)
  /-- Waiting for a signal or the timer. -/
  | blocked (nextVisibleAt : Option ℤ)
  | finished (result : Except Error (List Delivery))
  /-- Its caller has given up on it. -/
  | cancelled

/-- The claim has read the clock, and the poll has not woken since. -/
def Phase.timed : Phase → Bool
  | .clockRead _ | .workFound _ | .written _ _ | .claimed _ | .blocked _ => true
  | _ => false

/-- The claim has also read the database. -/
def Phase.sampled : Phase → Bool
  | .workFound _ | .written _ _ | .claimed _ | .blocked _ => true
  | _ => false

/-- The poll has not returned. -/
def Phase.running : Phase → Bool
  | .finished _ | .cancelled => false
  | _ => true

/-- A long poll with its two subscriptions. -/
structure Poller where
  handle : Handle
  options : Poll
  deadline : ℕ
  publishes : Receiver
  consumerChanges : Receiver
  phase : Phase

/-- What ends a wait. -/
inductive Wake where
  | publishes
  | consumerChanges
  | timer

/-- One step of a long poll with the readings it takes. -/
inductive PollStep : Type 1 where
  | markPublishes
  | markConsumer
  | readClock (now : ℤ)
  | check
  | write (e : Engine)
  | reread
  | wait (instant : ℕ)
  | wake (wake : Wake)

/-- The read-only check of the claim. -/
def Poller.checkStep (q : Poller) (now : ℤ) (db : Db) : Phase :=
  match claimCheck q.handle.consumer now db with
  | .error err => .finished (.error err)
  | .ok (some early) => .claimed early
  | .ok none => .workFound now

/-- The writer transaction of the claim. -/
def Poller.writeStep (e : Engine) (fan : Inner) (q : Poller) (now : ℤ) (db : Db) : Db × Phase :=
  match pollCommit e fan q.handle.consumer q.options now db with
  | (db', .error err) => (db', .finished (.error err))
  | (db', .ok granted) => (db', .written now granted)

/-- The closing read of the claim. -/
def Poller.rereadStep (q : Poller) (now : ℤ) (granted : Granted) (db : Db) : Phase :=
  match claimReread q.handle.consumer now granted db with
  | .error err => .finished (.error err)
  | .ok found => .claimed found

/-- The poll returns what it has found, gives up at its deadline, or waits. -/
def Poller.waitStep (q : Poller) (found : Claim) (instant : ℕ) : Phase :=
  match pollVerdict found with
  | some deliveries => .finished (.ok deliveries)
  | none => if q.deadline - instant = 0 then .finished (.ok []) else .blocked found.nextVisibleAt

/-- A wait ends when a signal has changed, which is marked seen, or with the timer. -/
def Poller.wakeStep (signals : Signals) (q : Poller) : Wake → Option Poller
  | .publishes =>
    if q.publishes.changed signals then
      some { q with publishes := q.publishes.borrowAndUpdate signals, phase := .looping }
    else none
  | .consumerChanges =>
    if q.consumerChanges.changed signals then
      some { q with
        consumerChanges := q.consumerChanges.borrowAndUpdate signals
        phase := .looping }
    else none
  | .timer => some { q with phase := .looping }

/-- One step of the loop of a poll, if it is the next one. -/
def Poller.advance (fan : Inner) (signals : Signals) (q : Poller) (step : PollStep) (db : Db) :
    Option (Db × Poller) :=
  match q.phase, step with
  | .looping, .markPublishes =>
    some (db, { q with
      publishes := q.publishes.borrowAndUpdate signals
      phase := .publishesMarked })
  | .publishesMarked, .markConsumer =>
    some (db, { q with
      consumerChanges := q.consumerChanges.borrowAndUpdate signals, phase := .bothMarked })
  | .bothMarked, .readClock now => some (db, { q with phase := .clockRead now })
  | .clockRead now, .check => some (db, { q with phase := q.checkStep now db })
  | .workFound now, .write e =>
    let written := q.writeStep e fan now db
    some (written.1, { q with phase := written.2 })
  | .written now granted, .reread => some (db, { q with phase := q.rereadStep now granted db })
  | .claimed found, .wait instant => some (db, { q with phase := q.waitStep found instant })
  | .blocked _, .wake wake => (q.wakeStep signals wake).map fun q' => (db, q')
  | _, _ => none

/-- A signal that a call raises after its commit. -/
inductive Target where
  | allPublishes
  | topic (name : String)
  | consumer (id : ℤ)
  /-- The consumer signal that the calling handle holds. -/
  | own (handle : Handle)
  deriving DecidableEq

/-- Where a call stands after its commit. -/
inductive Stage where
  /-- Raising its signals: those raised so far and those to come. -/
  | notifying (sent pending : List Target)
  /-- An open before it takes its publish signal. -/
  | opened (consumer : Consumer)
  /-- An open before it takes its consumer signal. -/
  | holding (consumer : Consumer) (publishSignal : Signal)
  /-- An open that has built its handle. -/
  | returned
  /-- Its caller has given up on it. -/
  | abandoned

/-- A call with the transaction it has committed. -/
structure Task where
  event : Event
  stage : Stage

/-- An open keeps the signal it has taken alive. -/
def Task.holds (task : Task) (signal : Signal) : Bool :=
  match task.stage with
  | .holding _ publishSignal => publishSignal == signal
  | _ => false

/-- The messages that a publish transaction has inserted. -/
def toPublish (event : Event) : List Publish :=
  match event.op, event.reply with
  | .publishBatch messages _, .ok (.outcomes outcomes) =>
    ((messages.zip outcomes).filter fun pair => pair.2.isPublished).map Prod.fst
  | _, _ => []

/-- The signals a call raises: a publish that inserted something raises the
signal of all publishes and then those of its topics, in the order of a hash
set; a receipt or archive batch that applied and a drain that changed the row
raise the handle's own; a deletion raises the one registered for the identity. -/
def targets (event : Event) (handle : Option Handle) (topics : List String) : List Target :=
  let own := (handle.map Target.own).toList
  match event.op, event.reply with
  | .publishBatch .., .ok (.outcomes _) =>
    if (toPublish event).isEmpty then [] else .allPublishes :: topics.map .topic
  | .nackBatch .., .ok (.batch result) => if result.applied > 0 then own else []
  | .archiveBatch .., .ok (.batch result) => if result.applied > 0 then own else []
  | .redriveBatch .., .ok (.batch result) => if result.applied > 0 then own else []
  | .beginDraining .., .ok (.drained changed) => if changed then own else []
  | .deleteConsumer name _, .ok (.deleted _) =>
    ((consumerNamed event.before name).map fun row => .consumer row.id).toList
  | _, _ => []

/-- What a call does after its commit. -/
def afterCommit (event : Event) (handle : Option Handle) (topics : List String) : Stage :=
  match event.reply with
  | .ok (.opened consumer) => .opened consumer
  | _ => .notifying [] (targets event handle topics)

/-- The store handle with everything that uses it. -/
structure World where
  db : Db
  signals : Signals
  /-- The live consumer handles, clones included. -/
  handles : List Handle
  pollers : List Poller
  tasks : List Task

/-- A new store handle. -/
def World.initial : World := ⟨Db.empty, Signals.new, [], [], []⟩

/-- Something holds the signal, so weak references to it upgrade. -/
def World.held (w : World) (signal : Signal) : Bool :=
  signal == w.signals.allPublishes || w.handles.any (·.holds signal) || w.tasks.any (·.holds signal)

/-- Raise one signal. -/
def World.raise (w : World) : Target → Signals
  | .allPublishes => notify w.signals w.signals.allPublishes
  | .topic name => notifyTopic w.held w.signals name
  | .consumer id => notifyConsumer w.held w.signals id
  | .own handle => notify w.signals handle.consumerSignal

/-- The handles that a call has yet to raise the signal of. -/
def Task.borrowed (task : Task) : List Handle :=
  match task.stage with
  | .notifying _ pending => pending.filterMap fun
    | .own handle => some handle
    | _ => none
  | _ => []

/-- The handles that polls and calls borrow. -/
def World.borrowed (w : World) : List Handle :=
  (w.pollers.filter (·.phase.running)).map Poller.handle ++ w.tasks.flatMap Task.borrowed

/-- What can happen next. -/
inductive Action : Type 1 where
  /-- A poll subscribes to its signals. -/
  | poll (handle : Handle) (options : Poll) (instantMax started : ℕ)
  | advance (p : ℕ) (step : PollStep)
  /-- A call commits; the topics it is to raise come in the order of a hash set. -/
  | call (t : ℕ) (e : Engine) (op : Op) (handle : Option Handle) (topics : List String)
  /-- A call raises its next signal. -/
  | notify (t : ℕ)
  | takePublishes (t : ℕ)
  | takeConsumer (t : ℕ)
  | clone (handle : Handle)
  | drop (handle : Handle)
  /-- The caller of a poll gives up on it. -/
  | cancel (p : ℕ)
  /-- The caller of an operation gives up on it after its commit and before its end. -/
  | abandon (t : ℕ)
  /-- Another process commits, or another store handle of this one. -/
  | foreign (e : Engine) (fan : Inner) (op : Op)

/-- One step of anything, if it can happen. -/
def step (fan : Inner) (w : World) (action : Action) : Option World :=
  match action with
  | .poll handle options instantMax started =>
    match pollLease fan options, pollDeadline instantMax started options with
    | .ok (some _), .ok deadline =>
      if handle ∈ w.handles then
        let q : Poller := ⟨handle, options, deadline, subscribe w.signals handle.publishSignal,
          subscribe w.signals handle.consumerSignal, .looping⟩
        some { w with pollers := w.pollers ++ [q] }
      else none
    | _, _ => none
  | .advance p step =>
    match w.pollers[p]? with
    | none => none
    | some q => (q.advance fan w.signals step w.db).map fun moved =>
      { w with db := moved.1, pollers := w.pollers.set p moved.2 }
  | .call t e op handle topics =>
    let event := perform e fan op w.db
    if t = w.tasks.length ∧ through op = handle.map Handle.consumer ∧
        handle.all (fun h => decide (h ∈ w.handles)) = true ∧
        topics.Perm ((toPublish event).filterMap Publish.topic).dedup then
      some { w with
        db := event.after, tasks := w.tasks ++ [⟨event, afterCommit event handle topics⟩] }
    else none
  | .notify t =>
    match w.tasks[t]? with
    | some ⟨event, .notifying sent (target :: pending)⟩ =>
      some { w with
        signals := w.raise target
        tasks := w.tasks.set t ⟨event, .notifying (sent ++ [target]) pending⟩ }
    | _ => none
  | .takePublishes t =>
    match w.tasks[t]? with
    | some ⟨event, .opened consumer⟩ =>
      let found := publishesFor w.held w.signals consumer.filter
      some { w with signals := found.1, tasks := w.tasks.set t ⟨event, .holding consumer found.2⟩ }
    | _ => none
  | .takeConsumer t =>
    match w.tasks[t]? with
    | some ⟨event, .holding consumer publishSignal⟩ =>
      let found := consumerSignal w.held w.signals consumer.id
      some { w with
        signals := found.1
        handles := w.handles ++ [⟨consumer, publishSignal, found.2⟩]
        tasks := w.tasks.set t ⟨event, .returned⟩ }
    | _ => none
  | .clone handle =>
    if handle ∈ w.handles then some { w with handles := w.handles ++ [handle] } else none
  | .drop handle =>
    if handle ∈ w.handles ∧ ∀ h ∈ w.borrowed, h ∈ w.handles.erase handle then
      some { w with handles := w.handles.erase handle }
    else none
  | .cancel p =>
    match w.pollers[p]? with
    | none => none
    | some q => some { w with pollers := w.pollers.set p { q with phase := .cancelled } }
  | .abandon t =>
    match w.tasks[t]? with
    | some ⟨event, .notifying _ (_ :: _)⟩ | some ⟨event, .opened _⟩ | some ⟨event, .holding _ _⟩ =>
      some { w with tasks := w.tasks.set t ⟨event, .abandoned⟩ }
    | _ => none
  | .foreign e fan op => some { w with db := (exec e fan op w.db).1 }

/-- One thing that has happened. -/
abbrev Move := Transition.Move World Action

/-- Everything that uses one store handle, step by step. -/
abbrev interleaving (fan : Inner) : Transition.System World Move := Transition.labelled (step fan)

/-- The possible steps, one constructor for each action. -/
inductive Stepped (fan : Inner) (w : World) : Action → World → Prop
  | poll {handle : Handle} {options : Poll} {instantMax started deadline : ℕ}
      (hhandle : handle ∈ w.handles) :
      Stepped fan w (.poll handle options instantMax started)
        { w with pollers := w.pollers ++ [⟨handle, options, deadline,
            subscribe w.signals handle.publishSignal, subscribe w.signals handle.consumerSignal,
            .looping⟩] }
  | advance {p : ℕ} {step : PollStep} {q q' : Poller} {db : Db} (hq : w.pollers[p]? = some q)
      (hadvance : q.advance fan w.signals step w.db = some (db, q')) :
      Stepped fan w (.advance p step) { w with db := db, pollers := w.pollers.set p q' }
  | call {e : Engine} {op : Op} {handle : Option Handle} {topics : List String}
      (hthrough : through op = handle.map Handle.consumer)
      (hhandle : ∀ h, handle = some h → h ∈ w.handles)
      (htopics : topics.Perm
        ((toPublish (perform e fan op w.db)).filterMap Publish.topic).dedup) :
      Stepped fan w (.call w.tasks.length e op handle topics)
        { w with
          db := (perform e fan op w.db).after
          tasks := w.tasks ++
            [⟨perform e fan op w.db, afterCommit (perform e fan op w.db) handle topics⟩] }
  | notify {t : ℕ} {event : Event} {sent pending : List Target} {target : Target}
      (ht : w.tasks[t]? = some ⟨event, .notifying sent (target :: pending)⟩) :
      Stepped fan w (.notify t)
        { w with
          signals := w.raise target
          tasks := w.tasks.set t ⟨event, .notifying (sent ++ [target]) pending⟩ }
  | takePublishes {t : ℕ} {event : Event} {consumer : Consumer}
      (ht : w.tasks[t]? = some ⟨event, .opened consumer⟩) :
      Stepped fan w (.takePublishes t)
        { w with
          signals := (publishesFor w.held w.signals consumer.filter).1
          tasks := w.tasks.set t
            ⟨event, .holding consumer (publishesFor w.held w.signals consumer.filter).2⟩ }
  | takeConsumer {t : ℕ} {event : Event} {consumer : Consumer} {publishSignal : Signal}
      (ht : w.tasks[t]? = some ⟨event, .holding consumer publishSignal⟩) :
      Stepped fan w (.takeConsumer t)
        { w with
          signals := (consumerSignal w.held w.signals consumer.id).1
          handles := w.handles ++
            [⟨consumer, publishSignal, (consumerSignal w.held w.signals consumer.id).2⟩]
          tasks := w.tasks.set t ⟨event, .returned⟩ }
  | clone {handle : Handle} (hhandle : handle ∈ w.handles) :
      Stepped fan w (.clone handle) { w with handles := w.handles ++ [handle] }
  | drop {handle : Handle} (hrest : ∀ h ∈ w.borrowed, h ∈ w.handles.erase handle) :
      Stepped fan w (.drop handle) { w with handles := w.handles.erase handle }
  | cancel {p : ℕ} {q : Poller} (hq : w.pollers[p]? = some q) :
      Stepped fan w (.cancel p)
        { w with pollers := w.pollers.set p { q with phase := .cancelled } }
  | abandon {t : ℕ} {task : Task} (ht : w.tasks[t]? = some task) :
      Stepped fan w (.abandon t) { w with tasks := w.tasks.set t ⟨task.event, .abandoned⟩ }
  | foreign {e : Engine} {other : Inner} {op : Op} :
      Stepped fan w (.foreign e other op) { w with db := (exec e other op w.db).1 }

/-- A step is one of the listed ones. -/
theorem step_cases {fan : Inner} {w w' : World} {action : Action}
    (h : step fan w action = some w') : Stepped fan w action w' := by
  cases action with
  | poll handle options instantMax started =>
    simp only [step] at h
    split at h
    · split at h
      · next hhandle =>
        obtain rfl := Option.some.inj h
        exact .poll hhandle
      · cases h
    · cases h
  | advance p s =>
    simp only [step] at h
    split at h
    · cases h
    · next q hq =>
      obtain ⟨⟨db, q'⟩, hadvance, rfl⟩ := Option.map_eq_some_iff.mp h
      exact .advance hq hadvance
  | call t e op handle topics =>
    simp only [step] at h
    split at h
    · next hguard =>
      obtain ⟨rfl, hthrough, hhandle, htopics⟩ := hguard
      obtain rfl := Option.some.inj h
      refine .call hthrough (fun live hlive => ?_) htopics
      rw [hlive] at hhandle
      exact of_decide_eq_true hhandle
    · cases h
  | notify t =>
    simp only [step] at h
    split at h
    · next ht =>
      obtain rfl := Option.some.inj h
      exact .notify ht
    · cases h
  | takePublishes t =>
    simp only [step] at h
    split at h
    · next ht =>
      obtain rfl := Option.some.inj h
      exact .takePublishes ht
    · cases h
  | takeConsumer t =>
    simp only [step] at h
    split at h
    · next ht =>
      obtain rfl := Option.some.inj h
      exact .takeConsumer ht
    · cases h
  | clone handle =>
    simp only [step] at h
    split at h
    · next hhandle =>
      obtain rfl := Option.some.inj h
      exact .clone hhandle
    · cases h
  | drop handle =>
    simp only [step] at h
    split at h
    · next hguard =>
      obtain rfl := Option.some.inj h
      exact .drop hguard.2
    · cases h
  | cancel p =>
    simp only [step] at h
    split at h
    · cases h
    · next q hq =>
      obtain rfl := Option.some.inj h
      exact .cancel hq
  | abandon t =>
    simp only [step] at h
    split at h
    · next ht =>
      obtain rfl := Option.some.inj h
      exact .abandon ht
    · next ht =>
      obtain rfl := Option.some.inj h
      exact .abandon ht
    · next ht =>
      obtain rfl := Option.some.inj h
      exact .abandon ht
    · cases h
  | foreign e other op =>
    obtain rfl := Option.some.inj h
    exact .foreign

section Polls

variable {fan : Inner} {signals : Signals} {q q' : Poller} {pollStep : PollStep} {db db' : Db}

/-- The subscriptions of a poll are to the signals of its handle, and none has
seen more than was sent. -/
structure Subscribed (signals : Signals) (q : Poller) : Prop where
  publishes : q.publishes.signal = q.handle.publishSignal
  consumerChanges : q.consumerChanges.signal = q.handle.consumerSignal
  publishesSeen : q.publishes.seen ≤ signals.generation q.publishes.signal
  consumerSeen : q.consumerChanges.seen ≤ signals.generation q.consumerChanges.signal

/-- What one step changes of a poll. -/
structure Advanced (signals : Signals) (pollStep : PollStep) (q q' : Poller) : Prop where
  running : q.phase.running = true
  handle : q'.handle = q.handle
  subscribed : Subscribed signals q → Subscribed signals q'
  receivers : q'.phase.timed = true →
    q'.publishes = q.publishes ∧ q'.consumerChanges = q.consumerChanges
  timed : q'.phase.timed = true → q.phase.timed = true ∨ ∃ now, pollStep = .readClock now
  sampled : q'.phase.sampled = true → q.phase.sampled = true ∨ pollStep = .check
  clock : ∀ now, pollStep = .readClock now → q'.phase.sampled = false
  check : pollStep = .check → q.phase.timed = true

/-- A step that only moves on from a phase of the claim. -/
theorem advanced_phase {phase : Phase} (hrunning : q.phase.running = true)
    (htimed : phase.timed = true → q.phase.timed = true ∨ ∃ now, pollStep = .readClock now)
    (hsampled : phase.sampled = true → q.phase.sampled = true ∨ pollStep = .check)
    (hclock : ∀ now, pollStep = .readClock now → phase.sampled = false)
    (hcheck : pollStep = .check → q.phase.timed = true) :
    Advanced signals pollStep q { q with phase := phase } where
  running := hrunning
  handle := rfl
  subscribed h := ⟨h.publishes, h.consumerChanges, h.publishesSeen, h.consumerSeen⟩
  receivers _ := ⟨rfl, rfl⟩
  timed := htimed
  sampled := hsampled
  clock := hclock
  check := hcheck

/-- A step from a sampled phase, which reads no clock and starts no claim. -/
theorem advanced_sampled {phase : Phase} (hsampled : q.phase.sampled = true)
    (hclock : ∀ now, pollStep ≠ .readClock now) (hcheck : pollStep ≠ .check) :
    Advanced signals pollStep q { q with phase := phase } := by
  have htimed : q.phase.timed = true := by
    cases hphase : q.phase <;> simp only [hphase, Phase.sampled, Phase.timed] at hsampled ⊢ <;>
      cases hsampled
  have hrunning : q.phase.running = true := by
    cases hphase : q.phase <;> simp only [hphase, Phase.timed, Phase.running] at htimed ⊢ <;>
      cases htimed
  exact advanced_phase hrunning (fun _ => .inl htimed) (fun _ => .inl hsampled)
    (fun now h => absurd h (hclock now)) (fun h => absurd h hcheck)

/-- A step that marks a signal and stays outside the claim. -/
theorem advanced_marked {publishes consumerChanges : Receiver} {phase : Phase}
    (hrunning : q.phase.running = true) (hcheck : pollStep ≠ .check) (hphase : phase.timed = false)
    (hpublishes : publishes = q.publishes ∨ publishes = q.publishes.borrowAndUpdate signals)
    (hconsumer : consumerChanges = q.consumerChanges ∨
      consumerChanges = q.consumerChanges.borrowAndUpdate signals) :
    Advanced signals pollStep q { q with
      publishes := publishes, consumerChanges := consumerChanges, phase := phase } where
  running := hrunning
  handle := rfl
  subscribed h := by
    refine ⟨?_, ?_, ?_, ?_⟩
    · rcases hpublishes with rfl | rfl <;> exact h.publishes
    · rcases hconsumer with rfl | rfl <;> exact h.consumerChanges
    · rcases hpublishes with rfl | rfl
      · exact h.publishesSeen
      · exact mark_seen
    · rcases hconsumer with rfl | rfl
      · exact h.consumerSeen
      · exact mark_seen
  receivers htimed := absurd htimed (by simp [hphase])
  timed htimed := absurd htimed (by simp [hphase])
  sampled hsampled := by
    cases phase <;> simp only [Phase.timed, Phase.sampled] at hphase hsampled <;> cases hphase <;>
      cases hsampled
  clock _ _ := by
    cases phase <;> simp only [Phase.timed, Phase.sampled] at hphase ⊢ <;> cases hphase
  check h := absurd h hcheck

/-- What a step of the loop changes. -/
theorem advance_spec (h : q.advance fan signals pollStep db = some (db', q')) :
    Advanced signals pollStep q q' := by
  unfold Poller.advance at h
  split at h
  · next hphase =>
    obtain ⟨-, rfl⟩ := Prod.mk.inj (Option.some.inj h)
    exact advanced_marked (by rw [hphase]; rfl) nofun rfl (.inr rfl) (.inl rfl)
  · next hphase =>
    obtain ⟨-, rfl⟩ := Prod.mk.inj (Option.some.inj h)
    exact advanced_marked (by rw [hphase]; rfl) nofun rfl (.inl rfl) (.inr rfl)
  · next now hphase =>
    obtain ⟨-, rfl⟩ := Prod.mk.inj (Option.some.inj h)
    exact advanced_phase (by rw [hphase]; rfl) (fun _ => .inr ⟨now, rfl⟩) nofun
      (fun _ _ => rfl) nofun
  · next now hphase =>
    obtain ⟨-, rfl⟩ := Prod.mk.inj (Option.some.inj h)
    have htimed : q.phase.timed = true := by rw [hphase]; rfl
    exact advanced_phase (by rw [hphase]; rfl) (fun _ => .inl htimed) (fun _ => .inr rfl) nofun
      fun _ => htimed
  · next now e hphase =>
    obtain ⟨-, rfl⟩ := Prod.mk.inj (Option.some.inj h)
    exact advanced_sampled (by rw [hphase]; rfl) nofun nofun
  · next now granted hphase =>
    obtain ⟨-, rfl⟩ := Prod.mk.inj (Option.some.inj h)
    exact advanced_sampled (by rw [hphase]; rfl) nofun nofun
  · next found instant hphase =>
    obtain ⟨-, rfl⟩ := Prod.mk.inj (Option.some.inj h)
    exact advanced_sampled (by rw [hphase]; rfl) nofun nofun
  · next nextVisibleAt wake hphase =>
    obtain ⟨woken, hwoken, hpair⟩ := Option.map_eq_some_iff.mp h
    obtain ⟨-, rfl⟩ := Prod.mk.inj hpair
    have hrunning : q.phase.running = true := by rw [hphase]; rfl
    cases wake with
    | publishes =>
      obtain ⟨-, hmarked⟩ := Option.ite_none_right_eq_some.mp hwoken
      obtain rfl := Option.some.inj hmarked
      exact advanced_marked hrunning nofun rfl (.inr rfl) (.inl rfl)
    | consumerChanges =>
      obtain ⟨-, hmarked⟩ := Option.ite_none_right_eq_some.mp hwoken
      obtain rfl := Option.some.inj hmarked
      exact advanced_marked hrunning nofun rfl (.inl rfl) (.inr rfl)
    | timer =>
      obtain rfl := Option.some.inj hwoken
      exact advanced_marked hrunning nofun rfl (.inl rfl) (.inl rfl)
  · cases h

end Polls

section Wiring

variable {fan : Inner} {w w' : World} {signals : Signals}

/-- The signals of a handle are the registered ones. -/
structure Registered (signals : Signals) (handle : Handle) : Prop where
  publishes : signals.publishEntry handle.consumer.filter = some handle.publishSignal
  consumers : signals.consumers handle.consumer.id = some handle.consumerSignal

/-- The signals a call has raised and is yet to raise are those its transaction asks for,
and only an open goes on without any. -/
def Task.Complete (task : Task) : Prop :=
  match task.stage with
  | .notifying sent pending =>
    ∃ handle topics, through task.event.op = handle.map Handle.consumer ∧
      topics.Perm ((toPublish task.event).filterMap Publish.topic).dedup ∧
      sent ++ pending = targets task.event handle topics
  | .opened _ | .holding _ _ | .returned =>
    ∃ consumer, task.event.reply = .ok (.opened consumer)
  | .abandoned => True

/-- Every handle in use holds the registered signals, and every poll listens to
the signals of its handle. -/
structure Wired (w : World) : Prop where
  handles : ∀ handle ∈ w.handles, Registered w.signals handle
  opening : ∀ task ∈ w.tasks, ∀ consumer signal, task.stage = .holding consumer signal →
    w.signals.publishEntry consumer.filter = some signal
  polls : ∀ q ∈ w.pollers, Subscribed w.signals q
  polled : ∀ q ∈ w.pollers, q.phase.running = true → q.handle ∈ w.handles
  borrowed : ∀ task ∈ w.tasks, ∀ handle ∈ task.borrowed, handle ∈ w.handles
  complete : ∀ task ∈ w.tasks, task.Complete

/-- What a live handle holds is held. -/
theorem held_of_handle {handle : Handle} {signal : Signal} (h : handle ∈ w.handles)
    (hholds : handle.holds signal = true) : w.held signal = true := by
  have hany : w.handles.any (·.holds signal) = true := List.any_eq_true.mpr ⟨handle, h, hholds⟩
  simp only [World.held, hany, Bool.or_true, Bool.true_or]

/-- What a half-open handle holds is held. -/
theorem held_of_task {task : Task} {signal : Signal} (h : task ∈ w.tasks)
    (hholds : task.holds signal = true) : w.held signal = true := by
  have hany : w.tasks.any (·.holds signal) = true := List.any_eq_true.mpr ⟨task, h, hholds⟩
  simp only [World.held, hany, Bool.or_true]

theorem Handle.holds_publishSignal (handle : Handle) :
    handle.holds handle.publishSignal = true := by
  simp only [Handle.holds, beq_self_eq_true, Bool.true_or]

theorem Handle.holds_consumerSignal (handle : Handle) :
    handle.holds handle.consumerSignal = true := by
  simp only [Handle.holds, beq_self_eq_true, Bool.or_true]

/-- A change of the registries keeps live handles registered. -/
theorem Registered.keeps {handle : Handle} (h : Registered w.signals handle)
    (hlive : handle ∈ w.handles) (hkeeps : Keeps w.held w.signals signals) :
    Registered signals handle where
  publishes := hkeeps.publishes _ _ h.publishes (held_of_handle hlive handle.holds_publishSignal)
  consumers := hkeeps.consumers _ _ h.consumers (held_of_handle hlive handle.holds_consumerSignal)

theorem Subscribed.later {q : Poller} {s s' : Signals} (h : Subscribed s q) (hlater : Later s s') :
    Subscribed s' q where
  publishes := h.publishes
  consumerChanges := h.consumerChanges
  publishesSeen := h.publishesSeen.trans (hlater _)
  consumerSeen := h.consumerSeen.trans (hlater _)

/-- A change of the signals that keeps what is held keeps the wiring. -/
theorem Wired.keeps (h : Wired w) (hkeeps : Keeps w.held w.signals signals) :
    Wired { w with signals := signals } where
  handles handle hlive := (h.handles handle hlive).keeps hlive hkeeps
  opening task htask consumer signal hstage := by
    refine hkeeps.publishes _ _ (h.opening task htask consumer signal hstage) ?_
    exact held_of_task htask (by simp only [Task.holds, hstage, beq_self_eq_true])
  polls q hq := (h.polls q hq).later hkeeps.later
  polled := h.polled
  borrowed := h.borrowed
  complete := h.complete

/-- A new step of one poll keeps the wiring. -/
theorem Wired.poll {db : Db} {p : ℕ} {q : Poller} (h : Wired w)
    (hsubscribed : Subscribed w.signals q)
    (hpolled : q.phase.running = true → q.handle ∈ w.handles) :
    Wired { w with db := db, pollers := w.pollers.set p q } where
  handles := h.handles
  opening := h.opening
  polls other hother := by
    rcases List.mem_or_eq_of_mem_set hother with hold | rfl
    · exact h.polls other hold
    · exact hsubscribed
  polled other hother := by
    rcases List.mem_or_eq_of_mem_set hother with hold | rfl
    · exact h.polled other hold
    · exact hpolled
  borrowed := h.borrowed
  complete := h.complete

/-- A new step of one call keeps the wiring. -/
theorem Wired.task {tasks : List Task} {task : Task} (h : Wired w)
    (hsub : ∀ other ∈ tasks, other ∈ w.tasks ∨ other = task)
    (hopening : ∀ consumer signal, task.stage = .holding consumer signal →
      w.signals.publishEntry consumer.filter = some signal)
    (hborrowed : ∀ handle ∈ task.borrowed, handle ∈ w.handles) (hcomplete : task.Complete) :
    Wired { w with tasks := tasks } where
  handles := h.handles
  opening other hother := by
    rcases hsub other hother with hold | rfl
    · exact h.opening other hold
    · exact hopening
  polls := h.polls
  polled := h.polled
  borrowed other hother := by
    rcases hsub other hother with hold | rfl
    · exact h.borrowed other hold
    · exact hborrowed
  complete other hother := by
    rcases hsub other hother with hold | rfl
    · exact h.complete other hold
    · exact hcomplete

/-- A new handle with the registered signals keeps the wiring. -/
theorem Wired.handle {handle : Handle} (h : Wired w) (hnew : Registered w.signals handle) :
    Wired { w with handles := w.handles ++ [handle] } where
  handles other hother := by
    rcases List.mem_append.mp hother with hold | hlast
    · exact h.handles other hold
    · rw [List.mem_singleton.mp hlast]
      exact hnew
  opening := h.opening
  polls := h.polls
  polled q hq hrunning := List.mem_append_left _ (h.polled q hq hrunning)
  borrowed task htask live hlive := List.mem_append_left _ (h.borrowed task htask live hlive)
  complete := h.complete

/-- Raising a signal keeps what is held. -/
theorem keeps_raise (w : World) (target : Target) : Keeps w.held w.signals (w.raise target) := by
  cases target with
  | allPublishes => exact keeps_notify _ _ _
  | topic name => exact keeps_notifyTopic _ _ _
  | consumer id => exact keeps_notifyConsumer _ _ _
  | own handle => exact keeps_notify _ _ _

/-- A call borrows the handle whose signal it is about to raise. -/
theorem mem_borrowed_notifying {event : Event} {sent pending : List Target} {handle : Handle} :
    handle ∈ Task.borrowed ⟨event, .notifying sent pending⟩ ↔ .own handle ∈ pending := by
  simp only [Task.borrowed, List.mem_filterMap]
  constructor
  · rintro ⟨target, htarget, hown⟩
    cases target with
    | own other =>
      obtain rfl := Option.some.inj hown
      exact htarget
    | allPublishes | topic name | consumer id => cases hown
  · exact fun h => ⟨_, h, rfl⟩

/-- A call raises the own signal of no handle but the one it is called through. -/
theorem own_of_targets {event : Event} {handle : Option Handle} {topics : List String}
    {live : Handle} (h : .own live ∈ targets event handle topics) : handle = some live := by
  have hown : Target.own live ∈ (handle.map Target.own).toList → handle = some live := by
    intro h
    cases handle with
    | none => cases h
    | some other =>
      simp only [Option.map_some, Option.toList_some, List.mem_singleton, Target.own.injEq] at h
      rw [h]
  unfold targets at h
  dsimp only at h
  split at h
  · split at h
    · cases h
    · simp at h
  · split at h
    · exact hown h
    · cases h
  · split at h
    · exact hown h
    · cases h
  · split at h
    · exact hown h
    · cases h
  · split at h
    · exact hown h
    · cases h
  · simp at h
  · cases h

/-- A call that has committed goes on as an open or raises its signals. -/
theorem afterCommit_cases (event : Event) (handle : Option Handle) (topics : List String) :
    (∃ consumer, event.reply = .ok (.opened consumer) ∧
      afterCommit event handle topics = .opened consumer) ∨
      afterCommit event handle topics = .notifying [] (targets event handle topics) := by
  unfold afterCommit
  split
  · next consumer hreply => exact .inl ⟨consumer, hreply, rfl⟩
  · exact .inr rfl

/-- What polls and calls borrow. -/
theorem mem_borrowed {handle : Handle} :
    handle ∈ w.borrowed ↔ (∃ q ∈ w.pollers, q.phase.running = true ∧ q.handle = handle) ∨
      ∃ task ∈ w.tasks, handle ∈ task.borrowed := by
  simp only [World.borrowed, List.mem_append, List.mem_map, List.mem_filter, List.mem_flatMap,
    and_assoc]

/-- A new store handle is wired. -/
theorem wired_initial : Wired World.initial where
  handles _ h := absurd h List.not_mem_nil
  opening _ h := absurd h List.not_mem_nil
  polls _ h := absurd h List.not_mem_nil
  polled _ h := absurd h List.not_mem_nil
  borrowed _ h := absurd h List.not_mem_nil
  complete _ h := absurd h List.not_mem_nil

/-- Every step keeps the wiring. -/
theorem wired_step {action : Action} (h : Wired w) (hstep : step fan w action = some w') :
    Wired w' := by
  cases step_cases hstep with
  | poll hhandle =>
    refine ⟨h.handles, h.opening, ?_, ?_, h.borrowed, h.complete⟩
    · intro q hq
      rcases List.mem_append.mp hq with hold | hnew
      · exact h.polls q hold
      · rw [List.mem_singleton.mp hnew]
        exact ⟨rfl, rfl, subscribe_seen, subscribe_seen⟩
    · intro q hq
      rcases List.mem_append.mp hq with hold | hnew
      · exact h.polled q hold
      · rw [List.mem_singleton.mp hnew]
        exact fun _ => hhandle
  | advance hq hadvance =>
    have hmem := List.mem_of_getElem? hq
    have hspec := advance_spec hadvance
    refine h.poll (hspec.subscribed (h.polls _ hmem)) fun _ => ?_
    rw [hspec.handle]
    exact h.polled _ hmem hspec.running
  | @call e op handle topics hthrough hhandle htopics =>
    have hdb : Wired { w with db := (perform e fan op w.db).after } :=
      ⟨h.handles, h.opening, h.polls, h.polled, h.borrowed, h.complete⟩
    have hsub : ∀ other ∈ w.tasks ++
        [⟨perform e fan op w.db, afterCommit (perform e fan op w.db) handle topics⟩],
        other ∈ w.tasks ∨
          other = ⟨perform e fan op w.db, afterCommit (perform e fan op w.db) handle topics⟩ := by
      intro other hother
      rcases List.mem_append.mp hother with hold | hnew
      · exact .inl hold
      · exact .inr (List.mem_singleton.mp hnew)
    rcases afterCommit_cases (perform e fan op w.db) handle topics with
      ⟨consumer, hreply, hstage⟩ | hstage
    · rw [hstage] at hsub ⊢
      exact hdb.task hsub nofun nofun ⟨consumer, hreply⟩
    · rw [hstage] at hsub ⊢
      refine hdb.task hsub nofun ?_ ⟨handle, topics, hthrough, htopics, rfl⟩
      intro live hlive
      exact hhandle live (own_of_targets (mem_borrowed_notifying.mp hlive))
  | @notify t event sent pending target ht =>
    have hmem := List.mem_of_getElem? ht
    refine (h.keeps (keeps_raise w target)).task
      (fun other hother => List.mem_or_eq_of_mem_set hother) nofun ?_ ?_
    · intro handle hhandle
      refine h.borrowed _ hmem handle ?_
      rw [mem_borrowed_notifying] at hhandle ⊢
      exact List.mem_cons_of_mem _ hhandle
    · obtain ⟨handle, topics, hthrough, htopics, htargets⟩ := h.complete _ hmem
      refine ⟨handle, topics, hthrough, htopics, ?_⟩
      rw [List.append_assoc]
      exact htargets
  | @takePublishes t event consumer ht =>
    have hopened : Task.Complete ⟨event, .opened consumer⟩ :=
      h.complete _ (List.mem_of_getElem? ht)
    refine (h.keeps (keeps_publishesFor w.held w.signals consumer.filter)).task
      (fun other hother => List.mem_or_eq_of_mem_set hother) ?_ nofun hopened
    intro other signal hstage
    obtain ⟨rfl, rfl⟩ := Stage.holding.inj hstage
    exact publishesFor_entry w.held w.signals consumer.filter
  | @takeConsumer t event consumer publishSignal ht =>
    have hopened : Task.Complete ⟨event, .holding consumer publishSignal⟩ :=
      h.complete _ (List.mem_of_getElem? ht)
    have hkept := h.keeps (keeps_consumerSignal w.held w.signals consumer.id)
    have hsub : ∀ other ∈ w.tasks.set t ⟨event, .returned⟩,
        other ∈ w.tasks ∨ other = ⟨event, .returned⟩ :=
      fun other hother => List.mem_or_eq_of_mem_set hother
    refine (hkept.task hsub nofun nofun hopened).handle
      ⟨?_, consumerSignal_entry w.held w.signals consumer.id⟩
    exact hkept.opening _ (List.mem_of_getElem? ht) consumer publishSignal rfl
  | clone hhandle => exact h.handle (h.handles _ hhandle)
  | drop hrest =>
    refine ⟨fun live hlive => h.handles live (List.mem_of_mem_erase hlive), h.opening, h.polls,
      fun q hq hrunning => hrest _ (mem_borrowed.mpr (.inl ⟨q, hq, hrunning, rfl⟩)), ?_, h.complete⟩
    exact fun task htask live hlive => hrest live (mem_borrowed.mpr (.inr ⟨task, htask, hlive⟩))
  | cancel hq =>
    have hsubscribed := h.polls _ (List.mem_of_getElem? hq)
    exact h.poll ⟨hsubscribed.publishes, hsubscribed.consumerChanges, hsubscribed.publishesSeen,
      hsubscribed.consumerSeen⟩ nofun
  | abandon ht =>
    exact h.task (fun other hother => List.mem_or_eq_of_mem_set hother) nofun nofun trivial
  | foreign => exact ⟨h.handles, h.opening, h.polls, h.polled, h.borrowed, h.complete⟩

end Wiring

/-- The signals that the polls of a consumer wait for. -/
def Target.wakes (consumer : Consumer) : Target → Prop
  | .allPublishes => consumer.filter = .all
  | .topic name => consumer.filter = .topic name
  | .consumer id => id = consumer.id
  | .own handle => handle.consumer.id = consumer.id

/-- The transactions that bring work to a consumer or end it: a publish that inserted a
matching message, a nack, archive or redrive on it that applied, the drain that changed
its row, and its deletion. -/
def Concerns (event : Event) (consumer : Consumer) : Prop :=
  match event.op, event.reply with
  | .publishBatch _ _, .ok (.outcomes _) =>
    ∃ message ∈ toPublish event,
      topicMatches consumer.filter.asDatabaseValue message.topic = true
  | .nackBatch self _ _ _, .ok (.batch result) | .archiveBatch self _ _ _, .ok (.batch result)
  | .redriveBatch self _ _ _, .ok (.batch result) => 0 < result.applied ∧ self.id = consumer.id
  | .beginDraining self _, .ok (.drained changed) => changed = true ∧ self.id = consumer.id
  | .deleteConsumer name _, .ok (.deleted _) =>
    ∃ row, consumerNamed event.before name = some row ∧ row.id = consumer.id
  | _, _ => False

/-- The signals a call has raised. -/
def Task.sent (task : Task) : List Target :=
  match task.stage with
  | .notifying sent _ => sent
  | _ => []

/-- A call has raised a signal. -/
def World.raised (w : World) (t : ℕ) (target : Target) : Prop :=
  ∃ task, w.tasks[t]? = some task ∧ target ∈ task.sent

/-- The call has finished its notify step: it has no signal left to raise, and its caller has
not given up on it. -/
def Task.Notified (task : Task) : Prop :=
  match task.stage with
  | .notifying _ pending => pending = []
  | .opened _ | .holding _ _ | .returned => True
  | .abandoned => False

/-- A poll reads the clock for its claim. -/
def ReadsClock (p : ℕ) (move : Move) : Prop :=
  ∃ now, move.action = .advance p (.readClock now)

/-- A poll first reads the database for its claim. -/
def ReadsDb (p : ℕ) (move : Move) : Prop := move.action = .advance p .check

/-- A call commits. -/
def Commits (t : ℕ) (move : Move) : Prop :=
  ∃ e op handle topics, move.action = .call t e op handle topics

section Wakes

variable {fan : Inner} {w w' : World} {q : Poller}

/-- A raised signal that wakes a consumer is missed by none of its running polls. -/
theorem raise_wakes {target : Target} (h : Wired w) (hq : q ∈ w.pollers)
    (hrunning : q.phase.running = true) (hown : ∀ handle, target = .own handle → handle ∈ w.handles)
    (hwakes : target.wakes q.handle.consumer) :
    q.publishes.changed (w.raise target) = true ∨
      q.consumerChanges.changed (w.raise target) = true := by
  have hregistered := h.handles _ (h.polled q hq hrunning)
  have hsubscribed := h.polls q hq
  have hlive := h.polled q hq hrunning
  cases target with
  | allPublishes =>
    have hsignal : w.signals.allPublishes = q.publishes.signal := by
      have hentry := hregistered.publishes
      rw [show q.handle.consumer.filter = .all from hwakes] at hentry
      exact (Option.some.inj hentry).trans hsubscribed.publishes.symm
    left
    simp only [World.raise, hsignal]
    exact changed_notify hsubscribed.publishesSeen
  | topic name =>
    have hentry : w.signals.topics name = some q.handle.publishSignal := by
      have hentry := hregistered.publishes
      rw [show q.handle.consumer.filter = .topic name from hwakes] at hentry
      exact hentry
    have hfound : upgrade w.held (w.signals.topics name) = some q.publishes.signal := by
      rw [hsubscribed.publishes]
      exact upgrade_held hentry (held_of_handle hlive q.handle.holds_publishSignal)
    left
    simp only [World.raise, notifyTopic, hfound]
    exact changed_notify hsubscribed.publishesSeen
  | consumer id =>
    obtain rfl : id = q.handle.consumer.id := hwakes
    have hfound : upgrade w.held (w.signals.consumers q.handle.consumer.id) =
        some q.consumerChanges.signal := by
      rw [hsubscribed.consumerChanges]
      exact upgrade_held hregistered.consumers (held_of_handle hlive q.handle.holds_consumerSignal)
    right
    simp only [World.raise, notifyConsumer, hfound]
    exact changed_notify hsubscribed.consumerSeen
  | own handle =>
    have hsignal : handle.consumerSignal = q.consumerChanges.signal := by
      have hother := (h.handles handle (hown handle rfl)).consumers
      rw [show handle.consumer.id = q.handle.consumer.id from hwakes,
        hregistered.consumers] at hother
      rw [hsubscribed.consumerChanges]
      exact (Option.some.inj hother).symm
    right
    simp only [World.raise, hsignal]
    exact changed_notify hsubscribed.consumerSeen

/-- A transaction that concerns a consumer raises a signal that wakes the consumer. -/
theorem concerns_target {event : Event} {consumer : Consumer} {handle : Option Handle}
    {topics : List String} (hconcerns : Concerns event consumer)
    (hthrough : through event.op = handle.map Handle.consumer)
    (htopics : topics.Perm ((toPublish event).filterMap Publish.topic).dedup) :
    ∃ target ∈ targets event handle topics, target.wakes consumer := by
  have hown : ∀ (changed : Prop) [Decidable changed] (handler : Consumer),
      some handler = handle.map Handle.consumer → changed ∧ handler.id = consumer.id →
      ∃ target ∈ if changed then (handle.map Target.own).toList else [], target.wakes consumer := by
    intro changed _ handler hhandler ⟨hchanged, hid⟩
    obtain ⟨live, rfl, rfl⟩ := Option.map_eq_some_iff.mp hhandler.symm
    rw [if_pos hchanged]
    exact ⟨.own live, List.mem_singleton.mpr rfl, hid⟩
  obtain ⟨fan, op, before, after, reply⟩ := event
  unfold targets
  dsimp only [Concerns] at hthrough hconcerns ⊢
  split at hconcerns
  · next messages now outcomes =>
    obtain ⟨message, hmessage, hmatches⟩ := hconcerns
    rw [if_neg (by rw [List.isEmpty_iff]; exact List.ne_nil_of_mem hmessage)]
    cases hfilter : consumer.filter with
    | all => exact ⟨.allPublishes, List.mem_cons_self, hfilter⟩
    | topic name =>
      rw [hfilter] at hmatches
      have htopic : message.topic = some name := eq_of_beq hmatches
      have hmem : name ∈ topics := by
        rw [htopics.mem_iff, List.mem_dedup, List.mem_filterMap]
        exact ⟨message, hmessage, htopic⟩
      exact ⟨.topic name, List.mem_cons_of_mem _ (List.mem_map_of_mem hmem), hfilter⟩
  · next self receipts retry now result => exact hown _ self hthrough hconcerns
  · next self receipts detail now result => exact hown _ self hthrough hconcerns
  · next self ids retry now result => exact hown _ self hthrough hconcerns
  · next self now changed => exact hown _ self hthrough hconcerns
  · next name mode outcome =>
    obtain ⟨row, hrow, hid⟩ := hconcerns
    refine ⟨.consumer row.id, ?_, hid⟩
    rw [hrow]
    exact List.mem_singleton.mpr rfl
  · exact hconcerns.elim

/-- A call that concerns a consumer and has finished its notify step has raised a signal that
wakes the consumer. -/
theorem notified_sent {task : Task} {consumer : Consumer} (hcomplete : task.Complete)
    (hnotified : task.Notified) (hconcerns : Concerns task.event consumer) :
    ∃ target ∈ task.sent, target.wakes consumer := by
  have hopen : ∀ opened, task.event.reply ≠ .ok (.opened opened) := fun opened hreply => by
    unfold Concerns at hconcerns
    rw [hreply] at hconcerns
    split at hconcerns <;> first | cases ‹Except.ok _ = _› | exact hconcerns
  unfold Task.Complete at hcomplete
  unfold Task.Notified at hnotified
  unfold Task.sent
  cases hstage : task.stage with
  | notifying sent pending =>
    rw [hstage] at hcomplete hnotified
    obtain ⟨handle, topics, hthrough, htopics, htargets⟩ := hcomplete
    have hraised : sent = targets task.event handle topics := by
      rw [← htargets, show pending = [] from hnotified, List.append_nil]
    rw [hraised]
    exact concerns_target hconcerns hthrough htopics
  | opened | holding | returned =>
    rw [hstage] at hcomplete
    obtain ⟨opened, hreply⟩ := hcomplete
    exact absurd hreply (hopen opened)
  | abandoned =>
    rw [hstage] at hnotified
    exact hnotified.elim

/-- What is known while the claim of a poll or the wait after it goes on: the
clock was read before the database, and each raised signal that wakes the
consumer belongs to a call that had committed before, or is yet to be seen. -/
def Caught (moves : List Move) (w : World) (p : ℕ) (q : Poller) : Prop :=
  ∃ pre, Transition.Latest (ReadsClock p) moves pre ∧
    (q.phase.sampled = true →
      ∃ reading, Transition.Latest (ReadsDb p) moves reading ∧ pre <+: reading) ∧
    ∀ t target, w.raised t target → target.wakes q.handle.consumer →
      (∃ move ∈ pre, Commits t move) ∨ q.publishes.changed w.signals = true ∨
        q.consumerChanges.changed w.signals = true

/-- The state of a run with what has happened before. -/
structure Chronicle (moves : List Move) (w : World) : Prop where
  wired : Wired w
  committed : ∀ t < w.tasks.length, ∃ move ∈ moves, Commits t move
  caught : ∀ p q, w.pollers[p]? = some q → q.phase.timed = true → Caught moves w p q

/-- What is known of a poll stays known when something else happens: what has
been raised since wakes the poll. -/
theorem Caught.keeps {moves : List Move} {move : Move} {p : ℕ} (h : Caught moves w p q)
    (hsubscribed : Subscribed w.signals q) (hlater : Later w.signals w'.signals)
    (hclock : ¬ReadsClock p move) (hdb : ¬ReadsDb p move)
    (hraised : ∀ (t : ℕ) (target : Target), w'.raised t target → target.wakes q.handle.consumer →
      w.raised t target ∨ q.publishes.changed w'.signals = true ∨
        q.consumerChanges.changed w'.signals = true) :
    Caught (moves ++ [move]) w' p q := by
  obtain ⟨pre, hpre, hreading, hseen⟩ := h
  refine ⟨pre, hpre.snoc hclock, ?_, ?_⟩
  · intro hsampled
    obtain ⟨reading, hlatest, hleads⟩ := hreading hsampled
    exact ⟨reading, hlatest.snoc hdb, hleads⟩
  · intro t target htarget hwakes
    rcases hraised t target htarget hwakes with hold | hchanged
    · rcases hseen t target hold hwakes with hcommitted | hpublishes | hconsumer
      · exact .inl hcommitted
      · exact .inr (.inl (changed_mono hlater hsubscribed.publishesSeen hpublishes))
      · exact .inr (.inr (changed_mono hlater hsubscribed.consumerSeen hconsumer))
    · exact .inr hchanged

/-- Replacing one call raises no signal but its own. -/
theorem raised_set {t t' : ℕ} {task : Task} {target : Target}
    (htasks : w'.tasks = w.tasks.set t task) (h : w'.raised t' target) :
    w.raised t' target ∨ t' = t ∧ target ∈ task.sent := by
  obtain ⟨found, hfound, htarget⟩ := h
  rw [htasks, List.getElem?_set] at hfound
  split at hfound
  · next heq =>
    split at hfound
    · obtain rfl := Option.some.inj hfound
      exact .inr ⟨heq.symm, htarget⟩
    · cases hfound
  · exact .inl ⟨found, hfound, htarget⟩

/-- A call that has just committed has raised nothing. -/
theorem raised_append {t : ℕ} {task : Task} {target : Target}
    (htasks : w'.tasks = w.tasks ++ [task]) (hnone : task.sent = []) (h : w'.raised t target) :
    w.raised t target := by
  obtain ⟨found, hfound, htarget⟩ := h
  rw [htasks, List.getElem?_append] at hfound
  split at hfound
  · exact ⟨found, hfound, htarget⟩
  · rw [List.getElem?_singleton] at hfound
    split at hfound
    · obtain rfl := Option.some.inj hfound
      rw [hnone] at htarget
      cases htarget
    · cases hfound

/-- What is known of a poll survives every step that is not its own. -/
theorem caught_other {moves : List Move} {action : Action} {p : ℕ} (h : Caught moves w p q)
    (hwired : Wired w) (hq : q ∈ w.pollers) (htimed : q.phase.timed = true)
    (hstep : step fan w action = some w') (hother : ∀ pollStep, action ≠ .advance p pollStep) :
    Caught (moves ++ [⟨w, action, w'⟩]) w' p q := by
  have hsubscribed := hwired.polls q hq
  have hclock : ¬ReadsClock p ⟨w, action, w'⟩ := fun ⟨now, hnow⟩ => hother _ hnow
  have hdb : ¬ReadsDb p ⟨w, action, w'⟩ := fun hcheck => hother _ hcheck
  have hsame : Later w.signals w'.signals → (∀ t target, w'.raised t target → w.raised t target) →
      Caught (moves ++ [⟨w, action, w'⟩]) w' p q := fun hlater hraised =>
    h.keeps hsubscribed hlater hclock hdb fun t target htarget _ => .inl (hraised t target htarget)
  have hrunning : q.phase.running = true := by
    cases hphase : q.phase <;> simp only [hphase, Phase.timed, Phase.running] at htimed ⊢ <;>
      cases htimed
  cases step_cases hstep with
  | poll hhandle => exact hsame (Later.refl _) fun _ _ htarget => htarget
  | advance hq hadvance => exact hsame (Later.refl _) fun _ _ htarget => htarget
  | call hthrough hhandle htopics =>
    refine hsame (Later.refl _) fun t target htarget => raised_append rfl ?_ htarget
    unfold Task.sent
    rcases afterCommit_cases _ _ _ with ⟨consumer, -, hstage⟩ | hstage <;> rw [hstage]
  | @notify t event sent pending target ht =>
    refine h.keeps hsubscribed (keeps_raise w target).later hclock hdb
      fun t' raised hraised hwakes => ?_
    rcases raised_set rfl hraised with hold | ⟨rfl, hnew⟩
    · exact .inl hold
    · rcases List.mem_append.mp hnew with hold | hlast
      · exact .inl ⟨_, ht, hold⟩
      · obtain rfl := List.mem_singleton.mp hlast
        refine .inr (raise_wakes hwired hq hrunning (fun handle hown => ?_) hwakes)
        refine hwired.borrowed _ (List.mem_of_getElem? ht) handle (mem_borrowed_notifying.mpr ?_)
        rw [hown]
        exact List.mem_cons_self
  | takePublishes ht =>
    refine hsame (keeps_publishesFor _ _ _).later fun t target htarget => ?_
    exact (raised_set rfl htarget).resolve_right fun hnew => absurd hnew.2 List.not_mem_nil
  | takeConsumer ht =>
    refine hsame (keeps_consumerSignal _ _ _).later fun t target htarget => ?_
    exact (raised_set rfl htarget).resolve_right fun hnew => absurd hnew.2 List.not_mem_nil
  | clone hhandle => exact hsame (Later.refl _) fun _ _ htarget => htarget
  | drop hrest => exact hsame (Later.refl _) fun _ _ htarget => htarget
  | cancel hq => exact hsame (Later.refl _) fun _ _ htarget => htarget
  | abandon ht =>
    exact hsame (Later.refl _) fun t target htarget =>
      (raised_set rfl htarget).resolve_right fun hnew => absurd hnew.2 List.not_mem_nil
  | foreign => exact hsame (Later.refl _) fun _ _ htarget => htarget

/-- A step that is not a poll's own starts no claim of it. -/
theorem timed_before {action : Action} {p : ℕ} (hstep : step fan w action = some w')
    (hother : ∀ pollStep, action ≠ .advance p pollStep) (hq : w'.pollers[p]? = some q)
    (htimed : q.phase.timed = true) : w.pollers[p]? = some q := by
  cases step_cases hstep with
  | poll hhandle =>
    rw [List.getElem?_append] at hq
    split at hq
    · exact hq
    · rw [List.getElem?_singleton] at hq
      split at hq
      · obtain rfl := Option.some.inj hq
        cases htimed
      · cases hq
  | @advance p' pollStep q₁ q₂ db hold hadvance =>
    have hne : p' ≠ p := by
      rintro rfl
      exact hother _ rfl
    rwa [List.getElem?_set_ne hne] at hq
  | @cancel p' q₁ hold =>
    rw [List.getElem?_set] at hq
    split at hq
    · split at hq
      · obtain rfl := Option.some.inj hq
        cases htimed
      · cases hq
    · exact hq
  | call | notify | takePublishes | takeConsumer | clone | drop | abandon | foreign => exact hq

/-- The tasks of a state after a step are those before it and at most one call
that has just committed. -/
theorem committed_step {action : Action} {t : ℕ} (hstep : step fan w action = some w')
    (ht : t < w'.tasks.length) : t < w.tasks.length ∨ Commits t ⟨w, action, w'⟩ := by
  cases step_cases hstep with
  | @call e op handle topics hthrough hhandle htopics =>
    rw [List.length_append, List.length_singleton] at ht
    rcases Nat.lt_succ_iff_lt_or_eq.mp ht with hold | rfl
    · exact .inl hold
    · exact .inr ⟨e, op, handle, topics, rfl⟩
  | notify | takePublishes | takeConsumer | abandon =>
    rw [List.length_set] at ht
    exact .inl ht
  | poll | advance | clone | drop | cancel | foreign => exact .inl ht

/-- A raised signal belongs to a call that has committed. -/
theorem lt_of_raised {t : ℕ} {target : Target} (h : w.raised t target) : t < w.tasks.length := by
  obtain ⟨task, ht, -⟩ := h
  exact (List.getElem?_eq_some_iff.mp ht).1

/-- What is known of a poll after a step of its own. -/
theorem caught_own {moves : List Move} {p : ℕ} {pollStep : PollStep} {q q' : Poller} {db : Db}
    (h : Chronicle moves w) (hq : w.pollers[p]? = some q)
    (hadvance : q.advance fan w.signals pollStep w.db = some (db, q'))
    (htimed : q'.phase.timed = true) (hw' : w'.tasks = w.tasks ∧ w'.signals = w.signals) :
    Caught (moves ++ [⟨w, .advance p pollStep, w'⟩]) w' p q' := by
  have hspec := advance_spec hadvance
  by_cases hreads : ∃ now, pollStep = .readClock now
  · obtain ⟨now, rfl⟩ := hreads
    refine ⟨moves, Transition.Latest.here ⟨now, rfl⟩, ?_, ?_⟩
    · intro hsampled
      rw [hspec.clock now rfl] at hsampled
      cases hsampled
    · rintro t target ⟨task, ht, htarget⟩ -
      rw [hw'.1] at ht
      exact .inl (h.committed t (lt_of_raised ⟨task, ht, htarget⟩))
  · have hclock : ¬ReadsClock p ⟨w, .advance p pollStep, w'⟩ := by
      rintro ⟨now, hnow⟩
      exact hreads ⟨now, (Action.advance.inj hnow).2⟩
    obtain ⟨pre, hpre, hreading, hseen⟩ :=
      h.caught p q hq ((hspec.timed htimed).resolve_right hreads)
    refine ⟨pre, hpre.snoc hclock, ?_, ?_⟩
    · intro hsampled
      by_cases hcheck : pollStep = .check
      · subst hcheck
        exact ⟨moves, Transition.Latest.here rfl, hpre.leads⟩
      · obtain ⟨reading, hlatest, hleads⟩ :=
          hreading ((hspec.sampled hsampled).resolve_right hcheck)
        exact ⟨reading, hlatest.snoc fun hread => hcheck (Action.advance.inj hread).2, hleads⟩
    · rintro t target ⟨task, ht, htarget⟩ hwakes
      rw [hw'.1] at ht
      rw [hspec.handle] at hwakes
      rw [(hspec.receivers htimed).1, (hspec.receivers htimed).2, hw'.2]
      exact hseen t target ⟨task, ht, htarget⟩ hwakes

/-- Every step keeps the chronicle. -/
theorem chronicle_step {moves : List Move} {action : Action} (h : Chronicle moves w)
    (hstep : step fan w action = some w') : Chronicle (moves ++ [⟨w, action, w'⟩]) w' where
  wired := wired_step h.wired hstep
  committed t ht := by
    rcases committed_step hstep ht with hold | hnew
    · obtain ⟨move, hmove, hcommits⟩ := h.committed t hold
      exact ⟨move, List.mem_append_left _ hmove, hcommits⟩
    · exact ⟨_, List.mem_append_right _ List.mem_cons_self, hnew⟩
  caught p q hq htimed := by
    by_cases hown : ∃ pollStep, action = .advance p pollStep
    · obtain ⟨pollStep, rfl⟩ := hown
      cases step_cases hstep with
      | @advance _ _ q₁ q₂ db hold hadvance =>
        rw [List.getElem?_set_self (List.getElem?_eq_some_iff.mp hold).1] at hq
        obtain rfl := Option.some.inj hq
        exact caught_own h hold hadvance htimed ⟨rfl, rfl⟩
    · have hother : ∀ pollStep, action ≠ .advance p pollStep :=
        fun pollStep heq => hown ⟨pollStep, heq⟩
      have hbefore := timed_before hstep hother hq htimed
      exact caught_other (h.caught p q hbefore htimed) h.wired (List.mem_of_getElem? hbefore) htimed
        hstep hother

/-- The chronicle of a run. -/
theorem chronicle_run {moves : List Move}
    (hrun : Transition.Run (interleaving fan) World.initial moves w) : Chronicle moves w := by
  induction hrun with
  | nil =>
    exact ⟨wired_initial, fun t ht => absurd ht (Nat.not_lt_zero t), fun p q hq => nomatch hq⟩
  | snoc move hrun hvalid ih =>
    obtain ⟨before, action, after⟩ := move
    exact chronicle_step ih hvalid

/-- While a poll waits and neither of its signals has changed, every call that
concerns its consumer and has finished its notify step had committed before the
poll's latest claim read the clock, and then the database. -/
theorem no_lost_wakeup {moves : List Move} {p : ℕ} {nextVisibleAt : Option ℤ}
    (hrun : Transition.Run (interleaving fan) World.initial moves w)
    (hq : w.pollers[p]? = some q) (hblocked : q.phase = .blocked nextVisibleAt)
    (hpublishes : q.publishes.changed w.signals = false)
    (hconsumer : q.consumerChanges.changed w.signals = false) :
    ∃ pre reading, Transition.Latest (ReadsClock p) moves pre ∧
      Transition.Latest (ReadsDb p) moves reading ∧ pre <+: reading ∧
      ∀ t task, w.tasks[t]? = some task → task.Notified →
        Concerns task.event q.handle.consumer → ∃ move ∈ pre, Commits t move := by
  have hchronicle := chronicle_run hrun
  obtain ⟨pre, hpre, hreading, hseen⟩ := hchronicle.caught p q hq (by rw [hblocked]; rfl)
  obtain ⟨reading, hlatest, hleads⟩ := hreading (by rw [hblocked]; rfl)
  refine ⟨pre, reading, hpre, hlatest, hleads, ?_⟩
  intro t task ht hnotified hconcerns
  obtain ⟨target, htarget, hwakes⟩ := notified_sent
    (hchronicle.wired.complete task (List.mem_of_getElem? ht)) hnotified hconcerns
  rcases hseen t target ⟨task, ht, htarget⟩ hwakes with hcommitted | hchanged | hchanged
  · exact hcommitted
  · rw [hpublishes] at hchanged
    cases hchanged
  · rw [hconsumer] at hchanged
    cases hchanged

end Wakes

/-- A poll that blocks while another process holds the only message. -/
def waiting : List Action :=
  [.call 0 Engine.inOrder (.openConsumer "jobs" .all 0) none [], .takePublishes 0, .takeConsumer 0,
    .call 1 Engine.inOrder (.publishBatch [⟨none, [7], none⟩] 0) none [], .notify 1,
    .foreign Engine.inOrder Inner.default (.claim firstHandle pollOne 0),
    .poll ⟨firstHandle, 0, 1⟩ ⟨1, 1000000, 5⟩ 100 0, .advance 0 .markPublishes,
    .advance 0 .markConsumer, .advance 0 (.readClock 0), .advance 0 .check, .advance 0 (.wait 0)]

/-- The publish it waits after. -/
def publishedOne : Event :=
  perform Engine.inOrder Inner.default (.publishBatch [⟨none, [7], none⟩] 0)
    (outcomeDb Engine.inOrder Inner.default [.openConsumer "jobs" .all 0] Db.empty)

set_option maxRecDepth 10000 in
/-- The publish had committed before the waiting poll read the clock. -/
theorem no_lost_wakeup_waiting :
    ∃ moves w pre, Transition.Run (interleaving Inner.default) World.initial moves w ∧
      Transition.Latest (ReadsClock 0) moves pre ∧ ∃ move ∈ pre, Commits 1 move := by
  obtain ⟨moves, w, hplay, hpoll, htask, hall, hown⟩ : ∃ moves w,
      Transition.play (step Inner.default) waiting World.initial = some (moves, w) ∧
      w.pollers[0]? = some ⟨⟨firstHandle, 0, 1⟩, ⟨1, 1000000, 5⟩, 5, ⟨0, 1⟩, ⟨1, 0⟩,
        .blocked (some 1)⟩ ∧
      w.tasks[1]? = some ⟨publishedOne, .notifying [.allPublishes] []⟩ ∧
      w.signals.generation 0 = 1 ∧ w.signals.generation 1 = 0 := ⟨_, _, rfl, rfl, rfl, rfl, rfl⟩
  obtain ⟨pre, reading, hpre, -, -, hcommitted⟩ :=
    no_lost_wakeup (Transition.play_run hplay) hpoll rfl (by rw [Receiver.changed, hall]; rfl)
      (by rw [Receiver.changed, hown]; rfl)
  refine ⟨moves, w, pre, Transition.play_run hplay, hpre, hcommitted 1 _ htask rfl ?_⟩
  exact ⟨_, List.mem_cons_self, rfl⟩

end LiteFan.Wakeups

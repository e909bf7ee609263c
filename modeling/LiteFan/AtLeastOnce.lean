import LiteFan.FanOut
import LiteFan.Owing
import LiteFan.PollAnswers

/-!
# Workers that process before they acknowledge

A worker polls, works on each delivery and acknowledges it only after the work
has succeeded; work that failed is released for a retry. Any number of such
workers share a consumer, each between any two of its steps, and any of them can
stop there for good. Leases expire, and others publish, poll, archive, drain and
delete meanwhile. No message is lost: what the consumer is due has been worked
on, or it is still held for it.
-/

namespace LiteFan.AtLeastOnce

open LiteFan.Api LiteFan.Time LiteFan.Schema LiteFan.Storage LiteFan.Store LiteFan.Consumer
open LiteFan.System LiteFan.Invariant LiteFan.Effect LiteFan.Step LiteFan.Preservation
open LiteFan.Lifecycle LiteFan.History LiteFan.FanOut LiteFan.PollAnswers Transition

/-- Where a worker stands. -/
inductive Worker where
  | polling (stage : Stage)
  /-- At the top of its loop over what the poll returned. -/
  | handling (rest : List Delivery)
  /-- The work on a delivery has succeeded. -/
  | acking (delivery : Delivery) (rest : List Delivery)
  /-- The work on a delivery has failed. -/
  | nacking (delivery : Delivery) (rest : List Delivery)
  | finished (result : Except Error Unit)

/-- A poll that has returned hands its deliveries to the loop. -/
def afterPoll : Stage → Worker
  | .returned (.error err) => .finished (.error err)
  | .returned (.ok deliveries) => .handling deliveries
  | stage => .polling stage

/-- A call that fails ends the worker. -/
def afterCall (rest : List Delivery) : Except Error Reply → Worker
  | .error err => .finished (.error err)
  | .ok _ => .handling rest

/-- The store with its history, the workers, and the messages whose work has succeeded. -/
structure World where
  events : List Event
  db : Db
  sent : List ℤ
  workers : List Worker

/-- A fresh store. -/
def World.start : World := ⟨[], Db.empty, [], []⟩

/-- What happens next. -/
inductive Action : Type 1 where
  | begin
  | poll (i : ℕ) (action : PollAnswers.Action)
  | work (i : ℕ) (succeeds : Bool)
  | settle (i : ℕ) (e : Engine) (sinceEpoch : Option Duration)
  /-- Anyone else commits. -/
  | other (e : Engine) (fan : Inner) (op : Op)

/-- A worker goes on to its next step. -/
def World.goOn (w : World) (i : ℕ) (worker : Worker) : World :=
  { w with workers := w.workers.set i worker }

/-- An operation commits. -/
def World.commit (w : World) (event : Event) : World :=
  { w with events := w.events ++ [event], db := event.after }

/-- An acknowledgement through the consumer's handles. -/
def acknowledges (handle : Consumer) : Op → Bool
  | .ackBatch other _ => other.id == handle.id
  | _ => false

/-- A step of the poll itself. -/
def ofPoll : PollAnswers.Action → Bool
  | .elsewhere _ _ _ => false
  | _ => true

/-- One step. Nobody but the workers acknowledges for the consumer. -/
def World.step (fan : Inner) (handle : Consumer) (options : Poll) (retry : Retry) (w : World) :
    Action → Option World
  | .begin => some { w with workers := w.workers ++ [.polling .called] }
  | .poll i action =>
    match w.workers[i]? with
    | some (.polling stage) =>
      if ofPoll action then
        (PollAnswers.step fan handle options ⟨w.db, stage⟩ action).map fun after =>
          { w with
            events := w.events ++ commits fan handle options ⟨⟨w.db, stage⟩, action, after⟩
            db := after.db
            workers := w.workers.set i (afterPoll after.stage) }
      else none
    | _ => none
  | .work i succeeds =>
    match w.workers[i]? with
    | some (.handling []) => some (w.goOn i (.finished (.ok ())))
    | some (.handling (delivery :: rest)) =>
      if succeeds then
        some { w.goOn i (.acking delivery rest) with sent := w.sent ++ [delivery.message.id] }
      else some (w.goOn i (.nacking delivery rest))
    | _ => none
  | .settle i e sinceEpoch =>
    match w.workers[i]? with
    | some (.acking delivery rest) =>
      let event := perform e fan (.ackBatch handle [delivery.receipt]) w.db
      some ((w.commit event).goOn i (afterCall rest event.reply))
    | some (.nacking delivery rest) =>
      match nowMs sinceEpoch with
      | .error err => some (w.goOn i (.finished (.error err)))
      | .ok now =>
        let event := perform e fan (.nackBatch handle [delivery.receipt] retry now) w.db
        some ((w.commit event).goOn i (afterCall rest event.reply))
    | _ => none
  | .other e fan op =>
    if acknowledges handle op then none else some (w.commit (perform e fan op w.db))

/-- The deliveries a worker has been given and has not settled. -/
def Worker.held : Worker → List Delivery
  | .polling stage => stage.held
  | .handling rest => rest
  | .acking delivery rest | .nacking delivery rest => delivery :: rest
  | .finished _ => []

/-- The consumer is due the message, and the receipt is for it. -/
def Due (events : List Event) (handle : Consumer) (delivery : Delivery) : Prop :=
  Eligible events handle.id delivery.message ∧
    delivery.receipt.messageId = delivery.message.id

/-- What every step keeps: nothing is acknowledged before it has been worked on. -/
structure Working (handle : Consumer) (w : World) : Prop where
  run : System.Run w.events w.db
  acked : ∀ event ∈ w.events, ∀ m, Acks event handle.id m → m ∈ w.sent
  held : ∀ worker ∈ w.workers, ∀ delivery ∈ worker.held, Due w.events handle delivery
  acking : ∀ delivery rest, .acking delivery rest ∈ w.workers → delivery.message.id ∈ w.sent
  sent : ∀ m ∈ w.sent, ∃ message, message.id = m ∧ Eligible w.events handle.id message

section Steps

variable {fan : Inner} {handle : Consumer} {options : Poll} {retry : Retry} {w w' : World}
  {event : Event} {worker : Worker}

theorem Due.append {events : List Event} {delivery : Delivery} (h : Due events handle delivery)
    (later : List Event) : Due (events ++ later) handle delivery :=
  ⟨h.1.append later, h.2⟩

/-- Handing on what a poll returns changes nothing in what is held. -/
theorem held_afterPoll (stage : Stage) : (afterPoll stage).held = stage.held := by
  cases stage with
  | returned result => cases result <;> rfl
  | _ => rfl

/-- A poll that goes on acknowledges nothing. -/
theorem afterPoll_ne_acking (stage : Stage) (delivery : Delivery) (rest : List Delivery) :
    afterPoll stage ≠ .acking delivery rest := by
  cases stage with
  | returned result => cases result <;> exact nofun
  | _ => exact nofun

/-- An acknowledgement of one receipt is one for its message. -/
theorem acks_one {e : Engine} {receipt : Receipt} {db : Db} {m : ℤ}
    (h : Acks (perform e fan (.ackBatch handle [receipt]) db) handle.id m) :
    receipt.messageId = m := by
  obtain ⟨other, receipts, hop, -, -, d, -, -, hm, hreceipt⟩ := h
  cases hop
  rw [← List.mem_singleton.mp hreceipt]
  exact hm

/-- A commit on what a run has led to goes on with the run. -/
theorem run_commit {events : List Event} {db : Db} (hrun : System.Run events db)
    (hv : system.valid event) (hbefore : event.before = db) :
    System.Run (events ++ [event]) event.after := by
  subst hbefore
  exact Transition.Run.snoc (S := system) (e := event) hrun hv

/-- A commit of an operation that acknowledges only what has been worked on. -/
theorem Working.commit (h : Working handle w) (hv : system.valid event)
    (hbefore : event.before = w.db) (hacks : ∀ m, Acks event handle.id m → m ∈ w.sent) :
    Working handle (w.commit event) where
  run := run_commit h.run hv hbefore
  acked other hother m hm := by
    rcases List.mem_append.mp hother with hpast | hlast
    · exact h.acked other hpast m hm
    · rw [List.mem_singleton.mp hlast] at hm
      exact hacks m hm
  held worker hworker delivery hdelivery := (h.held worker hworker delivery hdelivery).append _
  acking := h.acking
  sent m hm := by
    obtain ⟨message, hid, heligible⟩ := h.sent m hm
    exact ⟨message, hid, heligible.append _⟩

/-- A worker may go on to a step that holds only what the consumer is due. -/
theorem Working.goOn (h : Working handle w) (i : ℕ)
    (hheld : ∀ delivery ∈ worker.held, Due w.events handle delivery)
    (hacking : ∀ delivery rest, worker = .acking delivery rest → delivery.message.id ∈ w.sent) :
    Working handle (w.goOn i worker) where
  run := h.run
  acked := h.acked
  held other hother := by
    rcases List.mem_or_eq_of_mem_set hother with hold | rfl
    · exact h.held other hold
    · exact hheld
  acking delivery rest hmem := by
    rcases List.mem_or_eq_of_mem_set hmem with hold | hnew
    · exact h.acking delivery rest hold
    · exact hacking delivery rest hnew.symm
  sent := h.sent

/-- Work on a delivery that succeeds. -/
theorem Working.worked (h : Working handle w) (i : ℕ) {delivery : Delivery} {rest : List Delivery}
    (hheld : ∀ d ∈ delivery :: rest, Due w.events handle d) :
    Working handle
      { w.goOn i (.acking delivery rest) with sent := w.sent ++ [delivery.message.id] } where
  run := h.run
  acked event hevent m hm := List.mem_append_left _ (h.acked event hevent m hm)
  held worker hworker := by
    rcases List.mem_or_eq_of_mem_set hworker with hold | rfl
    · exact h.held worker hold
    · exact hheld
  acking delivery' rest' hmem := by
    rcases List.mem_or_eq_of_mem_set hmem with hold | hnew
    · exact List.mem_append_left _ (h.acking delivery' rest' hold)
    · cases hnew
      exact List.mem_append_right _ List.mem_cons_self
  sent m hm := by
    rcases List.mem_append.mp hm with hold | hnew
    · exact h.sent m hold
    · rw [List.mem_singleton.mp hnew]
      exact ⟨delivery.message, rfl, (hheld delivery List.mem_cons_self).1⟩

/-- The call that settles a delivery. -/
theorem Working.settle (h : Working handle w) {i : ℕ} {rest : List Delivery}
    (hrest : ∀ delivery ∈ rest, Due w.events handle delivery) (hv : system.valid event)
    (hbefore : event.before = w.db) (hacks : ∀ m, Acks event handle.id m → m ∈ w.sent) :
    Working handle ((w.commit event).goOn i (afterCall rest event.reply)) := by
  refine (h.commit hv hbefore hacks).goOn i ?_ ?_
  · intro delivery hdelivery
    cases hreply : event.reply with
    | error err =>
      rw [hreply] at hdelivery
      exact absurd hdelivery List.not_mem_nil
    | ok reply =>
      rw [hreply] at hdelivery
      exact (hrest delivery hdelivery).append _
  · intro delivery rest' hworker
    cases hreply : event.reply <;> rw [hreply] at hworker <;> cases hworker

/-- A claim of a poll gives the worker what the consumer is due. -/
theorem Working.claim (h : Working handle w) {i : ℕ} (e : Engine) (deadline : ℕ) (now : ℤ) :
    Working handle ((w.commit (perform e fan (.claim handle options now) w.db)).goOn i
      (afterPoll (onward (.written deadline now)
        (pollCommit e fan handle options now w.db).2))) := by
  have hv : system.valid (perform e fan (.claim handle options now) w.db) := ⟨e, rfl⟩
  have hcommitted := h.commit hv rfl fun m hm => by
    obtain ⟨other, receipts, hop, -⟩ := hm
    cases hop
  refine hcommitted.goOn i ?_ fun delivery rest hworker =>
    absurd hworker (afterPoll_ne_acking _ delivery rest)
  intro delivery hdelivery
  rw [held_afterPoll] at hdelivery
  cases hresult : (pollCommit e fan handle options now w.db).2 with
  | error err =>
    rw [hresult] at hdelivery
    exact absurd hdelivery List.not_mem_nil
  | ok granted =>
    rw [hresult] at hdelivery
    have hreply : (perform e fan (.claim handle options now) w.db).reply =
        .ok (.granted granted) := by
      change (pollCommit e fan handle options now w.db).2.map Reply.granted = _
      rw [hresult]
      rfl
    obtain ⟨heligible, -, hmessage⟩ := claim_deserved hv (inv_run h.run) (deserved_run h.run) rfl
      hreply hdelivery
    exact ⟨heligible.append _, hmessage⟩

/-- A step of a poll commits its claim, or it commits nothing. -/
theorem own_step {db : Db} {stage : Stage} {action : PollAnswers.Action} {after : State}
    (hown : ofPoll action = true)
    (hstep : PollAnswers.step fan handle options ⟨db, stage⟩ action = some after) :
    (∃ e deadline now, stage = .workFound deadline now ∧ action = .write e ∧
      after = ⟨(pollCommit e fan handle options now db).1,
        onward (.written deadline now) (pollCommit e fan handle options now db).2⟩) ∨
    (commits fan handle options ⟨⟨db, stage⟩, action, after⟩ = [] ∧ after.db = db ∧
      after.stage.held = stage.held) := by
  rcases PollAnswers.step_cases hstep with ⟨e, other, op, rfl, -⟩ |
    ⟨e, deadline, now, rfl, rfl, rfl⟩ | ⟨hwrites, -, hdb, hcarries⟩
  · cases hown
  · exact .inl ⟨e, deadline, now, rfl, rfl, rfl⟩
  · refine .inr ⟨?_, hdb, hcarries.held⟩
    cases action with
    | write e => exact absurd rfl (hwrites e)
    | elsewhere e other op => cases hown
    | _ => cases stage <;> rfl

/-- One step of a poll. -/
theorem Working.poll (h : Working handle w) {i : ℕ} {stage : Stage}
    {action : PollAnswers.Action} {after : State} (hworker : .polling stage ∈ w.workers)
    (hown : ofPoll action = true)
    (hstep : PollAnswers.step fan handle options ⟨w.db, stage⟩ action = some after) :
    Working handle { w with
      events := w.events ++ commits fan handle options ⟨⟨w.db, stage⟩, action, after⟩
      db := after.db
      workers := w.workers.set i (afterPoll after.stage) } := by
  rcases own_step hown hstep with ⟨e, deadline, now, rfl, rfl, rfl⟩ | ⟨hnone, hdb, hheld⟩
  · exact h.claim e deadline now
  · rw [hnone, List.append_nil, hdb]
    refine h.goOn i ?_ fun delivery rest hworker =>
      absurd hworker (afterPoll_ne_acking _ delivery rest)
    intro delivery hdelivery
    rw [held_afterPoll, hheld] at hdelivery
    exact h.held _ hworker delivery hdelivery

/-- Every step keeps the workers to what the consumer is due. -/
theorem Working.step (h : Working handle w) {action : Action}
    (hstep : w.step fan handle options retry action = some w') : Working handle w' := by
  cases action with
  | begin =>
    cases hstep
    refine ⟨h.run, h.acked, fun worker hworker => ?_, fun delivery rest hmem => ?_, h.sent⟩
    · rcases List.mem_append.mp hworker with hold | hnew
      · exact h.held worker hold
      · rw [List.mem_singleton.mp hnew]
        exact fun delivery hdelivery => absurd hdelivery List.not_mem_nil
    · rcases List.mem_append.mp hmem with hold | hnew
      · exact h.acking delivery rest hold
      · cases List.mem_singleton.mp hnew
  | other e other op =>
    rw [World.step] at hstep
    split_ifs at hstep with hacknowledges
    cases hstep
    refine h.commit ⟨e, rfl⟩ rfl fun m hm => ?_
    obtain ⟨acker, receipts, hop, hid, -⟩ := hm
    obtain rfl : op = .ackBatch acker receipts := hop
    exact absurd (beq_iff_eq.mpr hid) hacknowledges
  | poll i action =>
    rw [World.step] at hstep
    cases hworker : w.workers[i]? with
    | none =>
      rw [hworker] at hstep
      cases hstep
    | some worker =>
      cases worker with
      | polling stage =>
        have hmem := List.mem_of_getElem? hworker
        rw [hworker] at hstep
        dsimp only at hstep
        split_ifs at hstep with hown
        obtain ⟨after, hafter, rfl⟩ := Option.map_eq_some_iff.mp hstep
        exact h.poll hmem hown hafter
      | _ =>
        rw [hworker] at hstep
        cases hstep
  | work i succeeds =>
    rw [World.step] at hstep
    cases hworker : w.workers[i]? with
    | none =>
      rw [hworker] at hstep
      cases hstep
    | some worker =>
      rw [hworker] at hstep
      have hheld := h.held _ (List.mem_of_getElem? hworker)
      cases worker with
      | handling rest =>
        cases rest with
        | nil =>
          cases hstep
          exact h.goOn i (fun delivery hdelivery => absurd hdelivery List.not_mem_nil) nofun
        | cons delivery rest =>
          cases succeeds with
          | false =>
            cases hstep
            exact h.goOn i hheld nofun
          | true =>
            cases hstep
            exact h.worked i hheld
      | _ => cases hstep
  | settle i e sinceEpoch =>
    rw [World.step] at hstep
    cases hworker : w.workers[i]? with
    | none =>
      rw [hworker] at hstep
      cases hstep
    | some worker =>
      rw [hworker] at hstep
      have hmem := List.mem_of_getElem? hworker
      have hheld := h.held _ hmem
      cases worker with
      | acking delivery rest =>
        cases hstep
        refine h.settle (fun d hd => hheld d (List.mem_cons_of_mem _ hd)) ⟨e, rfl⟩ rfl ?_
        intro m hm
        rw [← acks_one hm, (hheld delivery List.mem_cons_self).2]
        exact h.acking delivery rest hmem
      | nacking delivery rest =>
        cases hclock : nowMs sinceEpoch with
        | error err =>
          simp only [hclock] at hstep
          cases hstep
          exact h.goOn i (fun d hd => absurd hd List.not_mem_nil) nofun
        | ok now =>
          simp only [hclock] at hstep
          cases hstep
          refine h.settle (fun d hd => hheld d (List.mem_cons_of_mem _ hd)) ⟨e, rfl⟩ rfl ?_
          intro m hm
          obtain ⟨acker, receipts, hop, -⟩ := hm
          cases hop
      | _ => cases hstep

/-- The workers keep to what the consumer is due over every run from a fresh store. -/
theorem working_run {moves : List (Transition.Move World Action)}
    (hrun : Transition.Run (labelled (World.step fan handle options retry)) World.start moves w) :
    Working handle w := by
  refine hrun.invariant (I := Working handle) ⟨.nil, ?_, ?_, ?_, ?_⟩ fun move hv h => h.step hv
  · exact fun event hevent => absurd hevent List.not_mem_nil
  · exact fun worker hworker => absurd hworker List.not_mem_nil
  · exact fun delivery rest hmem => absurd hmem List.not_mem_nil
  · exact fun m hm => absurd hm List.not_mem_nil

end Steps

/-- What the workers of a consumer have done when anything has happened. -/
structure Kept (handle : Consumer) (w : World) : Prop where
  /-- A message the consumer is due has been worked on, or it is in the log ahead of the
  consumer, delivered to it, in its archive, or was purged from there. -/
  owed : ∀ message, Eligible w.events handle.id message →
    (w.db.consumers.lookup handle.id).isSome = true →
      message.id ∈ w.sent ∨ At w.events w.db handle.id message .log ∨
        At w.events w.db handle.id message .delivery ∨
        At w.events w.db handle.id message .archive ∨ At w.events w.db handle.id message .purged
  /-- Nothing is acknowledged that has not been worked on. -/
  acked : ∀ event ∈ w.events, ∀ m, Acks event handle.id m → m ∈ w.sent
  /-- Nothing is worked on that the consumer is not due. -/
  due : ∀ m ∈ w.sent, ∃ message, message.id = m ∧ Eligible w.events handle.id message
  /-- When nothing is outstanding, everything has been worked on but what was archived. -/
  drained : ∀ row, w.db.consumers.lookup handle.id = some row → outstandingCount w.db row = 0 →
    ∀ message, Eligible w.events handle.id message →
      message.id ∈ w.sent ∨ At w.events w.db handle.id message .archive ∨
        At w.events w.db handle.id message .purged

/-- Any number of workers that acknowledge after their work, stopped anywhere, lose no message. -/
theorem at_least_once {fan : Inner} {handle : Consumer} {options : Poll} {retry : Retry}
    {moves : List (Transition.Move World Action)} {w : World}
    (hrun : Transition.Run (labelled (World.step fan handle options retry)) World.start moves w) :
    Kept handle w := by
  have hworking := working_run hrun
  have hkept : ∀ message, Eligible w.events handle.id message →
      (w.db.consumers.lookup handle.id).isSome = true →
      message.id ∈ w.sent ∨ At w.events w.db handle.id message .log ∨
        At w.events w.db handle.id message .delivery ∨
        At w.events w.db handle.id message .archive ∨
        At w.events w.db handle.id message .purged := by
    intro message heligible hlive
    obtain ⟨place, hplace⟩ := owed_run hworking.run heligible hlive
    cases place with
    | log => exact .inr (.inl hplace)
    | delivery => exact .inr (.inr (.inl hplace))
    | archive => exact .inr (.inr (.inr (.inl hplace)))
    | purged => exact .inr (.inr (.inr (.inr hplace)))
    | acked =>
      obtain ⟨event, hevent, hacks⟩ := hplace
      exact .inl (hworking.acked event hevent _ hacks)
  refine ⟨hkept, hworking.acked, hworking.sent, ?_⟩
  intro row hrow hzero message heligible
  have hnone := (Owing.outstandingCount_zero_iff hrow).mp hzero message.id
  have hlive : (w.db.consumers.lookup handle.id).isSome = true := by rw [hrow]; rfl
  rcases hkept message heligible hlive with hsent | hlog | hdelivered | harchive | hpurged
  · exact .inl hsent
  · obtain ⟨hstored, row', hrow', hscan, hlimit⟩ := hlog
    have hmatches := heligible.matches (recorded_run hworking.run) hrow
    obtain rfl := Option.some.inj (hrow.symm.trans hrow')
    have hbelow : message.id ≤ scanLimit w.db row := by
      unfold scanLimit
      cases hcursor : row.drainCursor with
      | none => exact le_highWater hstored
      | some limit => exact hlimit limit hcursor
    have hunseen := mem_unseen.mpr ⟨hstored, hscan, hbelow, hmatches⟩
    exact absurd (.inr ⟨row, message, hrow, hunseen, rfl⟩) hnone
  · exact absurd (.inl hdelivered) hnone
  · exact .inr (.inl harchive)
  · exact .inr (.inr hpurged)

/-- A poll that starts at a clock reading and takes what it finds. -/
def pollAt (i : ℕ) (now : Duration) : List Action :=
  [.poll i (.call 1000 0), .poll i (.readClock (some now)), .poll i .check,
    .poll i (.write Engine.inOrder), .poll i .reread, .poll i (.wait 0 none)]

/-- The first worker stops after its work and before it acknowledges. -/
def stoppedActions : List Action :=
  [.other Engine.inOrder Inner.default (.openConsumer "jobs" .all 0),
    .other Engine.inOrder Inner.default (.publishBatch [⟨none, [7], none⟩] 0), .begin, .begin] ++
    pollAt 0 0 ++ [.work 0 true] ++ pollAt 1 5000000 ++
    [.work 1 true, .settle 1 Engine.inOrder none, .work 1 true]

theorem at_least_once_stopped :
    ∃ moves w, play (World.step Inner.default firstHandle pollOne .immediately) stoppedActions
        World.start = some (moves, w) ∧
      w.sent = [1, 1] ∧ w.db.deliveries.rows = [] ∧ Kept firstHandle w := by
  have hplayed : (play (World.step Inner.default firstHandle pollOne .immediately) stoppedActions
      World.start).map (fun played => (played.2.sent, played.2.db.deliveries.rows)) =
      some ([1, 1], []) := by
    decide +kernel
  obtain ⟨⟨moves, w⟩, hplay, hend⟩ := Option.map_eq_some_iff.mp hplayed
  obtain ⟨hsent, hrows⟩ := Prod.mk.inj hend
  exact ⟨moves, w, hplay, hsent, hrows, at_least_once (play_run hplay)⟩

end LiteFan.AtLeastOnce

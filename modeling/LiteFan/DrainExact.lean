import LiteFan.CompetingWorkers
import LiteFan.ReceiptBatches

/-!
# A task that drains a consumer of its own

A task polls, acknowledges each batch, asserts that all of the batch applied,
and counts until it has drained what it expects. While nobody else leases,
releases or takes copies of its consumer the assertion holds, and the task
returns what it expects exactly: other consumers, publishers, prunes and drains
do not matter, and neither do leases that run out.
-/

namespace LiteFan.DrainExact

open LiteFan.Api LiteFan.Time LiteFan.Schema LiteFan.Storage LiteFan.Store LiteFan.Consumer
open LiteFan.System LiteFan.Invariant LiteFan.Effect LiteFan.Step LiteFan.Preservation
open LiteFan.Lifecycle LiteFan.PollAnswers LiteFan.AtLeastOnce LiteFan.Balance
open LiteFan.CompetingWorkers Relational Transition

/-- Where the task stands. -/
inductive Task where
  | checking
  | polling (stage : Stage)
  | acking (deliveries : List Delivery)
  /-- Ended by an error it does not handle. -/
  | panicked (err : Error)
  /-- A poll returned nothing. -/
  | timedOut
  /-- A batch did not apply to all of its receipts. -/
  | mismatched
  | returned (drained : ℕ)

/-- What the task does with the result of a poll. -/
def afterPoll : Stage → Task
  | .returned (.error err) => .panicked err
  | .returned (.ok []) => .timedOut
  | .returned (.ok deliveries) => .acking deliveries
  | stage => .polling stage

/-- The store with its history, the count and the task. -/
structure Drain where
  events : List Event
  db : Db
  drained : ℕ
  task : Task

/-- A fresh store. -/
def Drain.start : Drain := ⟨[], Db.empty, 0, .checking⟩

/-- What happens next. -/
inductive Turn : Type 1 where
  | check
  | poll (action : PollAnswers.Action)
  | ack (e : Engine)
  /-- Anyone else commits. -/
  | other (e : Engine) (fan : Inner) (op : Op)

/-- An operation that leases, releases, takes or brings back copies of the consumer. -/
def uses (handle : Consumer) (db : Db) : Op → Bool
  | .claim other _ _ | .nackBatch other _ _ _ => other.id == handle.id
  | op => interferes handle db op

/-- An operation commits. -/
def Drain.commit (s : Drain) (event : Event) : Drain :=
  { s with events := s.events ++ [event], db := event.after }

/-- The task asserts that its batch applied, and counts it. -/
def Drain.acked (s : Drain) (deliveries : List Delivery) : Except Error Reply → Drain
  | .error err => { s with task := .panicked err }
  | .ok reply =>
    if appliedBy reply = deliveries.length then
      { s with task := .checking, drained := s.drained + appliedBy reply }
    else { s with task := .mismatched }

/-- One step. Nobody but the task uses the consumer. -/
def Drain.step (fan : Inner) (handle : Consumer) (options : Poll) (expected : ℕ) (s : Drain) :
    Turn → Option Drain
  | .check =>
    match s.task with
    | .checking =>
      if s.drained < expected then some { s with task := .polling .called }
      else some { s with task := .returned s.drained }
    | _ => none
  | .poll action =>
    match s.task with
    | .polling stage =>
      if ofPoll action then
        (PollAnswers.step fan handle options ⟨s.db, stage⟩ action).map fun after =>
          { s with
            events := s.events ++ commits fan handle options ⟨⟨s.db, stage⟩, action, after⟩
            db := after.db
            task := afterPoll after.stage }
      else none
    | _ => none
  | .ack e =>
    match s.task with
    | .acking deliveries =>
      let event := perform e fan (.ackBatch handle (deliveries.map Delivery.receipt)) s.db
      some ((s.commit event).acked deliveries event.reply)
    | _ => none
  | .other e other op =>
    if uses handle s.db op then none else some (s.commit (perform e other op s.db))

/-- The deliveries the task has not acknowledged yet. -/
def Task.held : Task → List Delivery
  | .polling stage => stage.held
  | .acking deliveries => deliveries
  | _ => []

/-- The receipts name deliveries of the consumer as they are, each once. -/
structure Current (handle : Consumer) (db : Db) (deliveries : List Delivery) : Prop where
  stored : ∀ delivery ∈ deliveries,
    ∃ d ∈ db.deliveries, d.consumerId = handle.id ∧ receiptOf d = delivery.receipt
  once : (deliveries.map Delivery.receipt).Nodup

/-- What every step keeps. -/
structure Draining (handle : Consumer) (expected : ℕ) (s : Drain) : Prop where
  run : System.Run s.events s.db
  counted : outstandingOf s.db handle.id + s.drained = total Entry.fannedOut handle.id s.events
  current : Current handle s.db s.task.held
  matched : s.task ≠ .mismatched
  returned : ∀ n, s.task = .returned n → n = s.drained ∧ expected ≤ n

section Steps

variable {fan : Inner} {handle : Consumer} {options : Poll} {expected : ℕ} {s s' : Drain}
  {event : Event} {db : Db} {deliveries : List Delivery}

theorem Current.nothing (handle : Consumer) (db : Db) : Current handle db [] where
  stored _ hdelivery := absurd hdelivery List.not_mem_nil
  once := List.nodup_nil

/-- A delivery keeps its receipt while nobody uses the consumer. -/
theorem leased_kept {e : Engine} {other : Inner} {op : Op} (hinv : Inv db)
    (hspared : uses handle db op = false) {d : DeliveryRow} (hd : d ∈ db.deliveries)
    (hown : d.consumerId = handle.id) :
    ∃ d' ∈ (perform e other op db).after.deliveries, d'.consumerId = handle.id ∧
      receiptOf d' = receiptOf d := by
  have hv : system.valid (perform e other op db) := ⟨e, rfl⟩
  obtain ⟨act, hhappens, hstep⟩ := copy_step hv hinv d.consumerId d.messageId
  have hbefore : copyOf (perform e other op db).before d.consumerId d.messageId =
      .leased d.visibleAt d.generation d.deliveryCount := copyOf_delivery hd
  have hfound : ∀ {v : ℤ}, copyOf (perform e other op db).after d.consumerId d.messageId =
      .leased v d.generation d.deliveryCount →
      ∃ d' ∈ (perform e other op db).after.deliveries, d'.consumerId = handle.id ∧
        receiptOf d' = receiptOf d :=
    fun hafter => ⟨_, copyOf_leased.mp hafter, hown, rfl⟩
  have hthrough : ∀ {id : ℤ}, id = d.consumerId → (id == handle.id) = true :=
    fun hid => beq_iff_eq.mpr (hid.trans hown)
  rw [hbefore] at hstep
  generalize hafter : copyOf (perform e other op db).after d.consumerId d.messageId = copy at hstep
  cases hstep with
  | stay => exact hfound hafter
  | extend visibleAt => exact hfound hafter
  | retry _ _ =>
    obtain ⟨claimer, poll, hop, hid, -⟩ := hhappens
    obtain rfl : op = .claim claimer poll _ := hop
    exact absurd (hthrough hid) (ne_true_of_eq_false hspared)
  | ack =>
    obtain ⟨acker, receipts, hop, hid, -⟩ := hhappens
    obtain rfl : op = .ackBatch acker receipts := hop
    exact absurd (hthrough hid) (ne_true_of_eq_false hspared)
  | nack _ =>
    obtain ⟨nacker, receipts, retry, now, hop, hid, -⟩ := hhappens
    obtain rfl : op = .nackBatch nacker receipts retry now := hop
    exact absurd (hthrough hid) (ne_true_of_eq_false hspared)
  | archive =>
    obtain ⟨archiver, receipts, detail, now, hop, hid, -⟩ := hhappens
    obtain rfl : op = .archiveBatch archiver receipts detail now := hop
    exact absurd (hthrough hid) (ne_true_of_eq_false hspared)
  | discard =>
    obtain ⟨name, mode, row, outcome, hop, -, hrow, hname⟩ := hhappens
    obtain rfl : op = .deleteConsumer name mode := hop
    obtain ⟨hstored, hid⟩ := AutoTable.lookup_eq_some.mp hrow
    have hfind : consumerNamed db name = some row := hname ▸ consumerNamed_of_mem hinv hstored
    have hspared : (consumerNamed db name).any (fun row => row.id == handle.id) = false := hspared
    rw [hfind, Option.any_some, hthrough hid] at hspared
    cases hspared

/-- What the task holds stays current while nobody uses the consumer. -/
theorem Current.kept {e : Engine} {other : Inner} {op : Op} (h : Current handle db deliveries)
    (hinv : Inv db) (hspared : uses handle db op = false) :
    Current handle (perform e other op db).after deliveries where
  stored delivery hdelivery := by
    obtain ⟨d, hd, hown, hreceipt⟩ := h.stored delivery hdelivery
    obtain ⟨d', hd', hown', hreceipt'⟩ := leased_kept hinv hspared hd hown
    exact ⟨d', hd', hown', hreceipt'.trans hreceipt⟩
  once := h.once

/-- What a claim returns is current. -/
theorem Current.claimed {e : Engine} {now : ℤ} {db' : Db} {granted : Granted} (hinv : Inv db)
    (h : pollCommit e fan handle options now db = (db', .ok granted)) :
    Current handle db' granted.deliveries where
  stored delivery hdelivery := by
    obtain ⟨hconsumer, hmessage, -, visibleAt, hstored, -⟩ := written_of_returned hinv h hdelivery
    refine ⟨_, hstored, rfl, ?_⟩
    rw [receiptOf, ← hconsumer, ← hmessage]
  once := by
    rcases granted_cases hinv h with ⟨-, hnone⟩ | ⟨row, deadline, hrow, hid, -, hsame⟩
    · rw [hnone]
      exact List.nodup_nil
    · have hsorted := claimedDeliveries_sorted hinv hrow now deadline options.maxMessages
      rw [← hsame] at hsorted
      refine List.pairwise_map.mpr (hsorted.imp_of_mem fun {a b} ha hb hless heq => ?_)
      have hfirst := (written_of_returned hinv h ha).2.1
      have hsecond := (written_of_returned hinv h hb).2.1
      rw [heq] at hfirst
      omega

/-- A batch of current receipts applies to all of them. -/
theorem applied_all {e : Engine} (hinv : Inv db) (h : Current handle db deliveries) {reply : Reply}
    (hreply : (perform e fan (.ackBatch handle (deliveries.map Delivery.receipt)) db).reply =
      .ok reply) : appliedBy reply = deliveries.length := by
  have heffect : Effect fan db (.ackBatch handle (deliveries.map Delivery.receipt))
      (exec e fan (.ackBatch handle (deliveries.map Delivery.receipt)) db).1 (.ok reply) := by
    rw [← hreply]
    exact exec_effect e fan _ hinv
  generalize (exec e fan (.ackBatch handle (deliveries.map Delivery.receipt)) db).1 = db' at heffect
  cases heffect with
  | idle hidle =>
    obtain ⟨hnone, rfl⟩ := hidle
    rw [List.length_map] at hnone
    rw [hnone]
    rfl
  | acked hpos hle =>
    change (db.deliveries.select (pushReceiptPredicate handle.id
      (deliveries.map Delivery.receipt))).length = deliveries.length
    rw [← ReceiptBatches.length_current, ReceiptBatches.current, h.once.dedup,
      List.filter_eq_self.mpr, List.length_map]
    intro receipt hreceipt
    obtain ⟨delivery, hdelivery, rfl⟩ := List.mem_map.mp hreceipt
    obtain ⟨d, hd, hown, hsame⟩ := h.stored delivery hdelivery
    exact List.any_eq_true.mpr ⟨d, hd, by simp [hown, hsame]⟩

/-- An operation of anyone else. -/
theorem Draining.other {e : Engine} {other : Inner} {op : Op} (h : Draining handle expected s)
    (hspared : uses handle s.db op = false) :
    Draining handle expected (s.commit (perform e other op s.db)) where
  run := run_commit h.run ⟨e, rfl⟩ rfl
  counted := by
    have hinterferes : interferes handle s.db op = false := by
      cases op with
      | claim _ _ _ => rfl
      | nackBatch _ _ _ _ => rfl
      | _ => exact hspared
    have hv : system.valid (perform e other op s.db) := ⟨e, rfl⟩
    have hstill : Still (entry handle.id (perform e other op s.db)) := entry_spared hinterferes
    have hcounted := counted_step hv (inv_run h.run) h.counted hstill.archived hstill.redriven
      hstill.discarded
    rw [hstill.acked] at hcounted
    exact hcounted
  current := h.current.kept (inv_run h.run) hspared
  matched := h.matched
  returned := h.returned

/-- What the task does with the result of a poll holds what the poll returned. -/
theorem afterPoll_parts (stage : Stage) : (afterPoll stage).held = stage.held ∧
    afterPoll stage ≠ .mismatched ∧ ∀ n, afterPoll stage ≠ .returned n := by
  unfold afterPoll
  split
  case h_4 => exact ⟨rfl, nofun, nofun⟩
  all_goals exact ⟨rfl, nofun, nofun⟩

/-- The task may go on to a step of its poll. -/
theorem Draining.goOn (h : Draining handle expected s) {stage : Stage}
    (hcurrent : Current handle s.db stage.held) :
    Draining handle expected { s with task := afterPoll stage } where
  run := h.run
  counted := h.counted
  current := by
    rw [(afterPoll_parts stage).1]
    exact hcurrent
  matched := (afterPoll_parts stage).2.1
  returned n hn := absurd hn ((afterPoll_parts stage).2.2 n)

/-- A claim of the task's poll. -/
theorem Draining.claim (h : Draining handle expected s) (e : Engine) (deadline : ℕ) (now : ℤ) :
    Draining handle expected
      { s.commit (perform e fan (.claim handle options now) s.db) with
        task := afterPoll (onward (.written deadline now)
          (pollCommit e fan handle options now s.db).2) } := by
  have hv : system.valid (perform e fan (.claim handle options now) s.db) := ⟨e, rfl⟩
  have hrun : System.Run (s.events ++ [perform e fan (.claim handle options now) s.db])
      (perform e fan (.claim handle options now) s.db).after := run_commit h.run hv rfl
  have hcounted := counted_step hv (inv_run h.run) h.counted rfl rfl rfl
  have hcurrent : Current handle (pollCommit e fan handle options now s.db).1
      (onward (.written deadline now) (pollCommit e fan handle options now s.db).2).held := by
    cases hcommit : pollCommit e fan handle options now s.db with
    | mk db' result =>
      cases result with
      | error err => exact Current.nothing _ _
      | ok granted => exact Current.claimed (inv_run h.run) hcommit
  exact
    { run := hrun
      counted := hcounted
      current := by
        rw [(afterPoll_parts _).1]
        exact hcurrent
      matched := (afterPoll_parts _).2.1
      returned := fun n hn => absurd hn ((afterPoll_parts _).2.2 n) }

/-- A batch that applies to all of its receipts is counted. -/
theorem Draining.ack (h : Draining handle expected s) {receipts : List Receipt}
    (hv : system.valid event) (hbefore : event.before = s.db)
    (hop : event.op = .ackBatch handle receipts)
    (happlied : ∀ reply, event.reply = .ok reply → appliedBy reply = deliveries.length) :
    Draining handle expected ((s.commit event).acked deliveries event.reply) := by
  have hrun : System.Run (s.events ++ [event]) event.after := run_commit h.run hv hbefore
  have hentry := entry_ack hop
  have hcounted := counted_step hv (hbefore ▸ inv_run h.run) (hbefore ▸ h.counted)
    (by rw [hentry]; rfl) (by rw [hentry]; rfl) (by rw [hentry]; rfl)
  rw [hentry] at hcounted
  cases hreply : event.reply with
  | error err =>
    rw [hreply] at hcounted
    exact ⟨hrun, hcounted, Current.nothing _ _, nofun, nofun⟩
  | ok reply =>
    rw [hreply] at hcounted
    rw [Drain.acked, if_pos (happlied reply hreply)]
    exact ⟨hrun, hcounted, Current.nothing _ _, nofun, nofun⟩

/-- Every step keeps the count and the task's receipts. -/
theorem Draining.step (h : Draining handle expected s) {turn : Turn}
    (hstep : s.step fan handle options expected turn = some s') : Draining handle expected s' := by
  cases turn with
  | check =>
    rw [Drain.step] at hstep
    split at hstep
    case h_1 htask =>
      split_ifs at hstep with hless
      · cases hstep
        exact ⟨h.run, h.counted, Current.nothing _ _, nofun, nofun⟩
      · cases hstep
        refine ⟨h.run, h.counted, Current.nothing _ _, nofun, fun n hn => ?_⟩
        cases hn
        exact ⟨rfl, not_lt.mp hless⟩
    case h_2 => cases hstep
  | poll action =>
    rw [Drain.step] at hstep
    split at hstep
    case h_1 stage htask =>
      split_ifs at hstep with hown
      obtain ⟨after, hafter, rfl⟩ := Option.map_eq_some_iff.mp hstep
      rcases own_step hown hafter with ⟨e, deadline, now, rfl, rfl, rfl⟩ | ⟨hnone, hdb, hheld⟩
      · exact h.claim e deadline now
      · have hcurrent := h.current
        rw [htask] at hcurrent
        rw [hnone, List.append_nil, hdb]
        refine h.goOn ?_
        rw [hheld]
        exact hcurrent
    case h_2 => cases hstep
  | ack e =>
    rw [Drain.step] at hstep
    split at hstep
    case h_1 deliveries htask =>
      cases hstep
      have hcurrent := h.current
      rw [htask] at hcurrent
      exact h.ack ⟨e, rfl⟩ rfl rfl fun reply => applied_all (inv_run h.run) hcurrent
    case h_2 => cases hstep
  | other e other op =>
    rw [Drain.step] at hstep
    split_ifs at hstep with huses
    cases hstep
    exact h.other (by simpa using huses)

/-- The count and the receipts are kept over every run from a fresh store. -/
theorem draining_run {moves : List (Transition.Move Drain Turn)}
    (hrun : Transition.Run (labelled (Drain.step fan handle options expected)) Drain.start moves
      s) : Draining handle expected s := by
  refine hrun.invariant (I := Draining handle expected) ?_ fun move hv h => h.step hv
  exact ⟨.nil, rfl, Current.nothing _ _, nofun, nofun⟩

end Steps

/-- What the task's assertion and its result come to. -/
structure Drains (handle : Consumer) (expected : ℕ) (s : Drain) : Prop where
  /-- Every batch applies to all of its receipts. -/
  matched : s.task ≠ .mismatched
  /-- What was fanned out is still outstanding or has been drained. -/
  counted : outstandingOf s.db handle.id + s.drained = total Entry.fannedOut handle.id s.events
  /-- The task returns what it expects when nothing is left. -/
  returned : ∀ n, s.task = .returned n → total Entry.fannedOut handle.id s.events ≤ expected →
    n = expected ∧ outstandingOf s.db handle.id = 0

/-- A task that has its consumer to itself drains it exactly. -/
theorem drain_exact {fan : Inner} {handle : Consumer} {options : Poll} {expected : ℕ}
    {moves : List (Transition.Move Drain Turn)} {s : Drain}
    (hrun : Transition.Run (labelled (Drain.step fan handle options expected)) Drain.start moves
      s) : Drains handle expected s := by
  have hdraining := draining_run hrun
  refine ⟨hdraining.matched, hdraining.counted, fun n hn hfew => ?_⟩
  obtain ⟨rfl, hmany⟩ := hdraining.returned n hn
  have hcounted := hdraining.counted
  omega

/-- The task's lease runs out before it acknowledges, and another consumer polls meanwhile. -/
def slowTurns : List Turn :=
  [.other Engine.inOrder Inner.default (.openConsumer "jobs" .all 0),
    .other Engine.inOrder Inner.default (.openConsumer "mail" .all 0),
    .other Engine.inOrder Inner.default (.publishBatch [⟨none, [7], none⟩] 0), .check,
    .poll (.call 1000 0), .poll (.readClock (some 0)), .poll .check, .poll (.write Engine.inOrder),
    .poll .reread, .poll (.wait 0 none),
    .other Engine.inOrder Inner.default (.claim ⟨2, "mail", .all⟩ pollOne 5),
    .ack Engine.inOrder, .check]

theorem drain_exact_slow :
    ∃ moves s, play (Drain.step Inner.default firstHandle pollOne 1) slowTurns Drain.start =
        some (moves, s) ∧
      s.drained = 1 ∧ s.db.deliveries.rows.length = 1 ∧ Drains firstHandle 1 s := by
  have hplayed : (play (Drain.step Inner.default firstHandle pollOne 1) slowTurns
      Drain.start).map (fun played =>
        (played.2.drained, played.2.db.deliveries.rows.length)) = some (1, 1) := by
    decide +kernel
  obtain ⟨⟨moves, s⟩, hplay, hend⟩ := Option.map_eq_some_iff.mp hplayed
  obtain ⟨hdrained, hrows⟩ := Prod.mk.inj hend
  exact ⟨moves, s, hplay, hdrained, hrows, drain_exact (play_run hplay)⟩

end LiteFan.DrainExact

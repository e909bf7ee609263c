import LiteFan.AtLeastOnce
import LiteFan.Balance

/-!
# Workers that compete for a backlog

Workers share a consumer and a counter. Each polls until the counter says that
everything has been acknowledged, acknowledges what it gets as one batch, and
adds what the batch applied. Leases run out and batches go stale, yet the
counter never runs ahead: it reaches the number of messages exactly when all of
them have been acknowledged, each once.
-/

namespace LiteFan.CompetingWorkers

open LiteFan.Api LiteFan.Time LiteFan.Schema LiteFan.Storage LiteFan.Store LiteFan.Consumer
open LiteFan.System LiteFan.Invariant LiteFan.Effect LiteFan.Step LiteFan.Preservation
open LiteFan.PollAnswers LiteFan.AtLeastOnce LiteFan.Balance Transition

/-- Where a worker stands. -/
inductive Competitor where
  /-- About to read the counter. -/
  | checking
  | polling (stage : Stage)
  | acking (deliveries : List Delivery)
  /-- About to add to the counter. -/
  | adding (applied : ℕ)
  | left
  /-- Ended by an error it does not handle. -/
  | panicked (err : Error)

/-- A poll that returns nothing leads back to the counter. -/
def afterPoll : Stage → Competitor
  | .returned (.error err) => .panicked err
  | .returned (.ok []) => .checking
  | .returned (.ok deliveries) => .acking deliveries
  | stage => .polling stage

/-- What an acknowledged batch applied. -/
def appliedBy : Reply → ℕ
  | .batch result => result.applied
  | _ => 0

/-- The worker adds what its batch applied. -/
def afterAck : Except Error Reply → Competitor
  | .error err => .panicked err
  | .ok reply => .adding (appliedBy reply)

/-- The store with its history, the counter and the workers. -/
structure Race where
  events : List Event
  db : Db
  acknowledged : ℕ
  workers : List Competitor

/-- A fresh store. -/
def Race.start : Race := ⟨[], Db.empty, 0, []⟩

/-- What happens next. -/
inductive Turn : Type 1 where
  | begin
  | load (i : ℕ)
  | poll (i : ℕ) (action : PollAnswers.Action)
  | ack (i : ℕ) (e : Engine)
  | add (i : ℕ)
  /-- Anyone else commits. -/
  | other (e : Engine) (fan : Inner) (op : Op)

/-- A worker goes on to its next step. -/
def Race.goOn (r : Race) (i : ℕ) (worker : Competitor) : Race :=
  { r with workers := r.workers.set i worker }

/-- An operation commits. -/
def Race.commit (r : Race) (event : Event) : Race :=
  { r with events := r.events ++ [event], db := event.after }

/-- An operation that takes copies of the consumer away or brings them back. -/
def interferes (handle : Consumer) (db : Db) : Op → Bool
  | .ackBatch other _ | .archiveBatch other _ _ _ | .redriveBatch other _ _ _ =>
    other.id == handle.id
  | .deleteConsumer name _ => (consumerNamed db name).any fun row => row.id == handle.id
  | _ => false

/-- One step. Nobody but the workers takes copies of the consumer away. -/
def Race.step (fan : Inner) (handle : Consumer) (options : Poll) (messages : ℕ) (r : Race) :
    Turn → Option Race
  | .begin => some { r with workers := r.workers ++ [.checking] }
  | .load i =>
    match r.workers[i]? with
    | some .checking =>
      if r.acknowledged < messages then some (r.goOn i (.polling .called))
      else some (r.goOn i .left)
    | _ => none
  | .poll i action =>
    match r.workers[i]? with
    | some (.polling stage) =>
      if ofPoll action then
        (PollAnswers.step fan handle options ⟨r.db, stage⟩ action).map fun after =>
          { r with
            events := r.events ++ commits fan handle options ⟨⟨r.db, stage⟩, action, after⟩
            db := after.db
            workers := r.workers.set i (afterPoll after.stage) }
      else none
    | _ => none
  | .ack i e =>
    match r.workers[i]? with
    | some (.acking deliveries) =>
      let event := perform e fan (.ackBatch handle (deliveries.map Delivery.receipt)) r.db
      some ((r.commit event).goOn i (afterAck event.reply))
    | _ => none
  | .add i =>
    match r.workers[i]? with
    | some (.adding applied) =>
      some { r.goOn i .checking with acknowledged := r.acknowledged + applied }
    | _ => none
  | .other e other op =>
    if interferes handle r.db op then none else some (r.commit (perform e other op r.db))

/-- What a worker has acknowledged and not added yet. -/
def Competitor.pending : Competitor → ℕ
  | .adding applied => applied
  | _ => 0

/-- What all of them have acknowledged and not added yet. -/
def Race.pending (r : Race) : ℕ := (r.workers.map Competitor.pending).sum

/-- Nothing is taken away and nothing brought back. -/
structure Still (entry : Entry) : Prop where
  acked : entry.acked = 0
  archived : entry.archived = 0
  redriven : entry.redriven = 0
  discarded : entry.discarded = 0

/-- What every step keeps. -/
structure Counting (handle : Consumer) (messages : ℕ) (r : Race) : Prop where
  run : System.Run r.events r.db
  /-- Every copy fanned out is outstanding, counted, or about to be counted. -/
  counted : outstandingOf r.db handle.id + (r.acknowledged + r.pending) =
    total Entry.fannedOut handle.id r.events
  left : .left ∈ r.workers → messages ≤ r.acknowledged

section Steps

variable {fan : Inner} {handle : Consumer} {options : Poll} {messages : ℕ} {r r' : Race}
  {event : Event} {worker old : Competitor}

/-- Replacing one summand of a sum. -/
theorem pending_set {workers : List Competitor} {i : ℕ} (h : workers[i]? = some old) :
    ((workers.set i worker).map Competitor.pending).sum + old.pending =
      (workers.map Competitor.pending).sum + worker.pending := by
  induction workers generalizing i with
  | nil => cases h
  | cons first workers ih =>
    cases i with
    | zero =>
      cases h
      simp only [List.set_cons_zero, List.map_cons, List.sum_cons]
      omega
    | succ i =>
      have hrest := ih h
      simp only [List.set_cons_succ, List.map_cons, List.sum_cons]
      omega

/-- One more event enters its own part. -/
theorem total_snoc (column : Entry → ℕ) (c : ℤ) (events : List Event) (event : Event) :
    total column c (events ++ [event]) = total column c events + column (entry c event) := by
  simp [total]

/-- What is outstanding and what has been counted make up what was fanned out: an event that
archives, brings back and discards nothing moves what it acknowledges from one to the other. -/
theorem counted_step {c : ℤ} {count : ℕ} {events : List Event} (hv : system.valid event)
    (hinv : Inv event.before)
    (h : outstandingOf event.before c + count = total Entry.fannedOut c events)
    (harchived : (entry c event).archived = 0) (hredriven : (entry c event).redriven = 0)
    (hdiscarded : (entry c event).discarded = 0) :
    outstandingOf event.after c + (count + (entry c event).acked) =
      total Entry.fannedOut c (events ++ [event]) := by
  have hbooked := (booked_event c event hv hinv).outstanding
  rw [total_snoc]
  omega

/-- A worker goes on to a step with as much to be counted. -/
theorem Counting.goOn (h : Counting handle messages r) {i : ℕ} (hold : r.workers[i]? = some old)
    (hpending : worker.pending = old.pending) (hleft : worker = .left → messages ≤ r.acknowledged) :
    Counting handle messages (r.goOn i worker) where
  run := h.run
  counted := by
    have hsum : (r.goOn i worker).pending + old.pending = r.pending + worker.pending :=
      pending_set hold
    have hcounted := h.counted
    change outstandingOf r.db handle.id + (r.acknowledged + (r.goOn i worker).pending) =
      total Entry.fannedOut handle.id r.events
    omega
  left hmem := by
    rcases List.mem_or_eq_of_mem_set hmem with hbefore | hnew
    · exact h.left hbefore
    · exact hleft hnew.symm

/-- An operation that takes nothing away and brings nothing back. -/
theorem Counting.commit (h : Counting handle messages r) (hv : system.valid event)
    (hbefore : event.before = r.db)
    (hstill : Still (entry handle.id event)) :
    Counting handle messages (r.commit event) where
  run := run_commit h.run hv hbefore
  counted := by
    have hinv : Inv event.before := hbefore ▸ inv_run h.run
    have hcounted := counted_step hv hinv (hbefore ▸ h.counted) hstill.archived hstill.redriven
      hstill.discarded
    rw [hstill.acked] at hcounted
    exact hcounted
  left := h.left

/-- Nothing is entered as taken or brought back for an operation that does not interfere. -/
theorem entry_spared {e : Engine} {other : Inner} {op : Op} {db : Db}
    (h : interferes handle db op = false) : Still (entry handle.id (perform e other op db)) := by
  have hnone : ∀ id, (id == handle.id) = false → ¬id = handle.id := fun id => ne_of_beq_false
  unfold entry
  split
  case h_1 => exact ⟨rfl, rfl, rfl, rfl⟩
  case h_2 _ acker receipts result hop hreply =>
    obtain rfl : op = .ackBatch acker receipts := hop
    rw [if_neg (hnone _ h)]
    exact ⟨rfl, rfl, rfl, rfl⟩
  case h_3 _ archiver receipts detail now result hop hreply =>
    obtain rfl : op = .archiveBatch archiver receipts detail now := hop
    rw [if_neg (hnone _ h)]
    exact ⟨rfl, rfl, rfl, rfl⟩
  case h_4 _ redriver ids retry now result hop hreply =>
    obtain rfl : op = .redriveBatch redriver ids retry now := hop
    rw [if_neg (hnone _ h)]
    exact ⟨rfl, rfl, rfl, rfl⟩
  case h_5 => split_ifs <;> exact ⟨rfl, rfl, rfl, rfl⟩
  case h_6 _ name mode outcome hop hreply =>
    obtain rfl : op = .deleteConsumer name mode := hop
    have hspared : ¬(consumerNamed (perform e other (.deleteConsumer name mode) db).before
        name).map ConsumerRow.id = some handle.id := by
      intro hnamed
      obtain ⟨row, hrow, hid⟩ := Option.map_eq_some_iff.mp hnamed
      have hrow : consumerNamed db name = some row := hrow
      rw [interferes, hrow, Option.any_some, hid, beq_self_eq_true] at h
      cases h
    rw [if_neg hspared]
    exact ⟨rfl, rfl, rfl, rfl⟩
  case h_7 => exact ⟨rfl, rfl, rfl, rfl⟩

/-- A batch enters what it applied, and the worker is about to add as much. -/
theorem entry_ack {receipts : List Receipt} (hop : event.op = .ackBatch handle receipts) :
    entry handle.id event = { Entry.blank with acked := (afterAck event.reply).pending } := by
  unfold entry
  rw [hop]
  cases event.reply with
  | error err => rfl
  | ok reply =>
    cases reply with
    | batch result => exact if_pos rfl
    | _ => rfl

/-- A batch that is acknowledged moves what it applies from the inbox to the worker. -/
theorem Counting.ack (h : Counting handle messages r) {i : ℕ} {deliveries : List Delivery}
    {receipts : List Receipt} (hold : r.workers[i]? = some (.acking deliveries))
    (hv : system.valid event) (hbefore : event.before = r.db)
    (hop : event.op = .ackBatch handle receipts) :
    Counting handle messages ((r.commit event).goOn i (afterAck event.reply)) where
  run := run_commit h.run hv hbefore
  counted := by
    have hinv : Inv event.before := hbefore ▸ inv_run h.run
    have hentry := entry_ack hop
    have hcounted := counted_step hv hinv (hbefore ▸ h.counted) (by rw [hentry]; rfl)
      (by rw [hentry]; rfl) (by rw [hentry]; rfl)
    rw [hentry] at hcounted
    have hsum : ((r.commit event).goOn i (afterAck event.reply)).pending + 0 =
        r.pending + (afterAck event.reply).pending := pending_set hold
    change outstandingOf event.after handle.id + (r.acknowledged +
      ((r.commit event).goOn i (afterAck event.reply)).pending) =
        total Entry.fannedOut handle.id (r.events ++ [event])
    rw [← hcounted]
    dsimp only
    omega
  left hmem := by
    rcases List.mem_or_eq_of_mem_set hmem with hbefore | hnew
    · exact h.left hbefore
    · cases hreply : event.reply <;> rw [hreply] at hnew <;> cases hnew

/-- What the worker has acknowledged is added to the counter. -/
theorem Counting.add (h : Counting handle messages r) {i applied : ℕ}
    (hold : r.workers[i]? = some (.adding applied)) :
    Counting handle messages
      { r.goOn i .checking with acknowledged := r.acknowledged + applied } where
  run := h.run
  counted := by
    have hsum : (r.goOn i .checking).pending + applied = r.pending + 0 := pending_set hold
    have hcounted := h.counted
    change outstandingOf r.db handle.id + (r.acknowledged + applied +
      (r.goOn i .checking).pending) = total Entry.fannedOut handle.id r.events
    omega
  left hmem := by
    rcases List.mem_or_eq_of_mem_set hmem with hbefore | hnew
    · exact (h.left hbefore).trans (Nat.le_add_right _ _)
    · cases hnew

/-- A poll that goes on has acknowledged nothing. -/
theorem pending_afterPoll (stage : Stage) :
    (afterPoll stage).pending = 0 ∧ afterPoll stage ≠ .left := by
  unfold afterPoll
  split <;> exact ⟨rfl, nofun⟩

/-- Every step keeps the count. -/
theorem Counting.step (h : Counting handle messages r) {turn : Turn}
    (hstep : r.step fan handle options messages turn = some r') : Counting handle messages r' := by
  cases turn with
  | begin =>
    cases hstep
    refine ⟨h.run, ?_, fun hmem => ?_⟩
    · have hcounted := h.counted
      simpa [Race.pending, Competitor.pending] using hcounted
    · rcases List.mem_append.mp hmem with hbefore | hnew
      · exact h.left hbefore
      · cases List.mem_singleton.mp hnew
  | load i =>
    rw [Race.step] at hstep
    split at hstep
    case h_1 hworker =>
      split_ifs at hstep with hless
      · cases hstep
        exact h.goOn hworker rfl nofun
      · cases hstep
        exact h.goOn hworker rfl fun _ => not_lt.mp hless
    case h_2 => cases hstep
  | poll i action =>
    rw [Race.step] at hstep
    split at hstep
    case h_1 stage hworker =>
      split_ifs at hstep with hown
      obtain ⟨after, hafter, rfl⟩ := Option.map_eq_some_iff.mp hstep
      obtain ⟨hpending, hstays⟩ := pending_afterPoll after.stage
      rcases own_step hown hafter with ⟨e, deadline, now, rfl, rfl, rfl⟩ | ⟨hnone, hdb, -⟩
      · have hclaimed : Counting handle messages
            (r.commit (perform e fan (.claim handle options now) r.db)) :=
          h.commit ⟨e, rfl⟩ rfl ⟨rfl, rfl, rfl, rfl⟩
        exact hclaimed.goOn hworker hpending fun hleft => absurd hleft hstays
      · rw [hnone, List.append_nil, hdb]
        exact h.goOn hworker hpending fun hleft => absurd hleft hstays
    case h_2 => cases hstep
  | ack i e =>
    rw [Race.step] at hstep
    split at hstep
    case h_1 deliveries hworker =>
      cases hstep
      exact h.ack hworker ⟨e, rfl⟩ rfl rfl
    case h_2 => cases hstep
  | add i =>
    rw [Race.step] at hstep
    split at hstep
    case h_1 applied hworker =>
      cases hstep
      exact h.add hworker
    case h_2 => cases hstep
  | other e other op =>
    rw [Race.step] at hstep
    split_ifs at hstep with hinterferes
    cases hstep
    exact h.commit ⟨e, rfl⟩ rfl (entry_spared (by simpa using hinterferes))

/-- The count is kept over every run from a fresh store. -/
theorem counting_run {moves : List (Transition.Move Race Turn)}
    (hrun : Transition.Run (labelled (Race.step fan handle options messages)) Race.start moves r) :
    Counting handle messages r := by
  refine hrun.invariant (I := Counting handle messages) ⟨.nil, ?_, ?_⟩ fun move hv h => h.step hv
  · rfl
  · exact fun hmem => absurd hmem List.not_mem_nil

end Steps

/-- What the counter says of the inbox. -/
structure Exact (handle : Consumer) (messages : ℕ) (r : Race) : Prop where
  /-- The counter never runs ahead of what was fanned out. -/
  never_ahead : r.acknowledged + r.pending + outstandingOf r.db handle.id =
    total Entry.fannedOut handle.id r.events
  /-- A worker leaves when everything has been acknowledged and counted, and the inbox is empty. -/
  finished : .left ∈ r.workers → total Entry.fannedOut handle.id r.events ≤ messages →
    r.acknowledged = messages ∧ r.pending = 0 ∧ outstandingOf r.db handle.id = 0 ∧
      total Entry.fannedOut handle.id r.events = messages

/-- Workers that compete for the messages of a consumer count each of them once. -/
theorem competing_workers_exact {fan : Inner} {handle : Consumer} {options : Poll} {messages : ℕ}
    {moves : List (Transition.Move Race Turn)} {r : Race}
    (hrun : Transition.Run (labelled (Race.step fan handle options messages)) Race.start moves r) :
    Exact handle messages r := by
  obtain ⟨-, hcounted, hleft⟩ := counting_run hrun
  refine ⟨by omega, fun hmem hfew => ?_⟩
  have hmany := hleft hmem
  refine ⟨?_, ?_, ?_, ?_⟩ <;> omega

/-- A worker's claim of what it finds at a clock reading. -/
def claimAt (i : ℕ) (now : Duration) : List Turn :=
  [.load i, .poll i (.call 1000 0), .poll i (.readClock (some now)), .poll i .check,
    .poll i (.write Engine.inOrder), .poll i .reread, .poll i (.wait 0 none)]

/-- The lease of the first worker runs out, and its batch comes second. -/
def overtakenTurns : List Turn :=
  [.other Engine.inOrder Inner.default (.openConsumer "jobs" .all 0),
    .other Engine.inOrder Inner.default (.publishBatch [⟨none, [7], none⟩] 0), .begin, .begin] ++
    claimAt 0 0 ++ claimAt 1 5000000 ++
    [.ack 1 Engine.inOrder, .ack 0 Engine.inOrder, .add 0, .add 1, .load 0, .load 1]

theorem competing_workers_overtaken :
    ∃ moves r, play (Race.step Inner.default firstHandle pollOne 1) overtakenTurns Race.start =
        some (moves, r) ∧
      r.acknowledged = 1 ∧ r.db.deliveries.rows = [] ∧ Exact firstHandle 1 r := by
  have hplayed : (play (Race.step Inner.default firstHandle pollOne 1) overtakenTurns
      Race.start).map (fun played => (played.2.acknowledged, played.2.db.deliveries.rows)) =
      some (1, []) := by
    decide +kernel
  obtain ⟨⟨moves, r⟩, hplay, hend⟩ := Option.map_eq_some_iff.mp hplayed
  obtain ⟨hcounter, hrows⟩ := Prod.mk.inj hend
  exact ⟨moves, r, hplay, hcounter, hrows, competing_workers_exact (play_run hplay)⟩

end LiteFan.CompetingWorkers

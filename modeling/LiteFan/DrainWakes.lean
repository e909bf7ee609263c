import LiteFan.Draining
import LiteFan.Owing
import LiteFan.Wakeups

/-!
# Which operations that finish a drain wake the consumer's pollers

A draining consumer with work left waits for somebody to handle the last of it.
The last work goes with an acknowledgement, with an archive batch or with the
identity itself; the latter two raise the consumer's signal, and an
acknowledgement raises nothing.
-/

namespace LiteFan.DrainWakes

open LiteFan.Api LiteFan.Time LiteFan.Schema LiteFan.Storage LiteFan.Store LiteFan.Consumer
open LiteFan.System LiteFan.Invariant LiteFan.Effect LiteFan.Step LiteFan.Preservation
open LiteFan.Signals LiteFan.Wakeups LiteFan.Owing Relational

/-- The consumer is draining and is owed something. -/
def Unfinished (db : Db) (c : ℤ) : Prop :=
  ∃ row, db.consumers.lookup c = some row ∧ row.drainingAt.isSome = true ∧
    outstandingCount db row ≠ 0

/-- The consumer is owed nothing, or is gone. -/
def Finished (db : Db) (c : ℤ) : Prop :=
  ∀ row, db.consumers.lookup c = some row → outstandingCount db row = 0

/-- The target is the signal of the consumer. -/
def raises (c : ℤ) : Target → Prop
  | .consumer id => id = c
  | .own handle => handle.consumer.id = c
  | .allPublishes | .topic _ => False

/-- The acknowledgement names everything that a draining consumer is owed. -/
structure LastAck (fan : Inner) (db : Db) (handle : Consumer) (receipts : List Receipt) : Prop where
  unfinished : Unfinished db handle.id
  fits : receipts.length ≤ fan.maxBatchSize
  named : ∀ d ∈ db.deliveries, d.consumerId = handle.id → receiptOf d ∈ receipts
  scanned : ∀ m, ¬Awaited db handle.id m

section Effects

variable {fan : Inner} {db db' : Db} {op : Op} {reply : Except Error Reply} {c m : ℤ}

/-- A consumer is finished exactly when it is owed nothing. -/
theorem finished_iff (hinv : Inv db) : Finished db c ↔ ∀ m, ¬Owes db c m := by
  constructor
  · intro hfinished m howes
    obtain ⟨row, hrow⟩ := live_of_owes hinv howes
    exact (outstandingCount_zero_iff hrow).mp (hfinished row hrow) m howes
  · exact fun hnone row hrow => (outstandingCount_zero_iff hrow).mpr hnone

/-- An unfinished consumer is owed some message. -/
theorem Unfinished.owes (h : Unfinished db c) : ∃ m, Owes db c m := by
  obtain ⟨row, hrow, -, hsome⟩ := h
  by_contra hnone
  exact hsome ((outstandingCount_zero_iff hrow).mpr (not_exists.mp hnone))

/-- An unfinished consumer is not finished. -/
theorem Unfinished.not_finished (h : Unfinished db c) : ¬Finished db c := by
  obtain ⟨row, hrow, -, hsome⟩ := h
  exact fun hfinished => hsome (hfinished row hrow)

/-- A publish leaves a draining consumer what it was owed. -/
theorem owes_published (hunfinished : Unfinished db c) (hinv : Inv db) (now expiresAt : ℤ)
    (messages : List Publish) (h : Owes db c m) :
    Owes (publishedDb now expiresAt (ledgerAt now db messages) (assigned now db messages)) c m := by
  obtain ⟨-, hconsumers, hdeliveries, -⟩ := ledgerAt_parts now db messages
  rcases h with ⟨d, hd, hboth⟩ | ⟨row, message, hrow, hmem, hm⟩
  · exact .inl ⟨d, hdeliveries ▸ hd, hboth⟩
  have hstored : (publishedDb now expiresAt (ledgerAt now db messages)
      (assigned now db messages)).consumers.lookup c = some row :=
    (congrArg (fun consumers => consumers.lookup c) hconsumers).trans hrow
  obtain ⟨draining, hdraining, hstate, -⟩ := hunfinished
  obtain rfl := Option.some.inj (hrow.symm.trans hdraining)
  have hok := hinv.rows row (AutoTable.lookup_eq_some.mp hrow).1
  obtain ⟨limit, hlimit⟩ := Option.isSome_iff_exists.mp (hok.draining ▸ hstate)
  obtain ⟨hlogged, hbeyond, hbound, hmatches⟩ := mem_unseen.mp hmem
  have hkept : message ∈ (publishedDb now expiresAt (ledgerAt now db messages)
      (assigned now db messages)).messages := by
    rw [publishedDb_messages]
    exact AutoTable.mem_appendAll.mpr (.inl hlogged)
  refine .inr ⟨row, message, hstored, mem_unseen.mpr ⟨hkept, hbeyond, ?_, hmatches⟩, hm⟩
  rw [scanLimit, hlimit, Option.getD_some] at hbound ⊢
  exact hbound

/-- An acknowledgement that finishes a drain names everything that was left. -/
theorem lastAck_of_finished {self : Consumer} {receipts : List Receipt}
    (hle : receipts.length ≤ fan.maxBatchSize) (hunfinished : Unfinished db self.id)
    (hnone : ∀ m, ¬Owes (deleteDeliveries db (pushReceiptPredicate self.id receipts)) self.id m) :
    LastAck fan db self receipts := by
  refine ⟨hunfinished, hle, fun d hd hc => ?_, fun m hawaited => hnone m (.inr hawaited)⟩
  by_contra hnot
  refine hnone d.messageId (.inl (delivered_deleted.mpr ⟨d, hd, hc, rfl, ?_⟩))
  rw [Bool.eq_false_iff]
  exact fun hnamed => hnot (pushReceiptPredicate_iff.mp hnamed).2

/-- An archive batch that finishes a drain applies to something. -/
theorem applied_of_finished {receipts : List Receipt} (hunfinished : Unfinished db c)
    (hnone : ∀ m, ¬Owes (deleteDeliveries db (pushReceiptPredicate c receipts)) c m) :
    ∃ d ∈ db.deliveries, pushReceiptPredicate c receipts d = true := by
  obtain ⟨m, hdelivered | hawaited⟩ := hunfinished.owes
  · obtain ⟨d, hd, hc, hm⟩ := hdelivered
    refine ⟨d, hd, ?_⟩
    by_contra hnot
    exact hnone m (.inl (delivered_deleted.mpr ⟨d, hd, hc, hm, Bool.eq_false_iff.mpr hnot⟩))
  · exact absurd (.inr hawaited) (hnone m)

/-- Draining an unfinished consumer once more changes nothing. -/
theorem Unfinished.drained_eq (h : Unfinished db c) (now : ℤ) : drainedDb db c now = db := by
  obtain ⟨row, hrow, hdraining, -⟩ := h
  refine Draining.drainedDb_eq_self ?_
  by_contra hchanges
  obtain ⟨other, hother, hactive⟩ := drainChanges_iff.mp (Bool.eq_true_of_not_eq_false hchanges)
  obtain rfl := Option.some.inj (hrow.symm.trans hother)
  rw [hactive] at hdraining
  cases hdraining

/-- What finishes a drain is an acknowledgement of everything left, an archive batch that
applies, or the deletion of the consumer. -/
theorem finishing_cases (heffect : Effect fan db op db' reply) (hinv : Inv db)
    (hunfinished : Unfinished db c) (hfinished : Finished db' c) :
    (∃ self receipts, op = .ackBatch self receipts ∧ self.id = c ∧
      LastAck fan db self receipts) ∨
    (∃ self receipts detail now result, op = .archiveBatch self receipts detail now ∧
      self.id = c ∧ reply = .ok (.batch result) ∧ 0 < result.applied) ∨
    ∃ name mode row outcome, op = .deleteConsumer name mode ∧ consumerNamed db name = some row ∧
      row.id = c ∧ reply = .ok (.deleted outcome) := by
  have hnone := (finished_iff (inv_effect heffect hinv)).mp hfinished
  obtain ⟨m, howes⟩ := hunfinished.owes
  by_cases hforeign : Inbox.Foreign db c op
  · -- whatever leaves the inbox alone finishes nothing
    obtain ⟨row, hrow, -⟩ := hunfinished
    have hle : c ≤ db.consumers.seq := by
      obtain ⟨hmem, rfl⟩ := AutoTable.lookup_eq_some.mp hrow
      exact db.consumers.key_le row hmem
    exact absurd ((owes_kept (Inbox.kept_effect heffect hinv hle hforeign)).mpr howes) (hnone m)
  have hown : ∀ self : Consumer, (∀ other, some self = some other → c ≠ other.id) ∨
      self.id = c := by
    intro self
    by_cases hid : self.id = c
    · exact .inr hid
    · refine .inl fun other hother => ?_
      obtain rfl := Option.some.inj hother
      exact fun hsame => hid hsame.symm
  cases heffect with
  | rejected => exact absurd howes (hnone m)
  | idle => exact absurd howes (hnone m)
  | created => exact absurd nofun hforeign
  | reopened => exact absurd nofun hforeign
  | published hle => exact absurd (owes_published hunfinished hinv _ _ _ howes) (hnone m)
  | granted hlease hid hrow hdeadline =>
    exact absurd ((owes_claimed hinv hrow).mpr howes) (hnone m)
  | @acked self receipts hpos hle =>
    rcases hown self with hother | rfl
    · exact absurd hother hforeign
    · exact .inl ⟨self, receipts, rfl, rfl, lastAck_of_finished hle hunfinished hnone⟩
  | nacked hpos hle hvisible => exact absurd (owes_touched.mpr howes) (hnone m)
  | extended hpos hle hms hne hvisible => exact absurd (owes_touched.mpr howes) (hnone m)
  | @archived self receipts detail now hpos hle =>
    rcases hown self with hother | rfl
    · exact absurd hother hforeign
    · refine .inr (.inl ⟨self, receipts, detail, now, _, rfl, rfl, rfl, ?_⟩)
      obtain ⟨d, hd, hnamed⟩ := applied_of_finished hunfinished hnone
      exact List.length_pos_of_mem (mem_archivedLeases.mpr ⟨d, hd, hnamed, rfl⟩)
  | redriven hpos hle hvisible =>
    refine absurd (howes.imp (fun h => ?_) id) (hnone m)
    exact (delivered_redriven hinv).mpr (.inl h)
  | purged => exact absurd howes (hnone m)
  | @drained self now =>
    rcases hown self with hother | rfl
    · exact absurd hother hforeign
    · rw [hunfinished.drained_eq] at hnone
      exact absurd howes (hnone m)
  | @deleted name mode row hrow haccept =>
    refine .inr (.inr ⟨name, mode, row, _, rfl, hrow, ?_, rfl⟩)
    by_contra hne
    refine hforeign fun other hother hname => ?_
    obtain ⟨hmem, rfl⟩ := AutoTable.lookup_eq_some.mp hother
    have hsame := hinv.names other hmem row (consumerNamed_some hrow).1
      (hname.trans (consumerNamed_some hrow).2.symm)
    exact hne (congrArg ConsumerRow.id hsame).symm
  | pruned => exact absurd nofun hforeign

/-- The acknowledgement of everything left finishes the drain. -/
theorem finished_of_lastAck {self : Consumer} {receipts : List Receipt}
    (h : LastAck fan db self receipts) (hinv : Inv db) :
    ∃ result, commit (ackBatch fan self receipts) db =
        (deleteDeliveries db (pushReceiptPredicate self.id receipts), .ok result) ∧
      Finished (deleteDeliveries db (pushReceiptPredicate self.id receipts)) self.id := by
  have hpos : 0 < receipts.length := by
    obtain ⟨m, hdelivered | hawaited⟩ := h.unfinished.owes
    · obtain ⟨d, hd, hc, -⟩ := hdelivered
      exact List.length_pos_of_mem (h.named d hd hc)
    · exact absurd hawaited (h.scanned m)
  refine ⟨_, by rw [commit, ackBatch_eq hpos h.fits], ?_⟩
  refine (finished_iff (inv_acked hinv _)).mpr fun m howes => ?_
  rcases howes with hdelivered | hawaited
  · obtain ⟨d, hd, hc, -, hkept⟩ := delivered_deleted.mp hdelivered
    rw [pushReceiptPredicate_iff.mpr ⟨hc, h.named d hd hc⟩] at hkept
    cases hkept
  · exact h.scanned m hawaited

end Effects

/-- The step is one of this store handle, and finishes the drain of the consumer. -/
structure Finishes (move : Move) (c : ℤ) : Prop where
  here : ∀ e other op, move.action ≠ .foreign e other op
  unfinished : Unfinished move.before.db c
  finished : Finished move.after.db c

/-- The step commits a call that goes on to raise the consumer's signal. -/
def Raises (fan : Inner) (move : Move) (c : ℤ) : Prop :=
  ∃ t e op handle topics, move.action = .call t e op handle topics ∧
    ∃ target ∈ targets (perform e fan op move.before.db) handle topics, raises c target

/-- The step commits an acknowledgement of everything that is left. -/
def AcksLast (fan : Inner) (move : Move) (c : ℤ) : Prop :=
  ∃ t e self receipts handle topics,
    move.action = .call t e (.ackBatch self receipts) handle topics ∧
      self.id = c ∧ LastAck fan move.before.db self receipts

section Worlds

variable {fan : Inner} {w w' : World} {moves : List Move}

/-- A step of a poll changes the database only by its writer transaction. -/
theorem advance_db {signals : Signals} {q q' : Poller} {pollStep : PollStep} {db db' : Db}
    (h : q.advance fan signals pollStep db = some (db', q')) :
    db' = db ∨ ∃ e now, db' = (exec e fan (.claim q.handle.consumer q.options now) db).1 := by
  unfold Poller.advance at h
  split at h
  · exact .inl (Prod.mk.inj (Option.some.inj h)).1.symm
  · exact .inl (Prod.mk.inj (Option.some.inj h)).1.symm
  · exact .inl (Prod.mk.inj (Option.some.inj h)).1.symm
  · exact .inl (Prod.mk.inj (Option.some.inj h)).1.symm
  · next now e hphase =>
    refine .inr ⟨e, now, ?_⟩
    rw [← (Prod.mk.inj (Option.some.inj h)).1, Poller.writeStep]
    change _ = (pollCommit e fan q.handle.consumer q.options now db).1
    generalize pollCommit e fan q.handle.consumer q.options now db = committed
    obtain ⟨after, result⟩ := committed
    cases result with
    | error err => rfl
    | ok granted => rfl
  · exact .inl (Prod.mk.inj (Option.some.inj h)).1.symm
  · exact .inl (Prod.mk.inj (Option.some.inj h)).1.symm
  · obtain ⟨woken, -, hpair⟩ := Option.map_eq_some_iff.mp h
    exact .inl (Prod.mk.inj hpair).1.symm
  · cases h

/-- A call leaves the database of its transaction. -/
theorem call_db {t : ℕ} {e : Engine} {op : Op} {handle : Option Handle} {topics : List String}
    (hstep : step fan w (.call t e op handle topics) = some w') :
    w'.db = (exec e fan op w.db).1 := by
  simp only [step] at hstep
  split at hstep
  · rw [← Option.some.inj hstep]
    rfl
  · cases hstep

/-- A step that changes the database runs one transaction. -/
theorem step_db {action : Action} (hstep : step fan w action = some w') :
    w'.db = w.db ∨ (∃ t e op handle topics, action = .call t e op handle topics ∧
        w'.db = (exec e fan op w.db).1 ∧ through op = handle.map Handle.consumer) ∨
      (∃ p s e self options now, action = .advance p s ∧
        w'.db = (exec e fan (.claim self options now) w.db).1) ∨
      ∃ e other op, action = .foreign e other op ∧ w'.db = (exec e other op w.db).1 := by
  cases step_cases hstep with
  | poll | notify | takePublishes | takeConsumer | clone | drop | cancel | abandon => exact .inl rfl
  | @advance p s q q' db hq hadvance =>
    rcases advance_db hadvance with hsame | ⟨e, now, hclaim⟩
    · exact .inl hsame
    · exact .inr (.inr (.inl ⟨p, s, e, _, _, now, rfl, hclaim⟩))
  | @call e op handle topics hthrough hhandle htopics =>
    exact .inr (.inl ⟨_, e, op, handle, topics, rfl, rfl, hthrough⟩)
  | @foreign e other op => exact .inr (.inr (.inr ⟨e, other, op, rfl, rfl⟩))

/-- Every world of a run has a reachable database. -/
theorem reachable_world (hrun : Transition.Run (interleaving fan) World.initial moves w) :
    Reachable w.db := by
  have hinit : Reachable World.initial.db := ⟨[], .nil⟩
  have hstep : ∀ move, (interleaving fan).valid move → Reachable move.before.db →
      Reachable move.after.db := by
    intro move hvalid hreach
    rcases step_db hvalid with hsame | ⟨-, e, op, -, -, -, hdb, -⟩ |
      ⟨-, -, e, self, options, now, -, hdb⟩ | ⟨e, other, op, -, hdb⟩
    · rw [hsame]
      exact hreach
    · rw [hdb]
      exact reachable_exec hreach e fan op
    · rw [hdb]
      exact reachable_exec hreach e fan _
    · rw [hdb]
      exact reachable_exec hreach e other op
  exact @Transition.Run.invariant _ _ _ _ _ _ (fun w => Reachable w.db) hrun hinit hstep

/-- The commit of an acknowledgement of everything left finishes the drain and raises nothing. -/
theorem acksLast_silent {move : Move} {c : ℤ} (hvalid : (interleaving fan).valid move)
    (hinv : Inv move.before.db) (h : AcksLast fan move c) :
    Finishes move c ∧ ¬Raises fan move c := by
  obtain ⟨t, e, self, receipts, handle, topics, haction, rfl, hlast⟩ := h
  obtain ⟨result, hcommit, hfinished⟩ := finished_of_lastAck hlast hinv
  constructor
  · refine ⟨fun _ _ _ hforeign => ?_, hlast.unfinished, ?_⟩
    · rw [haction] at hforeign
      cases hforeign
    · have hdb : move.after.db = (exec e fan (.ackBatch self receipts) move.before.db).1 := by
        have hcall : step fan move.before (.call t e (.ackBatch self receipts) handle topics) =
            some move.after := haction ▸ hvalid
        exact call_db hcall
      rw [hdb, exec, hcommit]
      exact hfinished
  · rintro ⟨t', e', op, handle', topics', haction', target, htarget, -⟩
    rw [haction] at haction'
    cases haction'
    exact absurd htarget List.not_mem_nil

/-- A step that finishes a drain and is no acknowledgement of everything left raises the
consumer's signal. -/
theorem raises_of_finishes {move : Move} {c : ℤ} (hvalid : (interleaving fan).valid move)
    (hinv : Inv move.before.db) (h : Finishes move c) (hnot : ¬AcksLast fan move c) :
    Raises fan move c := by
  have hfinished := h.finished
  rcases step_db hvalid with hsame | ⟨t, e, op, handle, topics, haction, hdb, hthrough⟩ |
    ⟨-, -, e, self, options, now, -, hdb⟩ | ⟨e, other, op, haction, -⟩
  · rw [hsame] at hfinished
    exact absurd hfinished h.unfinished.not_finished
  · rw [hdb] at hfinished
    rcases finishing_cases (exec_effect e fan op hinv) hinv h.unfinished hfinished with
      ⟨self, receipts, rfl, hid, hlast⟩ |
      ⟨self, receipts, detail, now, result, rfl, hid, hreply, happlied⟩ |
      ⟨name, mode, row, outcome, rfl, hrow, hid, hreply⟩
    · exact absurd ⟨t, e, self, receipts, handle, topics, haction, hid, hlast⟩ hnot
    · obtain ⟨live, rfl, rfl⟩ := Option.map_eq_some_iff.mp hthrough.symm
      refine ⟨t, e, _, _, topics, haction, .own live, ?_, hid⟩
      simp only [targets, perform, hreply, if_pos happlied]
      exact List.mem_singleton.mpr rfl
    · refine ⟨t, e, _, handle, topics, haction, .consumer row.id, ?_, hid⟩
      simp only [targets, perform, hreply, hrow]
      exact List.mem_singleton.mpr rfl
  · -- a poll's claim leaves everything owed
    rw [hdb] at hfinished
    rcases finishing_cases (exec_effect e fan _ hinv) hinv h.unfinished hfinished with
      ⟨_, _, hop, -⟩ | ⟨_, _, _, _, _, hop, -⟩ | ⟨_, _, _, _, hop, -⟩
    · cases hop
    · cases hop
    · cases hop
  · exact absurd haction (h.here e other op)

/-- In every run, a step that finishes the drain of a consumer raises its signal, unless it
commits an acknowledgement of everything left, which raises nothing. -/
theorem finished_raises_iff (hrun : Transition.Run (interleaving fan) World.initial moves w)
    {move : Move} (hmove : move ∈ moves) (c : ℤ) :
    (Finishes move c → Raises fan move c) ↔ ¬AcksLast fan move c := by
  obtain ⟨past, future, rfl⟩ := List.append_of_mem hmove
  obtain ⟨hpast, hvalid, -⟩ := hrun.around
  have hinv : Inv move.before.db := inv_reachable (reachable_world hpast)
  constructor
  · intro hraises hlast
    obtain ⟨hfinishes, hsilent⟩ := acksLast_silent hvalid hinv hlast
    exact hsilent (hraises hfinishes)
  · exact fun hnot hfinishes => raises_of_finishes hvalid hinv hfinishes hnot

/-- A call keeps the transaction it has committed. -/
theorem task_event_step {action : Action} (hstep : step fan w action = some w') {t : ℕ}
    {task : Task} (ht : w.tasks[t]? = some task) :
    ∃ task', w'.tasks[t]? = some task' ∧ task'.event = task.event := by
  have hset : ∀ (t' : ℕ) (old new : Task), w.tasks[t']? = some old → new.event = old.event →
      ∃ task', (w.tasks.set t' new)[t]? = some task' ∧ task'.event = task.event := by
    intro t' old new hold hsame
    by_cases hself : t' = t
    · subst hself
      obtain rfl := Option.some.inj (hold.symm.trans ht)
      exact ⟨new, List.getElem?_set_self (List.getElem?_eq_some_iff.mp ht).1, hsame⟩
    · exact ⟨task, by rw [List.getElem?_set_ne hself, ht], rfl⟩
  cases step_cases hstep with
  | poll | advance | clone | drop | cancel | foreign => exact ⟨task, ht, rfl⟩
  | call => exact ⟨task, by rw [List.getElem?_append_left
      (List.getElem?_eq_some_iff.mp ht).1, ht], rfl⟩
  | notify hold => exact hset _ _ _ hold rfl
  | takePublishes hold => exact hset _ _ _ hold rfl
  | takeConsumer hold => exact hset _ _ _ hold rfl
  | abandon hold => exact hset _ _ _ hold rfl

/-- The transaction of a committed call is the one its step has performed. -/
theorem task_event_run {t : ℕ} {event : Event}
    (hrun : Transition.Run (interleaving fan) w moves w')
    (ht : ∃ task, w.tasks[t]? = some task ∧ task.event = event) :
    ∃ task, w'.tasks[t]? = some task ∧ task.event = event := by
  have hstep : ∀ move, (interleaving fan).valid move →
      (∃ task, move.before.tasks[t]? = some task ∧ task.event = event) →
      ∃ task, move.after.tasks[t]? = some task ∧ task.event = event := by
    rintro move hvalid ⟨task, htask, rfl⟩
    exact task_event_step hvalid htask
  exact @Transition.Run.invariant _ _ _ _ _ _
    (fun w => ∃ task, w.tasks[t]? = some task ∧ task.event = event) hrun ht hstep

/-- The call that commits is entered with its transaction. -/
theorem call_event {t : ℕ} {e : Engine} {op : Op} {handle : Option Handle} {topics : List String}
    (hstep : step fan w (.call t e op handle topics) = some w') :
    ∃ task, w'.tasks[t]? = some task ∧ task.event = perform e fan op w.db := by
  simp only [step] at hstep
  split at hstep
  · next hguard =>
    obtain ⟨rfl, -⟩ := hguard
    obtain rfl := Option.some.inj hstep
    exact ⟨_, List.getElem?_concat_length, rfl⟩
  · cases hstep

/-- While a poll waits and neither of its signals has changed, every call that finished the
drain of its consumer, that was no acknowledgement of everything left and that has raised all
its signals, had committed before the poll's latest claim read the clock. -/
theorem finished_seen {p t : ℕ} {q : Poller} {nextVisibleAt : Option ℤ} {e : Engine} {op : Op}
    {handle : Option Handle} {topics : List String} {before after : World} {task : Task}
    (hrun : Transition.Run (interleaving fan) World.initial moves w)
    (hmove : ⟨before, .call t e op handle topics, after⟩ ∈ moves)
    (hfinishes : Finishes ⟨before, .call t e op handle topics, after⟩ q.handle.consumer.id)
    (hnot : ¬AcksLast fan ⟨before, .call t e op handle topics, after⟩ q.handle.consumer.id)
    (ht : w.tasks[t]? = some task) (hnotified : task.Notified)
    (hq : w.pollers[p]? = some q) (hblocked : q.phase = .blocked nextVisibleAt)
    (hpublishes : q.publishes.changed w.signals = false)
    (hconsumer : q.consumerChanges.changed w.signals = false) :
    ∃ pre, Transition.Latest (ReadsClock p) moves pre ∧ ∃ move ∈ pre, Commits t move := by
  obtain ⟨past, future, rfl⟩ := List.append_of_mem hmove
  obtain ⟨hpast, hvalid, hfuture⟩ := hrun.around
  have hinv : Inv before.db := inv_reachable (reachable_world hpast)
  have hevent : task.event = perform e fan op before.db := by
    obtain ⟨kept, hkept, hsame⟩ := task_event_run hfuture (call_event hvalid)
    obtain rfl := Option.some.inj (hkept.symm.trans ht)
    exact hsame
  have hafter : Finished (exec e fan op before.db).1 q.handle.consumer.id := by
    rw [← call_db hvalid]
    exact hfinishes.finished
  obtain ⟨pre, -, hpre, -, -, hseen⟩ :=
    no_lost_wakeup hrun hq hblocked hpublishes hconsumer
  refine ⟨pre, hpre, hseen t task ht hnotified ?_⟩
  rw [hevent]
  rcases finishing_cases (exec_effect e fan op hinv) hinv hfinishes.unfinished hafter with
    ⟨self, receipts, rfl, hid, hlast⟩ |
    ⟨self, receipts, detail, now, result, rfl, hid, hreply, happlied⟩ |
    ⟨name, mode, row, outcome, rfl, hrow, hid, hreply⟩
  · exact absurd ⟨t, e, self, receipts, handle, topics, rfl, hid, hlast⟩ hnot
  · simp only [Concerns, perform, hreply]
    exact ⟨happlied, hid⟩
  · simp only [Concerns, perform, hreply]
    exact ⟨row, hrow, hid⟩

end Worlds

/-- A poll leases the last message of a consumer, which then drains. -/
def lastLeased : List Action :=
  [.call 0 Engine.inOrder (.openConsumer "jobs" .all 0) none [], .takePublishes 0, .takeConsumer 0,
    .call 1 Engine.inOrder (.publishBatch [⟨none, [7], none⟩] 0) none [], .notify 1,
    .poll ⟨firstHandle, 0, 1⟩ pollOne 1000 0, .advance 0 .markPublishes, .advance 0 .markConsumer,
    .advance 0 (.readClock 0), .advance 0 .check, .advance 0 (.write Engine.inOrder),
    .advance 0 .reread, .advance 0 (.wait 0),
    .call 2 Engine.inOrder (.beginDraining firstHandle 0) (some ⟨firstHandle, 0, 1⟩) [], .notify 2]

/-- The archive of that lease. -/
def archiveLast : Action :=
  .call 3 Engine.inOrder (.archiveBatch firstHandle [⟨1, 1, 1⟩] none 0)
    (some ⟨firstHandle, 0, 1⟩) []

/-- The acknowledgement of that lease. -/
def ackLast : Action :=
  .call 3 Engine.inOrder (.ackBatch firstHandle [⟨1, 1, 1⟩]) (some ⟨firstHandle, 0, 1⟩) []

/-- The consumer while its last message is leased, and afterwards. -/
def drainingRow : ConsumerRow := ⟨1, "jobs", none, 0, some 0, 1, some 1⟩

/-- A step from an unfinished state of the draining consumer to a finished one. -/
theorem finishes_of_rows {w w' : World} {action : Action}
    (hhere : ∀ e other op, action ≠ .foreign e other op)
    (hbefore : w.db.consumers.lookup 1 = some drainingRow)
    (hsome : outstandingCount w.db drainingRow = 1)
    (hafter : w'.db.consumers.lookup 1 = some drainingRow)
    (hnone : outstandingCount w'.db drainingRow = 0) : Finishes ⟨w, action, w'⟩ 1 := by
  refine ⟨hhere, ⟨drainingRow, hbefore, rfl, by rw [hsome]; exact one_ne_zero⟩, fun row hrow => ?_⟩
  obtain rfl := Option.some.inj (hafter.symm.trans hrow)
  exact hnone

set_option maxRecDepth 10000 in
/-- Archiving the last message raises the consumer's signal. -/
theorem finished_raises_iff_archived : ∃ moves w w',
    Transition.Run (interleaving Inner.default) World.initial (moves ++ [⟨w, archiveLast, w'⟩]) w' ∧
      Raises Inner.default ⟨w, archiveLast, w'⟩ 1 := by
  obtain ⟨moves, w, w', hplay, hstep, hbefore, hsome, hafter, hnone⟩ : ∃ moves w w',
      Transition.play (step Inner.default) lastLeased World.initial = some (moves, w) ∧
      step Inner.default w archiveLast = some w' ∧
      w.db.consumers.lookup 1 = some drainingRow ∧ outstandingCount w.db drainingRow = 1 ∧
      w'.db.consumers.lookup 1 = some drainingRow ∧ outstandingCount w'.db drainingRow = 0 :=
    ⟨_, _, _, rfl, rfl, rfl, rfl, rfl, rfl⟩
  have hrun := Transition.labelled_snoc (Transition.play_run hplay) hstep
  refine ⟨moves, w, w', hrun, ?_⟩
  refine (finished_raises_iff hrun (List.mem_append_right _ (List.mem_singleton.mpr rfl)) 1).mpr
    ?_ (finishes_of_rows nofun hbefore hsome hafter hnone)
  rintro ⟨_, _, _, _, _, _, haction, -⟩
  cases haction

set_option maxRecDepth 10000 in
/-- Acknowledging the last message of a draining consumer wakes nobody. -/
theorem last_ack_silent : ¬∀ (fan : Inner) (moves : List Move) (w : World),
    Transition.Run (interleaving fan) World.initial moves w →
      ∀ move ∈ moves, ∀ c, Finishes move c → Raises fan move c := by
  intro hraises
  obtain ⟨moves, w, w', hplay, hstep, hbefore, hsome, hafter, hnone⟩ : ∃ moves w w',
      Transition.play (step Inner.default) lastLeased World.initial = some (moves, w) ∧
      step Inner.default w ackLast = some w' ∧
      w.db.consumers.lookup 1 = some drainingRow ∧ outstandingCount w.db drainingRow = 1 ∧
      w'.db.consumers.lookup 1 = some drainingRow ∧ outstandingCount w'.db drainingRow = 0 :=
    ⟨_, _, _, rfl, rfl, rfl, rfl, rfl, rfl⟩
  have hrun := Transition.labelled_snoc (Transition.play_run hplay) hstep
  obtain ⟨_, _, _, _, _, haction, target, htarget, -⟩ := hraises _ _ _ hrun _
    (List.mem_append_right _ (List.mem_singleton.mpr rfl)) 1
    (finishes_of_rows nofun hbefore hsome hafter hnone)
  cases haction
  exact absurd htarget List.not_mem_nil

end LiteFan.DrainWakes

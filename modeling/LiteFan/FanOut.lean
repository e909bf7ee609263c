import LiteFan.History

/-!
# Exact fan-out

A message is owed to a consumer when it is published between the consumer's
creating open and its drain and the filter accepts its topic. Nothing stores
that relation: it is rebuilt from a cursor, two sparse tables and a log that
may be pruned. Every event keeps what is owed in exactly one place, and what is
delivered was owed.
-/

namespace LiteFan.FanOut

open LiteFan.Api LiteFan.Time LiteFan.Schema LiteFan.Storage LiteFan.Store LiteFan.Consumer
open LiteFan.System LiteFan.Invariant LiteFan.Effect LiteFan.Step LiteFan.Preservation
open LiteFan.Lifecycle LiteFan.History Relational

/-- The message was published after the identity was created, before it was
drained, with a topic its filter accepts. -/
def Eligible (events : List Event) (c : ℤ) (message : Message) : Prop :=
  ∃ pre e post, events = pre ++ e :: post ∧ Publishes e message ∧
    (∃ o ∈ pre, ∃ filter, Opens o c filter ∧ Accepts filter message.topic) ∧ ∀ d ∈ pre, ¬Drains d c

/-- Where a message owed to a consumer can be. -/
inductive Place where
  | log
  | delivery
  | archive
  | acked
  | purged

/-- The message of the consumer is in the place. -/
def At (events : List Event) (db : Db) (c : ℤ) (message : Message) : Place → Prop
  | .log => message ∈ db.messages ∧ ∃ row, db.consumers.lookup c = some row ∧
      row.scanCursor < message.id ∧ ∀ limit, row.drainCursor = some limit → message.id ≤ limit
  | .delivery => ∃ d ∈ db.deliveries, d.consumerId = c ∧ d.messageId = message.id
  | .archive => ∃ a ∈ db.archives, a.consumerId = c ∧ a.messageId = message.id
  | .acked => ∃ e ∈ events, Acks e c message.id
  | .purged => ∃ e ∈ events, Purges e c message.id

section Eligible

variable {events : List Event} {event : Event} {db : Db} {c : ℤ} {message : Message}

/-- What is owed stays owed. -/
theorem Eligible.append (h : Eligible events c message) (later : List Event) :
    Eligible (events ++ later) c message := by
  obtain ⟨pre, e, post, rfl, hpublishes, hopened, hactive⟩ := h
  exact ⟨pre, e, post ++ later, by simp, hpublishes, hopened, hactive⟩

/-- What the last event adds to what is owed it published. -/
theorem eligible_snoc (h : Eligible (events ++ [event]) c message) :
    Eligible events c message ∨ (Publishes event message ∧
      (∃ o ∈ events, ∃ filter, Opens o c filter ∧ Accepts filter message.topic) ∧
      ∀ d ∈ events, ¬Drains d c) := by
  obtain ⟨pre, e, post, hsplit, hpublishes, hopened, hactive⟩ := h
  rcases List.eq_nil_or_concat post with rfl | ⟨init, last, rfl⟩
  · obtain ⟨rfl, hlast⟩ := List.append_inj' hsplit rfl
    rw [List.singleton_inj] at hlast
    subst hlast
    exact Or.inr ⟨hpublishes, hopened, hactive⟩
  · have hassoc : events ++ [event] = (pre ++ e :: init) ++ [last] := by rw [hsplit]; simp
    obtain ⟨rfl, -⟩ := List.append_inj' hassoc rfl
    exact Or.inl ⟨pre, e, init, rfl, hpublishes, hopened, hactive⟩

/-- A live consumer's filter matches what is owed to it. -/
theorem Eligible.matches (hrecord : Recorded events db) (h : Eligible events c message)
    {row : ConsumerRow} (hrow : db.consumers.lookup c = some row) :
    topicMatches row.topicFilter message.topic = true := by
  obtain ⟨pre, e, post, rfl, -, ⟨o, ho, filter, hopens, haccepts⟩, -⟩ := h
  rw [(hrecord.filter o (List.mem_append_left _ ho) c filter hopens).2 row hrow]
  exact topicMatches_iff.mpr haccepts

/-- What is owed is owed to an identity that was handed out. -/
theorem Eligible.le_seq (hrecord : Recorded events db) (h : Eligible events c message) :
    c ≤ db.consumers.seq := by
  obtain ⟨pre, e, post, rfl, -, ⟨o, ho, filter, hopens, -⟩, -⟩ := h
  exact (hrecord.filter o (List.mem_append_left _ ho) c filter hopens).1

end Eligible

section Removed

variable {event : Event} {c m : ℤ}

/-- A deleted identity is not stored any more. -/
theorem deletes_step (hv : system.valid event) (hinv : Inv event.before) (h : Deletes event c) :
    event.after.consumers.lookup c = none := by
  have heffect := effect_of_valid hv hinv
  obtain ⟨name, mode, row, outcome, hop, hreply, hrow, hname⟩ := h
  obtain ⟨fan, op, before, after, reply⟩ := event
  dsimp only at heffect hinv hop hreply hrow ⊢
  subst hop hreply
  cases heffect with
  | idle hidle => exact absurd hidle id
  | @deleted _ _ other hother haccept =>
    obtain ⟨hmem, hid⟩ := AutoTable.lookup_eq_some.mp hrow
    obtain ⟨hmem', hname'⟩ := consumerNamed_some hother
    have hsame : other = row := hinv.names other hmem' row hmem (hname'.trans hname.symm)
    have hlookup : (deletedDb before other).consumers.lookup c =
        (before.consumers.lookup c).filter fun r => !(r.id == other.id) :=
      AutoTable.lookup_deleteWhere _ _ _
    rw [hlookup, hrow, hsame]
    simp

/-- A copy that was acknowledged or purged is gone for good, and was one of the two. -/
def Finished (events : List Event) (db : Db) (c m : ℤ) : Prop :=
  ((∃ e ∈ events, Acks e c m ∨ Purges e c m) → Passed db c m ∧ copyOf db c m = .absent) ∧
    ¬((∃ e ∈ events, Acks e c m) ∧ ∃ e ∈ events, Purges e c m)

/-- An absent copy the cursor has passed stays absent. -/
theorem absent_step (hv : system.valid event) (hinv : Inv event.before)
    (hpassed : Passed event.before c m) (habsent : copyOf event.before c m = .absent) :
    copyOf event.after c m = .absent := by
  obtain ⟨act, hhappens, hstep⟩ := copy_step hv hinv c m
  rw [habsent] at hstep
  generalize hafter : copyOf event.after c m = after at hstep
  cases hstep with
  | stay => rfl
  | first _ => exact absurd hhappens.2 hpassed.not_waiting
  | discard => rfl

/-- Every event keeps finished copies finished. -/
theorem finished_step {past : List Event} (hv : system.valid event) (hinv : Inv event.before)
    (h : Finished past event.before c m) : Finished (past ++ [event]) event.after c m := by
  obtain ⟨hgone, hone⟩ := h
  have hacks : Acks event c m → Passed event.after c m ∧ copyOf event.after c m = .absent := by
    intro hack
    obtain ⟨⟨v, g, n, hbefore⟩, hafter⟩ := acks_step hv hinv hack
    exact ⟨passed_step hv hinv (passed_of_leased hinv hbefore), hafter⟩
  have hpurges : Purges event c m → Passed event.after c m ∧ copyOf event.after c m = .absent := by
    intro hpurge
    obtain ⟨⟨g, hbefore⟩, hafter⟩ := purges_step hv hinv hpurge
    exact ⟨passed_step hv hinv (passed_of_archived hinv hbefore), hafter⟩
  refine ⟨fun hfinished => ?_, fun hboth => ?_⟩
  · obtain ⟨e, he, hevent⟩ := hfinished
    rcases List.mem_append.mp he with hpast | hlast
    · obtain ⟨hpassed, habsent⟩ := hgone ⟨e, hpast, hevent⟩
      exact ⟨passed_step hv hinv hpassed, absent_step hv hinv hpassed habsent⟩
    · rw [List.mem_singleton.mp hlast] at hevent
      exact hevent.elim hacks hpurges
  · obtain ⟨⟨a, ha, hack⟩, p, hp, hpurge⟩ := hboth
    rcases List.mem_append.mp ha with haPast | haLast
    · rcases List.mem_append.mp hp with hpPast | hpLast
      · exact hone ⟨⟨a, haPast, hack⟩, p, hpPast, hpurge⟩
      · rw [List.mem_singleton.mp hpLast] at hpurge
        obtain ⟨⟨g, hbefore⟩, -⟩ := purges_step hv hinv hpurge
        rw [(hgone ⟨a, haPast, Or.inl hack⟩).2] at hbefore
        cases hbefore
    · rw [List.mem_singleton.mp haLast] at hack
      obtain ⟨⟨v, g, n, hbefore⟩, -⟩ := acks_step hv hinv hack
      rcases List.mem_append.mp hp with hpPast | hpLast
      · rw [(hgone ⟨p, hpPast, Or.inr hpurge⟩).2] at hbefore
        cases hbefore
      · rw [List.mem_singleton.mp hpLast] at hpurge
        obtain ⟨⟨g', hbefore'⟩, -⟩ := purges_step hv hinv hpurge
        rw [hbefore] at hbefore'
        cases hbefore'

/-- Finished copies of a run. -/
theorem finished_run {events : List Event} {db : Db} (hrun : Run events db) (c m : ℤ) :
    Finished events db c m := by
  induction hrun with
  | nil =>
    refine ⟨fun h => ?_, fun h => ?_⟩
    · obtain ⟨e, he, -⟩ := h
      exact absurd he List.not_mem_nil
    · obtain ⟨⟨e, he, -⟩, -⟩ := h
      exact absurd he List.not_mem_nil
  | snoc e hrun hv ih => exact finished_step hv (inv_run hrun) ih

end Removed

section Conservation

variable {event : Event} {past : List Event} {c : ℤ} {message : Message}

/-- A copy that is leased or archived is in its table. -/
theorem at_of_copy (events : List Event) {db : Db} (hinv : Inv db)
    (h : copyOf db c message.id ≠ .absent) :
    At events db c message .delivery ∨ At events db c message .archive := by
  cases hcopy : copyOf db c message.id with
  | absent => exact absurd hcopy h
  | leased v g n => exact Or.inl ⟨_, copyOf_leased.mp hcopy, rfl, rfl⟩
  | archived g =>
    obtain ⟨a, ha, hc, hm, -⟩ := (copyOf_archived hinv).mp hcopy
    exact Or.inr ⟨a, ha, hc, hm⟩

/-- A copy that leaves its table while its consumer lives was acknowledged or purged. -/
theorem held_step (hv : system.valid event) (hinv : Inv event.before) {row' : ConsumerRow}
    (hrow' : event.after.consumers.lookup c = some row')
    (h : copyOf event.before c message.id ≠ .absent) :
    ∃ place, At (past ++ [event]) event.after c message place := by
  have hinv' := inv_event event hv hinv
  have hlast : event ∈ past ++ [event] := List.mem_append_right _ (List.mem_singleton.mpr rfl)
  by_cases hafter : copyOf event.after c message.id = .absent
  · obtain ⟨act, hhappens, hstep⟩ := copy_step hv hinv c message.id
    rw [hafter] at hstep
    generalize hbefore : copyOf event.before c message.id = before at hstep h
    cases hstep with
    | stay => exact absurd rfl h
    | ack v g n => exact ⟨.acked, event, hlast, hhappens⟩
    | purge g => exact ⟨.purged, event, hlast, hhappens⟩
    | discard =>
      rw [deletes_step hv hinv hhappens] at hrow'
      cases hrow'
  · rcases at_of_copy (past ++ [event]) hinv' hafter with hat | hat
    · exact ⟨.delivery, hat⟩
    · exact ⟨.archive, hat⟩

/-- What waits in the log keeps waiting, or is leased. -/
theorem log_place_step (hv : system.valid event) (hinv : Inv event.before) {row row' : ConsumerRow}
    (hrow : event.before.consumers.lookup c = some row)
    (hrow' : event.after.consumers.lookup c = some row')
    (hstep : RowStep event c row row') (hmem : message ∈ event.before.messages)
    (hbeyond : row.scanCursor < message.id)
    (hlimit : ∀ limit, row.drainCursor = some limit → message.id ≤ limit)
    (hmatches : topicMatches row.topicFilter message.topic = true) :
    ∃ place, At (past ++ [event]) event.after c message place := by
  have hstored := (AutoTable.lookup_eq_some.mp hrow).1
  have hawaits : awaits row message = true := by
    simp only [awaits, Bool.and_eq_true, decide_eq_true_eq]
    refine ⟨⟨hbeyond, ?_⟩, hmatches⟩
    cases hdrain : row.drainCursor with
    | none => rfl
    | some limit => exact decide_eq_true (hlimit limit hdrain)
  have hkept : message ∈ event.after.messages := by
    rcases log_keeps hv hinv hmem with hkept | ⟨-, -, hnone⟩
    · exact hkept
    · rw [hnone row hstored] at hawaits
      cases hawaits
  cases hstep with
  | same => exact ⟨.log, hkept, row, hrow', hbeyond, hlimit⟩
  | @claim self poll now deadline hop hself hid hafter =>
    have hrowId : event.before.consumers.lookup row.id = some row := hid ▸ hrow
    have hunseen : message ∈ unseen event.before row := by
      refine mem_unseen.mpr ⟨hmem, hbeyond, ?_, hmatches⟩
      unfold scanLimit
      cases hdrain : row.drainCursor with
      | none => exact le_highWater hmem
      | some limit => exact hlimit limit hdrain
    by_cases hfresh : message ∈ freshMessages event.before row now poll.maxMessages
    · refine ⟨.delivery, firstLease row.id deadline message.id, ?_, hid, rfl⟩
      rw [hafter]
      exact (mem_claimedDb hinv hrowId).mpr (Or.inl ⟨message, hfresh, rfl⟩)
    · refine ⟨.log, hkept, _, hrow', ?_, hlimit⟩
      have hnot := fun hle => hfresh ((mem_freshMessages_iff hunseen).mpr hle)
      exact not_le.mp hnot
  | @drain self now hop hself hreply hactive =>
    refine ⟨.log, hkept, _, hrow', hbeyond, fun limit heq => ?_⟩
    have hsome : some (max row.scanCursor (highWater event.before)) = some limit := heq
    cases hsome
    exact (le_highWater hmem).trans (le_max_right _ _)

/-- Every event keeps what is owed to a live consumer somewhere. -/
theorem owed_step (hv : system.valid event) (hinv : Inv event.before)
    (hrecord : Recorded past event.before)
    (h : Eligible past c message → (event.before.consumers.lookup c).isSome = true →
      ∃ place, At past event.before c message place)
    (heligible : Eligible (past ++ [event]) c message)
    (hlive : (event.after.consumers.lookup c).isSome = true) :
    ∃ place, At (past ++ [event]) event.after c message place := by
  obtain ⟨row', hrow'⟩ := Option.isSome_iff_exists.mp hlive
  have hold : c ≤ event.before.consumers.seq := by
    rcases eligible_snoc heligible with hpast | ⟨-, ⟨o, ho, filter, hopens, -⟩, -⟩
    · exact hpast.le_seq hrecord
    · exact (hrecord.filter o ho c filter hopens).1
  obtain ⟨row, hrow, hstep⟩ : ∃ row, event.before.consumers.lookup c = some row ∧
      RowStep event c row row' := by
    rcases row_step hv hinv hrow' with hcreates | hkeeps
    · obtain ⟨-, -, -, -, -, -, hnew, -⟩ := hcreates
      omega
    · exact hkeeps
  have hstored := (AutoTable.lookup_eq_some.mp hrow).1
  rcases eligible_snoc heligible with hpast | ⟨hpublishes, -, hactive⟩
  · obtain ⟨place, hat⟩ := h hpast (by rw [hrow]; rfl)
    cases place with
    | log =>
      obtain ⟨hmem, other, hother, hbeyond, hlimit⟩ := hat
      rw [hrow] at hother
      cases hother
      exact log_place_step hv hinv hrow hrow' hstep hmem hbeyond hlimit (hpast.matches hrecord hrow)
    | delivery =>
      obtain ⟨d, hd, hdc, hdm⟩ := hat
      refine held_step hv hinv hrow' ?_
      rw [← hdc, ← hdm, copyOf_delivery hd]
      exact Copy.noConfusion
    | archive =>
      obtain ⟨a, ha, hac, ham⟩ := hat
      refine held_step hv hinv hrow' ?_
      rw [(copyOf_archived hinv).mpr ⟨a, ha, hac, ham, rfl⟩]
      exact Copy.noConfusion
    | acked =>
      obtain ⟨e, he, hack⟩ := hat
      exact ⟨.acked, e, List.mem_append_left _ he, hack⟩
    | purged =>
      obtain ⟨e, he, hpurge⟩ := hat
      exact ⟨.purged, e, List.mem_append_left _ he, hpurge⟩
  · obtain ⟨messages, now, hop, hmem, hnot⟩ := hpublishes
    have hnew : event.before.messages.seq < message.id := by
      rcases log_step hv hinv hmem with hbefore | ⟨-, hlt⟩
      · exact absurd hbefore hnot
      · exact hlt
    have hok := hinv.rows row hstored
    cases hstep with
    | same =>
      refine ⟨.log, hmem, _, hrow', lt_of_le_of_lt hok.le_seq hnew, fun limit hlimit => ?_⟩
      have hsome := hok.draining
      rw [hlimit, Option.isSome_some] at hsome
      obtain ⟨d, hd, hdrains⟩ := (hrecord.draining c _ hrow).mp hsome
      exact absurd hdrains (hactive d hd)
    | claim hclaim => rw [hop] at hclaim; cases hclaim
    | drain hdrain => rw [hop] at hdrain; cases hdrain

/-- What is owed to a live consumer is somewhere, in every run. -/
theorem owed_run {events : List Event} {db : Db} (hrun : Run events db) :
    Eligible events c message → (db.consumers.lookup c).isSome = true →
      ∃ place, At events db c message place := by
  induction hrun with
  | nil =>
    intro h
    obtain ⟨pre, e, post, hsplit, -⟩ := h
    cases pre <;> cases hsplit
  | snoc e hrun hv ih =>
    intro heligible hlive
    exact owed_step hv (inv_run hrun) (recorded_run hrun) ih heligible hlive

/-- Outside the log the cursor has passed the message, and the tables tell the places apart. -/
theorem at_cases {events : List Event} {db : Db} (hrun : Run events db) {place : Place}
    (h : At events db c message place) :
    place = .log ∨ (Passed db c message.id ∧
      ((place = .delivery ∧ ∃ v g n, copyOf db c message.id = .leased v g n) ∨
        (place = .archive ∧ ∃ g, copyOf db c message.id = .archived g) ∨
        (place = .acked ∧ copyOf db c message.id = .absent ∧ ∃ e ∈ events, Acks e c message.id) ∨
        (place = .purged ∧ copyOf db c message.id = .absent ∧
          ∃ e ∈ events, Purges e c message.id))) := by
  have hinv := inv_run hrun
  have hfinished := (finished_run hrun c message.id).1
  cases place with
  | log => exact Or.inl rfl
  | delivery =>
    obtain ⟨d, hd, hdc, hdm⟩ := h
    have hcopy := copyOf_delivery hd
    rw [hdc, hdm] at hcopy
    exact Or.inr ⟨passed_of_leased hinv hcopy, Or.inl ⟨rfl, _, _, _, hcopy⟩⟩
  | archive =>
    obtain ⟨a, ha, hac, ham⟩ := h
    have hcopy := (copyOf_archived hinv).mpr ⟨a, ha, hac, ham, rfl⟩
    exact Or.inr ⟨passed_of_archived hinv hcopy, Or.inr (Or.inl ⟨rfl, _, hcopy⟩)⟩
  | acked =>
    obtain ⟨e, he, hack⟩ := h
    obtain ⟨hpassed, habsent⟩ := hfinished ⟨e, he, Or.inl hack⟩
    exact Or.inr ⟨hpassed, Or.inr (Or.inr (Or.inl ⟨rfl, habsent, e, he, hack⟩))⟩
  | purged =>
    obtain ⟨e, he, hpurge⟩ := h
    obtain ⟨hpassed, habsent⟩ := hfinished ⟨e, he, Or.inr hpurge⟩
    exact Or.inr ⟨hpassed, Or.inr (Or.inr (Or.inr ⟨rfl, habsent, e, he, hpurge⟩))⟩

/-- What waits in the log has not been passed. -/
theorem not_passed_of_log {events : List Event} {db : Db} (h : At events db c message .log) :
    ¬Passed db c message.id := by
  intro hpassed
  obtain ⟨-, row, hrow, hbeyond, -⟩ := h
  have hle := hpassed.2 row hrow
  omega

/-- No message of a consumer is in two places. -/
theorem place_unique {events : List Event} {db : Db} (hrun : Run events db) {p q : Place}
    (hp : At events db c message p) (hq : At events db c message q) : p = q := by
  have hfinished := (finished_run hrun c message.id).2
  rcases at_cases hrun hp with rfl | ⟨hpassedP, hplaceP⟩
  · rcases at_cases hrun hq with rfl | ⟨hpassedQ, -⟩
    · rfl
    · exact absurd hpassedQ (not_passed_of_log hp)
  · rcases at_cases hrun hq with rfl | ⟨-, hplaceQ⟩
    · exact absurd hpassedP (not_passed_of_log hq)
    · rcases hplaceP with ⟨rfl, v, g, n, hcopy⟩ | ⟨rfl, g, hcopy⟩ | ⟨rfl, hcopy, hdone⟩ |
        ⟨rfl, hcopy, hdone⟩ <;>
        simp only [hcopy, reduceCtorEq, exists_false, and_false, false_and, or_false,
          false_or, true_and] at hplaceQ
      · exact hplaceQ.1.symm
      · exact hplaceQ.1.symm
      · rcases hplaceQ with ⟨rfl, -⟩ | ⟨rfl, hpurged⟩
        · rfl
        · exact absurd ⟨hdone, hpurged⟩ hfinished
      · rcases hplaceQ with ⟨rfl, hacked⟩ | ⟨rfl, -⟩
        · exact absurd ⟨hacked, hdone⟩ hfinished
        · rfl

end Conservation

section Deserved

variable {event : Event} {past : List Event} {c : ℤ} {message : Message}

/-- Whatever a live consumer could be given or holds was owed to it. -/
structure Deserved (events : List Event) (db : Db) : Prop where
  /-- What its next scans will find. -/
  unseen : ∀ row message, db.consumers.lookup row.id = some row → message ∈ unseen db row →
    Eligible events row.id message
  /-- What it has been given or archived. -/
  held : ∀ c message, message ∈ db.messages → copyOf db c message.id ≠ .absent →
    Eligible events c message

/-- What is published while a consumer is active and matches is owed to it. -/
theorem eligible_published (hrecord : Recorded past event.before) {row : ConsumerRow}
    (hrow : event.before.consumers.lookup c = some row) (hactive : row.drainingAt = none)
    (hpublishes : Publishes event message)
    (hmatches : topicMatches row.topicFilter message.topic = true) :
    Eligible (past ++ [event]) c message := by
  obtain ⟨o, ho, filter, hopens⟩ := hrecord.opened c row hrow
  have hfilter := (hrecord.filter o ho c filter hopens).2 row hrow
  refine ⟨past, event, [], rfl, hpublishes, ⟨o, ho, filter, hopens, ?_⟩, fun d hd hdrains => ?_⟩
  · rw [hfilter] at hmatches
    exact topicMatches_iff.mp hmatches
  · have hsome := (hrecord.draining c row hrow).mpr ⟨d, hd, hdrains⟩
    rw [hactive] at hsome
    cases hsome

/-- Every event lets a consumer find only what is owed to it. -/
theorem unseen_step (hv : system.valid event) (hinv : Inv event.before)
    (hrecord : Recorded past event.before) (h : Deserved past event.before) {row' : ConsumerRow}
    (hrow' : event.after.consumers.lookup row'.id = some row')
    (hunseen : message ∈ unseen event.after row') :
    Eligible (past ++ [event]) row'.id message := by
  obtain ⟨hmem, hbeyond, hlimit, hmatches⟩ := mem_unseen.mp hunseen
  rcases row_step hv hinv hrow' with hcreates | ⟨row, hrow, hstep⟩
  · -- a new consumer starts at the high-water mark of the log it was created over
    obtain ⟨name, filter, now, hop, -, -, -, hnew⟩ := hcreates
    have hold : message ∈ event.before.messages := by
      rcases log_step hv hinv hmem with hold | ⟨⟨messages, now', hpublish, -⟩, -⟩
      · exact hold
      · rw [hop] at hpublish
        cases hpublish
    have hle := le_highWater hold
    have hcursor : row'.scanCursor = highWater event.before := by rw [hnew]; rfl
    omega
  · have hid := (AutoTable.lookup_eq_some.mp hrow).2
    have hok := hinv.rows row (AutoTable.lookup_eq_some.mp hrow).1
    obtain ⟨-, -, hfilter, hcursor⟩ := hstep.keeps
    rw [hfilter] at hmatches
    have hdrain : ∀ limit, row.drainCursor = some limit → row'.drainCursor = some limit := by
      intro limit hsome
      cases hstep with
      | same => exact hsome
      | claim _ _ _ _ => exact hsome
      | drain _ _ _ hactive =>
        have hdraining := hok.draining
        rw [hactive, hsome] at hdraining
        cases hdraining
    rcases log_step hv hinv hmem with hold | ⟨hpublishes, hnew⟩
    · have hbefore : message ∈ unseen event.before row := by
        refine mem_unseen.mpr ⟨hold, by omega, ?_, hmatches⟩
        unfold scanLimit at hlimit ⊢
        cases hbound : row.drainCursor with
        | none => exact le_highWater hold
        | some limit =>
          rw [hdrain limit hbound] at hlimit
          exact hlimit
      rw [← hid] at hrow
      have heligible := h.unseen row message hrow hbefore
      rw [hid] at heligible
      exact heligible.append [event]
    · refine eligible_published hrecord hrow ?_ hpublishes hmatches
      by_contra hdraining
      have hsome : row.drainCursor.isSome = true := by
        rw [← hok.draining]
        exact Option.isSome_iff_ne_none.mpr hdraining
      obtain ⟨limit, hbound⟩ := Option.isSome_iff_exists.mp hsome
      have hpast := (hok.drain limit hbound).2
      unfold scanLimit at hlimit
      rw [hdrain limit hbound] at hlimit
      have hlimit : message.id ≤ limit := hlimit
      omega

/-- Every event gives a consumer only what is owed to it. -/
theorem held_deserved_step (hv : system.valid event) (hinv : Inv event.before)
    (h : Deserved past event.before) (hmem : message ∈ event.after.messages)
    (hcopy : copyOf event.after c message.id ≠ .absent) : Eligible (past ++ [event]) c message := by
  -- the copy speaks of a message stored before, so it is this one
  have hsame : ∀ other ∈ event.before.messages, other.id = message.id → other = message := by
    intro other hother hid
    rcases log_step hv hinv hmem with hold | ⟨-, hnew⟩
    · exact AutoTable.eq_of_key hother hold hid
    · have hle := event.before.messages.key_le other hother
      have hle : other.id ≤ event.before.messages.seq := hle
      omega
  by_cases hbefore : copyOf event.before c message.id = .absent
  · obtain ⟨act, hhappens, hstep⟩ := copy_step hv hinv c message.id
    rw [hbefore] at hstep
    generalize hafter : copyOf event.after c message.id = after at hstep hcopy
    cases hstep with
    | stay => exact absurd rfl hcopy
    | first _ =>
      obtain ⟨-, row, other, hrow, hunseen, hid⟩ := hhappens
      have hother := hsame other (mem_unseen.mp hunseen).1 hid
      have hkey := (AutoTable.lookup_eq_some.mp hrow).2
      rw [← hkey] at hrow ⊢
      rw [hother] at hunseen
      exact (h.unseen row message hrow hunseen).append [event]
    | discard => exact absurd rfl hcopy
  · have hrefers : ∃ other, event.before.messages.lookup message.id = some other := by
      rcases at_of_copy past hinv hbefore with ⟨d, hd, hdc, hdm⟩ | ⟨a, ha, hac, ham⟩
      · obtain ⟨-, other, -, hother, -⟩ := hinv.delivery_refers d hd
        exact ⟨other, hdm ▸ hother⟩
      · obtain ⟨-, other, -, hother, -⟩ := hinv.archive_refers a ha
        exact ⟨other, ham ▸ hother⟩
    obtain ⟨other, hother⟩ := hrefers
    obtain ⟨hstored, hid⟩ := AutoTable.lookup_eq_some.mp hother
    rw [hsame other hstored hid] at hstored
    exact (h.held c message hstored hbefore).append [event]

/-- In every run consumers hold and find only what is owed to them. -/
theorem deserved_run {events : List Event} {db : Db} (hrun : Run events db) :
    Deserved events db := by
  induction hrun with
  | nil =>
    refine ⟨fun row message h => ?_, fun c message h => absurd h (AutoTable.not_mem_empty _)⟩
    cases h
  | snoc e hrun hv ih =>
    exact ⟨fun row message => unseen_step hv (inv_run hrun) (recorded_run hrun) ih,
      fun c message => held_deserved_step hv (inv_run hrun) ih⟩

/-- A claim returns only what is owed to its consumer, with receipts that name it. -/
theorem claim_deserved (hv : system.valid event) (hinv : Inv event.before)
    (h : Deserved past event.before) {self : Consumer} {poll : Poll} {now : ℤ} {granted : Granted}
    (hop : event.op = .claim self poll now) (hreply : event.reply = .ok (.granted granted))
    {delivery : Delivery} (hmem : delivery ∈ granted.deliveries) :
    Eligible past self.id delivery.message ∧ delivery.receipt.consumerId = self.id ∧
      delivery.receipt.messageId = delivery.message.id := by
  have heffect := effect_of_valid hv hinv
  obtain ⟨fan, op, before, after, reply⟩ := event
  dsimp only at heffect hinv hop hreply h
  subst hop hreply
  obtain ⟨_, _, _, -, deadline, row, hclaim, -, -, hid, hrow, rfl, rfl⟩ := heffect.returning hmem
  cases hclaim
  rcases mem_claimedDeliveries.mp hmem
    with ⟨d, hd, message, hmessage, rfl⟩ | ⟨message, hfresh, rfl⟩
  · obtain ⟨hstored, hc, -⟩ := mem_selectVisible hd
    obtain ⟨hlogged, hkey⟩ := AutoTable.lookup_eq_some.mp hmessage
    refine ⟨h.held self.id message hlogged ?_, hid.symm, hkey.symm⟩
    rw [hkey, hid, ← hc, copyOf_delivery hstored]
    exact Copy.noConfusion
  · refine ⟨?_, hid.symm, rfl⟩
    rw [hid]
    exact h.unseen row message hrow (mem_unseen_of_fresh hfresh)

end Deserved

/-- What is owed to a live consumer is in exactly one place in every state reached,
and every delivery of every claim was owed to its consumer. -/
theorem fanOut_exact {events : List Event} {db : Db} (hrun : Run events db) :
    (∀ c message, (db.consumers.lookup c).isSome = true → Eligible events c message →
      ∃! place, At events db c message place) ∧
    ∀ past event future self poll now granted, events = past ++ event :: future →
      event.op = .claim self poll now → event.reply = .ok (.granted granted) →
      ∀ delivery ∈ granted.deliveries, Eligible past self.id delivery.message ∧
        delivery.receipt.consumerId = self.id ∧
        delivery.receipt.messageId = delivery.message.id := by
  constructor
  · intro c message hlive heligible
    obtain ⟨place, hplace⟩ := owed_run hrun heligible hlive
    exact ⟨place, hplace, fun other hother => place_unique hrun hother hplace⟩
  · intro past event future self poll now granted hsplit hop hreply delivery hmem
    subst hsplit
    obtain ⟨hpast, hv, -⟩ := hrun.around
    exact claim_deserved hv (inv_run hpast) (deserved_run hpast) hop hreply hmem

/-- A message is published to a consumer, leased and acknowledged. -/
def handledOps : List Op :=
  [.openConsumer "jobs" .all 0, .publishBatch [⟨none, [7], none⟩] 0, .claim firstHandle pollOne 0,
    .ackBatch firstHandle [⟨1, 1, 1⟩]]

set_option maxRecDepth 10000 in
/-- The handled message is in exactly one place. -/
theorem fanOut_exact_handled :
    ∃! place, At (trace Engine.inOrder Inner.default handledOps Db.empty)
      (outcomeDb Engine.inOrder Inner.default handledOps Db.empty) 1 ⟨1, none, [7], 0⟩ place := by
  refine (fanOut_exact (trace_run Engine.inOrder Inner.default handledOps Db.empty)).1 1 _ rfl ?_
  refine ⟨[_], _, [_, _], rfl, ⟨_, _, rfl, List.mem_singleton.mpr rfl, List.not_mem_nil⟩,
    ⟨_, List.mem_singleton.mpr rfl, .all, ⟨_, _, rfl, rfl, rfl⟩, trivial⟩, fun d hd hdrains => ?_⟩
  rw [List.mem_singleton.mp hd] at hdrains
  obtain ⟨self, now, hop, -⟩ := hdrains
  cases hop

end LiteFan.FanOut

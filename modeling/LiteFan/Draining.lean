import LiteFan.Deletion
import LiteFan.Lineage
import LiteFan.Polling

/-!
# Draining freezes an inbox once

The first drain call on an identity fixes its state and its boundary; nothing
published afterwards is ever delivered to it, everything owed before stays
within the boundary, delivered or archived until it is handled, and once
nothing is left nothing comes back.
-/

namespace LiteFan.Draining

open LiteFan.Api LiteFan.Time LiteFan.Schema LiteFan.Storage LiteFan.Store LiteFan.Consumer
open LiteFan.System LiteFan.Invariant LiteFan.Effect LiteFan.Step LiteFan.Preservation
open LiteFan.Lifecycle LiteFan.Lineage LiteFan.History LiteFan.FanOut LiteFan.Deletion
open LiteFan.Polling
open Relational

/-- The event is a drain call on the live identity, whatever it reports. -/
def CallsDrain (event : Event) (c : ℤ) : Prop :=
  ∃ self now, event.op = .beginDraining self now ∧ self.id = c ∧
    (event.before.consumers.lookup c).isSome = true

section Calls

variable {past : List Event} {event : Event} {db : Db} {c : ℤ}

/-- A drain call changes its row when it is active, and otherwise nothing. -/
theorem drain_call (hv : system.valid event) (hinv : Inv event.before) {self : Consumer} {now : ℤ}
    (hop : event.op = .beginDraining self now) :
    event.reply = .ok (.drained (drainChanges event.before self.id)) ∧
      event.after = drainedDb event.before self.id now := by
  obtain ⟨e, hexec⟩ := hv
  rw [hop, exec, replying_ok (drainTransition_eq hinv)] at hexec
  obtain ⟨hafter, hreply⟩ := Prod.mk.inj hexec
  exact ⟨hreply.symm, hafter.symm⟩

/-- A drain call that changes no row leaves the database as it was. -/
theorem drainedDb_eq_self {now : ℤ} (h : drainChanges db c = false) : drainedDb db c now = db := by
  have hconsumers : db.consumers.updateWhere (drainGuard c) (startDraining now (highWater db))
      (fun _ => rfl) = db.consumers := by
    refine AutoTable.updateWhere_eq_self fun row hrow hguard => ?_
    rw [drainGuard, Bool.and_eq_true, beq_iff_eq, Option.isNone_iff_eq_none] at hguard
    obtain ⟨hid, hactive⟩ := hguard
    have hchanges := drainChanges_iff.mpr ⟨row, hid ▸ AutoTable.lookup_key hrow, hactive⟩
    rw [h] at hchanges
    cases hchanges
  rw [drainedDb, hconsumers]

/-- The state and the boundary of a draining row never change while its identity exists. -/
theorem frozen_step (hv : system.valid event) (hinv : Inv event.before) {row row' : ConsumerRow}
    (hrow : event.before.consumers.lookup c = some row) (hdraining : row.drainingAt.isSome = true)
    (hrow' : event.after.consumers.lookup c = some row') :
    row'.drainingAt = row.drainingAt ∧ row'.drainCursor = row.drainCursor := by
  rcases row_step hv hinv hrow' with hcreates | ⟨other, hother, hstep⟩
  · obtain ⟨-, -, -, -, -, hfree, -⟩ := hcreates
    rw [hrow] at hfree
    cases hfree
  · rw [hrow] at hother
    cases hother
    cases hstep with
    | same => exact ⟨rfl, rfl⟩
    | claim _ _ _ _ => exact ⟨rfl, rfl⟩
    | drain _ _ _ hactive =>
      rw [hactive] at hdraining
      cases hdraining

/-- The state and the boundary stay until the identity is gone. -/
theorem frozen_run {events : List Event} {start : Db} {row : ConsumerRow}
    (hrun : Transition.Run system start events db) (hinv : Inv start)
    (hrow : start.consumers.lookup c = some row) (hdraining : row.drainingAt.isSome = true) :
    c ≤ db.consumers.seq ∧ ∀ row', db.consumers.lookup c = some row' →
      row'.drainingAt = row.drainingAt ∧ row'.drainCursor = row.drainCursor := by
  induction hrun with
  | nil =>
    refine ⟨live_le_seq hrow, fun row' hrow' => ?_⟩
    rw [hrow] at hrow'
    cases hrow'
    exact ⟨rfl, rfl⟩
  | snoc e hsteps hv ih =>
    have hbefore := hsteps.invariant hinv inv_event
    obtain ⟨hle, hkept⟩ := ih
    refine ⟨hle.trans (consumers_seq_mono hv hbefore), fun row' hrow' => ?_⟩
    cases hmid : e.before.consumers.lookup c with
    | none =>
      have hnone := gone_step hv hbefore hle hmid
      rw [show system.after e = e.after from rfl, hnone] at hrow'
      cases hrow'
    | some mid =>
      obtain ⟨hat, hboundary⟩ := hkept mid hmid
      have hsome : mid.drainingAt.isSome = true := by rw [hat, hdraining]
      obtain ⟨hat', hboundary'⟩ := frozen_step hv hbefore hmid hsome hrow'
      exact ⟨hat'.trans hat, hboundary'.trans hboundary⟩

/-- The call that froze an identity was made on it. -/
theorem CallsDrain.of_drains (hv : system.valid event) (hinv : Inv event.before)
    (h : Drains event c) : CallsDrain event c := by
  obtain ⟨row, now, hrow, -⟩ := drains_step hv hinv h
  obtain ⟨self, now, hop, hself, -⟩ := h
  exact ⟨self, now, hop, hself, by rw [hrow]; rfl⟩

/-- Some call froze every identity a drain call was made on. -/
theorem drains_of_calls (hrun : Run past db) {call : Event} (hcall : call ∈ past)
    (h : CallsDrain call c) : ∃ e ∈ past, Drains e c := by
  obtain ⟨pre, post, rfl⟩ := List.append_of_mem hcall
  obtain ⟨hpre, hv, -⟩ := hrun.around
  have hpre : Run pre call.before := hpre
  obtain ⟨self, now, hop, rfl, hlive⟩ := h
  obtain ⟨row, hrow⟩ := Option.isSome_iff_exists.mp hlive
  obtain ⟨hreply, -⟩ := drain_call hv (inv_run hpre) hop
  cases hchanges : drainChanges call.before self.id with
  | true =>
    rw [hchanges] at hreply
    exact ⟨call, hcall, self, now, hop, rfl, hreply⟩
  | false =>
    have hdraining : row.drainingAt.isSome = true := by
      by_contra hactive
      have hactive := Option.not_isSome_iff_eq_none.mp hactive
      rw [drainChanges_iff.mpr ⟨row, hrow, hactive⟩] at hchanges
      cases hchanges
    obtain ⟨e, he, hdrains⟩ := ((recorded_run hpre).draining _ row hrow).mp hdraining
    exact ⟨e, List.mem_append_left _ he, hdrains⟩

/-- A drain call changes its row exactly when it is the first on the live identity. -/
theorem drainChanges_first (hrun : Run past event.before) {self : Consumer} {now : ℤ}
    (hop : event.op = .beginDraining self now) :
    drainChanges event.before self.id = true ↔
      CallsDrain event self.id ∧ ∀ call ∈ past, ¬CallsDrain call self.id := by
  rw [drainChanges_iff]
  constructor
  · intro h
    obtain ⟨row, hrow, hactive⟩ := h
    refine ⟨⟨self, now, hop, rfl, by rw [hrow]; rfl⟩, fun call hcall hcalls => ?_⟩
    have hdraining := ((recorded_run hrun).draining _ row hrow).mpr
        (drains_of_calls hrun hcall hcalls)
    rw [hactive] at hdraining
    cases hdraining
  · intro h
    obtain ⟨⟨-, -, -, -, hlive⟩, hfirst⟩ := h
    obtain ⟨row, hrow⟩ := Option.isSome_iff_exists.mp hlive
    refine ⟨row, hrow, Option.not_isSome_iff_eq_none.mp fun hdraining => ?_⟩
    obtain ⟨e, he, hdrains⟩ := ((recorded_run hrun).draining _ row hrow).mp hdraining
    obtain ⟨pre, post, rfl⟩ := List.append_of_mem he
    obtain ⟨hpre, hvalid, -⟩ := hrun.around
    exact hfirst e he (.of_drains hvalid (inv_run hpre) hdrains)

end Calls

section Boundary

variable {past future events : List Event} {event : Event} {db start : Db} {c : ℤ}
  {message : Message}

/-- What is owed once an identity is frozen was owed before. -/
theorem eligible_before (hdrains : Drains event c)
    (h : Eligible (past ++ event :: future) c message) :
    Eligible past c message := by
  obtain ⟨pre, e, post, hsplit, hpublishes, hopened, hactive⟩ := h
  rcases List.append_eq_append_iff.mp hsplit.symm with ⟨mid, hpast, htail⟩ | ⟨mid, hpre, htail⟩
  · rcases List.cons_eq_append_iff.mp htail with ⟨-, hlater⟩ | ⟨rest, hmid, -⟩
    · -- the published event would be the drain call itself
      obtain ⟨hsame, -⟩ := List.cons.inj hlater
      obtain ⟨self, now, hop, -⟩ := hdrains
      obtain ⟨messages, published, hpublish, -⟩ := hpublishes
      rw [hsame, hpublish] at hop
      cases hop
    · exact ⟨pre, e, rest, by rw [hpast, hmid], hpublishes, hopened, hactive⟩
  · rcases List.cons_eq_append_iff.mp htail with ⟨-, hlater⟩ | ⟨rest, hmid, -⟩
    · obtain ⟨hsame, -⟩ := List.cons.inj hlater
      obtain ⟨self, now, hop, -⟩ := hdrains
      obtain ⟨messages, published, hpublish, -⟩ := hpublishes
      rw [← hsame, hpublish] at hop
      cases hop
    · refine absurd hdrains (hactive event ?_)
      rw [hpre, hmid]
      exact List.mem_append_right _ List.mem_cons_self

/-- What is owed has been assigned its identifier. -/
theorem Eligible.le_messages_seq (hrun : Run past db) (h : Eligible past c message) :
    message.id ≤ db.messages.seq := by
  obtain ⟨pre, e, post, rfl, ⟨messages, now, -, hmem, -⟩, -⟩ := h
  obtain ⟨hpre, hv, hpost⟩ := hrun.around
  have hafter : Inv e.after := inv_event e hv (inv_run hpre)
  exact (e.after.messages.key_le message hmem).trans (messages_seq_run hpost hafter)

/-- What is published once an identity is frozen is never delivered to it. -/
theorem not_delivered (hrun : Run (past ++ event :: future) db) (hdrains : Drains event c)
    {published : Event} (hpublished : published ∈ future) (hpublishes : Publishes published message)
    {before after : List Event} {call : Event}
    (hsplit : past ++ event :: future = before ++ call :: after)
    {self : Consumer} {poll : Poll} {now : ℤ} {granted : Granted}
    (hop : call.op = .claim self poll now)
    (hself : self.id = c) (hreply : call.reply = .ok (.granted granted)) :
    ∀ delivery ∈ granted.deliveries, delivery.message ≠ message := by
  intro delivery hmem hsame
  obtain ⟨early, late, hfuture⟩ := List.append_of_mem hpublished
  obtain ⟨hbefore, hcall, -⟩ := (hsplit ▸ hrun).around
  have howed := (claim_deserved hcall (inv_run hbefore) (deserved_run hbefore) hop hreply hmem).1
  rw [hself, hsame] at howed
  have hall : Eligible (past ++ event :: future) c message := by
    rw [hsplit]
    exact howed.append _
  obtain ⟨hpast, hv, hlater⟩ := hrun.around
  have hle := Eligible.le_messages_seq hpast (eligible_before hdrains hall)
  rw [hfuture] at hlater
  have hinv : Inv event.before := inv_run hpast
  obtain ⟨hmid, hpublish, -⟩ := hlater.around
  have hmid : Transition.Run system event.after early published.before := hmid
  have hafter := inv_event event hv hinv
  have hseq := (messages_seq_mono hv hinv).trans (messages_seq_run hmid hafter)
  obtain ⟨messages, stamp, hpop, hstored, hnew⟩ := hpublishes
  rcases log_step hpublish (hmid.invariant hafter inv_event) hstored with hold | ⟨-, hlt⟩
  · exact hnew hold
  · have hle : message.id ≤ event.before.messages.seq := hle
    omega

/-- Where what was owed to a frozen consumer still is: in the log up to the boundary and
claimable, delivered or archived, unless it was acknowledged or its archive purged. -/
def Kept (events : List Event) (db : Db) (c : ℤ) (message : Message) : Prop :=
  (∃ row limit, db.consumers.lookup c = some row ∧ row.drainCursor = some limit ∧
    message.id ≤ limit ∧ message ∈ unseen db row) ∨
    (∃ d ∈ db.deliveries, d.consumerId = c ∧ d.messageId = message.id) ∨
    (∃ a ∈ db.archives, a.consumerId = c ∧ a.messageId = message.id) ∨
    (∃ e ∈ events, Acks e c message.id) ∨ ∃ e ∈ events, Purges e c message.id

/-- What was owed to a live frozen consumer is kept. -/
theorem kept_of_owed (hrun : Run events db) (hdrained : ∃ e ∈ events, Drains e c)
    (h : Eligible events c message) (hlive : (db.consumers.lookup c).isSome = true) :
    Kept events db c message := by
  obtain ⟨place, hat⟩ := owed_run hrun h hlive
  cases place with
  | log =>
    obtain ⟨hmem, row, hrow, hbeyond, hlimit⟩ := hat
    obtain ⟨hstored, hid⟩ := AutoTable.lookup_eq_some.mp hrow
    have hdraining := ((recorded_run hrun).draining c row hrow).mpr hdrained
    obtain ⟨limit, hboundary⟩ :=
      Option.isSome_iff_exists.mp (((inv_run hrun).rows row hstored).draining ▸ hdraining)
    refine Or.inl ⟨row, limit, hrow, hboundary, hlimit limit hboundary,
      mem_unseen.mpr ⟨hmem, hbeyond, ?_, ?_⟩⟩
    · rw [scanLimit, hboundary, Option.getD_some]
      exact hlimit limit hboundary
    · exact h.matches (recorded_run hrun) hrow
  | delivery => exact Or.inr (Or.inl hat)
  | archive => exact Or.inr (Or.inr (Or.inl hat))
  | acked => exact Or.inr (Or.inr (Or.inr (Or.inl hat)))
  | purged => exact Or.inr (Or.inr (Or.inr (Or.inr hat)))

end Boundary

section Retired

variable {past future : List Event} {start db : Db} {row : ConsumerRow} {message : Message}

/-- The consumer is draining and has neither outstanding nor archived work. -/
structure Retired (db : Db) (row : ConsumerRow) : Prop where
  stored : row ∈ db.consumers
  draining : row.drainingAt.isSome = true
  outstanding : outstandingCount db row = 0
  archived : archivedCount db row = 0

/-- Whatever is ever owed to a retired consumer was handled before. -/
theorem handled_of_retired (hpast : Run past start) (h : Retired start row)
    (hfuture : Transition.Run system start future db)
    (howed : Eligible (past ++ future) row.id message) :
    Passed db row.id message.id ∧ copyOf db row.id message.id = .absent := by
  obtain ⟨e, he, hdrains⟩ :=
    ((recorded_run hpast).draining _ row (AutoTable.lookup_key h.stored)).mp h.draining
  obtain ⟨pre, post, rfl⟩ := List.append_of_mem he
  rw [List.append_assoc, List.cons_append] at howed
  have hbefore := (eligible_before hdrains howed).append (e :: post)
  have hhandled := finished_of_empty hpast h.stored h.outstanding h.archived hbefore
  refine (finished_run (hpast.append hfuture) row.id message.id).1 ?_
  rcases hhandled with ⟨ack, hack, hacks⟩ | ⟨purge, hpurge, hpurges⟩
  · exact ⟨ack, List.mem_append_left _ hack, Or.inl hacks⟩
  · exact ⟨purge, List.mem_append_left _ hpurge, Or.inr hpurges⟩

/-- A retired consumer never holds work again. -/
theorem retired_run (hpast : Run past start) (h : Retired start row)
    (hfuture : Transition.Run system start future db) {row' : ConsumerRow}
    (hrow' : db.consumers.lookup row.id = some row') :
    outstandingCount db row' = 0 ∧ archivedCount db row' = 0 := by
  have hrun := hpast.append hfuture
  have hinv := inv_run hrun
  obtain ⟨hstored, hid⟩ := AutoTable.lookup_eq_some.mp hrow'
  have hcopy : ∀ m, copyOf db row.id m = .absent := by
    intro m
    by_contra hheld
    have hrefers : ∃ message, db.messages.lookup m = some message := by
      cases hcase : copyOf db row.id m with
      | absent => exact absurd hcase hheld
      | leased v g n =>
        obtain ⟨-, message, -, hmessage, -⟩ := hinv.delivery_refers _ (copyOf_leased.mp hcase)
        exact ⟨message, hmessage⟩
      | archived g =>
        obtain ⟨a, ha, -, rfl, -⟩ := (copyOf_archived hinv).mp hcase
        obtain ⟨-, message, -, hmessage, -⟩ := hinv.archive_refers a ha
        exact ⟨message, hmessage⟩
    obtain ⟨message, hmessage⟩ := hrefers
    obtain ⟨hmem, rfl⟩ := AutoTable.lookup_eq_some.mp hmessage
    have howed := (deserved_run hrun).held row.id message hmem hheld
    exact hheld (handled_of_retired hpast h hfuture howed).2
  have hdeliveries : deliveriesOf db row'.id = [] := by
    refine List.eq_nil_iff_forall_not_mem.mpr fun d hd => ?_
    obtain ⟨hmem, hc⟩ := Table.mem_select.mp hd
    exact (copyOf_absent.mp (hcopy d.messageId)).1 d hmem ((beq_iff_eq.mp hc).trans hid) rfl
  have hlog : db.messages.select (awaits row') = [] := by
    refine List.eq_nil_iff_forall_not_mem.mpr fun message hmem => ?_
    obtain ⟨howed, hat⟩ := (mem_awaits_iff hrun hstored).mp hmem
    rw [hid] at howed hat
    exact not_passed_of_log hat (handled_of_retired hpast h hfuture howed).1
  have harchives : archivesOf db row'.id = [] := by
    refine List.eq_nil_iff_forall_not_mem.mpr fun a ha => ?_
    obtain ⟨hmem, hc⟩ := AutoTable.mem_select.mp ha
    exact (copyOf_absent.mp (hcopy a.messageId)).2 a hmem ((beq_iff_eq.mp hc).trans hid) rfl
  constructor
  · rw [outstandingCount, hdeliveries, hlog]
    rfl
  · rw [archivedCount, harchives]
    rfl

/-- Nor is it ever delivered anything again. -/
theorem nothing_granted (hpast : Run past start) (h : Retired start row)
    (hfuture : Transition.Run system start future db) {call : Event} (hcall : call ∈ future)
    {self : Consumer} {poll : Poll} {now : ℤ} {granted : Granted}
    (hop : call.op = .claim self poll now)
    (hself : self.id = row.id) (hreply : call.reply = .ok (.granted granted)) :
    granted.deliveries = [] := by
  obtain ⟨early, late, rfl⟩ := List.append_of_mem hcall
  obtain ⟨hmid, hv, -⟩ := hfuture.around
  have hmid : Transition.Run system start early call.before := hmid
  have hbefore : Run (past ++ early) call.before := hpast.append hmid
  refine List.eq_nil_iff_forall_not_mem.mpr fun delivery hmem => ?_
  obtain ⟨howed, hreceipt, hnamed⟩ :=
    claim_deserved hv (inv_run hbefore) (deserved_run hbefore) hop hreply hmem
  rw [hself] at howed hreceipt
  have hafter : Transition.Run system start (early ++ [call]) call.after := hmid.snoc call hv
  have hgone := (handled_of_retired hpast h hafter
      (List.append_assoc _ _ _ ▸ howed.append [call])).2
  obtain ⟨_, _, _, hgranted⟩ := grants_step hv (inv_run hbefore)
    ⟨granted, hreply, delivery, hmem, rfl⟩
  obtain ⟨n, hleased⟩ := hgranted.after
  rw [hreceipt, hnamed, hgone] at hleased
  cases hleased

end Retired

section Freeze

variable {past future events : List Event} {event : Event} {db : Db} {c : ℤ}

/-- A drain call never fails: it returns true when it is the first to commit on the live
identity, and otherwise leaves the database as it is and returns false while the
identity exists. -/
def DrainsOnce (past : List Event) (event : Event) (self : Consumer) : Prop :=
  ∃ changed, event.reply = .ok (.drained changed) ∧
    (changed = true ↔ CallsDrain event self.id ∧ ∀ call ∈ past, ¬CallsDrain call self.id) ∧
    (changed = false → event.after = event.before) ∧
    ∀ later : Db, (later.consumers.lookup self.id).isSome = true →
      drainReport self changed later = .ok changed

/-- What holds ever after the call that froze an identity. -/
structure Frozen (past : List Event) (event : Event) (future : List Event) (db : Db) (c : ℤ) :
    Prop where
  /-- While the identity exists its state and its boundary stay as the call set them. -/
  fixed : ∃ row, event.after.consumers.lookup c = some row ∧ row.drainingAt.isSome = true ∧
    ∀ row', db.consumers.lookup c = some row' →
      row'.drainingAt = row.drainingAt ∧ row'.drainCursor = row.drainCursor
  /-- What is published afterwards is never delivered to it. -/
  excluded : ∀ published ∈ future, ∀ message, Publishes published message →
    ∀ before call after self poll now granted, past ++ event :: future = before ++ call :: after →
      call.op = .claim self poll now → self.id = c → call.reply = .ok (.granted granted) →
      ∀ delivery ∈ granted.deliveries, delivery.message ≠ message
  /-- What was published to it before is kept until it is handled. -/
  kept : ∀ message, Eligible past c message → (db.consumers.lookup c).isSome = true →
    Kept (past ++ event :: future) db c message

/-- The first drain call freezes the identity. -/
theorem frozen_of_drains (hrun : Run (past ++ event :: future) db) (h : Drains event c) :
    Frozen past event future db c where
  fixed := by
    obtain ⟨hpast, hv, hfuture⟩ := hrun.around
    have hinv : Inv event.before := inv_run hpast
    obtain ⟨row, now, -, -, hrow⟩ := drains_step hv hinv h
    have hafter := inv_event event hv hinv
    exact ⟨_, hrow, rfl, (frozen_run hfuture hafter hrow rfl).2⟩
  excluded published hpublished message hpublishes before call after self poll now
    granted hsplit hop
      hself hreply := not_delivered hrun h hpublished hpublishes hsplit hop hself hreply
  kept message howed hlive :=
    kept_of_owed hrun ⟨event, List.mem_append_right _ List.mem_cons_self, h⟩ (howed.append _) hlive

/-- Draining freezes an inbox exactly once, keeps what is owed, ends a poll early only
when nothing is left to deliver, and once nothing is left keeps the identity empty. -/
theorem draining_exact (hrun : Run events db) :
    (∀ past event future self now, events = past ++ event :: future →
      event.op = .beginDraining self now → DrainsOnce past event self) ∧
    (∀ past event future c, events = past ++ event :: future → Drains event c →
      Frozen past event future db c) ∧
    (∀ fan self poll deadline db' read,
      Moves fan self poll deadline (db, .reading) (db', .returned [] true read) →
        Reachable read ∧ Exhausted read self.id) ∧
    ∀ past future start row, events = past ++ future → Run past start →
      Transition.Run system start future db → Retired start row →
      (∀ row', db.consumers.lookup row.id = some row' →
        outstandingCount db row' = 0 ∧ archivedCount db row' = 0) ∧
      ∀ call ∈ future, ∀ self poll now granted, call.op = .claim self poll now → self.id = row.id →
        call.reply = .ok (.granted granted) → granted.deliveries = [] := by
  refine ⟨fun past event future self now hsplit hop => ?_, fun past event future c hsplit h => ?_,
    fun fan self poll deadline db' read hmoves => early_exhausted ⟨events, hrun⟩ hmoves,
    fun past future start row _ hpast hfuture h => ⟨fun row' hrow' => ?_, ?_⟩⟩
  · obtain ⟨hpast, hv, -⟩ := (hsplit ▸ hrun).around
    have hpast : Run past event.before := hpast
    obtain ⟨hreply, hafter⟩ := drain_call hv (inv_run hpast) hop
    refine ⟨_, hreply, drainChanges_first hpast hop, fun hnone => ?_, fun later hlive => ?_⟩
    · rw [hafter, drainedDb_eq_self hnone]
    · unfold drainReport
      cases drainChanges event.before self.id with
      | true => rfl
      | false => rw [if_neg Bool.false_ne_true, if_pos hlive]
  · exact frozen_of_drains (hsplit ▸ hrun) h
  · exact retired_run hpast h hfuture hrow'
  · intro call hcall self poll now granted hop hself hreply
    exact nothing_granted hpast h hfuture hcall hop hself hreply

/-- A consumer is drained with one of its two messages leased, and again. -/
def drainedOps : List Op :=
  [.openConsumer "jobs" .all 0, .publishBatch [⟨none, [7], none⟩, ⟨none, [8], none⟩] 0,
    .claim firstHandle pollOne 0]

/-- The first drain call. -/
def firstDrain : Event :=
  perform Engine.inOrder Inner.default (.beginDraining firstHandle 0)
    (outcomeDb Engine.inOrder Inner.default drainedOps Db.empty)

/-- The second drain call. -/
def secondDrain : Event :=
  perform Engine.inOrder Inner.default (.beginDraining firstHandle 5) firstDrain.after

set_option maxRecDepth 10000 in
/-- The second call is no first one, and the first one froze the inbox. -/
theorem draining_exact_twice :
    DrainsOnce (trace Engine.inOrder Inner.default drainedOps Db.empty ++ [firstDrain]) secondDrain
      firstHandle ∧
    Frozen (trace Engine.inOrder Inner.default drainedOps Db.empty) firstDrain [secondDrain]
      secondDrain.after 1 := by
  have hrun : Run ((trace Engine.inOrder Inner.default drainedOps Db.empty ++ [firstDrain]) ++
      [secondDrain]) secondDrain.after :=
    ((trace_run Engine.inOrder Inner.default drainedOps Db.empty).snoc firstDrain
      ⟨Engine.inOrder, rfl⟩).snoc secondDrain ⟨Engine.inOrder, rfl⟩
  obtain ⟨honce, hfrozen, -⟩ := draining_exact hrun
  exact ⟨honce _ secondDrain [] firstHandle 5 rfl rfl,
    hfrozen _ firstDrain [secondDrain] 1 rfl ⟨firstHandle, 0, rfl, rfl, rfl⟩⟩

end Freeze

end LiteFan.Draining

import LiteFan.Lifecycle

/-!
# Identifiers that are never handed out again

Consumers, messages and archives draw their identifiers from counters that only
grow. An identity that is gone stays gone, and an archive row is written once,
under a fresh identifier, by the archiving of the delivery it keeps.
-/

namespace LiteFan.Lineage

open LiteFan.Api LiteFan.Time LiteFan.Schema LiteFan.Storage LiteFan.Store LiteFan.Consumer
open LiteFan.System LiteFan.Invariant LiteFan.Effect LiteFan.Step LiteFan.Preservation
open LiteFan.Lifecycle Relational

section Identities

variable {event : Event} {events : List Event} {start db : Db} {c : ℤ}

/-- An identity that is gone does not come back. -/
theorem gone_step (hv : system.valid event) (hinv : Inv event.before)
    (hle : c ≤ event.before.consumers.seq) (hgone : event.before.consumers.lookup c = none) :
    event.after.consumers.lookup c = none := by
  cases hrow' : event.after.consumers.lookup c with
  | none => rfl
  | some row' =>
    rcases row_step hv hinv hrow' with hcreates | ⟨row, hrow, -⟩
    · obtain ⟨-, -, -, -, -, -, hnew, -⟩ := hcreates
      omega
    · rw [hgone] at hrow
      cases hrow

/-- An identity that is gone stays gone. -/
theorem gone_run (hrun : Transition.Run system start events db) (hinv : Inv start)
    (hle : c ≤ start.consumers.seq) (hgone : start.consumers.lookup c = none) :
    c ≤ db.consumers.seq ∧ db.consumers.lookup c = none := by
  induction hrun with
  | nil => exact ⟨hle, hgone⟩
  | snoc e hsteps hv ih =>
    have hbefore := hsteps.invariant hinv inv_event
    exact ⟨ih.1.trans (consumers_seq_mono hv hbefore), gone_step hv hbefore ih.1 ih.2⟩

/-- Identifiers are assigned upwards. -/
theorem messages_seq_run (hrun : Transition.Run system start events db) (hinv : Inv start) :
    start.messages.seq ≤ db.messages.seq := by
  induction hrun with
  | nil => exact le_rfl
  | snoc e hsteps hv ih =>
    exact ih.trans (messages_seq_mono hv (hsteps.invariant hinv inv_event))

/-- A message with an identifier handed out before has been stored since. -/
theorem message_run (hrun : Transition.Run system start events db) (hinv : Inv start)
    {message : Message} (h : message ∈ db.messages) (hle : message.id ≤ start.messages.seq) :
    message ∈ start.messages := by
  induction hrun with
  | nil => exact h
  | snoc e hsteps hv ih =>
    have hbefore := hsteps.invariant hinv inv_event
    rcases log_step hv hbefore h with hold | ⟨-, hnew⟩
    · exact ih hold
    · have hseq : start.messages.seq ≤ e.before.messages.seq := messages_seq_run hsteps hinv
      omega

end Identities

section Archives

variable {event : Event} {events : List Event} {start db : Db} {a : ArchiveRow}

/-- An archive row was there before, or the event archived the delivery it keeps under
a fresh identifier. -/
theorem archive_step (hv : system.valid event) (hinv : Inv event.before)
    (h : a ∈ event.after.archives) :
    a ∈ event.before.archives ∨ (event.before.archives.seq < a.id ∧
      Archives event a.consumerId a.messageId ∧ ∃ visibleAt,
        copyOf event.before a.consumerId a.messageId =
          .leased visibleAt a.lastGeneration a.deliveryCount) := by
  have heffect := effect_of_valid hv hinv
  obtain ⟨fan, op, before, after, reply⟩ := event
  dsimp only at heffect hinv h ⊢
  cases heffect with
  | @published messages now hle =>
    obtain ⟨-, -, -, harchives, -⟩ := ledgerAt_parts now before messages
    have h : a ∈ (ledgerAt now before messages).archives := h
    rw [harchives] at h
    exact Or.inl h
  | @archived self receipts detail now hpos hle =>
    rcases mem_archivedDb.mp h with hold | ⟨i, lease, hlease, rfl⟩
    · exact Or.inl hold
    · obtain ⟨d, hd, hnamed, rfl⟩ := mem_archivedLeases.mp (List.mem_of_getElem? hlease)
      obtain ⟨hc, hlisted⟩ := pushReceiptPredicate_iff.mp hnamed
      have hid : before.archives.seq < before.archives.seq + 1 + (i : ℤ) := by omega
      exact Or.inr ⟨hid, ⟨self, receipts, detail, now, rfl, hc.symm, ⟨_, rfl⟩, d, hd, rfl,
        rfl, hlisted⟩,
        d.visibleAt, copyOf_delivery hd⟩
  | redriven hpos hle hvisible => exact Or.inl (AutoTable.mem_deleteWhere.mp h).1
  | purged => exact Or.inl (AutoTable.mem_deleteWhere.mp h).1
  | deleted hrow haccept => exact Or.inl (AutoTable.mem_deleteWhere.mp h).1
  | _ => exact Or.inl h

/-- Archive identifiers only grow. -/
theorem archives_seq_mono (hv : system.valid event) (hinv : Inv event.before) :
    event.before.archives.seq ≤ event.after.archives.seq := by
  have heffect := effect_of_valid hv hinv
  obtain ⟨fan, op, before, after, reply⟩ := event
  dsimp only at heffect hinv ⊢
  cases heffect with
  | @published messages now hle =>
    obtain ⟨-, -, -, harchives, -⟩ := ledgerAt_parts now before messages
    exact (congrArg AutoTable.seq harchives).ge
  | @archived self receipts detail now hpos hle =>
    have hseq : (archivedDb before self.id receipts now detail).archives.seq =
        before.archives.seq + (archivedLeases before self.id receipts).length :=
      AutoTable.appendAll_seq _ _
    omega
  | _ => exact le_rfl

/-- An archive row with an identifier handed out before has been stored since. -/
theorem archive_run (hrun : Transition.Run system start events db) (hinv : Inv start) :
    start.archives.seq ≤ db.archives.seq ∧
      ∀ a ∈ db.archives, a.id ≤ start.archives.seq → a ∈ start.archives := by
  induction hrun with
  | nil => exact ⟨le_rfl, fun a ha _ => ha⟩
  | snoc e hsteps hv ih =>
    obtain ⟨hseq, hold⟩ := ih
    have hbefore := hsteps.invariant hinv inv_event
    refine ⟨hseq.trans (archives_seq_mono hv hbefore), fun a ha hle => ?_⟩
    rcases archive_step hv hbefore ha with hkept | ⟨hnew, -⟩
    · exact hold a hkept hle
    · have hnew : e.before.archives.seq < a.id := hnew
      have hseq : start.archives.seq ≤ e.before.archives.seq := hseq
      omega

end Archives

end LiteFan.Lineage

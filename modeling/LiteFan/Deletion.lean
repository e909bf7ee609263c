import LiteFan.FanOut

/-!
# Deleting an identity loses no work

The guards of a deletion count what is stored at one moment. Since everything a
consumer was ever owed is in exactly one place, empty counts mean that all of it
was acknowledged or purged.
-/

namespace LiteFan.Deletion

open LiteFan.Api LiteFan.Time LiteFan.Schema LiteFan.Storage LiteFan.Store LiteFan.Consumer
open LiteFan.System
open LiteFan.Invariant LiteFan.Effect LiteFan.Step LiteFan.Preservation LiteFan.Lifecycle
open LiteFan.History LiteFan.FanOut Relational

/-- What a successful deletion takes, and what it reports. -/
structure Deleted (past : List Event) (event : Event) (mode : DeleteMode) (outcome : DeleteOutcome)
    (row : ConsumerRow) : Prop where
  /-- The identity's row goes. -/
  consumers : ∀ other, other ∈ event.after.consumers ↔ other ∈ event.before.consumers ∧ other ≠ row
  /-- Its deliveries go. -/
  deliveries : ∀ d, d ∈ event.after.deliveries ↔ d ∈ event.before.deliveries ∧ d.consumerId ≠ row.id
  /-- Its archives go. -/
  archives : ∀ a, a ∈ event.after.archives ↔ a ∈ event.before.archives ∧ a.consumerId ≠ row.id
  /-- Only the mode that discards everything takes any. -/
  archives_kept : mode ≠ .discardAll → event.after.archives = event.before.archives
  messages : event.after.messages = event.before.messages
  idempotency : event.after.idempotency = event.before.idempotency
  /-- The report counts the deliveries and the undelivered log entries. -/
  discarded : outcome.discardedDeliveries = (deliveriesOf event.before row.id).length +
    (event.before.messages.select (awaits row)).length
  /-- The undelivered log entries are those owed and still in the log. -/
  undelivered : ∀ message, message ∈ event.before.messages.select (awaits row) ↔
    Eligible past row.id message ∧ At past event.before row.id message .log
  /-- The report counts the archives. -/
  discarded_archives : outcome.discardedArchives = (archivesOf event.before row.id).length

variable {past : List Event} {event : Event} {db : Db} {row : ConsumerRow}

/-- The log entries a deletion counts are those owed to the consumer and not yet leased. -/
theorem mem_awaits_iff (hrun : Run past db) (hrow : row ∈ db.consumers) {message : Message} :
    message ∈ db.messages.select (awaits row) ↔
      Eligible past row.id message ∧ At past db row.id message .log := by
  have hlookup := AutoTable.lookup_key hrow
  have hok := (inv_run hrun).rows row hrow
  simp only [AutoTable.mem_select, awaits, Bool.and_eq_true, decide_eq_true_eq]
  constructor
  · intro h
    obtain ⟨hmem, ⟨hbeyond, hlimit⟩, hmatches⟩ := h
    have hbelow : ∀ limit, row.drainCursor = some limit → message.id ≤ limit := by
      intro limit hbound
      rw [hbound] at hlimit
      exact of_decide_eq_true hlimit
    refine ⟨(deserved_run hrun).unseen row message hlookup
      (mem_unseen.mpr ⟨hmem, hbeyond, ?_, hmatches⟩),
      hmem, row, hlookup, hbeyond, hbelow⟩
    unfold scanLimit
    cases hbound : row.drainCursor with
    | none => exact le_highWater hmem
    | some limit => exact hbelow limit hbound
  · intro h
    obtain ⟨heligible, hmem, other, hother, hbeyond, hlimit⟩ := h
    rw [hlookup] at hother
    cases hother
    refine ⟨hmem, ⟨hbeyond, ?_⟩, heligible.matches (recorded_run hrun) hlookup⟩
    cases hbound : row.drainCursor with
    | none => rfl
    | some limit => exact decide_eq_true (hlimit limit hbound)

/-- A consumer with nothing outstanding and nothing archived was given all it was owed. -/
theorem finished_of_empty (hrun : Run past db) (hrow : row ∈ db.consumers)
    (houtstanding : outstandingCount db row = 0) (harchived : archivedCount db row = 0)
    {message : Message} (h : Eligible past row.id message) :
    (∃ e ∈ past, Acks e row.id message.id) ∨ ∃ e ∈ past, Purges e row.id message.id := by
  have hlookup := AutoTable.lookup_key hrow
  obtain ⟨hdeliveries, hlog⟩ := Nat.add_eq_zero_iff.mp houtstanding
  obtain ⟨place, hat⟩ := owed_run hrun h (by rw [hlookup]; rfl)
  cases place with
  | log =>
    have hmem := (mem_awaits_iff hrun hrow).mpr ⟨h, hat⟩
    rw [List.length_eq_zero_iff.mp hlog] at hmem
    exact absurd hmem List.not_mem_nil
  | delivery =>
    obtain ⟨d, hd, hc, -⟩ := hat
    have hmem : d ∈ deliveriesOf db row.id := Table.mem_select.mpr ⟨hd, beq_iff_eq.mpr hc⟩
    rw [List.length_eq_zero_iff.mp hdeliveries] at hmem
    exact absurd hmem List.not_mem_nil
  | archive =>
    obtain ⟨a, ha, hc, -⟩ := hat
    have hmem : a ∈ archivesOf db row.id := AutoTable.mem_select.mpr ⟨ha, beq_iff_eq.mpr hc⟩
    rw [List.length_eq_zero_iff.mp harchived] at hmem
    exact absurd hmem List.not_mem_nil
  | acked => exact Or.inl hat
  | purged => exact Or.inr hat

/-- A deletion the guards let through takes the identity and what it owns. -/
theorem deleted_of_accepted (fan : Inner) {name : String} {mode : DeleteMode}
    (reply : Except Error Reply) (hrun : Run past db) (hrow : row ∈ db.consumers)
    (haccept : deleteRefusal name mode db row = none) :
    Deleted past ⟨fan, .deleteConsumer name mode, db, deletedDb db row, reply⟩ mode
      ⟨outstandingCount db row, archivedCount db row⟩ row where
  consumers other := by
    have hmem : other ∈ (deletedDb db row).consumers ↔
        other ∈ db.consumers ∧ (other.id == row.id) = false := AutoTable.mem_deleteWhere
    rw [hmem, beq_eq_false_iff_ne]
    refine and_congr_right fun hother => not_congr ⟨fun hid => ?_, fun hsame => hsame ▸ rfl⟩
    exact AutoTable.eq_of_key hother hrow hid
  deliveries d := by
    have hmem : d ∈ (deletedDb db row).deliveries ↔
        d ∈ db.deliveries ∧ (d.consumerId == row.id) = false := Table.mem_deleteWhere
    rw [hmem, beq_eq_false_iff_ne]
  archives a := by
    have hmem : a ∈ (deletedDb db row).archives ↔
        a ∈ db.archives ∧ (a.consumerId == row.id) = false := AutoTable.mem_deleteWhere
    rw [hmem, beq_eq_false_iff_ne]
  archives_kept hmode := by
    have hnone := no_archives_of_accepted haccept hmode
    exact AutoTable.deleteWhere_eq_self fun a ha => beq_eq_false_iff_ne.mpr (hnone a ha)
  messages := rfl
  idempotency := rfl
  discarded := rfl
  undelivered _ := mem_awaits_iff hrun hrow
  discarded_archives := rfl

/-- A safe deletion succeeds only when everything owed was acknowledged or purged, a
discarding one never removes archives, and a refused one changes nothing. -/
theorem deletion_safe {future : List Event} {name : String} {mode : DeleteMode}
    (hrun : Run (past ++ event :: future) db) (hop : event.op = .deleteConsumer name mode) :
    (∀ outcome, event.reply = .ok (.deleted outcome) →
      ∃ row ∈ event.before.consumers, row.name = name ∧ Deleted past event mode outcome row ∧
        (mode = .drainedOnly → outcome = ⟨0, 0⟩ ∧ ∀ message, Eligible past row.id message →
          (∃ e ∈ past, Acks e row.id message.id) ∨ ∃ e ∈ past, Purges e row.id message.id)) ∧
    (mode = .discardOutstanding → event.after.archives = event.before.archives) ∧
    ∀ err, event.reply = .error err → event.after = event.before := by
  obtain ⟨hpast, hv, -⟩ := hrun.around
  have hinv : Inv event.before := inv_run hpast
  have heffect := effect_of_valid hv hinv
  have hpast : Run past event.before := hpast
  obtain ⟨fan, op, before, after, reply⟩ := event
  dsimp only at heffect hinv hop hpast ⊢
  subst hop
  cases heffect with
  | rejected _ =>
    refine ⟨fun outcome hreply => ?_, fun _ => rfl, fun _ _ => rfl⟩
    cases hreply
  | idle hidle => exact absurd hidle id
  | @deleted _ _ row hrow haccept =>
    obtain ⟨hmem, hname⟩ := consumerNamed_some hrow
    have hdeleted := deleted_of_accepted fan (.ok (.deleted ⟨outstandingCount before row,
      archivedCount before row⟩)) hpast hmem haccept
    refine ⟨fun outcome hreply => ?_, fun hmode => ?_, fun err hreply => ?_⟩
    · cases hreply
      refine ⟨row, hmem, hname, hdeleted, fun hmode => ?_⟩
      subst hmode
      have hcounts : outstandingCount before row = 0 ∧ archivedCount before row = 0 := by
        unfold deleteRefusal at haccept
        split_ifs at haccept with h₁ h₂ h₃
        simp only [true_and, not_and, not_lt, Nat.le_zero] at h₂ h₃
        exact ⟨h₂, h₃ (by decide)⟩
      obtain ⟨houtstanding, harchived⟩ := hcounts
      refine ⟨by rw [houtstanding, harchived], fun message heligible => ?_⟩
      exact finished_of_empty hpast hmem houtstanding harchived heligible
    · exact hdeleted.archives_kept (by rw [hmode]; decide)
    · cases hreply

/-- A consumer handles its message, is drained and deleted safely. -/
def retiredOps : List Op :=
  [.openConsumer "jobs" .all 0, .publishBatch [⟨none, [7], none⟩] 0, .claim firstHandle pollOne 0,
    .ackBatch firstHandle [⟨1, 1, 1⟩], .beginDraining firstHandle 0]

/-- The deletion that follows. -/
def retirement : Event :=
  perform Engine.inOrder Inner.default (.deleteConsumer "jobs" .drainedOnly)
    (outcomeDb Engine.inOrder Inner.default retiredOps Db.empty)

set_option maxRecDepth 10000 in
/-- The deletion succeeds, with nothing discarded and the message acknowledged. -/
theorem deletion_safe_retired : ∃ row ∈ retirement.before.consumers, row.name = "jobs" ∧
    Deleted (trace Engine.inOrder Inner.default retiredOps Db.empty) retirement .drainedOnly
      ⟨0, 0⟩ row ∧
    (DeleteMode.drainedOnly = .drainedOnly → (⟨0, 0⟩ : DeleteOutcome) = ⟨0, 0⟩ ∧ ∀ message,
      Eligible (trace Engine.inOrder Inner.default retiredOps Db.empty) row.id message →
        (∃ e ∈ trace Engine.inOrder Inner.default retiredOps Db.empty, Acks e row.id message.id) ∨
          ∃ e ∈ trace Engine.inOrder Inner.default retiredOps Db.empty,
            Purges e row.id message.id) := by
  have hrun := (trace_run Engine.inOrder Inner.default retiredOps Db.empty).append
    (Transition.Run.single (S := system) (e := retirement) ⟨Engine.inOrder, rfl⟩)
  exact (deletion_safe hrun rfl).1 ⟨0, 0⟩ rfl

end LiteFan.Deletion

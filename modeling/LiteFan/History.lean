import LiteFan.Lifecycle

/-!
# What the history of a run says about its consumers

A live row was created by the one open that reported its identity as new, with
the filter of that open, and it is draining exactly when a drain call on it
returned true. Identities are never handed out twice, so a later open or drain
never speaks of an earlier consumer.
-/

namespace LiteFan.History

open LiteFan.Api LiteFan.Time LiteFan.Schema LiteFan.Storage LiteFan.Store LiteFan.Consumer
open LiteFan.System LiteFan.Invariant LiteFan.Effect LiteFan.Step LiteFan.Preservation
open LiteFan.Lifecycle Relational

/-- The topics a filter accepts: all messages, or those with exactly its topic. -/
def Accepts (filter : Filter) (topic : Option String) : Prop :=
  match filter with
  | .all => True
  | .topic name => topic = some name

/-- The stored filter matches exactly the accepted topics. -/
theorem topicMatches_iff {filter : Filter} {topic : Option String} :
    topicMatches filter.asDatabaseValue topic = true ↔ Accepts filter topic := by
  cases filter with
  | all => exact iff_of_true rfl trivial
  | topic name => exact beq_iff_eq

/-- The event creates the identity with the filter. -/
def Opens (event : Event) (c : ℤ) (filter : Filter) : Prop :=
  ∃ name now, event.op = .openConsumer name filter now ∧
    event.reply = .ok (.opened ⟨c, name, filter⟩) ∧ event.before.consumers.lookup c = none

/-- The event is the drain call that froze the identity. -/
def Drains (event : Event) (c : ℤ) : Prop :=
  ∃ self now, event.op = .beginDraining self now ∧ self.id = c ∧ event.reply = .ok (.drained true)

/-- What a run so far says about the identities. -/
structure Recorded (events : List Event) (db : Db) : Prop where
  /-- A live row was opened with its filter. -/
  opened : ∀ c row, db.consumers.lookup c = some row → ∃ e ∈ events, ∃ filter, Opens e c filter
  /-- Whoever opened an identity chose its filter. -/
  filter : ∀ e ∈ events, ∀ c filter, Opens e c filter → c ≤ db.consumers.seq ∧
    ∀ row, db.consumers.lookup c = some row → row.topicFilter = filter.asDatabaseValue
  /-- Only identities handed out are drained. -/
  drained : ∀ e ∈ events, ∀ c, Drains e c → c ≤ db.consumers.seq
  /-- A live row is draining exactly when it was drained. -/
  draining : ∀ c row, db.consumers.lookup c = some row →
    (row.drainingAt.isSome = true ↔ ∃ e ∈ events, Drains e c)

section Steps

variable {event : Event} {c : ℤ}

/-- A created row is the one its open reports. -/
theorem opens_of_creates {row : ConsumerRow} (h : Creates event c row) :
    ∃ filter, Opens event c filter ∧ row.topicFilter = filter.asDatabaseValue ∧
      row.drainingAt = none := by
  obtain ⟨name, filter, now, hop, hreply, hfree, -, rfl⟩ := h
  exact ⟨filter, ⟨name, now, hop, hreply, hfree⟩, rfl, rfl⟩

/-- An identity an open reports as new is the next one, and its row is stored. -/
theorem opens_step (hv : system.valid event) (hinv : Inv event.before) {filter : Filter}
    (h : Opens event c filter) : c = event.before.consumers.seq + 1 ∧
      c ≤ event.after.consumers.seq ∧
      ∀ row, event.after.consumers.lookup c = some row →
        row.topicFilter = filter.asDatabaseValue := by
  have heffect := effect_of_valid hv hinv
  obtain ⟨name, now, hop, hreply, hfree⟩ := h
  obtain ⟨fan, op, before, after, reply⟩ := event
  dsimp only at heffect hinv hop hreply hfree ⊢
  subst hop hreply
  cases heffect with
  | idle hidle => exact absurd hidle id
  | created hname hnew =>
    have hseq : (openedDb before name filter now).consumers.seq = before.consumers.seq + 1 := rfl
    refine ⟨rfl, hseq.ge, fun row hrow => ?_⟩
    rw [lookup_openedDb, nextConsumer, if_pos rfl] at hrow
    cases hrow
    rfl
  | reopened hname hrow hfilter =>
    have hstored := (consumerNamed_some hrow).1
    rw [AutoTable.lookup_key hstored] at hfree
    cases hfree

/-- A drain call that returns true finds an active row and fixes its boundary. -/
theorem drains_step (hv : system.valid event) (hinv : Inv event.before) (h : Drains event c) :
    ∃ row now, event.before.consumers.lookup c = some row ∧ row.drainingAt = none ∧
      event.after.consumers.lookup c = some (startDraining now (highWater event.before) row) := by
  have heffect := effect_of_valid hv hinv
  obtain ⟨self, now, hop, hself, hreply⟩ := h
  obtain ⟨fan, op, before, after, reply⟩ := event
  dsimp only at heffect hinv hop hreply ⊢
  subst hop
  generalize hr : reply = r at heffect
  cases heffect with
  | rejected _ => rw [hreply] at hr; cases hr
  | idle hidle => exact absurd hidle id
  | drained =>
    rw [hreply] at hr
    have hchanges : drainChanges before self.id = true := by
      simp only [Except.ok.injEq, Reply.drained.injEq] at hr
      exact hr.symm
    obtain ⟨row, hrow, hactive⟩ := drainChanges_iff.mp hchanges
    rw [hself] at hrow
    refine ⟨row, now, hrow, hactive, ?_⟩
    have hlookup : (drainedDb before self.id now).consumers.lookup c =
        (before.consumers.lookup c).map
        (Table.rowUpdate (drainGuard self.id) (startDraining now (highWater before))) :=
      AutoTable.lookup_updateWhere _ _
    have hguard : drainGuard self.id row = true := by
      have hid := (AutoTable.lookup_eq_some.mp hrow).2
      simp only [drainGuard, hid, hself, hactive, beq_self_eq_true, Option.isNone_none,
        Bool.and_self]
    rw [hlookup, hrow, Option.map_some, Table.rowUpdate, if_pos hguard]

/-- A row step that is not a drain call keeps the state. -/
theorem draining_of_rowStep {row row' : ConsumerRow} (h : RowStep event c row row') :
    row'.drainingAt = row.drainingAt ∨ (Drains event c ∧ row'.drainingAt.isSome = true) := by
  cases h with
  | same => exact Or.inl rfl
  | claim _ _ _ _ => exact Or.inl rfl
  | @drain self now hop hself hreply hactive => exact Or.inr ⟨⟨self, now, hop, hself, hreply⟩, rfl⟩

/-- Identities handed out were stored under a key that is not reused. -/
theorem live_le_seq {db : Db} {row : ConsumerRow} (h : db.consumers.lookup c = some row) :
    c ≤ db.consumers.seq := by
  obtain ⟨hmem, hid⟩ := AutoTable.lookup_eq_some.mp h
  rw [← hid]
  exact db.consumers.key_le row hmem

/-- Nothing has been recorded of a fresh store. -/
theorem recorded_empty : Recorded [] Db.empty where
  opened c row h := by cases h
  filter e he := absurd he List.not_mem_nil
  drained e he := absurd he List.not_mem_nil
  draining c row h := by cases h

/-- Every event extends the record. -/
theorem recorded_step {past : List Event} (hv : system.valid event) (hinv : Inv event.before)
    (h : Recorded past event.before) : Recorded (past ++ [event]) event.after where
  opened c row' hrow' := by
    rcases row_step hv hinv hrow' with hcreates | ⟨row, hrow, -⟩
    · obtain ⟨filter, hopens, -⟩ := opens_of_creates hcreates
      exact ⟨event, List.mem_append_right _ (List.mem_singleton.mpr rfl), filter, hopens⟩
    · obtain ⟨e, he, hopens⟩ := h.opened c row hrow
      exact ⟨e, List.mem_append_left _ he, hopens⟩
  filter e he c filter hopens := by
    rcases List.mem_append.mp he with hpast | hlast
    · obtain ⟨hle, hfilter⟩ := h.filter e hpast c filter hopens
      refine ⟨hle.trans (consumers_seq_mono hv hinv), fun row' hrow' => ?_⟩
      rcases row_step hv hinv hrow' with hcreates | ⟨row, hrow, hstep⟩
      · obtain ⟨-, -, -, -, -, -, hnew, -⟩ := hcreates
        omega
      · exact hstep.keeps.2.2.1.trans (hfilter row hrow)
    · rw [List.mem_singleton.mp hlast] at hopens
      exact (opens_step hv hinv hopens).2
  drained e he c hdrains := by
    rcases List.mem_append.mp he with hpast | hlast
    · exact (h.drained e hpast c hdrains).trans (consumers_seq_mono hv hinv)
    · rw [List.mem_singleton.mp hlast] at hdrains
      obtain ⟨row, now, -, -, hafter⟩ := drains_step hv hinv hdrains
      exact live_le_seq hafter
  draining c row' hrow' := by
    have hlast : event ∈ past ++ [event] := List.mem_append_right _ (List.mem_singleton.mpr rfl)
    rcases row_step hv hinv hrow' with hcreates | ⟨row, hrow, hstep⟩
    · obtain ⟨filter, hopens, -, hactive⟩ := opens_of_creates hcreates
      have hnew := (opens_step hv hinv hopens).1
      refine iff_of_false (by rw [hactive]; exact Bool.false_ne_true) fun hdrained => ?_
      obtain ⟨e, he, hdrains⟩ := hdrained
      rcases List.mem_append.mp he with hpast | hlast
      · have hle := h.drained e hpast c hdrains
        omega
      · rw [List.mem_singleton.mp hlast] at hdrains
        obtain ⟨row, now, hbefore, -⟩ := drains_step hv hinv hdrains
        have hle := live_le_seq hbefore
        omega
    · have hold := h.draining c row hrow
      rcases draining_of_rowStep hstep with hsame | ⟨hdrains, hsome⟩
      · rw [hsame, hold]
        constructor
        · intro hdrained
          obtain ⟨e, he, hdrains⟩ := hdrained
          exact ⟨e, List.mem_append_left _ he, hdrains⟩
        · intro hdrained
          obtain ⟨e, he, hdrains⟩ := hdrained
          rcases List.mem_append.mp he with hpast | hlast
          · exact ⟨e, hpast, hdrains⟩
          · rw [List.mem_singleton.mp hlast] at hdrains
            obtain ⟨row₀, now, hbefore, hactive, hafter⟩ := drains_step hv hinv hdrains
            rw [hrow] at hbefore
            cases hbefore
            rw [hrow'] at hafter
            cases hafter
            rw [hactive] at hsame
            cases hsame
      · exact iff_of_true hsome ⟨event, hlast, hdrains⟩

end Steps

/-- The record of a run. -/
theorem recorded_run {events : List Event} {db : Db} (hrun : Run events db) :
    Recorded events db := by
  induction hrun with
  | nil => exact recorded_empty
  | snoc e hrun hv ih => exact recorded_step hv (inv_run hrun) ih

end LiteFan.History

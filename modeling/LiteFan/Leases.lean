import LiteFan.Lifecycle

/-!
# Leases exclude competing workers

A copy held until a deadline is not given out before it: only a release, or an
archive followed by a redrive, ends a hold early, and a later claim or an
extension only moves the deadline further. The clock is read before the writer
lock is taken and readings may come in any order, so the hold compares readings
and never assumes that time advances between events.
-/

namespace LiteFan.Leases

open LiteFan.Api LiteFan.Time LiteFan.Schema LiteFan.Storage LiteFan.Consumer LiteFan.System
open LiteFan.Invariant LiteFan.Effect LiteFan.Preservation LiteFan.Lifecycle Relational

/-- The copy, if it is leased at all, is leased at least until the deadline. -/
def HeldUntil (db : Db) (c m deadline : ℤ) : Prop :=
  Passed db c m ∧ ∀ v g n, copyOf db c m = .leased v g n → deadline ≤ v

/-- The event is a claim that returned the message to the consumer. -/
structure Returned (event : Event) (c m now leaseMs : ℤ) : Prop where
  claims : Claims event c now leaseMs
  message : ∃ granted, event.reply = .ok (.granted granted) ∧
    ∃ delivery ∈ granted.deliveries, delivery.message.id = m

variable {event : Event} {c m : ℤ}

/-- An event is a claim with one reading and one lease. -/
theorem Claims.unique {now now' leaseMs leaseMs' : ℤ} {c' : ℤ} (h : Claims event c now leaseMs)
    (h' : Claims event c' now' leaseMs') : c = c' ∧ now = now' ∧ leaseMs = leaseMs' := by
  obtain ⟨self, poll, hop, hself, hlease⟩ := h
  obtain ⟨self', poll', hop', hself', hlease'⟩ := h'
  rw [hop] at hop'
  cases hop'
  rw [hlease] at hlease'
  cases hlease'
  exact ⟨hself.symm.trans hself', rfl, rfl⟩

/-- A returned message comes with a receipt for it. -/
theorem Returned.grants {now leaseMs : ℤ} (hv : system.valid event) (hinv : Inv event.before)
    (h : Returned event c m now leaseMs) : ∃ g, Grants event ⟨c, m, g⟩ := by
  obtain ⟨⟨self, poll, hop, hself, hlease⟩, granted, hreply, delivery, hdelivery, hm⟩ := h
  have heffect := Step.effect_of_valid hv hinv
  obtain ⟨fan, op, before, after, reply⟩ := event
  dsimp only at heffect hinv hop hreply hlease
  subst hop hreply
  obtain ⟨_, _, _, -, deadline, row, hclaim, -, -, hid, hrow, rfl, rfl⟩ :=
    heffect.returning hdelivery
  cases hclaim
  refine ⟨delivery.receipt.generation, _, rfl, delivery, hdelivery, ?_⟩
  rcases mem_claimedDeliveries.mp hdelivery
    with ⟨d, hd, message, hmessage, rfl⟩ | ⟨message, hf, rfl⟩
  · have hid' : message.id = d.messageId := (AutoTable.lookup_eq_some.mp hmessage).2
    have hm : message.id = m := hm
    simp only [Receipt.mk.injEq]
    exact ⟨hid.symm.trans hself, hid'.symm.trans hm, trivial⟩
  · have hm : message.id = m := hm
    simp only [Receipt.mk.injEq]
    exact ⟨hid.symm.trans hself, hm, trivial⟩

/-- A hold survives every event that neither releases nor restores the copy. -/
theorem held_step {deadline : ℤ} (hv : system.valid event) (hinv : Inv event.before)
    (hnack : ¬Nacks event c m) (hredrive : ¬Redrives event c m)
    (h : HeldUntil event.before c m deadline) : HeldUntil event.after c m deadline := by
  obtain ⟨hpassed, hheld⟩ := h
  refine ⟨passed_step hv hinv hpassed, fun v' g' n' hafter => ?_⟩
  obtain ⟨act, hhappens, hstep⟩ := copy_step hv hinv c m
  rw [hafter] at hstep
  generalize hbefore : copyOf event.before c m = before at hstep
  cases hstep with
  | stay => exact hheld v' g' n' hbefore
  | first _ => exact absurd hhappens.2 hpassed.not_waiting
  | @retry now _ v g n hlease hvisible =>
    have hle := hheld v g n hbefore
    omega
  | nack _ => exact absurd hhappens hnack
  | extend visibleAt v g n =>
    have hle := hheld v g' n' hbefore
    exact hle.trans (le_max_left _ _)
  | redrive _ g => exact absurd hhappens hredrive

/-- Over events that neither release nor restore the copy a hold survives. -/
theorem held_run {events : List Event} {db db' : Db} {deadline : ℤ}
    (hrun : Transition.Run system db events db') (hinv : Inv db)
    (hnack : ∀ e ∈ events, ¬Nacks e c m) (hredrive : ∀ e ∈ events, ¬Redrives e c m)
    (h : HeldUntil db c m deadline) : HeldUntil db' c m deadline :=
  hrun.keeps (P := fun db => HeldUntil db c m deadline) hinv inv_event h
    fun e he hv hinv h => held_step hv hinv (hnack e he) (hredrive e he) h

/-- What a claim returned is held until its reading plus its lease. -/
theorem held_of_returned {now leaseMs : ℤ} (hv : system.valid event) (hinv : Inv event.before)
    (h : Returned event c m now leaseMs) : HeldUntil event.after c m (now + leaseMs) := by
  obtain ⟨g, hgrants⟩ := h.grants hv hinv
  obtain ⟨row, now', leaseMs', hgranted⟩ := grants_step hv hinv hgrants
  obtain ⟨-, hnow, hlease⟩ := Claims.unique h.claims hgranted.claims
  obtain ⟨n, hafter⟩ := hgranted.after
  refine ⟨passed_of_leased (inv_event event hv hinv) hafter, fun v' g' n' hcopy => ?_⟩
  have hcopy' : copyOf event.after c m = .leased (now' + leaseMs') g n := hafter
  rw [hcopy'] at hcopy
  cases hcopy
  omega

/-- A claim returns what is held only after the deadline of the hold. -/
theorem returned_after_hold {now leaseMs deadline : ℤ} (hv : system.valid event)
    (hinv : Inv event.before) (hheld : HeldUntil event.before c m deadline)
    (h : Returned event c m now leaseMs) : deadline ≤ now := by
  obtain ⟨g, hgrants⟩ := h.grants hv hinv
  obtain ⟨row, now', leaseMs', hgranted⟩ := grants_step hv hinv hgrants
  obtain ⟨-, hnow, -⟩ := Claims.unique h.claims hgranted.claims
  rcases hgranted.before with ⟨-, -, hwaiting⟩ | ⟨v, g', n, hcopy, -, hvisible⟩
  · exact absurd hwaiting hheld.1.not_waiting
  · have hle := hheld.2 v g' n hcopy
    omega

/-- A copy that is leased and later restored was archived in between. -/
theorem archived_before_redrive {events : List Event} {db db' : Db} {e : Event} {v g n : ℤ}
    (hrun : Transition.Run system db events db') (hinv : Inv db)
    (hleased : copyOf db c m = .leased v g n)
    (hbefore : e.before = db') (hredrives : Redrives e c m) :
    ∃ pre a post, events = pre ++ a :: post ∧ Archives a c m := by
  obtain ⟨-, -, -, -, -, -, -, archive, harchive, hc, hm, -⟩ := hredrives
  have hinv' : Inv db' := hrun.invariant hinv inv_event
  rw [hbefore] at harchive
  have harchived := (copyOf_archived hinv').mpr ⟨archive, harchive, hc, hm, rfl⟩
  have hnot : ¬∃ g, copyOf db c m = .archived g := by
    intro h
    obtain ⟨g', hg'⟩ := h
    rw [hleased] at hg'
    cases hg'
  obtain ⟨pre, a, post, rfl, hno, hyes⟩ :=
    hrun.exists_gain (P := fun db => ∃ g, copyOf db c m = .archived g) hnot ⟨_, harchived⟩
  obtain ⟨hpre, hv, -⟩ := hrun.around
  have hinvA : Inv (system.before a) := hpre.invariant hinv inv_event
  refine ⟨pre, a, post, rfl, ?_⟩
  obtain ⟨act, hhappens, hstep⟩ := copy_step hv hinvA c m
  obtain ⟨g', hg'⟩ := hyes
  have hafter : copyOf a.after c m = .archived g' := hg'
  rw [hafter] at hstep
  generalize hcopy : copyOf a.before c m = before at hstep
  cases hstep with
  | stay => exact absurd ⟨g', hcopy⟩ hno
  | archive v g n => exact hhappens

/-- A message is returned twice to a consumer only after a release in between,
after an archive and a redrive in between, or once the first lease and every
extension between the two claims are over. No extension shortens a lease. -/
theorem lease_exclusive {pre mid post : List Event} {a b : Event} {db : Db}
    {nowA leaseA nowB leaseB : ℤ} (hrun : Run (pre ++ a :: (mid ++ b :: post)) db)
    (hA : Returned a c m nowA leaseA) (hB : Returned b c m nowB leaseB) :
    ((∃ e ∈ mid, Nacks e c m) ∨
      (∃ first x second y third, mid = first ++ x :: (second ++ y :: third) ∧ Archives x c m ∧
        Redrives y c m) ∨
      (nowA + leaseA ≤ nowB ∧ ∀ e ∈ mid, ∀ visibleAt, Extends e c m visibleAt → visibleAt ≤ nowB)) ∧
    ∀ e ∈ pre ++ a :: (mid ++ b :: post), ∀ c' m' visibleAt, Extends e c' m' visibleAt →
      ∃ v v' g n, copyOf e.before c' m' = .leased v g n ∧ copyOf e.after c' m' = .leased v' g n ∧
        v ≤ v' ∧ visibleAt ≤ v' := by
  refine ⟨?_, ?_⟩
  · obtain ⟨hpre, hvA, hrest⟩ := hrun.around
    have hinvA : Inv a.before := hpre.invariant inv_empty inv_event
    have hinvA' : Inv a.after := inv_event a hvA hinvA
    obtain ⟨hmid, hvB, -⟩ := hrest.around
    have hinvB : Inv b.before := hmid.invariant hinvA' inv_event
    by_cases hnack : ∃ e ∈ mid, Nacks e c m
    · exact Or.inl hnack
    · have hnoNack : ∀ e ∈ mid, ¬Nacks e c m := fun e he h => hnack ⟨e, he, h⟩
      by_cases hredrive : ∃ e ∈ mid, Redrives e c m
      · obtain ⟨y, hy, hredrives⟩ := hredrive
        obtain ⟨before, third, rfl⟩ := List.append_of_mem hy
        obtain ⟨hbefore, -, -⟩ := hmid.around
        obtain ⟨g, hgrants⟩ := hA.grants hvA hinvA
        obtain ⟨row, now, leaseMs, hgranted⟩ := grants_step hvA hinvA hgrants
        obtain ⟨n, hleased⟩ := hgranted.after
        obtain ⟨first, x, second, rfl, harchives⟩ :=
          archived_before_redrive hbefore hinvA' hleased rfl hredrives
        refine Or.inr (Or.inl ⟨first, x, second, y, third, ?_, harchives, hredrives⟩)
        simp only [List.append_assoc, List.cons_append]
      · have hnoRedrive : ∀ e ∈ mid, ¬Redrives e c m := fun e he h => hredrive ⟨e, he, h⟩
        have hheldA := held_of_returned hvA hinvA hA
        have hheldB := held_run hmid hinvA' hnoNack hnoRedrive hheldA
        refine Or.inr (Or.inr ⟨returned_after_hold hvB hinvB hheldB hB,
          fun e he visibleAt hextends => ?_⟩)
        obtain ⟨first, last, rfl⟩ := List.append_of_mem he
        obtain ⟨hfirst, hvE, hlast⟩ := hmid.around
        have hinvE : Inv e.before := hfirst.invariant hinvA' inv_event
        have hinvE' : Inv e.after := inv_event e hvE hinvE
        obtain ⟨v, g, n, -, hafter⟩ := extends_step hvE hinvE hextends
        have hheldE : HeldUntil e.after c m visibleAt := by
          refine ⟨passed_of_leased hinvE' hafter, fun v' g' n' hcopy => ?_⟩
          rw [hafter] at hcopy
          cases hcopy
          exact le_max_right _ _
        have hheld := held_run hlast hinvE'
          (fun e he => hnoNack e (List.mem_append_right _ (List.mem_cons_of_mem _ he)))
          (fun e he => hnoRedrive e (List.mem_append_right _ (List.mem_cons_of_mem _ he))) hheldE
        exact returned_after_hold hvB hinvB hheld hB
  · intro e he c' m' visibleAt hextends
    obtain ⟨first, last, hsplit⟩ := List.append_of_mem he
    have hrun' := hrun
    rw [hsplit] at hrun'
    obtain ⟨hfirst, hvE, -⟩ := hrun'.around
    have hinvE : Inv e.before := hfirst.invariant inv_empty inv_event
    obtain ⟨v, g, n, hbefore, hafter⟩ := extends_step hvE hinvE hextends
    exact ⟨v, _, g, n, hbefore, hafter, le_max_left _ _, le_max_right _ _⟩

/-- A message is leased until 1, extended until 5 and leased again at 5. -/
def extendedOps : List Op :=
  [.openConsumer "jobs" .all 0, .publishBatch [⟨none, [7], none⟩] 0, .claim firstHandle pollOne 0,
    .extendVisibilityBatch firstHandle [⟨1, 1, 1⟩] 5000000 0, .claim firstHandle pollOne 5]

/-- One event of the operations above. -/
def extendedEvent (i : ℕ) : Event :=
  perform Engine.inOrder Inner.default (extendedOps.getD i (.beginDraining firstHandle 0))
    (outcomeDb Engine.inOrder Inner.default (extendedOps.take i) Db.empty)

set_option maxRecDepth 10000 in
/-- The two claims around an extension. -/
theorem lease_exclusive_extended :
    ((∃ e ∈ [extendedEvent 3], Nacks e 1 1) ∨
      (∃ first x second y third, [extendedEvent 3] = first ++ x :: (second ++ y :: third) ∧
        Archives x 1 1 ∧ Redrives y 1 1) ∨
      ((0 : ℤ) + 1 ≤ 5 ∧ ∀ e ∈ [extendedEvent 3], ∀ visibleAt, Extends e 1 1 visibleAt →
        visibleAt ≤ 5)) ∧
    ∀ e ∈ [extendedEvent 0, extendedEvent 1] ++
        extendedEvent 2 :: ([extendedEvent 3] ++ extendedEvent 4 :: []),
      ∀ c' m' visibleAt, Extends e c' m' visibleAt →
      ∃ v v' g n, copyOf e.before c' m' = .leased v g n ∧ copyOf e.after c' m' = .leased v' g n ∧
        v ≤ v' ∧ visibleAt ≤ v' := by
  have hrun : Run ([extendedEvent 0, extendedEvent 1] ++ extendedEvent 2 ::
      ([extendedEvent 3] ++ extendedEvent 4 :: []))
      (outcomeDb Engine.inOrder Inner.default extendedOps Db.empty) :=
    trace_run Engine.inOrder Inner.default extendedOps Db.empty
  have hfirst : Returned (extendedEvent 2) 1 1 0 1 :=
    ⟨⟨firstHandle, pollOne, rfl, rfl, rfl⟩,
      ⟨[⟨⟨1, none, [7], 0⟩, 1, ⟨1, 1, 1⟩⟩], false⟩, rfl, _, List.mem_singleton.mpr rfl, rfl⟩
  have hsecond : Returned (extendedEvent 4) 1 1 5 1 :=
    ⟨⟨firstHandle, pollOne, rfl, rfl, rfl⟩,
      ⟨[⟨⟨1, none, [7], 0⟩, 2, ⟨1, 1, 2⟩⟩], false⟩, rfl, _, List.mem_singleton.mpr rfl, rfl⟩
  exact lease_exclusive hrun hfirst hsecond

end LiteFan.Leases

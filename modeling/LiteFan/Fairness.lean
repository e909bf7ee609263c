import LiteFan.Inbox
import LiteFan.Returned
import LiteFan.Relational.Turns
import LiteFan.Transition.Potential

/-!
# Nobody in line is passed over

The retries of a consumer stand in line by deadline and message. Once the clock
is past the deadline of a delivery, nothing that happens puts another delivery
in front of it, and every claim takes its batch from the front. So the delivery
is taken as soon as the claims together have asked for more than stood in front
of it, unless a holder of its lease settles it or its identity goes first.
-/

namespace LiteFan.Fairness

open LiteFan.Api LiteFan.Time LiteFan.Schema LiteFan.Storage LiteFan.Store LiteFan.Consumer
open LiteFan.System LiteFan.Invariant LiteFan.Effect LiteFan.Step LiteFan.Preservation
open LiteFan.Lifecycle LiteFan.Returned LiteFan.Inbox Relational

/-- Where a delivery stands in line. -/
def turn (d : DeliveryRow) : ℤ ×ₗ ℤ := toLex (d.visibleAt, d.messageId)

/-- How many deliveries of the same consumer stand in front of a delivery. -/
def inFront (db : Db) (d : DeliveryRow) : ℕ :=
  ahead turn (deliveriesOf db d.consumerId) (turn d)

/-- The clock reading a transaction sets a deadline by. -/
def reading : Op → Option ℤ
  | .claim _ _ now | .nackBatch _ _ _ now | .extendVisibilityBatch _ _ _ now
  | .redriveBatch _ _ _ now => some now
  | .openConsumer .. | .publishBatch .. | .ackBatch .. | .archiveBatch .. | .purgeArchives ..
  | .beginDraining .. | .deleteConsumer .. | .pruneMessages _ => none

/-- The event does not happen through the delivery's consumer before its deadline has passed. -/
def Late (d : DeliveryRow) (event : Event) : Prop :=
  ∀ handle now, System.through event.op = some handle → handle.id = d.consumerId →
    reading event.op = some now → d.visibleAt < now

/-- The deliveries a committed claim of the consumer asked for. -/
def asked (c : ℤ) (event : Event) : ℕ :=
  match event.op, event.reply with
  | .claim handle poll _, .ok (.granted _) => if handle.id = c then poll.maxMessages else 0
  | _, _ => 0

/-- What takes a delivery out of its place: a claim returns it, a holder of its lease presents
the receipt, or its identity is deleted. -/
inductive Takes (event : Event) (d : DeliveryRow) : Prop
  | returned (h : returns d.consumerId d.messageId event = true)
  | acked (h : Acks event d.consumerId d.messageId)
  | nacked (h : Nacks event d.consumerId d.messageId)
  | extended (visibleAt : ℤ) (h : Extends event d.consumerId d.messageId visibleAt)
  | archived (h : Archives event d.consumerId d.messageId)
  | deleted (h : Deletes event d.consumerId)

section Step

variable {fan : Inner} {db db' : Db} {op : Op} {reply : Except Error Reply} {d b : DeliveryRow}
  {event : Event}

/-- A delivery that leaves its place is taken. -/
theorem takes_of_leaves (hv : system.valid event) (hinv : Inv event.before)
    (hd : d ∈ event.before.deliveries) (hgone : d ∉ event.after.deliveries) : Takes event d := by
  obtain ⟨act, hcause, hstep⟩ := copy_step hv hinv d.consumerId d.messageId
  have hbefore := copyOf_delivery hd
  have hmoved : copyOf event.after d.consumerId d.messageId ≠
      copyOf event.before d.consumerId d.messageId := fun hsame =>
    hgone (copyOf_leased.mp (hsame.trans hbefore))
  cases act with
  | stay =>
    have hstay : ∀ s s', Copy.Step .stay s s' → s' = s := fun _ _ h => by
      cases h
      rfl
    exact absurd (hstay _ _ hstep) hmoved
  | first now deadline =>
    rw [hbefore] at hstep
    cases hstep
  | retry now deadline => exact .returned (returns_of_claims hv hinv hcause hmoved)
  | ack => exact .acked hcause
  | nack visibleAt => exact .nacked hcause
  | extend visibleAt => exact .extended visibleAt hcause
  | archive => exact .archived hcause
  | redrive visibleAt =>
    rw [hbefore] at hstep
    cases hstep
  | purge =>
    rw [hbefore] at hstep
    cases hstep
  | discard => exact .deleted hcause

/-- Nothing late comes to stand at or before a deadline that has passed. -/
theorem old_of_early (heffect : Effect fan db op db' reply) (hinv : Inv db)
    (hlate : ∀ handle now, System.through op = some handle → handle.id = d.consumerId →
      reading op = some now → d.visibleAt < now)
    (hb : b ∈ db'.deliveries) (hc : b.consumerId = d.consumerId)
    (hearly : b.visibleAt ≤ d.visibleAt) : b ∈ db.deliveries := by
  by_cases hother : ∃ handle, System.through op = some handle ∧ handle.id ≠ d.consumerId
  · obtain ⟨handle, hthrough, hne⟩ := hother
    obtain ⟨-, -, huntouched⟩ := untouched_effect heffect hinv hthrough
    have hsame := (huntouched d.consumerId (Ne.symm hne)).deliveries
    have hmem : b ∈ deliveriesOf db' d.consumerId := mem_deliveriesOf.mpr ⟨hb, hc⟩
    rw [hsame] at hmem
    exact (mem_deliveriesOf.mp hmem).1
  · have hown : ∀ handle, System.through op = some handle → handle.id = d.consumerId :=
      fun handle hthrough => not_not.mp fun hne => hother ⟨handle, hthrough, hne⟩
    have hpast : ∀ handle now, System.through op = some handle → reading op = some now →
        b.visibleAt < now := fun handle now hthrough hreading =>
      hearly.trans_lt (hlate handle now hthrough (hown handle hthrough) hreading)
    cases heffect with
    | rejected _ => exact hb
    | idle _ => exact hb
    | created _ _ => exact hb
    | reopened _ _ _ => exact hb
    | @published messages now _ =>
      obtain ⟨-, -, hdeliveries, -⟩ := ledgerAt_parts now db messages
      exact hdeliveries ▸ hb
    | @granted handle poll now leaseMs deadline row hlease _ hrow hdeadline =>
      have hlt := hpast handle now rfl rfl
      have hspan := (deadline_of_lease hlease hdeadline).1
      rcases (mem_claimedDb hinv hrow).mp hb with ⟨message, -, rfl⟩ | ⟨hold, -⟩ | ⟨a, -, rfl⟩
      · have hvisible : deadline < now := hlt
        omega
      · exact hold
      · have hvisible : deadline < now := hlt
        omega
    | acked _ _ => exact (Table.mem_deleteWhere.mp hb).1
    | @nacked handle receipts retry now visibleAt _ _ hvisible =>
      have hlt := hpast handle now rfl rfl
      obtain ⟨a, ha, rfl⟩ := mem_touched.mp hb
      rcases touch_nackRow handle.id visibleAt (chunks receiptsPerChunk receipts) a with
        ⟨hsame, -⟩ | ⟨-, generation, -, hmoved⟩
      · exact hsame.symm ▸ ha
      · rw [hmoved] at hlt
        have hsum := addDuration_ok hvisible
        have hlt : visibleAt < now := hlt
        omega
    | @extended handle receipts timeout now ms visibleAt _ _ _ _ hvisible =>
      have hlt := hpast handle now rfl rfl
      obtain ⟨a, ha, rfl⟩ := mem_touched.mp hb
      rw [touch_extendRow, Table.rowUpdate] at hlt ⊢
      split_ifs at hlt ⊢
      · have hsum := addDuration_ok hvisible
        have hlt : max a.visibleAt visibleAt < now := hlt
        have hmax := le_max_right a.visibleAt visibleAt
        omega
      · exact ha
    | archived _ _ => exact (Table.mem_deleteWhere.mp hb).1
    | @redriven handle archiveIds retry now visibleAt _ _ hvisible =>
      have hlt := hpast handle now rfl rfl
      rcases (mem_redrivenDb hinv).mp hb with hnew | hold
      · obtain ⟨a, -, -, rfl⟩ := mem_redrivenRows.mp hnew
        have hsum := addDuration_ok hvisible
        have hlt : visibleAt < now := hlt
        omega
      · exact hold
    | purged => exact hb
    | drained => exact hb
    | deleted _ _ => exact (Table.mem_deleteWhere.mp hb).1
    | pruned => exact hb

/-- The places in line of one consumer's deliveries differ. -/
theorem turns_nodup (db : Db) (c : ℤ) : ((deliveriesOf db c).map turn).Nodup := by
  refine List.Nodup.map_on ?_ (db.deliveries.select_nodup _)
  intro a ha b hb hsame
  obtain ⟨ha, hac⟩ := mem_deliveriesOf.mp ha
  obtain ⟨hb, hbc⟩ := mem_deliveriesOf.mp hb
  have hparts : (a.visibleAt, a.messageId) = (b.visibleAt, b.messageId) := toLex_inj.mp hsame
  exact Table.eq_of_key ha hb (key_eq_iff.mpr ⟨hac.trans hbc.symm, (Prod.mk.inj hparts).2⟩)

/-- Whoever stands in front is due no later. -/
theorem early_of_front (h : turn b < turn d) : b.visibleAt ≤ d.visibleAt := by
  rcases (Prod.Lex.toLex_lt_toLex).mp h with hlt | ⟨heq, -⟩
  · exact hlt.le
  · exact heq.le

/-- A claim that leaves a due delivery behind takes a full batch from in front of it. -/
theorem visible_in_front {now : ℤ} {limit : ℕ} (hd : d ∈ db.deliveries)
    (hdue : d.visibleAt ≤ now) (hleft : d ∉ selectVisible db d.consumerId now limit) :
    (selectVisible db d.consumerId now limit).length = limit ∧
      ∀ a ∈ selectVisible db d.consumerId now limit,
        a ∈ deliveriesOf db d.consumerId ∧ turn a < turn d := by
  have hn : ((db.deliveries.select fun a =>
      a.consumerId == d.consumerId && decide (a.visibleAt ≤ now)).map turn).Nodup := by
    refine List.Nodup.sublist (List.Sublist.map turn ?_) (turns_nodup db d.consumerId)
    refine List.monotone_filter_right _ fun a ha => ?_
    exact (Bool.and_eq_true_iff.mp ha).1
  have hmem : d ∈ db.deliveries.select fun a =>
      a.consumerId == d.consumerId && decide (a.visibleAt ≤ now) :=
    Table.mem_select.mpr ⟨hd, by simp [hdue]⟩
  obtain ⟨hlength, hfront⟩ := taken_ahead hn hmem hleft
  refine ⟨hlength, fun a ha => ?_⟩
  obtain ⟨hstored, hlt⟩ := hfront a ha
  obtain ⟨hstored, hown⟩ := Table.mem_select.mp hstored
  exact ⟨mem_deliveriesOf.mpr ⟨hstored, beq_iff_eq.mp (Bool.and_eq_true_iff.mp hown).1⟩, hlt⟩

/-- Only a committed claim of the consumer asks for deliveries. -/
theorem asked_claim {c : ℤ} (h : asked c event ≠ 0) :
    ∃ handle poll now granted, event.op = .claim handle poll now ∧
      event.reply = .ok (.granted granted) ∧ handle.id = c ∧ asked c event = poll.maxMessages := by
  obtain ⟨fan, op, before, after, reply⟩ := event
  cases op with
  | claim handle poll now =>
    cases reply with
    | error err => exact absurd rfl h
    | ok reply =>
      cases reply with
      | granted granted =>
        have hasked : asked c ⟨fan, .claim handle poll now, before, after, .ok (.granted granted)⟩ =
            if handle.id = c then poll.maxMessages else 0 := rfl
        by_cases hc : handle.id = c
        · rw [if_pos hc] at hasked
          exact ⟨handle, poll, now, granted, rfl, rfl, hc, hasked⟩
        · rw [if_neg hc] at hasked
          exact absurd hasked h
      | _ => exact absurd rfl h
  | _ => exact absurd rfl h

/-- An event that leaves a delivery in its place takes as many from in front of it as the
consumer's claim asked for. -/
theorem front_step (hv : system.valid event) (hinv : Inv event.before) (hlate : Late d event)
    (hstays : d ∈ event.after.deliveries) :
    inFront event.after d + asked d.consumerId event ≤ inFront event.before d := by
  have heffect := effect_of_valid hv hinv
  have hold : ∀ b ∈ deliveriesOf event.after d.consumerId, turn b < turn d →
      b ∈ deliveriesOf event.before d.consumerId := by
    intro b hb hfront
    obtain ⟨hstored, hc⟩ := mem_deliveriesOf.mp hb
    have hearly := early_of_front hfront
    exact mem_deliveriesOf.mpr ⟨old_of_early heffect hinv hlate hstored hc hearly, hc⟩
  have hbefore := old_of_early heffect hinv hlate hstays rfl le_rfl
  have hnodup : (deliveriesOf event.after d.consumerId).Nodup :=
    event.after.deliveries.select_nodup _
  -- an event that is no claim of this consumer lets nobody come in front
  have hquiet : asked d.consumerId event = 0 →
      inFront event.after d + asked d.consumerId event ≤ inFront event.before d := by
    intro hzero
    rw [hzero]
    exact ahead_add_taken hnodup List.nodup_nil
      (fun b hb hfront => ⟨hold b hb hfront, List.not_mem_nil⟩) (by simp)
  by_cases hzero : asked d.consumerId event = 0
  · exact hquiet hzero
  · obtain ⟨handle, poll, now, granted, hop, hreply, hown, hasked⟩ := asked_claim hzero
    have hlt : d.visibleAt < now := hlate handle now (by rw [hop]; rfl) hown (by rw [hop]; rfl)
    rw [hasked]
    obtain ⟨fan, op, before, after, reply⟩ := event
    dsimp only at heffect hinv hstays hold hbefore hnodup hop hreply ⊢
    subst hop hreply
    cases heffect with
    | idle hidle =>
      rw [hidle.1]
      exact ahead_add_taken hnodup List.nodup_nil
        (fun b hb hfront => ⟨hold b hb hfront, List.not_mem_nil⟩) (by simp)
    | @granted _ _ _ leaseMs deadline row hlease hid hrow hdeadline =>
      have hc : row.id = d.consumerId := hid.symm.trans hown
      have hspan := (deadline_of_lease hlease hdeadline).1
      -- a row with its old deadline was not leased again
      have hkept : ∀ b ∈ (claimedDb before row now deadline poll.maxMessages).deliveries,
          b.visibleAt ≤ d.visibleAt →
            b ∉ selectVisible before d.consumerId now poll.maxMessages := by
        intro b hb hearly hpicked
        rcases (mem_claimedDb hinv hrow).mp hb with ⟨message, -, rfl⟩ | ⟨-, hnot⟩ | ⟨a, ha, rfl⟩
        · have hvisible : deadline ≤ d.visibleAt := hearly
          omega
        · exact hnot (hc ▸ hpicked)
        · have hvisible : deadline ≤ d.visibleAt := hearly
          omega
      obtain ⟨hfull, hfront⟩ := visible_in_front hbefore hlt.le (hkept d hstays le_rfl)
      have hmoves := ahead_add_taken hnodup
        (selectVisible_nodup before d.consumerId now poll.maxMessages)
        (fun b hb hlt => ⟨hold b hb hlt,
          hkept b (mem_deliveriesOf.mp hb).1 (early_of_front hlt)⟩) hfront
      rw [hfull] at hmoves
      exact hmoves

end Step

section Runs

variable {past later : List Event} {db db' : Db} {d : DeliveryRow}

/-- A delivery that is still in its place has moved up by all that was asked for since. -/
theorem front_run (hinv : Inv db) (hlater : Transition.Run system db later db')
    (hlate : ∀ event ∈ later, Late d event) (hstays : d ∈ db'.deliveries) :
    inFront db' d + (later.map (asked d.consumerId)).sum ≤ inFront db d := by
  refine hlater.spends (P := fun db => d ∈ db.deliveries) (fun db => inFront db d)
    (asked d.consumerId) hinv hstays inv_event (fun event he hv hi hafter => ?_)
    fun event he hv hi hafter => ?_
  · exact old_of_early (effect_of_valid hv hi) hi (hlate event he) hafter rfl le_rfl
  · exact front_step hv hi (hlate event he) hafter

/-- From any reachable state, once the clock is past the deadline of a delivery, claims that
together ask for more than stands in front of it do not leave it in its place: it is taken, and
no later than when they have asked for that many. -/
theorem served_in_turn (hrun : Run past db) (hd : d ∈ db.deliveries)
    (hlater : Transition.Run system db later db') (hlate : ∀ event ∈ later, Late d event)
    (henough : inFront db d < (later.map (asked d.consumerId)).sum) :
    ∃ before event after, later = before ++ event :: after ∧ d ∈ event.before.deliveries ∧
      Takes event d ∧ (before.map (asked d.consumerId)).sum ≤ inFront db d := by
  have hinv := inv_run hrun
  by_cases hstays : d ∈ db'.deliveries
  · have hbound := front_run hinv hlater hlate hstays
    omega
  · obtain ⟨before, event, after, rfl, hhere, hgone⟩ :=
      hlater.exists_gain (P := fun db => d ∉ db.deliveries) (not_not.mpr hd) hstays
    have hhere : d ∈ event.before.deliveries := not_not.mp hhere
    obtain ⟨hbefore, hv, -⟩ := hlater.around
    have hinv' : Inv event.before := hbefore.invariant hinv inv_event
    have hbound := front_run hinv hbefore
      (fun other hother => hlate other (List.mem_append_left _ hother)) hhere
    refine ⟨before, event, after, rfl, hhere, takes_of_leaves hv hinv' hhere hgone, ?_⟩
    exact (Nat.le_add_left _ _).trans hbound

/-- Three messages leased for a millisecond each. -/
def lapsedOps : List Op :=
  [.openConsumer "jobs" .all 0,
    .publishBatch [⟨none, [7], none⟩, ⟨none, [8], none⟩, ⟨none, [9], none⟩] 0,
    .claim firstHandle ⟨3, 1000000, 0⟩ 0]

/-- Claims of one message each after the leases have lapsed. -/
def lateOps : List Op :=
  [.claim firstHandle pollOne 5, .claim firstHandle pollOne 5, .claim firstHandle pollOne 5]

set_option maxRecDepth 10000 in
/-- The last of the three is taken within three claims. -/
theorem served_in_turn_third :
    ∃ before event after, trace Engine.inOrder Inner.default lateOps
        (outcomeDb Engine.inOrder Inner.default lapsedOps Db.empty) = before ++ event :: after ∧
      ⟨1, 3, 1, 1, 1⟩ ∈ event.before.deliveries ∧ Takes event ⟨1, 3, 1, 1, 1⟩ ∧
      (before.map (asked 1)).sum ≤ 2 := by
  have hd : (⟨1, 3, 1, 1, 1⟩ : DeliveryRow) ∈
      (outcomeDb Engine.inOrder Inner.default lapsedOps Db.empty).deliveries := by
    change _ ∈ [(⟨1, 1, 1, 1, 1⟩ : DeliveryRow), ⟨1, 2, 1, 1, 1⟩, ⟨1, 3, 1, 1, 1⟩]
    decide
  refine served_in_turn (trace_run Engine.inOrder Inner.default lapsedOps Db.empty) hd
    (trace_run Engine.inOrder Inner.default lateOps _) ?_ ?_
  · intro event he handle now hthrough hown hreading
    have hop := op_of_mem_trace he
    simp only [lateOps, List.mem_cons, List.not_mem_nil, or_false, or_self] at hop
    rw [hop] at hreading
    cases hreading
    decide
  · change 2 < 3
    decide

end Runs

end LiteFan.Fairness

import LiteFan.FanOut

/-!
# What polls have returned

A claim that leases anything ends its poll with that batch, so the replies of
claims are the results of polls. A returned copy was waiting in the log or was
leased before, its row carries the count it was returned with, and a copy no
claim returned keeps the count it had.
-/

namespace LiteFan.Returned

open LiteFan.Api LiteFan.Time LiteFan.Schema LiteFan.Storage LiteFan.Store LiteFan.Consumer
open LiteFan.System LiteFan.Invariant LiteFan.Effect LiteFan.Step LiteFan.Preservation
open LiteFan.Lifecycle LiteFan.History LiteFan.FanOut Relational

/-- The deliveries a claim of the consumer returned. -/
def returned (c : ℤ) (event : Event) : List Delivery :=
  match event.op, event.reply with
  | .claim self _ _, .ok (.granted granted) => if self.id = c then granted.deliveries else []
  | _, _ => []

/-- Whether the event returned the message to the consumer. -/
def returns (c m : ℤ) (event : Event) : Bool :=
  (returned c event).any fun delivery => delivery.message.id == m

section Steps

variable {event : Event} {c m : ℤ}

/-- The message is among the returned ones. -/
theorem returns_iff : returns c m event = true ↔
    ∃ delivery ∈ returned c event, delivery.message.id = m := by
  simp only [returns, List.any_eq_true, beq_iff_eq]

/-- Only a claim of the consumer returns something to it. -/
theorem returned_claim {delivery : Delivery} (h : delivery ∈ returned c event) :
    ∃ self poll now granted, event.op = .claim self poll now ∧
      event.reply = .ok (.granted granted) ∧ self.id = c ∧ delivery ∈ granted.deliveries := by
  obtain ⟨fan, op, before, after, reply⟩ := event
  unfold returned at h
  dsimp only at h ⊢
  split at h
  · rename_i self poll now granted
    by_cases hc : self.id = c
    · rw [if_pos hc] at h
      exact ⟨self, poll, now, granted, rfl, rfl, hc, h⟩
    · rw [if_neg hc] at h
      exact absurd h List.not_mem_nil
  · exact absurd h List.not_mem_nil

/-- A committed claim returns its deliveries to its consumer. -/
theorem returned_granted {self : Consumer} {options : Poll} {now : ℤ} {granted : Granted}
    (hop : event.op = .claim self options now) (hreply : event.reply = .ok (.granted granted))
    (hself : self.id = c) : returned c event = granted.deliveries := by
  rw [returned, hop, hreply]
  exact if_pos hself

/-- A poll result lists messages in strictly increasing order. -/
theorem returned_sorted (hv : system.valid event) (hinv : Inv event.before) (c : ℤ) :
    ((returned c event).map fun delivery => delivery.message.id).Pairwise (· < ·) := by
  rcases List.eq_nil_or_concat (returned c event) with hnil | ⟨init, last, hconcat⟩
  · rw [hnil]
    exact List.Pairwise.nil
  · have hlast : last ∈ returned c event := by rw [hconcat]; simp
    obtain ⟨self, poll, now, granted, hop, hreply, hself, -⟩ := returned_claim hlast
    rw [returned_granted hop hreply hself]
    have heffect := effect_of_valid hv hinv
    obtain ⟨fan, op, before, after, reply⟩ := event
    dsimp only at heffect hinv hop hreply
    subst hop hreply
    cases heffect with
    | idle hidle =>
      have hnil : granted = ⟨[], false⟩ := by simpa using hidle.2
      rw [hnil]
      exact List.Pairwise.nil
    | granted hlease hid hrow hdeadline =>
      exact List.pairwise_map.mpr (claimedDeliveries_sorted hinv hrow _ _ _)

/-- What a returned delivery says about its copy. -/
structure Leases (event : Event) (c : ℤ) (row : ConsumerRow) (delivery : Delivery) : Prop where
  live : event.before.consumers.lookup c = some row
  receipt : delivery.receipt.consumerId = c ∧ delivery.receipt.messageId = delivery.message.id
  /-- The message is the stored one. -/
  stored : delivery.message ∈ event.before.messages
  /-- The copy's row carries the generation and the count that were returned. -/
  after : ∃ v, copyOf event.after c delivery.message.id =
    .leased v delivery.receipt.generation delivery.deliveryCount
  /-- The copy was still in the log, or was leased with one less. -/
  before : (copyOf event.before c delivery.message.id = .absent ∧
      row.scanCursor < delivery.message.id ∧ delivery.deliveryCount = 1) ∨
    ∃ v g n, copyOf event.before c delivery.message.id = .leased v g n ∧
      (delivery.deliveryCount : ℤ) = n + 1

/-- A returned copy was waiting or leased, and is leased with the count returned. -/
theorem returned_step (hv : system.valid event) (hinv : Inv event.before) {delivery : Delivery}
    (h : delivery ∈ returned c event) : ∃ row, Leases event c row delivery := by
  obtain ⟨self, poll, now, granted, hop, hreply, rfl, hmem⟩ := returned_claim h
  have heffect := effect_of_valid hv hinv
  obtain ⟨fan, op, before, after, reply⟩ := event
  dsimp only at heffect hinv hop hreply
  subst hop hreply
  obtain ⟨_, _, _, -, deadline, row, hclaim, -, -, hid, hrow, rfl, rfl⟩ := heffect.returning hmem
  cases hclaim
  rw [hid]
  rcases mem_claimedDeliveries.mp hmem
    with ⟨d, hd, message, hmessage, rfl⟩ | ⟨message, hfresh, rfl⟩
  · obtain ⟨hstored, hc, -⟩ := mem_selectVisible hd
    obtain ⟨hlogged, hkey⟩ := AutoTable.lookup_eq_some.mp hmessage
    have hcount : 0 ≤ d.deliveryCount := (hinv.delivery_counts d hstored).2
    have hnat : ((d.deliveryCount + 1).toNat : ℤ) = d.deliveryCount + 1 := by omega
    have hafter : releaseUntil deadline d ∈
        (claimedDb before row now deadline poll.maxMessages).deliveries :=
      (mem_claimedDb hinv hrow).mpr (Or.inr (Or.inr ⟨d, hd, rfl⟩))
    refine ⟨row, hrow, ⟨rfl, hkey.symm⟩, hlogged, ⟨deadline, ?_⟩, Or.inr ?_⟩
    · have hcopy := copyOf_delivery hafter
      have hc' : (releaseUntil deadline d).consumerId = row.id := hc
      have hm' : (releaseUntil deadline d).messageId = message.id := hkey.symm
      rw [hc', hm'] at hcopy
      dsimp only
      rw [hcopy, hnat]
      rfl
    · have hcopy := copyOf_delivery hstored
      rw [hc, ← hkey] at hcopy
      exact ⟨_, _, _, hcopy, hnat⟩
  · obtain ⟨hlogged, hbeyond, -⟩ := mem_freshMessages hfresh
    have hafter : firstLease row.id deadline message.id ∈
        (claimedDb before row now deadline poll.maxMessages).deliveries :=
      (mem_claimedDb hinv hrow).mpr (Or.inl ⟨message, hfresh, rfl⟩)
    refine ⟨row, hrow, ⟨rfl, rfl⟩, hlogged, ⟨deadline, copyOf_leased.mpr hafter⟩,
      Or.inl ⟨copyOf_absent.mpr ⟨fun d hd hc hm => ?_, fun a ha hc hm => ?_⟩, hbeyond, rfl⟩⟩
    · have hbehind := selectVisible_lt_fresh hinv hrow hd hc hfresh
      exact absurd hm hbehind.ne
    · have hrefers := hinv.archive_refers a ha
      rw [hc] at hrefers
      have hle := hrefers.le_cursor hrow
      have hm : a.messageId = message.id := hm
      omega

/-- A claim leaves the copies it does not return as they were. -/
theorem unreturned_granted {db : Db} (hinv : Inv db) {row : ConsumerRow}
    (hrow : db.consumers.lookup row.id = some row) {now deadline : ℤ} {limit : ℕ}
    (h : c = row.id → ∀ delivery ∈ claimedDeliveries db row now deadline limit,
      delivery.message.id ≠ m) :
    copyOf (claimedDb db row now deadline limit) c m = copyOf db c m := by
  have hretried : ∀ d ∈ selectVisible db row.id now limit, d.consumerId = c → d.messageId ≠ m := by
    intro d hd hc hm
    obtain ⟨hstored, hown, -⟩ := mem_selectVisible hd
    obtain ⟨-, message, -, hmessage, -⟩ := hinv.delivery_refers d hstored
    refine h (hc.symm.trans hown) _
      (mem_claimedDeliveries.mpr (Or.inl ⟨d, hd, message, hmessage, rfl⟩)) ?_
    exact (AutoTable.lookup_eq_some.mp hmessage).2.trans hm
  refine copyOf_congr hinv (inv_granted hinv hrow now deadline limit) (fun d hc hm => ?_)
    fun _ _ _ => Iff.rfl
  rw [mem_claimedDb hinv hrow]
  constructor
  · intro hafter
    rcases hafter with ⟨message, hmessage, rfl⟩ | ⟨hd, -⟩ | ⟨b, hb, rfl⟩
    · exact absurd hm (h hc.symm _ (mem_claimedDeliveries.mpr (Or.inr ⟨message, hmessage, rfl⟩)))
    · exact hd
    · exact absurd hm (hretried b hb hc)
  · intro hd
    exact Or.inr (Or.inl ⟨hd, fun hpicked => hretried d hpicked hc hm⟩)

/-- A copy that moves as a claim moves it was returned. -/
theorem returns_of_claims (hv : system.valid event) (hinv : Inv event.before) {now leaseMs : ℤ}
    (h : Claims event c now leaseMs) (hmoved : copyOf event.after c m ≠ copyOf event.before c m) :
    returns c m event = true := by
  have heffect := effect_of_valid hv hinv
  obtain ⟨self, poll, hop, rfl, hlease⟩ := h
  obtain ⟨fan, op, before, after, reply⟩ := event
  dsimp only at heffect hinv hop hmoved hlease
  subst hop
  cases heffect with
  | rejected _ => exact absurd rfl hmoved
  | idle hidle => exact absurd rfl hmoved
  | @granted _ _ _ _ deadline row _ hid hrow hdeadline =>
    by_contra hnot
    refine hmoved (unreturned_granted hinv hrow fun _ delivery hmem hm => hnot ?_)
    refine returns_iff.mpr ⟨delivery, ?_, hm⟩
    simp only [returned, if_true]
    exact hmem

end Steps

end LiteFan.Returned

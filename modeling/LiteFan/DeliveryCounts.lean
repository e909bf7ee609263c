import LiteFan.Effect.Pages
import LiteFan.Lineage
import LiteFan.Returned
import Mathlib.Data.List.DropRight

/-!
# Exact delivery counts

The stored count of a copy is the number of poll results that returned it since
its latest redrive: a claim counts exactly what it returns, receipts leave the
count alone whatever they name, archiving copies it and a redrive starts again
at zero.
-/

namespace LiteFan.DeliveryCounts

open LiteFan.Api LiteFan.Time LiteFan.Schema LiteFan.Storage LiteFan.Store LiteFan.Consumer
open LiteFan.System LiteFan.Invariant LiteFan.Effect LiteFan.Step LiteFan.Preservation
open LiteFan.Lifecycle LiteFan.Lineage LiteFan.Returned Relational

/-- Whether the event restored the message to the consumer from its archive. -/
def redrove (c m : ℤ) (event : Event) : Bool :=
  match event.op, event.reply with
  | .redriveBatch self archiveIds _ _, .ok (.batch _) => self.id == c &&
      event.before.archives.table.rows.any fun a =>
        a.consumerId == c && a.messageId == m && decide (a.id ∈ archiveIds)
  | _, _ => false

/-- The events since the latest redrive that restored the message to the consumer. -/
def sinceRedrive (c m : ℤ) (events : List Event) : List Event :=
  events.rtakeWhile fun event => !redrove c m event

/-- How many poll results returned the message to the consumer since then. -/
def attempts (c m : ℤ) (events : List Event) : ℕ :=
  (sinceRedrive c m events).countP (returns c m)

section Attempts

variable {event : Event} {c m : ℤ}

theorem redrove_iff : redrove c m event = true ↔ Redrives event c m := by
  obtain ⟨fan, op, before, after, reply⟩ := event
  unfold redrove
  dsimp only
  split
  · rename_i self archiveIds retry now result
    simp only [Bool.and_eq_true, beq_iff_eq, List.any_eq_true, decide_eq_true_eq]
    constructor
    · intro h
      obtain ⟨hc, a, ha, ⟨hac, ham⟩, hlisted⟩ := h
      exact ⟨self, archiveIds, retry, now, rfl, hc, ⟨result, rfl⟩, a, ha, hac, ham, hlisted⟩
    · intro h
      obtain ⟨_, _, _, _, hop, hc, -, a, ha, hac, ham, hlisted⟩ := h
      cases hop
      exact ⟨hc, a, ha, ⟨hac, ham⟩, hlisted⟩
  · rename_i hother
    refine iff_of_false Bool.false_ne_true fun h => ?_
    obtain ⟨self, archiveIds, retry, now, hop, -, ⟨result, hreply⟩, -⟩ := h
    exact hother self archiveIds retry now result hop hreply

/-- A redrive starts a new cycle. -/
theorem attempts_redrove (past : List Event) (h : redrove c m event = true) :
    attempts c m (past ++ [event]) = 0 := by
  have hcycle : sinceRedrive c m (past ++ [event]) = [] :=
    List.rtakeWhile_concat_neg _ _ _ (by rw [h]; exact Bool.false_ne_true)
  rw [attempts, hcycle, List.countP_nil]

/-- Within a cycle every poll result that returns the message counts. -/
theorem attempts_snoc (past : List Event) (h : redrove c m event = false) :
    attempts c m (past ++ [event]) = attempts c m past + if returns c m event then 1 else 0 := by
  have hcycle : sinceRedrive c m (past ++ [event]) = sinceRedrive c m past ++ [event] :=
    List.rtakeWhile_concat_pos _ _ _ (by rw [h]; rfl)
  rw [attempts, hcycle, List.countP_append, List.countP_singleton]
  rfl

end Attempts

section Steps

variable {event : Event} {c m : ℤ}

/-- A redriven copy starts at zero. -/
theorem redrives_step (hv : system.valid event) (hinv : Inv event.before) (h : Redrives event c m) :
    ∃ v, copyOf event.after c m = .leased v 0 0 := by
  have heffect := effect_of_valid hv hinv
  obtain ⟨self, archiveIds, retry, now, hop, rfl, ⟨result, hreply⟩, a, ha, hac, ham, hlisted⟩ := h
  obtain ⟨fan, op, before, after, reply⟩ := event
  dsimp only at heffect hinv hop hreply ha
  subst hop hreply
  cases heffect with
  | idle hidle => exact absurd hidle.1 (not_empty_of_mem hlisted)
  | @redriven _ _ _ _ visibleAt hpos hle hvisible =>
    have hnamed := archiveNamed_iff.mpr ⟨hac, hlisted⟩
    have hrestored : redrivenRow self.id visibleAt m ∈
        (redrivenDb before self.id archiveIds visibleAt).deliveries :=
      (mem_redrivenDb hinv).mpr (Or.inl (mem_redrivenRows.mpr ⟨a, ha, hnamed, by rw [ham]⟩))
    exact ⟨visibleAt, copyOf_leased.mpr hrestored⟩

/-- The count of a leased copy after an event: zero after a redrive, one more after a poll
result that returned it, and otherwise the one it had. -/
theorem count_step (hv : system.valid event) (hinv : Inv event.before) {v g n : ℤ}
    (h : copyOf event.after c m = .leased v g n) :
    (redrove c m event = true ∧ n = 0) ∨
    (redrove c m event = false ∧ returns c m event = true ∧
      ((¬Passed event.before c m ∧ copyOf event.before c m = .absent ∧ n = 1) ∨
        ∃ v' g' n', copyOf event.before c m = .leased v' g' n' ∧ n = n' + 1)) ∨
    (redrove c m event = false ∧ returns c m event = false ∧
      ∃ v' g', copyOf event.before c m = .leased v' g' n) := by
  cases hredrove : redrove c m event with
  | true =>
    obtain ⟨visibleAt, hafter⟩ := redrives_step hv hinv (redrove_iff.mp hredrove)
    rw [h] at hafter
    cases hafter
    exact Or.inl ⟨rfl, rfl⟩
  | false =>
    right
    cases hreturns : returns c m event with
    | true =>
      left
      obtain ⟨delivery, hmem, rfl⟩ := returns_iff.mp hreturns
      obtain ⟨row, hleases⟩ := returned_step hv hinv hmem
      obtain ⟨deadline, hafter⟩ := hleases.after
      rw [h] at hafter
      cases hafter
      refine ⟨rfl, rfl, ?_⟩
      rcases hleases.before with ⟨habsent, hbeyond, hone⟩ | ⟨v', g', n', hleased, hcount⟩
      · refine Or.inl ⟨fun hpassed => ?_, habsent, by rw [hone]; rfl⟩
        have hle := hpassed.2 row hleases.live
        omega
      · exact Or.inr ⟨v', g', n', hleased, hcount⟩
    | false =>
      right
      have hunmoved : ∀ now leaseMs, Claims event c now leaseMs →
          copyOf event.after c m = copyOf event.before c m := by
        intro now leaseMs hclaims
        by_contra hmoved
        rw [returns_of_claims hv hinv hclaims hmoved] at hreturns
        cases hreturns
      obtain ⟨act, hhappens, hstep⟩ := copy_step hv hinv c m
      refine ⟨rfl, rfl, ?_⟩
      rw [h] at hstep
      generalize hbefore : copyOf event.before c m = copy at hstep
      cases hstep with
      | stay => exact ⟨v, g, rfl⟩
      | first _ =>
        have hsame := hunmoved _ _ hhappens.1
        rw [h, hbefore] at hsame
        cases hsame
      | retry _ _ =>
        have hsame := hunmoved _ _ hhappens
        rw [h, hbefore] at hsame
        injection hsame with _ _ hcount
        omega
      | nack _ => exact ⟨_, _, rfl⟩
      | extend _ _ _ _ => exact ⟨_, _, rfl⟩
      | redrive _ _ =>
        have hredrives : Redrives event c m := hhappens
        rw [redrove_iff.mpr hredrives] at hredrove
        cases hredrove

end Steps

/-- What the stored counts say about the history so far. -/
structure Counted (past : List Event) (db : Db) : Prop where
  /-- A delivery carries the attempts of its cycle. -/
  delivery : ∀ d ∈ db.deliveries, d.deliveryCount = attempts d.consumerId d.messageId past
  /-- A message beyond the cursor has not been returned. -/
  fresh : ∀ c m, ¬Passed db c m → attempts c m past = 0
  /-- An archive keeps the attempts of the cycle it ended. -/
  archive : ∀ a ∈ db.archives, ∃ earlier e later, past = earlier ++ e :: later ∧
    Archives e a.consumerId a.messageId ∧ a ∈ e.after.archives ∧ a ∉ e.before.archives ∧
    a.deliveryCount = attempts a.consumerId a.messageId earlier

section Counted

variable {event : Event} {past events : List Event} {db : Db}

theorem counted_empty : Counted [] Db.empty where
  delivery d h := absurd h (Table.not_mem_empty d)
  fresh _ _ _ := rfl
  archive a h := absurd h (AutoTable.not_mem_empty a)

/-- Every event keeps the counts exact. -/
theorem counted_step (hv : system.valid event) (hinv : Inv event.before)
    (h : Counted past event.before) : Counted (past ++ [event]) event.after where
  delivery d hd := by
    have hcount : ∀ {v g n : ℤ}, copyOf event.before d.consumerId d.messageId = .leased v g n →
        n = attempts d.consumerId d.messageId past := fun hleased =>
      h.delivery _ (copyOf_leased.mp hleased)
    rcases count_step hv hinv (copyOf_delivery hd) with ⟨hredrove, hzero⟩ |
        ⟨hredrove, hreturns, ⟨hunpassed, -, hone⟩ | ⟨v, g, n, hleased, hmore⟩⟩ |
        ⟨hredrove, hreturns, v, g, hleased⟩
    · rw [hzero, attempts_redrove past hredrove]
      rfl
    · rw [hone, attempts_snoc past hredrove, h.fresh _ _ hunpassed, if_pos hreturns]
      rfl
    · rw [hmore, hcount hleased, attempts_snoc past hredrove, if_pos hreturns]
      push_cast
      rfl
    · rw [hcount hleased, attempts_snoc past hredrove, hreturns]
      rfl
  fresh c m hunpassed := by
    have hbefore : ¬Passed event.before c m :=
      fun hpassed => hunpassed (passed_step hv hinv hpassed)
    cases hredrove : redrove c m event with
    | true => exact attempts_redrove past hredrove
    | false =>
      have hreturns : returns c m event = false := by
        refine eq_false_of_ne_true fun hreturns => hunpassed ?_
        obtain ⟨delivery, hmem, rfl⟩ := returns_iff.mp hreturns
        obtain ⟨row, hleases⟩ := returned_step hv hinv hmem
        obtain ⟨v, hafter⟩ := hleases.after
        exact passed_of_leased (inv_event event hv hinv) hafter
      rw [attempts_snoc past hredrove, h.fresh c m hbefore, hreturns]
      rfl
  archive a ha := by
    rcases archive_step hv hinv ha with hold | ⟨hnew, harchives, v, hleased⟩
    · obtain ⟨earlier, e, later, rfl, hrest⟩ := h.archive a hold
      exact ⟨earlier, e, later ++ [event], by simp, hrest⟩
    · have hunstored : a ∉ event.before.archives := by
        intro hmem
        have hle := event.before.archives.key_le a hmem
        omega
      exact ⟨past, event, [], rfl, harchives, ha, hunstored,
        h.delivery _ (copyOf_leased.mp hleased)⟩

/-- The stored counts of every state reached are exact. -/
theorem counted_run (hrun : Run events db) : Counted events db := by
  induction hrun with
  | nil => exact counted_empty
  | snoc e hsteps hv ih => exact counted_step hv (inv_run hsteps) ih

end Counted

section Exact

variable {events : List Event} {db : Db}

/-- Delivery counts over a run. -/
structure Exact (events : List Event) (db : Db) : Prop where
  /-- A delivery's count is the number of poll results of its cycle, its own included. -/
  polls : ∀ c past event future, events = past ++ event :: future →
    ∀ delivery ∈ returned c event,
      delivery.deliveryCount = attempts c delivery.message.id past + 1
  /-- A poll result returns a message once. -/
  once : ∀ c, ∀ event ∈ events,
    ((returned c event).map fun delivery => delivery.message.id).Nodup
  /-- A listed archive's count is the number of poll results of the cycle it ended. -/
  archives : ∀ fan self list page, Consumer.archives fan self list db = .ok page →
    ∀ shown ∈ page, ∃ past event future, events = past ++ event :: future ∧
      Archives event self.id shown.message.id ∧
      (∃ a ∈ event.after.archives, a ∉ event.before.archives ∧ a.id = shown.id) ∧
      shown.deliveryCount = attempts self.id shown.message.id past
  /-- Only a poll result that returns a leased copy changes its stored count. -/
  unchanged : ∀ event ∈ events, ∀ c m v g n v' g' n',
    copyOf event.before c m = .leased v g n → copyOf event.after c m = .leased v' g' n' →
    n' = n + if returns c m event then 1 else 0
  /-- No event changes an archive that stays. -/
  kept : ∀ event ∈ events, ∀ a ∈ event.before.archives, ∀ a' ∈ event.after.archives,
    a'.id = a.id → a' = a

/-- In every run the counts that polls and archive pages report are exact. -/
theorem delivery_counts_exact (hrun : Run events db) : Exact events db where
  polls c past event future hsplit delivery hmem := by
    subst hsplit
    obtain ⟨hpast, hv, -⟩ := hrun.around
    have hinv : Inv event.before := inv_run hpast
    obtain ⟨row, hleases⟩ := returned_step hv hinv hmem
    rcases hleases.before with ⟨-, hbeyond, hone⟩ | ⟨v, g, n, hleased, hmore⟩
    · have hunpassed : ¬Passed event.before c delivery.message.id := by
        intro hpassed
        have hle := hpassed.2 row hleases.live
        omega
      rw [hone, (counted_run hpast).fresh c _ hunpassed]
    · have hcount : n = attempts c delivery.message.id past :=
        (counted_run hpast).delivery _ (copyOf_leased.mp hleased)
      omega
  once c event hmem := by
    obtain ⟨past, future, rfl⟩ := List.append_of_mem hmem
    obtain ⟨hpast, hv, -⟩ := hrun.around
    exact (returned_sorted hv (inv_run hpast) c).imp fun hlt => hlt.ne
  archives fan self list page hpage shown hshown := by
    rw [archives_ok (inv_run hrun) hpage] at hshown
    obtain ⟨a, ha, hc, -, hid, hmessage, hcount, -⟩ := mem_page (inv_run hrun) hshown
    have hm : shown.message.id = a.messageId := (AutoTable.lookup_eq_some.mp hmessage).2
    obtain ⟨past, event, future, hsplit, harchives, hstored, hnew, hexact⟩ :=
      (counted_run hrun).archive a ha
    rw [hc, ← hm] at harchives hexact
    exact ⟨past, event, future, hsplit, harchives, ⟨a, hstored, hnew, hid.symm⟩, by omega⟩
  unchanged event hmem c m v g n v' g' n' hbefore hafter := by
    obtain ⟨past, future, rfl⟩ := List.append_of_mem hmem
    obtain ⟨hpast, hv, -⟩ := hrun.around
    have hinv : Inv event.before := inv_run hpast
    rcases count_step hv hinv hafter with ⟨hredrove, -⟩ |
        ⟨-, hreturns, ⟨-, habsent, -⟩ | ⟨_, _, _, hleased, hmore⟩⟩ | ⟨-, hreturns, _, _, hleased⟩
    · -- a redriven copy was archived, not leased
      obtain ⟨_, _, _, _, -, -, -, a, ha, hac, ham, -⟩ := redrove_iff.mp hredrove
      exact absurd ham (hinv.disjoint a ha _ (copyOf_leased.mp hbefore) hac)
    · rw [hbefore] at habsent
      cases habsent
    · rw [hbefore] at hleased
      cases hleased
      rw [hmore, if_pos hreturns]
    · rw [hbefore] at hleased
      cases hleased
      rw [hreturns]
      simp
  kept event hmem a ha a' ha' hid := by
    obtain ⟨past, future, rfl⟩ := List.append_of_mem hmem
    obtain ⟨hpast, hv, -⟩ := hrun.around
    rcases archive_step hv (inv_run hpast) ha' with hold | ⟨hnew, -⟩
    · exact AutoTable.eq_of_key hold ha hid
    · have hle := event.before.archives.key_le a ha
      omega

/-- A message is polled, nacked, polled again and archived, redriven, polled and archived. -/
def cycledOps : List Op :=
  [.openConsumer "jobs" .all 0, .publishBatch [⟨none, [7], none⟩] 0,
    .claim firstHandle pollOne 0, .nackBatch firstHandle [⟨1, 1, 1⟩] .immediately 0,
    .claim firstHandle pollOne 0, .archiveBatch firstHandle [⟨1, 1, 3⟩] none 0,
    .redriveBatch firstHandle [1] .immediately 0, .claim firstHandle pollOne 0,
    .archiveBatch firstHandle [⟨1, 1, 1⟩] none 0]

set_option maxRecDepth 10000 in
/-- The page of the second archive counts the attempts of the second cycle only. -/
theorem delivery_counts_exact_cycled :
    (Consumer.archives Inner.default firstHandle ⟨none, 10⟩
      (outcomeDb Engine.inOrder Inner.default cycledOps Db.empty)).toOption.map
        (List.map ArchivedDelivery.deliveryCount) = some [1] ∧
    ∃ past event future,
      trace Engine.inOrder Inner.default cycledOps Db.empty = past ++ event :: future ∧
      Archives event 1 1 ∧ 1 = attempts 1 1 past := by
  have hexact := delivery_counts_exact (trace_run Engine.inOrder Inner.default cycledOps Db.empty)
  refine ⟨by decide, ?_⟩
  obtain ⟨past, event, future, hsplit, harchives, -, hcount⟩ := hexact.archives Inner.default
    firstHandle ⟨none, 10⟩ [⟨2, ⟨1, none, [7], 0⟩, 1, 0, none⟩] rfl _ List.mem_cons_self
  exact ⟨past, event, future, hsplit, harchives, hcount⟩

end Exact

end LiteFan.DeliveryCounts

import LiteFan.Returned
import LiteFan.Sequential

/-!
# Publish order

Identifiers are assigned upwards over a whole run, in the order of commits and
of positions in a batch. What the claims of one consumer take from the log lies
above its cursor before the claim and behind it afterwards, so first deliveries
come in the same order, whatever retries, drains, prunes and other workers do
in between.
-/

namespace LiteFan.PublishOrder

open LiteFan.Api LiteFan.Time LiteFan.Schema LiteFan.Storage LiteFan.Store LiteFan.Consumer
open LiteFan.System LiteFan.Invariant LiteFan.Effect LiteFan.Step LiteFan.Preservation
open LiteFan.Lifecycle LiteFan.Returned LiteFan.Sequential Relational

/-- The messages a claim of the consumer took from the log, in the order it returned them. -/
def taken (c : ℤ) (event : Event) : List ℤ :=
  ((returned c event).filter fun delivery =>
    (deliveryOf event.before c delivery.message.id).isNone).map fun delivery => delivery.message.id

/-- The identifiers a batch of outcomes reports as new, by position. -/
def newIds (outcomes : List PublishOutcome) : List ℤ :=
  (outcomes.filter PublishOutcome.isPublished).map PublishOutcome.id

/-- The identifiers an event published, by position in its batch. -/
def publishedIds (event : Event) : List ℤ :=
  match event.reply with
  | .ok (.outcomes outcomes) => newIds outcomes
  | _ => []

section Taken

variable {event : Event} {c m : ℤ}

/-- What a claim took it returned, and it had no delivery of it. -/
theorem mem_taken : m ∈ taken c event ↔
    returns c m event = true ∧ deliveryOf event.before c m = none := by
  simp only [taken, List.mem_map, List.mem_filter, Option.isNone_iff_eq_none, returns_iff]
  constructor
  · intro h
    obtain ⟨delivery, ⟨hmem, hnone⟩, rfl⟩ := h
    exact ⟨⟨delivery, hmem, rfl⟩, hnone⟩
  · intro h
    obtain ⟨⟨delivery, hmem, rfl⟩, hnone⟩ := h
    exact ⟨delivery, ⟨hmem, hnone⟩, rfl⟩

/-- A claim takes messages in increasing order. -/
theorem taken_sorted (hv : system.valid event) (hinv : Inv event.before) (c : ℤ) :
    (taken c event).Pairwise (· < ·) :=
  (returned_sorted hv hinv c).sublist ((List.filter_sublist).map _)

/-- What a claim returns its cursor has passed. -/
theorem passed_of_returns (hv : system.valid event) (hinv : Inv event.before)
    (h : returns c m event = true) : Passed event.after c m := by
  obtain ⟨delivery, hmem, rfl⟩ := returns_iff.mp h
  obtain ⟨row, hleases⟩ := returned_step hv hinv hmem
  obtain ⟨v, hafter⟩ := hleases.after
  exact passed_of_leased (inv_event event hv hinv) hafter

/-- What a claim takes lies beyond everything its cursor had passed. -/
theorem taken_beyond (hv : system.valid event) (hinv : Inv event.before) (h : m ∈ taken c event)
    {m' : ℤ} (hpassed : Passed event.before c m') : m' < m := by
  obtain ⟨hreturns, hnone⟩ := mem_taken.mp h
  obtain ⟨delivery, hmem, rfl⟩ := returns_iff.mp hreturns
  obtain ⟨row, hleases⟩ := returned_step hv hinv hmem
  rcases hleases.before with ⟨-, hbeyond, -⟩ | ⟨v, g, n, hleased, -⟩
  · have hle := hpassed.2 row hleases.live
    omega
  · have hrow := copyOf_leased.mp hleased
    exact absurd rfl (deliveryOf_none.mp hnone _ hrow rfl)

/-- A copy outside the log was returned by some earlier claim. -/
theorem returned_before {events : List Event} {db : Db} (hrun : Run events db) (c m : ℤ)
    (h : copyOf db c m ≠ .absent) : ∃ e ∈ events, returns c m e = true := by
  induction hrun with
  | nil => exact absurd rfl h
  | @snoc events e hsteps hv ih =>
    have hinv : Inv e.before := inv_run hsteps
    by_cases hbefore : copyOf e.before c m = .absent
    · obtain ⟨act, hhappens, hstep⟩ := copy_step hv hinv c m
      have hmoved : copyOf e.after c m ≠ copyOf e.before c m := fun hsame => h (hsame.trans hbefore)
      -- an absent copy only appears by its first lease
      have hfirst : ∃ now leaseMs, Claims e c now leaseMs := by
        rw [hbefore] at hstep
        generalize hafter : copyOf e.after c m = copy at hstep
        cases hstep with
        | stay => exact absurd hafter h
        | first _ => exact ⟨_, _, hhappens.1⟩
        | discard _ => exact absurd hafter h
      obtain ⟨now, leaseMs, hclaims⟩ := hfirst
      exact ⟨e, List.mem_append_right _ List.mem_cons_self,
        returns_of_claims hv hinv hclaims hmoved⟩
    · obtain ⟨e', he', hreturns⟩ := ih hbefore
      exact ⟨e', List.mem_append_left _ he', hreturns⟩

/-- What some claim returned the cursor has passed ever since. -/
theorem passed_since {events : List Event} {db : Db} (hrun : Run events db)
    (h : ∃ e ∈ events, returns c m e = true) : Passed db c m := by
  induction hrun with
  | nil =>
    obtain ⟨e, he, -⟩ := h
    exact absurd he List.not_mem_nil
  | @snoc events e hsteps hv ih =>
    have hinv : Inv e.before := inv_run hsteps
    obtain ⟨e', he', hreturns⟩ := h
    rcases List.mem_append.mp he' with hpast | hlast
    · exact passed_step hv hinv (ih ⟨e', hpast, hreturns⟩)
    · rw [List.mem_singleton.mp hlast] at hreturns
      exact passed_of_returns hv hinv hreturns

/-- A claim takes from the log what it returns and no claim returned before. -/
theorem taken_iff_first {past : List Event} (hrun : Run past event.before)
    (hv : system.valid event) :
    m ∈ taken c event ↔ returns c m event = true ∧ ∀ e ∈ past, returns c m e = false := by
  have hinv : Inv event.before := inv_run hrun
  constructor
  · intro h
    refine ⟨(mem_taken.mp h).1, fun e he => eq_false_of_ne_true fun hreturns => ?_⟩
    have hpassed := passed_since hrun ⟨e, he, hreturns⟩
    exact (taken_beyond hv hinv h hpassed).false
  · intro h
    obtain ⟨hreturns, hfirst⟩ := h
    refine mem_taken.mpr ⟨hreturns, deliveryOf_none.mpr fun d hd hc hm => ?_⟩
    have hcopy := copyOf_delivery hd
    rw [hc, hm] at hcopy
    obtain ⟨e, he, hearlier⟩ := returned_before hrun c m (by rw [hcopy]; exact Copy.noConfusion)
    rw [hfirst e he] at hearlier
    cases hearlier

end Taken

section Published

variable {event : Event}

/-- The identifiers reported as new are the next ones, by position. -/
theorem assign_newIds (known : Bytes → Option ℤ) (seq : ℤ) (messages : List Publish) :
    newIds (assign known seq messages).outcomes =
      idsFrom seq (assign known seq messages).stored.length := by
  have hpublished : ∀ (outcomes : List PublishOutcome) (id : ℤ),
      newIds (.published id :: outcomes) = id :: newIds outcomes := fun _ _ => rfl
  induction messages generalizing known seq with
  | nil => rfl
  | cons message rest ih =>
    cases hkey : message.idempotencyKey with
    | none => rw [assign_unkeyed hkey, hpublished, ih, List.length_cons, idsFrom_succ]
    | some key =>
      cases hknown : known key with
      | some id =>
        rw [assign_known hkey hknown]
        exact ih known seq
      | none => rw [assign_new hkey hknown, hpublished, ih, List.length_cons, idsFrom_succ]

/-- What an event publishes it appends to the log: the rows of the published positions
under the identifiers reported there. -/
theorem published_step (hv : system.valid event) (hinv : Inv event.before)
    {outcomes : List PublishOutcome} (h : event.reply = .ok (.outcomes outcomes)) :
    ∃ messages now, event.op = .publishBatch messages now ∧ outcomes.length = messages.length ∧
      event.after.messages.table.rows =
        event.before.messages.table.rows ++ publishedRows now messages outcomes ∧
      newIds outcomes = event.before.messages.freshKeys (newIds outcomes).length ∧
      event.after.messages.seq = event.before.messages.seq + (newIds outcomes).length := by
  have heffect := effect_of_valid hv hinv
  obtain ⟨fan, op, before, after, reply⟩ := event
  dsimp only at heffect hinv h ⊢
  subst h
  cases heffect with
  | idle hidle =>
    unfold Idle at hidle
    cases op <;> simp at hidle
  | @published messages now hle =>
    have hids : newIds (assigned now before messages).outcomes =
        before.messages.freshKeys (assigned now before messages).stored.length :=
          assign_newIds _ _ _
    have hcount : (newIds (assigned now before messages).outcomes).length =
        (assigned now before messages).stored.length := by rw [hids, AutoTable.length_freshKeys]
    refine ⟨messages, now, rfl, assign_length _ _ _, batchDb_rows _ _ _ _, hids.trans ?_, ?_⟩
    · rw [hcount]
    · rw [hcount, publishedDb_messages, AutoTable.appendAll_seq]

/-- Published identifiers increase within an event, are new, and have been assigned after it. -/
theorem publishedIds_new (hv : system.valid event) (hinv : Inv event.before) :
    (publishedIds event).Pairwise (· < ·) ∧ ∀ m ∈ publishedIds event,
      event.before.messages.seq < m ∧ m ≤ event.after.messages.seq := by
  unfold publishedIds
  split
  · rename_i outcomes hreply
    obtain ⟨-, -, -, -, -, hids, hseq⟩ := published_step hv hinv hreply
    rw [hids]
    refine ⟨AutoTable.freshKeys_sorted _ _, fun m hm => ?_⟩
    have hrange := AutoTable.mem_freshKeys.mp hm
    omega
  · exact ⟨List.Pairwise.nil, fun m hm => absurd hm List.not_mem_nil⟩

/-- A stored message was there before, or the event published its identifier. -/
theorem stored_step (hv : system.valid event) (hinv : Inv event.before) {message : Message}
    (h : message ∈ event.after.messages) :
    message ∈ event.before.messages ∨ message.id ∈ publishedIds event := by
  rcases log_step hv hinv h with hold | ⟨⟨messages, now, hop, -, hnew⟩, hbeyond⟩
  · exact Or.inl hold
  · right
    have heffect := effect_of_valid hv hinv
    have hreply : ∃ outcomes, event.reply = .ok (.outcomes outcomes) := by
      obtain ⟨fan, op, before, after, reply⟩ := event
      dsimp only at heffect hop h hnew ⊢
      subst hop
      cases heffect with
      | rejected _ => exact absurd h hnew
      | idle hidle => exact absurd hidle id
      | published hle => exact ⟨_, rfl⟩
    obtain ⟨outcomes, hreply⟩ := hreply
    obtain ⟨-, -, -, -, -, hids, hseq⟩ := published_step hv hinv hreply
    have hle := event.after.messages.key_le message h
    rw [publishedIds, hreply]
    dsimp only
    rw [hids]
    exact AutoTable.mem_freshKeys.mpr (by omega)

end Published

section Ordered

variable {events : List Event} {db : Db}

/-- The order of publishes and of first deliveries in a run. -/
structure Ordered (events : List Event) (db : Db) : Prop where
  /-- What the claims of a consumer take from the log increases over the run. -/
  taken : ∀ c, (events.flatMap (taken c)).Pairwise (· < ·)
  /-- Taking a message from the log is its first delivery to the consumer. -/
  first : ∀ c past event future, events = past ++ event :: future → ∀ m,
    m ∈ PublishOrder.taken c event ↔
      returns c m event = true ∧ ∀ e ∈ past, returns c m e = false
  /-- A claim leaves nothing waiting behind a message it takes. -/
  skipped : ∀ c, ∀ event ∈ events, ∀ m ∈ PublishOrder.taken c event, ∀ m' ≤ m,
    ¬Waiting event.after c m'
  /-- New identifiers increase with the commits of publishes and within a batch; as none
  occurs twice, none is reused. -/
  published : (events.flatMap publishedIds).Pairwise (· < ·)
  /-- A publish appends one row for each new position, under the identifier reported there. -/
  positions : ∀ event ∈ events, ∀ outcomes, event.reply = .ok (.outcomes outcomes) →
    ∃ messages now, event.op = .publishBatch messages now ∧ outcomes.length = messages.length ∧
      event.after.messages.table.rows =
        event.before.messages.table.rows ++ publishedRows now messages outcomes
  /-- Every stored message has an identifier some publish reported as new. -/
  stored : ∀ message ∈ db.messages, message.id ∈ events.flatMap publishedIds

/-- Every stored message was published under its identifier. -/
theorem stored_run (hrun : Run events db) :
    ∀ message ∈ db.messages, message.id ∈ events.flatMap publishedIds := by
  induction hrun with
  | nil => exact fun message h => absurd h (AutoTable.not_mem_empty message)
  | @snoc events e hsteps hv ih =>
    intro message h
    rw [List.flatMap_append, List.flatMap_singleton, List.mem_append]
    exact (stored_step hv (inv_run hsteps) h).imp (ih message) id

/-- In every run, whatever the workers and the operations between, a consumer first
receives messages in the order they were published. -/
theorem first_deliveries_ordered (hrun : Run events db) : Ordered events db where
  taken c := (hrun.increasing (fun db m => Passed db c m) inv_empty inv_event
    (fun e hv hinv => taken_sorted hv hinv c)
    (fun e hv hinv m hm => ⟨passed_of_returns hv hinv (mem_taken.mp hm).1,
      fun m' hpassed => taken_beyond hv hinv hm hpassed⟩)
    fun e hv hinv m hpassed => passed_step hv hinv hpassed).1
  first c past event future hsplit m := by
    subst hsplit
    obtain ⟨hpast, hv, -⟩ := hrun.around
    exact taken_iff_first hpast hv
  skipped c event hmem m hm m' hle := by
    obtain ⟨past, future, rfl⟩ := List.append_of_mem hmem
    obtain ⟨hpast, hv, -⟩ := hrun.around
    have hpassed := passed_of_returns hv (inv_run hpast) (mem_taken.mp hm).1
    have hbehind : Passed event.after c m' :=
      ⟨hpassed.1, fun row hrow => hle.trans (hpassed.2 row hrow)⟩
    exact hbehind.not_waiting
  published := (hrun.increasing (fun db m => m ≤ db.messages.seq) inv_empty inv_event
    (fun e hv hinv => (publishedIds_new hv hinv).1)
    (fun e hv hinv m hm => by
      obtain ⟨hnew, hle⟩ := (publishedIds_new hv hinv).2 m hm
      exact ⟨hle, fun y hy => hy.trans_lt hnew⟩)
    fun e hv hinv m hle => hle.trans (messages_seq_mono hv hinv)).1
  positions event hmem outcomes hreply := by
    obtain ⟨past, future, rfl⟩ := List.append_of_mem hmem
    obtain ⟨hpast, hv, -⟩ := hrun.around
    obtain ⟨messages, now, hop, hlength, hrows, -⟩ := published_step hv (inv_run hpast) hreply
    exact ⟨messages, now, hop, hlength, hrows⟩
  stored := stored_run hrun

/-- Two messages are published and taken one by one, with a retry of the first between. -/
def interleavedOps : List Op :=
  [.openConsumer "jobs" .all 0, .publishBatch [⟨none, [7], none⟩, ⟨none, [8], none⟩] 0,
    .claim firstHandle pollOne 0, .claim firstHandle pollOne 1, .claim firstHandle pollOne 1]

set_option maxRecDepth 10000 in
/-- The retry does not disturb the order of the two first deliveries. -/
theorem first_deliveries_ordered_interleaved :
    ((trace Engine.inOrder Inner.default interleavedOps Db.empty).flatMap (taken 1)).Pairwise
      (· < ·) ∧
    (trace Engine.inOrder Inner.default interleavedOps Db.empty).flatMap (taken 1) = [1, 2] :=
  ⟨(first_deliveries_ordered
      (trace_run Engine.inOrder Inner.default interleavedOps Db.empty)).taken 1,
    by decide⟩

end Ordered

end LiteFan.PublishOrder

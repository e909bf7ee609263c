import LiteFan.Capabilities
import LiteFan.ReceiptBatches
import LiteFan.RedriveMoves

/-!
# Calls with one receipt

A call with one receipt is a batch of one that reports whether it applied. Its
answer tells exactly whether the receipt was the consumer's own and current: if
so the copy it names moves and no other does, if not nothing changes. A receipt
that was acknowledged, released or archived does not apply again unless its copy
has been redriven in between.
-/

namespace LiteFan.SingleReceipts

open LiteFan.Api LiteFan.Time LiteFan.Schema LiteFan.Storage LiteFan.Store LiteFan.Consumer
open LiteFan.System LiteFan.Invariant LiteFan.Effect LiteFan.Step LiteFan.Preservation
open LiteFan.Lifecycle Relational
open LiteFan.Capabilities (touched_of_not_named deleteDeliveries_of_not_named
  archivedDb_of_not_named)
open LiteFan.ReceiptBatches (current length_current mem_current)
open LiteFan.RedriveMoves (matching length_matching mem_matching)

/-- A batch of one: whether its item applied. -/
def onlyApplied (batch : Transaction BatchResult) : Transaction Bool := fun db => do
  let result ← batch db
  return (result.1, result.2.applied == 1)

/-- Acknowledge one receipt. -/
def ack (fan : Inner) (self : Consumer) (receipt : Receipt) : Transaction Bool :=
  onlyApplied (ackBatch fan self [receipt])

/-- Release one receipt for retry. -/
def nack (fan : Inner) (self : Consumer) (receipt : Receipt) (retry : Retry) (now : ℤ) :
    Transaction Bool :=
  onlyApplied (nackBatch fan self [receipt] retry now)

/-- Extend one current delivery attempt's visibility deadline. -/
def extendVisibility (fan : Inner) (self : Consumer) (receipt : Receipt)
    (visibilityTimeout : Duration) (now : ℤ) : Transaction Bool :=
  onlyApplied (extendVisibilityBatch fan self [receipt] visibilityTimeout now)

/-- Archive one current delivery. -/
def archive (e : Engine) (fan : Inner) (self : Consumer) (receipt : Receipt) (archivedAt : ℤ) :
    Transaction Bool :=
  onlyApplied (archiveBatchWithDetail e fan self [receipt] none archivedAt)

/-- Archive one current delivery with diagnostic detail. -/
def archiveWithDetail (e : Engine) (fan : Inner) (self : Consumer) (receipt : Receipt)
    (detail : String) (archivedAt : ℤ) : Transaction Bool :=
  onlyApplied (archiveBatchWithDetail e fan self [receipt] (some detail) archivedAt)

/-- Restore one archived delivery. -/
def redrive (e : Engine) (fan : Inner) (self : Consumer) (archiveId : ℤ) (retry : Retry)
    (now : ℤ) : Transaction Bool :=
  onlyApplied (redriveBatch e fan self [archiveId] retry now)

/-- A call with one receipt, or one archive. -/
inductive Single where
  | ack (receipt : Receipt)
  | nack (receipt : Receipt) (retry : Retry) (now : ℤ)
  | extendVisibility (receipt : Receipt) (visibilityTimeout : Duration) (now : ℤ)
  | archive (receipt : Receipt) (archivedAt : ℤ)
  | archiveWithDetail (receipt : Receipt) (detail : String) (archivedAt : ℤ)
  | redrive (archiveId : ℤ) (retry : Retry) (now : ℤ)

/-- Run a call. -/
def Single.run (e : Engine) (fan : Inner) (self : Consumer) : Single → Transaction Bool
  | .ack receipt => SingleReceipts.ack fan self receipt
  | .nack receipt retry now => SingleReceipts.nack fan self receipt retry now
  | .extendVisibility receipt timeout now =>
    SingleReceipts.extendVisibility fan self receipt timeout now
  | .archive receipt archivedAt => SingleReceipts.archive e fan self receipt archivedAt
  | .archiveWithDetail receipt detail archivedAt =>
    SingleReceipts.archiveWithDetail e fan self receipt detail archivedAt
  | .redrive archiveId retry now => SingleReceipts.redrive e fan self archiveId retry now

/-- The batch of a call. -/
def Single.op (handle : Consumer) : Single → Op
  | .ack receipt => .ackBatch handle [receipt]
  | .nack receipt retry now => .nackBatch handle [receipt] retry now
  | .extendVisibility receipt timeout now => .extendVisibilityBatch handle [receipt] timeout now
  | .archive receipt archivedAt => .archiveBatch handle [receipt] none archivedAt
  | .archiveWithDetail receipt detail archivedAt =>
    .archiveBatch handle [receipt] (some detail) archivedAt
  | .redrive archiveId retry now => .redriveBatch handle [archiveId] retry now

/-- The receipt a call presents. -/
def Single.receipt : Single → Option Receipt
  | .ack receipt | .nack receipt _ _ | .extendVisibility receipt _ _ | .archive receipt _
  | .archiveWithDetail receipt _ _ => some receipt
  | .redrive .. => none

/-- A call that ends a lease. -/
def Single.settles : Single → Bool
  | .ack _ | .nack .. | .archive .. | .archiveWithDetail .. => true
  | .extendVisibility .. | .redrive .. => false

/-- The deadline a call sets. -/
def Single.deadline : Single → Except Error ℤ
  | .nack _ retry now | .redrive _ retry now => addDuration now retry.delay
  | .extendVisibility _ timeout now => addDuration now timeout
  | .ack _ | .archive .. | .archiveWithDetail .. => .ok 0

/-- The call names the copy: by its current receipt, or by its archive. -/
def Single.Names (handle : Consumer) (db : Db) (call : Single) (c m : ℤ) : Prop :=
  c = handle.id ∧
    match call with
    | .redrive archiveId _ _ => ∃ a ∈ db.archives, a.consumerId = c ∧ a.messageId = m ∧
        a.id = archiveId
    | .ack receipt | .nack receipt _ _ | .extendVisibility receipt _ _ | .archive receipt _
    | .archiveWithDetail receipt _ _ =>
      ∃ d ∈ db.deliveries, d.consumerId = c ∧ d.messageId = m ∧ receiptOf d = receipt

/-- What a call makes of the copy it names. -/
def Single.moved (visibleAt : ℤ) : Single → Copy → Copy
  | .ack _, _ => .absent
  | .nack .., .leased _ g n => .leased visibleAt (g + 1) n
  | .extendVisibility .., .leased v g n => .leased (max v visibleAt) g n
  | .archive .., .leased _ g _ | .archiveWithDetail .., .leased _ g _ => .archived g
  | .redrive .., .archived _ => .leased visibleAt 0 0
  | _, copy => copy

/-- The event is a call that gave this answer. -/
def Answers (event : Event) (handle : Consumer) (call : Single) (value : Bool) : Prop :=
  event.op = call.op handle ∧ ∃ e : Engine,
    exec e event.fan event.op event.before = (event.after, event.reply) ∧
    commit (call.run e event.fan handle) event.before = (event.after, .ok value)

/-- The event ended a lease by its receipt. -/
def Settles (event : Event) (r : Receipt) : Prop :=
  ∃ handle call, call.receipt = some r ∧ call.settles = true ∧ Answers event handle call true

section Batches

variable {db : Db} {c : ℤ} {r : Receipt} {archiveId : ℤ}

/-- The answer that the reply of a batch gives. -/
def answered : Reply → Bool
  | .batch result => result.applied == 1
  | _ => false

/-- A batch of one answers as its batch replies. -/
theorem commit_onlyApplied (batch : Transaction BatchResult) (db : Db) :
    commit (onlyApplied batch) db =
      ((replying .batch (commit batch db)).1,
        (replying .batch (commit batch db)).2.map answered) := by
  unfold commit onlyApplied
  cases hran : batch db with
  | error err => simp [replying, bind, Except.bind, Except.map]
  | ok result => simp [replying, bind, Except.bind, Except.map, pure, Except.pure, answered]

/-- A call answers as its batch replies. -/
theorem commit_single (e : Engine) (fan : Inner) (handle : Consumer) (call : Single) (db : Db) :
    commit (call.run e fan handle) db =
      ((exec e fan (call.op handle) db).1, (exec e fan (call.op handle) db).2.map answered) := by
  cases call <;> exact commit_onlyApplied _ db

/-- The receipt is current for the consumer. -/
def Held (db : Db) (c : ℤ) (r : Receipt) : Prop :=
  ∃ d ∈ db.deliveries, d.consumerId = c ∧ receiptOf d = r

/-- A list of nothing but one element, once at most, has it when its length is one. -/
theorem length_one_iff {α : Type} {x : α} {xs : List α} (hle : xs.length ≤ 1)
    (hsame : ∀ y ∈ xs, y = x) : xs.length = 1 ↔ x ∈ xs := by
  constructor
  · intro hone
    obtain ⟨y, hy⟩ := List.exists_mem_of_length_pos (by omega : 0 < xs.length)
    exact hsame y hy ▸ hy
  · intro hx
    have hpos := List.length_pos_of_mem hx
    omega

/-- A batch of one receipt applies once if the receipt is current. -/
theorem selected_one :
    (db.deliveries.select (pushReceiptPredicate c [r])).length = 1 ↔ Held db c r := by
  have hle : (current db c [r]).length ≤ 1 := List.length_filter_le _ _
  rw [← length_current,
    length_one_iff hle fun other hother => List.mem_singleton.mp (mem_current.mp hother).1,
    mem_current]
  exact and_iff_right (List.mem_singleton.mpr rfl)

/-- One receipt is one chunk. -/
theorem chunks_one : chunks receiptsPerChunk [r] = [[r]] :=
  chunks_of_length_le (List.cons_ne_nil _ _) (by rw [List.length_singleton]; decide)

/-- An update with one receipt applies once if the receipt is current. -/
theorem touched_one {f : DeliveryRow → DeliveryRow} {hf : ∀ d, (f d).key = d.key} :
    touchedRows c f hf db.deliveries (chunks receiptsPerChunk [r]) = 1 ↔ Held db c r := by
  rw [chunks_one]
  exact selected_one

/-- A receipt that is not current names no delivery. -/
theorem not_named_of_not_held (h : ¬Held db c r) :
    ∀ d ∈ db.deliveries, pushReceiptPredicate c [r] d = false := by
  intro d hd
  by_contra hnamed
  obtain ⟨hc, hlisted⟩ := pushReceiptPredicate_iff.mp (by simpa using hnamed)
  exact h ⟨d, hd, hc, List.mem_singleton.mp hlisted⟩

/-- An update of a delivery named by the only receipt. -/
theorem touch_one {f : DeliveryRow → DeliveryRow} {d : DeliveryRow} (hc : d.consumerId = c)
    (hr : receiptOf d = r) : touch c f (chunks receiptsPerChunk [r]) d = f d := by
  have hnamed : pushReceiptPredicate c [r] d = true :=
    pushReceiptPredicate_iff.mpr ⟨hc, List.mem_singleton.mpr hr⟩
  rw [chunks_one]
  exact if_pos hnamed

/-- One identifier applies once if it is of an archive of the consumer. -/
theorem restored_one : (db.archives.select (archiveNamed c [archiveId])).length = 1 ↔
    ∃ a ∈ db.archives, a.consumerId = c ∧ a.id = archiveId := by
  have hle : (matching db c [archiveId]).length ≤ 1 := List.length_filter_le _ _
  rw [← length_matching,
    length_one_iff hle fun other hother => List.mem_singleton.mp (mem_matching.mp hother).1,
    mem_matching]
  exact and_iff_right (List.mem_singleton.mpr rfl)

/-- Redriving what is not an archive of the consumer changes nothing. -/
theorem redrivenDb_of_not_named {visibleAt : ℤ}
    (h : ¬∃ a ∈ db.archives, a.consumerId = c ∧ a.id = archiveId) :
    redrivenDb db c [archiveId] visibleAt = db := by
  have hnone : ∀ a ∈ db.archives, archiveNamed c [archiveId] a = false := by
    intro a ha
    by_contra hnamed
    obtain ⟨hc, hlisted⟩ := archiveNamed_iff.mp (by simpa using hnamed)
    exact h ⟨a, ha, hc, List.mem_singleton.mp hlisted⟩
  have hselect : db.archives.select (archiveNamed c [archiveId]) = [] :=
    List.filter_eq_nil_iff.mpr fun a ha => by
      rw [hnone a ha]
      exact Bool.false_ne_true
  rw [redrivenDb, redrivenRows, hselect, deleteArchives, AutoTable.deleteWhere_eq_self hnone]
  rfl

end Batches

section Calls

variable {db db' : Db} {handle : Consumer} {call : Single} {value : Bool} {c m : ℤ} {r : Receipt}

/-- What a call does to the database, by its answer. -/
structure Outcome (handle : Consumer) (call : Single) (db db' : Db) (value : Bool) : Prop where
  /-- It reports true exactly when it names a copy. -/
  exact : value = true ↔ ∃ c m, call.Names handle db c m
  /-- Otherwise nothing changes. -/
  still : value = false → db' = db
  /-- The copy it names moves, and no other. -/
  moves : ∃ visibleAt, call.deadline = .ok visibleAt ∧ ∀ c m,
    (call.Names handle db c m → copyOf db' c m = call.moved visibleAt (copyOf db c m)) ∧
    (¬call.Names handle db c m → copyOf db' c m = copyOf db c m)

/-- A current receipt names its copy. -/
theorem names_of_held (hheld : Held db handle.id r) :
    ∃ c m, c = handle.id ∧
      ∃ d ∈ db.deliveries, d.consumerId = c ∧ d.messageId = m ∧ receiptOf d = r := by
  obtain ⟨d, hd, hc, hr⟩ := hheld
  exact ⟨handle.id, d.messageId, rfl, d, hd, hc, rfl, hr⟩

/-- A named copy has a current receipt. -/
theorem held_of_names (h : ∃ c m, c = handle.id ∧
    ∃ d ∈ db.deliveries, d.consumerId = c ∧ d.messageId = m ∧ receiptOf d = r) :
    Held db handle.id r := by
  obtain ⟨c, m, rfl, d, hd, hc, -, hr⟩ := h
  exact ⟨d, hd, hc, hr⟩

/-- A delivery that is gone leaves its copy changed. -/
theorem changed_of_gone {d : DeliveryRow} (hd : d ∈ db.deliveries) (hc : d.consumerId = c)
    (hgone : d ∉ db'.deliveries) : copyOf db' c d.messageId ≠ copyOf db c d.messageId := by
  subst hc
  intro hsame
  rw [copyOf_delivery hd] at hsame
  exact hgone (copyOf_leased.mp hsame)

/-- A named delivery does not stay. -/
theorem gone_of_named {d : DeliveryRow} (hc : d.consumerId = c) (hr : receiptOf d = r) :
    d ∉ (deleteDeliveries db (pushReceiptPredicate c [r])).deliveries := by
  intro hkept
  have hnamed : pushReceiptPredicate c [r] d = true :=
    pushReceiptPredicate_iff.mpr ⟨hc, List.mem_singleton.mpr hr⟩
  have hfree := (Table.mem_deleteWhere.mp hkept).2
  rw [hnamed] at hfree
  cases hfree

theorem moved_acked {visibleAt : ℤ} {before after : Copy} (h : Copy.Step .ack before after) :
    after = (Single.ack r).moved visibleAt before := by
  cases h
  rfl

theorem archived_of_step {v g n : ℤ} {after : Copy}
    (h : Copy.Step .archive (.leased v g n) after) : after = .archived g := by
  cases h
  rfl

/-- An acknowledgement by its answer. -/
theorem outcome_ack (hinv : Inv db) : Outcome handle (.ack r) db
    (deleteDeliveries db (pushReceiptPredicate handle.id [r]))
    ((db.deliveries.select (pushReceiptPredicate handle.id [r])).length == 1) where
  exact := by
    rw [beq_iff_eq, selected_one]
    exact ⟨names_of_held, held_of_names⟩
  still h := by
    rw [beq_eq_false_iff_ne, ne_eq, selected_one] at h
    exact deleteDeliveries_of_not_named (not_named_of_not_held h)
  moves := by
    refine ⟨0, rfl, fun c m => ⟨?_, fun hnot => ?_⟩⟩
    · rintro ⟨rfl, d, hd, hc, rfl, hr⟩
      rcases copy_acked hinv [r] handle.id handle.id d.messageId with ⟨-, -, hstep⟩ | hsame
      · exact moved_acked hstep
      · exact absurd hsame (changed_of_gone hd hc (gone_of_named hc hr))
    · rcases copy_acked hinv [r] handle.id c m with ⟨hown, ⟨d, hd, hc, hm, hlisted⟩, -⟩ | hsame
      · exact absurd ⟨hown.symm, d, hd, hc, hm, List.mem_singleton.mp hlisted⟩ hnot
      · exact hsame

/-- An update of a receipt's delivery by its answer. -/
theorem outcome_touched (hinv : Inv db) {f : DeliveryRow → DeliveryRow}
    {hf : ∀ d, (f d).key = d.key} {visibleAt : ℤ} (hcall : call.deadline = .ok visibleAt)
    (hnames : ∀ c m, call.Names handle db c m ↔ c = handle.id ∧
      ∃ d ∈ db.deliveries, d.consumerId = c ∧ d.messageId = m ∧ receiptOf d = r)
    (hmoved : ∀ d : DeliveryRow, Copy.leased (f d).visibleAt (f d).generation (f d).deliveryCount =
      call.moved visibleAt (.leased d.visibleAt d.generation d.deliveryCount))
    (hinv' : Inv (touched db handle.id f hf (chunks receiptsPerChunk [r]))) :
    Outcome handle call db (touched db handle.id f hf (chunks receiptsPerChunk [r]))
      (touchedRows handle.id f hf db.deliveries (chunks receiptsPerChunk [r]) == 1) where
  exact := by
    simp only [beq_iff_eq, touched_one, hnames]
    exact ⟨names_of_held, held_of_names⟩
  still h := by
    rw [beq_eq_false_iff_ne, ne_eq, touched_one] at h
    exact touched_of_not_named hf (not_named_of_not_held h)
  moves := by
    refine ⟨visibleAt, hcall, fun c m => ⟨fun hnamed => ?_, fun hnot => ?_⟩⟩
    · obtain ⟨rfl, d, hd, hc, rfl, hr⟩ := (hnames c m).mp hnamed
      have hafter : f d ∈ (touched db handle.id f hf (chunks receiptsPerChunk [r])).deliveries :=
        mem_touched.mpr ⟨d, hd, touch_one hc hr⟩
      obtain ⟨hkeyc, hkeym⟩ := key_eq_iff.mp (hf d)
      have hcopy := copyOf_delivery hafter
      have hbefore := copyOf_delivery hd
      rw [hkeyc, hkeym, hc, hmoved] at hcopy
      rw [hc] at hbefore
      rw [hcopy, hbefore]
    · rcases copy_touched hinv hf [r] handle.id c m hinv' with
        ⟨hown, d, hd, hc, hm, hlisted, -⟩ | hsame
      · have hr := List.mem_singleton.mp hlisted
        exact absurd ((hnames c m).mpr ⟨hown.symm, d, hd, hc, hm, hr⟩) hnot
      · exact hsame

/-- An archived receipt by its answer. -/
theorem outcome_archived (hinv : Inv db) {detail : Option String} {archivedAt : ℤ}
    (hcall : call.deadline = .ok 0)
    (hnames : ∀ c m, call.Names handle db c m ↔ c = handle.id ∧
      ∃ d ∈ db.deliveries, d.consumerId = c ∧ d.messageId = m ∧ receiptOf d = r)
    (hmoved : ∀ v g n, call.moved 0 (.leased v g n) = .archived g) :
    Outcome handle call db (archivedDb db handle.id [r] archivedAt detail)
      ((archivedLeases db handle.id [r]).length == 1) where
  exact := by
    simp only [archivedLeases, List.length_map, beq_iff_eq, selected_one, hnames]
    exact ⟨names_of_held, held_of_names⟩
  still h := by
    rw [archivedLeases, List.length_map, beq_eq_false_iff_ne, ne_eq, selected_one] at h
    exact archivedDb_of_not_named (not_named_of_not_held h)
  moves := by
    refine ⟨0, hcall, fun c m => ⟨fun hnamed => ?_, fun hnot => ?_⟩⟩
    · obtain ⟨rfl, d, hd, hc, rfl, hr⟩ := (hnames c m).mp hnamed
      rcases copy_archived hinv [r] handle.id archivedAt detail handle.id d.messageId with
        ⟨-, -, hstep⟩ | hsame
      · have hbefore := copyOf_delivery hd
        rw [hc] at hbefore
        rw [hbefore] at hstep ⊢
        rw [hmoved]
        exact archived_of_step hstep
      · exact absurd hsame (changed_of_gone hd hc (gone_of_named hc hr))
    · rcases copy_archived hinv [r] handle.id archivedAt detail c m with
        ⟨hown, ⟨d, hd, hc, hm, hlisted⟩, -⟩ | hsame
      · have hr := List.mem_singleton.mp hlisted
        exact absurd ((hnames c m).mpr ⟨hown.symm, d, hd, hc, hm, hr⟩) hnot
      · exact hsame

/-- A redrive by its answer. -/
theorem outcome_redriven (hinv : Inv db) {archiveId : ℤ} {retry : Retry} {now visibleAt : ℤ}
    (hvisible : addDuration now retry.delay = .ok visibleAt) :
    Outcome handle (.redrive archiveId retry now) db (redrivenDb db handle.id [archiveId] visibleAt)
      ((db.archives.select (archiveNamed handle.id [archiveId])).length == 1) where
  exact := by
    rw [beq_iff_eq, restored_one]
    constructor
    · rintro ⟨a, ha, hc, hid⟩
      exact ⟨handle.id, a.messageId, rfl, a, ha, hc, rfl, hid⟩
    · rintro ⟨c, m, rfl, a, ha, hc, -, hid⟩
      exact ⟨a, ha, hc, hid⟩
  still h := by
    rw [beq_eq_false_iff_ne, ne_eq, restored_one] at h
    exact redrivenDb_of_not_named h
  moves := by
    refine ⟨visibleAt, hvisible, fun c m => ⟨?_, fun hnot => ?_⟩⟩
    · rintro ⟨rfl, a, ha, hc, rfl, hid⟩
      have hnamed : archiveNamed handle.id [archiveId] a = true :=
        archiveNamed_iff.mpr ⟨hc, List.mem_singleton.mpr hid⟩
      have hrestored : redrivenRow handle.id visibleAt a.messageId ∈
          (redrivenDb db handle.id [archiveId] visibleAt).deliveries :=
        (mem_redrivenDb hinv).mpr (.inl (mem_redrivenRows.mpr ⟨a, ha, hnamed, rfl⟩))
      have hbefore := (copyOf_archived hinv).mpr ⟨a, ha, hc, rfl, rfl⟩
      rw [hbefore]
      exact copyOf_leased.mpr hrestored
    · rcases copy_redriven hinv [archiveId] handle.id visibleAt c m with
        ⟨hown, ⟨a, ha, hc, hm, hlisted⟩, -⟩ | hsame
      · exact absurd ⟨hown.symm, a, ha, hc, hm, List.mem_singleton.mp hlisted⟩ hnot
      · exact hsame

end Calls

section Events

variable {event : Event} {handle : Consumer} {call : Single} {value : Bool} {r : Receipt}

/-- Every call that answers has the outcome of its answer. -/
theorem outcome_of_answers (hinv : Inv event.before) (h : Answers event handle call value) :
    Outcome handle call event.before event.after value := by
  obtain ⟨hop, e, hexec, hran⟩ := h
  have heffect := effect_of_valid ⟨e, hexec⟩ hinv
  have hinv' := inv_event event ⟨e, hexec⟩ hinv
  obtain ⟨fan, op, before, after, reply⟩ := event
  dsimp only at hop hexec hran heffect hinv hinv' ⊢
  subst hop
  rw [commit_single, hexec, Prod.mk.injEq] at hran
  have hvalue := hran.2
  cases call with
  | ack receipt =>
    cases heffect with
    | rejected _ => cases hvalue
    | idle hidle => exact absurd hidle.1 Nat.one_ne_zero
    | acked _ _ =>
      cases hvalue
      exact outcome_ack hinv
  | nack receipt retry now =>
    cases heffect with
    | rejected _ => cases hvalue
    | idle hidle => exact absurd hidle.1 Nat.one_ne_zero
    | nacked _ _ hvisible =>
      cases hvalue
      exact outcome_touched hinv hvisible (fun _ _ => Iff.rfl) (fun _ => rfl) hinv'
  | extendVisibility receipt timeout now =>
    cases heffect with
    | rejected _ => cases hvalue
    | idle hidle => exact absurd hidle.1 Nat.one_ne_zero
    | extended _ _ _ _ hvisible =>
      cases hvalue
      exact outcome_touched hinv hvisible (fun _ _ => Iff.rfl) (fun _ => rfl) hinv'
  | archive receipt archivedAt =>
    cases heffect with
    | rejected _ => cases hvalue
    | idle hidle => exact absurd hidle.1 Nat.one_ne_zero
    | archived _ _ =>
      cases hvalue
      exact outcome_archived hinv rfl (fun _ _ => Iff.rfl) fun _ _ _ => rfl
  | archiveWithDetail receipt detail archivedAt =>
    cases heffect with
    | rejected _ => cases hvalue
    | idle hidle => exact absurd hidle.1 Nat.one_ne_zero
    | archived _ _ =>
      cases hvalue
      exact outcome_archived hinv rfl (fun _ _ => Iff.rfl) fun _ _ _ => rfl
  | redrive archiveId retry now =>
    cases heffect with
    | rejected _ => cases hvalue
    | idle hidle => exact absurd hidle.1 Nat.one_ne_zero
    | redriven _ _ hvisible =>
      cases hvalue
      exact outcome_redriven hinv hvisible

/-- The receipt is behind its copy for as long as the copy is not redriven. -/
structure Spent (db : Db) (r : Receipt) : Prop where
  passed : Passed db r.consumerId r.messageId
  past : ∀ v g n, copyOf db r.consumerId r.messageId = .leased v g n → r.generation < g

/-- A call names the copy of its receipt. -/
theorem names_receipt {db : Db} {c m : ℤ} (hr : call.receipt = some r) :
    call.Names handle db c m ↔ c = handle.id ∧
      ∃ d ∈ db.deliveries, d.consumerId = c ∧ d.messageId = m ∧ receiptOf d = r := by
  cases call <;> cases hr <;> exact Iff.rfl

/-- A settled copy is gone from the deliveries, or at a later generation. -/
theorem moved_settled {visibleAt v g n v' g' n' : ℤ} (hsettles : call.settles = true)
    (h : call.moved visibleAt (.leased v g n) = .leased v' g' n') : g < g' := by
  cases call with
  | ack _ => cases h
  | nack _ _ _ =>
    cases h
    omega
  | extendVisibility _ _ _ => cases hsettles
  | archive _ _ => cases h
  | archiveWithDetail _ _ _ => cases h
  | redrive _ _ _ => cases hsettles

/-- A receipt that settled was the one of its copy, and is spent. -/
theorem spent_of_settles (hinv : Inv event.before) (h : Settles event r) :
    (∃ v n, copyOf event.before r.consumerId r.messageId = .leased v r.generation n) ∧
      Spent event.after r := by
  obtain ⟨handle, call, hr, hsettles, hanswers⟩ := h
  have hv : system.valid event := ⟨hanswers.2.choose, hanswers.2.choose_spec.1⟩
  have houtcome := outcome_of_answers hinv hanswers
  obtain ⟨c, m, hnames⟩ := houtcome.exact.mp rfl
  obtain ⟨visibleAt, -, hmoves⟩ := houtcome.moves
  have hmoved := (hmoves c m).1 hnames
  obtain ⟨-, d, hd, rfl, rfl, rfl⟩ := (names_receipt hr).mp hnames
  have hbefore : copyOf event.before (receiptOf d).consumerId (receiptOf d).messageId =
      .leased d.visibleAt (receiptOf d).generation d.deliveryCount := copyOf_delivery hd
  refine ⟨⟨_, _, hbefore⟩, passed_step hv hinv (passed_of_leased hinv hbefore),
    fun v g n hafter => ?_⟩
  rw [copyOf_delivery hd] at hmoved
  exact moved_settled hsettles (hmoved.symm.trans hafter)

/-- A spent receipt stays spent unless its copy is redriven. -/
theorem spent_step (hv : system.valid event) (hinv : Inv event.before)
    (hredrive : ¬Redrives event r.consumerId r.messageId) (h : Spent event.before r) :
    Spent event.after r := by
  refine ⟨passed_step hv hinv h.passed, fun v' g' n' hafter => ?_⟩
  obtain ⟨act, hhappens, hstep⟩ := copy_step hv hinv r.consumerId r.messageId
  rw [hafter] at hstep
  generalize hbefore : copyOf event.before r.consumerId r.messageId = before at hstep
  cases hstep with
  | stay => exact h.past v' g' n' hbefore
  | first _ => exact absurd hhappens.2 h.passed.not_waiting
  | @retry now _ v g n hlease hvisible =>
    have hlt := h.past v g n hbefore
    omega
  | @nack _ v g _ _ hgrows =>
    have hlt := h.past v g n' hbefore
    omega
  | extend visibleAt v g n => exact h.past v g' n' hbefore
  | redrive _ g => exact absurd hhappens hredrive

end Events

section Runs

variable {events : List Event} {db db' : Db} {r : Receipt}

/-- Over events that do not redrive its copy a receipt stays spent. -/
theorem spent_run (hrun : Transition.Run system db events db') (hinv : Inv db)
    (hredrive : ∀ e ∈ events, ¬Redrives e r.consumerId r.messageId) (h : Spent db r) :
    Spent db' r :=
  hrun.keeps (P := fun db => Spent db r) hinv inv_event h
    fun e he hv hinv h => spent_step hv hinv (hredrive e he) h

/-- What calls with one receipt tell their callers over a run. -/
structure SingleCalls (events : List Event) : Prop where
  /-- Each call does exactly what it answers. -/
  outcome : ∀ event ∈ events, ∀ handle call value, Answers event handle call value →
    Outcome handle call event.before event.after value
  /-- Two calls that settle one receipt have a redrive of its copy between them. -/
  once : ∀ pre mid post : List Event, ∀ a b : Event, ∀ r,
    events = pre ++ a :: (mid ++ b :: post) → Settles a r → Settles b r →
      ∃ y ∈ mid, Redrives y r.consumerId r.messageId

/-- In every run a call with one receipt answers true exactly when the receipt is the consumer's
own and current; then the copy it names moves and no other, and otherwise nothing changes. At
most one call of a receipt ever settles it, unless its copy is redriven in between. -/
theorem single_calls (hrun : Run events db) : SingleCalls events where
  outcome event hevent handle call value h := by
    obtain ⟨pre, post, rfl⟩ := List.append_of_mem hevent
    obtain ⟨hpre, -, -⟩ := hrun.around
    exact outcome_of_answers (hpre.invariant inv_empty inv_event) h
  once pre mid post a b r hevents ha hb := by
    subst hevents
    obtain ⟨hpre, hva, hrest⟩ := hrun.around
    have hinva : Inv a.before := hpre.invariant inv_empty inv_event
    have hinva' : Inv a.after := inv_event a hva hinva
    obtain ⟨hmid, -, -⟩ := hrest.around
    have hinvb : Inv b.before := hmid.invariant hinva' inv_event
    by_contra hnone
    have hnoRedrive : ∀ e ∈ mid, ¬Redrives e r.consumerId r.messageId :=
      fun e he h => hnone ⟨e, he, h⟩
    have hspent := spent_run hmid hinva' hnoRedrive (spent_of_settles hinva ha).2
    obtain ⟨v, n, hcopy⟩ := (spent_of_settles hinvb hb).1
    exact absurd (hspent.past v r.generation n hcopy) (lt_irrefl _)

end Runs

/-- A lease is archived, redriven and leased again with the receipt it had. -/
def againOps : List Op :=
  [.openConsumer "jobs" .all 0, .publishBatch [⟨none, [7], none⟩] 0, .claim firstHandle pollOne 0,
    .archiveBatch firstHandle [⟨1, 1, 1⟩] none 1, .redriveBatch firstHandle [1] .immediately 2,
    .claim firstHandle pollOne 3, .ackBatch firstHandle [⟨1, 1, 1⟩]]

/-- The events of the two leases. -/
def againEvent (i : ℕ) : Event :=
  perform Engine.inOrder Inner.default (againOps.getD i (.beginDraining firstHandle 0))
    (outcomeDb Engine.inOrder Inner.default (againOps.take i) Db.empty)

set_option maxRecDepth 20000 in
/-- A receipt settles twice, around a redrive. -/
theorem single_calls_again :
    Settles (againEvent 3) ⟨1, 1, 1⟩ ∧ Settles (againEvent 6) ⟨1, 1, 1⟩ ∧
      ∃ y ∈ [againEvent 4, againEvent 5], Redrives y 1 1 := by
  have hrun : Run ([againEvent 0, againEvent 1, againEvent 2] ++ againEvent 3 ::
      ([againEvent 4, againEvent 5] ++ againEvent 6 :: []))
      (outcomeDb Engine.inOrder Inner.default againOps Db.empty) :=
    trace_run Engine.inOrder Inner.default againOps Db.empty
  have hfirst : Settles (againEvent 3) ⟨1, 1, 1⟩ :=
    ⟨firstHandle, .archive ⟨1, 1, 1⟩ 1, rfl, rfl, rfl, Engine.inOrder, rfl, rfl⟩
  have hsecond : Settles (againEvent 6) ⟨1, 1, 1⟩ :=
    ⟨firstHandle, .ack ⟨1, 1, 1⟩, rfl, rfl, rfl, Engine.inOrder, rfl, rfl⟩
  exact ⟨hfirst, hsecond, (single_calls hrun).once _ _ _ _ _ _ rfl hfirst hsecond⟩

end LiteFan.SingleReceipts

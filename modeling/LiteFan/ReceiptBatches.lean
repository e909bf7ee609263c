import LiteFan.Preservation

/-!
# Receipt batches as sets of current receipts

An acknowledgement, a release and an extension each act once on every delivery
a current receipt of the list names, as long as no delivery is named again by a
later chunk with the receipt it answers to after the earlier one. An
acknowledged delivery answers to none, a released one to the next generation
and an extended one still to the same.
-/

namespace LiteFan.ReceiptBatches

open LiteFan.Api LiteFan.Time LiteFan.Schema LiteFan.Storage LiteFan.Store LiteFan.Consumer
open LiteFan.System LiteFan.Invariant LiteFan.Effect LiteFan.Step LiteFan.Preservation Relational

/-- A batch of receipts to acknowledge, release or extend. -/
inductive Receipts where
  | ack
  | nack (retry : Retry) (now : ℤ)
  | extend (visibilityTimeout : Duration) (now : ℤ)

/-- The transaction of a batch. -/
def Receipts.run (op : Receipts) (fan : Inner) (self : Consumer) (receipts : List Receipt) :
    Transaction BatchResult :=
  match op with
  | .ack => ackBatch fan self receipts
  | .nack retry now => nackBatch fan self receipts retry now
  | .extend visibilityTimeout now => extendVisibilityBatch fan self receipts visibilityTimeout now

/-- The deadline a batch sets, if its argument is accepted; acknowledging sets none. -/
def Receipts.deadline : Receipts → Except Error ℤ
  | .ack => .ok 0
  | .nack retry now => addDuration now retry.delay
  | .extend visibilityTimeout now => do
    let ms ← durationMs visibilityTimeout
    if ms = 0 then .error .invalidVisibilityTimeout else addDuration now visibilityTimeout

/-- The tables after the operation was applied once to each delivery of the consumer that a
receipt of the list names. -/
def Receipts.once (op : Receipts) (visibleAt : ℤ) (db : Db) (c : ℤ)
    (receipts : List Receipt) : Db :=
  match op with
  | .ack => deleteDeliveries db (pushReceiptPredicate c receipts)
  | .nack _ _ => { db with
      deliveries := db.deliveries.updateWhere (pushReceiptPredicate c receipts) (nackRow visibleAt)
        (nackRow_key visibleAt) }
  | .extend _ _ => { db with
      deliveries := db.deliveries.updateWhere (pushReceiptPredicate c receipts)
        (extendRow visibleAt) (extendRow_key visibleAt) }

/-- The distinct receipts of a list that name a delivery of the consumer as it is stored. -/
def current (db : Db) (c : ℤ) (receipts : List Receipt) : List Receipt :=
  receipts.dedup.filter fun r =>
    db.deliveries.rows.any fun d => d.consumerId == c && decide (receiptOf d = r)

/-- The batch reports its distinct current receipts as applied and the rest as stale, and
leaves the tables of one application to each delivery they name. -/
def Exact (op : Receipts) (fan : Inner) (self : Consumer) (receipts : List Receipt) (visibleAt : ℤ)
    (db : Db) : Prop :=
  op.run fan self receipts db = .ok (op.once visibleAt db self.id receipts,
    ⟨(current db self.id receipts).length, receipts.length - (current db self.id receipts).length⟩)

/-- The receipt a delivery answers to once the operation has been applied to it. -/
def Receipts.follows (op : Receipts) (d : DeliveryRow) : Option Receipt :=
  match op with
  | .ack => none
  | .nack _ _ => some ⟨d.consumerId, d.messageId, d.generation + 1⟩
  | .extend _ _ => some (receiptOf d)

/-- No chunk after the first that names a delivery of the consumer holds the receipt the
delivery then answers to. -/
def Separate (op : Receipts) (db : Db) (c : ℤ) (batches : List (List Receipt)) : Prop :=
  ∀ pre chunk post, batches = pre ++ chunk :: post → ∀ d ∈ db.deliveries, d.consumerId = c →
    receiptOf d ∈ chunk → receiptOf d ∉ pre.flatten → ∀ r ∈ op.follows d, r ∉ post.flatten

section Current

variable {db : Db} {c : ℤ} {receipts : List Receipt}

theorem mem_current {r : Receipt} :
    r ∈ current db c receipts ↔
      r ∈ receipts ∧ ∃ d ∈ db.deliveries, d.consumerId = c ∧ receiptOf d = r := by
  simp only [current, List.mem_filter, List.mem_dedup, List.any_eq_true,
    Bool.and_eq_true, beq_iff_eq,
    decide_eq_true_eq]
  exact Iff.rfl

/-- There are as many distinct current receipts as deliveries they name. -/
theorem length_current (db : Db) (c : ℤ) (receipts : List Receipt) :
    (current db c receipts).length =
      (db.deliveries.select (pushReceiptPredicate c receipts)).length := by
  have hnamed : ((db.deliveries.select (pushReceiptPredicate c receipts)).map receiptOf).Nodup := by
    refine List.Nodup.map_on ?_ (db.deliveries.select_nodup _)
    intro a ha b hb hsame
    have ha := (Table.mem_select.mp ha).1
    have hb := (Table.mem_select.mp hb).1
    simp only [receiptOf, Receipt.mk.injEq] at hsame
    exact Table.eq_of_key ha hb (key_eq_iff.mpr ⟨hsame.1, hsame.2.1⟩)
  have hcurrent : (current db c receipts).Nodup := receipts.nodup_dedup.filter _
  have hperm : (current db c receipts).Perm
      ((db.deliveries.select (pushReceiptPredicate c receipts)).map receiptOf) := by
    refine (List.perm_ext_iff_of_nodup hcurrent hnamed).mpr fun r => ?_
    simp only [mem_current, List.mem_map, Table.mem_select, pushReceiptPredicate_iff]
    constructor
    · intro h
      obtain ⟨hlisted, d, hd, hc, rfl⟩ := h
      exact ⟨d, ⟨hd, hc, hlisted⟩, rfl⟩
    · intro h
      obtain ⟨d, ⟨hd, hc, hlisted⟩, rfl⟩ := h
      exact ⟨hlisted, d, hd, hc, rfl⟩
  rw [hperm.length_eq, List.length_map]

/-- What a list names depends on its members only. -/
theorem named_perm {receipts' : List Receipt} (h : receipts'.Perm receipts) :
    pushReceiptPredicate c receipts' = pushReceiptPredicate c receipts := by
  funext d
  rw [Bool.eq_iff_iff, pushReceiptPredicate_iff, pushReceiptPredicate_iff, h.mem_iff]

/-- One application to each named delivery is the same for every arrangement of the list. -/
theorem once_perm (op : Receipts) (visibleAt : ℤ) {receipts' : List Receipt}
    (h : receipts'.Perm receipts) :
    op.once visibleAt db c receipts' = op.once visibleAt db c receipts := by
  unfold Receipts.once
  rw [named_perm h]

theorem length_current_perm {receipts' : List Receipt} (h : receipts'.Perm receipts) :
    (current db c receipts').length = (current db c receipts).length := by
  rw [length_current, length_current, named_perm h]

end Current

section Hits

variable {f : DeliveryRow → DeliveryRow} {c : ℤ}

/-- How many chunks of an update name a row, each as the chunks before it left it. -/
def hits (c : ℤ) (f : DeliveryRow → DeliveryRow) : List (List Receipt) → DeliveryRow → ℕ
  | [], _ => 0
  | receipts :: batches, d =>
    (if pushReceiptPredicate c receipts d then 1 else 0) +
      hits c f batches (Table.rowUpdate (pushReceiptPredicate c receipts) f d)

/-- The rows an update reports are the hits of all stored rows. -/
theorem touchedRows_eq (hf : ∀ d, (f d).key = d.key) (batches : List (List Receipt))
    (t : Table DeliveryRow DeliveryRow.key) :
    touchedRows c f hf t batches = (t.rows.map (hits c f batches)).sum := by
  induction batches generalizing t with
  | nil =>
    rw [touchedRows]
    simp [hits]
  | cons receipts batches ih =>
    have hrows : (t.updateWhere (pushReceiptPredicate c receipts) f hf).rows =
        t.rows.map (Table.rowUpdate (pushReceiptPredicate c receipts) f) := rfl
    have hsum : ∀ rows : List DeliveryRow, (rows.filter (pushReceiptPredicate c receipts)).length +
        ((rows.map (Table.rowUpdate (pushReceiptPredicate c receipts) f)).map
          (hits c f batches)).sum =
          (rows.map (hits c f (receipts :: batches))).sum := by
      intro rows
      induction rows with
      | nil => rfl
      | cons d rows ihRows =>
        rw [List.filter_cons, List.map_cons, List.map_cons, List.map_cons, List.sum_cons,
          List.sum_cons,
          ← ihRows, hits]
        split_ifs with hn
        · rw [List.length_cons]
          omega
        · omega
    rw [touchedRows, ih, hrows]
    exact hsum t.rows

/-- A row is hit when some chunk names it as it stands. -/
theorem hits_pos_iff (batches : List (List Receipt)) (d : DeliveryRow) :
    0 < hits c f batches d ↔ pushReceiptPredicate c batches.flatten d = true := by
  induction batches generalizing d with
  | nil => simp [hits, pushReceiptPredicate_nil]
  | cons receipts batches ih =>
    rw [hits, List.flatten_cons, pushReceiptPredicate_append, Table.rowUpdate]
    cases hn : pushReceiptPredicate c receipts d with
    | true => simp
    | false => simpa using ih d

/-- A row is hit at most once exactly when no chunk after the first that names it names it
as that one left it. -/
theorem hits_le_one_iff (batches : List (List Receipt)) (d : DeliveryRow) :
    hits c f batches d ≤ 1 ↔ ∀ pre chunk post, batches = pre ++ chunk :: post →
      pushReceiptPredicate c chunk d = true → pushReceiptPredicate c pre.flatten d = false →
      pushReceiptPredicate c post.flatten (f d) = false := by
  induction batches with
  | nil =>
    refine iff_of_true (Nat.zero_le 1) fun pre chunk post hsplit => ?_
    exact absurd hsplit (by simp)
  | cons receipts batches ih =>
    rw [hits, Table.rowUpdate]
    cases hn : pushReceiptPredicate c receipts d with
    | true =>
      have hzero : (if true = true then 1 else 0) + hits c f batches
          (if true = true then f d else d) ≤ 1 ↔
          ¬0 < hits c f batches (f d) := by
        simp only [if_true]
        omega
      rw [hzero, hits_pos_iff, Bool.not_eq_true]
      constructor
      · intro hnone pre chunk post hsplit hchunk hpre
        cases pre with
        | nil =>
          simp only [List.nil_append, List.cons.injEq] at hsplit
          rw [← hsplit.2]
          exact hnone
        | cons first pre =>
          simp only [List.cons_append, List.cons.injEq] at hsplit
          rw [List.flatten_cons, pushReceiptPredicate_append, ← hsplit.1, hn, Bool.true_or] at hpre
          cases hpre
      · intro h
        exact h [] receipts batches rfl hn (pushReceiptPredicate_nil c d)
    | false =>
      simp only [Bool.false_eq_true, if_false, Nat.zero_add]
      rw [ih]
      constructor
      · intro h pre chunk post hsplit hchunk hpre
        cases pre with
        | nil =>
          simp only [List.nil_append, List.cons.injEq] at hsplit
          rw [← hsplit.1, hn] at hchunk
          cases hchunk
        | cons first pre =>
          simp only [List.cons_append, List.cons.injEq] at hsplit
          rw [List.flatten_cons, pushReceiptPredicate_append, ← hsplit.1, hn, Bool.false_or] at hpre
          exact h pre chunk post hsplit.2 hchunk hpre
      · intro h pre chunk post hsplit hchunk hpre
        refine h (receipts :: pre) chunk post (by rw [hsplit]; rfl) hchunk ?_
        rw [List.flatten_cons, pushReceiptPredicate_append, hn, hpre, Bool.false_or]

/-- A row hit once is rewritten once. -/
theorem touch_of_hits_le_one {batches : List (List Receipt)} {d : DeliveryRow}
    (h : hits c f batches d ≤ 1) :
    touch c f batches d = Table.rowUpdate (pushReceiptPredicate c batches.flatten) f d := by
  induction batches generalizing d with
  | nil => simp [touch, Table.rowUpdate, pushReceiptPredicate_nil]
  | cons receipts batches ih =>
    rw [touch_cons]
    unfold Table.rowUpdate
    rw [List.flatten_cons, pushReceiptPredicate_append]
    rw [hits, Table.rowUpdate] at h
    cases hn : pushReceiptPredicate c receipts d with
    | true =>
      rw [hn, if_pos rfl, if_pos rfl] at h
      have hzero : ¬0 < hits c f batches (f d) := by omega
      rw [hits_pos_iff, Bool.not_eq_true] at hzero
      rw [if_pos rfl, Bool.true_or, if_pos rfl, touch_of_not_named hzero]
    | false =>
      rw [hn, if_neg Bool.false_ne_true, if_neg Bool.false_ne_true, Nat.zero_add] at h
      rw [if_neg Bool.false_ne_true, Bool.false_or]
      exact ih h

/-- An update reports the named rows exactly when no row is hit twice, and then it is one
update of them. -/
theorem touched_once (hf : ∀ d, (f d).key = d.key) (db : Db) (batches : List (List Receipt)) :
    (touchedRows c f hf db.deliveries batches =
        (db.deliveries.select (pushReceiptPredicate c batches.flatten)).length ↔
      ∀ d ∈ db.deliveries, hits c f batches d ≤ 1) ∧
    ((∀ d ∈ db.deliveries, hits c f batches d ≤ 1) → touched db c f hf batches =
      { db with
        deliveries := db.deliveries.updateWhere
          (pushReceiptPredicate c batches.flatten) f hf }) := by
  have hpos : ∀ d, (if pushReceiptPredicate c batches.flatten d then 1 else 0) ≤
      hits c f batches d := by
    intro d
    split_ifs with hn
    · exact (hits_pos_iff batches d).mpr hn
    · exact Nat.zero_le _
  have hexact : ∀ d, (hits c f batches d =
      if pushReceiptPredicate c batches.flatten d then 1 else 0) ↔ hits c f batches d ≤ 1 := by
    intro d
    have hle := hpos d
    have hiff := hits_pos_iff (f := f) (c := c) batches d
    split_ifs at hle ⊢ with hn
    · omega
    · have hzero : ¬0 < hits c f batches d := fun h => hn (hiff.mp h)
      omega
  constructor
  · rw [touchedRows_eq, Table.select, sum_eq_length_filter_iff fun d _ => hpos d]
    exact forall₂_congr fun d _ => hexact d
  · intro h
    have hrows : db.deliveries.mapRows (touch c f batches) (touch_key hf c batches) =
        db.deliveries.updateWhere (pushReceiptPredicate c batches.flatten) f hf :=
      Table.mapRows_congr fun d hd => touch_of_hits_le_one (h d hd)
    rw [touched, hrows]

/-- A batch is separate when its update hits no delivery twice. -/
theorem separate_iff {op : Receipts} (hconsumer : ∀ d, (f d).consumerId = d.consumerId)
    (hfollows : ∀ d, op.follows d = some (receiptOf (f d))) (db : Db)
    (batches : List (List Receipt)) :
    Separate op db c batches ↔ ∀ d ∈ db.deliveries, hits c f batches d ≤ 1 := by
  constructor
  · intro h d hd
    refine (hits_le_one_iff batches d).mpr fun pre chunk post hsplit hchunk hpre => ?_
    obtain ⟨hc, hlisted⟩ := pushReceiptPredicate_iff.mp hchunk
    have hunlisted : receiptOf d ∉ pre.flatten := by
      intro hearlier
      rw [pushReceiptPredicate_iff.mpr ⟨hc, hearlier⟩] at hpre
      cases hpre
    have hlater := h pre chunk post hsplit d hd hc hlisted hunlisted _ (hfollows d)
    exact eq_false_of_ne_true fun hnamed => hlater (pushReceiptPredicate_iff.mp hnamed).2
  · intro h pre chunk post hsplit d hd hc hlisted hunlisted r hr hlater
    rw [hfollows d] at hr
    cases hr
    have hpre : pushReceiptPredicate c pre.flatten d = false :=
      eq_false_of_ne_true fun hnamed => hunlisted (pushReceiptPredicate_iff.mp hnamed).2
    have hnone := (hits_le_one_iff batches d).mp (h d hd) pre chunk post hsplit
      (pushReceiptPredicate_iff.mpr ⟨hc, hlisted⟩) hpre
    rw [pushReceiptPredicate_iff.mpr ⟨(hconsumer d).trans hc, hlater⟩] at hnone
    cases hnone

end Hits

section Batches

variable {op : Receipts} {fan : Inner} {self : Consumer} {receipts : List Receipt} {visibleAt : ℤ}
  {db : Db}

/-- An update that touches the rows it names is exact when it hits none of them twice. -/
theorem exact_of_touched {f : DeliveryRow → DeliveryRow} (hf : ∀ d, (f d).key = d.key)
    (hconsumer : ∀ d, (f d).consumerId = d.consumerId)
    (hfollows : ∀ d, op.follows d = some (receiptOf (f d)))
    (hrun : op.run fan self receipts db =
      .ok (touched db self.id f hf (chunks receiptsPerChunk receipts),
        batchResult receipts.length
          (touchedRows self.id f hf db.deliveries (chunks receiptsPerChunk receipts))))
    (honce : op.once visibleAt db self.id receipts =
      { db with
        deliveries := db.deliveries.updateWhere (pushReceiptPredicate self.id receipts) f hf }) :
    Exact op fan self receipts visibleAt db ↔
      Separate op db self.id (chunks receiptsPerChunk receipts) := by
  have htouched := touched_once (c := self.id) hf db (chunks receiptsPerChunk receipts)
  rw [flatten_chunks receiptsPerChunk_pos] at htouched
  rw [separate_iff hconsumer hfollows, Exact, hrun, honce, length_current]
  constructor
  · intro h
    refine htouched.1.mp ?_
    injection h with h
    have hresult := congrArg (fun outcome => outcome.2.applied) h
    exact hresult
  · intro h
    rw [htouched.2 h, htouched.1.mpr h]
    rfl

/-- A list that fits one chunk has no later chunk. -/
theorem separate_of_short (op : Receipts) (db : Db) (c : ℤ) (hne : receipts ≠ [])
    (hle : receipts.length ≤ receiptsPerChunk) : Separate op db c
    (chunks receiptsPerChunk receipts) := by
  intro pre chunk post hsplit d _ _ _ _ r _ hlater
  rw [chunks_of_length_le hne hle] at hsplit
  cases pre with
  | nil =>
    simp only [List.nil_append, List.cons.injEq] at hsplit
    rw [← hsplit.2] at hlater
    exact absurd hlater List.not_mem_nil
  | cons first pre => exact absurd hsplit (by simp)

/-- Within the limit a batch whose deadline fits is exact, the same for every arrangement of
its list, precisely when no later chunk names a delivery again. -/
theorem receipt_batches_iff (hreachable : Reachable db) (hle : receipts.length ≤ fan.maxBatchSize)
    (hdeadline : op.deadline = .ok visibleAt) :
    (Exact op fan self receipts visibleAt db ↔
      Separate op db self.id (chunks receiptsPerChunk receipts)) ∧
    ∀ receipts', receipts'.Perm receipts →
      op.once visibleAt db self.id receipts' = op.once visibleAt db self.id receipts ∧
        (current db self.id receipts').length = (current db self.id receipts).length := by
  refine ⟨?_, fun receipts' h => ⟨once_perm op visibleAt h, length_current_perm h⟩⟩
  have hrows := delivery_checks (inv_reachable hreachable)
  by_cases hpos : 0 < receipts.length
  · cases op with
    | ack =>
      refine iff_of_true ?_ fun pre chunk post _ d _ _ _ _ r hr => by cases hr
      have hacked : ackBatch fan self receipts db = _ := ackBatch_eq hpos hle
      rw [← length_current] at hacked
      exact hacked
    | nack retry now =>
      exact exact_of_touched (nackRow_key visibleAt) (fun _ => rfl) (fun _ => rfl)
        (nackBatch_eq hpos hle hdeadline hrows) rfl
    | extend timeout now =>
      have hparts : ∃ ms, durationMs timeout = .ok ms ∧ ms ≠ 0 ∧
          addDuration now timeout = .ok visibleAt := by
        unfold Receipts.deadline at hdeadline
        dsimp only at hdeadline
        cases hms : durationMs timeout with
        | error err =>
          rw [hms] at hdeadline
          cases hdeadline
        | ok ms =>
          simp only [hms, bind, Except.bind] at hdeadline
          by_cases hzero : ms = 0
          · rw [if_pos hzero] at hdeadline
            cases hdeadline
          · rw [if_neg hzero] at hdeadline
            exact ⟨ms, rfl, hzero, hdeadline⟩
      obtain ⟨ms, hms, hne, hvisible⟩ := hparts
      exact exact_of_touched (extendRow_key visibleAt) (fun _ => rfl) (fun _ => rfl)
        (extendVisibilityBatch_eq hpos hle hms hne hvisible hrows) rfl
  · obtain rfl : receipts = [] := List.length_eq_zero_iff.mp (by omega)
    have hnone : ∀ d, pushReceiptPredicate self.id [] d = false := pushReceiptPredicate_nil self.id
    have hempty : op.run fan self [] db = .ok (db, BatchResult.default) := by
      cases op <;> rfl
    have hkeep : op.once visibleAt db self.id [] = db := by
      cases op with
      | ack => rw [Receipts.once, deleteDeliveries, Table.deleteWhere_eq_self fun d _ => hnone d]
      | nack _ _ =>
        rw [Receipts.once, Table.updateWhere_eq_self fun d _ h => by rw [hnone d] at h; cases h]
      | extend _ _ =>
        rw [Receipts.once, Table.updateWhere_eq_self fun d _ h => by rw [hnone d] at h; cases h]
    refine iff_of_true ?_ fun pre chunk post hsplit => ?_
    · rw [Exact, hempty, hkeep]
      rfl
    · have hchunks : chunks receiptsPerChunk ([] : List Receipt) = [] := rfl
      rw [hchunks] at hsplit
      exact absurd hsplit (by simp)

end Batches

/-- One message is published and leased. -/
def leasedOps : List Op :=
  [.openConsumer "jobs" .all 0, .publishBatch [⟨none, [7], none⟩] 0, .claim firstHandle pollOne 0]

set_option maxRecDepth 10000 in
/-- A release that names the lease twice applies once and counts the repeat as stale. -/
theorem receipt_batches_iff_released :
    Exact (.nack .immediately 0) Inner.default firstHandle [⟨1, 1, 1⟩, ⟨1, 1, 1⟩] 0
      (outcomeDb Engine.inOrder Inner.default leasedOps Db.empty) :=
  (receipt_batches_iff (reachable_outcome Engine.inOrder Inner.default leasedOps)
    (by decide) rfl).1.mpr
    (separate_of_short _ _ _ (List.cons_ne_nil _ _) (by decide))

/-- The one current receipt, once more than a chunk holds. -/
def repeated : List Receipt := List.replicate 333 ⟨1, 1, 1⟩

set_option maxRecDepth 20000 in
/-- An extension of one lease by the repeated receipt reports two of them as applied. -/
theorem repeated_extension :
    Reachable (outcomeDb Engine.inOrder Inner.default leasedOps Db.empty) ∧
    repeated.length ≤ Inner.default.maxBatchSize ∧
    (Receipts.extend 1000000 0).deadline = .ok 1 ∧
    ¬Exact (.extend 1000000 0) Inner.default firstHandle repeated 1
      (outcomeDb Engine.inOrder Inner.default leasedOps Db.empty) := by
  refine ⟨reachable_outcome _ _ _, by decide, rfl, fun h => ?_⟩
  have hreported : ((Receipts.extend 1000000 0).run Inner.default firstHandle repeated
      (outcomeDb Engine.inOrder Inner.default leasedOps Db.empty)).toOption.map
        (fun outcome => outcome.2.applied) = some 2 := rfl
  have hcurrent : (current (outcomeDb Engine.inOrder Inner.default leasedOps Db.empty) 1
      repeated).length = 1 := by
    rw [length_current]
    rfl
  rw [h] at hreported
  have hone : some (current (outcomeDb Engine.inOrder Inner.default leasedOps Db.empty) 1
      repeated).length = some 2 := hreported
  rw [hcurrent] at hone
  cases hone

end LiteFan.ReceiptBatches

import LiteFan.Invariant

/-!
# What receipt batches do to the tables

A chunked acknowledgement or archive is one deletion by the whole receipt list.
A chunked release or extension rewrites each row by the chunks that name it in
turn; a row no receipt names is left as it is. Redriving and purging act on the
archive rows that their identifiers name.
-/

namespace LiteFan.Effect

open LiteFan.Api LiteFan.Time LiteFan.Schema LiteFan.Storage LiteFan.Store LiteFan.Consumer
open LiteFan.Invariant Relational

/-- The receipt that names a delivery row as it stands. -/
def receiptOf (d : DeliveryRow) : Receipt := ⟨d.consumerId, d.messageId, d.generation⟩

/-- The predicate holds exactly of the handle's own rows whose current receipt is listed. -/
theorem pushReceiptPredicate_iff {c : ℤ} {receipts : List Receipt} {d : DeliveryRow} :
    pushReceiptPredicate c receipts d = true ↔ d.consumerId = c ∧ receiptOf d ∈ receipts := by
  unfold pushReceiptPredicate receiptOf
  simp only [Bool.and_eq_true, beq_iff_eq, List.any_eq_true, and_assoc]
  refine and_congr_right fun _ => ⟨?_, ?_⟩
  · rintro ⟨r, hr, h₁, h₂, h₃⟩
    rw [← h₁, ← h₂, ← h₃]
    exact hr
  · intro h
    exact ⟨_, h, rfl, rfl, rfl⟩

/-- No receipts name no row. -/
theorem pushReceiptPredicate_nil (c : ℤ) (d : DeliveryRow) :
    pushReceiptPredicate c [] d = false := by
  simp only [pushReceiptPredicate, List.any_nil, Bool.and_false]

/-- Two lists name what either names. -/
theorem pushReceiptPredicate_append (c : ℤ) (xs ys : List Receipt) (d : DeliveryRow) :
    pushReceiptPredicate c (xs ++ ys) d =
      (pushReceiptPredicate c xs d || pushReceiptPredicate c ys d) := by
  simp only [pushReceiptPredicate, List.any_append, Bool.and_or_distrib_left]

/-- Every chunk of a receipt statement holds at least one receipt. -/
theorem receiptsPerChunk_pos : 0 < receiptsPerChunk := by decide

/-- A row is named by the chunks together when its receipt is listed. -/
theorem named_chunks {own : ℤ} {receipts : List Receipt} {d : DeliveryRow}
    (hown : d.consumerId = own) (hlisted : receiptOf d ∈ receipts) :
    pushReceiptPredicate own (chunks receiptsPerChunk receipts).flatten d = true := by
  rw [flatten_chunks receiptsPerChunk_pos]
  exact pushReceiptPredicate_iff.mpr ⟨hown, hlisted⟩

/-- An empty batch has nothing to do. -/
theorem receiptBatch_zero {fan : Inner} {size : ℕ} {body : Transaction BatchResult} {db : Db}
    (h : size = 0) : receiptBatch fan size body db = .ok (db, BatchResult.default) := by
  rw [receiptBatch, if_pos h]

/-- A batch over the limit is refused. -/
theorem receiptBatch_large {fan : Inner} {size : ℕ} {body : Transaction BatchResult} {db : Db}
    (h : fan.maxBatchSize < size) :
    receiptBatch fan size body db = .error (.batchTooLarge size fan.maxBatchSize) := by
  rw [receiptBatch, if_neg (by omega), ensureBatchSize_error h]
  rfl

/-- A batch inside the limit runs its body. -/
theorem receiptBatch_eq {fan : Inner} {size : ℕ} {body : Transaction BatchResult} {db : Db}
    (hpos : 0 < size) (hle : size ≤ fan.maxBatchSize) :
    receiptBatch fan size body db = body db := by
  unfold receiptBatch
  rw [if_neg hpos.ne', ensureBatchSize_ok.mpr hle]
  rfl

section Acknowledge

/-- Acknowledging chunk by chunk is one deletion. -/
theorem foldl_ackChunk (self : Consumer) (db : Db) (receipts : List Receipt) :
    (chunks receiptsPerChunk receipts).foldl (ackChunk self) (db, 0) =
      (deleteDeliveries db (pushReceiptPredicate self.id receipts),
        (db.deliveries.select (pushReceiptPredicate self.id receipts)).length) := by
  have hnil : ∀ acc : Db × ℕ, ackChunk self acc [] = acc := by
    intro acc
    have hkeep : acc.1.deliveries.deleteWhere (pushReceiptPredicate self.id []) =
        acc.1.deliveries :=
      Table.deleteWhere_eq_self fun d _ => pushReceiptPredicate_nil self.id d
    have hnone : acc.1.deliveries.select (pushReceiptPredicate self.id []) = [] :=
      List.filter_eq_nil_iff.mpr fun d _ => by simp [pushReceiptPredicate_nil]
    simp only [ackChunk, deleteDeliveries, hkeep, hnone, List.length_nil, Nat.add_zero]
  have happ : ∀ (acc : Db × ℕ) (xs ys : List Receipt),
      ackChunk self acc (xs ++ ys) = ackChunk self (ackChunk self acc xs) ys := by
    intro acc xs ys
    have hor : pushReceiptPredicate self.id (xs ++ ys) = fun d =>
        pushReceiptPredicate self.id xs d || pushReceiptPredicate self.id ys d :=
      funext (pushReceiptPredicate_append self.id xs ys)
    have hlen := (acc.1.deliveries.select_or_perm (pushReceiptPredicate self.id xs)
      (pushReceiptPredicate self.id ys)).length_eq
    rw [List.length_append] at hlen
    simp only [ackChunk, deleteDeliveries, Table.deleteWhere_deleteWhere, hor]
    rw [← hlen, Nat.add_assoc]
  rw [foldl_chunks hnil happ receiptsPerChunk_pos]
  simp only [ackChunk, Nat.zero_add]

/-- An acknowledgement inside the limit deletes the rows the receipts name. -/
theorem ackBatch_eq {fan : Inner} {self : Consumer} {receipts : List Receipt} {db : Db}
    (hpos : 0 < receipts.length) (hle : receipts.length ≤ fan.maxBatchSize) :
    ackBatch fan self receipts db =
      .ok (deleteDeliveries db (pushReceiptPredicate self.id receipts),
        batchResult receipts.length
          (db.deliveries.select (pushReceiptPredicate self.id receipts)).length) := by
  unfold ackBatch
  rw [receiptBatch_eq hpos hle, foldl_ackChunk]

end Acknowledge

/-- The counter checks of a delivery row. -/
theorem deliveryCheck_iff {d : DeliveryRow} :
    deliveryCheck d = true ↔ 0 ≤ d.generation ∧ 0 ≤ d.deliveryCount := by
  simp only [deliveryCheck, Bool.and_eq_true, decide_eq_true_eq]

section Update

variable {f : DeliveryRow → DeliveryRow}

/-- What the chunks of an update make of one row. -/
def touch (c : ℤ) (f : DeliveryRow → DeliveryRow) (batches : List (List Receipt))
    (d : DeliveryRow) :
    DeliveryRow :=
  batches.foldl (fun d receipts => Table.rowUpdate (pushReceiptPredicate c receipts) f d) d

theorem touch_cons (c : ℤ) (receipts : List Receipt) (batches : List (List Receipt))
    (d : DeliveryRow) :
    touch c f (receipts :: batches) d =
      touch c f batches (Table.rowUpdate (pushReceiptPredicate c receipts) f d) := rfl

theorem touch_key (hf : ∀ d, (f d).key = d.key) (c : ℤ) (batches : List (List Receipt))
    (d : DeliveryRow) : (touch c f batches d).key = d.key := by
  induction batches generalizing d with
  | nil => rfl
  | cons receipts batches ih => rw [touch_cons, ih, Table.key_rowUpdate hf]

/-- A row no receipt names is left as it is. -/
theorem touch_of_not_named {c : ℤ} {batches : List (List Receipt)} {d : DeliveryRow}
    (h : pushReceiptPredicate c batches.flatten d = false) : touch c f batches d = d := by
  induction batches with
  | nil => rfl
  | cons receipts batches ih =>
    rw [List.flatten_cons, pushReceiptPredicate_append, Bool.or_eq_false_iff] at h
    rw [touch_cons, Table.rowUpdate, h.1, if_neg Bool.false_ne_true, ih h.2]

/-- The number of rows an update reports, chunk by chunk. -/
def touchedRows (c : ℤ) (f : DeliveryRow → DeliveryRow) (hf : ∀ d, (f d).key = d.key)
    (t : Table DeliveryRow DeliveryRow.key) : List (List Receipt) → ℕ
  | [] => 0
  | receipts :: batches =>
    (t.select (pushReceiptPredicate c receipts)).length +
      touchedRows c f hf (t.updateWhere (pushReceiptPredicate c receipts) f hf) batches

/-- Nothing is reported when no row is named. -/
theorem touchedRows_of_not_named {hf : ∀ d, (f d).key = d.key} {c : ℤ}
    {batches : List (List Receipt)}
    {t : Table DeliveryRow DeliveryRow.key}
    (h : ∀ d ∈ t, pushReceiptPredicate c batches.flatten d = false) :
    touchedRows c f hf t batches = 0 := by
  induction batches with
  | nil => rfl
  | cons receipts batches ih =>
    have hsplit : ∀ d ∈ t, pushReceiptPredicate c receipts d = false ∧
        pushReceiptPredicate c batches.flatten d = false := by
      intro d hd
      have hboth := h d hd
      rw [List.flatten_cons, pushReceiptPredicate_append, Bool.or_eq_false_iff] at hboth
      exact hboth
    have hnone : t.select (pushReceiptPredicate c receipts) = [] :=
      List.filter_eq_nil_iff.mpr fun d hd => by rw [(hsplit d hd).1]; exact Bool.false_ne_true
    have hkeep : t.updateWhere (pushReceiptPredicate c receipts) f hf = t :=
      Table.updateWhere_eq_self fun d hd htrue => by rw [(hsplit d hd).1] at htrue; cases htrue
    rw [touchedRows, hnone, hkeep, ih fun d hd => (hsplit d hd).2]
    rfl

/-- The database an update leaves: each row rewritten by the chunks that name it. -/
def touched (db : Db) (c : ℤ) (f : DeliveryRow → DeliveryRow) (hf : ∀ d, (f d).key = d.key)
    (batches : List (List Receipt)) : Db :=
  { db with deliveries := db.deliveries.mapRows (touch c f batches) (touch_key hf c batches) }

/-- The deliveries an update leaves. -/
theorem mem_touched {db : Db} {c : ℤ} {hf : ∀ d, (f d).key = d.key} {batches : List (List Receipt)}
    {d : DeliveryRow} :
    d ∈ (touched db c f hf batches).deliveries ↔ ∃ b ∈ db.deliveries, touch c f batches b = d :=
  show d ∈ db.deliveries.mapRows (touch c f batches) (touch_key hf c batches) ↔ _ from
    Table.mem_mapRows

/-- Updating chunk by chunk rewrites each row by the chunks that name it. -/
theorem foldlM_updateChunk (hf : ∀ d, (f d).key = d.key) (self : Consumer)
    (hcheck : ∀ d, deliveryCheck d = true → deliveryCheck (f d) = true)
    (batches : List (List Receipt)) (db : Db) (count : ℕ)
    (hrows : ∀ d ∈ db.deliveries, deliveryCheck d = true) :
    batches.foldlM (updateChunk self f hf) (db, count) =
      .ok (touched db self.id f hf batches,
        count + touchedRows self.id f hf db.deliveries batches) := by
  induction batches generalizing db count with
  | nil =>
    have hid : db.deliveries.mapRows (touch self.id f []) (touch_key hf self.id []) =
        db.deliveries :=
      Table.ext_mem fun d => by simp [touch]
    rw [touched, hid]
    rfl
  | cons receipts batches ih =>
    have hone : updateChunk self f hf (db, count) receipts =
        .ok ({ db with deliveries :=
            db.deliveries.updateWhere (pushReceiptPredicate self.id receipts) f hf },
          count + (db.deliveries.select (pushReceiptPredicate self.id receipts)).length) := by
      simp only [updateChunk, updateDeliveries_eq fun d hd => hcheck d (hrows d hd)]
      rfl
    have hrows' : ∀ d ∈ db.deliveries.updateWhere (pushReceiptPredicate self.id receipts) f hf,
        deliveryCheck d = true := by
      intro d hd
      rcases Table.mem_updateWhere.mp hd with ⟨hd, -⟩ | ⟨b, hb, -, rfl⟩
      · exact hrows d hd
      · exact hcheck b (hrows b hb)
    have hcompose : (db.deliveries.updateWhere (pushReceiptPredicate self.id receipts) f hf).mapRows
          (touch self.id f batches) (touch_key hf self.id batches) =
        db.deliveries.mapRows (touch self.id f (receipts :: batches))
          (touch_key hf self.id (receipts :: batches)) := by
      unfold Table.updateWhere
      rw [Table.mapRows_mapRows]
      rfl
    have hstep := ih { db with deliveries :=
        db.deliveries.updateWhere (pushReceiptPredicate self.id receipts) f hf }
      (count + (db.deliveries.select (pushReceiptPredicate self.id receipts)).length) hrows'
    rw [List.foldlM_cons, hone]
    refine hstep.trans ?_
    simp only [touched, hcompose, touchedRows, Nat.add_assoc]

theorem nackRow_key (visibleAt : ℤ) (d : DeliveryRow) : (nackRow visibleAt d).key = d.key := rfl

theorem extendRow_key (visibleAt : ℤ) (d : DeliveryRow) : (extendRow visibleAt d).key = d.key := rfl

/-- A release keeps the counters within their checks. -/
theorem deliveryCheck_nackRow (visibleAt : ℤ) (d : DeliveryRow) (h : deliveryCheck d = true) :
    deliveryCheck (nackRow visibleAt d) = true := by
  obtain ⟨hgeneration, hcount⟩ := deliveryCheck_iff.mp h
  have hgrow : 0 ≤ d.generation + 1 := by omega
  exact deliveryCheck_iff.mpr ⟨hgrow, hcount⟩

/-- An extension keeps the counters. -/
theorem deliveryCheck_extendRow (visibleAt : ℤ) (d : DeliveryRow) (h : deliveryCheck d = true) :
    deliveryCheck (extendRow visibleAt d) = true := h

/-- A release supersedes every receipt it names, and the deadline of a row it
touches is the release's own. -/
theorem touch_nackRow (c visibleAt : ℤ) (batches : List (List Receipt)) (d : DeliveryRow) :
    (touch c (nackRow visibleAt) batches d = d ∧
        pushReceiptPredicate c batches.flatten d = false) ∨
      (pushReceiptPredicate c batches.flatten d = true ∧
        ∃ generation, d.generation < generation ∧
          touch c (nackRow visibleAt) batches d =
            { d with visibleAt := visibleAt, generation := generation }) := by
  induction batches generalizing d with
  | nil => exact Or.inl ⟨rfl, pushReceiptPredicate_nil c d⟩
  | cons receipts batches ih =>
    rw [List.flatten_cons, pushReceiptPredicate_append, touch_cons, Table.rowUpdate]
    cases hn : pushReceiptPredicate c receipts d with
    | false =>
      rw [if_neg Bool.false_ne_true, Bool.false_or]
      exact ih d
    | true =>
      rw [if_pos rfl, Bool.true_or]
      refine Or.inr ⟨rfl, ?_⟩
      rcases ih (nackRow visibleAt d) with ⟨heq, -⟩ | ⟨-, generation, hlt, heq⟩
      · exact ⟨d.generation + 1, by omega, heq⟩
      · have hgrow : d.generation + 1 < generation := hlt
        exact ⟨generation, by omega, heq⟩

/-- An extension moves the named rows' deadlines to at least the shared one. -/
theorem touch_extendRow (c visibleAt : ℤ) (batches : List (List Receipt)) (d : DeliveryRow) :
    touch c (extendRow visibleAt) batches d =
      Table.rowUpdate (pushReceiptPredicate c batches.flatten) (extendRow visibleAt) d := by
  induction batches generalizing d with
  | nil => simp [touch, Table.rowUpdate, pushReceiptPredicate_nil]
  | cons receipts batches ih =>
    have hsame : pushReceiptPredicate c batches.flatten (extendRow visibleAt d) =
        pushReceiptPredicate c batches.flatten d := rfl
    have htwice : extendRow visibleAt (extendRow visibleAt d) = extendRow visibleAt d := by
      simp only [extendRow, max_assoc, max_self]
    rw [touch_cons, ih, List.flatten_cons]
    unfold Table.rowUpdate
    rw [pushReceiptPredicate_append]
    by_cases hn : pushReceiptPredicate c receipts d = true
    · rw [if_pos hn, hsame, htwice, ite_self, hn, Bool.true_or, if_pos rfl]
    · rw [if_neg hn, eq_false_of_ne_true hn, Bool.false_or]

end Update

/-- A batch that changes the named rows, inside the limit, touches them chunk by chunk. -/
theorem updateBatch_eq {f : DeliveryRow → DeliveryRow} (hf : ∀ d, (f d).key = d.key)
    (hcheck : ∀ d, deliveryCheck d = true → deliveryCheck (f d) = true) {fan : Inner}
    {self : Consumer} {receipts : List Receipt} {db : Db} (hpos : 0 < receipts.length)
    (hle : receipts.length ≤ fan.maxBatchSize)
    (hrows : ∀ d ∈ db.deliveries, deliveryCheck d = true) :
    receiptBatch fan receipts.length (fun db => do
        let changed ← (chunks receiptsPerChunk receipts).foldlM (updateChunk self f hf) (db, 0)
        return (changed.1, batchResult receipts.length changed.2)) db =
      .ok (touched db self.id f hf (chunks receiptsPerChunk receipts),
        batchResult receipts.length
          (touchedRows self.id f hf db.deliveries (chunks receiptsPerChunk receipts))) := by
  have hfold := foldlM_updateChunk hf self hcheck (chunks receiptsPerChunk receipts) db 0 hrows
  rw [Nat.zero_add] at hfold
  rw [receiptBatch_eq hpos hle]
  simp only [bind, Except.bind, hfold]
  rfl

/-- A release once its deadline is known. -/
def nackUntil (fan : Inner) (self : Consumer) (receipts : List Receipt) (visibleAt : ℤ) :
    Transaction BatchResult :=
  receiptBatch fan receipts.length fun db => do
    let nacked ← (chunks receiptsPerChunk receipts).foldlM
      (updateChunk self (nackRow visibleAt) (nackRow_key visibleAt)) (db, 0)
    return (nacked.1, batchResult receipts.length nacked.2)

/-- A release up to a deadline, inside the limit, touches the named rows. -/
theorem nackUntil_eq {fan : Inner} {self : Consumer} {receipts : List Receipt} {db : Db}
    (visibleAt : ℤ) (hpos : 0 < receipts.length) (hle : receipts.length ≤ fan.maxBatchSize)
    (hrows : ∀ d ∈ db.deliveries, deliveryCheck d = true) :
    nackUntil fan self receipts visibleAt db =
      .ok (touched db self.id (nackRow visibleAt) (nackRow_key visibleAt)
        (chunks receiptsPerChunk receipts),
        batchResult receipts.length (touchedRows self.id (nackRow visibleAt) (nackRow_key visibleAt)
          db.deliveries (chunks receiptsPerChunk receipts))) :=
  updateBatch_eq (nackRow_key visibleAt) (deliveryCheck_nackRow visibleAt) hpos hle hrows

/-- A release with a deadline in range is the release up to it. -/
theorem nackBatch_until {fan : Inner} {self : Consumer} {receipts : List Receipt} {retry : Retry}
    {now visibleAt : ℤ} (hvisible : addDuration now retry.delay = .ok visibleAt) :
    nackBatch fan self receipts retry now = nackUntil fan self receipts visibleAt := by
  unfold nackBatch
  simp only [hvisible]
  rfl

/-- A release inside the limit with a deadline in range touches the named rows. -/
theorem nackBatch_eq {fan : Inner} {self : Consumer} {receipts : List Receipt} {retry : Retry}
    {now visibleAt : ℤ} {db : Db} (hpos : 0 < receipts.length)
    (hle : receipts.length ≤ fan.maxBatchSize)
    (hvisible : addDuration now retry.delay = .ok visibleAt)
    (hrows : ∀ d ∈ db.deliveries, deliveryCheck d = true) :
    nackBatch fan self receipts retry now db =
      .ok (touched db self.id (nackRow visibleAt) (nackRow_key visibleAt)
        (chunks receiptsPerChunk receipts),
        batchResult receipts.length (touchedRows self.id (nackRow visibleAt) (nackRow_key visibleAt)
          db.deliveries (chunks receiptsPerChunk receipts))) := by
  rw [nackBatch_until hvisible]
  exact nackUntil_eq visibleAt hpos hle hrows

/-- A release with a deadline out of range is refused. -/
theorem nackBatch_late {fan : Inner} {self : Consumer} {receipts : List Receipt} {retry : Retry}
    {now : ℤ} {err : Error} {db : Db} (hpos : 0 < receipts.length)
    (hle : receipts.length ≤ fan.maxBatchSize)
    (hvisible : addDuration now retry.delay = .error err) :
    nackBatch fan self receipts retry now db = .error err := by
  rw [nackBatch, receiptBatch_eq hpos hle, hvisible]
  rfl

/-- An extension once its deadline is known. -/
def extendUntil (fan : Inner) (self : Consumer) (receipts : List Receipt) (visibleAt : ℤ) :
    Transaction BatchResult :=
  receiptBatch fan receipts.length fun db => do
    let extended ← (chunks receiptsPerChunk receipts).foldlM
      (updateChunk self (extendRow visibleAt) (extendRow_key visibleAt)) (db, 0)
    return (extended.1, batchResult receipts.length extended.2)

/-- An extension up to a deadline, inside the limit, touches the named rows. -/
theorem extendUntil_eq {fan : Inner} {self : Consumer} {receipts : List Receipt} {db : Db}
    (visibleAt : ℤ) (hpos : 0 < receipts.length) (hle : receipts.length ≤ fan.maxBatchSize)
    (hrows : ∀ d ∈ db.deliveries, deliveryCheck d = true) :
    extendUntil fan self receipts visibleAt db =
      .ok (touched db self.id (extendRow visibleAt) (extendRow_key visibleAt)
        (chunks receiptsPerChunk receipts),
        batchResult receipts.length (touchedRows self.id (extendRow visibleAt)
          (extendRow_key visibleAt)
          db.deliveries (chunks receiptsPerChunk receipts))) :=
  updateBatch_eq (extendRow_key visibleAt) (deliveryCheck_extendRow visibleAt) hpos hle hrows

/-- An extension by a real timeout with a deadline in range is the extension up to it. -/
theorem extendVisibilityBatch_until {fan : Inner} {self : Consumer} {receipts : List Receipt}
    {timeout : Duration} {now ms visibleAt : ℤ} (hms : durationMs timeout = .ok ms) (hne : ms ≠ 0)
    (hvisible : addDuration now timeout = .ok visibleAt) :
    extendVisibilityBatch fan self receipts timeout now =
      extendUntil fan self receipts visibleAt := by
  unfold extendVisibilityBatch
  simp only [hms, bind, Except.bind, if_neg hne, hvisible]
  rfl

/-- An extension inside the limit with a deadline in range touches the named rows. -/
theorem extendVisibilityBatch_eq {fan : Inner} {self : Consumer} {receipts : List Receipt}
    {timeout : Duration} {now ms visibleAt : ℤ} {db : Db} (hpos : 0 < receipts.length)
    (hle : receipts.length ≤ fan.maxBatchSize) (hms : durationMs timeout = .ok ms) (hne : ms ≠ 0)
    (hvisible : addDuration now timeout = .ok visibleAt)
    (hrows : ∀ d ∈ db.deliveries, deliveryCheck d = true) :
    extendVisibilityBatch fan self receipts timeout now db =
      .ok (touched db self.id (extendRow visibleAt) (extendRow_key visibleAt)
        (chunks receiptsPerChunk receipts),
        batchResult receipts.length (touchedRows self.id (extendRow visibleAt)
          (extendRow_key visibleAt)
          db.deliveries (chunks receiptsPerChunk receipts))) := by
  rw [extendVisibilityBatch_until hms hne hvisible]
  exact extendUntil_eq visibleAt hpos hle hrows

section Extensions

variable {fan : Inner} {self : Consumer} {receipts : List Receipt} {timeout : Duration} {now : ℤ}
  {err : Error} {db : Db}

/-- An extension by a timeout that does not fit is refused. -/
theorem extendVisibilityBatch_unfit (hpos : 0 < receipts.length)
    (hle : receipts.length ≤ fan.maxBatchSize) (hms : durationMs timeout = .error err) :
    extendVisibilityBatch fan self receipts timeout now db = .error err := by
  rw [extendVisibilityBatch, receiptBatch_eq hpos hle, hms]
  rfl

/-- An extension by nothing is refused. -/
theorem extendVisibilityBatch_zero (hpos : 0 < receipts.length)
    (hle : receipts.length ≤ fan.maxBatchSize) (hms : durationMs timeout = .ok 0) :
    extendVisibilityBatch fan self receipts timeout now db = .error .invalidVisibilityTimeout := by
  rw [extendVisibilityBatch, receiptBatch_eq hpos hle, hms]
  rfl

/-- An extension with a deadline out of range is refused. -/
theorem extendVisibilityBatch_late {ms : ℤ} (hpos : 0 < receipts.length)
    (hle : receipts.length ≤ fan.maxBatchSize) (hms : durationMs timeout = .ok ms) (hne : ms ≠ 0)
    (hvisible : addDuration now timeout = .error err) :
    extendVisibilityBatch fan self receipts timeout now db = .error err := by
  rw [extendVisibilityBatch, receiptBatch_eq hpos hle, hms]
  simp only [bind, Except.bind, if_neg hne, hvisible]

end Extensions

section Archive

/-- Removing chunk by chunk deletes the named rows and collects each of them once. -/
theorem foldl_archiveChunk (e : Engine) (self : Consumer) (batches : List (List Receipt)) (db : Db)
    (leases : List ArchivedLease) :
    ∃ removed, batches.foldl (archiveChunk e self) (db, leases) =
        (deleteDeliveries db (pushReceiptPredicate self.id batches.flatten), leases ++ removed) ∧
      removed.Perm ((db.deliveries.select (pushReceiptPredicate self.id batches.flatten)).map
        ArchivedLease.fromRow) := by
  induction batches generalizing db leases with
  | nil =>
    have hkeep : db.deliveries.deleteWhere (pushReceiptPredicate self.id []) = db.deliveries :=
      Table.deleteWhere_eq_self fun d _ => pushReceiptPredicate_nil self.id d
    have hnone : db.deliveries.select (pushReceiptPredicate self.id []) = [] :=
      List.filter_eq_nil_iff.mpr fun d _ => by simp [pushReceiptPredicate_nil]
    refine ⟨[], ?_, ?_⟩
    · simp only [List.foldl_nil, List.flatten_nil, deleteDeliveries, hkeep, List.append_nil]
    · rw [List.flatten_nil, hnone, List.map_nil]
  | cons receipts batches ih =>
    have hor : pushReceiptPredicate self.id (receipts :: batches).flatten = fun d =>
        pushReceiptPredicate self.id receipts d || pushReceiptPredicate self.id batches.flatten d :=
      funext (pushReceiptPredicate_append self.id receipts batches.flatten)
    obtain ⟨removed, hfold, hperm⟩ := ih
      (deleteDeliveries db (pushReceiptPredicate self.id receipts))
      (leases ++ e.returning ((db.deliveries.select (pushReceiptPredicate self.id receipts)).map
        ArchivedLease.fromRow))
    refine ⟨e.returning ((db.deliveries.select (pushReceiptPredicate self.id receipts)).map
      ArchivedLease.fromRow) ++ removed, ?_, ?_⟩
    · rw [List.foldl_cons, archiveChunk]
      refine hfold.trans ?_
      simp only [deleteDeliveries, Table.deleteWhere_deleteWhere, hor, List.append_assoc]
    · rw [hor]
      have hboth := (db.deliveries.select_or_perm (pushReceiptPredicate self.id receipts)
        (pushReceiptPredicate self.id batches.flatten)).map ArchivedLease.fromRow
      rw [List.map_append] at hboth
      exact ((e.returning_perm _).append hperm).trans hboth

/-- The archived leases of a batch: its named rows, by message. -/
def archivedLeases (db : Db) (c : ℤ) (receipts : List Receipt) : List ArchivedLease :=
  (db.deliveries.select (pushReceiptPredicate c receipts)).map ArchivedLease.fromRow

/-- One consumer's rows stand in message order. -/
theorem archivedLeases_sorted (db : Db) (c : ℤ) (receipts : List Receipt) :
    (archivedLeases db c receipts).Pairwise fun a b => a.messageId < b.messageId := by
  refine List.pairwise_map.mpr ((db.deliveries.select_sorted _).imp_of_mem ?_)
  intro a b ha hb hlt
  have hca := (pushReceiptPredicate_iff.mp (Table.mem_select.mp ha).2).1
  have hcb := (pushReceiptPredicate_iff.mp (Table.mem_select.mp hb).2).1
  simp only [DeliveryRow.key, Prod.Lex.toLex_lt_toLex, hca, hcb] at hlt
  rcases hlt with hlt | ⟨-, hlt⟩
  · exact absurd hlt (lt_irrefl c)
  · exact hlt

/-- No message is archived twice by one batch. -/
theorem archivedLeases_index {db : Db} {c : ℤ} {receipts : List Receipt} {i j : ℕ}
    {a b : ArchivedLease} (ha : (archivedLeases db c receipts)[i]? = some a)
    (hb : (archivedLeases db c receipts)[j]? = some b)
    (hsame : a.messageId = b.messageId) : i = j := by
  obtain ⟨hi, hgetI⟩ := List.getElem?_eq_some_iff.mp ha
  obtain ⟨hj, hgetJ⟩ := List.getElem?_eq_some_iff.mp hb
  have hordered := List.pairwise_iff_getElem.mp (archivedLeases_sorted db c receipts)
  by_contra hne
  rcases Nat.lt_or_gt_of_ne hne with hlt | hlt
  · have hless := hordered i j hi hj hlt
    rw [hgetI, hgetJ] at hless
    omega
  · have hless := hordered j i hj hi hlt
    rw [hgetI, hgetJ] at hless
    omega

/-- Archives inserted chunk by chunk are one insert. -/
theorem insertArchivedLeases_eq (db : Db) (leases : List ArchivedLease) (archivedAt : ℤ)
    (detail : Option String) :
    insertArchivedLeases db leases archivedAt detail =
      leases.foldlM (insertArchivedLease archivedAt detail) db := by
  unfold insertArchivedLeases
  refine foldlM_chunks (fun s => rfl) (fun s xs ys => ?_) (by decide) leases db
  rw [List.foldlM_append]
  rfl

/-- The database an archive batch leaves. -/
def archivedDb (db : Db) (c : ℤ) (receipts : List Receipt) (archivedAt : ℤ)
    (detail : Option String) :
    Db :=
  { deleteDeliveries db (pushReceiptPredicate c receipts) with
    archives := db.archives.appendAll (archiveRow archivedAt detail)
      (archiveRow_id archivedAt detail) (archivedLeases db c receipts) }

/-- An archive batch inside the limit moves the named rows into the archive. -/
theorem archiveBatchWithDetail_eq (e : Engine) {fan : Inner} {self : Consumer}
    {receipts : List Receipt} {detail : Option String} {archivedAt : ℤ} {db : Db} (hinv : Inv db)
    (hpos : 0 < receipts.length) (hle : receipts.length ≤ fan.maxBatchSize) :
    archiveBatchWithDetail e fan self receipts detail archivedAt db =
      .ok (archivedDb db self.id receipts archivedAt detail,
        batchResult receipts.length (archivedLeases db self.id receipts).length) := by
  obtain ⟨removed, hfold, hperm⟩ :=
    foldl_archiveChunk e self (chunks receiptsPerChunk receipts) db []
  rw [flatten_chunks receiptsPerChunk_pos, List.nil_append] at hfold
  rw [flatten_chunks receiptsPerChunk_pos] at hperm
  have hsort : sortBy ArchivedLease.messageId removed = archivedLeases db self.id receipts :=
    sortBy_eq_of_perm hperm (archivedLeases_sorted db self.id receipts)
  have hmem : ∀ l ∈ archivedLeases db self.id receipts,
      ∃ d ∈ db.deliveries, ArchivedLease.fromRow d = l := by
    intro l hl
    obtain ⟨d, hd, rfl⟩ := List.mem_map.mp hl
    exact ⟨d, (Table.mem_select.mp hd).1, rfl⟩
  have hpairs : ((archivedLeases db self.id receipts).map ArchivedLease.pair).Nodup := by
    refine List.pairwise_map.mpr ((archivedLeases_sorted db self.id receipts).imp ?_)
    intro a b hlt heq
    have hsnd : a.messageId = b.messageId := congrArg Prod.snd heq
    omega
  have hinsert : (archivedLeases db self.id receipts).foldlM (insertArchivedLease archivedAt detail)
        (deleteDeliveries db (pushReceiptPredicate self.id receipts)) =
      .ok (archivedDb db self.id receipts archivedAt detail) := foldlM_insertArchivedLease
    (fun l hl => by
      obtain ⟨d, hd, rfl⟩ := hmem l hl
      obtain ⟨hgeneration, hcount⟩ := hinv.delivery_counts d hd
      simp only [archiveCheck, ArchivedLease.fromRow, hgeneration, hcount, decide_true,
        Bool.and_self])
    (fun l hl => by
      obtain ⟨d, hd, rfl⟩ := hmem l hl
      exact (hinv.delivery_refers d hd).consumer)
    (fun l hl => by
      obtain ⟨d, hd, rfl⟩ := hmem l hl
      exact (hinv.delivery_refers d hd).message)
    (fun l hl a ha hc => by
      obtain ⟨d, hd, rfl⟩ := hmem l hl
      exact hinv.disjoint a ha d hd hc)
    hpairs
  unfold archiveBatchWithDetail
  rw [receiptBatch_eq hpos hle]
  simp only [hfold, hsort, insertArchivedLeases_eq, hinsert]
  rfl

/-- The archives after an archive batch: those from before, and one for each named row. -/
theorem mem_archivedDb {db : Db} {c archivedAt : ℤ} {receipts : List Receipt}
    {detail : Option String}
    {a : ArchiveRow} :
    a ∈ (archivedDb db c receipts archivedAt detail).archives ↔ a ∈ db.archives ∨
      ∃ i : ℕ, ∃ lease, (archivedLeases db c receipts)[i]? = some lease ∧
        a = archiveRow archivedAt detail lease (db.archives.seq + 1 + i) :=
  show a ∈ db.archives.appendAll (archiveRow archivedAt detail) (archiveRow_id archivedAt detail)
    (archivedLeases db c receipts) ↔ _ from AutoTable.mem_appendAll

/-- An archived lease is a named row. -/
theorem mem_archivedLeases {db : Db} {c : ℤ} {receipts : List Receipt} {lease : ArchivedLease} :
    lease ∈ archivedLeases db c receipts ↔ ∃ d ∈ db.deliveries,
      pushReceiptPredicate c receipts d = true ∧ ArchivedLease.fromRow d = lease := by
  simp only [archivedLeases, List.mem_map, Table.mem_select, and_assoc]

end Archive

section Redrive

/-- The archives of one consumer with a listed identifier. -/
def archiveNamed (c : ℤ) (archiveIds : List ℤ) (a : ArchiveRow) : Bool :=
  a.consumerId == c && decide (a.id ∈ archiveIds)

theorem archiveNamed_iff {c : ℤ} {archiveIds : List ℤ} {a : ArchiveRow} :
    archiveNamed c archiveIds a = true ↔ a.consumerId = c ∧ a.id ∈ archiveIds := by
  simp only [archiveNamed, Bool.and_eq_true, beq_iff_eq, decide_eq_true_eq]

theorem archiveNamed_append (c : ℤ) (xs ys : List ℤ) (a : ArchiveRow) :
    archiveNamed c (xs ++ ys) a = (archiveNamed c xs a || archiveNamed c ys a) := by
  simp only [archiveNamed, List.mem_append, Bool.decide_or, Bool.and_or_distrib_left]

/-- Removing archives chunk by chunk deletes the named rows and collects their messages. -/
theorem foldl_redriveChunk (e : Engine) (self : Consumer) (batches : List (List ℤ)) (db : Db)
    (ids : List ℤ) :
    ∃ removed, batches.foldl (redriveChunk e self) (db, ids) =
        (deleteArchives db (archiveNamed self.id batches.flatten), ids ++ removed) ∧
      removed.Perm ((db.archives.select (archiveNamed self.id batches.flatten)).map
        ArchiveRow.messageId) := by
  induction batches generalizing db ids with
  | nil =>
    have hnever : ∀ a : ArchiveRow, archiveNamed self.id [] a = false := by simp [archiveNamed]
    have hkeep : db.archives.deleteWhere (archiveNamed self.id []) = db.archives :=
      AutoTable.deleteWhere_eq_self fun a _ => hnever a
    have hnone : db.archives.select (archiveNamed self.id []) = [] :=
      List.filter_eq_nil_iff.mpr fun a _ => by simp [hnever]
    refine ⟨[], ?_, ?_⟩
    · simp only [List.foldl_nil, List.flatten_nil, deleteArchives, hkeep, List.append_nil]
    · rw [List.flatten_nil, hnone, List.map_nil]
  | cons archiveIds batches ih =>
    have hor : archiveNamed self.id (archiveIds :: batches).flatten = fun a =>
        archiveNamed self.id archiveIds a || archiveNamed self.id batches.flatten a :=
      funext (archiveNamed_append self.id archiveIds batches.flatten)
    obtain ⟨removed, hfold, hperm⟩ := ih (deleteArchives db (archiveNamed self.id archiveIds))
      (ids ++ e.returning ((db.archives.select (archiveNamed self.id archiveIds)).map
        ArchiveRow.messageId))
    refine ⟨e.returning ((db.archives.select (archiveNamed self.id archiveIds)).map
      ArchiveRow.messageId) ++ removed, ?_, ?_⟩
    · rw [List.foldl_cons]
      refine hfold.trans ?_
      simp only [deleteArchives, AutoTable.deleteWhere_deleteWhere, hor, List.append_assoc]
    · rw [hor]
      have hboth := (db.archives.select_or_perm (archiveNamed self.id archiveIds)
        (archiveNamed self.id batches.flatten)).map ArchiveRow.messageId
      rw [List.map_append] at hboth
      exact ((e.returning_perm _).append hperm).trans hboth

/-- The deliveries a redrive restores, in archive order. -/
def redrivenRows (db : Db) (c : ℤ) (archiveIds : List ℤ) (visibleAt : ℤ) : List DeliveryRow :=
  (db.archives.select (archiveNamed c archiveIds)).map fun a => redrivenRow c visibleAt a.messageId

/-- A restored row comes from a named archive. -/
theorem mem_redrivenRows {db : Db} {c visibleAt : ℤ} {archiveIds : List ℤ} {d : DeliveryRow} :
    d ∈ redrivenRows db c archiveIds visibleAt ↔
      ∃ a ∈ db.archives, archiveNamed c archiveIds a = true ∧
        redrivenRow c visibleAt a.messageId = d := by
  simp only [redrivenRows, List.mem_map, AutoTable.mem_select, and_assoc]

/-- Restored rows have free keys: no copy is both delivered and archived. -/
theorem redrivenRows_free {db : Db} (hinv : Inv db) {c visibleAt : ℤ} {archiveIds : List ℤ} :
    ∀ d ∈ redrivenRows db c archiveIds visibleAt, ∀ b ∈ db.deliveries, b.key ≠ d.key := by
  intro d hd b hb hkey
  obtain ⟨a, ha, hnamed, rfl⟩ := mem_redrivenRows.mp hd
  obtain ⟨hc, -⟩ := archiveNamed_iff.mp hnamed
  obtain ⟨hbc, hbm⟩ := key_eq_iff.mp hkey
  exact hinv.disjoint a ha b hb (hc.trans hbc.symm) hbm.symm

/-- Restored rows have different keys: an archived pair is unique. -/
theorem redrivenRows_nodup {db : Db} (hinv : Inv db) {c visibleAt : ℤ} {archiveIds : List ℤ} :
    ((redrivenRows db c archiveIds visibleAt).map DeliveryRow.key).Nodup := by
  rw [redrivenRows, List.map_map]
  refine List.Nodup.map_on ?_ (Table.select_nodup _ _)
  intro a ha b hb hkey
  obtain ⟨ha, hna⟩ := AutoTable.mem_select.mp ha
  obtain ⟨hb, hnb⟩ := AutoTable.mem_select.mp hb
  have hca := (archiveNamed_iff.mp hna).1
  have hcb := (archiveNamed_iff.mp hnb).1
  exact hinv.archive_pair a ha b hb (hca.trans hcb.symm) (key_eq_iff.mp hkey).2

/-- The database a redrive leaves. -/
def redrivenDb (db : Db) (c : ℤ) (archiveIds : List ℤ) (visibleAt : ℤ) : Db :=
  { deleteArchives db (archiveNamed c archiveIds) with
    deliveries := db.deliveries.insertMany (redrivenRows db c archiveIds visibleAt) }

/-- Deliveries inserted chunk by chunk are one insert. -/
theorem foldlM_insertDeliveries (c visibleAt : ℤ) (ids : List ℤ) (db : Db) :
    (chunks (maxSqlVariables / 5) ids).foldlM
        (fun db ids => insertDeliveries db (ids.map (redrivenRow c visibleAt))) db =
      insertDeliveries db (ids.map (redrivenRow c visibleAt)) := by
  refine foldlM_chunks (fun s => rfl) (fun s xs ys => ?_) (by decide) ids db
  rw [List.map_append, insertDeliveries, List.foldlM_append]
  rfl

/-- A redrive with a deadline out of range is refused. -/
theorem redriveBatch_late (e : Engine) {fan : Inner} {self : Consumer} {archiveIds : List ℤ}
    {retry : Retry} {now : ℤ} {err : Error} {db : Db} (hpos : 0 < archiveIds.length)
    (hle : archiveIds.length ≤ fan.maxBatchSize)
    (hvisible : addDuration now retry.delay = .error err) :
    redriveBatch e fan self archiveIds retry now db = .error err := by
  rw [redriveBatch, receiptBatch_eq hpos hle, hvisible]
  rfl

/-- A redrive once its deadline is known. -/
def redriveUntil (e : Engine) (fan : Inner) (self : Consumer) (archiveIds : List ℤ)
    (visibleAt : ℤ) : Transaction BatchResult :=
  receiptBatch fan archiveIds.length fun db => do
    let removed := (chunks (maxSqlVariables - 1) archiveIds).foldl (redriveChunk e self) (db, [])
    let restored ← (chunks (maxSqlVariables / 5) removed.2).foldlM
      (fun db ids => insertDeliveries db (ids.map (redrivenRow self.id visibleAt))) removed.1
    return (restored, batchResult archiveIds.length removed.2.length)

/-- A redrive up to a deadline, inside the limit, moves the named archives back. -/
theorem redriveUntil_eq (e : Engine) {fan : Inner} {self : Consumer} {archiveIds : List ℤ}
    {db : Db} (hinv : Inv db) (visibleAt : ℤ) (hpos : 0 < archiveIds.length)
    (hle : archiveIds.length ≤ fan.maxBatchSize) :
    redriveUntil e fan self archiveIds visibleAt db =
      .ok (redrivenDb db self.id archiveIds visibleAt,
        batchResult archiveIds.length
          (db.archives.select (archiveNamed self.id archiveIds)).length) := by
  have hchunk : 0 < maxSqlVariables - 1 := by decide
  obtain ⟨removed, hfold, hperm⟩ :=
    foldl_redriveChunk e self (chunks (maxSqlVariables - 1) archiveIds) db []
  rw [flatten_chunks hchunk, List.nil_append] at hfold
  rw [flatten_chunks hchunk] at hperm
  have hrows : (removed.map (redrivenRow self.id visibleAt)).Perm
      (redrivenRows db self.id archiveIds visibleAt) := by
    have hmap := hperm.map (redrivenRow self.id visibleAt)
    rw [List.map_map] at hmap
    exact hmap
  have hfree : ∀ d ∈ removed.map (redrivenRow self.id visibleAt), ∀ b ∈ db.deliveries,
      b.key ≠ d.key := fun d hd => redrivenRows_free hinv d (hrows.mem_iff.mp hd)
  have hn : ((removed.map (redrivenRow self.id visibleAt)).map DeliveryRow.key).Nodup :=
    (hrows.map DeliveryRow.key).nodup_iff.mpr (redrivenRows_nodup hinv)
  have hrefers : ∀ d ∈ removed.map (redrivenRow self.id visibleAt),
      Refers db d.consumerId d.messageId := by
    intro d hd
    obtain ⟨a, ha, hnamed, rfl⟩ := mem_redrivenRows.mp (hrows.mem_iff.mp hd)
    have hc : a.consumerId = self.id := (archiveNamed_iff.mp hnamed).1
    have hrefer := hinv.archive_refers a ha
    rw [hc] at hrefer
    exact hrefer
  have hinsert : insertDeliveries (deleteArchives db (archiveNamed self.id archiveIds))
        (removed.map (redrivenRow self.id visibleAt)) =
      .ok { deleteArchives db (archiveNamed self.id archiveIds) with
        deliveries := db.deliveries.insertMany (removed.map (redrivenRow self.id visibleAt)) } :=
    insertDeliveries_eq
      (fun d hd => by obtain ⟨m, -, rfl⟩ := List.mem_map.mp hd; rfl)
      (fun d hd => (hrefers d hd).consumer) (fun d hd => (hrefers d hd).message) hfree hn
  rw [Table.insertMany_perm hrows hfree hn] at hinsert
  have hlength := hperm.length_eq
  rw [List.length_map] at hlength
  unfold redriveUntil
  rw [receiptBatch_eq hpos hle]
  simp only [bind, Except.bind, hfold, foldlM_insertDeliveries, hinsert, hlength]
  rfl

/-- A redrive with a deadline in range is the redrive up to it. -/
theorem redriveBatch_until {e : Engine} {fan : Inner} {self : Consumer} {archiveIds : List ℤ}
    {retry : Retry} {now visibleAt : ℤ} (hvisible : addDuration now retry.delay = .ok visibleAt) :
    redriveBatch e fan self archiveIds retry now =
      redriveUntil e fan self archiveIds visibleAt := by
  unfold redriveBatch
  simp only [hvisible]
  rfl

/-- A redrive inside the limit with a deadline in range moves the named archives back. -/
theorem redriveBatch_eq (e : Engine) {fan : Inner} {self : Consumer} {archiveIds : List ℤ}
    {retry : Retry} {now visibleAt : ℤ} {db : Db} (hinv : Inv db) (hpos : 0 < archiveIds.length)
    (hle : archiveIds.length ≤ fan.maxBatchSize)
    (hvisible : addDuration now retry.delay = .ok visibleAt) :
    redriveBatch e fan self archiveIds retry now db =
      .ok (redrivenDb db self.id archiveIds visibleAt,
        batchResult archiveIds.length
          (db.archives.select (archiveNamed self.id archiveIds)).length) := by
  rw [redriveBatch_until hvisible]
  exact redriveUntil_eq e hinv visibleAt hpos hle

/-- The deliveries after a redrive. -/
theorem mem_redrivenDb {db : Db} (hinv : Inv db) {c visibleAt : ℤ} {archiveIds : List ℤ}
    {d : DeliveryRow} :
    d ∈ (redrivenDb db c archiveIds visibleAt).deliveries ↔
      d ∈ redrivenRows db c archiveIds visibleAt ∨ d ∈ db.deliveries :=
  Table.mem_insertMany (redrivenRows_free hinv) (redrivenRows_nodup hinv)

end Redrive

end LiteFan.Effect

import LiteFan.ReceiptBatches
import LiteFan.Refusals
import LiteFan.Selects

/-!
# Sixty-four bits are enough

The columns are 64-bit integers. Identifiers, generations and counts only grow
by what the calls ask for, one for each message, receipt or attempt, and a
timestamp is a reading of the clock or a checked sum of one. A store that has
not been asked for more than 64 bits can count holds no number outside them.
-/

namespace LiteFan.Ranges

open LiteFan.Api LiteFan.Time LiteFan.Schema LiteFan.Storage LiteFan.Store LiteFan.Consumer
open LiteFan.System LiteFan.Invariant LiteFan.Effect LiteFan.Step LiteFan.Preservation
open LiteFan.ReceiptBatches LiteFan.Refusals LiteFan.Selects Relational

/-- The clock reading an operation takes. -/
def clockOf : Op → Option ℤ
  | .openConsumer _ _ now | .publishBatch _ now | .claim _ _ now | .nackBatch _ _ _ now
  | .extendVisibilityBatch _ _ _ now | .archiveBatch _ _ _ now | .redriveBatch _ _ _ now
  | .beginDraining _ now => some now
  | .ackBatch .. | .purgeArchives .. | .deleteConsumer .. | .pruneMessages _ => none

/-- What an operation asks for: itself, and the messages or receipts it may number. -/
def work : Op → ℕ
  | .publishBatch messages _ => messages.length + 1
  | .nackBatch _ receipts _ _ | .archiveBatch _ receipts _ _ => receipts.length + 1
  | _ => 1

/-- What a run has asked for. -/
def totalWork (events : List Event) : ℕ := (events.map fun event => work event.op).sum

/-- The clock of every operation reads a 64-bit number. -/
def ClockFits (events : List Event) : Prop :=
  ∀ event ∈ events, ∀ now ∈ clockOf event.op, InRange now

/-- No number is beyond what was asked for, and no timestamp is out of range. -/
structure Within (n : ℤ) (db : Db) : Prop where
  messages : db.messages.seq ≤ n
  consumers : db.consumers.seq ≤ n
  archives : db.archives.seq ≤ n
  published : ∀ message ∈ db.messages, InRange message.publishedAtMs
  created : ∀ row ∈ db.consumers, InRange row.createdAt ∧
    ∀ drainingAt, row.drainingAt = some drainingAt → InRange drainingAt
  delivered : ∀ d ∈ db.deliveries, d.generation ≤ n ∧ d.deliveryCount ≤ n ∧ InRange d.visibleAt
  archived : ∀ a ∈ db.archives, a.lastGeneration ≤ n ∧ a.deliveryCount ≤ n ∧ InRange a.archivedAt
  expires : ∀ row ∈ db.idempotency, InRange row.expiresAt
  named : ∀ row ∈ db.idempotency, ∀ id, row.messageId = some id → 0 ≤ id

/-- A fresh store has been asked for nothing. -/
theorem within_empty : Within 0 Db.empty where
  messages := le_rfl
  consumers := le_rfl
  archives := le_rfl
  published message h := absurd h (AutoTable.not_mem_empty message)
  created row h := absurd h (AutoTable.not_mem_empty row)
  delivered d h := absurd h (Table.not_mem_empty d)
  archived a h := absurd h (AutoTable.not_mem_empty a)
  expires row h := absurd h (Table.not_mem_empty row)
  named row h := absurd h (Table.not_mem_empty row)

section Sums

/-- A checked sum is in range. -/
theorem inRange_of_checkedAdd {a b c : ℤ} (h : checkedAdd a b = .ok c) : InRange c := by
  unfold checkedAdd at h
  split_ifs at h with hrange
  cases h
  exact hrange

/-- A shifted timestamp is in range. -/
theorem inRange_of_addDuration {t c : ℤ} {span : Duration} (h : addDuration t span = .ok c) :
    InRange c := by
  unfold addDuration at h
  cases hms : durationMs span with
  | error err =>
    rw [hms] at h
    cases h
  | ok ms =>
    rw [hms] at h
    exact inRange_of_checkedAdd h

/-- No more is stored than was in the batch. -/
theorem stored_le (known : Bytes → Option ℤ) (seq : ℤ) (messages : List Publish) :
    (assign known seq messages).stored.length ≤ messages.length := by
  induction messages generalizing known seq with
  | nil => exact le_rfl
  | cons message rest ih =>
    cases hkey : message.idempotencyKey with
    | none =>
      have hrest := ih known (seq + 1)
      rw [assign_unkeyed hkey]
      simp only [List.length_cons]
      omega
    | some key =>
      cases hknown : known key with
      | some id =>
        have hrest := ih known seq
        rw [assign_known hkey hknown, List.length_cons]
        exact hrest.trans (Nat.le_succ _)
      | none =>
        have hrest := ih (Function.update known key (some (seq + 1))) (seq + 1)
        rw [assign_new hkey hknown]
        simp only [List.length_cons]
        omega

/-- A batch fills an entry for no message without key. -/
theorem filled_nil (known : Bytes → Option ℤ) (seq : ℤ) {messages : List Publish}
    (h : ∀ message ∈ messages, message.idempotencyKey = none) :
    (assign known seq messages).filled = [] := by
  induction messages generalizing seq with
  | nil => rfl
  | cons message rest ih =>
    rw [assign_unkeyed (h message List.mem_cons_self)]
    exact ih (seq + 1) fun other hother => h other (List.mem_cons_of_mem _ hother)

/-- There are no more chunks than members. -/
theorem length_chunks_le {α : Type*} (n : ℕ) (xs : List α) : (chunks n xs).length ≤ xs.length := by
  have hfuel : ∀ fuel (xs : List α), (chunksFuel n fuel xs).length ≤ fuel := by
    intro fuel
    induction fuel with
    | zero => exact fun _ => le_rfl
    | succ fuel ih =>
      intro xs
      cases xs with
      | nil => exact Nat.zero_le _
      | cons x xs =>
        rw [chunksFuel, List.length_cons]
        exact Nat.succ_le_succ (ih _)
  exact hfuel _ _

/-- A release raises a generation by at most one for each chunk. -/
theorem touch_nackRow_le (c visibleAt : ℤ) (batches : List (List Receipt)) (d : DeliveryRow) :
    (touch c (nackRow visibleAt) batches d).generation ≤ d.generation + batches.length := by
  induction batches generalizing d with
  | nil => simp [touch]
  | cons receipts batches ih =>
    have hrest := ih (Table.rowUpdate (pushReceiptPredicate c receipts) (nackRow visibleAt) d)
    have hone : (Table.rowUpdate (pushReceiptPredicate c receipts) (nackRow visibleAt) d).generation
        ≤ d.generation + 1 := by
      unfold Table.rowUpdate
      split
      · exact le_rfl
      · omega
    rw [touch_cons, List.length_cons]
    push_cast
    omega

end Sums

section Steps

variable {n m : ℤ} {db db' : Db}

/-- What was asked for only grows. -/
theorem Within.mono (h : Within n db) (hle : n ≤ m) : Within m db where
  messages := h.messages.trans hle
  consumers := h.consumers.trans hle
  archives := h.archives.trans hle
  published := h.published
  created := h.created
  delivered d hd := ⟨(h.delivered d hd).1.trans hle, (h.delivered d hd).2.1.trans hle,
    (h.delivered d hd).2.2⟩
  archived a ha := ⟨(h.archived a ha).1.trans hle, (h.archived a ha).2.1.trans hle,
    (h.archived a ha).2.2⟩
  expires := h.expires
  named := h.named

/-- An entry after a batch was there before, or is filled with an identifier of the batch. -/
theorem entry_of_published {now expiresAt : ℤ} {messages : List Publish} {row : IdempotencyRow}
    (hrow : row ∈ (publishedDb now expiresAt (ledgerAt now db messages)
      (assigned now db messages)).idempotency) :
    row ∈ db.idempotency ∨ ∃ id, (row.key, id) ∈ (assigned now db messages).filled ∧
      row.messageId = some id ∧ (row.expiresAt = expiresAt ∨
        ∃ entry ∈ db.idempotency, row.expiresAt = entry.expiresAt) := by
  obtain ⟨-, -, -, -, hledger⟩ := ledgerAt_parts now db messages
  have hlookup : (fillTable expiresAt (ledgerAt now db messages).idempotency
      (assigned now db messages).filled).lookup row.key = some row := Table.lookup_key hrow
  have hn : ((assigned now db messages).filled.map Prod.fst).Nodup := assign_filled_nodup _ _ _
  rw [lookup_fillTable _ _ _ hn] at hlookup
  cases hfill : (assigned now db messages).filled.lookup row.key with
  | none =>
    rw [hfill] at hlookup
    exact .inl (hledger row (Table.lookup_eq_some.mp hlookup).1)
  | some id =>
    rw [hfill] at hlookup
    have heq := Option.some_inj.mp hlookup
    refine .inr ⟨id, mem_of_lookup hfill, by rw [← heq], ?_⟩
    rw [← heq]
    cases hold : (ledgerAt now db messages).idempotency.lookup row.key with
    | none => exact .inl rfl
    | some entry => exact .inr ⟨entry, hledger entry (Table.lookup_eq_some.mp hold).1, rfl⟩

/-- A batch numbers its stored messages, and its entries expire in range. -/
theorem within_published (h : Within n db) {now expiresAt : ℤ} {messages : List Publish}
    (hnow : InRange now)
    (hexpiry : (∀ message ∈ messages, message.idempotencyKey = none) ∨ InRange expiresAt) :
    Within (n + messages.length)
      (publishedDb now expiresAt (ledgerAt now db messages) (assigned now db messages)) := by
  obtain ⟨-, hconsumers, hdeliveries, harchives, hledger⟩ := ledgerAt_parts now db messages
  have hlog := publishedDb_messages now expiresAt db messages
  have hstored := stored_le (known (ledgerAt now db messages)) db.messages.seq messages
  have hgrown : Within (n + messages.length) db := h.mono (by omega)
  constructor
  case messages =>
    have hseq := h.messages
    rw [hlog, AutoTable.appendAll_seq]
    unfold assigned
    omega
  case consumers => exact (congrArg AutoTable.seq hconsumers).le.trans hgrown.consumers
  case archives => exact (congrArg AutoTable.seq harchives).le.trans hgrown.archives
  case published =>
    intro message hmessage
    rw [hlog] at hmessage
    rcases AutoTable.mem_appendAll.mp hmessage with hold | ⟨i, b, -, rfl⟩
    · exact h.published message hold
    · exact hnow
  case created => exact fun row hrow => hgrown.created row (hconsumers ▸ hrow)
  case delivered => exact fun d hd => hgrown.delivered d (hdeliveries ▸ hd)
  case archived => exact fun a ha => hgrown.archived a (harchives ▸ ha)
  case expires =>
    intro row hrow
    rcases entry_of_published hrow with hold | ⟨id, hfilled, -, hnew | ⟨entry, hentry, hsame⟩⟩
    · exact h.expires row hold
    · rcases hexpiry with hunkeyed | hrange
      · have hnone : (assigned now db messages).filled = [] := filled_nil _ _ hunkeyed
        rw [hnone] at hfilled
        exact absurd hfilled List.not_mem_nil
      · exact hnew ▸ hrange
    · exact hsame ▸ h.expires entry hentry
  case named =>
    intro row hrow id hid
    rcases entry_of_published hrow with hold | ⟨id', hfilled, hid', -⟩
    · exact h.named row hold id hid
    · have hseq := db.messages.seq_nonneg
      obtain ⟨-, hlt, -⟩ := assign_filled _ _ _ _ hfilled
      rw [hid'] at hid
      cases hid
      omega

/-- A claim counts one attempt for each delivery it returns. -/
theorem within_claimed (h : Within n db) (hinv : Inv db) {row : ConsumerRow}
    (hrow : db.consumers.lookup row.id = some row) (now : ℤ) {deadline : ℤ} (limit : ℕ)
    (hn : 0 ≤ n) (hdeadline : InRange deadline) :
    Within (n + 1) (claimedDb db row now deadline limit) where
  messages := (h.mono (by omega)).messages
  consumers := (h.mono (by omega)).consumers
  archives := (h.mono (by omega)).archives
  published := h.published
  created other hother := by
    rcases consumers_claimed hrow hother with ⟨hold, -⟩ | rfl
    · exact h.created other hold
    · exact h.created row (AutoTable.lookup_eq_some.mp hrow).1
  delivered d hd := by
    rcases (mem_claimedDb hinv hrow).mp hd with ⟨message, -, rfl⟩ | ⟨hold, -⟩ | ⟨b, hb, rfl⟩
    · exact ⟨by simp only [firstLease]; omega, by simp only [firstLease]; omega, hdeadline⟩
    · exact (h.mono (by omega)).delivered d hold
    · obtain ⟨hgeneration, hcount, -⟩ := h.delivered b (mem_selectVisible hb).1
      exact ⟨by simp only [releaseUntil]; omega, by simp only [releaseUntil]; omega, hdeadline⟩
  archived := (h.mono (by omega)).archived
  expires := h.expires
  named := h.named

/-- A release counts one generation for each receipt at most. -/
theorem within_nacked (h : Within n db) (c : ℤ) {visibleAt : ℤ} (receipts : List Receipt)
    (hvisible : InRange visibleAt) :
    Within (n + receipts.length) (touched db c (nackRow visibleAt) (nackRow_key visibleAt)
      (chunks receiptsPerChunk receipts)) := by
  have hgrown : Within (n + receipts.length) db := h.mono (by omega)
  refine { hgrown with delivered := fun d hd => ?_ }
  obtain ⟨b, hb, rfl⟩ := mem_touched.mp hd
  obtain ⟨hgeneration, hcount, hold⟩ := h.delivered b hb
  have hle := touch_nackRow_le c visibleAt (chunks receiptsPerChunk receipts) b
  have hchunks := length_chunks_le receiptsPerChunk receipts
  rcases touch_nackRow c visibleAt (chunks receiptsPerChunk receipts) b with
    ⟨heq, -⟩ | ⟨-, generation, -, heq⟩
  · rw [heq]
    exact ⟨by omega, by omega, hold⟩
  · rw [heq] at hle ⊢
    exact ⟨by simp only at hle ⊢; omega, by simp only; omega, hvisible⟩

/-- An extension moves deadlines and counts nothing. -/
theorem within_extended (h : Within n db) (c : ℤ) {visibleAt : ℤ} (batches : List (List Receipt))
    (hvisible : InRange visibleAt) :
    Within n (touched db c (extendRow visibleAt) (extendRow_key visibleAt) batches) := by
  refine { h with delivered := fun d hd => ?_ }
  obtain ⟨b, hb, rfl⟩ := mem_touched.mp hd
  obtain ⟨hgeneration, hcount, hold⟩ := h.delivered b hb
  rw [touch_extendRow, Table.rowUpdate]
  split
  · have hmax : InRange (max b.visibleAt visibleAt) := by
      rcases max_choice b.visibleAt visibleAt with heq | heq
      · rw [heq]
        exact hold
      · rw [heq]
        exact hvisible
    exact ⟨hgeneration, hcount, hmax⟩
  · exact ⟨hgeneration, hcount, hold⟩

/-- Archiving numbers what it moves, which is named by the receipts. -/
theorem within_archived (h : Within n db) (c : ℤ) {archivedAt : ℤ} (receipts : List Receipt)
    (detail : Option String) (hnow : InRange archivedAt) :
    Within (n + receipts.length) (archivedDb db c receipts archivedAt detail) := by
  have hgrown : Within (n + receipts.length) db := h.mono (by omega)
  refine { hgrown with
    archives := ?_
    delivered := fun d hd => hgrown.delivered d (Table.mem_deleteWhere.mp hd).1
    archived := fun a ha => ?_ }
  · have hseq : (archivedDb db c receipts archivedAt detail).archives.seq =
        db.archives.seq + (archivedLeases db c receipts).length := AutoTable.appendAll_seq _ _
    have hnamed : (archivedLeases db c receipts).length ≤ receipts.length := by
      rw [archivedLeases, List.length_map, ← length_current]
      exact (List.length_filter_le _ _).trans (List.dedup_sublist receipts).length_le
    have hold := h.archives
    omega
  · rcases mem_archivedDb.mp ha with hold | ⟨i, lease, hlease, rfl⟩
    · exact hgrown.archived a hold
    · obtain ⟨d, hd, -, rfl⟩ := mem_archivedLeases.mp (List.mem_of_getElem? hlease)
      obtain ⟨hgeneration, hcount, -⟩ := hgrown.delivered d hd
      exact ⟨hgeneration, hcount, hnow⟩

/-- A redriven delivery starts counting again. -/
theorem within_redriven (h : Within n db) (hinv : Inv db) (c : ℤ) {visibleAt : ℤ}
    (archiveIds : List ℤ) (hn : 0 ≤ n) (hvisible : InRange visibleAt) :
    Within n (redrivenDb db c archiveIds visibleAt) := by
  refine { h with
    delivered := fun d hd => ?_
    archived := fun a ha => h.archived a (AutoTable.mem_deleteWhere.mp ha).1 }
  rcases (mem_redrivenDb hinv).mp hd with hnew | hold
  · obtain ⟨a, -, -, rfl⟩ := mem_redrivenRows.mp hnew
    exact ⟨hn, hn, hvisible⟩
  · exact h.delivered d hold

/-- Draining stores the reading of the clock. -/
theorem within_drained (h : Within n db) (c : ℤ) {now : ℤ} (hnow : InRange now) :
    Within n (drainedDb db c now) := by
  refine { h with created := fun row hrow => ?_ }
  obtain ⟨old, hold, rfl⟩ := AutoTable.mem_updateWhere_rowUpdate.mp hrow
  obtain ⟨hcreated, hdraining⟩ := h.created old hold
  unfold Table.rowUpdate
  split
  · refine ⟨hcreated, fun drainingAt hat => ?_⟩
    cases hat
    exact hnow
  · exact ⟨hcreated, hdraining⟩

/-- A batch with a key that is stored has an expiry in range. -/
theorem expiry_of_published {e : Engine} {fan : Inner} {messages : List Publish} {now : ℤ}
    {reply : Reply} (h : (exec e fan (.publishBatch messages now) db).2 = .ok reply) :
    (∀ message ∈ messages, message.idempotencyKey = none) ∨
      InRange (now + fan.idempotencyWindowMs) := by
  have hcases := publishBatch_cases e fan messages now db
  cases hrefusal : publishRefusal fan messages now with
  | some err =>
    rw [hrefusal] at hcases
    rw [exec, replying_error hcases] at h
    cases h
  | none =>
    unfold publishRefusal at hrefusal
    split_ifs at hrefusal with hlarge hall
    · exact .inl fun message hmessage => by simpa using List.all_eq_true.mp hall message hmessage
    · cases hexpiry : checkedAdd now fan.idempotencyWindowMs with
      | error err =>
        rw [hexpiry] at hrefusal
        cases hrefusal
      | ok expiresAt =>
        rw [← checkedAdd_ok hexpiry]
        exact .inr (inRange_of_checkedAdd hexpiry)

/-- A transaction numbers no more than it was asked for. -/
theorem within_event {event : Event} (hv : system.valid event) (hinv : Inv event.before)
    (hclock : ∀ now ∈ clockOf event.op, InRange now) (hn : 0 ≤ n)
    (h : Within n event.before) : Within (n + work event.op) event.after := by
  obtain ⟨fan, op, before, after, reply⟩ := event
  have heffect : Effect fan before op after reply := effect_of_valid hv hinv
  have hgrown : Within (n + work op) before := h.mono (by omega)
  cases heffect with
  | rejected _ => exact hgrown
  | idle _ => exact hgrown
  | created hname hfree =>
    refine { hgrown with consumers := ?_, created := fun row hrow => ?_ }
    · have hseq : before.consumers.seq ≤ n := h.consumers
      simp only [openedDb, AutoTable.append_seq, work]
      omega
    · rcases mem_openedDb.mp hrow with hold | rfl
      · exact h.created row hold
      · refine ⟨hclock _ rfl, fun drainingAt hdraining => ?_⟩
        cases hdraining
  | reopened hname hrow hfilter =>
    have hseq : before.consumers.seq ≤ n := h.consumers
    have hbumped : (reopenedDb before).consumers.seq = before.consumers.seq + 1 := rfl
    refine { hgrown with consumers := ?_ }
    rw [hbumped]
    simp only [work]
    omega
  | @published messages now hle =>
    obtain ⟨e, hexec⟩ := hv
    have hexpiry := expiry_of_published (congrArg Prod.snd hexec)
    exact (within_published h (hclock now rfl) hexpiry).mono (by simp only [work]; omega)
  | granted hlease hid hrow hdeadline =>
    exact within_claimed h hinv hrow _ _ hn (inRange_of_checkedAdd hdeadline)
  | acked hpos hle =>
    exact { hgrown with
      delivered := fun d hd => hgrown.delivered d (Table.mem_deleteWhere.mp hd).1 }
  | nacked hpos hle hvisible =>
    exact (within_nacked h _ _ (inRange_of_addDuration hvisible)).mono (by simp only [work]; omega)
  | extended hpos hle hms hne hvisible =>
    exact within_extended hgrown _ _ (inRange_of_addDuration hvisible)
  | archived hpos hle =>
    exact (within_archived h _ _ _ (hclock _ rfl)).mono (by simp only [work]; omega)
  | redriven hpos hle hvisible =>
    exact within_redriven hgrown hinv _ _ (by omega) (inRange_of_addDuration hvisible)
  | purged =>
    exact { hgrown with
      archived := fun a ha => hgrown.archived a (AutoTable.mem_deleteWhere.mp ha).1 }
  | drained => exact within_drained hgrown _ (hclock _ rfl)
  | deleted hrow haccept =>
    exact { hgrown with
      created := fun row hrow => hgrown.created row (AutoTable.mem_deleteWhere.mp hrow).1
      delivered := fun d hd => hgrown.delivered d (Table.mem_deleteWhere.mp hd).1
      archived := fun a ha => hgrown.archived a (AutoTable.mem_deleteWhere.mp ha).1 }
  | pruned =>
    exact { hgrown with
      published := fun message hmessage =>
        h.published message (AutoTable.mem_deleteWhere.mp hmessage).1 }

end Steps

section Runs

variable {events : List Event} {db : Db}

/-- A run numbers no more than it was asked for. -/
theorem within_run (hrun : Run events db) (hclock : ClockFits events) :
    Within (totalWork events) db := by
  induction hrun with
  | nil => exact within_empty
  | @snoc es event hprefix hv ih =>
    have hbefore := ih fun other hother => hclock other (List.mem_append_left _ hother)
    have hafter := within_event hv (inv_run hprefix)
      (hclock event (List.mem_append_right _ (List.mem_singleton.mpr rfl)))
      (Nat.cast_nonneg _) hbefore
    have htotal : totalWork (es ++ [event]) = totalWork es + work event.op := by
      simp [totalWork]
    rw [htotal, Nat.cast_add]
    exact hafter

/-- A number between zero and what was asked for is in range. -/
theorem inRange_of_le {n a : ℤ} (hn : n ≤ i64Max) (hle : a ≤ n) (h : 0 ≤ a) : InRange a :=
  ⟨le_trans (by decide) h, hle.trans hn⟩

end Runs

section Columns

variable {n : ℤ} {db : Db} {column : Column} {value : ℤ}

/-- A number that may be null is read as one only where it is there. -/
theorem int_of_ofOption {o : Option ℤ} (h : Value.ofOption .int o = .int value) :
    o = some value := by
  cases o with
  | none => cases h
  | some a => cases h; rfl

theorem text_ne_int {o : Option String} : Value.ofOption .text o ≠ .int value := by
  cases o with
  | none => exact nofun
  | some s => exact nofun

/-- The numbers of a message. -/
theorem message_fits (h : Within n db) (hn : n ≤ i64Max) {message : Message}
    (hmem : message ∈ db.messages) (hvalue : messageColumns message column = .int value) :
    InRange value := by
  have hpos := db.messages.key_pos message hmem
  have hle := db.messages.key_le message hmem
  have hseq := h.messages
  cases column
  case id =>
    cases hvalue
    exact inRange_of_le hn (by omega) hpos.le
  case publishedAt =>
    cases hvalue
    exact h.published message hmem
  case topic => exact absurd hvalue text_ne_int
  all_goals exact absurd hvalue nofun

/-- The numbers of a ledger entry. -/
theorem idempotency_fits (h : Within n db) (hinv : Inv db) (hn : n ≤ i64Max)
    {row : IdempotencyRow} (hmem : row ∈ db.idempotency)
    (hvalue : idempotencyColumns row column = .int value) : InRange value := by
  have hseq := h.messages
  cases column
  case messageId =>
    have hid := int_of_ofOption hvalue
    obtain ⟨id, hnamed, hle⟩ := hinv.ledger row hmem
    rw [hnamed] at hid
    cases hid
    exact inRange_of_le hn (by omega) (h.named row hmem _ hnamed)
  case expiresAt =>
    cases hvalue
    exact h.expires row hmem
  all_goals exact absurd hvalue nofun

/-- The numbers of a consumer. -/
theorem consumer_fits (h : Within n db) (hinv : Inv db) (hn : n ≤ i64Max) {row : ConsumerRow}
    (hmem : row ∈ db.consumers) (hvalue : consumerColumns row column = .int value) :
    InRange value := by
  have hpos := db.consumers.key_pos row hmem
  have hle := db.consumers.key_le row hmem
  have hconsumers := h.consumers
  have hmessages := h.messages
  have hok := hinv.rows row hmem
  have hscan := hok.nonneg
  have hscanned := hok.le_seq
  cases column
  case id =>
    cases hvalue
    exact inRange_of_le hn (by omega) hpos.le
  case topicFilter => exact absurd hvalue text_ne_int
  case createdAt =>
    cases hvalue
    exact (h.created row hmem).1
  case drainingAt => exact (h.created row hmem).2 _ (int_of_ofOption hvalue)
  case scanCursor =>
    cases hvalue
    exact inRange_of_le hn (by omega) hscan
  case drainCursor =>
    obtain ⟨hahead, hpast⟩ := hok.drain _ (int_of_ofOption hvalue)
    exact inRange_of_le hn (by omega) (by omega)
  all_goals exact absurd hvalue nofun

/-- A reference names identifiers that were assigned. -/
theorem refers_fits (h : Within n db) (hn : n ≤ i64Max) {c m : ℤ} (hrefers : Refers db c m) :
    InRange c ∧ InRange m := by
  obtain ⟨row, message, hrow, hmessage, -, -⟩ := hrefers
  obtain ⟨hconsumer, rfl⟩ := AutoTable.lookup_eq_some.mp hrow
  obtain ⟨hstored, rfl⟩ := AutoTable.lookup_eq_some.mp hmessage
  exact ⟨inRange_of_le hn ((db.consumers.key_le row hconsumer).trans h.consumers)
      (db.consumers.key_pos row hconsumer).le,
    inRange_of_le hn ((db.messages.key_le message hstored).trans h.messages)
      (db.messages.key_pos message hstored).le⟩

/-- The numbers of a delivery. -/
theorem delivery_fits (h : Within n db) (hinv : Inv db) (hn : n ≤ i64Max) {d : DeliveryRow}
    (hmem : d ∈ db.deliveries) (hvalue : deliveryColumns d column = .int value) :
    InRange value := by
  obtain ⟨hconsumer, hmessage⟩ := refers_fits h hn (hinv.delivery_refers d hmem)
  obtain ⟨hgeneration, hcount, hvisible⟩ := h.delivered d hmem
  obtain ⟨hgenerations, hcounts⟩ := hinv.delivery_counts d hmem
  cases column
  case consumerId => cases hvalue; exact hconsumer
  case messageId => cases hvalue; exact hmessage
  case visibleAt => cases hvalue; exact hvisible
  case generation => cases hvalue; exact inRange_of_le hn hgeneration hgenerations
  case deliveryCount => cases hvalue; exact inRange_of_le hn hcount hcounts
  all_goals exact absurd hvalue nofun

/-- The numbers of an archive. -/
theorem archive_fits (h : Within n db) (hinv : Inv db) (hn : n ≤ i64Max) {a : ArchiveRow}
    (hmem : a ∈ db.archives) (hvalue : archiveColumns a column = .int value) :
    InRange value := by
  have hpos := db.archives.key_pos a hmem
  have hle := (db.archives.key_le a hmem).trans h.archives
  obtain ⟨hconsumer, hmessage⟩ := refers_fits h hn (hinv.archive_refers a hmem)
  obtain ⟨hgeneration, hcount, hat⟩ := h.archived a hmem
  obtain ⟨hcounts, hgenerations⟩ := hinv.archive_counts a hmem
  cases column
  case id => cases hvalue; exact inRange_of_le hn hle hpos.le
  case consumerId => cases hvalue; exact hconsumer
  case messageId => cases hvalue; exact hmessage
  case archivedAt => cases hvalue; exact hat
  case deliveryCount => cases hvalue; exact inRange_of_le hn hcount hcounts
  case lastGeneration => cases hvalue; exact inRange_of_le hn hgeneration hgenerations
  case detail => exact absurd hvalue text_ne_int
  all_goals exact absurd hvalue nofun

/-- The numbers of all tables. -/
theorem tables_fit (h : Within n db) (hinv : Inv db) (hn : n ≤ i64Max) {table : TableName}
    {row : Row Column} (hrow : row ∈ tablesOf db table) (hvalue : row column = .int value) :
    InRange value := by
  cases table with
  | messages =>
    obtain ⟨message, hmem, rfl⟩ := List.mem_map.mp hrow
    exact message_fits h hn hmem hvalue
  | idempotency =>
    obtain ⟨entry, hmem, rfl⟩ := List.mem_map.mp hrow
    exact idempotency_fits h hinv hn hmem hvalue
  | consumers =>
    obtain ⟨consumer, hmem, rfl⟩ := List.mem_map.mp hrow
    exact consumer_fits h hinv hn hmem hvalue
  | deliveries =>
    obtain ⟨d, hmem, rfl⟩ := List.mem_map.mp hrow
    exact delivery_fits h hinv hn hmem hvalue
  | archivedDeliveries =>
    obtain ⟨a, hmem, rfl⟩ := List.mem_map.mp hrow
    exact archive_fits h hinv hn hmem hvalue
  | highWater => exact absurd hrow List.not_mem_nil

end Columns

/-- Whatever happens to the store, in any order and through any handles: as long as the clock
reads 64-bit numbers and no more was asked for than they can count, every number in a table is
one, and so is the last number of each sequence. -/
theorem columns_fit {events : List Event} {db : Db} (hrun : Run events db)
    (hclock : ClockFits events) (hwork : (totalWork events : ℤ) ≤ i64Max) :
    (∀ table, ∀ row ∈ tablesOf db table, ∀ column value, row column = .int value →
      InRange value) ∧
      InRange db.messages.seq ∧ InRange db.consumers.seq ∧ InRange db.archives.seq := by
  have hinv := inv_run hrun
  have hwithin := within_run hrun hclock
  exact ⟨fun table row hrow column value hvalue => tables_fit hwithin hinv hwork hrow hvalue,
    inRange_of_le hwork hwithin.messages db.messages.seq_nonneg,
    inRange_of_le hwork hwithin.consumers db.consumers.seq_nonneg,
    inRange_of_le hwork hwithin.archives db.archives.seq_nonneg⟩

/-- A message that is leased, released, leased again and archived. -/
def countedOps : List Op :=
  [.openConsumer "jobs" .all 0, .publishBatch [⟨none, [7], none⟩] 0, .claim firstHandle pollOne 0,
    .nackBatch firstHandle [⟨1, 1, 1⟩] .immediately 1, .claim firstHandle pollOne 2,
    .archiveBatch firstHandle [⟨1, 1, 3⟩] none 3]

theorem columns_fit_counted :
    (∀ table, ∀ row ∈ tablesOf (outcomeDb Engine.inOrder Inner.default countedOps Db.empty) table,
      ∀ column value, row column = .int value → InRange value) ∧
      InRange (outcomeDb Engine.inOrder Inner.default countedOps Db.empty).messages.seq ∧
      InRange (outcomeDb Engine.inOrder Inner.default countedOps Db.empty).consumers.seq ∧
      InRange (outcomeDb Engine.inOrder Inner.default countedOps Db.empty).archives.seq := by
  have hops : ∀ op ∈ countedOps, ∀ now ∈ clockOf op, InRange now := by decide
  refine columns_fit (trace_run Engine.inOrder Inner.default countedOps Db.empty) ?_ ?_
  · exact fun event hevent => hops event.op (op_of_mem_trace hevent)
  · decide +kernel

end LiteFan.Ranges

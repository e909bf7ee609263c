import LiteFan.System

/-!
# The cross-table invariant

Every delivery and archive refers to a live consumer that has scanned past a
retained matching message, no copy is both delivered and archived, cursors stay
between zero and the highest identifier ever assigned, and every ledger entry
is filled. Under the invariant each statement succeeds with a plain table
update; these are the facts the transactions are computed from.
-/

namespace LiteFan.Invariant

open LiteFan.Api LiteFan.Time LiteFan.Schema LiteFan.Storage LiteFan.Store LiteFan.Consumer
open LiteFan.System Relational

/-- The consumer is stored and has scanned past the message, which is retained
and matches its filter. -/
def Refers (db : Db) (consumerId messageId : ℤ) : Prop :=
  ∃ row message, db.consumers.lookup consumerId = some row ∧
    db.messages.lookup messageId = some message ∧ messageId ≤ row.scanCursor ∧
    topicMatches row.topicFilter message.topic = true

/-- The cursors of one consumer, against the highest identifier ever assigned. -/
structure RowOk (seq : ℤ) (row : ConsumerRow) : Prop where
  /-- `CHECK (scan_cursor >= 0)`. -/
  nonneg : 0 ≤ row.scanCursor
  /-- The cursor never passes an identifier still to be assigned. -/
  le_seq : row.scanCursor ≤ seq
  /-- `CHECK (drain_cursor >= scan_cursor)`, and the boundary is in the past. -/
  drain : ∀ limit, row.drainCursor = some limit → row.scanCursor ≤ limit ∧ limit ≤ seq
  /-- Exactly the draining consumers have a boundary. -/
  draining : row.drainingAt.isSome = row.drainCursor.isSome

/-- What holds in every reachable state. -/
structure Inv (db : Db) : Prop where
  /-- `UNIQUE (name)`. -/
  names : ∀ a ∈ db.consumers, ∀ b ∈ db.consumers, a.name = b.name → a = b
  /-- Cursors are in range. -/
  rows : ∀ row ∈ db.consumers, RowOk db.messages.seq row
  /-- Deliveries refer to live rows. -/
  delivery_refers : ∀ d ∈ db.deliveries, Refers db d.consumerId d.messageId
  /-- Delivery counters are not negative. -/
  delivery_counts : ∀ d ∈ db.deliveries, 0 ≤ d.generation ∧ 0 ≤ d.deliveryCount
  /-- Archives refer to live rows. -/
  archive_refers : ∀ a ∈ db.archives, Refers db a.consumerId a.messageId
  /-- Archived counters are not negative. -/
  archive_counts : ∀ a ∈ db.archives, 0 ≤ a.deliveryCount ∧ 0 ≤ a.lastGeneration
  /-- `UNIQUE (consumer_id, message_id)`. -/
  archive_pair : ∀ a ∈ db.archives, ∀ b ∈ db.archives,
    a.consumerId = b.consumerId → a.messageId = b.messageId → a = b
  /-- No copy is both delivered and archived. -/
  disjoint : ∀ a ∈ db.archives, ∀ d ∈ db.deliveries,
    a.consumerId = d.consumerId → a.messageId ≠ d.messageId
  /-- Every committed ledger entry names its message. -/
  ledger : ∀ row ∈ db.idempotency, ∃ id, row.messageId = some id ∧ id ≤ db.messages.seq

/-- A fresh store satisfies the invariant. -/
theorem inv_empty : Inv Db.empty where
  names a ha := absurd ha (AutoTable.not_mem_empty a)
  rows row h := absurd h (AutoTable.not_mem_empty row)
  delivery_refers d h := absurd h (Table.not_mem_empty d)
  delivery_counts d h := absurd h (Table.not_mem_empty d)
  archive_refers a h := absurd h (AutoTable.not_mem_empty a)
  archive_counts a h := absurd h (AutoTable.not_mem_empty a)
  archive_pair a h := absurd h (AutoTable.not_mem_empty a)
  disjoint a h := absurd h (AutoTable.not_mem_empty a)
  ledger row h := absurd h (Table.not_mem_empty row)

/-- A reference survives when the consumer keeps its filter and does not move
back and the message is still stored. -/
theorem Refers.mono {db db' : Db} {c m : ℤ} (h : Refers db c m)
    (hrow : ∀ row, db.consumers.lookup c = some row → ∃ row', db'.consumers.lookup c = some row' ∧
      row'.topicFilter = row.topicFilter ∧ row.scanCursor ≤ row'.scanCursor)
    (hmessage : ∀ message, db.messages.lookup m = some message →
      db'.messages.lookup m = some message) :
    Refers db' c m := by
  obtain ⟨row, message, hc, hm, hle, ht⟩ := h
  obtain ⟨row', hc', hfilter, hcursor⟩ := hrow row hc
  exact ⟨row', message, hc', hmessage message hm, hle.trans hcursor, hfilter ▸ ht⟩

/-- A cursor in range stays in range while identifiers are assigned. -/
theorem RowOk.mono {seq seq' : ℤ} {row : ConsumerRow} (h : RowOk seq row) (hle : seq ≤ seq') :
    RowOk seq' row where
  nonneg := h.nonneg
  le_seq := h.le_seq.trans hle
  drain limit hl := ⟨(h.drain limit hl).1, (h.drain limit hl).2.trans hle⟩
  draining := h.draining

/-- A consumer awaits a new message when it is active and its filter accepts the topic. -/
theorem RowOk.awaits_new {seq : ℤ} {row : ConsumerRow} (hok : RowOk seq row) {message : Message}
    (hnew : seq < message.id) :
    awaits row message = (row.drainingAt.isNone && topicMatches row.topicFilter message.topic) := by
  have hcursor : decide (row.scanCursor < message.id) = true :=
    decide_eq_true (lt_of_le_of_lt hok.le_seq hnew)
  have hdraining := hok.draining
  rw [awaits, hcursor, Bool.true_and]
  cases hlimit : row.drainCursor with
  | none =>
    rw [hlimit, Option.isSome_none, Option.isSome_eq_false_iff] at hdraining
    rw [hdraining]
  | some limit =>
    have hle := (hok.drain limit hlimit).2
    rw [hlimit, Option.isSome_some] at hdraining
    have hactive : row.drainingAt.isNone = false := by
      rw [← Option.not_isSome, hdraining]
      rfl
    have hbeyond : decide (message.id ≤ limit) = false := decide_eq_false (by omega)
    dsimp only
    rw [hactive, hbeyond]

/-- The row found under a name. -/
theorem consumerNamed_some {db : Db} {name : String} {row : ConsumerRow}
    (h : consumerNamed db name = some row) : row ∈ db.consumers ∧ row.name = name :=
  ⟨List.mem_of_find?_eq_some h, by simpa using List.find?_some h⟩

theorem consumerNamed_none {db : Db} {name : String} :
    consumerNamed db name = none ↔ ∀ row ∈ db.consumers, row.name ≠ name := by
  simp only [consumerNamed, List.find?_eq_none, beq_iff_eq]
  exact Iff.rfl

/-- With unique names the named row is the one found. -/
theorem consumerNamed_of_mem {db : Db} (hinv : Inv db) {row : ConsumerRow}
    (h : row ∈ db.consumers) :
    consumerNamed db row.name = some row := by
  cases hf : consumerNamed db row.name with
  | none => exact absurd rfl (consumerNamed_none.mp hf row h)
  | some found =>
    obtain ⟨hmem, hname⟩ := consumerNamed_some hf
    rw [hinv.names found hmem row h hname]

theorem archivedPair_some {db : Db} {c m : ℤ} {a : ArchiveRow} (h : archivedPair db c m = some a) :
    a ∈ db.archives ∧ a.consumerId = c ∧ a.messageId = m := by
  have hp : a.consumerId = c ∧ a.messageId = m := by simpa using List.find?_some h
  exact ⟨List.mem_of_find?_eq_some h, hp⟩

theorem archivedPair_none {db : Db} {c m : ℤ} :
    archivedPair db c m = none ↔ ∀ a ∈ db.archives, a.consumerId = c → a.messageId ≠ m := by
  simp only [archivedPair, List.find?_eq_none, Bool.and_eq_true, beq_iff_eq, not_and]
  exact Iff.rfl

/-- With unique pairs the archived copy is the one found. -/
theorem archivedPair_of_mem {db : Db} (hinv : Inv db) {a : ArchiveRow} (h : a ∈ db.archives) :
    archivedPair db a.consumerId a.messageId = some a := by
  cases hf : archivedPair db a.consumerId a.messageId with
  | none => exact absurd rfl (archivedPair_none.mp hf a h rfl)
  | some found =>
    obtain ⟨hmem, hc, hm⟩ := archivedPair_some hf
    rw [hinv.archive_pair found hmem a h hc hm]

/-- The delivery of one consumer's copy. -/
def deliveryOf (db : Db) (consumerId messageId : ℤ) : Option DeliveryRow :=
  db.deliveries.lookup (toLex (consumerId, messageId))

/-- Equal keys are equal pairs. -/
theorem key_eq_iff {d : DeliveryRow} {c m : ℤ} :
    d.key = toLex (c, m) ↔ d.consumerId = c ∧ d.messageId = m := by
  simp only [DeliveryRow.key, toLex_inj, Prod.mk.injEq]

theorem deliveryOf_some {db : Db} {c m : ℤ} {d : DeliveryRow} :
    deliveryOf db c m = some d ↔ d ∈ db.deliveries ∧ d.consumerId = c ∧ d.messageId = m := by
  rw [deliveryOf, Table.lookup_eq_some, key_eq_iff]

theorem deliveryOf_none {db : Db} {c m : ℤ} :
    deliveryOf db c m = none ↔ ∀ d ∈ db.deliveries, d.consumerId = c → d.messageId ≠ m := by
  simp only [deliveryOf, Table.lookup_eq_none, ne_eq, key_eq_iff, not_and]

/-- The consumer a reference names is stored. -/
theorem Refers.consumer {db : Db} {c m : ℤ} (h : Refers db c m) :
    (db.consumers.lookup c).isSome = true := by
  obtain ⟨row, -, hc, -⟩ := h
  rw [hc]
  rfl

/-- The message a reference names is stored. -/
theorem Refers.message {db : Db} {c m : ℤ} (h : Refers db c m) :
    (db.messages.lookup m).isSome = true := by
  obtain ⟨-, message, -, hm, -⟩ := h
  rw [hm]
  rfl

/-- A copy some row refers to is at or below its consumer's cursor. -/
theorem Refers.le_cursor {db : Db} {c m : ℤ} (h : Refers db c m) {row : ConsumerRow}
    (hrow : db.consumers.lookup c = some row) : m ≤ row.scanCursor := by
  obtain ⟨row', -, hc, -, hle, -⟩ := h
  rw [hrow] at hc
  cases hc
  exact hle

/-- The retained high-water mark never exceeds the identifiers assigned. -/
theorem highWater_le_seq (db : Db) : highWater db ≤ db.messages.seq := db.messages.maxKey_le_seq

theorem highWater_nonneg (db : Db) : 0 ≤ highWater db := db.messages.maxKey_nonneg

theorem le_highWater {db : Db} {message : Message} (h : message ∈ db.messages) :
    message.id ≤ highWater db := AutoTable.key_le_maxKey h

/-- Inserting deliveries with free, different keys and live references succeeds. -/
theorem insertDeliveries_eq {db : Db} {ds : List DeliveryRow}
    (hcheck : ∀ d ∈ ds, deliveryCheck d = true)
    (hconsumer : ∀ d ∈ ds, (db.consumers.lookup d.consumerId).isSome = true)
    (hmessage : ∀ d ∈ ds, (db.messages.lookup d.messageId).isSome = true)
    (hfree : ∀ d ∈ ds, ∀ b ∈ db.deliveries, b.key ≠ d.key)
    (hn : (ds.map DeliveryRow.key).Nodup) :
    insertDeliveries db ds = .ok { db with deliveries := db.deliveries.insertMany ds } := by
  induction ds generalizing db with
  | nil => rfl
  | cons d ds ih =>
    obtain ⟨hd, hrest⟩ := List.nodup_cons.mp hn
    have hfreeHead := hfree d List.mem_cons_self
    obtain ⟨t, ht⟩ := Table.exists_insert hfreeHead
    have htt : db.deliveries.insertIgnore d = t := by rw [Table.insertIgnore, ht, Option.getD_some]
    have hone : insertDelivery db d = .ok { db with deliveries := t } := by
      unfold insertDelivery
      rw [if_neg (not_not.mpr (hcheck d List.mem_cons_self)), ht]
      simp only [hconsumer d List.mem_cons_self, hmessage d List.mem_cons_self,
        Bool.and_self, if_true]
    have hfree' : ∀ x ∈ ds, ∀ b ∈ t, b.key ≠ x.key := by
      intro x hx b hb
      rcases (Table.mem_insert ht).mp hb with rfl | hb
      · exact fun he => hd (he ▸ List.mem_map_of_mem hx)
      · exact hfree x (List.mem_cons_of_mem _ hx) b hb
    have hstep : insertDeliveries { db with deliveries := t } ds =
        .ok { db with deliveries := t.insertMany ds } := ih
      (fun x hx => hcheck x (List.mem_cons_of_mem _ hx))
      (fun x hx => hconsumer x (List.mem_cons_of_mem _ hx))
      (fun x hx => hmessage x (List.mem_cons_of_mem _ hx)) hfree' hrest
    rw [Table.insertMany_cons, htt]
    unfold insertDeliveries at hstep ⊢
    rw [List.foldlM_cons, hone]
    exact hstep

/-- An update whose rewritten rows pass the counter checks succeeds. -/
theorem updateDeliveries_eq {db : Db} {p : DeliveryRow → Bool} {f : DeliveryRow → DeliveryRow}
    {hf : ∀ d, (f d).key = d.key} (h : ∀ d ∈ db.deliveries, deliveryCheck (f d) = true) :
    updateDeliveries db p f hf =
      .ok { db with deliveries := db.deliveries.updateWhere p f hf } := by
  unfold updateDeliveries
  rw [if_pos]
  exact List.all_eq_true.mpr fun d hd => h d (Table.mem_select.mp hd).1

/-- An update whose rewritten rows pass the cursor checks succeeds. -/
theorem updateConsumers_eq {db : Db} {p : ConsumerRow → Bool} {f : ConsumerRow → ConsumerRow}
    {hf : ∀ row, (f row).id = row.id}
    (h : ∀ row ∈ db.consumers, p row = true → consumerCheck (f row) = true) :
    updateConsumers db p f hf = .ok { db with consumers := db.consumers.updateWhere p f hf } := by
  unfold updateConsumers
  rw [if_pos]
  exact List.all_eq_true.mpr fun row hr =>
    h row (AutoTable.mem_select.mp hr).1 (AutoTable.mem_select.mp hr).2

/-- Cursors in range pass the checks. -/
theorem RowOk.check {seq : ℤ} {row : ConsumerRow} (h : RowOk seq row) :
    consumerCheck row = true := by
  unfold consumerCheck
  rw [decide_eq_true h.nonneg, Bool.true_and]
  cases hd : row.drainCursor with
  | none => rfl
  | some limit => exact decide_eq_true (h.drain limit hd).1

/-- The archive row built for a removed delivery. -/
def archiveRow (archivedAt : ℤ) (detail : Option String) (lease : ArchivedLease) (id : ℤ) :
    ArchiveRow :=
  ⟨id, lease.consumerId, lease.messageId, archivedAt, lease.deliveryCount, lease.generation, detail⟩

theorem archiveRow_id (archivedAt : ℤ) (detail : Option String) (lease : ArchivedLease) (id : ℤ) :
    (archiveRow archivedAt detail lease id).id = id := rfl

/-- The pair an archived lease occupies. -/
def ArchivedLease.pair (lease : ArchivedLease) : ℤ × ℤ := (lease.consumerId, lease.messageId)

/-- Inserting archives with free, different pairs and live references succeeds,
and identifiers are assigned in list order. -/
theorem foldlM_insertArchivedLease {db : Db} {leases : List ArchivedLease} {archivedAt : ℤ}
    {detail : Option String}
    (hcheck : ∀ l ∈ leases, archiveCheck l.deliveryCount l.generation = true)
    (hconsumer : ∀ l ∈ leases, (db.consumers.lookup l.consumerId).isSome = true)
    (hmessage : ∀ l ∈ leases, (db.messages.lookup l.messageId).isSome = true)
    (hfree : ∀ l ∈ leases, ∀ a ∈ db.archives, a.consumerId = l.consumerId →
      a.messageId ≠ l.messageId)
    (hn : (leases.map ArchivedLease.pair).Nodup) :
    leases.foldlM (insertArchivedLease archivedAt detail) db =
      .ok { db with
        archives := db.archives.appendAll (archiveRow archivedAt detail)
          (archiveRow_id archivedAt detail) leases } := by
  induction leases generalizing db with
  | nil => rfl
  | cons l leases ih =>
    obtain ⟨hl, hrest⟩ := List.nodup_cons.mp hn
    have hpair : archivedPair db l.consumerId l.messageId = none :=
      archivedPair_none.mpr (hfree l List.mem_cons_self)
    have hone : insertArchivedLease archivedAt detail db l = .ok { db with
        archives := db.archives.append (archiveRow archivedAt detail l)
          (archiveRow_id archivedAt detail l) } := by
      unfold insertArchivedLease insertArchive
      rw [if_neg (not_not.mpr (hcheck l List.mem_cons_self)), hpair]
      simp only [hconsumer l List.mem_cons_self, hmessage l List.mem_cons_self, Bool.and_self,
        Option.isSome_none, Bool.false_eq_true, if_true, if_false]
      rfl
    have hfree' : ∀ x ∈ leases, ∀ a ∈
        db.archives.append (archiveRow archivedAt detail l) (archiveRow_id archivedAt detail l),
        a.consumerId = x.consumerId → a.messageId ≠ x.messageId := by
      intro x hx a ha hc hm
      rcases AutoTable.mem_append.mp ha with ha | rfl
      · exact hfree x (List.mem_cons_of_mem _ hx) a ha hc hm
      · exact hl (List.mem_map.mpr ⟨x, hx, Prod.ext hc.symm hm.symm⟩)
    have hstep : leases.foldlM (insertArchivedLease archivedAt detail) { db with
          archives := db.archives.append (archiveRow archivedAt detail l)
            (archiveRow_id archivedAt detail l) } =
        .ok { db with
          archives := db.archives.appendAll (archiveRow archivedAt detail)
            (archiveRow_id archivedAt detail) (l :: leases) } := ih
      (fun x hx => hcheck x (List.mem_cons_of_mem _ hx))
      (fun x hx => hconsumer x (List.mem_cons_of_mem _ hx))
      (fun x hx => hmessage x (List.mem_cons_of_mem _ hx)) hfree' hrest
    rw [List.foldlM_cons, hone]
    exact hstep

end LiteFan.Invariant

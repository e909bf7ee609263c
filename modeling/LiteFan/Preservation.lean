import LiteFan.Step

/-!
# The invariant holds in every reachable state

Each effect keeps the cross-table invariant. Effects that only remove rows or
raise counters keep it by one common argument; a claim, an archive batch and a
redrive move copies between tables and are treated one by one.
-/

namespace LiteFan.Preservation

open LiteFan.Api LiteFan.Time LiteFan.Schema LiteFan.Storage LiteFan.Store LiteFan.Consumer
open LiteFan.System LiteFan.Invariant LiteFan.Effect LiteFan.Step Relational

/-- The invariant survives when copies are only removed or have their counters
raised and every remaining reference stays valid. -/
theorem Inv.shrink {db db' : Db} (hinv : Inv db)
    (hnames : ∀ a ∈ db'.consumers, ∀ b ∈ db'.consumers, a.name = b.name → a = b)
    (hrows : ∀ row ∈ db'.consumers, RowOk db'.messages.seq row)
    (hdeliveries : ∀ d ∈ db'.deliveries, ∃ b ∈ db.deliveries, b.consumerId = d.consumerId ∧
      b.messageId = d.messageId ∧ b.generation ≤ d.generation ∧ b.deliveryCount ≤ d.deliveryCount)
    (harchives : ∀ a ∈ db'.archives, a ∈ db.archives)
    (hdeliveryRefers : ∀ d ∈ db'.deliveries, Refers db d.consumerId d.messageId →
      Refers db' d.consumerId d.messageId)
    (harchiveRefers : ∀ a ∈ db'.archives, Refers db a.consumerId a.messageId →
      Refers db' a.consumerId a.messageId)
    (hledger : ∀ row ∈ db'.idempotency, ∃ id, row.messageId = some id ∧ id ≤ db'.messages.seq) :
    Inv db' where
  names := hnames
  rows := hrows
  delivery_refers d hd := by
    obtain ⟨b, hb, hc, hm, -, -⟩ := hdeliveries d hd
    have hrefers := hinv.delivery_refers b hb
    rw [hc, hm] at hrefers
    exact hdeliveryRefers d hd hrefers
  delivery_counts d hd := by
    obtain ⟨b, hb, -, -, hgeneration, hcount⟩ := hdeliveries d hd
    have hbounds := hinv.delivery_counts b hb
    omega
  archive_refers a ha := harchiveRefers a ha (hinv.archive_refers a (harchives a ha))
  archive_counts a ha := hinv.archive_counts a (harchives a ha)
  archive_pair a ha b hb := hinv.archive_pair a (harchives a ha) b (harchives b hb)
  disjoint a ha d hd hc := by
    obtain ⟨b, hb, hbc, hbm, -, -⟩ := hdeliveries d hd
    rw [← hbm]
    exact hinv.disjoint a (harchives a ha) b hb (hc.trans hbc.symm)
  ledger := hledger

/-- Rows that are still there have not changed. -/
theorem same_deliveries {db : Db} {t : Table DeliveryRow DeliveryRow.key}
    (h : ∀ d ∈ t, d ∈ db.deliveries) : ∀ d ∈ t, ∃ b ∈ db.deliveries, b.consumerId = d.consumerId ∧
      b.messageId = d.messageId ∧ b.generation ≤ d.generation ∧ b.deliveryCount ≤ d.deliveryCount :=
  fun d hd => ⟨d, h d hd, rfl, rfl, le_rfl, le_rfl⟩

variable {db : Db}

/-- Opening a free name keeps the invariant. -/
theorem inv_created (hinv : Inv db) {name : String} {filter : Filter} {now : ℤ}
    (hfree : consumerNamed db name = none) : Inv (openedDb db name filter now) := by
  have hrefers : ∀ c m, Refers db c m → Refers (openedDb db name filter now) c m := by
    intro c m h
    refine h.mono (fun row hrow => ⟨row, ?_, rfl, le_rfl⟩) fun _ hm => hm
    obtain ⟨hstored, hid⟩ := AutoTable.lookup_eq_some.mp hrow
    exact AutoTable.lookup_eq_some.mpr ⟨mem_openedDb.mpr (Or.inl hstored), hid⟩
  have hfresh := consumerNamed_none.mp hfree
  refine Inv.shrink hinv ?_ ?_ (same_deliveries fun _ hd => hd) (fun _ ha => ha)
    (fun d _ => hrefers _ _) (fun a _ => hrefers _ _) hinv.ledger
  · intro a ha b hb hsame
    rcases mem_openedDb.mp ha with ha | ha
    · rcases mem_openedDb.mp hb with hb | hb
      · exact hinv.names a ha b hb hsame
      · exact absurd (hsame.trans (by rw [hb]; rfl)) (hfresh a ha)
    · rcases mem_openedDb.mp hb with hb | hb
      · exact absurd (hsame.symm.trans (by rw [ha]; rfl)) (hfresh b hb)
      · rw [ha, hb]
  · intro row hrow
    rcases mem_openedDb.mp hrow with hrow | hrow
    · exact hinv.rows row hrow
    · rw [hrow]
      refine ⟨highWater_nonneg db, highWater_le_seq db, fun limit hlimit => ?_, rfl⟩
      cases hlimit

/-- Publishing keeps the invariant. -/
theorem inv_published (hinv : Inv db) (now expiresAt : ℤ) (messages : List Publish) :
    Inv (publishedDb now expiresAt (ledgerAt now db messages) (assigned now db messages)) := by
  obtain ⟨-, hconsumers, hdeliveries, harchives, hledger⟩ := ledgerAt_parts now db messages
  have hlog := publishedDb_messages now expiresAt db messages
  have hseq : (publishedDb now expiresAt (ledgerAt now db messages)
      (assigned now db messages)).messages.seq =
        db.messages.seq + (assigned now db messages).stored.length := by
    rw [hlog, AutoTable.appendAll_seq]
  have hgrow : db.messages.seq ≤ (publishedDb now expiresAt (ledgerAt now db messages)
      (assigned now db messages)).messages.seq := by omega
  have hrefers : ∀ c m, Refers db c m → Refers (publishedDb now expiresAt
      (ledgerAt now db messages) (assigned now db messages)) c m := by
    intro c m h
    refine h.mono (fun row hrow => ⟨row, ?_, rfl, le_rfl⟩) fun message hm => ?_
    · have hsame := hconsumers.symm ▸ hrow
      exact hsame
    · obtain ⟨hstored, hid⟩ := AutoTable.lookup_eq_some.mp hm
      have hle : m ≤ db.messages.seq := hid ▸ db.messages.key_le message hstored
      rw [hlog, AutoTable.lookup_appendAll_of_le _ _ hle]
      exact hm
  refine Inv.shrink hinv ?_ ?_ (same_deliveries fun d hd => hdeliveries ▸ hd)
    (fun a ha => harchives ▸ ha) (fun d _ => hrefers _ _) (fun a _ => hrefers _ _) ?_
  · intro a ha b hb
    exact hinv.names a (hconsumers ▸ ha) b (hconsumers ▸ hb)
  · intro row hrow
    exact (hinv.rows row (hconsumers ▸ hrow)).mono hgrow
  · intro row hrow
    have hlookup : (fillTable expiresAt (ledgerAt now db messages).idempotency
        (assigned now db messages).filled).lookup row.key = some row := Table.lookup_key hrow
    have hn : ((assigned now db messages).filled.map Prod.fst).Nodup := assign_filled_nodup _ _ _
    rw [lookup_fillTable _ _ _ hn] at hlookup
    cases hfill : (assigned now db messages).filled.lookup row.key with
    | none =>
      rw [hfill] at hlookup
      obtain ⟨hmem, -⟩ := Table.lookup_eq_some.mp hlookup
      obtain ⟨id, hid, hle⟩ := hinv.ledger row (hledger row hmem)
      exact ⟨id, hid, by omega⟩
    | some id =>
      rw [hfill] at hlookup
      have hrowEq := Option.some_inj.mp hlookup
      obtain ⟨-, -, hle⟩ := assign_filled _ _ _ _ (mem_of_lookup hfill)
      refine ⟨id, by rw [← hrowEq], ?_⟩
      rw [hseq]
      exact hle

/-- A claim keeps the other consumers and moves the cursor of its own. -/
theorem consumers_claimed {row other : ConsumerRow} (hrow : db.consumers.lookup row.id = some row)
    {now deadline : ℤ} {limit : ℕ} (h : other ∈ (claimedDb db row now deadline limit).consumers) :
    (other ∈ db.consumers ∧ other.id ≠ row.id) ∨
      other = withCursor (cursorAfter db row now limit) row := by
  have hlookup := AutoTable.lookup_key h
  by_cases hid : other.id = row.id
  · rw [hid, lookup_claimedDb_self hrow] at hlookup
    exact Or.inr (Option.some_inj.mp hlookup).symm
  · rw [lookup_claimedDb_other hid] at hlookup
    exact Or.inl ⟨(AutoTable.lookup_eq_some.mp hlookup).1, hid⟩

/-- What a copy refers to is still there after a claim. -/
theorem refers_claimed {row : ConsumerRow} (hrow : db.consumers.lookup row.id = some row)
    (now deadline : ℤ) (limit : ℕ) {c m : ℤ} (h : Refers db c m) :
    Refers (claimedDb db row now deadline limit) c m := by
  refine h.mono (fun other hother => ?_) fun _ hm => hm
  by_cases hc : c = row.id
  · rw [hc] at hother ⊢
    rw [hrow] at hother
    cases hother
    exact ⟨_, lookup_claimedDb_self hrow, rfl, (cursorAfter_bounds db row now limit).1⟩
  · rw [lookup_claimedDb_other hc]
    exact ⟨other, hother, rfl, le_rfl⟩

/-- A first lease refers to its message, which the cursor has passed. -/
theorem refers_fresh {row : ConsumerRow} (hrow : db.consumers.lookup row.id = some row)
    (deadline : ℤ) {now : ℤ} {limit : ℕ} {message : Message}
    (h : message ∈ freshMessages db row now limit) :
    Refers (claimedDb db row now deadline limit) row.id message.id := by
  obtain ⟨hmessage, -, -, htopic⟩ := mem_freshMessages h
  have hle := (mem_freshMessages_iff (mem_unseen_of_fresh h)).mp h
  exact ⟨_, message, lookup_claimedDb_self hrow, AutoTable.lookup_key hmessage, hle, htopic⟩

/-- A claim keeps the invariant: first leases lie between the old cursor and the new. -/
theorem inv_granted (hinv : Inv db) {row : ConsumerRow}
    (hrow : db.consumers.lookup row.id = some row)
    (now deadline : ℤ) (limit : ℕ) : Inv (claimedDb db row now deadline limit) := by
  have hstored := (AutoTable.lookup_eq_some.mp hrow).1
  constructor
  case names =>
    intro a ha b hb hsame
    rcases consumers_claimed hrow ha with ⟨ha, hna⟩ | rfl
    · rcases consumers_claimed hrow hb with ⟨hb, -⟩ | rfl
      · exact hinv.names a ha b hb hsame
      · exact absurd (congrArg ConsumerRow.id (hinv.names a ha row hstored hsame)) hna
    · rcases consumers_claimed hrow hb with ⟨hb, hnb⟩ | rfl
      · exact absurd (congrArg ConsumerRow.id (hinv.names b hb row hstored hsame.symm)) hnb
      · rfl
  case rows =>
    intro other hother
    rcases consumers_claimed hrow hother with ⟨hmem, -⟩ | rfl
    · exact hinv.rows other hmem
    · exact withCursor_ok (hinv.rows row hstored) now limit
  case delivery_refers =>
    intro d hd
    rcases (mem_claimedDb hinv hrow).mp hd with ⟨message, hm, rfl⟩ | ⟨hd, -⟩ | ⟨b, hb, rfl⟩
    · exact refers_fresh hrow deadline hm
    · exact refers_claimed hrow now deadline limit (hinv.delivery_refers d hd)
    · exact refers_claimed hrow now deadline limit (hinv.delivery_refers b (mem_selectVisible hb).1)
  case delivery_counts =>
    intro d hd
    rcases (mem_claimedDb hinv hrow).mp hd with ⟨message, hm, rfl⟩ | ⟨hd, -⟩ | ⟨b, hb, rfl⟩
    · exact ⟨Int.one_nonneg, Int.one_nonneg⟩
    · exact hinv.delivery_counts d hd
    · have hcounts := hinv.delivery_counts b (mem_selectVisible hb).1
      have hnext : 0 ≤ b.generation + 1 ∧ 0 ≤ b.deliveryCount + 1 := by omega
      exact hnext
  case archive_refers =>
    intro a ha
    exact refers_claimed hrow now deadline limit (hinv.archive_refers a ha)
  case archive_counts => exact hinv.archive_counts
  case archive_pair => exact hinv.archive_pair
  case disjoint =>
    intro a ha d hd hc
    rcases (mem_claimedDb hinv hrow).mp hd with ⟨message, hm, rfl⟩ | ⟨hd, -⟩ | ⟨b, hb, rfl⟩
    · have harchived := hinv.archive_refers a ha
      have hc : a.consumerId = row.id := hc
      rw [hc] at harchived
      have hle := harchived.le_cursor hrow
      have hlt := (mem_freshMessages hm).2.1
      intro hsame
      have hsame : a.messageId = message.id := hsame
      omega
    · exact hinv.disjoint a ha d hd hc
    · exact hinv.disjoint a ha b (mem_selectVisible hb).1 hc
  case ledger => exact hinv.ledger

/-- An acknowledgement keeps the invariant. -/
theorem inv_acked (hinv : Inv db) (p : DeliveryRow → Bool) : Inv (deleteDeliveries db p) :=
  Inv.shrink hinv hinv.names hinv.rows
    (same_deliveries fun _ hd => (Table.mem_deleteWhere.mp hd).1) (fun _ ha => ha) (fun _ _ h => h)
    (fun _ _ h => h) hinv.ledger

/-- An update that keeps keys and does not lower counters keeps the invariant. -/
theorem inv_touched (hinv : Inv db) {c : ℤ} {f : DeliveryRow → DeliveryRow}
    (hf : ∀ d, (f d).key = d.key) {batches : List (List Receipt)}
    (hgrow : ∀ d, d.generation ≤ (touch c f batches d).generation ∧
      d.deliveryCount ≤ (touch c f batches d).deliveryCount) : Inv (touched db c f hf batches) := by
  refine Inv.shrink hinv hinv.names hinv.rows (fun d hd => ?_) (fun _ ha => ha) (fun _ _ h => h)
    (fun _ _ h => h) hinv.ledger
  obtain ⟨b, hb, rfl⟩ := mem_touched.mp hd
  obtain ⟨hc, hm⟩ := key_eq_iff.mp (touch_key hf c batches b)
  exact ⟨b, hb, hc.symm, hm.symm, hgrow b⟩

/-- A release does not lower counters. -/
theorem nackRow_grows (c visibleAt : ℤ) (batches : List (List Receipt)) (d : DeliveryRow) :
    d.generation ≤ (touch c (nackRow visibleAt) batches d).generation ∧
      d.deliveryCount ≤ (touch c (nackRow visibleAt) batches d).deliveryCount := by
  rcases touch_nackRow c visibleAt batches d with ⟨heq, -⟩ | ⟨-, generation, hlt, heq⟩
  · rw [heq]
    exact ⟨le_rfl, le_rfl⟩
  · rw [heq]
    exact ⟨hlt.le, le_rfl⟩

/-- An extension does not lower counters. -/
theorem extendRow_grows (c visibleAt : ℤ) (batches : List (List Receipt)) (d : DeliveryRow) :
    d.generation ≤ (touch c (extendRow visibleAt) batches d).generation ∧
      d.deliveryCount ≤ (touch c (extendRow visibleAt) batches d).deliveryCount := by
  rw [touch_extendRow, Table.rowUpdate]
  split
  · exact ⟨le_rfl, le_rfl⟩
  · exact ⟨le_rfl, le_rfl⟩

/-- An archive batch keeps the invariant: what it archives it removes. -/
theorem inv_archived (hinv : Inv db) (c archivedAt : ℤ) (receipts : List Receipt)
    (detail : Option String) : Inv (archivedDb db c receipts archivedAt detail) := by
  have hdeliveries : ∀ d ∈ (archivedDb db c receipts archivedAt detail).deliveries,
      d ∈ db.deliveries ∧ pushReceiptPredicate c receipts d = false :=
    fun d hd => Table.mem_deleteWhere.mp hd
  have harchives : ∀ a ∈ (archivedDb db c receipts archivedAt detail).archives, a ∈ db.archives ∨
      ∃ d ∈ db.deliveries, pushReceiptPredicate c receipts d = true ∧
        a.consumerId = d.consumerId ∧ a.messageId = d.messageId ∧
        a.deliveryCount = d.deliveryCount ∧ a.lastGeneration = d.generation := by
    intro a ha
    rcases mem_archivedDb.mp ha with ha | ⟨i, lease, hlease, rfl⟩
    · exact Or.inl ha
    · obtain ⟨d, hd, hnamed, rfl⟩ := mem_archivedLeases.mp (List.mem_of_getElem? hlease)
      exact Or.inr ⟨d, hd, hnamed, rfl, rfl, rfl, rfl⟩
  constructor
  case names => exact hinv.names
  case rows => exact hinv.rows
  case delivery_refers => exact fun d hd => hinv.delivery_refers d (hdeliveries d hd).1
  case delivery_counts => exact fun d hd => hinv.delivery_counts d (hdeliveries d hd).1
  case archive_refers =>
    intro a ha
    rcases harchives a ha with ha | ⟨d, hd, -, hc, hm, -, -⟩
    · exact hinv.archive_refers a ha
    · rw [hc, hm]
      exact hinv.delivery_refers d hd
  case archive_counts =>
    intro a ha
    rcases harchives a ha with ha | ⟨d, hd, -, -, -, hcount, hgeneration⟩
    · exact hinv.archive_counts a ha
    · have hcounts := hinv.delivery_counts d hd
      omega
  case archive_pair =>
    intro a ha b hb hc hm
    rcases mem_archivedDb.mp ha with hold | ⟨i, lease, hlease, rfl⟩
    · rcases mem_archivedDb.mp hb with hold' | ⟨j, lease', hlease', rfl⟩
      · exact hinv.archive_pair a hold b hold' hc hm
      · obtain ⟨d, hd, -, rfl⟩ := mem_archivedLeases.mp (List.mem_of_getElem? hlease')
        exact absurd hm (hinv.disjoint a hold d hd hc)
    · rcases mem_archivedDb.mp hb with hold' | ⟨j, lease', hlease', rfl⟩
      · obtain ⟨d, hd, -, rfl⟩ := mem_archivedLeases.mp (List.mem_of_getElem? hlease)
        exact absurd hm.symm (hinv.disjoint b hold' d hd hc.symm)
      · have hm : lease.messageId = lease'.messageId := hm
        have hij : i = j := archivedLeases_index hlease hlease' hm
        subst hij
        rw [hlease] at hlease'
        cases hlease'
        rfl
  case disjoint =>
    intro a ha d hd hc hm
    obtain ⟨hd, hkept⟩ := hdeliveries d hd
    rcases harchives a ha with ha | ⟨b, hb, hnamed, hbc, hbm, -, -⟩
    · exact hinv.disjoint a ha d hd hc hm
    · have hsame : b = d := Table.eq_of_key hb hd
        (key_eq_iff.mpr ⟨hbc.symm.trans hc, hbm.symm.trans hm⟩)
      rw [hsame, hkept] at hnamed
      cases hnamed
  case ledger => exact hinv.ledger

/-- A redrive keeps the invariant: what it restores it takes from the archive. -/
theorem inv_redriven (hinv : Inv db) (c visibleAt : ℤ) (archiveIds : List ℤ) :
    Inv (redrivenDb db c archiveIds visibleAt) := by
  have harchives : ∀ a ∈ (redrivenDb db c archiveIds visibleAt).archives,
      a ∈ db.archives ∧ archiveNamed c archiveIds a = false :=
    fun a ha => AutoTable.mem_deleteWhere.mp ha
  have hdeliveries : ∀ d ∈ (redrivenDb db c archiveIds visibleAt).deliveries,
      (∃ a ∈ db.archives, archiveNamed c archiveIds a = true ∧ a.consumerId = d.consumerId ∧
        a.messageId = d.messageId ∧ d.generation = 0 ∧ d.deliveryCount = 0) ∨
          d ∈ db.deliveries := by
    intro d hd
    rcases (mem_redrivenDb hinv).mp hd with hd | hd
    · obtain ⟨a, ha, hnamed, rfl⟩ := mem_redrivenRows.mp hd
      exact Or.inl ⟨a, ha, hnamed, (archiveNamed_iff.mp hnamed).1, rfl, rfl, rfl⟩
    · exact Or.inr hd
  constructor
  case names => exact hinv.names
  case rows => exact hinv.rows
  case delivery_refers =>
    intro d hd
    rcases hdeliveries d hd with ⟨a, ha, -, hc, hm, -, -⟩ | hd
    · rw [← hc, ← hm]
      exact hinv.archive_refers a ha
    · exact hinv.delivery_refers d hd
  case delivery_counts =>
    intro d hd
    rcases hdeliveries d hd with ⟨a, ha, -, -, -, hgeneration, hcount⟩ | hd
    · omega
    · exact hinv.delivery_counts d hd
  case archive_refers => exact fun a ha => hinv.archive_refers a (harchives a ha).1
  case archive_counts => exact fun a ha => hinv.archive_counts a (harchives a ha).1
  case archive_pair =>
    exact fun a ha b hb => hinv.archive_pair a (harchives a ha).1 b (harchives b hb).1
  case disjoint =>
    intro a ha d hd hc hm
    obtain ⟨ha, hkept⟩ := harchives a ha
    rcases hdeliveries d hd with ⟨b, hb, hnamed, hbc, hbm, -, -⟩ | hd
    · have hsame : a = b := hinv.archive_pair a ha b hb (hc.trans hbc.symm) (hm.trans hbm.symm)
      rw [← hsame, hkept] at hnamed
      cases hnamed
    · exact hinv.disjoint a ha d hd hc hm
  case ledger => exact hinv.ledger

/-- Deleting archives keeps the invariant. -/
theorem inv_purged (hinv : Inv db) (p : ArchiveRow → Bool) : Inv (deleteArchives db p) :=
  Inv.shrink hinv hinv.names hinv.rows (same_deliveries fun _ hd => hd)
    (fun _ ha => (AutoTable.mem_deleteWhere.mp ha).1) (fun _ _ h => h) (fun _ _ h => h) hinv.ledger

/-- Draining keeps the invariant. -/
theorem inv_drained (hinv : Inv db) (c now : ℤ) : Inv (drainedDb db c now) := by
  have hconsumers : ∀ row ∈ (drainedDb db c now).consumers, ∃ old ∈ db.consumers,
      row = Table.rowUpdate (drainGuard c) (startDraining now (highWater db)) old := by
    intro row hrow
    obtain ⟨old, hold, heq⟩ := AutoTable.mem_updateWhere_rowUpdate.mp hrow
    exact ⟨old, hold, heq.symm⟩
  have hname : ∀ old, (Table.rowUpdate (drainGuard c) (startDraining now (highWater db)) old).name =
      old.name := by
    intro old
    unfold Table.rowUpdate
    split
    · rfl
    · rfl
  have hrefers : ∀ c' m, Refers db c' m → Refers (drainedDb db c now) c' m := by
    intro c' m h
    refine h.mono (fun row hrow => ?_) fun _ hm => hm
    have hlookup : (drainedDb db c now).consumers.lookup c' = (db.consumers.lookup c').map
        (Table.rowUpdate (drainGuard c) (startDraining now (highWater db))) :=
      AutoTable.lookup_updateWhere _ _
    rw [hrow, Option.map_some] at hlookup
    refine ⟨_, hlookup, ?_, ?_⟩
    · unfold Table.rowUpdate
      split
      · rfl
      · rfl
    · unfold Table.rowUpdate
      split
      · exact le_rfl
      · exact le_rfl
  refine Inv.shrink hinv ?_ ?_ (same_deliveries fun _ hd => hd) (fun _ ha => ha)
    (fun d _ => hrefers _ _) (fun a _ => hrefers _ _) hinv.ledger
  · intro a ha b hb hsame
    obtain ⟨a', ha', rfl⟩ := hconsumers a ha
    obtain ⟨b', hb', rfl⟩ := hconsumers b hb
    rw [hname, hname] at hsame
    rw [hinv.names a' ha' b' hb' hsame]
  · intro row hrow
    obtain ⟨old, hold, rfl⟩ := hconsumers row hrow
    unfold Table.rowUpdate
    split
    · exact startDraining_ok (hinv.rows old hold) now
    · exact hinv.rows old hold

/-- Deleting an identity keeps the invariant: it takes everything that refers to it. -/
theorem inv_deleted (hinv : Inv db) (row : ConsumerRow) : Inv (deletedDb db row) := by
  have hrefers : ∀ c m, c ≠ row.id → Refers db c m → Refers (deletedDb db row) c m := by
    intro c m hc h
    refine h.mono (fun other hother => ⟨other, ?_, rfl, le_rfl⟩) fun _ hm => hm
    obtain ⟨hstored, hid⟩ := AutoTable.lookup_eq_some.mp hother
    exact AutoTable.lookup_eq_some.mpr ⟨AutoTable.mem_deleteWhere.mpr
      ⟨hstored, by simpa [hid] using hc⟩, hid⟩
  refine Inv.shrink hinv ?_ ?_ (same_deliveries fun _ hd => (Table.mem_deleteWhere.mp hd).1)
    (fun _ ha => (AutoTable.mem_deleteWhere.mp ha).1) ?_ ?_ hinv.ledger
  · exact fun a ha b hb => hinv.names a (AutoTable.mem_deleteWhere.mp ha).1 b
      (AutoTable.mem_deleteWhere.mp hb).1
  · exact fun other hother => hinv.rows other (AutoTable.mem_deleteWhere.mp hother).1
  · intro d hd
    have hne := (Table.mem_deleteWhere.mp hd).2
    exact hrefers _ _ (by simpa using hne)
  · intro a ha
    have hne := (AutoTable.mem_deleteWhere.mp ha).2
    exact hrefers _ _ (by simpa using hne)

/-- Pruning keeps the invariant: nothing refers to what it deletes. -/
theorem inv_pruned (hinv : Inv db) (prune : Prune) : Inv (prunedDb db prune) := by
  have hrefers : ∀ c m, m ∉ prunedIds db prune → Refers db c m →
      Refers (prunedDb db prune) c m := by
    intro c m hkept h
    refine h.mono (fun row hrow => ⟨row, hrow, rfl, le_rfl⟩) fun message hm => ?_
    obtain ⟨hstored, hid⟩ := AutoTable.lookup_eq_some.mp hm
    exact AutoTable.lookup_eq_some.mpr ⟨AutoTable.mem_deleteWhere.mpr
      ⟨hstored, by simpa [hid] using hkept⟩, hid⟩
  refine Inv.shrink hinv hinv.names hinv.rows (same_deliveries fun _ hd => hd)
    (fun _ ha => ha) ?_ ?_
    hinv.ledger
  · intro d hd
    refine hrefers _ _ fun hpruned => ?_
    obtain ⟨-, -, -, -, hfree, -⟩ := prunable_of_pruned hpruned
    exact hfree d hd rfl
  · intro a ha
    refine hrefers _ _ fun hpruned => ?_
    obtain ⟨-, -, -, -, -, hfree, -⟩ := prunable_of_pruned hpruned
    exact hfree a ha rfl

/-- Every effect keeps the invariant. -/
theorem inv_effect {fan : Inner} {op : Op} {db' : Db} {reply : Except Error Reply}
    (h : Effect fan db op db' reply) (hinv : Inv db) : Inv db' := by
  cases h with
  | rejected _ => exact hinv
  | idle _ => exact hinv
  | created hname hfree => exact inv_created hinv hfree
  | reopened hname hrow hfilter =>
    exact ⟨hinv.names, hinv.rows, hinv.delivery_refers, hinv.delivery_counts, hinv.archive_refers,
      hinv.archive_counts, hinv.archive_pair, hinv.disjoint, hinv.ledger⟩
  | published hle => exact inv_published hinv _ _ _
  | granted hlease hid hrow hdeadline => exact inv_granted hinv hrow _ _ _
  | acked hpos hle => exact inv_acked hinv _
  | nacked hpos hle hvisible => exact inv_touched hinv _ (nackRow_grows _ _ _)
  | extended hpos hle hms hne hvisible => exact inv_touched hinv _ (extendRow_grows _ _ _)
  | archived hpos hle => exact inv_archived hinv _ _ _ _
  | redriven hpos hle hvisible => exact inv_redriven hinv _ _ _
  | purged => exact inv_purged hinv _
  | drained => exact inv_drained hinv _ _
  | deleted hrow haccept => exact inv_deleted hinv _
  | pruned => exact inv_pruned hinv _

/-- Every event keeps the invariant. -/
theorem inv_event (event : Event) (hv : system.valid event) (hinv : Inv event.before) :
    Inv event.after :=
  inv_effect (effect_of_valid hv hinv) hinv

/-- Every reachable state satisfies the invariant. -/
theorem inv_run {events : List Event} (hrun : Run events db) : Inv db :=
  hrun.invariant inv_empty inv_event

theorem inv_reachable (h : Reachable db) : Inv db := by
  obtain ⟨events, hrun⟩ := h
  exact inv_run hrun

end LiteFan.Preservation

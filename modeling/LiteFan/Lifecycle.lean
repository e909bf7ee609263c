import LiteFan.Preservation

/-!
# The life of one copy

For one consumer and one message the four tables hold a copy that is absent,
leased or archived. The abstract machine below has one transition for each way
a copy can change; every event of the system moves every copy by one of its
transitions, so runs of the store refine runs of the machine. The log and the
consumer rows get step lemmas of the same kind.
-/

namespace LiteFan.Lifecycle

open LiteFan.Api LiteFan.Time LiteFan.Schema LiteFan.Storage LiteFan.Store LiteFan.Consumer
open LiteFan.System LiteFan.Invariant LiteFan.Effect LiteFan.Step LiteFan.Preservation Relational

/-- Where one consumer's copy of one message is, outside the log. -/
inductive Copy where
  /-- Neither delivered nor archived. -/
  | absent
  /-- A delivery row with its deadline, generation and count. -/
  | leased (visibleAt generation deliveryCount : ℤ)
  /-- An archive row with the generation it keeps. -/
  | archived (generation : ℤ)
  deriving DecidableEq

/-- The ways a copy can change. -/
inductive Act where
  | stay
  /-- A claim takes the copy from the log until a deadline. -/
  | first (now deadline : ℤ)
  /-- A claim takes a visible copy again. -/
  | retry (now deadline : ℤ)
  | ack
  | nack (visibleAt : ℤ)
  | extend (visibleAt : ℤ)
  | archive
  | redrive (visibleAt : ℤ)
  | purge
  /-- The identity is deleted with everything it owns. -/
  | discard

/-- The transitions of a copy. -/
inductive Copy.Step : Act → Copy → Copy → Prop
  | stay (s : Copy) : Step .stay s s
  | first {now deadline : ℤ} (h : now < deadline) :
      Step (.first now deadline) .absent (.leased deadline 1 1)
  | retry {now deadline v g n : ℤ} (hlease : now < deadline) (hvisible : v ≤ now) :
      Step (.retry now deadline) (.leased v g n) (.leased deadline (g + 1) (n + 1))
  | ack (v g n : ℤ) : Step .ack (.leased v g n) .absent
  | nack {visibleAt v g g' n : ℤ} (h : g < g') :
      Step (.nack visibleAt) (.leased v g n) (.leased visibleAt g' n)
  | extend (visibleAt v g n : ℤ) :
      Step (.extend visibleAt) (.leased v g n) (.leased (max v visibleAt) g n)
  | archive (v g n : ℤ) : Step .archive (.leased v g n) (.archived g)
  | redrive (visibleAt g : ℤ) : Step (.redrive visibleAt) (.archived g) (.leased visibleAt 0 0)
  | purge (g : ℤ) : Step .purge (.archived g) .absent
  | discard (s : Copy) : Step .discard s .absent

/-- The copy of a message a database holds for a consumer. -/
def copyOf (db : Db) (c m : ℤ) : Copy :=
  match deliveryOf db c m with
  | some d => .leased d.visibleAt d.generation d.deliveryCount
  | none =>
    match archivedPair db c m with
    | some a => .archived a.lastGeneration
    | none => .absent

section Copies

variable {db db' : Db} {c m : ℤ}

/-- A leased copy is a delivery row. -/
theorem copyOf_leased {v g n : ℤ} :
    copyOf db c m = .leased v g n ↔ (⟨c, m, v, g, n⟩ : DeliveryRow) ∈ db.deliveries := by
  unfold copyOf
  cases hd : deliveryOf db c m with
  | some d =>
    obtain ⟨hmem, hc, hm⟩ := deliveryOf_some.mp hd
    simp only [Copy.leased.injEq]
    constructor
    · intro h
      obtain ⟨rfl, rfl, rfl⟩ := h
      rw [← hc, ← hm]
      exact hmem
    · intro h
      have hsame : d = ⟨c, m, v, g, n⟩ := Table.eq_of_key hmem h (key_eq_iff.mpr ⟨hc, hm⟩)
      rw [hsame]
      exact ⟨rfl, rfl, rfl⟩
  | none =>
    have hnone := deliveryOf_none.mp hd
    refine iff_of_false ?_ fun h => hnone _ h rfl rfl
    cases archivedPair db c m with
    | some a => exact Copy.noConfusion
    | none => exact Copy.noConfusion

/-- A row in hand is a leased copy. -/
theorem copyOf_delivery {d : DeliveryRow} (h : d ∈ db.deliveries) :
    copyOf db d.consumerId d.messageId = .leased d.visibleAt d.generation d.deliveryCount :=
  copyOf_leased.mpr h

/-- An archived copy is an archive row. -/
theorem copyOf_archived (hinv : Inv db) {g : ℤ} :
    copyOf db c m = .archived g ↔
      ∃ a ∈ db.archives, a.consumerId = c ∧ a.messageId = m ∧ a.lastGeneration = g := by
  unfold copyOf
  cases hd : deliveryOf db c m with
  | some d =>
    obtain ⟨hmem, hc, hm⟩ := deliveryOf_some.mp hd
    refine iff_of_false Copy.noConfusion fun h => ?_
    obtain ⟨a, ha, hac, ham, -⟩ := h
    exact hinv.disjoint a ha d hmem (hac.trans hc.symm) (ham.trans hm.symm)
  | none =>
    cases ha : archivedPair db c m with
    | some a =>
      obtain ⟨hmem, hac, ham⟩ := archivedPair_some ha
      simp only [Copy.archived.injEq]
      constructor
      · intro h
        exact ⟨a, hmem, hac, ham, h⟩
      · intro h
        obtain ⟨b, hb, hbc, hbm, hg⟩ := h
        rw [hinv.archive_pair a hmem b hb (hac.trans hbc.symm) (ham.trans hbm.symm)]
        exact hg
    | none =>
      have hnone := archivedPair_none.mp ha
      refine iff_of_false Copy.noConfusion fun h => ?_
      obtain ⟨b, hb, hbc, hbm, -⟩ := h
      exact hnone b hb hbc hbm

/-- An absent copy has no row. -/
theorem copyOf_absent : copyOf db c m = .absent ↔
    (∀ d ∈ db.deliveries, d.consumerId = c → d.messageId ≠ m) ∧
      ∀ a ∈ db.archives, a.consumerId = c → a.messageId ≠ m := by
  unfold copyOf
  cases hd : deliveryOf db c m with
  | some d =>
    obtain ⟨hmem, hc, hm⟩ := deliveryOf_some.mp hd
    exact iff_of_false Copy.noConfusion fun h => h.1 d hmem hc hm
  | none =>
    cases ha : archivedPair db c m with
    | some a =>
      obtain ⟨hmem, hac, ham⟩ := archivedPair_some ha
      exact iff_of_false Copy.noConfusion fun h => h.2 a hmem hac ham
    | none => exact iff_of_true rfl ⟨deliveryOf_none.mp hd, archivedPair_none.mp ha⟩

/-- A copy depends on its own rows only. -/
theorem copyOf_congr (hinv : Inv db) (hinv' : Inv db')
    (hdeliveries : ∀ d, d.consumerId = c → d.messageId = m →
      (d ∈ db'.deliveries ↔ d ∈ db.deliveries))
    (harchives : ∀ a, a.consumerId = c → a.messageId = m → (a ∈ db'.archives ↔ a ∈ db.archives)) :
    copyOf db' c m = copyOf db c m := by
  cases hcopy : copyOf db c m with
  | leased v g n => exact copyOf_leased.mpr ((hdeliveries _ rfl rfl).mpr (copyOf_leased.mp hcopy))
  | archived g =>
    obtain ⟨a, ha, hc, hm, hg⟩ := (copyOf_archived hinv).mp hcopy
    exact (copyOf_archived hinv').mpr ⟨a, (harchives a hc hm).mpr ha, hc, hm, hg⟩
  | absent =>
    obtain ⟨hd, ha⟩ := copyOf_absent.mp hcopy
    refine copyOf_absent.mpr ⟨fun d hmem hc hm => ?_, fun a hmem hc hm => ?_⟩
    · exact hd d ((hdeliveries d hc hm).mp hmem) hc hm
    · exact ha a ((harchives a hc hm).mp hmem) hc hm

/-- With the same rows every copy is the same. -/
theorem copyOf_same (hdeliveries : db'.deliveries = db.deliveries)
    (harchives : db'.archives = db.archives) :
    copyOf db' c m = copyOf db c m := by
  unfold copyOf deliveryOf archivedPair
  rw [hdeliveries, harchives]

end Copies

section Events

/-- The event is a successful receipt batch that names the copy's current lease. -/
def Applied (event : Event) (self : Consumer) (receipts : List Receipt) (c m : ℤ) : Prop :=
  self.id = c ∧ (∃ result, event.reply = .ok (.batch result)) ∧
    ∃ d ∈ event.before.deliveries, d.consumerId = c ∧ d.messageId = m ∧ receiptOf d ∈ receipts

/-- The event acknowledges the copy. -/
def Acks (event : Event) (c m : ℤ) : Prop :=
  ∃ self receipts, event.op = .ackBatch self receipts ∧ Applied event self receipts c m

/-- The event releases the copy. -/
def Nacks (event : Event) (c m : ℤ) : Prop :=
  ∃ self receipts retry now, event.op = .nackBatch self receipts retry now ∧
    Applied event self receipts c m

/-- The event extends the copy's lease to a deadline. -/
def Extends (event : Event) (c m visibleAt : ℤ) : Prop :=
  ∃ self receipts timeout now, event.op = .extendVisibilityBatch self receipts timeout now ∧
    Applied event self receipts c m ∧ visibleAt = now + asMillis timeout

/-- The event archives the copy. -/
def Archives (event : Event) (c m : ℤ) : Prop :=
  ∃ self receipts detail now, event.op = .archiveBatch self receipts detail now ∧
    Applied event self receipts c m

/-- The event restores the copy from the archive. -/
def Redrives (event : Event) (c m : ℤ) : Prop :=
  ∃ self archiveIds retry now, event.op = .redriveBatch self archiveIds retry now ∧ self.id = c ∧
    (∃ result, event.reply = .ok (.batch result)) ∧
    ∃ a ∈ event.before.archives, a.consumerId = c ∧ a.messageId = m ∧ a.id ∈ archiveIds

/-- The event purges the copy's archive. -/
def Purges (event : Event) (c m : ℤ) : Prop :=
  ∃ self purge, event.op = .purgeArchives self purge ∧ self.id = c ∧
    ∃ a ∈ event.before.archives, a.consumerId = c ∧ a.messageId = m ∧ a ∉ event.after.archives

/-- The event is a claim of a poll with the given reading and lease. -/
def Claims (event : Event) (c now leaseMs : ℤ) : Prop :=
  ∃ self poll, event.op = .claim self poll now ∧ self.id = c ∧
    pollLease event.fan poll = .ok (some leaseMs)

/-- The copy is still in the log, beyond the consumer's cursor. -/
def Waiting (db : Db) (c m : ℤ) : Prop :=
  ∃ row message, db.consumers.lookup c = some row ∧ message ∈ unseen db row ∧ message.id = m

/-- The event returns a delivery with the receipt. -/
def Grants (event : Event) (r : Receipt) : Prop :=
  ∃ granted, event.reply = .ok (.granted granted) ∧ ∃ delivery ∈ granted.deliveries,
    delivery.receipt = r

/-- The event deletes the identity. -/
def Deletes (event : Event) (c : ℤ) : Prop :=
  ∃ name mode row outcome, event.op = .deleteConsumer name mode ∧
    event.reply = .ok (.deleted outcome) ∧ event.before.consumers.lookup c = some row ∧
      row.name = name

/-- The event that makes a copy move. -/
def Happens (event : Event) (c m : ℤ) : Act → Prop
  | .stay => True
  | .first now deadline => Claims event c now (deadline - now) ∧ Waiting event.before c m
  | .retry now deadline => Claims event c now (deadline - now)
  | .ack => Acks event c m
  | .nack _ => Nacks event c m
  | .extend visibleAt => Extends event c m visibleAt
  | .archive => Archives event c m
  | .redrive _ => Redrives event c m
  | .purge => Purges event c m
  | .discard => Deletes event c

end Events

section Moves

variable {db : Db} {c m : ℤ}

/-- A claim leases visible copies again, takes fresh ones from the log and leaves the others. -/
theorem copy_granted (hinv : Inv db) {row : ConsumerRow}
    (hrow : db.consumers.lookup row.id = some row)
    {now deadline : ℤ} (limit : ℕ) (hlease : now < deadline) (c m : ℤ) :
    (c = row.id ∧ (Waiting db c m ∧ Copy.Step (.first now deadline) (copyOf db c m)
        (copyOf (claimedDb db row now deadline limit) c m) ∨
      Copy.Step (.retry now deadline) (copyOf db c m)
        (copyOf (claimedDb db row now deadline limit) c m))) ∨
      copyOf (claimedDb db row now deadline limit) c m = copyOf db c m := by
  have hinv' := inv_granted hinv hrow now deadline limit
  by_cases hretry : ∃ d ∈ selectVisible db row.id now limit, d.consumerId = c ∧ d.messageId = m
  · obtain ⟨d, hd, rfl, rfl⟩ := hretry
    obtain ⟨hstored, hc, hvisible⟩ := mem_selectVisible hd
    have hafter : releaseUntil deadline d ∈ (claimedDb db row now deadline limit).deliveries :=
      (mem_claimedDb hinv hrow).mpr (Or.inr (Or.inr ⟨d, hd, rfl⟩))
    have hcopy := copyOf_delivery hafter
    refine Or.inl ⟨hc, Or.inr ?_⟩
    rw [copyOf_delivery hstored]
    change Copy.Step _ _ (copyOf _ (releaseUntil deadline d).consumerId
      (releaseUntil deadline d).messageId)
    rw [hcopy]
    exact .retry hlease hvisible
  · by_cases hfirst : c = row.id ∧ ∃ message ∈ freshMessages db row now limit, message.id = m
    · obtain ⟨rfl, message, hmessage, rfl⟩ := hfirst
      have hbefore : copyOf db row.id message.id = .absent := by
        refine copyOf_absent.mpr ⟨fun d hd hc hm => ?_, fun a ha hc hm => ?_⟩
        · have hlt := selectVisible_lt_fresh hinv hrow hd hc hmessage
          omega
        · have hrefers := hinv.archive_refers a ha
          rw [hc, hm] at hrefers
          have hle := hrefers.le_cursor hrow
          have hlt := (mem_freshMessages hmessage).2.1
          omega
      have hafter : firstLease row.id deadline message.id ∈
          (claimedDb db row now deadline limit).deliveries :=
        (mem_claimedDb hinv hrow).mpr (Or.inl ⟨message, hmessage, rfl⟩)
      refine Or.inl ⟨rfl, Or.inl ⟨⟨row, message, hrow, mem_unseen_of_fresh hmessage, rfl⟩, ?_⟩⟩
      rw [hbefore, copyOf_leased.mpr hafter]
      exact .first hlease
    · right
      refine copyOf_congr hinv hinv' (fun d hc hm => ?_) fun _ _ _ => Iff.rfl
      rw [mem_claimedDb hinv hrow]
      constructor
      · intro h
        rcases h with ⟨message, hmessage, rfl⟩ | ⟨hd, -⟩ | ⟨b, hb, rfl⟩
        · exact absurd ⟨hc.symm, message, hmessage, hm⟩ hfirst
        · exact hd
        · exact absurd ⟨b, hb, hc, hm⟩ hretry
      · intro hd
        exact Or.inr (Or.inl ⟨hd, fun hpicked => hretry ⟨d, hpicked, hc, hm⟩⟩)

/-- A deletion by receipts that do not name a copy leaves its deliveries. -/
theorem mem_unnamed {receipts : List Receipt} {own : ℤ}
    (hex : ¬∃ d ∈ db.deliveries, d.consumerId = c ∧ d.messageId = m ∧
      pushReceiptPredicate own receipts d = true) {d : DeliveryRow} (hc : d.consumerId = c)
    (hm : d.messageId = m) :
    d ∈ db.deliveries.deleteWhere (pushReceiptPredicate own receipts) ↔ d ∈ db.deliveries := by
  rw [Table.mem_deleteWhere]
  refine ⟨And.left, fun hd => ⟨hd, ?_⟩⟩
  by_contra hnamed
  exact hex ⟨d, hd, hc, hm, by simpa using hnamed⟩

/-- An acknowledgement removes the named copies and leaves the others. -/
theorem copy_acked (hinv : Inv db) (receipts : List Receipt) (own c m : ℤ) :
    (own = c ∧ (∃ d ∈ db.deliveries, d.consumerId = c ∧ d.messageId = m ∧ receiptOf d ∈ receipts) ∧
      Copy.Step .ack (copyOf db c m)
        (copyOf (deleteDeliveries db (pushReceiptPredicate own receipts)) c m)) ∨
      copyOf (deleteDeliveries db (pushReceiptPredicate own receipts)) c m = copyOf db c m := by
  have hinv' := inv_acked hinv (pushReceiptPredicate own receipts)
  by_cases hex : ∃ d ∈ db.deliveries, d.consumerId = c ∧ d.messageId = m ∧
      pushReceiptPredicate own receipts d = true
  · obtain ⟨d, hd, rfl, rfl, hnamed⟩ := hex
    obtain ⟨hown, hlisted⟩ := pushReceiptPredicate_iff.mp hnamed
    have hafter : copyOf (deleteDeliveries db (pushReceiptPredicate own receipts)) d.consumerId
        d.messageId = .absent := by
      refine copyOf_absent.mpr ⟨fun b hb hc hm => ?_, fun a ha hc => hinv.disjoint a ha d hd hc⟩
      obtain ⟨hstored, hkept⟩ := Table.mem_deleteWhere.mp hb
      have hsame : b = d := Table.eq_of_key hstored hd (key_eq_iff.mpr ⟨hc, hm⟩)
      rw [hsame, hnamed] at hkept
      cases hkept
    refine Or.inl ⟨hown.symm, ⟨d, hd, rfl, rfl, hlisted⟩, ?_⟩
    rw [hafter, copyOf_delivery hd]
    exact .ack _ _ _
  · right
    exact copyOf_congr hinv hinv' (fun d hc hm => mem_unnamed hex hc hm) fun _ _ _ => Iff.rfl

/-- An update rewrites the named copies and leaves the others. -/
theorem copy_touched (hinv : Inv db) {f : DeliveryRow → DeliveryRow} (hf : ∀ d, (f d).key = d.key)
    (receipts : List Receipt) (own c m : ℤ)
    (hinv' : Inv (touched db own f hf (chunks receiptsPerChunk receipts))) :
    (own = c ∧ ∃ d ∈ db.deliveries, d.consumerId = c ∧ d.messageId = m ∧ receiptOf d ∈ receipts ∧
      touch own f (chunks receiptsPerChunk receipts) d ∈
        (touched db own f hf (chunks receiptsPerChunk receipts)).deliveries) ∨
      copyOf (touched db own f hf (chunks receiptsPerChunk receipts)) c m = copyOf db c m := by
  have hflat := flatten_chunks receiptsPerChunk_pos receipts
  by_cases hex : ∃ d ∈ db.deliveries, d.consumerId = c ∧ d.messageId = m ∧
      pushReceiptPredicate own receipts d = true
  · obtain ⟨d, hd, rfl, rfl, hnamed⟩ := hex
    obtain ⟨hown, hlisted⟩ := pushReceiptPredicate_iff.mp hnamed
    exact Or.inl ⟨hown.symm, d, hd, rfl, rfl, hlisted, mem_touched.mpr ⟨d, hd, rfl⟩⟩
  · right
    have huntouched : ∀ d ∈ db.deliveries, d.consumerId = c → d.messageId = m →
        touch own f (chunks receiptsPerChunk receipts) d = d := by
      intro d hd hc hm
      refine touch_of_not_named ?_
      rw [hflat]
      by_contra hnamed
      exact hex ⟨d, hd, hc, hm, by simpa using hnamed⟩
    refine copyOf_congr hinv hinv' (fun d hc hm => ?_) fun _ _ _ => Iff.rfl
    rw [mem_touched]
    constructor
    · intro h
      obtain ⟨b, hb, heq⟩ := h
      have hkey : b.key = d.key := by rw [← heq, touch_key hf]
      obtain ⟨hbc, hbm⟩ := key_eq_iff.mp hkey
      rw [huntouched b hb (hbc.trans hc) (hbm.trans hm)] at heq
      rw [← heq]
      exact hb
    · intro hd
      exact ⟨d, hd, huntouched d hd hc hm⟩

/-- An archive batch archives the named copies with their generation and leaves the others. -/
theorem copy_archived (hinv : Inv db) (receipts : List Receipt) (own archivedAt : ℤ)
    (detail : Option String) (c m : ℤ) :
    (own = c ∧ (∃ d ∈ db.deliveries, d.consumerId = c ∧ d.messageId = m ∧ receiptOf d ∈ receipts) ∧
      Copy.Step .archive (copyOf db c m)
        (copyOf (archivedDb db own receipts archivedAt detail) c m)) ∨
      copyOf (archivedDb db own receipts archivedAt detail) c m = copyOf db c m := by
  have hinv' := inv_archived hinv own archivedAt receipts detail
  by_cases hex : ∃ d ∈ db.deliveries, d.consumerId = c ∧ d.messageId = m ∧
      pushReceiptPredicate own receipts d = true
  · obtain ⟨d, hd, rfl, rfl, hnamed⟩ := hex
    obtain ⟨hown, hlisted⟩ := pushReceiptPredicate_iff.mp hnamed
    have hlease := mem_archivedLeases.mpr ⟨d, hd, hnamed, rfl⟩
    obtain ⟨i, hi⟩ := List.mem_iff_getElem?.mp hlease
    have harchive : archiveRow archivedAt detail (ArchivedLease.fromRow d)
        (db.archives.seq + 1 + i) ∈
        (archivedDb db own receipts archivedAt detail).archives :=
      mem_archivedDb.mpr (Or.inr ⟨i, _, hi, rfl⟩)
    have hafter : copyOf (archivedDb db own receipts archivedAt detail) d.consumerId d.messageId =
        .archived d.generation := (copyOf_archived hinv').mpr ⟨_, harchive, rfl, rfl, rfl⟩
    refine Or.inl ⟨hown.symm, ⟨d, hd, rfl, rfl, hlisted⟩, ?_⟩
    rw [hafter, copyOf_delivery hd]
    exact .archive _ _ _
  · right
    refine copyOf_congr hinv hinv' (fun d hc hm => mem_unnamed hex hc hm) fun a hc hm => ?_
    rw [mem_archivedDb]
    refine ⟨fun h => ?_, Or.inl⟩
    rcases h with ha | ⟨i, lease, hlease, rfl⟩
    · exact ha
    · obtain ⟨d, hd, hnamed, rfl⟩ := mem_archivedLeases.mp (List.mem_of_getElem? hlease)
      exact absurd ⟨d, hd, hc, hm, hnamed⟩ hex

/-- A redrive restores the named copies and leaves the others. -/
theorem copy_redriven (hinv : Inv db) (archiveIds : List ℤ) (own visibleAt c m : ℤ) :
    (own = c ∧ (∃ a ∈ db.archives, a.consumerId = c ∧ a.messageId = m ∧ a.id ∈ archiveIds) ∧
      Copy.Step (.redrive visibleAt) (copyOf db c m)
        (copyOf (redrivenDb db own archiveIds visibleAt) c m)) ∨
      copyOf (redrivenDb db own archiveIds visibleAt) c m = copyOf db c m := by
  have hinv' := inv_redriven hinv own visibleAt archiveIds
  by_cases hex : ∃ a ∈ db.archives, a.consumerId = c ∧ a.messageId = m ∧
      archiveNamed own archiveIds a = true
  · obtain ⟨a, ha, rfl, rfl, hnamed⟩ := hex
    obtain ⟨hown, hlisted⟩ := archiveNamed_iff.mp hnamed
    have hrestored : redrivenRow own visibleAt a.messageId ∈
        (redrivenDb db own archiveIds visibleAt).deliveries :=
      (mem_redrivenDb hinv).mpr (Or.inl (mem_redrivenRows.mpr ⟨a, ha, hnamed, rfl⟩))
    have hbefore := (copyOf_archived hinv).mpr ⟨a, ha, rfl, rfl, rfl⟩
    have hafter : copyOf (redrivenDb db own archiveIds visibleAt) a.consumerId a.messageId =
        .leased visibleAt 0 0 := by
      rw [hown]
      exact copyOf_leased.mpr hrestored
    refine Or.inl ⟨hown.symm, ⟨a, ha, rfl, rfl, hlisted⟩, ?_⟩
    rw [hafter, hbefore]
    exact .redrive _ _
  · right
    refine copyOf_congr hinv hinv' (fun d hc hm => ?_) fun a hc hm => ?_
    · rw [mem_redrivenDb hinv]
      refine ⟨fun h => ?_, Or.inr⟩
      rcases h with hd | hd
      · obtain ⟨a, ha, hnamed, rfl⟩ := mem_redrivenRows.mp hd
        have hac : a.consumerId = c := (archiveNamed_iff.mp hnamed).1.trans hc
        exact absurd ⟨a, ha, hac, hm, hnamed⟩ hex
      · exact hd
    · have hmem : a ∈ (redrivenDb db own archiveIds visibleAt).archives ↔
          a ∈ db.archives ∧ archiveNamed own archiveIds a = false := AutoTable.mem_deleteWhere
      rw [hmem]
      refine ⟨And.left, fun ha => ⟨ha, ?_⟩⟩
      by_contra hnamed
      exact hex ⟨a, ha, hc, hm, by simpa using hnamed⟩

/-- A purge removes the archived copies it picks and leaves the others. -/
theorem copy_purged (hinv : Inv db) (own : ℤ) (purge : PurgeArchives) (c m : ℤ) :
    (own = c ∧ (∃ a ∈ db.archives, a.consumerId = c ∧ a.messageId = m ∧
        a ∉ (deleteArchives db (purgedNamed db own purge)).archives) ∧
      Copy.Step .purge (copyOf db c m)
        (copyOf (deleteArchives db (purgedNamed db own purge)) c m)) ∨
      copyOf (deleteArchives db (purgedNamed db own purge)) c m = copyOf db c m := by
  have hinv' := inv_purged hinv (purgedNamed db own purge)
  have hmem : ∀ a, a ∈ (deleteArchives db (purgedNamed db own purge)).archives ↔
      a ∈ db.archives ∧ purgedNamed db own purge a = false := fun a => AutoTable.mem_deleteWhere
  by_cases hex : ∃ a ∈ db.archives, a.consumerId = c ∧ a.messageId = m ∧
      purgedNamed db own purge a = true
  · obtain ⟨a, ha, rfl, rfl, hnamed⟩ := hex
    have hown := (purgedNamed_own ha hnamed).1
    have hgone : a ∉ (deleteArchives db (purgedNamed db own purge)).archives := by
      intro hstill
      have hkept := ((hmem a).mp hstill).2
      rw [hnamed] at hkept
      cases hkept
    have hafter : copyOf (deleteArchives db (purgedNamed db own purge)) a.consumerId a.messageId =
        .absent := by
      refine copyOf_absent.mpr ⟨fun d hd hc hm => hinv.disjoint a ha d hd hc.symm hm.symm, ?_⟩
      intro b hb hc hm
      have hsame : b = a := hinv.archive_pair b ((hmem b).mp hb).1 a ha hc hm
      exact hgone (hsame ▸ hb)
    refine Or.inl ⟨hown.symm, ⟨a, ha, rfl, rfl, hgone⟩, ?_⟩
    rw [hafter, (copyOf_archived hinv).mpr ⟨a, ha, rfl, rfl, rfl⟩]
    exact .purge _
  · right
    refine copyOf_congr hinv hinv' (fun _ _ _ => Iff.rfl) fun a hc hm => ?_
    rw [hmem]
    refine ⟨And.left, fun ha => ⟨ha, ?_⟩⟩
    by_contra hnamed
    exact hex ⟨a, ha, hc, hm, by simpa using hnamed⟩

/-- A deletion discards the identity's copies and leaves the others. -/
theorem copy_deleted (hinv : Inv db) (row : ConsumerRow) (c m : ℤ) :
    (c = row.id ∧ copyOf (deletedDb db row) c m = .absent) ∨
      copyOf (deletedDb db row) c m = copyOf db c m := by
  have hdeliveries : ∀ d, d ∈ (deletedDb db row).deliveries ↔ d ∈ db.deliveries ∧
      d.consumerId ≠ row.id := by
    intro d
    have hmem : d ∈ (deletedDb db row).deliveries ↔
        d ∈ db.deliveries ∧ (d.consumerId == row.id) = false := Table.mem_deleteWhere
    rw [hmem, beq_eq_false_iff_ne]
  have harchives : ∀ a, a ∈ (deletedDb db row).archives ↔ a ∈ db.archives ∧
      a.consumerId ≠ row.id := by
    intro a
    have hmem : a ∈ (deletedDb db row).archives ↔
        a ∈ db.archives ∧ (a.consumerId == row.id) = false := AutoTable.mem_deleteWhere
    rw [hmem, beq_eq_false_iff_ne]
  by_cases hc : c = row.id
  · refine Or.inl ⟨hc, copyOf_absent.mpr ⟨fun d hd hdc _ => ?_, fun a ha hac _ => ?_⟩⟩
    · exact ((hdeliveries d).mp hd).2 (hdc.trans hc)
    · exact ((harchives a).mp ha).2 (hac.trans hc)
  · right
    refine copyOf_congr hinv (inv_deleted hinv row) (fun d hdc _ => ?_) fun a hac _ => ?_
    · rw [hdeliveries]
      exact ⟨And.left, fun hd => ⟨hd, fun hid => hc (hdc.symm.trans hid)⟩⟩
    · rw [harchives]
      exact ⟨And.left, fun ha => ⟨ha, fun hid => hc (hac.symm.trans hid)⟩⟩

end Moves

section Steps

variable {event : Event} {c m : ℤ}

/-- The reading and the deadline of a claim. -/
theorem deadline_of_lease {fan : Inner} {poll : Poll} {now leaseMs deadline : ℤ}
    (hlease : pollLease fan poll = .ok (some leaseMs))
    (hdeadline : checkedAdd now leaseMs = .ok deadline) :
    now < deadline ∧ deadline - now = leaseMs := by
  have hpos := (pollLease_some hlease).2.2.1
  have hsum := checkedAdd_ok hdeadline
  omega

/-- Every event moves every copy by one transition of the machine. -/
theorem copy_step (hv : system.valid event) (hinv : Inv event.before) (c m : ℤ) :
    ∃ act, Happens event c m act ∧
      Copy.Step act (copyOf event.before c m) (copyOf event.after c m) := by
  have heffect := effect_of_valid hv hinv
  have hstay : copyOf event.after c m = copyOf event.before c m →
      ∃ act, Happens event c m act ∧
        Copy.Step act (copyOf event.before c m) (copyOf event.after c m) := by
    intro hsame
    rw [hsame]
    exact ⟨.stay, trivial, .stay _⟩
  obtain ⟨fan, op, before, after, reply⟩ := event
  dsimp only at heffect hinv
  cases heffect with
  | rejected _ => exact hstay rfl
  | idle _ => exact hstay rfl
  | created hname hfree => exact hstay (copyOf_same rfl rfl)
  | reopened hname hrow hfilter => exact hstay (copyOf_same rfl rfl)
  | @published messages now hle =>
    obtain ⟨-, -, hdeliveries, harchives, -⟩ := ledgerAt_parts now before messages
    exact hstay (copyOf_same hdeliveries harchives)
  | @granted self poll now leaseMs deadline row hlease hid hrow hdeadline =>
    obtain ⟨hlt, hspan⟩ := deadline_of_lease hlease hdeadline
    rcases copy_granted hinv hrow poll.maxMessages hlt c m
      with ⟨hc, ⟨hwaiting, hstep⟩ | hstep⟩ | hsame
    · exact ⟨.first now deadline, ⟨⟨self, poll, rfl, hid.trans hc.symm, hspan ▸ hlease⟩, hwaiting⟩,
        hstep⟩
    · exact ⟨.retry now deadline, ⟨self, poll, rfl, hid.trans hc.symm, hspan ▸ hlease⟩, hstep⟩
    · exact hstay hsame
  | @acked self receipts hpos hle =>
    rcases copy_acked hinv receipts self.id c m with ⟨hc, hnamed, hstep⟩ | hsame
    · exact ⟨.ack, ⟨self, receipts, rfl, hc, ⟨_, rfl⟩, hnamed⟩, hstep⟩
    · exact hstay hsame
  | @nacked self receipts retry now visibleAt hpos hle hvisible =>
    have hinv' := inv_touched hinv (nackRow_key visibleAt)
      (nackRow_grows self.id visibleAt (chunks receiptsPerChunk receipts))
    rcases copy_touched hinv (nackRow_key visibleAt) receipts self.id c m hinv' with
      ⟨hc, d, hd, rfl, rfl, hlisted, hafter⟩ | hsame
    · refine ⟨.nack visibleAt, ⟨self, receipts, retry, now, rfl, hc, ⟨_, rfl⟩, d, hd, rfl, rfl,
        hlisted⟩, ?_⟩
      have hnamed := named_chunks hc.symm hlisted
      rcases touch_nackRow self.id visibleAt (chunks receiptsPerChunk receipts) d with
        ⟨-, hnot⟩ | ⟨-, generation, hlt, heq⟩
      · rw [hnamed] at hnot
        cases hnot
      · rw [heq] at hafter
        have hcopy := copyOf_leased.mpr hafter
        rw [copyOf_delivery hd]
        exact hcopy ▸ .nack hlt
    · exact hstay hsame
  | @extended self receipts timeout now ms visibleAt hpos hle hms hne hvisible =>
    have hinv' := inv_touched hinv (extendRow_key visibleAt)
      (extendRow_grows self.id visibleAt (chunks receiptsPerChunk receipts))
    rcases copy_touched hinv (extendRow_key visibleAt) receipts self.id c m hinv' with
      ⟨hc, d, hd, rfl, rfl, hlisted, hafter⟩ | hsame
    · refine ⟨.extend visibleAt, ⟨self, receipts, timeout, now, rfl,
        ⟨hc, ⟨_, rfl⟩, d, hd, rfl, rfl, hlisted⟩,
        addDuration_ok hvisible⟩, ?_⟩
      have hnamed := named_chunks hc.symm hlisted
      rw [touch_extendRow, Table.rowUpdate, if_pos hnamed] at hafter
      have hcopy := copyOf_leased.mpr hafter
      rw [copyOf_delivery hd]
      exact hcopy ▸ .extend visibleAt d.visibleAt d.generation d.deliveryCount
    · exact hstay hsame
  | @archived self receipts detail now hpos hle =>
    rcases copy_archived hinv receipts self.id now detail c m with ⟨hc, hnamed, hstep⟩ | hsame
    · exact ⟨.archive, ⟨self, receipts, detail, now, rfl, hc, ⟨_, rfl⟩, hnamed⟩, hstep⟩
    · exact hstay hsame
  | @redriven self archiveIds retry now visibleAt hpos hle hvisible =>
    rcases copy_redriven hinv archiveIds self.id visibleAt c m with ⟨hc, hnamed, hstep⟩ | hsame
    · exact ⟨.redrive visibleAt, ⟨self, archiveIds, retry, now, rfl, hc, ⟨_, rfl⟩, hnamed⟩, hstep⟩
    · exact hstay hsame
  | @purged self purge =>
    rcases copy_purged hinv self.id purge c m with ⟨hc, hnamed, hstep⟩ | hsame
    · exact ⟨.purge, ⟨self, purge, rfl, hc, hnamed⟩, hstep⟩
    · exact hstay hsame
  | drained => exact hstay (copyOf_same rfl rfl)
  | @deleted name mode row hrow haccept =>
    rcases copy_deleted hinv row c m with ⟨hc, habsent⟩ | hsame
    · obtain ⟨hmem, hname⟩ := consumerNamed_some hrow
      refine ⟨.discard, ⟨name, mode, row, _, rfl, rfl, ?_, hname⟩, ?_⟩
      · rw [hc]
        exact AutoTable.lookup_key hmem
      · change Copy.Step _ _ (copyOf (deletedDb before row) c m)
        rw [habsent]
        exact .discard _
    · exact hstay hsame
  | pruned => exact hstay (copyOf_same rfl rfl)

/-- The machine as a transition system, whose events are its transitions. -/
def machine : Transition.System Copy (Copy × Copy) where
  before := Prod.fst
  after := Prod.snd
  valid move := ∃ act, Copy.Step act move.1 move.2

/-- Runs of the store refine runs of the machine, for each consumer and message. -/
theorem copy_refines {events : List Event} {db : Db} (hrun : Run events db) (c m : ℤ) :
    Transition.Run machine .absent
      (events.map fun event => (copyOf event.before c m, copyOf event.after c m))
      (copyOf db c m) := by
  have hmoves : ∀ event, system.valid event → Inv event.before →
      machine.valid (copyOf event.before c m, copyOf event.after c m) := by
    intro event hv hinv
    obtain ⟨act, -, hstep⟩ := copy_step hv hinv c m
    exact ⟨act, hstep⟩
  exact hrun.refine (T := machine) (f := fun db => copyOf db c m)
    (g := fun event : Event => (copyOf event.before c m, copyOf event.after c m))
    inv_empty inv_event (fun _ => rfl) (fun _ => rfl) hmoves

/-- A named row rules out an empty receipt list. -/
theorem not_empty_of_mem {α : Type} {x : α} {xs : List α} (hx : x ∈ xs) : xs.length ≠ 0 := by
  intro hzero
  rw [List.length_eq_zero_iff.mp hzero] at hx
  exact absurd hx List.not_mem_nil

/-- An acknowledged copy was leased and is gone. -/
theorem acks_step (hv : system.valid event) (hinv : Inv event.before) (h : Acks event c m) :
    (∃ v g n, copyOf event.before c m = .leased v g n) ∧ copyOf event.after c m = .absent := by
  have heffect := effect_of_valid hv hinv
  obtain ⟨self, receipts, hop, hc, ⟨result, hreply⟩, d, hd, hdc, hdm, hlisted⟩ := h
  obtain ⟨fan, op, before, after, reply⟩ := event
  dsimp only at heffect hinv hop hreply hd
  subst hop hreply
  cases heffect with
  | idle hidle => exact absurd hidle.1 (not_empty_of_mem hlisted)
  | acked hpos hle =>
    have hnamed : pushReceiptPredicate self.id receipts d = true :=
      pushReceiptPredicate_iff.mpr ⟨hdc.trans hc.symm, hlisted⟩
    have hcopy := copyOf_delivery hd
    rw [hdc, hdm] at hcopy
    refine ⟨⟨_, _, _, hcopy⟩, copyOf_absent.mpr ⟨fun b hb hbc hbm => ?_, fun a ha hac ham => ?_⟩⟩
    · obtain ⟨hstored, hkept⟩ := Table.mem_deleteWhere.mp hb
      have hsame : b = d := Table.eq_of_key hstored hd
        (key_eq_iff.mpr ⟨hbc.trans hdc.symm, hbm.trans hdm.symm⟩)
      rw [hsame, hnamed] at hkept
      cases hkept
    · exact hinv.disjoint a ha d hd (hac.trans hdc.symm) (ham.trans hdm.symm)

/-- A purged copy was archived and is gone. -/
theorem purges_step (hv : system.valid event) (hinv : Inv event.before) (h : Purges event c m) :
    (∃ g, copyOf event.before c m = .archived g) ∧ copyOf event.after c m = .absent := by
  have heffect := effect_of_valid hv hinv
  obtain ⟨self, purge, hop, hself, a, ha, hac, ham, hgone⟩ := h
  obtain ⟨fan, op, before, after, reply⟩ := event
  dsimp only at heffect hinv hop ha hgone
  subst hop
  cases heffect with
  | rejected _ => exact absurd ha hgone
  | idle _ => exact absurd ha hgone
  | purged =>
    have hbefore := (copyOf_archived hinv).mpr ⟨a, ha, hac, ham, rfl⟩
    refine ⟨⟨_, hbefore⟩, copyOf_absent.mpr ⟨fun d hd hdc hdm => ?_, fun b hb hbc hbm => ?_⟩⟩
    · exact hinv.disjoint a ha d hd (hac.trans hdc.symm) (ham.trans hdm.symm)
    · have hstored := (AutoTable.mem_deleteWhere.mp hb).1
      have hsame : b = a := hinv.archive_pair b hstored a ha (hbc.trans hac.symm)
          (hbm.trans ham.symm)
      exact hgone (hsame ▸ hb)

/-- An extension keeps the generation and moves the deadline to the later one. -/
theorem extends_step (hv : system.valid event) (hinv : Inv event.before) {visibleAt : ℤ}
    (h : Extends event c m visibleAt) :
    ∃ v g n, copyOf event.before c m = .leased v g n ∧
      copyOf event.after c m = .leased (max v visibleAt) g n := by
  have heffect := effect_of_valid hv hinv
  obtain ⟨self, receipts, timeout, now, hop,
    ⟨hc, ⟨result, hreply⟩, d, hd, hdc, hdm, hlisted⟩, hsum⟩ := h
  obtain ⟨fan, op, before, after, reply⟩ := event
  dsimp only at heffect hinv hop hreply hd
  subst hop hreply
  cases heffect with
  | idle hidle => exact absurd hidle.1 (not_empty_of_mem hlisted)
  | @extended _ _ _ _ ms deadline hpos hle hms hne hvisible =>
    have hnamed := named_chunks (hdc.trans hc.symm) hlisted
    have hafter : touch self.id (extendRow deadline) (chunks receiptsPerChunk receipts) d ∈
        (touched before self.id (extendRow deadline) (extendRow_key deadline)
          (chunks receiptsPerChunk receipts)).deliveries := mem_touched.mpr ⟨d, hd, rfl⟩
    rw [touch_extendRow, Table.rowUpdate, if_pos hnamed] at hafter
    have hcopy := copyOf_delivery hafter
    have hc' : (extendRow deadline d).consumerId = c := hdc
    have hm' : (extendRow deadline d).messageId = m := hdm
    rw [hc', hm'] at hcopy
    have hbefore := copyOf_delivery hd
    rw [hdc, hdm] at hbefore
    have hdeadline : visibleAt = deadline := hsum.trans (addDuration_ok hvisible).symm
    rw [hdeadline]
    exact ⟨_, _, _, hbefore, hcopy⟩

/-- What a delivery with a receipt says about the claim that returned it. -/
structure Granted (event : Event) (r : Receipt) (row : ConsumerRow) (now leaseMs : ℤ) : Prop where
  claims : Claims event r.consumerId now leaseMs
  /-- A lease is at least a millisecond. -/
  lease_pos : 0 < leaseMs
  /-- The consumer was live. -/
  live : event.before.consumers.lookup r.consumerId = some row
  /-- The copy is leased until the reading plus the lease, at the receipt's generation. -/
  after : ∃ n, copyOf event.after r.consumerId r.messageId = .leased (now + leaseMs) r.generation n
  /-- The copy was taken from the log, or was visible. -/
  before : (r.generation = 1 ∧ copyOf event.before r.consumerId r.messageId = .absent ∧
      Waiting event.before r.consumerId r.messageId) ∨
    ∃ v g n, copyOf event.before r.consumerId r.messageId = .leased v g n ∧ r.generation = g + 1 ∧
      v ≤ now

/-- A claim that returns a receipt leased its copy. -/
theorem grants_step (hv : system.valid event) (hinv : Inv event.before) {r : Receipt}
    (h : Grants event r) : ∃ row now leaseMs, Granted event r row now leaseMs := by
  have heffect := effect_of_valid hv hinv
  obtain ⟨granted, hreply, delivery, hmem, rfl⟩ := h
  obtain ⟨fan, op, before, after, reply⟩ := event
  dsimp only at heffect hinv hreply
  subst hreply
  obtain ⟨self, poll, now, leaseMs, deadline, row, rfl, hlease, hdeadline, hid, hrow, rfl, rfl⟩ :=
    heffect.returning hmem
  obtain ⟨hlt, hspan⟩ := deadline_of_lease hlease hdeadline
  have hsum : now + leaseMs = deadline := by omega
  rcases mem_claimedDeliveries.mp hmem
    with ⟨d, hd, message, hmessage, rfl⟩ | ⟨message, hfresh, rfl⟩
  · obtain ⟨hstored, hc, hvisible⟩ := mem_selectVisible hd
    refine ⟨row, now, leaseMs, ⟨self, poll, rfl, hid, hlease⟩, by omega, hrow, ?_, Or.inr ?_⟩
    · have hafter : releaseUntil deadline d ∈
          (claimedDb before row now deadline poll.maxMessages).deliveries :=
        (mem_claimedDb hinv hrow).mpr (Or.inr (Or.inr ⟨d, hd, rfl⟩))
      have hcopy := copyOf_delivery hafter
      have hc' : (releaseUntil deadline d).consumerId = row.id := hc
      rw [hc'] at hcopy
      rw [hsum]
      exact ⟨_, hcopy⟩
    · have hcopy := copyOf_delivery hstored
      rw [hc] at hcopy
      exact ⟨_, _, _, hcopy, rfl, hvisible⟩
  · refine ⟨row, now, leaseMs, ⟨self, poll, rfl, hid, hlease⟩, by omega, hrow, ?_,
      Or.inl ⟨rfl, ?_, ?_⟩⟩
    · have hafter : firstLease row.id deadline message.id ∈
          (claimedDb before row now deadline poll.maxMessages).deliveries :=
        (mem_claimedDb hinv hrow).mpr (Or.inl ⟨message, hfresh, rfl⟩)
      rw [hsum]
      exact ⟨1, copyOf_leased.mpr hafter⟩
    · refine copyOf_absent.mpr ⟨fun d hd hc hm => ?_, fun a ha hc hm => ?_⟩
      · have hbehind := selectVisible_lt_fresh hinv hrow hd hc hfresh
        exact absurd hm hbehind.ne
      · have hrefers := hinv.archive_refers a ha
        rw [hc] at hrefers
        have hle := hrefers.le_cursor hrow
        have hbeyond := (mem_freshMessages hfresh).2.1
        have hm : a.messageId = message.id := hm
        omega
    · exact ⟨row, message, hrow, mem_unseen_of_fresh hfresh, rfl⟩

end Steps

section Consumers

variable {event : Event} {c : ℤ}

/-- What an event can do to one consumer row. -/
inductive RowStep (event : Event) (c : ℤ) (row : ConsumerRow) : ConsumerRow → Prop
  | same : RowStep event c row row
  /-- A claim moves the cursor. -/
  | claim {self : Consumer} {poll : Poll} {now deadline : ℤ} (hop : event.op = .claim self poll now)
      (hself : self.id = c) (hid : row.id = c)
      (hafter : event.after = claimedDb event.before row now deadline poll.maxMessages) :
      RowStep event c row (withCursor (cursorAfter event.before row now poll.maxMessages) row)
  /-- A drain call fixes the boundary, once. -/
  | drain {self : Consumer} {now : ℤ} (hop : event.op = .beginDraining self now)
    (hself : self.id = c)
      (hreply : event.reply = .ok (.drained true)) (hactive : row.drainingAt = none) :
      RowStep event c row (startDraining now (highWater event.before) row)

/-- The event creates the identity. -/
def Creates (event : Event) (c : ℤ) (row : ConsumerRow) : Prop :=
  ∃ name filter now, event.op = .openConsumer name filter now ∧
    event.reply = .ok (.opened ⟨c, name, filter⟩) ∧ event.before.consumers.lookup c = none ∧
    c = event.before.consumers.seq + 1 ∧ row = activeRow name filter now (highWater event.before) c

/-- A live row after an event was created by it, or was there before. -/
theorem row_step (hv : system.valid event) (hinv : Inv event.before) {row' : ConsumerRow}
    (h : event.after.consumers.lookup c = some row') :
    Creates event c row' ∨
      ∃ row, event.before.consumers.lookup c = some row ∧ RowStep event c row row' := by
  have heffect := effect_of_valid hv hinv
  obtain ⟨fan, op, before, after, reply⟩ := event
  dsimp only at heffect hinv h ⊢
  cases heffect with
  | rejected _ => exact Or.inr ⟨row', h, .same⟩
  | idle _ => exact Or.inr ⟨row', h, .same⟩
  | @created name filter now hname hfree =>
    rw [lookup_openedDb] at h
    by_cases hc : c = before.consumers.seq + 1
    · rw [if_pos hc] at h
      cases h
      refine Or.inl ⟨name, filter, now, rfl, by rw [hc]; rfl, ?_, hc, rfl⟩
      refine AutoTable.lookup_eq_none.mpr fun row hrow hid => ?_
      have hle := before.consumers.key_le row hrow
      omega
    · rw [if_neg hc] at h
      exact Or.inr ⟨row', h, .same⟩
  | reopened hname hrow hfilter => exact Or.inr ⟨row', h, .same⟩
  | @published messages now hle =>
    obtain ⟨-, hconsumers, -⟩ := ledgerAt_parts now before messages
    have h : (ledgerAt now before messages).consumers.lookup c = some row' := h
    rw [hconsumers] at h
    exact Or.inr ⟨row', h, .same⟩
  | @granted self poll now leaseMs deadline row hlease hid hrow hdeadline =>
    by_cases hc : c = row.id
    · subst hc
      rw [lookup_claimedDb_self hrow] at h
      cases h
      exact Or.inr ⟨row, hrow, .claim rfl hid rfl rfl⟩
    · rw [lookup_claimedDb_other hc] at h
      exact Or.inr ⟨row', h, .same⟩
  | acked hpos hle => exact Or.inr ⟨row', h, .same⟩
  | nacked hpos hle hvisible => exact Or.inr ⟨row', h, .same⟩
  | extended hpos hle hms hne hvisible => exact Or.inr ⟨row', h, .same⟩
  | archived hpos hle => exact Or.inr ⟨row', h, .same⟩
  | redriven hpos hle hvisible => exact Or.inr ⟨row', h, .same⟩
  | purged => exact Or.inr ⟨row', h, .same⟩
  | @drained self now =>
    have hlookup : (drainedDb before self.id now).consumers.lookup c =
        (before.consumers.lookup c).map
        (Table.rowUpdate (drainGuard self.id) (startDraining now (highWater before))) :=
      AutoTable.lookup_updateWhere _ _
    rw [hlookup] at h
    obtain ⟨row, hrow, hupdate⟩ := Option.map_eq_some_iff.mp h
    refine Or.inr ⟨row, hrow, ?_⟩
    rw [← hupdate, Table.rowUpdate]
    by_cases hguard : drainGuard self.id row = true
    · have hparts : row.id = self.id ∧ row.drainingAt = none := by simpa [drainGuard] using hguard
      have hid := (AutoTable.lookup_eq_some.mp hrow).2
      have hself : self.id = c := hparts.1.symm.trans hid
      rw [if_pos hguard]
      refine .drain rfl hself ?_ hparts.2
      have hchanges : drainChanges before self.id = true :=
        drainChanges_iff.mpr ⟨row, by rw [hself]; exact hrow, hparts.2⟩
      rw [hchanges]
    · rw [if_neg hguard]
      exact .same
  | @deleted name mode row hrow haccept =>
    have hlookup : (deletedDb before row).consumers.lookup c =
        (before.consumers.lookup c).filter fun other => !(other.id == row.id) :=
      AutoTable.lookup_deleteWhere _ _ _
    rw [hlookup] at h
    exact Or.inr ⟨row', (Option.filter_eq_some_iff.mp h).1, .same⟩
  | pruned => exact Or.inr ⟨row', h, .same⟩

/-- No event changes what a consumer is called, what it matches or when it was
created, and none moves its cursor back. -/
theorem RowStep.keeps {row row' : ConsumerRow} (h : RowStep event c row row') :
    row'.id = row.id ∧ row'.name = row.name ∧ row'.topicFilter = row.topicFilter ∧
      row.scanCursor ≤ row'.scanCursor := by
  cases h with
  | same => exact ⟨rfl, rfl, rfl, le_rfl⟩
  | claim _ _ _ _ => exact ⟨rfl, rfl, rfl, (cursorAfter_bounds _ _ _ _).1⟩
  | drain _ _ _ _ => exact ⟨rfl, rfl, rfl, le_rfl⟩

/-- The identity was handed out, and if it lives its cursor has passed the message. -/
def Passed (db : Db) (c m : ℤ) : Prop :=
  c ≤ db.consumers.seq ∧ ∀ row, db.consumers.lookup c = some row → m ≤ row.scanCursor

/-- What a cursor has passed does not wait any more. -/
theorem Passed.not_waiting {db : Db} {m : ℤ} (h : Passed db c m) : ¬Waiting db c m := by
  intro hwaiting
  obtain ⟨row, message, hrow, hunseen, rfl⟩ := hwaiting
  have hle := h.2 row hrow
  have hlt := (mem_unseen.mp hunseen).2.1
  omega

/-- A copy some row refers to has been passed. -/
theorem passed_of_refers {db : Db} {m : ℤ} (h : Refers db c m) : Passed db c m := by
  obtain ⟨row, message, hrow, hmessage, hle, htopic⟩ := h
  obtain ⟨hmem, hid⟩ := AutoTable.lookup_eq_some.mp hrow
  refine ⟨hid ▸ db.consumers.key_le row hmem, fun other hother => ?_⟩
  rw [hrow] at hother
  cases hother
  exact hle

/-- A copy outside the log has been passed. -/
theorem passed_of_leased {db : Db} (hinv : Inv db) {m v g n : ℤ}
    (h : copyOf db c m = .leased v g n) :
    Passed db c m := passed_of_refers (hinv.delivery_refers _ (copyOf_leased.mp h))

theorem passed_of_archived {db : Db} (hinv : Inv db) {m g : ℤ} (h : copyOf db c m = .archived g) :
    Passed db c m := by
  obtain ⟨a, ha, rfl, rfl, -⟩ := (copyOf_archived hinv).mp h
  exact passed_of_refers (hinv.archive_refers a ha)

/-- Consumer identifiers are handed out once. -/
theorem consumers_seq_mono (hv : system.valid event) (hinv : Inv event.before) :
    event.before.consumers.seq ≤ event.after.consumers.seq := by
  have heffect := effect_of_valid hv hinv
  obtain ⟨fan, op, before, after, reply⟩ := event
  dsimp only at heffect hinv ⊢
  cases heffect with
  | @created name filter now hname hfree =>
    have hseq : (openedDb before name filter now).consumers.seq = before.consumers.seq + 1 := rfl
    omega
  | @reopened name filter now row hname hrow hfilter =>
    have hseq : (reopenedDb before).consumers.seq = before.consumers.seq + 1 := rfl
    omega
  | @published messages now hle =>
    obtain ⟨-, hconsumers, -⟩ := ledgerAt_parts now before messages
    exact (congrArg AutoTable.seq hconsumers).ge
  | _ => exact le_rfl

/-- No event lets a cursor fall behind what it has passed. -/
theorem passed_step {m : ℤ} (hv : system.valid event) (hinv : Inv event.before)
    (h : Passed event.before c m) : Passed event.after c m := by
  refine ⟨h.1.trans (consumers_seq_mono hv hinv), fun row' hrow' => ?_⟩
  rcases row_step hv hinv hrow' with hcreates | ⟨row, hrow, hstep⟩
  · obtain ⟨-, -, -, -, -, -, hnew, -⟩ := hcreates
    have hle := h.1
    omega
  · exact (h.2 row hrow).trans hstep.keeps.2.2.2

end Consumers

section Log

variable {event : Event}

/-- The event publishes the message. -/
def Publishes (event : Event) (message : Message) : Prop :=
  ∃ messages now, event.op = .publishBatch messages now ∧ message ∈ event.after.messages ∧
    message ∉ event.before.messages

/-- A stored message was there before, or the event published it under a new identifier. -/
theorem log_step (hv : system.valid event) (hinv : Inv event.before) {message : Message}
    (h : message ∈ event.after.messages) :
    message ∈ event.before.messages ∨
      (Publishes event message ∧ event.before.messages.seq < message.id) := by
  have heffect := effect_of_valid hv hinv
  obtain ⟨fan, op, before, after, reply⟩ := event
  dsimp only at heffect hinv h ⊢
  cases heffect with
  | @published messages now hle =>
    have hmem := h
    rw [publishedDb_messages] at hmem
    rcases AutoTable.mem_appendAll.mp hmem with hold | ⟨i, published, hpublished, rfl⟩
    · exact Or.inl hold
    · right
      have hid : before.messages.seq <
          (messageRow now published (before.messages.seq + 1 + i)).id := by
        rw [messageRow_id]
        omega
      refine ⟨⟨messages, now, rfl, h, fun hold => ?_⟩, hid⟩
      have hle := before.messages.key_le _ hold
      omega
  | pruned => exact Or.inl (AutoTable.mem_deleteWhere.mp h).1
  | _ => exact Or.inl h

/-- A message leaves the log only by a prune that nothing is waiting for. -/
theorem log_keeps (hv : system.valid event) (hinv : Inv event.before) {message : Message}
    (h : message ∈ event.before.messages) :
    message ∈ event.after.messages ∨
      (event.after.consumers = event.before.consumers ∧
        (∀ c, copyOf event.before c message.id = .absent) ∧
        ∀ row ∈ event.before.consumers, awaits row message = false) := by
  have heffect := effect_of_valid hv hinv
  obtain ⟨fan, op, before, after, reply⟩ := event
  dsimp only at heffect hinv h ⊢
  cases heffect with
  | @published messages now hle =>
    rw [publishedDb_messages]
    exact Or.inl (AutoTable.mem_appendAll.mpr (Or.inl h))
  | @pruned prune =>
    by_cases hpruned : message.id ∈ prunedIds before prune
    · right
      obtain ⟨other, hother, hid, -, hdeliveries, harchives, hawaits⟩ := prunable_of_pruned hpruned
      have hsame : other = message := AutoTable.eq_of_key hother h hid
      refine ⟨rfl, fun c => copyOf_absent.mpr
        ⟨fun d hd _ => hdeliveries d hd, fun a ha _ => harchives a ha⟩, ?_⟩
      rw [← hsame]
      exact hawaits
    · exact Or.inl (AutoTable.mem_deleteWhere.mpr ⟨h, by simpa using hpruned⟩)
  | _ => exact Or.inl h

/-- Message identifiers only grow. -/
theorem messages_seq_mono (hv : system.valid event) (hinv : Inv event.before) :
    event.before.messages.seq ≤ event.after.messages.seq := by
  have heffect := effect_of_valid hv hinv
  obtain ⟨fan, op, before, after, reply⟩ := event
  dsimp only at heffect hinv ⊢
  cases heffect with
  | @published messages now hle =>
    rw [publishedDb_messages, AutoTable.appendAll_seq]
    omega
  | _ => exact le_rfl

end Log

end LiteFan.Lifecycle

import LiteFan.Lifecycle

/-!
# A receipt is good for one lease, until a redrive

A retry hands out the generation after the stored one and a release moves it on.
While generations only grow, no receipt comes twice and a superseded receipt
names nothing. An archive keeps the generation it ended at, but a redrive stores
generation zero, so the first lease after it hands out generation one again.
-/

namespace LiteFan.Capabilities

open LiteFan.Api LiteFan.Time LiteFan.Schema LiteFan.Storage LiteFan.Consumer LiteFan.System
open LiteFan.Invariant LiteFan.Effect LiteFan.Step LiteFan.Preservation LiteFan.Lifecycle Relational

/-- The receipts an event returned. -/
def returned (event : Event) : List Receipt :=
  match event.reply with
  | .ok (.granted granted) => granted.deliveries.map Delivery.receipt
  | _ => []

/-- The handle and the receipts an operation presents. -/
def presented : Op → Option (Consumer × List Receipt)
  | .ackBatch self receipts => some (self, receipts)
  | .nackBatch self receipts _ _ => some (self, receipts)
  | .extendVisibilityBatch self receipts _ _ => some (self, receipts)
  | .archiveBatch self receipts _ _ => some (self, receipts)
  | _ => none

/-- Some poll of some store returned the receipt; nothing else builds one. -/
def Issued (r : Receipt) : Prop :=
  ∃ event, system.valid event ∧ Reachable event.before ∧ Grants event r

/-- The receipt was returned, and its message was returned to its consumer again later. -/
def Superseded (past : List Event) (r : Receipt) : Prop :=
  ∃ pre a post, past = pre ++ a :: post ∧ Grants a r ∧
    ∃ b ∈ post, ∃ g, Grants b ⟨r.consumerId, r.messageId, g⟩

/-- Dead receipts are reported stale and change neither deliveries nor archives. -/
structure Inert (dead : Receipt → Prop) (event : Event) (receipts : List Receipt)
    (result : BatchResult) : Prop where
  /-- Every receipt is reported once. -/
  total : result.applied + result.stale = receipts.length
  /-- All dead receipts are among the stale ones. -/
  stale : ∀ gone : List Receipt, gone.Sublist receipts → (∀ r ∈ gone, dead r) →
    gone.length ≤ result.stale
  /-- A copy that only dead receipts name keeps its rows. -/
  copies : ∀ c m, (∀ r ∈ receipts, r.consumerId = c → r.messageId = m → dead r) →
    deliveryOf event.after c m = deliveryOf event.before c m ∧
      archivedPair event.after c m = archivedPair event.before c m
  /-- A batch of dead receipts changes nothing. -/
  whole : (∀ r ∈ receipts, dead r) → event.after = event.before

/-- No receipt is returned twice, and superseded receipts are inert. -/
structure OneLease (events : List Event) : Prop where
  unique : (events.flatMap returned).Nodup
  inert : ∀ past event future self receipts result, events = past ++ event :: future →
    presented event.op = some (self, receipts) → event.reply = .ok (.batch result) →
    Inert (Superseded past) event receipts result

/-- A claim within its limits leases again a delivery stored at generation zero,
as only a redrive stores it. -/
def LeasesRedriven (event : Event) : Prop :=
  ∃ self poll now leaseMs deadline, event.op = .claim self poll now ∧
    pollLease event.fan poll = .ok (some leaseMs) ∧ checkedAdd now leaseMs = .ok deadline ∧
    ∃ d ∈ selectVisible event.before self.id now poll.maxMessages, d.generation = 0

section Returned

variable {event : Event}

/-- An event grants what it returned. -/
theorem mem_returned {r : Receipt} : r ∈ returned event ↔ Grants event r := by
  unfold returned Grants
  cases hreply : event.reply with
  | error err => simp
  | ok reply =>
    cases reply with
    | granted granted => simp
    | _ => simp

/-- One claim returns different receipts. -/
theorem returned_nodup (hv : system.valid event) (hinv : Inv event.before) :
    (returned event).Nodup := by
  have heffect := effect_of_valid hv hinv
  unfold returned
  obtain ⟨fan, op, before, after, reply⟩ := event
  dsimp only at heffect hinv ⊢
  cases heffect with
  | @granted self poll now leaseMs deadline row hlease hid hrow hdeadline =>
    have hsorted := claimedLeases_sorted hinv hrow now deadline poll.maxMessages
    refine List.pairwise_map.mpr (List.pairwise_filterMap.mpr (hsorted.imp ?_))
    intro a b hlt x hx y hy hsame
    obtain ⟨ma, -, rfl⟩ := Option.map_eq_some_iff.mp hx
    obtain ⟨mb, -, rfl⟩ := Option.map_eq_some_iff.mp hy
    have hmessage := congrArg Receipt.messageId hsame
    exact absurd hmessage hlt.ne
  | @idle op reply hidle =>
    have hnone : ∀ granted, reply = .granted granted → granted.deliveries = [] := by
      intro granted hgranted
      subst hgranted
      unfold Idle at hidle
      cases op <;> simp at hidle
      rw [hidle.2]
    cases reply with
    | granted granted =>
      dsimp only
      rw [hnone granted rfl]
      exact List.nodup_nil
    | _ => exact List.nodup_nil
  | _ => exact List.nodup_nil

/-- A returned receipt has a positive generation. -/
theorem Issued.pos {r : Receipt} (h : Issued r) : 0 < r.generation := by
  obtain ⟨event, hv, hreach, hgrants⟩ := h
  have hinv := inv_reachable hreach
  obtain ⟨row, now, leaseMs, hgranted⟩ := grants_step hv hinv hgrants
  rcases hgranted.before with ⟨hone, -⟩ | ⟨v, g, n, hcopy, hnext, -⟩
  · omega
  · have hcount := (hinv.delivery_counts _ (copyOf_leased.mp hcopy)).1
    have hcount : 0 ≤ g := hcount
    omega

/-- A copy a claim changed into a lease was returned with its new generation. -/
theorem claim_grants (hv : system.valid event) (hinv : Inv event.before) {c m now leaseMs v g n : ℤ}
    (hclaims : Claims event c now leaseMs) (hafter : copyOf event.after c m = .leased v g n)
    (hbefore : copyOf event.before c m ≠ .leased v g n) : Grants event ⟨c, m, g⟩ := by
  have heffect := effect_of_valid hv hinv
  obtain ⟨self, poll, hop, hself, hlease⟩ := hclaims
  obtain ⟨fan, op, before, after, reply⟩ := event
  dsimp only at heffect hinv hop hafter hbefore
  subst hop
  cases heffect with
  | rejected _ => exact absurd hafter hbefore
  | idle _ => exact absurd hafter hbefore
  | @granted _ _ _ _ deadline row _ hid hrow hdeadline =>
    have hown : row.id = c := hid.symm.trans hself
    refine ⟨_, rfl, ?_⟩
    rcases (mem_claimedDb hinv hrow).mp (copyOf_leased.mp hafter) with
      ⟨message, hmessage, heq⟩ | ⟨hkept, -⟩ | ⟨b, hb, heq⟩
    · refine ⟨_, mem_claimedDeliveries.mpr (Or.inr ⟨message, hmessage, rfl⟩), ?_⟩
      simp only [firstLease, DeliveryRow.mk.injEq] at heq
      simp only [Receipt.mk.injEq]
      exact ⟨hown, heq.2.1, heq.2.2.2.1⟩
    · exact absurd (copyOf_leased.mpr hkept) hbefore
    · obtain ⟨hstored, hbc, -⟩ := mem_selectVisible hb
      obtain ⟨-, message, -, hmessage, -⟩ := hinv.delivery_refers b hstored
      refine ⟨_, mem_claimedDeliveries.mpr (Or.inl ⟨b, hb, message, hmessage, rfl⟩), ?_⟩
      simp only [releaseUntil, DeliveryRow.mk.injEq] at heq
      simp only [Receipt.mk.injEq]
      exact ⟨hown, heq.2.1, heq.2.2.2.1⟩

/-- A copy returned from generation zero was leased by such a claim. -/
theorem leasesRedriven_of_grants (hv : system.valid event) (hinv : Inv event.before) {r : Receipt}
    (hgrants : Grants event r) {v n : ℤ}
    (hcopy : copyOf event.before r.consumerId r.messageId = .leased v 0 n) :
    LeasesRedriven event := by
  obtain ⟨row, now, leaseMs, ⟨self, poll, hop, hself, hlease⟩, -, -, -, -⟩ :=
    grants_step hv hinv hgrants
  have heffect := effect_of_valid hv hinv
  obtain ⟨granted, hreply, delivery, hmem, rfl⟩ := hgrants
  obtain ⟨fan, op, before, after, reply⟩ := event
  dsimp only at heffect hinv hop hreply hcopy hlease
  subst hop hreply
  obtain ⟨_, _, _, leaseMs', deadline, row, hclaim, hlease', hdeadline, hid, hrow, rfl, rfl⟩ :=
    heffect.returning hmem
  cases hclaim
  refine ⟨self, poll, now, leaseMs', deadline, rfl, hlease', hdeadline, ?_⟩
  rw [hid]
  have hrow' := copyOf_leased.mp hcopy
  rcases mem_claimedDeliveries.mp hmem with ⟨d, hd, message, hmessage, rfl⟩ | ⟨message, hf, rfl⟩
  · obtain ⟨hstored, hc, -⟩ := mem_selectVisible hd
    have hsame := Table.eq_of_key hstored hrow' (key_eq_iff.mpr ⟨hc, rfl⟩)
    exact ⟨d, hd, congrArg DeliveryRow.generation hsame⟩
  · have hlt := selectVisible_lt_fresh hinv hrow hrow' rfl hf
    exact absurd hlt (lt_irrefl _)

/-- Such a claim returns generation one of a copy that has been delivered before. -/
theorem grants_of_leasesRedriven (hv : system.valid event) (hinv : Inv event.before)
    (h : LeasesRedriven event) :
    ∃ c m, Grants event ⟨c, m, 1⟩ ∧ copyOf event.before c m ≠ .absent := by
  have heffect := effect_of_valid hv hinv
  obtain ⟨self, poll, now, leaseMs, deadline, hop, hlease, hdeadline, d, hd, hzero⟩ := h
  obtain ⟨hstored, hc, -⟩ := mem_selectVisible hd
  obtain ⟨consumer, message, hconsumer, hmessage, -⟩ := hinv.delivery_refers d hstored
  have hpresent : copyOf event.before d.consumerId d.messageId ≠ .absent := by
    rw [copyOf_delivery hstored]
    exact Copy.noConfusion
  refine ⟨d.consumerId, d.messageId, ?_, hpresent⟩
  obtain ⟨e, hexec⟩ := hv
  obtain ⟨fan, op, before, after, reply⟩ := event
  dsimp only at heffect hinv hop hexec hlease hd hstored hconsumer hmessage
  subst hop
  have hid : self.id = consumer.id := hc.symm.trans (AutoTable.lookup_eq_some.mp hconsumer).2.symm
  have hconsumer' : before.consumers.lookup consumer.id = some consumer := by
    rw [← hid, ← hc]
    exact hconsumer
  have hcommit := claimCommit_eq e hinv hid hconsumer' hdeadline (pollLease_fits hlease)
  have hreply : reply = .ok (.granted
      ⟨claimedDeliveries before consumer now deadline poll.maxMessages,
      consumer.drainingAt.isSome⟩) := by
    have hsecond := congrArg Prod.snd hexec
    have hpoll : pollCommit e fan self poll now before =
        claimCommit e self poll.maxMessages leaseMs now before := by rw [pollCommit, hlease]
    simp only [exec, replying, hpoll, hcommit] at hsecond
    exact hsecond.symm
  rw [hid] at hd
  refine ⟨_, hreply, _, mem_claimedDeliveries.mpr (Or.inl ⟨d, hd, message, hmessage, rfl⟩), ?_⟩
  simp only [Receipt.mk.injEq]
  exact ⟨hid.symm.trans hc.symm, trivial, by omega⟩

end Returned

section Inert

variable {dead : Receipt → Prop} {receipts : List Receipt}

/-- Rows named by live receipts and dead receipts are counted apart. -/
theorem named_add_gone_le {rows : List DeliveryRow} {gone : List Receipt}
    (hsorted : rows.Pairwise fun a b => a.key < b.key) (hnamed : ∀ d ∈ rows, receiptOf d ∈ receipts)
    (hlive : ∀ d ∈ rows, receiptOf d ∉ gone) (hgone : gone.Sublist receipts) :
    rows.length + gone.length ≤ receipts.length := by
  have hnodup : (rows.map receiptOf).Nodup := by
    refine List.pairwise_map.mpr (hsorted.imp ?_)
    intro a b hlt hsame
    have hc : a.consumerId = b.consumerId := congrArg Receipt.consumerId hsame
    have hm : a.messageId = b.messageId := congrArg Receipt.messageId hsame
    have hkey : a.key = b.key := key_eq_iff.mpr ⟨hc, hm⟩
    exact hlt.ne hkey
  have hcount : ∀ r, (rows.map receiptOf ++ gone).count r ≤ receipts.count r := by
    intro r
    rw [List.count_append]
    by_cases hr : r ∈ rows.map receiptOf
    · obtain ⟨d, hd, rfl⟩ := List.mem_map.mp hr
      have hone : (rows.map receiptOf).count (receiptOf d) = 1 := List.count_eq_one_of_mem hnodup hr
      have hzero : gone.count (receiptOf d) = 0 := List.count_eq_zero_of_not_mem (hlive d hd)
      have hpos : 0 < receipts.count (receiptOf d) := List.count_pos_iff.mpr (hnamed d hd)
      omega
    · have hzero : (rows.map receiptOf).count r = 0 := List.count_eq_zero_of_not_mem hr
      have hle : gone.count r ≤ receipts.count r := hgone.count_le r
      omega
  have hlength := (List.subperm_ext_iff.mpr fun r _ => hcount r).length_le
  rw [List.length_append, List.length_map] at hlength
  exact hlength

/-- An update chunk by chunk counts rows named by live receipts only, when no
row it can meet is named by a dead one. -/
theorem touchedRows_add_gone_le {f : DeliveryRow → DeliveryRow}
    (hf : ∀ d, (f d).key = d.key) (c : ℤ)
    {live : DeliveryRow → Prop} {batches : List (List Receipt)} {gone : List Receipt}
    {t : Table DeliveryRow DeliveryRow.key} (hrows : ∀ d ∈ t, live d)
    (hstep : ∀ d, live d → receiptOf d ∈ batches.flatten → live (f d))
    (hlive : ∀ d, live d → receiptOf d ∉ gone) (hgone : gone.Sublist batches.flatten) :
    touchedRows c f hf t batches + gone.length ≤ batches.flatten.length := by
  induction batches generalizing t gone with
  | nil =>
    rw [List.sublist_nil.mp hgone]
    exact Nat.le_refl 0
  | cons batch batches ih =>
    rw [List.flatten_cons] at hgone hstep ⊢
    obtain ⟨first, rest, rfl, hfirst, hrest⟩ := List.sublist_append_iff.mp hgone
    have hhead : (t.select (pushReceiptPredicate c batch)).length + first.length ≤
        batch.length := by
      refine named_add_gone_le (t.select_sorted _) (fun d hd => ?_) (fun d hd => ?_) hfirst
      · exact (pushReceiptPredicate_iff.mp (Table.mem_select.mp hd).2).2
      · have hnot := hlive d (hrows d (Table.mem_select.mp hd).1)
        exact fun hmem => hnot (List.mem_append_left rest hmem)
    have hrows' : ∀ d ∈ t.updateWhere (pushReceiptPredicate c batch) f hf, live d := by
      intro d hd
      rcases Table.mem_updateWhere.mp hd with ⟨hd, -⟩ | ⟨b, hb, hnamed, rfl⟩
      · exact hrows d hd
      · have hlisted := (pushReceiptPredicate_iff.mp hnamed).2
        exact hstep b (hrows b hb) (List.mem_append_left _ hlisted)
    have htail := ih hrows' (fun d hd hmem => hstep d hd (List.mem_append_right _ hmem))
      (fun d hd hmem => hlive d hd (List.mem_append_right first hmem)) hrest
    rw [touchedRows, List.length_append, List.length_append]
    omega

/-- The archived copy of a pair is determined by its own rows. -/
theorem archivedPair_congr {db db' : Db} (hinv : Inv db) (hinv' : Inv db') {c m : ℤ}
    (h : ∀ a, a.consumerId = c → a.messageId = m → (a ∈ db'.archives ↔ a ∈ db.archives)) :
    archivedPair db' c m = archivedPair db c m := by
  have hfound : ∀ {db : Db}, Inv db → ∀ a, archivedPair db c m = some a ↔
      a ∈ db.archives ∧ a.consumerId = c ∧ a.messageId = m := by
    intro db hinv a
    refine ⟨archivedPair_some, fun hstored => ?_⟩
    obtain ⟨hmem, hc, hm⟩ := hstored
    rw [← hc, ← hm]
    exact archivedPair_of_mem hinv hmem
  ext a
  rw [hfound hinv' a, hfound hinv a]
  constructor
  · intro hstored
    exact ⟨(h a hstored.2.1 hstored.2.2).mp hstored.1, hstored.2⟩
  · intro hstored
    exact ⟨(h a hstored.2.1 hstored.2.2).mpr hstored.1, hstored.2⟩

/-- The deliveries a row-wise update leaves under one key. -/
theorem deliveryOf_touched {db : Db} {own c m : ℤ} {f : DeliveryRow → DeliveryRow}
    {hf : ∀ d, (f d).key = d.key} {batches : List (List Receipt)}
    (h : ∀ d ∈ db.deliveries, d.consumerId = c → d.messageId = m →
      pushReceiptPredicate own batches.flatten d = false) :
    deliveryOf (touched db own f hf batches) c m = deliveryOf db c m := by
  have hlookup : deliveryOf (touched db own f hf batches) c m =
      (deliveryOf db c m).map (touch own f batches) :=
    Table.lookup_mapRows _ _ (touch_key hf own batches) _
  rw [hlookup]
  cases hd : deliveryOf db c m with
  | none => rfl
  | some d =>
    obtain ⟨hmem, hc, hm⟩ := deliveryOf_some.mp hd
    rw [Option.map_some, touch_of_not_named (h d hmem hc hm)]

/-- A deletion that names no row under a key leaves it. -/
theorem deliveryOf_deleted {db : Db} {c m : ℤ} {p : DeliveryRow → Bool}
    (h : ∀ d ∈ db.deliveries, d.consumerId = c → d.messageId = m → p d = false) :
    deliveryOf (deleteDeliveries db p) c m = deliveryOf db c m := by
  have hlookup : deliveryOf (deleteDeliveries db p) c m = (deliveryOf db c m).filter
    fun d => !p d :=
    Table.lookup_deleteWhere _ _ _
  rw [hlookup]
  cases hd : deliveryOf db c m with
  | none => rfl
  | some d =>
    obtain ⟨hmem, hc, hm⟩ := deliveryOf_some.mp hd
    rw [Option.filter_some, h d hmem hc hm]
    rfl

/-- The row is past every dead receipt of its copy, or was redriven and not leased since. -/
def Clear (dead : Receipt → Prop) (d : DeliveryRow) : Prop :=
  ∀ r, dead r → r.consumerId = d.consumerId → r.messageId = d.messageId →
    d.generation = 0 ∨ r.generation < d.generation

/-- No dead receipt of positive generation names a clear row. -/
theorem Clear.not_named {d : DeliveryRow} (h : Clear dead d) (hpos : 0 < (receiptOf d).generation) :
    ¬dead (receiptOf d) := by
  intro hdead
  have hpos : 0 < d.generation := hpos
  rcases h _ hdead rfl rfl with hzero | hlt
  · omega
  · have hlt : d.generation < d.generation := hlt
    omega

/-- A rewrite that never lowers a positive generation keeps rows clear. -/
theorem Clear.grows {d d' : DeliveryRow} (h : Clear dead d) (hkey : d'.key = d.key)
    (hpos : 0 < d.generation) (hle : d.generation ≤ d'.generation) : Clear dead d' := by
  intro r hdead hc hm
  obtain ⟨hkc, hkm⟩ := key_eq_iff.mp hkey
  rcases h r hdead (hc.trans hkc) (hm.trans hkm) with hzero | hlt
  · omega
  · exact Or.inr (by omega)

/-- What is counted once, and named by live receipts only, makes the rest inert. -/
theorem Inert.of_counted {event : Event} {result : BatchResult} {applied : ℕ}
    (hresult : result = batchResult receipts.length applied)
    (hcount : ∀ gone : List Receipt, gone.Sublist receipts → (∀ r ∈ gone, dead r) →
      applied + gone.length ≤ receipts.length)
    (hcopies : ∀ c m, (∀ r ∈ receipts, r.consumerId = c → r.messageId = m → dead r) →
      deliveryOf event.after c m = deliveryOf event.before c m ∧
        archivedPair event.after c m = archivedPair event.before c m)
    (hwhole : (∀ r ∈ receipts, dead r) → event.after = event.before) :
    Inert dead event receipts result := by
  subst hresult
  have happlied := hcount [] (List.nil_sublist _) fun r hr => absurd hr List.not_mem_nil
  rw [List.length_nil] at happlied
  refine ⟨?_, fun gone hgone hdead => ?_, hcopies, hwhole⟩
  · change applied + (receipts.length - applied) = receipts.length
    omega
  · have hle := hcount gone hgone hdead
    change gone.length ≤ receipts.length - applied
    omega

end Inert

section Batch

variable {dead : Receipt → Prop} {receipts : List Receipt} {db : Db}

/-- A copy that only dead receipts name has no named row. -/
theorem not_named_of_clear (hpos : ∀ r ∈ receipts, 0 < r.generation)
    (hclear : ∀ d ∈ db.deliveries, Clear dead d) (own : ℤ) {c m : ℤ}
    (hdead : ∀ r ∈ receipts, r.consumerId = c → r.messageId = m → dead r) :
    ∀ d ∈ db.deliveries, d.consumerId = c → d.messageId = m →
      pushReceiptPredicate own receipts d = false := by
  intro d hd hc hm
  by_contra hnamed
  have hlisted := (pushReceiptPredicate_iff.mp (eq_true_of_ne_false hnamed)).2
  exact (hclear d hd).not_named (hpos _ hlisted) (hdead _ hlisted hc hm)

/-- Rows named at once are counted apart from the dead receipts. -/
theorem selected_add_gone_le (hpos : ∀ r ∈ receipts, 0 < r.generation)
    (hclear : ∀ d ∈ db.deliveries, Clear dead d) (own : ℤ) {gone : List Receipt}
    (hgone : gone.Sublist receipts) (hdead : ∀ r ∈ gone, dead r) :
    (db.deliveries.select (pushReceiptPredicate own receipts)).length + gone.length ≤
      receipts.length := by
  refine named_add_gone_le (db.deliveries.select_sorted _) (fun d hd => ?_)
    (fun d hd hmem => ?_) hgone
  · exact (pushReceiptPredicate_iff.mp (Table.mem_select.mp hd).2).2
  · have hd := hclear d (Table.mem_select.mp hd).1
    exact hd.not_named (hpos _ (hgone.subset hmem)) (hdead _ hmem)

/-- Rows named chunk by chunk are counted apart from the dead receipts. -/
theorem touched_add_gone_le (hpos : ∀ r ∈ receipts, 0 < r.generation)
    (hclear : ∀ d ∈ db.deliveries, Clear dead d) (own : ℤ) {f : DeliveryRow → DeliveryRow}
    (hf : ∀ d, (f d).key = d.key) (hgrows : ∀ d, d.generation ≤ (f d).generation)
    {gone : List Receipt} (hgone : gone.Sublist receipts) (hdead : ∀ r ∈ gone, dead r) :
    touchedRows own f hf db.deliveries (chunks receiptsPerChunk receipts) + gone.length ≤
      receipts.length := by
  have hflat := flatten_chunks receiptsPerChunk_pos receipts
  have hstep : ∀ d, Clear dead d → receiptOf d ∈ (chunks receiptsPerChunk receipts).flatten →
      Clear dead (f d) := by
    intro d hd hmem
    rw [hflat] at hmem
    exact hd.grows (hf d) (hpos _ hmem) (hgrows d)
  have hlive : ∀ d, Clear dead d → receiptOf d ∉ gone := by
    intro d hd hmem
    exact hd.not_named (hpos _ (hgone.subset hmem)) (hdead _ hmem)
  have hle := touchedRows_add_gone_le hf own hclear hstep hlive (hflat.symm ▸ hgone)
  rw [hflat] at hle
  exact hle

/-- An update that names no row changes nothing. -/
theorem touched_of_not_named {own : ℤ} {f : DeliveryRow → DeliveryRow} (hf : ∀ d, (f d).key = d.key)
    (h : ∀ d ∈ db.deliveries, pushReceiptPredicate own receipts d = false) :
    touched db own f hf (chunks receiptsPerChunk receipts) = db := by
  have hkeep : ∀ b ∈ db.deliveries, touch own f (chunks receiptsPerChunk receipts) b = b := by
    intro b hb
    refine touch_of_not_named ?_
    rw [flatten_chunks receiptsPerChunk_pos]
    exact h b hb
  have hrows : db.deliveries.mapRows (touch own f (chunks receiptsPerChunk receipts))
      (touch_key hf own _) = db.deliveries := by
    refine Table.ext_mem fun d => Table.mem_mapRows.trans
      ⟨fun hd => ?_, fun hd => ⟨d, hd, hkeep d hd⟩⟩
    obtain ⟨b, hb, rfl⟩ := hd
    rw [hkeep b hb]
    exact hb
  rw [touched, hrows]

/-- A deletion that names no row changes nothing. -/
theorem deleteDeliveries_of_not_named {p : DeliveryRow → Bool}
    (h : ∀ d ∈ db.deliveries, p d = false) :
    deleteDeliveries db p = db := by
  rw [deleteDeliveries, Table.deleteWhere_eq_self h]

/-- An archive batch that names no row changes nothing. -/
theorem archivedDb_of_not_named {own archivedAt : ℤ} {detail : Option String}
    (h : ∀ d ∈ db.deliveries, pushReceiptPredicate own receipts d = false) :
    archivedDb db own receipts archivedAt detail = db := by
  have hnone : archivedLeases db own receipts = [] := by
    rw [archivedLeases, List.map_eq_nil_iff]
    refine List.filter_eq_nil_iff.mpr fun d hd => ?_
    rw [h d hd]
    exact Bool.false_ne_true
  rw [archivedDb, hnone, deleteDeliveries_of_not_named h, AutoTable.appendAll_nil]

/-- An archive batch adds archives of the rows it names only. -/
theorem archives_of_not_named {own archivedAt c m : ℤ} {detail : Option String}
    (h : ∀ d ∈ db.deliveries, d.consumerId = c → d.messageId = m →
      pushReceiptPredicate own receipts d = false) (a : ArchiveRow) (hc : a.consumerId = c)
    (hm : a.messageId = m) :
    a ∈ (archivedDb db own receipts archivedAt detail).archives ↔ a ∈ db.archives := by
  rw [mem_archivedDb]
  refine ⟨fun hmem => ?_, Or.inl⟩
  rcases hmem with hold | ⟨i, lease, hlease, rfl⟩
  · exact hold
  · obtain ⟨d, hd, hnamed, rfl⟩ := mem_archivedLeases.mp (List.mem_of_getElem? hlease)
    rw [h d hd hc hm] at hnamed
    cases hnamed

/-- Over clear rows a successful receipt batch treats its dead receipts as inert. -/
theorem inert_of_clear {event : Event} {self : Consumer} {result : BatchResult}
    (hv : system.valid event) (hinv : Inv event.before)
    (hpresented : presented event.op = some (self, receipts))
    (hreply : event.reply = .ok (.batch result))
    (hpos : ∀ r ∈ receipts, 0 < r.generation)
    (hclear : ∀ d ∈ event.before.deliveries, Clear dead d) :
    Inert dead event receipts result := by
  have heffect := effect_of_valid hv hinv
  have hinv' := inv_event event hv hinv
  obtain ⟨fan, op, before, after, reply⟩ := event
  dsimp only at heffect hinv hinv' hpresented hreply hclear
  have hflat := flatten_chunks receiptsPerChunk_pos receipts
  have hcopy := fun c m => not_named_of_clear (c := c) (m := m) hpos hclear self.id
  have hwhole : (∀ r ∈ receipts, dead r) →
      ∀ d ∈ before.deliveries, pushReceiptPredicate self.id receipts d = false :=
    fun hdead d hd => hcopy _ _ (fun r hr _ _ => hdead r hr) d hd rfl rfl
  have htouched : ∀ (f : DeliveryRow → DeliveryRow) (hf : ∀ d, (f d).key = d.key) (c m : ℤ),
      (∀ r ∈ receipts, r.consumerId = c → r.messageId = m → dead r) →
      deliveryOf (touched before self.id f hf (chunks receiptsPerChunk receipts)) c m =
        deliveryOf before c m := by
    intro f hf c m hdead
    exact deliveryOf_touched (hflat.symm ▸ hcopy c m hdead)
  cases heffect with
  | rejected _ => cases hreply
  | @idle op reply hidle =>
    have hnone : receipts.length = 0 ∧ reply = .batch BatchResult.default := by
      unfold Idle at hidle
      cases op <;> cases hpresented <;> exact hidle
    obtain ⟨hzero, rfl⟩ := hnone
    cases hreply
    have hresult : BatchResult.default = batchResult receipts.length 0 := by
      rw [hzero]
      rfl
    refine Inert.of_counted hresult (fun gone hgone _ => ?_) (fun _ _ _ => ⟨rfl, rfl⟩) fun _ => rfl
    rw [Nat.zero_add]
    exact hgone.length_le
  | acked hpos' hle =>
    cases hpresented
    cases hreply
    refine Inert.of_counted rfl (fun gone => selected_add_gone_le hpos hclear self.id)
      (fun c m hdead => ⟨deliveryOf_deleted (hcopy c m hdead), rfl⟩) fun hdead => ?_
    exact deleteDeliveries_of_not_named (hwhole hdead)
  | @nacked _ _ _ _ visibleAt hpos' hle hvisible =>
    cases hpresented
    cases hreply
    have hgrows : ∀ d, d.generation ≤ (nackRow visibleAt d).generation :=
      fun d => Int.le_add_one le_rfl
    refine Inert.of_counted rfl
      (fun gone => touched_add_gone_le hpos hclear self.id (nackRow_key visibleAt) hgrows)
      (fun c m hdead => ⟨htouched _ (nackRow_key visibleAt) c m hdead, rfl⟩) fun hdead => ?_
    exact touched_of_not_named (nackRow_key visibleAt) (hwhole hdead)
  | @extended _ _ _ _ _ visibleAt hpos' hle hms hne hvisible =>
    cases hpresented
    cases hreply
    have hgrows : ∀ d, d.generation ≤ (extendRow visibleAt d).generation := fun d => le_rfl
    refine Inert.of_counted rfl
      (fun gone => touched_add_gone_le hpos hclear self.id (extendRow_key visibleAt) hgrows)
      (fun c m hdead => ⟨htouched _ (extendRow_key visibleAt) c m hdead, rfl⟩) fun hdead => ?_
    exact touched_of_not_named (extendRow_key visibleAt) (hwhole hdead)
  | archived hpos' hle =>
    cases hpresented
    cases hreply
    refine Inert.of_counted rfl (fun gone hgone hdead => ?_) (fun c m hdead => ⟨?_, ?_⟩)
      fun hdead => ?_
    · rw [archivedLeases, List.length_map]
      exact selected_add_gone_le hpos hclear self.id hgone hdead
    · exact deliveryOf_deleted (hcopy c m hdead)
    · exact archivedPair_congr hinv hinv' (archives_of_not_named (hcopy c m hdead))
    · exact archivedDb_of_not_named (hwhole hdead)
  | _ => cases hpresented

end Batch

section Generations

variable {event : Event} {past : List Event}

/-- The receipts of an event were issued. -/
def Presents (event : Event) : Prop :=
  ∀ self receipts, presented event.op = some (self, receipts) → ∀ r ∈ receipts, Issued r

/-- Every receipt returned so far is at or below the generation its copy is
leased at, or the copy was redriven and not leased since. -/
def Behind (past : List Event) (db : Db) : Prop :=
  ∀ e ∈ past, ∀ r, Grants e r → Passed db r.consumerId r.messageId ∧
    ∀ v g n, copyOf db r.consumerId r.messageId = .leased v g n → g = 0 ∨ r.generation ≤ g

/-- A release of a redriven copy would need a receipt of generation zero. -/
theorem nacks_pos (hpresents : Presents event) {c m v g n : ℤ} (h : Nacks event c m)
    (hcopy : copyOf event.before c m = .leased v g n) : 0 < g := by
  obtain ⟨self, receipts, retry, now, hop, -, -, d, hd, hdc, hdm, hlisted⟩ := h
  have hissued := hpresents self receipts (by rw [hop]; rfl) _ hlisted
  have hpos : 0 < d.generation := hissued.pos
  have hstored := copyOf_delivery hd
  rw [hdc, hdm, hcopy] at hstored
  cases hstored
  exact hpos

/-- Unless a redriven copy is leased, what was returned stays behind its copy. -/
theorem behind_step (hv : system.valid event) (hinv : Inv event.before) (hpresents : Presents event)
    (hno : ¬LeasesRedriven event) (h : Behind past event.before) :
    Behind (past ++ [event]) event.after := by
  intro e he r hgrants
  rcases List.mem_append.mp he with hpast | hlast
  · obtain ⟨hpassed, hbehind⟩ := h e hpast r hgrants
    refine ⟨passed_step hv hinv hpassed, fun v' g' n' hafter => ?_⟩
    obtain ⟨act, hhappens, hstep⟩ := copy_step hv hinv r.consumerId r.messageId
    have hafter' := hafter
    rw [hafter] at hstep
    generalize hbefore : copyOf event.before r.consumerId r.messageId = before at hstep
    cases hstep with
    | stay => exact hbehind v' g' n' hbefore
    | first _ => exact absurd hhappens.2 hpassed.not_waiting
    | @retry now _ v g n hlease hvisible =>
      have hmoved : copyOf event.before r.consumerId r.messageId ≠ .leased v' (g + 1) (n + 1) := by
        rw [hbefore]
        intro hsame
        simp only [Copy.leased.injEq] at hsame
        omega
      have hagain := claim_grants hv hinv hhappens hafter' hmoved
      rcases hbehind v g n hbefore with hzero | hle
      · subst hzero
        exact absurd (leasesRedriven_of_grants hv hinv hagain hbefore) hno
      · exact Or.inr (by omega)
    | @nack _ v g g' n hlt =>
      have hpos := nacks_pos hpresents hhappens hbefore
      rcases hbehind v g n' hbefore with hzero | hle
      · omega
      · exact Or.inr (by omega)
    | extend _ v g n => exact hbehind v g' n' hbefore
    | redrive _ g => exact Or.inl rfl
  · rw [List.mem_singleton.mp hlast] at hgrants
    obtain ⟨row, now, leaseMs, hgranted⟩ := grants_step hv hinv hgrants
    obtain ⟨n, hafter⟩ := hgranted.after
    refine ⟨passed_of_leased (inv_event event hv hinv) hafter, fun v' g' n' hcopy => ?_⟩
    rw [hafter] at hcopy
    cases hcopy
    exact Or.inr le_rfl

/-- Unless a redriven copy is leased, a claim returns a later generation than every earlier one. -/
theorem behind_grants (hv : system.valid event) (hinv : Inv event.before)
    (hno : ¬LeasesRedriven event) (h : Behind past event.before) {e : Event} (he : e ∈ past)
    {c m g g' : ℤ} (hold : Grants e ⟨c, m, g⟩) (hnew : Grants event ⟨c, m, g'⟩) : g < g' := by
  obtain ⟨hpassed, hbehind⟩ := h e he _ hold
  obtain ⟨row, now, leaseMs, hgranted⟩ := grants_step hv hinv hnew
  rcases hgranted.before with ⟨-, -, hwaiting⟩ | ⟨v, g₀, n, hcopy, hnext, -⟩
  · exact absurd hwaiting hpassed.not_waiting
  · rcases hbehind v g₀ n hcopy with hzero | hle
    · subst hzero
      exact absurd (leasesRedriven_of_grants hv hinv hnew hcopy) hno
    · have hle : g ≤ g₀ := hle
      have hnext : g' = g₀ + 1 := hnext
      omega

end Generations

section Runs

variable {events : List Event} {db : Db}

/-- A run that leases no redriven copy keeps every returned receipt behind its copy. -/
theorem behind_run (hrun : Run events db) (hpresents : ∀ e ∈ events, Presents e)
    (hno : ∀ e ∈ events, ¬LeasesRedriven e) : Behind events db := by
  induction hrun with
  | nil =>
    intro e he
    exact absurd he List.not_mem_nil
  | @snoc past e hrun hv ih =>
    have hlast : e ∈ past ++ [e] := List.mem_append_right _ (List.mem_singleton.mpr rfl)
    have hbehind := ih (fun f hf => hpresents f (List.mem_append_left _ hf))
      fun f hf => hno f (List.mem_append_left _ hf)
    exact behind_step hv (inv_run hrun) (hpresents e hlast) (hno e hlast) hbehind

/-- A run that leases no redriven copy returns every receipt once. -/
theorem returned_unique (hrun : Run events db) (hpresents : ∀ e ∈ events, Presents e)
    (hno : ∀ e ∈ events, ¬LeasesRedriven e) : (events.flatMap returned).Nodup := by
  induction hrun with
  | nil => exact List.nodup_nil
  | @snoc past e hrun hv ih =>
    have hlast : e ∈ past ++ [e] := List.mem_append_right _ (List.mem_singleton.mpr rfl)
    have hpresents' := fun f hf => hpresents f (List.mem_append_left _ hf)
    have hno' := fun f hf => hno f (List.mem_append_left _ hf)
    have hbehind := behind_run hrun hpresents' hno'
    rw [List.flatMap_append, List.flatMap_singleton]
    refine List.nodup_append.mpr ⟨ih hpresents' hno', returned_nodup hv (inv_run hrun), ?_⟩
    intro r hr r' hr' hsame
    subst hsame
    obtain ⟨f, hf, hmem⟩ := List.mem_flatMap.mp hr
    have hlt := behind_grants hv (inv_run hrun) (hno e hlast) hbehind hf (mem_returned.mp hmem)
      (mem_returned.mp hr')
    exact absurd hlt (lt_irrefl _)

/-- In such a run every stored delivery is past the receipts a later poll superseded. -/
theorem clear_of_superseded (hrun : Run events db) (hpresents : ∀ e ∈ events, Presents e)
    (hno : ∀ e ∈ events, ¬LeasesRedriven e) :
    ∀ d ∈ db.deliveries, Clear (Superseded events) d := by
  intro d hd r hdead hc hm
  obtain ⟨pre, a, post, rfl, hfirst, b, hb, g, hsecond⟩ := hdead
  obtain ⟨mid, rest, rfl⟩ := List.append_of_mem hb
  have hsplit : pre ++ a :: (mid ++ b :: rest) = (pre ++ a :: mid) ++ b :: rest := by simp
  have hrun' := hrun
  rw [hsplit] at hrun' hpresents hno
  obtain ⟨hearly, hvB, -⟩ := hrun'.around
  have hbehindB := behind_run hearly (fun f hf => hpresents f (List.mem_append_left _ hf))
    fun f hf => hno f (List.mem_append_left _ hf)
  have hmemB : b ∈ (pre ++ a :: mid) ++ b :: rest := by simp
  have hlt := behind_grants hvB (inv_run hearly) (hno b hmemB) hbehindB
      (by simp : a ∈ pre ++ a :: mid)
    hfirst hsecond
  have hbehind := behind_run hrun' hpresents hno
  obtain ⟨-, hle⟩ := hbehind b hmemB _ hsecond
  have hcopy : copyOf db r.consumerId r.messageId =
      .leased d.visibleAt d.generation d.deliveryCount := by
    rw [hc, hm]
    exact copyOf_delivery hd
  rcases hle _ _ _ hcopy with hzero | hle
  · exact Or.inl hzero
  · exact Or.inr (lt_of_lt_of_le hlt hle)

/-- Whatever is delivered or archived was returned at generation one before. -/
theorem returned_first (hrun : Run events db) {c m : ℤ} (h : copyOf db c m ≠ .absent) :
    ∃ e ∈ events, Grants e ⟨c, m, 1⟩ := by
  have hstart : ¬copyOf Db.empty c m ≠ .absent := fun hne => hne rfl
  obtain ⟨pre, e, post, rfl, hno, hyes⟩ :=
    hrun.exists_gain (P := fun db => copyOf db c m ≠ .absent) hstart h
  obtain ⟨hpre, hv, -⟩ := hrun.around
  have hinv : Inv e.before := inv_run hpre
  have hbefore : copyOf e.before c m = .absent := not_not.mp hno
  obtain ⟨act, hhappens, hstep⟩ := copy_step hv hinv c m
  refine ⟨e, by simp, ?_⟩
  have hyes : copyOf e.after c m ≠ .absent := hyes
  generalize hafter : copyOf e.after c m = after at hstep
  rw [hbefore] at hstep
  rw [hafter] at hyes
  cases hstep with
  | stay => exact absurd rfl hyes
  | first hlease =>
    refine claim_grants hv hinv hhappens.1 hafter ?_
    rw [hbefore]
    exact Copy.noConfusion
  | discard => exact absurd rfl hyes

/-- A receipt is good for one lease in exactly the runs that lease no redriven copy again. -/
theorem oneLease_iff (hrun : Run events db) (hpresents : ∀ e ∈ events, Presents e) :
    OneLease events ↔ ∀ e ∈ events, ¬LeasesRedriven e := by
  constructor
  · intro hone e he hagain
    obtain ⟨pre, post, rfl⟩ := List.append_of_mem he
    obtain ⟨hpre, hv, -⟩ := hrun.around
    obtain ⟨c, m, hgrants, hpresent⟩ := grants_of_leasesRedriven hv (inv_run hpre) hagain
    obtain ⟨f, hf, hfirst⟩ := returned_first hpre hpresent
    have hunique := hone.unique
    rw [List.flatMap_append, List.flatMap_cons] at hunique
    have hdisjoint := (List.nodup_append.mp hunique).2.2
    have hearlier : (⟨c, m, 1⟩ : Receipt) ∈ pre.flatMap returned :=
      List.mem_flatMap.mpr ⟨f, hf, mem_returned.mpr hfirst⟩
    have hlater : (⟨c, m, 1⟩ : Receipt) ∈ returned e ++ post.flatMap returned :=
      List.mem_append_left _ (mem_returned.mpr hgrants)
    exact hdisjoint _ hearlier _ hlater rfl
  · intro hno
    refine ⟨returned_unique hrun hpresents hno, ?_⟩
    intro past event future self receipts result hsplit hpresented hreply
    subst hsplit
    obtain ⟨hpast, hv, -⟩ := hrun.around
    have hpos : ∀ r ∈ receipts, 0 < r.generation := by
      intro r hr
      exact (hpresents event (by simp) self receipts hpresented r hr).pos
    have hclear := clear_of_superseded hpast (fun f hf => hpresents f (List.mem_append_left _ hf))
      fun f hf => hno f (List.mem_append_left _ hf)
    exact inert_of_clear hv (inv_run hpast) hpresented hreply hpos hclear

end Runs

section Redriven

/-- One message is delivered, archived, redriven, delivered again and
acknowledged with the receipt of its first delivery. -/
def redrivenOps : List Op :=
  [.openConsumer "jobs" .all 0, .publishBatch [⟨none, [7], none⟩] 0, .claim firstHandle pollOne 0,
    .archiveBatch firstHandle [⟨1, 1, 1⟩] none 0, .redriveBatch firstHandle [1] .immediately 0,
    .claim firstHandle pollOne 0, .ackBatch firstHandle [⟨1, 1, 1⟩]]

/-- The events of the operations above on a fresh store. -/
def redrivenRun : List Event := trace Engine.inOrder Inner.default redrivenOps Db.empty

set_option maxRecDepth 10000 in
/-- The only receipt presented is the one the first claim returned. -/
theorem issued_first : Issued ⟨1, 1, 1⟩ := by
  refine ⟨perform Engine.inOrder Inner.default (.claim firstHandle pollOne 0)
    (outcomeDb Engine.inOrder Inner.default (redrivenOps.take 2) Db.empty), ⟨Engine.inOrder, rfl⟩,
    reachable_outcome _ _ _, ?_⟩
  exact ⟨⟨[⟨⟨1, none, [7], 0⟩, 1, ⟨1, 1, 1⟩⟩], false⟩, rfl, _, List.mem_singleton.mpr rfl, rfl⟩

/-- Operations that present no other receipt present issued ones. -/
theorem presents_first {ops : List Op}
    (hfirst : ∀ op ∈ ops, ∀ self receipts, presented op = some (self, receipts) →
      receipts = [⟨1, 1, 1⟩]) (db : Db) :
    ∀ e ∈ trace Engine.inOrder Inner.default ops db, Presents e := by
  intro e he self receipts hpresented r hr
  have hreceipts := hfirst e.op (op_of_mem_trace he) self receipts hpresented
  rw [hreceipts] at hr
  rw [List.mem_singleton.mp hr]
  exact issued_first

set_option maxRecDepth 10000 in
/-- The second delivery after a redrive carries the receipt of the first one. -/
theorem oneLease_fails : Run redrivenRun
    (outcomeDb Engine.inOrder Inner.default redrivenOps Db.empty) ∧
    (∀ e ∈ redrivenRun, Presents e) ∧ ¬OneLease redrivenRun := by
  refine ⟨trace_run _ _ _ _, presents_first ?_ _, fun hone => ?_⟩
  · intro op hop self receipts hpresented
    simp only [redrivenOps, List.mem_cons, List.not_mem_nil, or_false] at hop
    rcases hop with rfl | rfl | rfl | rfl | rfl | rfl | rfl <;> cases hpresented
    all_goals rfl
  · have hunique := hone.unique
    have htwice : redrivenRun.flatMap returned = [⟨1, 1, 1⟩, ⟨1, 1, 1⟩] := rfl
    rw [htwice] at hunique
    exact absurd hunique (by decide)

end Redriven

section Overtaken

/-- One message is delivered, delivered again after its lease, and acknowledged
with the receipt of its first delivery. -/
def overtakenOps : List Op :=
  [.openConsumer "jobs" .all 0, .publishBatch [⟨none, [7], none⟩] 0, .claim firstHandle pollOne 0,
    .claim firstHandle pollOne 5, .ackBatch firstHandle [⟨1, 1, 1⟩]]

/-- The events of the operations above on a fresh store. -/
def overtakenRun : List Event := trace Engine.inOrder Inner.default overtakenOps Db.empty

set_option maxRecDepth 10000 in
/-- A retry is no redrive: the receipts differ and the superseded one acknowledges nothing. -/
theorem oneLease_overtaken : OneLease overtakenRun ∧
    overtakenRun.flatMap returned = [⟨1, 1, 1⟩, ⟨1, 1, 2⟩] ∧
    ∃ past ack, overtakenRun = past ++ [ack] ∧ Superseded past ⟨1, 1, 1⟩ ∧
      presented ack.op = some (firstHandle, [⟨1, 1, 1⟩]) ∧ ack.reply = .ok (.batch ⟨0, 1⟩) := by
  refine ⟨(oneLease_iff (trace_run _ _ _ _) (presents_first ?_ _)).mpr fun e he => ?_, rfl,
    overtakenRun.take 4, overtakenRun.getLast (by simp [overtakenRun, overtakenOps, trace]), rfl,
    ⟨overtakenRun.take 2, ?_⟩, rfl, rfl⟩
  · intro op hop self receipts hpresented
    simp only [overtakenOps, List.mem_cons, List.not_mem_nil, or_false] at hop
    rcases hop with rfl | rfl | rfl | rfl | rfl <;> cases hpresented
    rfl
  · rintro ⟨self, poll, now, leaseMs, deadline, hop, -, -, d, hd, hzero⟩
    simp only [overtakenOps, trace, List.mem_cons, List.not_mem_nil, or_false] at he
    rcases he with rfl | rfl | rfl | rfl | rfl <;> cases hop
    · -- The first claim finds no stored delivery, the second one of generation one.
      exact absurd hd List.not_mem_nil
    · rw [List.mem_singleton.mp hd] at hzero
      exact absurd hzero (by decide)
  · exact ⟨_, [_], rfl, ⟨_, rfl, _, List.mem_singleton.mpr rfl, rfl⟩, _,
      List.mem_singleton.mpr rfl, 2, _, rfl, _, List.mem_singleton.mpr rfl, rfl⟩

end Overtaken

end LiteFan.Capabilities

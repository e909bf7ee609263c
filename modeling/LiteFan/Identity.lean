import LiteFan.Effect.Snapshots
import LiteFan.Effect.Polls
import LiteFan.FanOut
import LiteFan.Lineage

/-!
# Consumer identities are never confused

A name can be created, deleted and created again, but an identity is its
number. While it lives every handle on it carries its filter; once it is gone
each operation through a handle on it fails or finds nothing, and neither its
receipts nor its archive identifiers name anything of a later identity.
-/

namespace LiteFan.Identity

open LiteFan.Api LiteFan.Time LiteFan.Schema LiteFan.Storage LiteFan.Store LiteFan.Consumer
open LiteFan.System LiteFan.Invariant LiteFan.Effect LiteFan.Step LiteFan.Preservation
open LiteFan.Lifecycle LiteFan.Lineage LiteFan.History LiteFan.FanOut Relational

/-- The event hands out a handle. -/
def Opened (event : Event) (handle : Consumer) : Prop :=
  ∃ now, event.op = .openConsumer handle.name handle.filter now ∧ event.reply = .ok (.opened handle)

/-- Two databases with the same rows in every table. -/
structure SameTables (db db' : Db) : Prop where
  messages : db'.messages = db.messages
  idempotency : db'.idempotency = db.idempotency
  consumers : db'.consumers.table = db.consumers.table
  deliveries : db'.deliveries = db.deliveries
  archives : db'.archives = db.archives

section Live

variable {event : Event} {events : List Event} {db : Db} {handle : Consumer}

/-- A handle names the row it was opened on. -/
theorem opened_step (hv : system.valid event) (hinv : Inv event.before) (h : Opened event handle) :
    handle.name ≠ "" ∧ ∃ row, event.after.consumers.lookup handle.id = some row ∧
      row.name = handle.name ∧ row.topicFilter = handle.filter.asDatabaseValue := by
  have heffect := effect_of_valid hv hinv
  obtain ⟨now, hop, hreply⟩ := h
  obtain ⟨fan, op, before, after, reply⟩ := event
  obtain ⟨c, name, filter⟩ := handle
  dsimp only at heffect hinv hop hreply ⊢
  subst hop
  generalize hr : reply = r at heffect
  cases heffect with
  | rejected _ => rw [hreply] at hr; cases hr
  | idle hidle => exact absurd hidle id
  | created hname hfree =>
    rw [hreply] at hr
    cases hr
    refine ⟨hname, activeRow name filter now (highWater before) (nextConsumer before), ?_, rfl, rfl⟩
    rw [lookup_openedDb, nextConsumer, if_pos rfl]
  | @reopened _ _ _ row hname hrow hfilter =>
    rw [hreply] at hr
    cases hr
    obtain ⟨hstored, hsame⟩ := consumerNamed_some hrow
    exact ⟨hname, row, AutoTable.lookup_key hstored, hsame, hfilter⟩

/-- A live row keeps the name and the filter of every handle opened on it. -/
theorem opened_run (hrun : Run events db) : ∀ e ∈ events, ∀ handle, Opened e handle →
    handle.id ≤ db.consumers.seq ∧ ∀ row, db.consumers.lookup handle.id = some row →
      row.name = handle.name ∧ row.topicFilter = handle.filter.asDatabaseValue := by
  induction hrun with
  | nil => exact fun e he => absurd he List.not_mem_nil
  | @snoc past event hpast hv ih =>
    have hinv : Inv event.before := inv_run hpast
    intro e he handle hopened
    rcases List.mem_append.mp he with hearlier | hlast
    · obtain ⟨hle, hkept⟩ := ih e hearlier handle hopened
      refine ⟨hle.trans (consumers_seq_mono hv hinv), fun row' hrow' => ?_⟩
      rcases row_step hv hinv hrow' with hcreates | ⟨row, hrow, hstep⟩
      · obtain ⟨-, -, -, -, -, -, hnew, -⟩ := hcreates
        have hle : handle.id ≤ event.before.consumers.seq := hle
        omega
      · obtain ⟨hname, hfilter⟩ := hkept row hrow
        exact ⟨hstep.keeps.2.1.trans hname, hstep.keeps.2.2.1.trans hfilter⟩
    · rw [List.mem_singleton.mp hlast] at hopened
      obtain ⟨-, row, hrow, hname, hfilter⟩ := opened_step hv hinv hopened
      refine ⟨live_le_seq hrow, fun row' hrow' => ?_⟩
      have hsame : some row' = some row := hrow'.symm.trans hrow
      cases hsame
      exact ⟨hname, hfilter⟩

/-- The filter a handle carries can be read off the stored value. -/
theorem asDatabaseValue_injective {f g : Filter} (h : f.asDatabaseValue = g.asDatabaseValue) :
    f = g := by
  cases f with
  | all => cases g with
    | all => rfl
    | topic name => cases h
  | topic name => cases g with
    | all => cases h
    | topic other => cases h; rfl

/-- No stored consumer has an empty name. -/
theorem named_run (hrun : Run events db) : ∀ row ∈ db.consumers, row.name ≠ "" := by
  intro row hstored
  obtain ⟨e, he, filter, name, now, hop, hreply, -⟩ :=
    (recorded_run hrun).opened row.id row (AutoTable.lookup_key hstored)
  have hopened : Opened e ⟨row.id, name, filter⟩ := ⟨now, hop, hreply⟩
  obtain ⟨pre, post, rfl⟩ := List.append_of_mem he
  obtain ⟨hpre, hv, -⟩ := hrun.around
  have hname := (opened_step hv (inv_run hpre) hopened).1
  rw [((opened_run hrun e he _ hopened).2 row (AutoTable.lookup_key hstored)).1]
  exact hname

/-- What opening a taken name does. -/
structure Reopens (event : Event) (name : String) (filter : Filter) (row : ConsumerRow) : Prop where
  /-- With the stored filter it returns a handle on the same identity and changes no table. -/
  same : row.topicFilter = filter.asDatabaseValue →
    event.reply = .ok (.opened ⟨row.id, name, filter⟩) ∧ SameTables event.before event.after
  /-- With another filter it fails and changes nothing. -/
  other : row.topicFilter ≠ filter.asDatabaseValue →
    event.reply = .error (.consumerConfigurationMismatch name) ∧ event.after = event.before

/-- Opening the name of a live identity. -/
theorem reopens_step (hrun : Run events event.before) (hv : system.valid event) {name : String}
    {filter : Filter} {now : ℤ} (hop : event.op = .openConsumer name filter now) {row : ConsumerRow}
    (hstored : row ∈ event.before.consumers) (hname : row.name = name) :
    Reopens event name filter row := by
  have hinv := inv_run hrun
  have hempty : name ≠ "" := hname ▸ named_run hrun row hstored
  have hrow : consumerNamed event.before name = some row :=
    hname ▸ consumerNamed_of_mem hinv hstored
  have htaken : openConsumer name filter now event.before = _ := openConsumer_taken hempty hrow
  obtain ⟨e, hexec⟩ := hv
  rw [hop, exec] at hexec
  constructor
  · intro hfilter
    rw [if_neg (not_not.mpr hfilter)] at htaken
    rw [replying_ok htaken] at hexec
    obtain ⟨hafter, hreply⟩ := Prod.mk.inj hexec
    rw [← hafter, ← hreply]
    exact ⟨rfl, rfl, rfl, rfl, rfl, rfl⟩
  · intro hfilter
    rw [if_pos hfilter] at htaken
    rw [replying_error htaken] at hexec
    obtain ⟨hafter, hreply⟩ := Prod.mk.inj hexec
    exact ⟨hreply.symm, hafter.symm⟩

end Live

section Stale

variable {fan : Inner} {self : Consumer} {receipts : List Receipt} {db : Db}

/-- Receipts that change nothing, whichever operation they are presented to. -/
structure NothingApplied (fan : Inner) (self : Consumer) (receipts : List Receipt) (db : Db) :
    Prop where
  ack : ackBatch fan self receipts db = .ok (db, ⟨0, receipts.length⟩)
  nack : ∀ (retry : Retry) (now visibleAt : ℤ), addDuration now retry.delay = .ok visibleAt →
    nackBatch fan self receipts retry now db = .ok (db, ⟨0, receipts.length⟩)
  extend : ∀ (timeout : Duration) (now ms visibleAt : ℤ), durationMs timeout = .ok ms → ms ≠ 0 →
    addDuration now timeout = .ok visibleAt →
    extendVisibilityBatch fan self receipts timeout now db = .ok (db, ⟨0, receipts.length⟩)
  archive : ∀ (e : Engine) (detail : Option String) (now : ℤ),
    archiveBatchWithDetail e fan self receipts detail now db = .ok (db, ⟨0, receipts.length⟩)

/-- Updating no named row leaves the database as it is. -/
theorem touched_eq_self {c : ℤ} {f : DeliveryRow → DeliveryRow} {hf : ∀ d, (f d).key = d.key}
    {batches : List (List Receipt)}
    (h : ∀ d ∈ db.deliveries, pushReceiptPredicate c batches.flatten d = false) :
    touched db c f hf batches = db := by
  have hrows : db.deliveries.mapRows (touch c f batches) (touch_key hf c batches) =
      db.deliveries := by
    refine Table.ext_mem fun d => Table.mem_mapRows.trans ⟨fun hmem => ?_, fun hd => ?_⟩
    · obtain ⟨b, hb, rfl⟩ := hmem
      rw [touch_of_not_named (h b hb)]
      exact hb
    · exact ⟨d, hd, touch_of_not_named (h d hd)⟩
  rw [touched, hrows]

/-- Receipts that name no delivery of the handle change nothing. -/
theorem nothing_applied (hinv : Inv db) (hle : receipts.length ≤ fan.maxBatchSize)
    (h : ∀ d ∈ db.deliveries, d.consumerId = self.id → receiptOf d ∉ receipts) :
    NothingApplied fan self receipts db := by
  have hnone : ∀ d ∈ db.deliveries, pushReceiptPredicate self.id receipts d = false := by
    intro d hd
    refine eq_false_of_ne_true fun hnamed => ?_
    obtain ⟨hc, hlisted⟩ := pushReceiptPredicate_iff.mp hnamed
    exact h d hd hc hlisted
  have hflat : ∀ d ∈ db.deliveries,
      pushReceiptPredicate self.id (chunks receiptsPerChunk receipts).flatten d = false := by
    rw [flatten_chunks receiptsPerChunk_pos]
    exact hnone
  have hselect : db.deliveries.select (pushReceiptPredicate self.id receipts) = [] :=
    List.filter_eq_nil_iff.mpr fun d hd => by rw [hnone d hd]; exact Bool.false_ne_true
  have hdelete : deleteDeliveries db (pushReceiptPredicate self.id receipts) = db := by
    rw [deleteDeliveries, Table.deleteWhere_eq_self hnone]
  have hchecks := delivery_checks hinv
  rcases Nat.eq_zero_or_pos receipts.length with hzero | hpos
  · have hempty : ∀ body, receiptBatch fan receipts.length body db =
        .ok (db, ⟨0, receipts.length⟩) :=
      fun body => by
        rw [receiptBatch_zero hzero, hzero]
        rfl
    exact ⟨hempty _, fun _ _ _ _ => hempty _, fun _ _ _ _ _ _ _ => hempty _, fun _ _ _ => hempty _⟩
  · refine ⟨?_, fun retry now visibleAt hvisible => ?_,
      fun timeout now ms visibleAt hms hne hvisible => ?_, fun e detail now => ?_⟩
    · rw [ackBatch_eq hpos hle, hselect, hdelete]
      rfl
    · rw [nackBatch_eq hpos hle hvisible hchecks, touched_eq_self hflat,
        touchedRows_of_not_named hflat]
      rfl
    · rw [extendVisibilityBatch_eq hpos hle hms hne hvisible hchecks, touched_eq_self hflat,
        touchedRows_of_not_named hflat]
      rfl
    · have hleases : archivedLeases db self.id receipts = [] := by
        rw [archivedLeases, hselect, List.map_nil]
      rw [archiveBatchWithDetail_eq e hinv hpos hle, archivedDb, hdelete, hleases]
      rfl

/-- Archive identifiers that name no archive of the handle restore nothing. -/
theorem nothing_redriven (hinv : Inv db) {archiveIds : List ℤ}
    (hle : archiveIds.length ≤ fan.maxBatchSize)
    (h : ∀ a ∈ db.archives, a.consumerId = self.id → a.id ∉ archiveIds) (e : Engine) (retry : Retry)
    {now visibleAt : ℤ} (hvisible : addDuration now retry.delay = .ok visibleAt) :
    redriveBatch e fan self archiveIds retry now db = .ok (db, ⟨0, archiveIds.length⟩) := by
  rcases Nat.eq_zero_or_pos archiveIds.length with hzero | hpos
  · rw [redriveBatch, receiptBatch_zero hzero, hzero]
    rfl
  · have hnone : ∀ a ∈ db.archives, archiveNamed self.id archiveIds a = false := by
      intro a ha
      refine eq_false_of_ne_true fun hnamed => ?_
      obtain ⟨hc, hlisted⟩ := archiveNamed_iff.mp hnamed
      exact h a ha hc hlisted
    have hselect : db.archives.select (archiveNamed self.id archiveIds) = [] :=
      List.filter_eq_nil_iff.mpr fun a ha => by rw [hnone a ha]; exact Bool.false_ne_true
    have hdb : redrivenDb db self.id archiveIds visibleAt = db := by
      rw [redrivenDb, redrivenRows, hselect, deleteArchives, AutoTable.deleteWhere_eq_self hnone]
      rfl
    rw [redriveBatch_eq e hinv hpos hle hvisible, hdb, hselect]
    rfl

end Stale

section Gone

variable {fan : Inner} {self : Consumer} {db : Db}

/-- Operations through a handle on an identity that is gone. -/
structure Dead (fan : Inner) (self : Consumer) (db : Db) : Prop where
  poll : ∀ (e : Engine) (options : Poll) (instantMax started : ℕ) (tick : Tick) (ticks : List Tick)
    (leaseMs : ℤ) (deadline : ℕ), pollLease fan options = .ok (some leaseMs) →
    pollDeadline instantMax started options = .ok deadline →
    Consumer.poll e fan self options instantMax started (tick :: ticks) db =
      (db, .error (.consumerDeleted self.name))
  /-- So does a single claim of a poll that began before the deletion. -/
  claim : ∀ (e : Engine) (maxMessages : ℕ) (leaseMs now : ℤ),
    Consumer.claim e self maxMessages leaseMs now db = (db, .error (.consumerDeleted self.name))
  beginDraining : ∀ now, Consumer.beginDraining self now db =
    (db, .error (.consumerDeleted self.name))
  snapshot : ∀ now, Consumer.snapshot self now db = .error (.consumerDeleted self.name)
  receipts : ∀ receipts : List Receipt, receipts.length ≤ fan.maxBatchSize →
    NothingApplied fan self receipts db
  redrive : ∀ (e : Engine) (archiveIds : List ℤ) (retry : Retry) (now visibleAt : ℤ),
    archiveIds.length ≤ fan.maxBatchSize → addDuration now retry.delay = .ok visibleAt →
    redriveBatch e fan self archiveIds retry now db = .ok (db, ⟨0, archiveIds.length⟩)
  archives : ∀ list : ListArchives, list.maxArchives ≤ fan.maxBatchSize →
    Consumer.archives fan self list db = .ok []
  purge : ∀ purge : PurgeArchives, purge.maxArchives ≤ fan.maxBatchSize →
    purgeArchives fan self purge db = .ok (db, ⟨0⟩)

/-- An identity that is gone owns no delivery. -/
theorem no_deliveries (hinv : Inv db) {c : ℤ} (hgone : db.consumers.lookup c = none) :
    ∀ d ∈ db.deliveries, d.consumerId ≠ c := by
  intro d hd hc
  obtain ⟨row, -, hrow, -⟩ := hinv.delivery_refers d hd
  rw [hc, hgone] at hrow
  cases hrow

/-- Nor any archive. -/
theorem no_archives (hinv : Inv db) {c : ℤ} (hgone : db.consumers.lookup c = none) :
    ∀ a ∈ db.archives, a.consumerId ≠ c := by
  intro a ha hc
  obtain ⟨row, -, hrow, -⟩ := hinv.archive_refers a ha
  rw [hc, hgone] at hrow
  cases hrow

/-- A claim on an identity that is gone fails at its first read. -/
theorem claim_gone (hgone : db.consumers.lookup self.id = none) (e : Engine) (maxMessages : ℕ)
    (leaseMs now : ℤ) :
    Consumer.claim e self maxMessages leaseMs now db =
      (db, .error (.consumerDeleted self.name)) := by
  have hcheck : claimCheck self now db = .error (.consumerDeleted self.name) := by
    rw [claimCheck, claimState, hgone, Option.map_none]
  rw [Consumer.claim, hcheck]

/-- A drain call on an identity that is gone changes no row and finds none. -/
theorem beginDraining_gone (hinv : Inv db) (hgone : db.consumers.lookup self.id = none) (now : ℤ) :
    Consumer.beginDraining self now db = (db, .error (.consumerDeleted self.name)) := by
  have hno : ∀ row ∈ db.consumers, drainGuard self.id row = false := by
    intro row hrow
    have hid := AutoTable.lookup_eq_none.mp hgone row hrow
    rw [drainGuard, beq_eq_false_iff_ne.mpr hid, Bool.false_and]
  have hkeep : drainedDb db self.id now = db := by
    rw [drainedDb, AutoTable.updateWhere_eq_self fun row hrow h => ?_]
    rw [hno row hrow] at h
    cases h
  have hchanges : drainChanges db self.id = false := by
    refine eq_false_of_ne_true fun h => ?_
    obtain ⟨row, hrow, -⟩ := drainChanges_iff.mp h
    rw [hgone] at hrow
    cases hrow
  rw [Consumer.beginDraining, commit, drainTransition_eq hinv, hkeep, hchanges]
  simp only [drainReport, hgone, Bool.false_eq_true, if_false, Option.isSome_none]

/-- Every operation through a handle on an identity that is gone fails or finds nothing. -/
theorem dead_of_gone (hinv : Inv db) (hgone : db.consumers.lookup self.id = none) :
    Dead fan self db where
  poll e options instantMax started tick ticks leaseMs deadline hlease hdeadline := by
    simp only [Consumer.poll, hlease, hdeadline, pollLoop, claim_gone hgone]
  claim := claim_gone hgone
  beginDraining := beginDraining_gone hinv hgone
  snapshot now := by rw [snapshot_eq, hgone]
  receipts receipts hle :=
    nothing_applied hinv hle fun d hd hc => absurd hc (no_deliveries hinv hgone d hd)
  redrive e archiveIds retry now visibleAt hle hvisible := nothing_redriven hinv hle
    (fun a ha hc => absurd hc (no_archives hinv hgone a ha)) e retry hvisible
  archives list hle := by
    have hnone : (db.archives.select fun a =>
        a.consumerId == self.id && decide (list.after.getD 0 < a.id)) = [] := by
      refine List.filter_eq_nil_iff.mpr fun a ha => ?_
      rw [beq_eq_false_iff_ne.mpr (no_archives hinv hgone a ha), Bool.false_and]
      exact Bool.false_ne_true
    have hfits : (list.maxArchives : ℤ) ≤ i64Max := by
      have hmax := fan.maxBatchSize_le
      omega
    unfold Consumer.archives
    by_cases hzero : list.maxArchives = 0
    · rw [if_pos hzero]
    · rw [if_neg hzero, ensureBatchSize_ok.mpr hle]
      simp only [bind, Except.bind, i64TryFrom, if_pos hfits, hnone, List.filterMap_nil,
        List.take_nil]
      rfl
  purge purge hle := by
    by_cases hzero : purge.maxArchives = 0
    · exact purgeArchives_zero hzero
    · have hnone : ∀ a ∈ db.archives, purgedNamed db self.id purge a = false := by
        intro a ha
        refine eq_false_of_ne_true fun h => ?_
        exact no_archives hinv hgone a ha (purgedNamed_own ha h).1
      have hselect : db.archives.select (purgedNamed db self.id purge) = [] :=
        List.filter_eq_nil_iff.mpr fun a ha => by rw [hnone a ha]; exact Bool.false_ne_true
      rw [purgeArchives_eq hzero hle, deleteArchives, AutoTable.deleteWhere_eq_self hnone, hselect]
      rfl

end Gone

section Distinct

variable {events : List Event} {db : Db} {c : ℤ}

/-- The identity's row is gone after its deletion, and in every later state. -/
theorem gone_of_deletes (hrun : Run events db) {e : Event} (he : e ∈ events) (h : Deletes e c) :
    db.consumers.lookup c = none := by
  obtain ⟨pre, post, rfl⟩ := List.append_of_mem he
  obtain ⟨hpre, hv, hpost⟩ := hrun.around
  have hinv : Inv e.before := inv_run hpre
  have hgone := deletes_step hv hinv h
  obtain ⟨-, -, row, -, -, -, hrow, -⟩ := h
  have hle := (live_le_seq hrow).trans (consumers_seq_mono hv hinv)
  exact (gone_run hpost (inv_event e hv hinv) hle hgone).2

/-- Two handles opened on one identity are alike. -/
theorem handles_alike (hrun : Run events db) {e e' : Event} {handle handle' : Consumer}
    (he : e ∈ events) (he' : e' ∈ events) (h : Opened e handle) (h' : Opened e' handle')
    (hid : handle.id = handle'.id) : handle = handle' := by
  -- the later of the two openings found the row the earlier one named
  have hordered : ∀ pre post : List Event, ∀ last first : Event, ∀ x y : Consumer,
      Run (pre ++ last :: post) db → first ∈ pre ++ [last] → Opened first x → Opened last y →
      x.id = y.id → x = y := by
    intro pre post last first x y hrun hfirst hx hy hsame
    obtain ⟨hpre, hv, -⟩ := hrun.around
    have hinv : Inv last.before := inv_run hpre
    have hlast : Run (pre ++ [last]) last.after := hpre.snoc last hv
    obtain ⟨-, row, hrow, hname, hfilter⟩ := opened_step hv hinv hy
    obtain ⟨hname', hfilter'⟩ := (opened_run hlast first hfirst x hx).2 row (hsame ▸ hrow)
    obtain ⟨i, n, f⟩ := x
    obtain ⟨i', n', f'⟩ := y
    dsimp only at hsame hname hname' hfilter hfilter'
    rw [hsame, ← hname', hname, asDatabaseValue_injective (hfilter'.symm.trans hfilter)]
  obtain ⟨pre, post, rfl⟩ := List.append_of_mem he'
  rcases List.mem_append.mp he with hearlier | hlater
  · exact hordered pre post e' e handle handle' hrun (List.mem_append_left _ hearlier) h h' hid
  · rcases List.mem_cons.mp hlater with rfl | hpost
    · exact hordered pre post e e handle handle' hrun (by simp) h h' hid
    · obtain ⟨mid, rest, rfl⟩ := List.append_of_mem hpost
      have hrun' : Run ((pre ++ e' :: mid) ++ e :: rest) db := by simpa using hrun
      have hsame := hordered (pre ++ e' :: mid) rest e e' handle' handle hrun' (by simp) h' h
        hid.symm
      exact hsame.symm

/-- The archive identifier was given to an archive of the identity. -/
def ArchiveIssued (events : List Event) (c i : ℤ) : Prop :=
  ∃ e ∈ events, ∃ a ∈ e.after.archives, a.consumerId = c ∧ a.id = i

/-- An archive identifier never names an archive of another identity. -/
theorem archive_owner (hrun : Run events db) {i : ℤ} (h : ArchiveIssued events c i) :
    ∀ a ∈ db.archives, a.id = i → a.consumerId = c := by
  obtain ⟨e, he, issued, hissued, hc, hi⟩ := h
  obtain ⟨pre, post, rfl⟩ := List.append_of_mem he
  obtain ⟨hpre, hv, hpost⟩ := hrun.around
  have hafter : Inv e.after := inv_event e hv (inv_run hpre)
  intro a ha hid
  have hle : a.id ≤ e.after.archives.seq := by
    rw [hid, ← hi]
    exact e.after.archives.key_le issued hissued
  have hstored := (archive_run hpost hafter).2 a ha hle
  rw [AutoTable.eq_of_key hstored hissued (hid.trans hi.symm), hc]

/-- What keeps the identities of a run apart. -/
structure Distinct (events : List Event) (db : Db) : Prop where
  /-- A live identity keeps the name and the filter of every handle opened on it. -/
  kept : ∀ e ∈ events, ∀ handle, Opened e handle → ∀ row,
    db.consumers.lookup handle.id = some row →
      row.name = handle.name ∧ row.topicFilter = handle.filter.asDatabaseValue
  /-- Handles opened on one identity are alike. -/
  alike : ∀ e ∈ events, ∀ e' ∈ events, ∀ handle handle', Opened e handle → Opened e' handle' →
    handle.id = handle'.id → handle = handle'
  /-- Opening the name of a live identity changes no table. -/
  reopened : ∀ past event future name filter now row, events = past ++ event :: future →
    event.op = .openConsumer name filter now → row ∈ event.before.consumers → row.name = name →
      Reopens event name filter row
  /-- Handles on a deleted identity find nothing, whatever was created since. -/
  dead : ∀ e ∈ events, ∀ c, Deletes e c → ∀ (fan : Inner) (self : Consumer), self.id = c →
    Dead fan self db
  /-- A receipt of another identity names no delivery of this one. -/
  receipt : ∀ (self : Consumer) (r : Receipt), r.consumerId ≠ self.id →
    ∀ d ∈ db.deliveries, pushReceiptPredicate self.id [r] d = false
  receipts : ∀ (fan : Inner) (self : Consumer) (receipts : List Receipt),
    receipts.length ≤ fan.maxBatchSize → (∀ r ∈ receipts, r.consumerId ≠ self.id) →
      NothingApplied fan self receipts db
  /-- An archive identifier issued to another identity names no archive of this one. -/
  archive : ∀ c i, ArchiveIssued events c i → ∀ self : Consumer, self.id ≠ c →
    ∀ a ∈ db.archives, archiveNamed self.id [i] a = false
  archives : ∀ (e : Engine) (fan : Inner) (self : Consumer) (archiveIds : List ℤ) (retry : Retry)
    (now visibleAt : ℤ), archiveIds.length ≤ fan.maxBatchSize →
    (∀ i ∈ archiveIds, ∃ c, c ≠ self.id ∧ ArchiveIssued events c i) →
    addDuration now retry.delay = .ok visibleAt →
      redriveBatch e fan self archiveIds retry now db = .ok (db, ⟨0, archiveIds.length⟩)

/-- Identities are never confused, however often a name is deleted and created again. -/
theorem identities_distinct (hrun : Run events db) : Distinct events db where
  kept e he handle h := (opened_run hrun e he handle h).2
  alike e he e' he' handle handle' h h' hid := handles_alike hrun he he' h h' hid
  reopened past event future name filter now row hsplit hop hrow hname := by
    obtain ⟨hpast, hv, -⟩ := (hsplit ▸ hrun).around
    exact reopens_step hpast hv hop hrow hname
  dead e he c h fan self hself := dead_of_gone (inv_run hrun) (hself ▸ gone_of_deletes hrun he h)
  receipt self r hforeign d hd := by
    refine eq_false_of_ne_true fun hnamed => ?_
    obtain ⟨hc, hlisted⟩ := pushReceiptPredicate_iff.mp hnamed
    rw [← List.mem_singleton.mp hlisted] at hforeign
    exact hforeign hc
  receipts fan self receipts hle hforeign :=
    nothing_applied (inv_run hrun) hle fun d hd hc hlisted => hforeign _ hlisted hc
  archive c i hissued self hother a ha := by
    refine eq_false_of_ne_true fun hnamed => ?_
    obtain ⟨hc, hlisted⟩ := archiveNamed_iff.mp hnamed
    exact hother (hc.symm.trans (archive_owner hrun hissued a ha (List.mem_singleton.mp hlisted)))
  archives e fan self archiveIds retry now visibleAt hle hforeign hvisible := by
    refine nothing_redriven (inv_run hrun) hle (fun a ha hc hlisted => ?_) e retry hvisible
    obtain ⟨c, hother, hissued⟩ := hforeign a.id hlisted
    exact hother ((archive_owner hrun hissued a ha rfl).symm.trans hc)

/-- A consumer is created, deleted and created again with another filter. -/
def recreatedOps : List Op :=
  [.openConsumer "jobs" .all 0, .publishBatch [⟨none, [7], none⟩] 0, .claim firstHandle pollOne 0,
    .deleteConsumer "jobs" .discardAll, .openConsumer "jobs" (.topic "a") 0]

set_option maxRecDepth 10000 in
/-- The first handle is dead, and its receipt is stale for the second. -/
theorem identities_distinct_recreated :
    Dead Inner.default firstHandle (outcomeDb Engine.inOrder Inner.default recreatedOps Db.empty) ∧
    NothingApplied Inner.default ⟨2, "jobs", .topic "a"⟩ [⟨1, 1, 1⟩]
      (outcomeDb Engine.inOrder Inner.default recreatedOps Db.empty) := by
  have hrun := trace_run Engine.inOrder Inner.default recreatedOps Db.empty
  have hdistinct := identities_distinct hrun
  constructor
  · refine hdistinct.dead (perform Engine.inOrder Inner.default (.deleteConsumer "jobs" .discardAll)
      (outcomeDb Engine.inOrder Inner.default (recreatedOps.take 3) Db.empty)) ?_ 1
      ⟨"jobs", .discardAll, ⟨1, "jobs", none, 0, none, 1, none⟩, ⟨1, 0⟩, rfl, rfl, rfl, rfl⟩ _ _ rfl
    simp [recreatedOps, trace, outcomeDb]
  · exact hdistinct.receipts _ _ _ (by decide) (by decide)

end Distinct

end LiteFan.Identity

import LiteFan.Forecast
import LiteFan.Lifecycle
import LiteFan.Owing
import LiteFan.Polling
import LiteFan.Shortcut

/-!
# What a snapshot decides

Whether a consumer is drained is found out in three places: a snapshot counts
what is outstanding, a claim reads cursors and deadlines, and a deletion runs
guards of its own. They agree: a snapshot says that a consumer is empty, drained
or partly not ready exactly when a claim and a deletion would. A consumer that a
snapshot has found drained stays drained until an archive of it is redriven.
-/

namespace LiteFan.SnapshotReaders

open LiteFan.Api LiteFan.Time LiteFan.Schema LiteFan.Storage LiteFan.Store LiteFan.Consumer
open LiteFan.System LiteFan.Invariant LiteFan.Effect LiteFan.Step LiteFan.Preservation
open LiteFan.Lifecycle LiteFan.Outstanding LiteFan.Owing Relational
open LiteFan.Forecast (readyAt snapshotOf_ready outstandingCount_eq length_claimed)
open LiteFan.Shortcut (reread_of_empty)
open LiteFan.Polling (pollVerdict_empty)

section Alone

variable {db : Db} {row : ConsumerRow} {handle : Consumer} {fan : Inner} {limit : ℕ}
  {leaseMs now deadline : ℤ}

/-- What a claim run alone tells of the work that is left. -/
structure Finds (db : Db) (row : ConsumerRow) (now : ℤ) (limit : ℕ) (found : Claim) : Prop where
  leased : found.deliveries.length = min limit (readyAt db row now)
  state : found.deliveries = [] → found.draining = row.drainingAt.isSome
  next : found.deliveries = [] → (found.nextVisibleAt = none ↔ outstandingCount db row = 0)

/-- A claim run alone. -/
theorem claim_alone (e : Engine) (hinv : Inv db) (hrow : db.consumers.lookup handle.id = some row)
    (hpos : 0 < limit) (hle : limit ≤ fan.maxBatchSize)
    (hdeadline : checkedAdd now leaseMs = .ok deadline) :
    ∃ db' found, claim e handle limit leaseMs now db = (db', .ok found) ∧
      Finds db row now limit found := by
  have hid : handle.id = row.id := (AutoTable.lookup_eq_some.mp hrow).2.symm
  have hself : db.consumers.lookup row.id = some row := hid ▸ hrow
  have hlimit : (limit : ℤ) ≤ i64Max := (Int.ofNat_le.mpr hle).trans fan.maxBatchSize_le
  have hclaim := claim_whole e hinv hid hself hdeadline hlimit
  have hlength := length_claimed hinv row now deadline limit
  by_cases hempty : claimedDeliveries db row now deadline limit = []
  · obtain ⟨hreread, hexpects, -⟩ :=
      reread_of_empty hinv hid hself hpos hempty row.drainingAt.isSome
    rw [hempty] at hclaim hlength
    rw [hreread] at hclaim
    exact ⟨_, _, hclaim, hlength, fun _ => rfl, fun _ => hexpects.none_iff⟩
  · have hsome : (claimedDeliveries db row now deadline limit).isEmpty = false := by
      simpa using hempty
    rw [claimReread, hsome] at hclaim
    exact ⟨_, _, hclaim, hlength, fun h => absurd h hempty, fun h => absurd h hempty⟩

/-- A claim without deliveries stops its poll when it is draining and waits for nothing. -/
theorem pollVerdict_stops {found : Claim} : pollVerdict found = some [] ↔
    found.deliveries = [] ∧ found.draining = true ∧ found.nextVisibleAt = none := by
  refine ⟨pollVerdict_empty, ?_⟩
  rintro ⟨hnone, hdraining, hnext⟩
  simp [pollVerdict, hnone, hdraining, hnext]

/-- No more is ready than is outstanding. -/
theorem ready_le (db : Db) (row : ConsumerRow) (now : ℤ) :
    readyAt db row now ≤ outstandingCount db row := by
  rw [outstandingCount_eq]
  exact Nat.add_le_add_right (due_le_length _ _ now) _

/-- A claim finds nothing to do or to wait for exactly when nothing is outstanding. -/
theorem Finds.empty_iff {found : Claim} (h : Finds db row now limit found) (hpos : 0 < limit) :
    outstandingCount db row = 0 ↔ found.deliveries = [] ∧ found.nextVisibleAt = none := by
  have hleased := h.leased
  have hready := ready_le db row now
  constructor
  · intro hzero
    have hnone : found.deliveries = [] := List.length_eq_zero_iff.mp (by omega)
    exact ⟨hnone, (h.next hnone).mpr hzero⟩
  · rintro ⟨hnone, hnext⟩
    exact (h.next hnone).mp hnext

/-- A poll stops on a claim exactly when the consumer is draining and nothing is outstanding. -/
theorem Finds.drained_iff {found : Claim} (h : Finds db row now limit found) (hpos : 0 < limit) :
    (row.drainingAt.isSome = true ∧ outstandingCount db row = 0) ↔
      pollVerdict found = some [] := by
  rw [pollVerdict_stops, h.empty_iff hpos]
  constructor
  · rintro ⟨hdraining, hnone, hnext⟩
    exact ⟨hnone, (h.state hnone).trans hdraining, hnext⟩
  · rintro ⟨hnone, hdraining, hnext⟩
    exact ⟨(h.state hnone).symm.trans hdraining, hnone, hnext⟩

/-- The guards of a deletion let it through when what its mode spares is not there. -/
theorem deleteRefusal_none {name : String} {mode : DeleteMode} :
    deleteRefusal name mode db row = none ↔
      (mode = .drainedOnly → row.drainingAt.isSome = true ∧ outstandingCount db row = 0) ∧
        (mode ≠ .discardAll → archivedCount db row = 0) := by
  unfold deleteRefusal
  split_ifs with hactive hwork harchives
  · simp only [false_iff, not_and]
    intro h
    have hdraining := (h hactive.1).1
    rw [Option.isNone_iff_eq_none.mp hactive.2] at hdraining
    cases hdraining
  · simp only [false_iff, not_and]
    intro h
    have hnone := (h hwork.1).2
    omega
  · simp only [false_iff, not_and]
    intro _ h
    have hnone := h harchives.1
    omega
  · refine iff_of_true rfl ⟨fun hmode => ⟨?_, ?_⟩, fun hmode => ?_⟩
    · exact Option.isSome_iff_ne_none.mpr fun hnone =>
        hactive ⟨hmode, Option.isNone_iff_eq_none.mpr hnone⟩
    · by_contra hne
      exact hwork ⟨hmode, Nat.pos_of_ne_zero hne⟩
    · by_contra hne
      exact harchives ⟨hmode, Nat.pos_of_ne_zero hne⟩

/-- A deletion run alone. -/
theorem delete_alone (hinv : Inv db) (hstored : row ∈ db.consumers) (mode : DeleteMode) :
    (commit (deleteConsumer row.name mode) db).2 =
      match deleteRefusal row.name mode db row with
      | some err => .error err
      | none => .ok ⟨outstandingCount db row, archivedCount db row⟩ := by
  rw [commit, deleteConsumer_eq (consumerNamed_of_mem hinv hstored)]
  cases deleteRefusal row.name mode db row <;> rfl

end Alone

section Drained

variable {event : Event} {events : List Event} {db db' : Db} {c : ℤ}

/-- Whatever is known of the identity, it is draining and nothing is outstanding. -/
structure Drained (db : Db) (c : ℤ) : Prop where
  /-- The identity has been handed out. -/
  known : c ≤ db.consumers.seq
  draining : ∀ row, db.consumers.lookup c = some row → row.drainingAt.isSome = true
  nothing : ∀ m, ¬Owes db c m

/-- Nothing becomes outstanding again unless it is redriven. -/
theorem owes_back (hv : system.valid event) (hinv : Inv event.before)
    (hredrive : ∀ m, ¬Redrives event c m) (h : Drained event.before c) {m : ℤ} :
    ¬Owes event.after c m := by
  rintro (⟨⟨c', m', v, g, n⟩, hd, hc, hm⟩ | ⟨row', message, hrow', hunseen, rfl⟩)
  · obtain rfl : c' = c := hc
    obtain rfl : m' = m := hm
    obtain ⟨act, hhappens, hstep⟩ := copy_step hv hinv c' m'
    rw [copyOf_leased.mpr hd] at hstep
    generalize hbefore : copyOf event.before c' m' = before at hstep
    have hleased : ∀ {v g n}, before ≠ .leased v g n := by
      rintro v g n rfl
      exact h.nothing m' (.inl ⟨_, copyOf_leased.mp hbefore, rfl, rfl⟩)
    cases hstep with
    | stay => exact hleased rfl
    | first _ => exact h.nothing m' (.inr hhappens.2)
    | retry _ _ => exact hleased rfl
    | nack _ => exact hleased rfl
    | extend _ _ _ _ => exact hleased rfl
    | redrive _ _ => exact hredrive m' hhappens
  · obtain ⟨hmem, hbeyond, hlimit, hmatches⟩ := mem_unseen.mp hunseen
    rcases row_step hv hinv hrow' with hcreates | ⟨row, hrow, hstep⟩
    · obtain ⟨-, -, -, -, -, -, hnew, -⟩ := hcreates
      have hknown := h.known
      omega
    · have hdraining := h.draining row hrow
      have hok := hinv.rows row (AutoTable.lookup_eq_some.mp hrow).1
      obtain ⟨boundary, hboundary⟩ := Option.isSome_iff_exists.mp (hok.draining ▸ hdraining)
      obtain ⟨-, -, hfilter, hcursor⟩ := hstep.keeps
      have hsame : row'.drainCursor = row.drainCursor := by
        cases hstep with
        | same => rfl
        | claim _ _ _ _ => rfl
        | drain _ _ _ hactive =>
          rw [hactive] at hdraining
          cases hdraining
      have hold : message ∈ event.before.messages := by
        rcases log_step hv hinv hmem with hold | ⟨-, hnew⟩
        · exact hold
        · have hpast := (hok.drain boundary hboundary).2
          rw [scanLimit, hsame, hboundary, Option.getD_some] at hlimit
          omega
      refine h.nothing message.id
        (.inr ⟨row, message, hrow, mem_unseen.mpr ⟨hold, ?_, ?_, ?_⟩, rfl⟩)
      · omega
      · rw [scanLimit, hboundary, Option.getD_some]
        rw [scanLimit, hsame, hboundary, Option.getD_some] at hlimit
        exact hlimit
      · rw [← hfilter]
        exact hmatches

/-- A drained consumer stays drained unless an archive of it is redriven. -/
theorem drained_step (hv : system.valid event) (hinv : Inv event.before)
    (hredrive : ∀ m, ¬Redrives event c m) (h : Drained event.before c) :
    Drained event.after c where
  known := h.known.trans (consumers_seq_mono hv hinv)
  draining row' hrow' := by
    rcases row_step hv hinv hrow' with hcreates | ⟨row, hrow, hstep⟩
    · obtain ⟨-, -, -, -, -, -, hnew, -⟩ := hcreates
      have hknown := h.known
      omega
    · have hdraining := h.draining row hrow
      cases hstep with
      | same => exact hdraining
      | claim _ _ _ _ => exact hdraining
      | drain _ _ _ hactive =>
        rw [hactive] at hdraining
        cases hdraining
  nothing m := owes_back hv hinv hredrive h

/-- Over a run without redrives a drained consumer stays drained. -/
theorem drained_run (hrun : Transition.Run system db events db') (hinv : Inv db)
    (hredrive : ∀ e ∈ events, ∀ m, ¬Redrives e c m) (h : Drained db c) : Drained db' c :=
  hrun.keeps (P := fun db => Drained db c) hinv inv_event h
    fun e he hv hinv h => drained_step hv hinv (hredrive e he) h

end Drained

section Snapshots

variable {db : Db} {row : ConsumerRow} {handle : Consumer} {now : ℤ} {found : ConsumerSnapshot}

theorem isEmpty_iff : (snapshotOf db now row).isEmpty = true ↔ outstandingCount db row = 0 :=
  beq_iff_eq

/-- A snapshot says drained of a draining consumer without outstanding work. -/
theorem isDrained_iff : (snapshotOf db now row).isDrained = true ↔
    row.drainingAt.isSome = true ∧ outstandingCount db row = 0 := by
  rw [ConsumerSnapshot.isDrained, Bool.and_eq_true, isEmpty_iff, decide_eq_true_eq]
  cases hdraining : row.drainingAt <;> simp [snapshotOf, hdraining]

/-- What a snapshot says of the consumer holds of its claims, its deletion and its future. -/
structure Decides (handle : Consumer) (db : Db) (now : ℤ) (found : ConsumerSnapshot) : Prop where
  /-- A claim at the reading finds nothing to do or to wait for when the consumer is empty, its
  poll stops when the consumer is drained, and a large one leaves what is not ready. -/
  claims : ∀ (fan : Inner) (e : Engine) (limit : ℕ) (leaseMs deadline : ℤ), 0 < limit →
    limit ≤ fan.maxBatchSize → checkedAdd now leaseMs = .ok deadline →
    ∃ db' claimed, claim e handle limit leaseMs now db = (db', .ok claimed) ∧
      (found.isEmpty = true ↔ claimed.deliveries = [] ∧ claimed.nextVisibleAt = none) ∧
      (found.isDrained = true ↔ pollVerdict claimed = some []) ∧
      (found.outstanding ≤ limit →
        claimed.deliveries.length + found.notReady = found.outstanding)
  /-- A safe deletion is accepted of a drained consumer without archives, the others need not be
  drained, and each reports what the snapshot counts. -/
  deletions : ∀ mode, (commit (deleteConsumer found.name mode) db).2 =
      .ok ⟨found.outstanding, found.archived⟩ ↔
    (mode = .drainedOnly → found.isDrained = true) ∧ (mode ≠ .discardAll → found.archived = 0)
  /-- Without redrives no later snapshot of a drained consumer says otherwise. -/
  stays : found.isDrained = true → ∀ events db' later found',
    Transition.Run system db events db' → (∀ e ∈ events, ∀ m, ¬Redrives e handle.id m) →
    Consumer.snapshot handle later db' = .ok found' → found'.isDrained = true

/-- A snapshot comes of a stored row. -/
theorem row_of_snapshot (h : Consumer.snapshot handle now db = .ok found) :
    ∃ row, db.consumers.lookup handle.id = some row ∧ found = snapshotOf db now row := by
  rw [snapshot_eq] at h
  cases hrow : db.consumers.lookup handle.id with
  | none =>
    rw [hrow] at h
    cases h
  | some row =>
    rw [hrow] at h
    exact ⟨row, rfl, (Except.ok.inj h).symm⟩

/-- A snapshot that says drained is of a drained consumer. -/
theorem drained_of_row (hrow : db.consumers.lookup handle.id = some row)
    (h : (snapshotOf db now row).isDrained = true) : Drained db handle.id := by
  obtain ⟨hdraining, hnone⟩ := isDrained_iff.mp h
  refine ⟨?_, fun other hother => ?_, (outstandingCount_zero_iff hrow).mp hnone⟩
  · obtain ⟨hstored, hid⟩ := AutoTable.lookup_eq_some.mp hrow
    exact hid ▸ db.consumers.key_le row hstored
  · rw [hrow] at hother
    exact Option.some.inj hother ▸ hdraining

/-- In every reachable state the snapshot of a consumer agrees with its claims and deletions, and
a consumer that it finds drained stays drained until one of its archives is redriven. -/
theorem snapshot_decides (hreachable : Reachable db)
    (h : Consumer.snapshot handle now db = .ok found) : Decides handle db now found := by
  have hinv := inv_reachable hreachable
  obtain ⟨row, hrow, rfl⟩ := row_of_snapshot h
  have hstored := (AutoTable.lookup_eq_some.mp hrow).1
  refine ⟨fun fan e limit leaseMs deadline hpos hle hdeadline => ?_, fun mode => ?_, ?_⟩
  · obtain ⟨db', claimed, hclaim, hfinds⟩ := claim_alone e hinv hrow hpos hle hdeadline
    refine ⟨db', claimed, hclaim, ?_, ?_, fun hlarge => ?_⟩
    · rw [isEmpty_iff]
      exact hfinds.empty_iff hpos
    · rw [isDrained_iff]
      exact hfinds.drained_iff hpos
    · have hleased := hfinds.leased
      have hready := ready_le db row now
      have houtstanding : (snapshotOf db now row).outstanding = outstandingCount db row := rfl
      rw [ConsumerSnapshot.notReady, snapshotOf_ready]
      omega
  · change (commit (deleteConsumer row.name mode) db).2 =
      .ok ⟨outstandingCount db row, archivedCount db row⟩ ↔
        _ ∧ (mode ≠ .discardAll → archivedCount db row = 0)
    rw [delete_alone hinv hstored, isDrained_iff, ← deleteRefusal_none]
    cases deleteRefusal row.name mode db row <;> simp
  · intro hdrained events db' later found' hrun hredrive hlater
    obtain ⟨row', hrow', rfl⟩ := row_of_snapshot hlater
    have hstays := drained_run hrun hinv hredrive (drained_of_row hrow hdrained)
    exact isDrained_iff.mpr
      ⟨hstays.draining row' hrow', (outstandingCount_zero_iff hrow').mpr hstays.nothing⟩

end Snapshots

/-- The only message of a draining consumer is acknowledged. -/
def finishedOps : List Op :=
  [.openConsumer "jobs" .all 0, .publishBatch [⟨none, [7], none⟩] 0, .claim firstHandle pollOne 0,
    .beginDraining firstHandle 1, .ackBatch firstHandle [⟨1, 1, 1⟩]]

set_option maxRecDepth 10000 in
/-- Its snapshot lets a safe deletion through. -/
theorem snapshot_decides_finished :
    (commit (deleteConsumer "jobs" .drainedOnly)
      (outcomeDb Engine.inOrder Inner.default finishedOps Db.empty)).2 = .ok ⟨0, 0⟩ := by
  obtain ⟨found, hfound, hname, hdrained, hcounts⟩ : ∃ found,
      Consumer.snapshot firstHandle 2
        (outcomeDb Engine.inOrder Inner.default finishedOps Db.empty) = .ok found ∧
      found.name = "jobs" ∧ found.isDrained = true ∧
      found.outstanding = 0 ∧ found.archived = 0 := ⟨_, rfl, rfl, rfl, rfl, rfl⟩
  have hdecides := snapshot_decides
    (reachable_outcome Engine.inOrder Inner.default finishedOps) hfound
  have haccepted := (hdecides.deletions .drainedOnly).mpr ⟨fun _ => hdrained, fun _ => hcounts.2⟩
  rw [hname, hcounts.1, hcounts.2] at haccepted
  exact haccepted

end LiteFan.SnapshotReaders

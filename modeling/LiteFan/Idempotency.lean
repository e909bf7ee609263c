import LiteFan.Sequential
import LiteFan.Lifecycle

/-!
# The idempotency window

A key is published once and then known until its entry expires. Publishers read
the clock before they obtain the writer lock, so readings of successive commits
may be out of order; what counts is that no reading is later than the clock at
its commit. An entry is dropped only by a batch whose own reading has reached
its expiry.
-/

namespace LiteFan.Idempotency

open LiteFan.Api LiteFan.Time LiteFan.Schema LiteFan.Storage LiteFan.Store LiteFan.System
open LiteFan.Invariant LiteFan.Effect LiteFan.Step LiteFan.Preservation LiteFan.Lifecycle
open LiteFan.Sequential Relational

/-- The event committed a batch with these messages, reading and outcomes. -/
structure Committed (event : Event) (messages : List Publish) (now : ℤ)
    (outcomes : List PublishOutcome) : Prop where
  op : event.op = .publishBatch messages now
  reply : event.reply = .ok (.outcomes outcomes)

/-- The message at the position carries the key. -/
def KeyAt (messages : List Publish) (i : ℕ) (key : Bytes) : Prop :=
  ∃ message, messages[i]? = some message ∧ message.idempotencyKey = some key

/-- The event committed a batch with the key. -/
def Mentions (event : Event) (key : Bytes) : Prop :=
  ∃ messages now outcomes i, Committed event messages now outcomes ∧ KeyAt messages i key

/-- The ledger holds the key with its message until its expiry. -/
def Entry (db : Db) (key : Bytes) (id expiresAt : ℤ) : Prop :=
  db.idempotency.lookup key = some ⟨key, some id, expiresAt⟩

section Positions

variable {known : Bytes → Option ℤ} {seq : ℤ} {message : Publish} {rest messages : List Publish}
variable {i : ℕ} {key : Bytes}

/-- The position holds the first occurrence of an unknown key. -/
def Fresh (known : Bytes → Option ℤ) (messages : List Publish) (i : ℕ) (key : Bytes) : Prop :=
  known key = none ∧ ∀ j < i, ¬KeyAt messages j key

theorem keyAt_zero : KeyAt (message :: rest) 0 key ↔ message.idempotencyKey = some key := by
  simp [KeyAt]

theorem keyAt_succ : KeyAt (message :: rest) (i + 1) key ↔ KeyAt rest i key := by
  simp [KeyAt]

/-- Past its first message a batch is fresh for a key when the rest is, over what
is known then. -/
theorem fresh_tail {known' : Bytes → Option ℤ}
    (hother : message.idempotencyKey ≠ some key → known' key = known key)
    (hsame : message.idempotencyKey = some key → known' key ≠ none) :
    Fresh known (message :: rest) (i + 1) key ↔ Fresh known' rest i key := by
  by_cases hkey : message.idempotencyKey = some key
  · refine iff_of_false (fun hfresh => ?_) fun hfresh => hsame hkey hfresh.1
    exact hfresh.2 0 (Nat.succ_pos i) (keyAt_zero.mpr hkey)
  · unfold Fresh
    rw [hother hkey]
    refine and_congr_right fun _ => ⟨fun hfirst j hj => ?_, fun hfirst j hj => ?_⟩
    · exact fun hat => hfirst (j + 1) (by omega) (keyAt_succ.mpr hat)
    · cases j with
      | zero => exact fun hat => hkey (keyAt_zero.mp hat)
      | succ j => exact fun hat => hfirst j (by omega) (keyAt_succ.mp hat)

/-- The first occurrence of an unknown key is published, every other one is a
duplicate of what is known of the key after the batch. -/
theorem assign_at (known : Bytes → Option ℤ) (seq : ℤ) (messages : List Publish)
    (h : KeyAt messages i key) : ∃ id, knownAfter known seq messages key = some id ∧
      (Fresh known messages i key → (assign known seq messages).outcomes[i]? =
        some (.published id)) ∧
      (¬Fresh known messages i key →
        (assign known seq messages).outcomes[i]? = some (.duplicate id)) := by
  induction messages generalizing known seq i with
  | nil =>
    obtain ⟨message, hget, -⟩ := h
    cases hget
  | cons message rest ih =>
    cases i with
    | zero =>
      have hkey := keyAt_zero.mp h
      cases hknown : known key with
      | some id =>
        refine ⟨id, by rw [knownAfter, hknown, Option.some_or], fun hfresh => ?_, fun _ => ?_⟩
        · rw [hfresh.1] at hknown
          cases hknown
        · rw [assign_known hkey hknown]
          rfl
      | none =>
        refine ⟨seq + 1, ?_, fun _ => ?_, fun hstale => ?_⟩
        · rw [knownAfter, hknown, assign_new hkey hknown, Option.none_or]
          simp
        · rw [assign_new hkey hknown]
          rfl
        · exact absurd ⟨hknown, fun j hj => absurd hj (Nat.not_lt_zero j)⟩ hstale
    | succ i =>
      have hrest := keyAt_succ.mp h
      cases hkey : message.idempotencyKey with
      | none =>
        have htail : Fresh known (message :: rest) (i + 1) key ↔ Fresh known rest i key := by
          refine fresh_tail (fun _ => rfl) fun heq => ?_
          rw [hkey] at heq
          cases heq
        rw [htail, knownAfter, assign_unkeyed hkey]
        exact ih known (seq + 1) hrest
      | some first =>
        cases hknown : known first with
        | some id =>
          have htail : Fresh known (message :: rest) (i + 1) key ↔ Fresh known rest i key := by
            refine fresh_tail (fun _ => rfl) fun heq => ?_
            rw [hkey] at heq
            rw [← Option.some_inj.mp heq, hknown]
            exact Option.some_ne_none id
          rw [htail, knownAfter, assign_known hkey hknown]
          exact ih known seq hrest
        | none =>
          have htail : Fresh known (message :: rest) (i + 1) key ↔
              Fresh (Function.update known first (some (seq + 1))) rest i key := by
            refine fresh_tail (fun hne => ?_) fun heq => ?_
            · refine Function.update_of_ne (fun heq => hne ?_) _ _
              rw [hkey, heq]
            · rw [hkey] at heq
              rw [← Option.some_inj.mp heq, Function.update_self]
              exact Option.some_ne_none _
          rw [htail, knownAfter_new hkey hknown, assign_new hkey hknown]
          exact ih _ (seq + 1) hrest

end Positions

section Commits

/-- A key that occurs has a first occurrence. -/
theorem first_keyAt {messages : List Publish} {key : Bytes}
    (h : ∃ message ∈ messages, message.idempotencyKey = some key) :
    ∃ i, KeyAt messages i key ∧ ∀ j < i, ¬KeyAt messages j key := by
  obtain ⟨message, hmessage, hkey⟩ := h
  obtain ⟨i, hget⟩ := List.mem_iff_getElem?.mp hmessage
  have hoccurs : ∃ i, KeyAt messages i key := ⟨i, message, hget, hkey⟩
  classical
  exact ⟨Nat.find hoccurs, Nat.find_spec hoccurs, fun j hj => Nat.find_min hoccurs hj⟩

variable {event : Event} {messages : List Publish} {now : ℤ} {outcomes : List PublishOutcome}
variable {key : Bytes} {id expiresAt : ℤ}

/-- A committed batch leaves the batch's database and reports its outcomes. -/
theorem committed_step (hv : system.valid event) (hinv : Inv event.before)
    (h : Committed event messages now outcomes) :
    event.after = batchDb now (now + event.fan.idempotencyWindowMs) event.before messages ∧
      outcomes = (assigned now event.before messages).outcomes := by
  have heffect := effect_of_valid hv hinv
  obtain ⟨hop, hreply⟩ := h
  obtain ⟨fan, op, before, after, reply⟩ := event
  dsimp only at heffect hop hreply ⊢
  subst hop hreply
  generalize hr : Reply.outcomes outcomes = r at heffect
  cases heffect with
  | idle hidle => exact absurd hidle id
  | published hle =>
    simp only [Reply.outcomes.injEq] at hr
    exact ⟨rfl, hr⟩

/-- Only committed batches change the ledger. -/
theorem ledger_step (hv : system.valid event) (hinv : Inv event.before) :
    event.after.idempotency = event.before.idempotency ∨
      ∃ messages now outcomes, Committed event messages now outcomes := by
  have heffect := effect_of_valid hv hinv
  obtain ⟨fan, op, before, after, reply⟩ := event
  dsimp only at heffect ⊢
  cases heffect with
  | published hle => exact Or.inr ⟨_, _, _, rfl, rfl⟩
  | _ => exact Or.inl rfl

/-- An entry that has not expired is still in the ledger a batch starts from. -/
theorem lookup_ledgerAt (hentry : Entry event.before key id expiresAt) (hlt : now < expiresAt)
    (messages : List Publish) :
    (ledgerAt now event.before messages).idempotency.lookup key =
      some ⟨key, some id, expiresAt⟩ := by
  rw [lookup_started]
  split_ifs
  · exact hentry
  · rw [unexpired, hentry, Option.filter_some, if_pos (decide_eq_true hlt)]

/-- The ledger a batch starts from only lost entries. -/
theorem lookup_ledgerAt_or (now : ℤ) (db : Db) (messages : List Publish) (key : Bytes) :
    (ledgerAt now db messages).idempotency.lookup key = none ∨
      (ledgerAt now db messages).idempotency.lookup key = db.idempotency.lookup key := by
  rw [lookup_started]
  split_ifs
  · exact Or.inr rfl
  · unfold unexpired
    cases db.idempotency.lookup key with
    | none => exact Or.inl rfl
    | some row =>
      rw [Option.filter_some]
      split
      · exact Or.inr rfl
      · exact Or.inl rfl

/-- Under the invariant a key the ledger does not know has no row. -/
theorem known_none (hinv : Inv event.before)
    (h : known (ledgerAt now event.before messages) key = none) :
    (ledgerAt now event.before messages).idempotency.lookup key = none := by
  cases hlookup : (ledgerAt now event.before messages).idempotency.lookup key with
  | none => rfl
  | some row =>
    rcases lookup_ledgerAt_or now event.before messages key with hnone | hsame
    · rw [hnone] at hlookup
      cases hlookup
    · rw [hsame] at hlookup
      obtain ⟨found, hfound, -⟩ := hinv.ledger row (Table.lookup_eq_some.mp hlookup).1
      rw [known, hsame, hlookup, Option.bind_some, hfound] at h
      cases h

/-- A published key is filled with its expiry, and everywhere else in the batch a duplicate. -/
theorem entry_published (hv : system.valid event) (hinv : Inv event.before)
    (h : Committed event messages now outcomes) {i : ℕ} (hkey : KeyAt messages i key)
    (hpublished : outcomes[i]? = some (.published id)) :
    event.before.messages.seq < id ∧
      Entry event.after key id (now + event.fan.idempotencyWindowMs) ∧
      ∀ j, j ≠ i → KeyAt messages j key → outcomes[j]? = some (.duplicate id) := by
  obtain ⟨hafter, houtcomes⟩ := committed_step hv hinv h
  rw [houtcomes] at hpublished ⊢
  unfold assigned at hpublished ⊢
  obtain ⟨id', hknown, hfirst, hother⟩ := assign_at (known (ledgerAt now event.before messages))
    event.before.messages.seq messages hkey
  have hfresh : Fresh (known (ledgerAt now event.before messages)) messages i key := by
    by_contra hstale
    rw [hother hstale] at hpublished
    cases hpublished
  rw [hfirst hfresh] at hpublished
  cases hpublished
  have hfilled : (assigned now event.before messages).filled.lookup key = some id := by
    rw [knownAfter, hfresh.1, Option.none_or] at hknown
    exact hknown
  refine ⟨?_, ?_, fun j hne hkeyJ => ?_⟩
  · exact (assign_filled _ _ _ _ (mem_of_lookup hfilled)).2.1
  · rw [Entry, hafter, lookup_batchDb, hfilled, known_none hinv hfresh.1]
    rfl
  · obtain ⟨id', hknown', -, hotherJ⟩ := assign_at (known (ledgerAt now event.before messages))
      event.before.messages.seq messages hkeyJ
    rw [hknown] at hknown'
    cases hknown'
    refine hotherJ fun hfreshJ => ?_
    rcases Nat.lt_or_gt_of_ne hne with hlt | hlt
    · exact hfresh.2 j hlt hkeyJ
    · exact hfreshJ.2 i hlt hkey

/-- An entry survives every batch whose reading has not reached its expiry, and each
occurrence of its key there is a duplicate. -/
theorem entry_kept (hv : system.valid event) (hinv : Inv event.before)
    (hentry : Entry event.before key id expiresAt)
    (hreading : ∀ messages now outcomes, Committed event messages now outcomes → now < expiresAt) :
    Entry event.after key id expiresAt ∧
      ∀ messages now outcomes, Committed event messages now outcomes →
      ∀ i, KeyAt messages i key → outcomes[i]? = some (.duplicate id) := by
  have hbatch : ∀ messages now outcomes, Committed event messages now outcomes →
      known (ledgerAt now event.before messages) key = some id ∧
        Entry event.after key id expiresAt := by
    intro messages now outcomes h
    obtain ⟨hafter, -⟩ := committed_step hv hinv h
    have hlookup := lookup_ledgerAt hentry (hreading _ _ _ h) messages
    have hknown : known (ledgerAt now event.before messages) key = some id := by
      rw [known, hlookup]; rfl
    have hfilled : (assigned now event.before messages).filled.lookup key = none := by
      refine List.lookup_eq_none_iff.mpr fun entry hmem => ?_
      have hnone := (assign_filled _ _ _ entry hmem).1
      have hne : key ≠ entry.1 := by
        intro hsame
        rw [← hsame, hknown] at hnone
        cases hnone
      simpa using hne
    refine ⟨hknown, ?_⟩
    rw [Entry, hafter, lookup_batchDb, hfilled]
    exact hlookup
  refine ⟨?_, fun messages now outcomes h i hkey => ?_⟩
  · rcases ledger_step hv hinv with hsame | ⟨messages, now, outcomes, h⟩
    · rw [Entry, hsame]
      exact hentry
    · exact (hbatch messages now outcomes h).2
  · have hknown := (hbatch messages now outcomes h).1
    obtain ⟨-, houtcomes⟩ := committed_step hv hinv h
    obtain ⟨id', hafter, -, hother⟩ := assign_at (known (ledgerAt now event.before messages))
      event.before.messages.seq messages hkey
    rw [knownAfter, hknown, Option.some_or] at hafter
    cases hafter
    rw [houtcomes]
    refine hother fun hfresh => ?_
    rw [hfresh.1] at hknown
    cases hknown

/-- Until its key is mentioned again an entry stays as it is or is dropped. -/
theorem entry_gap (hv : system.valid event) (hinv : Inv event.before)
    (hentry : event.before.idempotency.lookup key = none ∨ Entry event.before key id expiresAt)
    (hgap : ¬Mentions event key) :
    event.after.idempotency.lookup key = none ∨ Entry event.after key id expiresAt := by
  rcases ledger_step hv hinv with hsame | ⟨messages, now, outcomes, h⟩
  · rw [Entry, hsame]
    exact hentry
  · obtain ⟨hafter, -⟩ := committed_step hv hinv h
    have hfilled : (assigned now event.before messages).filled.lookup key = none := by
      refine List.lookup_eq_none_iff.mpr fun entry hmem => ?_
      obtain ⟨message, hmessage, hkey⟩ := assign_filled_mem _ _ _ entry hmem
      obtain ⟨i, hget⟩ := List.mem_iff_getElem?.mp hmessage
      have hne : key ≠ entry.1 := by
        intro hsame
        exact hgap ⟨messages, now, outcomes, i, h, message, hget, by rw [hkey, hsame]⟩
      simpa using hne
    rw [Entry, hafter, lookup_batchDb, hfilled]
    rcases lookup_ledgerAt_or now event.before messages key with hnone | hkeep
    · exact Or.inl hnone
    · rw [hkeep]
      exact hentry

/-- A batch whose reading has reached the expiry publishes the first occurrence of the key anew. -/
theorem entry_expired (hv : system.valid event) (hinv : Inv event.before)
    (hentry : event.before.idempotency.lookup key = none ∨ Entry event.before key id expiresAt)
    (h : Committed event messages now outcomes) (hexpired : expiresAt ≤ now) {i : ℕ}
    (hkey : KeyAt messages i key) (hfirst : ∀ j < i, ¬KeyAt messages j key) :
    ∃ id', outcomes[i]? = some (.published id') ∧ event.before.messages.seq < id' := by
  obtain ⟨-, houtcomes⟩ := committed_step hv hinv h
  have hledger : ledgerAt now event.before messages = purgeExpiredIdempotency event.before now := by
    obtain ⟨message, hget, hmessage⟩ := hkey
    unfold ledgerAt
    rw [if_neg]
    intro hall
    have hunkeyed := List.all_eq_true.mp hall message (List.mem_of_getElem? hget)
    rw [hmessage] at hunkeyed
    cases hunkeyed
  have hnone : known (ledgerAt now event.before messages) key = none := by
    have hlookup : (purgeExpiredIdempotency event.before now).idempotency.lookup key =
        (event.before.idempotency.lookup key).filter fun row => !decide (row.expiresAt ≤ now) :=
      Table.lookup_deleteWhere _ _ _
    rw [known, hledger, hlookup]
    rcases hentry with hnone | hentry
    · rw [hnone]
      rfl
    · rw [hentry, Option.filter_some]
      simp [hexpired]
  obtain ⟨id', hknown, hpublished, -⟩ := assign_at (known (ledgerAt now event.before messages))
    event.before.messages.seq messages hkey
  have houtcome : outcomes[i]? = some (.published id') := by
    rw [houtcomes]
    exact hpublished ⟨hnone, hfirst⟩
  exact ⟨id', houtcome, (entry_published hv hinv h hkey houtcome).1⟩

end Commits

section Runs

variable {key : Bytes} {id expiresAt : ℤ}

/-- Events in commit order with the clock at each commit: it never goes back, and
a publisher read it before it obtained the writer lock. -/
structure Timely (timed : List (Event × ℤ)) : Prop where
  nondecreasing : (timed.map Prod.snd).Pairwise (· ≤ ·)
  readings : ∀ p ∈ timed, ∀ messages now, p.1.op = .publishBatch messages now → now ≤ p.2

/-- Every published identifier was assigned. -/
theorem published_le_seq {events : List Event} {db : Db} (hrun : Run events db) :
    ∀ e ∈ events, ∀ message, Publishes e message → message.id ≤ db.messages.seq := by
  induction hrun with
  | nil =>
    intro e he
    exact absurd he List.not_mem_nil
  | snoc last hrun hv ih =>
    intro e he message hpublishes
    rcases List.mem_append.mp he with hpast | hlast
    · exact (ih e hpast message hpublishes).trans (messages_seq_mono hv (inv_run hrun))
    · obtain ⟨-, -, -, hmem, -⟩ := hpublishes
      rw [List.mem_singleton.mp hlast] at hmem
      exact last.after.messages.key_le message hmem

/-- While no reading has reached its expiry an entry stays. -/
theorem entry_run {events : List Event} {db db' : Db} (hrun : Transition.Run system db events db')
    (hinv : Inv db) (hentry : Entry db key id expiresAt)
    (hreadings : ∀ e ∈ events, ∀ messages now outcomes, Committed e messages now outcomes →
      now < expiresAt) : Entry db' key id expiresAt :=
  hrun.keeps (P := fun db => Entry db key id expiresAt) hinv inv_event hentry
    fun e he hv hinv hentry => (entry_kept hv hinv hentry (hreadings e he)).1

/-- While its key is not mentioned an entry stays or is dropped. -/
theorem gap_run {events : List Event} {db db' : Db} (hrun : Transition.Run system db events db')
    (hinv : Inv db) (hentry : Entry db key id expiresAt) (hgap : ∀ e ∈ events, ¬Mentions e key) :
    db'.idempotency.lookup key = none ∨ Entry db' key id expiresAt :=
  hrun.keeps (P := fun db => db.idempotency.lookup key = none ∨ Entry db key id expiresAt) hinv
    inv_event (Or.inr hentry) fun e he hv hinv h => entry_gap hv hinv h (hgap e he)

/-- What the publication of a key means for its other occurrences. -/
structure Window (past : List (Event × ℤ)) (a : Event) (κ : ℤ) (later : List (Event × ℤ))
    (messages : List Publish) (outcomes : List PublishOutcome) (i : ℕ) (key : Bytes)
    (id expiresAt : ℤ) :
    Prop where
  /-- The identifier is new. -/
  fresh : ∀ p ∈ past, ∀ message, Publishes p.1 message → message.id < id
  /-- The batch itself holds no other publication of the key. -/
  batch : ∀ j, j ≠ i → KeyAt messages j key → outcomes[j]? = some (.duplicate id)
  /-- The ledger holds the key until its expiry. -/
  entry : Entry a.after key id expiresAt
  /-- Before the expiry every later occurrence is a duplicate and the expiry stays. -/
  inside : ∀ mid b β rest messages' now' outcomes', later = mid ++ (b, β) :: rest → β < expiresAt →
    Committed b messages' now' outcomes' →
    (∀ j, KeyAt messages' j key → outcomes'[j]? = some (.duplicate id)) ∧
      Entry b.after key id expiresAt
  /-- The next batch with the key, when its reading has reached the expiry, publishes it anew. -/
  next : ∀ mid b β rest messages' now' outcomes' j, later = mid ++ (b, β) :: rest →
    (∀ p ∈ mid, ¬Mentions p.1 key) → Committed b messages' now' outcomes' → expiresAt ≤ now' →
    KeyAt messages' j key → (∀ l < j, ¬KeyAt messages' l key) →
    ∃ id', outcomes'[j]? = some (.published id') ∧
      ∀ p ∈ past ++ (a, κ) :: mid, ∀ message, Publishes p.1 message → message.id < id'

/-- Every publication of a key opens a window. -/
theorem window_of_published {past later : List (Event × ℤ)} {a : Event} {κ : ℤ} {db : Db}
    {messages : List Publish} {now : ℤ} {outcomes : List PublishOutcome} {i : ℕ}
    (hrun : Run ((past ++ (a, κ) :: later).map Prod.fst) db)
    (hclock : Timely (past ++ (a, κ) :: later))
    (h : Committed a messages now outcomes) (hkey : KeyAt messages i key)
    (hpublished : outcomes[i]? = some (.published id)) :
    Window past a κ later messages outcomes i key id (now + a.fan.idempotencyWindowMs) := by
  rw [List.map_append, List.map_cons] at hrun
  obtain ⟨hpast, hvA, hlater⟩ := hrun.around
  have hinvA : Inv a.before := inv_run hpast
  have hinvA' : Inv a.after := inv_event a hvA hinvA
  obtain ⟨hseq, hentry, hbatch⟩ := entry_published hvA hinvA h hkey hpublished
  refine ⟨fun p hp message hpublishes => ?_, hbatch, hentry, ?_, ?_⟩
  · have hle := published_le_seq hpast p.1 (List.mem_map_of_mem hp) message hpublishes
    exact lt_of_le_of_lt hle hseq
  · intro mid b β rest messages' now' outcomes' hsplit hβ hb
    subst hsplit
    have hlater' := hlater
    rw [List.map_append, List.map_cons] at hlater'
    obtain ⟨hmid, hvB, -⟩ := hlater'.around
    have hinvB : Inv b.before := hmid.invariant hinvA' inv_event
    -- every reading up to this commit is at most the clock here
    have hclocks : ∀ p ∈ mid ++ [(b, β)], p.2 ≤ β := by
      intro p hp
      rcases List.mem_append.mp hp with hp | hp
      · have hsorted := hclock.nondecreasing
        have hassoc : past ++ (a, κ) :: (mid ++ (b, β) :: rest) =
            (past ++ (a, κ) :: mid) ++ (b, β) :: rest := by simp
        rw [hassoc, List.map_append, List.pairwise_append] at hsorted
        have hmem : p.2 ∈ (past ++ (a, κ) :: mid).map Prod.snd := by
          refine List.mem_map_of_mem ?_
          exact List.mem_append_right _ (List.mem_cons_of_mem _ hp)
        exact hsorted.2.2 p.2 hmem β (by simp)
      · rw [List.mem_singleton.mp hp]
    have hreadings : ∀ p ∈ mid ++ [(b, β)], ∀ messages now'' outcomes,
        Committed p.1 messages now'' outcomes → now'' < now + a.fan.idempotencyWindowMs := by
      intro p hp messages now'' outcomes hcommitted
      have hmem : p ∈ past ++ (a, κ) :: (mid ++ (b, β) :: rest) := by
        rcases List.mem_append.mp hp with hp | hp
        · exact List.mem_append_right _ (List.mem_cons_of_mem _ (List.mem_append_left _ hp))
        · rw [List.mem_singleton.mp hp]
          simp
      have hread := hclock.readings p hmem messages now'' hcommitted.op
      have hle := hclocks p hp
      omega
    have hentryB := entry_run hmid hinvA' hentry fun e he => by
      obtain ⟨p, hp, rfl⟩ := List.mem_map.mp he
      exact hreadings p (List.mem_append_left _ hp)
    obtain ⟨hafter, hduplicates⟩ := entry_kept hvB hinvB hentryB
      (hreadings (b, β) (List.mem_append_right _ (List.mem_singleton.mpr rfl)))
    exact ⟨hduplicates messages' now' outcomes' hb, hafter⟩
  · intro mid b β rest messages' now' outcomes' j hsplit hgap hb hexpired hkeyB hfirst
    subst hsplit
    rw [List.map_append, List.map_cons] at hlater
    obtain ⟨hmid, hvB, -⟩ := hlater.around
    have hinvB : Inv b.before := hmid.invariant hinvA' inv_event
    have hentryB := gap_run hmid hinvA' hentry fun e he => by
      obtain ⟨p, hp, rfl⟩ := List.mem_map.mp he
      exact hgap p hp
    obtain ⟨id', hid', hnew⟩ := entry_expired hvB hinvB hentryB hb hexpired hkeyB hfirst
    refine ⟨id', hid', fun p hp message hpublishes => ?_⟩
    have hreach : Run ((past ++ (a, κ) :: mid).map Prod.fst) b.before := by
      have hfirst : Run (past.map Prod.fst ++ [a]) a.after := Transition.Run.snoc a hpast hvA
      have hall := hfirst.append hmid
      rw [List.append_assoc] at hall
      rw [List.map_append, List.map_cons]
      exact hall
    have hle := published_le_seq hreach p.1 (List.mem_map_of_mem hp) message hpublishes
    exact lt_of_le_of_lt hle hnew

/-- Every ledger entry was filled by the publication of its key. -/
theorem ledger_origin {events : List Event} {db : Db} (hrun : Run events db) :
    ∀ row ∈ db.idempotency, ∃ e ∈ events, ∃ messages now outcomes i id,
      Committed e messages now outcomes ∧ KeyAt messages i row.key ∧
        outcomes[i]? = some (.published id) ∧ row.messageId = some id ∧
        row.expiresAt = now + e.fan.idempotencyWindowMs := by
  induction hrun with
  | nil =>
    intro row hrow
    exact absurd hrow (Table.not_mem_empty row)
  | @snoc past e hrun hv ih =>
    intro row hrow
    have hinv := inv_run hrun
    have hold : row ∈ e.before.idempotency → ∃ f ∈ past ++ [e], ∃ messages now outcomes i id,
        Committed f messages now outcomes ∧ KeyAt messages i row.key ∧
          outcomes[i]? = some (.published id) ∧ row.messageId = some id ∧
          row.expiresAt = now + f.fan.idempotencyWindowMs := by
      intro hmem
      obtain ⟨f, hf, horigin⟩ := ih row hmem
      exact ⟨f, List.mem_append_left _ hf, horigin⟩
    rcases ledger_step hv hinv with hsame | ⟨messages, now, outcomes, h⟩
    · exact hold (hsame ▸ hrow)
    · have hlookup := Table.lookup_key hrow
      obtain ⟨hafter, houtcomes⟩ := committed_step hv hinv h
      have hafter : (system.after e) = _ := hafter
      rw [hafter, lookup_batchDb] at hlookup
      cases hfilled : (assigned now e.before messages).filled.lookup row.key with
      | none =>
        rw [hfilled] at hlookup
        have hkept : (ledgerAt now e.before messages).idempotency.lookup row.key = some row :=
          hlookup
        exact hold ((ledgerAt_parts now e.before messages).2.2.2.2 row
          (Table.lookup_eq_some.mp hkept).1)
      | some id =>
        rw [hfilled] at hlookup
        have hmem : (row.key, id) ∈ (assigned now e.before messages).filled :=
          mem_of_lookup hfilled
        have hnone : known (ledgerAt now e.before messages) row.key = none :=
          (assign_filled _ _ _ _ hmem).1
        obtain ⟨i, hkey, hfirst⟩ := first_keyAt (assign_filled_mem _ _ _ _ hmem)
        obtain ⟨id', hknown, hpublished, -⟩ := assign_at (known (ledgerAt now e.before messages))
          e.before.messages.seq messages hkey
        rw [knownAfter, hnone, Option.none_or] at hknown
        have hid : some id = some id' := hfilled.symm.trans hknown
        cases hid
        rw [known_none hinv hnone] at hlookup
        have hrowEq := Option.some_inj.mp hlookup
        refine ⟨e, List.mem_append_right _ (List.mem_singleton.mpr rfl), messages, now,
          outcomes, i, id,
          h, hkey, ?_, ?_, ?_⟩
        · rw [houtcomes]
          exact hpublished ⟨hnone, hfirst⟩
        · rw [← hrowEq]
        · rw [← hrowEq]
          rfl

end Runs

/-- Over a nondecreasing clock that every publish reads before its commit: a published
key is a duplicate in every batch that commits inside its window and is published
anew by the next batch whose reading has reached its end; only published positions
store messages, ledger entries name what was published, and none is ever unfilled. -/
theorem idempotency_window {timed : List (Event × ℤ)} {db : Db} (hrun : Run (timed.map Prod.fst) db)
    (hclock : Timely timed) :
    (∀ past a κ later messages now outcomes i key id, timed = past ++ (a, κ) :: later →
      Committed a messages now outcomes → KeyAt messages i key →
      outcomes[i]? = some (.published id) →
      Window past a κ later messages outcomes i key id (now + a.fan.idempotencyWindowMs)) ∧
    (∀ p ∈ timed, ∀ messages now outcomes, Committed p.1 messages now outcomes →
      p.1.after.messages.table.rows =
        p.1.before.messages.table.rows ++ publishedRows now messages outcomes) ∧
    (∀ row ∈ db.idempotency, ∃ p ∈ timed, ∃ messages now outcomes i id,
      Committed p.1 messages now outcomes ∧ KeyAt messages i row.key ∧
        outcomes[i]? = some (.published id) ∧ row.messageId = some id ∧
        row.expiresAt = now + p.1.fan.idempotencyWindowMs) ∧
    ∀ p ∈ timed, p.1.reply ≠ .error .incompleteIdempotencyEntry := by
  have hevent : ∀ p ∈ timed, system.valid p.1 ∧ Inv p.1.before := by
    intro p hp
    obtain ⟨pre, post, hsplit⟩ := List.append_of_mem (List.mem_map_of_mem (f := Prod.fst) hp)
    have hrun' := hrun
    rw [hsplit] at hrun'
    obtain ⟨hpre, hv, -⟩ := hrun'.around
    exact ⟨hv, inv_run hpre⟩
  refine ⟨?_, fun p hp messages now outcomes h => ?_, fun row hrow => ?_, fun p hp hreply => ?_⟩
  · intro past a κ later messages now outcomes i key id hsplit h hkey hpublished
    subst hsplit
    exact window_of_published hrun hclock h hkey hpublished
  · obtain ⟨hv, hinv⟩ := hevent p hp
    obtain ⟨hafter, houtcomes⟩ := committed_step hv hinv h
    rw [hafter, houtcomes]
    exact batchDb_rows _ _ _ _
  · obtain ⟨e, he, horigin⟩ := ledger_origin hrun row hrow
    obtain ⟨p, hp, rfl⟩ := List.mem_map.mp he
    exact ⟨p, hp, horigin⟩
  · obtain ⟨hv, hinv⟩ := hevent p hp
    have heffect := effect_of_valid hv hinv
    rw [hreply] at heffect
    generalize p.1.op = op, p.1.after = after at heffect
    cases heffect with
    | rejected hdefect => cases hdefect

/-- A key is published twice at 3, again by a publisher that read the clock before,
and again at the end of its window. -/
def repeatedOps : List Op :=
  [.publishBatch [⟨none, [1], some [9]⟩, ⟨none, [2], some [9]⟩] 3,
    .publishBatch [⟨none, [3], some [9]⟩] 1, .publishBatch [⟨none, [4], some [9]⟩] 86400003]

/-- The operations above with the clock at their commits. -/
def repeatedRun : List (Event × ℤ) :=
  (trace Engine.inOrder Inner.default repeatedOps Db.empty).zip [3, 4, 86400003]

set_option maxRecDepth 10000 in
/-- The first publication of the key opens a window over the later two batches. -/
theorem idempotency_window_repeated : ∃ first, repeatedRun.head? = some (first, 3) ∧
    Window [] first 3 (repeatedRun.drop 1) [⟨none, [1], some [9]⟩, ⟨none, [2], some [9]⟩]
      [.published 1, .duplicate 1] 0 [9] 1 86400003 := by
  have hrun : Run (repeatedRun.map Prod.fst)
      (outcomeDb Engine.inOrder Inner.default repeatedOps Db.empty) :=
    trace_run Engine.inOrder Inner.default repeatedOps Db.empty
  have hclock : Timely repeatedRun := by
    refine ⟨by decide, fun p hp messages now hop => ?_⟩
    simp only [repeatedRun, repeatedOps, trace, List.zip_cons_cons, List.zip_nil_left,
      List.mem_cons,
      List.not_mem_nil, or_false] at hp
    rcases hp with rfl | rfl | rfl <;> cases hop <;> decide
  exact ⟨_, rfl, (idempotency_window hrun hclock).1 [] _ 3 _ _ _ _ 0 [9] 1 rfl ⟨rfl, rfl⟩
    ⟨_, rfl, rfl⟩ rfl⟩

end LiteFan.Idempotency

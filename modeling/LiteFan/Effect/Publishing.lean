import LiteFan.Invariant

/-!
# What a publish batch does to the tables

The abstract publisher walks a batch once: an unkeyed message and the first
occurrence of an unknown key are stored under the next identifier, every other
occurrence repeats the identifier already known. The five set-based steps of a
keyed batch and the unkeyed fast path both compute it, in whatever order the
hash set iterates and the statements return, and wherever the chunks end.
-/

namespace LiteFan.Effect

open LiteFan.Api LiteFan.Time LiteFan.Schema LiteFan.Storage LiteFan.Store Relational

section Assign

/-- The next identifiers a log assigns. -/
def idsFrom (seq : ℤ) (n : ℕ) : List ℤ := (List.range n).map fun i : ℕ => seq + 1 + (i : ℤ)

theorem idsFrom_succ (seq : ℤ) (n : ℕ) :
    idsFrom seq (n + 1) = (seq + 1) :: idsFrom (seq + 1) n :=
  AutoTable.consecutive_succ seq n

/-- What a batch amounts to. -/
structure Assigned where
  /-- One outcome for each message. -/
  outcomes : List PublishOutcome
  /-- The messages that are stored, in order. -/
  stored : List Publish
  /-- The ledger entries that are filled, in order. -/
  filled : List (Bytes × ℤ)

/-- The abstract publisher over the identifiers known for each key. -/
def assign (known : Bytes → Option ℤ) (seq : ℤ) : List Publish → Assigned
  | [] => ⟨[], [], []⟩
  | message :: rest =>
    match message.idempotencyKey with
    | none =>
      let tail := assign known (seq + 1) rest
      ⟨.published (seq + 1) :: tail.outcomes, message :: tail.stored, tail.filled⟩
    | some key =>
      match known key with
      | some id =>
        let tail := assign known seq rest
        ⟨.duplicate id :: tail.outcomes, tail.stored, tail.filled⟩
      | none =>
        let tail := assign (Function.update known key (some (seq + 1))) (seq + 1) rest
        ⟨.published (seq + 1) :: tail.outcomes, message :: tail.stored,
          (key, seq + 1) :: tail.filled⟩

variable {known : Bytes → Option ℤ} {seq : ℤ} {message : Publish} {rest : List Publish}
    {key : Bytes}

theorem assign_unkeyed (h : message.idempotencyKey = none) :
    assign known seq (message :: rest) =
      ⟨.published (seq + 1) :: (assign known (seq + 1) rest).outcomes,
        message :: (assign known (seq + 1) rest).stored, (assign known (seq + 1) rest).filled⟩ := by
  rw [assign, h]

theorem assign_known (h : message.idempotencyKey = some key) {id : ℤ} (hk : known key = some id) :
    assign known seq (message :: rest) =
      ⟨.duplicate id :: (assign known seq rest).outcomes, (assign known seq rest).stored,
        (assign known seq rest).filled⟩ := by
  rw [assign, h]
  simp only [hk]

theorem assign_new (h : message.idempotencyKey = some key) (hk : known key = none) :
    assign known seq (message :: rest) =
      ⟨.published (seq + 1) ::
          (assign (Function.update known key (some (seq + 1))) (seq + 1) rest).outcomes,
        message :: (assign (Function.update known key (some (seq + 1))) (seq + 1) rest).stored,
        (key, seq + 1) ::
          (assign (Function.update known key (some (seq + 1))) (seq + 1) rest).filled⟩ := by
  rw [assign, h]
  simp only [hk]

/-- Only unknown keys are filled, with identifiers the batch assigned. -/
theorem assign_filled (known : Bytes → Option ℤ) (seq : ℤ) (messages : List Publish) :
    ∀ entry ∈ (assign known seq messages).filled, known entry.1 = none ∧ seq < entry.2 ∧
      entry.2 ≤ seq + (assign known seq messages).stored.length := by
  induction messages generalizing known seq with
  | nil => exact fun entry h => absurd h List.not_mem_nil
  | cons message rest ih =>
    cases hkey : message.idempotencyKey with
    | none =>
      rw [assign_unkeyed hkey]
      intro entry hentry
      obtain ⟨hnone, hlo, hhi⟩ := ih known (seq + 1) entry hentry
      refine ⟨hnone, by omega, ?_⟩
      rw [List.length_cons]
      push_cast
      omega
    | some key =>
      cases hknown : known key with
      | some id =>
        rw [assign_known hkey hknown]
        exact ih known seq
      | none =>
        rw [assign_new hkey hknown]
        intro entry hentry
        rw [List.length_cons]
        push_cast
        rcases List.mem_cons.mp hentry with rfl | hentry
        · exact ⟨hknown, by omega, by omega⟩
        · obtain ⟨hnone, hlo, hhi⟩ := ih _ (seq + 1) entry hentry
          refine ⟨?_, by omega, by omega⟩
          by_cases hsame : entry.1 = key
          · rw [hsame, Function.update_self] at hnone
            cases hnone
          · rw [Function.update_of_ne hsame] at hnone
            exact hnone

/-- No key is filled twice. -/
theorem assign_filled_nodup (known : Bytes → Option ℤ) (seq : ℤ) (messages : List Publish) :
    ((assign known seq messages).filled.map Prod.fst).Nodup := by
  induction messages generalizing known seq with
  | nil => exact List.nodup_nil
  | cons message rest ih =>
    cases hkey : message.idempotencyKey with
    | none =>
      rw [assign_unkeyed hkey]
      exact ih known (seq + 1)
    | some key =>
      cases hknown : known key with
      | some id =>
        rw [assign_known hkey hknown]
        exact ih known seq
      | none =>
        rw [assign_new hkey hknown, List.map_cons]
        refine List.nodup_cons.mpr ⟨fun hmem => ?_, ih _ (seq + 1)⟩
        obtain ⟨entry, hentry, hfst⟩ := List.mem_map.mp hmem
        have hnone := (assign_filled _ (seq + 1) rest entry hentry).1
        have hfst : entry.1 = key := hfst
        rw [hfst, Function.update_self] at hnone
        cases hnone

/-- A batch without keys fills nothing. -/
theorem assign_all_unkeyed {messages : List Publish} (h : ∀ m ∈ messages, m.idempotencyKey = none) :
    (assign known seq messages).filled = [] ∧ (assign known seq messages).stored = messages := by
  induction messages generalizing seq with
  | nil => exact ⟨rfl, rfl⟩
  | cons message rest ih =>
    rw [assign_unkeyed (h message List.mem_cons_self)]
    obtain ⟨hfilled, hstored⟩ := ih (fun m hm => h m (List.mem_cons_of_mem _ hm))
    exact ⟨hfilled, by rw [hstored]⟩

/-- A batch without keys publishes every message under the next identifier. -/
theorem assign_outcomes_unkeyed {messages : List Publish}
    (h : ∀ m ∈ messages, m.idempotencyKey = none) :
    (assign known seq messages).outcomes = (idsFrom seq messages.length).map .published := by
  induction messages generalizing seq with
  | nil => rfl
  | cons message rest ih =>
    rw [assign_unkeyed (h message List.mem_cons_self), List.length_cons, idsFrom_succ,
      List.map_cons,
      ih fun m hm => h m (List.mem_cons_of_mem _ hm)]

/-- Every key of the batch is known or filled. -/
theorem assign_covers (known : Bytes → Option ℤ) (seq : ℤ) (messages : List Publish) :
    ∀ m ∈ messages, ∀ key, m.idempotencyKey = some key →
      known key ≠ none ∨ ∃ id, (key, id) ∈ (assign known seq messages).filled := by
  induction messages generalizing known seq with
  | nil => exact fun m h => absurd h List.not_mem_nil
  | cons message rest ih =>
    intro m hm key hkey
    cases hhead : message.idempotencyKey with
    | none =>
      rw [assign_unkeyed hhead]
      rcases List.mem_cons.mp hm with rfl | hm
      · rw [hhead] at hkey
        cases hkey
      · exact ih known (seq + 1) m hm key hkey
    | some first =>
      cases hknown : known first with
      | some id =>
        rw [assign_known hhead hknown]
        rcases List.mem_cons.mp hm with rfl | hm
        · rw [hhead] at hkey
          cases hkey
          exact Or.inl (by rw [hknown]; exact Option.some_ne_none id)
        · exact ih known seq m hm key hkey
      | none =>
        rw [assign_new hhead hknown]
        rcases List.mem_cons.mp hm with rfl | hm
        · rw [hhead] at hkey
          cases hkey
          exact Or.inr ⟨seq + 1, List.mem_cons_self⟩
        · rcases ih (Function.update known first (some (seq + 1))) (seq + 1) m hm key hkey with
            hne | ⟨id, hid⟩
          · by_cases hsame : key = first
            · exact Or.inr ⟨seq + 1, hsame ▸ List.mem_cons_self⟩
            · rw [Function.update_of_ne hsame] at hne
              exact Or.inl hne
          · exact Or.inr ⟨id, List.mem_cons_of_mem _ hid⟩

/-- Only keys of the batch are filled. -/
theorem assign_filled_mem (known : Bytes → Option ℤ) (seq : ℤ) (messages : List Publish) :
    ∀ entry ∈ (assign known seq messages).filled,
      ∃ m ∈ messages, m.idempotencyKey = some entry.1 := by
  induction messages generalizing known seq with
  | nil => exact fun entry h => absurd h List.not_mem_nil
  | cons message rest ih =>
    have hlift : ∀ entry : Bytes × ℤ, (∃ m ∈ rest, m.idempotencyKey = some entry.1) →
        ∃ m ∈ message :: rest, m.idempotencyKey = some entry.1 := by
      intro entry h
      obtain ⟨m, hm, hkey⟩ := h
      exact ⟨m, List.mem_cons_of_mem _ hm, hkey⟩
    intro entry hentry
    cases hkey : message.idempotencyKey with
    | none =>
      rw [assign_unkeyed hkey] at hentry
      exact hlift entry (ih known (seq + 1) entry hentry)
    | some key =>
      cases hknown : known key with
      | some id =>
        rw [assign_known hkey hknown] at hentry
        exact hlift entry (ih known seq entry hentry)
      | none =>
        rw [assign_new hkey hknown] at hentry
        rcases List.mem_cons.mp hentry with rfl | hentry
        · exact ⟨message, List.mem_cons_self, hkey⟩
        · exact hlift entry (ih _ (seq + 1) entry hentry)

/-- The identifier a key has after the batch: the known one, else the filled one. -/
def knownAfter (known : Bytes → Option ℤ) (seq : ℤ) (messages : List Publish)
    (key : Bytes) : Option ℤ :=
  (known key).or ((assign known seq messages).filled.lookup key)

/-- What is known after the whole batch is known after its rest. -/
theorem knownAfter_new (h : message.idempotencyKey = some key) (hk : known key = none) :
    knownAfter known seq (message :: rest) =
      knownAfter (Function.update known key (some (seq + 1))) (seq + 1) rest := by
  funext other
  unfold knownAfter
  rw [assign_new h hk, List.lookup_cons]
  by_cases hsame : other = key
  · subst hsame
    rw [Function.update_self, hk]
    simp
  · have hbeq : (other == key) = false := by simpa using hsame
    rw [Function.update_of_ne hsame, hbeq]

end Assign

section Schedule

/-- Functions that agree on a list traverse it with the same result. -/
theorem mapM_eq_of_forall {α β ε : Type} {f g : α → Except ε β} {xs : List α}
    (h : ∀ x ∈ xs, f x = g x) : xs.mapM f = xs.mapM g := by
  induction xs with
  | nil => rfl
  | cons x xs ih =>
    rw [List.mapM_cons, List.mapM_cons, h x List.mem_cons_self,
      ih fun y hy => h y (List.mem_cons_of_mem _ hy)]

/-- A position before the listed ones changes no outcome after it. -/
theorem outcomes_skip {rest : List Publish} {start : ℕ} {id : ℤ} {pairs : List (ℕ × ℤ)}
    {final : Ledger} :
    (rest.zipIdx (start + 1)).mapM (outcomeAt ((start, id) :: pairs) final) =
      (rest.zipIdx (start + 1)).mapM (outcomeAt pairs final) := by
  refine mapM_eq_of_forall fun position hposition => ?_
  have hge := List.le_snd_of_mem_zipIdx hposition
  have hne : (position.2 == start) = false := by
    have hne : position.2 ≠ start := by omega
    simpa using hne
  unfold outcomeAt
  rw [List.lookup_cons, hne]

/-- A position before all listed ones is not among them. -/
theorem lookup_positions {start : ℕ} {positions : List ℕ} {ids : List ℤ}
    (h : ∀ p ∈ positions, start + 1 ≤ p) : (positions.zip ids).lookup start = none := by
  refine List.lookup_eq_none_iff.mpr fun pair hpair => ?_
  have hmem := h pair.1 (List.of_mem_zip hpair).1
  have hne : start ≠ pair.1 := by omega
  simpa using hne

/-- What the scheduling loop picks from a position of the batch on, paired with the identifiers
handed out from there, is what the abstract publisher assigns to the rest of the batch. -/
structure Schedules (ledger : Ledger) (messages rest : List Publish) (start : ℕ)
    (known : Bytes → Option ℤ) (seq : ℤ) (keys : List Bytes) : Prop where
  stored : (schedule ledger (rest.zipIdx start) keys).2 = (assign known seq rest).stored
  length : (schedule ledger (rest.zipIdx start) keys).1.length =
    (assign known seq rest).stored.length
  later : ∀ p ∈ (schedule ledger (rest.zipIdx start) keys).1, start ≤ p
  filled : ((schedule ledger (rest.zipIdx start) keys).1.zip
    (idsFrom seq (assign known seq rest).stored.length)).filterMap (updateOf messages) =
      (assign known seq rest).filled
  outcomes : ∀ final : Ledger, (∀ m ∈ rest, ∀ key, m.idempotencyKey = some key →
      (final key).join = knownAfter known seq rest key) →
    (rest.zipIdx start).mapM (outcomeAt ((schedule ledger (rest.zipIdx start) keys).1.zip
      (idsFrom seq (assign known seq rest).stored.length)) final) =
        .ok (assign known seq rest).outcomes

section Rounds

variable {ledger : Ledger} {messages rest : List Publish} {message : Publish} {start : ℕ}
  {known : Bytes → Option ℤ} {seq : ℤ} {keys : List Bytes} {key : Bytes}

/-- A position that was picked is published under its identifier. -/
theorem outcomeAt_picked (start : ℕ) (id : ℤ) (pairs : List (ℕ × ℤ)) (final : Ledger)
    (message : Publish) :
    outcomeAt ((start, id) :: pairs) final (message, start) = .ok (.published id) := by
  unfold outcomeAt
  rw [List.lookup_cons_self]

theorem updateOf_position (hget : messages[start]? = some message) (id : ℤ) :
    updateOf messages (start, id) = message.idempotencyKey.map fun key => (key, id) := by
  unfold updateOf
  rw [hget, Option.bind_some]

/-- Picked positions stay behind the start when it is picked too. -/
theorem later_cons {positions : List ℕ} (h : ∀ p ∈ positions, start + 1 ≤ p) :
    ∀ p ∈ start :: positions, start ≤ p := by
  intro p hp
  rcases List.mem_cons.mp hp with rfl | hp
  · exact le_rfl
  · have hle := h p hp
    omega

/-- A message without a key is picked. -/
theorem Schedules.unkeyed (hkey : message.idempotencyKey = none)
    (hget : messages[start]? = some message)
    (h : Schedules ledger messages rest (start + 1) known (seq + 1) keys) :
    Schedules ledger messages (message :: rest) start known seq keys := by
  constructor
  all_goals
    simp only [List.zipIdx_cons, assign_unkeyed hkey, schedule, hkey, List.length_cons,
      idsFrom_succ, List.zip_cons_cons]
  · rw [h.stored]
  · rw [h.length]
  · exact later_cons h.later
  · have hnone : updateOf messages (start, seq + 1) = none := by
      rw [updateOf_position hget, hkey, Option.map_none]
    rw [List.filterMap_cons_none hnone, h.filled]
  · intro final hfinal
    have htail := h.outcomes final fun m hm key hk => by
      rw [hfinal m (List.mem_cons_of_mem _ hm) key hk, knownAfter, assign_unkeyed hkey, knownAfter]
    rw [List.mapM_cons, outcomeAt_picked, outcomes_skip, htail]
    rfl

/-- A message with a known key is a duplicate. -/
theorem Schedules.duplicate {id : ℤ} (hkey : message.idempotencyKey = some key)
    (hk : known key = some id) (hnot : ¬(ledger key = some none ∧ key ∉ keys))
    (h : Schedules ledger messages rest (start + 1) known seq keys) :
    Schedules ledger messages (message :: rest) start known seq keys := by
  constructor
  all_goals
    simp only [List.zipIdx_cons, assign_known hkey hk, schedule, hkey, if_neg hnot]
  · exact h.stored
  · exact h.length
  · exact fun p hp => Nat.le_of_succ_le (h.later p hp)
  · exact h.filled
  · intro final hfinal
    have htail := h.outcomes final fun m hm other ho => by
      rw [hfinal m (List.mem_cons_of_mem _ hm) other ho, knownAfter, assign_known hkey hk,
        knownAfter]
    have hfinalKey : (final key).join = some id := by
      rw [hfinal message List.mem_cons_self key hkey, knownAfter, hk, Option.some_or]
    have hhead : outcomeAt ((schedule ledger (rest.zipIdx (start + 1)) keys).1.zip
        (idsFrom seq (assign known seq rest).stored.length)) final (message, start) =
          .ok (.duplicate id) := by
      unfold outcomeAt
      rw [lookup_positions h.later, hkey]
      simp only [Option.bind_some, hfinalKey]
    rw [List.mapM_cons, hhead, htail]
    rfl

/-- A message with a new key is picked, and its key is known from then on. -/
theorem Schedules.fresh (hkey : message.idempotencyKey = some key) (hk : known key = none)
    (hyes : ledger key = some none ∧ key ∉ keys) (hget : messages[start]? = some message)
    (h : Schedules ledger messages rest (start + 1) (Function.update known key (some (seq + 1)))
      (seq + 1) (key :: keys)) :
    Schedules ledger messages (message :: rest) start known seq keys := by
  constructor
  all_goals
    simp only [List.zipIdx_cons, assign_new hkey hk, schedule, hkey, if_pos hyes,
      List.length_cons, idsFrom_succ, List.zip_cons_cons]
  · rw [h.stored]
  · rw [h.length]
  · exact later_cons h.later
  · have hfirst : updateOf messages (start, seq + 1) = some (key, seq + 1) := by
      rw [updateOf_position hget, hkey, Option.map_some]
    rw [List.filterMap_cons_some hfirst, h.filled]
  · intro final hfinal
    rw [knownAfter_new hkey hk] at hfinal
    have htail := h.outcomes final fun m hm => hfinal m (List.mem_cons_of_mem _ hm)
    rw [List.mapM_cons, outcomeAt_picked, outcomes_skip, htail]
    rfl

end Rounds

/-- The scheduling loop, the pairing of positions with identifiers and the
outcome map compute the abstract publisher. -/
theorem schedule_assign (ledger : Ledger) (messages rest : List Publish) (start : ℕ)
    (known : Bytes → Option ℤ) (seq : ℤ) (keys : List Bytes) (hdrop : messages.drop start = rest)
    (hknown : ∀ m ∈ rest, ∀ key, m.idempotencyKey = some key →
      (known key = none ↔ ledger key = some none ∧ key ∉ keys)) :
    Schedules ledger messages rest start known seq keys := by
  induction rest generalizing start known seq keys with
  | nil => exact ⟨rfl, rfl, fun p h => absurd h List.not_mem_nil, rfl, fun _ _ => rfl⟩
  | cons message rest ih =>
    have hdrop' : messages.drop (start + 1) = rest := by
      rw [← List.drop_drop, hdrop, List.drop_one, List.tail_cons]
    have hget : messages[start]? = some message := by
      rw [← List.head?_drop, hdrop, List.head?_cons]
    have hrest : ∀ m ∈ rest, ∀ key, m.idempotencyKey = some key →
        (known key = none ↔ ledger key = some none ∧ key ∉ keys) :=
      fun m hm => hknown m (List.mem_cons_of_mem _ hm)
    cases hkey : message.idempotencyKey with
    | none => exact .unkeyed hkey hget (ih (start + 1) known (seq + 1) keys hdrop' hrest)
    | some key =>
      have hiff := hknown message List.mem_cons_self key hkey
      cases hk : known key with
      | some id =>
        have hnot : ¬(ledger key = some none ∧ key ∉ keys) := by
          rw [← hiff, hk]
          exact Option.some_ne_none id
        exact .duplicate hkey hk hnot (ih (start + 1) known seq keys hdrop' hrest)
      | none =>
        have hrest' : ∀ m ∈ rest, ∀ other, m.idempotencyKey = some other →
            (Function.update known key (some (seq + 1)) other = none ↔
              ledger other = some none ∧ other ∉ key :: keys) := by
          intro m hm other ho
          by_cases hsame : other = key
          · rw [hsame, Function.update_self]
            exact iff_of_false (Option.some_ne_none _) fun h => h.2 List.mem_cons_self
          · rw [Function.update_of_ne hsame, hrest m hm other ho, List.mem_cons, not_or]
            exact and_congr_right fun _ => ⟨fun h => ⟨hsame, h⟩, And.right⟩
        exact .fresh hkey hk (hiff.mp hk) hget
          (ih (start + 1) (Function.update known key (some (seq + 1))) (seq + 1) (key :: keys)
            hdrop' hrest')

end Schedule

section Ledger

/-- The rows a batch claims for its keys. -/
def claimRow (expiresAt : ℤ) (key : Bytes) : IdempotencyRow := ⟨key, none, expiresAt⟩

/-- Claiming keys inserts a row for each key that has none. -/
theorem claimKeys_eq (expiresAt : ℤ) (db : Db) (keys : List Bytes) :
    claimKeys expiresAt db keys =
      { db with idempotency := db.idempotency.insertMany (keys.map (claimRow expiresAt)) } := by
  have hfold : keys.foldl (fun t key =>
    Table.insertIgnore t ⟨key, none, expiresAt⟩) db.idempotency =
      db.idempotency.insertMany (keys.map (claimRow expiresAt)) := List.foldl_map.symm
  rw [claimKeys, hfold]

/-- Where the chunks of a claim end does not matter. -/
theorem foldl_claimKeys (expiresAt : ℤ) (db : Db) (keys : List Bytes) {n : ℕ} (hn : 0 < n) :
    (chunks n keys).foldl (claimKeys expiresAt) db =
      { db with idempotency := db.idempotency.insertMany (keys.map (claimRow expiresAt)) } := by
  rw [foldl_chunks (fun _ => rfl) (fun s xs ys => ?_) hn, claimKeys_eq]
  simp only [claimKeys, List.foldl_append]

/-- What a key's row is after the claim. -/
theorem lookup_claimed (t : Table IdempotencyRow IdempotencyRow.key) (expiresAt : ℤ)
    (keys : List Bytes) (key : Bytes) :
    (t.insertMany (keys.map (claimRow expiresAt))).lookup key =
      (t.lookup key).or (if key ∈ keys then some (claimRow expiresAt key) else none) := by
  rw [Table.lookup_insertMany]
  congr 1
  induction keys with
  | nil => rfl
  | cons first keys ih =>
    rw [List.map_cons]
    by_cases hsame : (claimRow expiresAt first).key = key
    · have hfirst : first = key := hsame
      rw [List.find?_cons_of_pos (by simpa using hsame), hfirst, if_pos List.mem_cons_self]
    · have hne : ¬key = first := fun h => hsame h.symm
      rw [List.find?_cons_of_neg (by simpa using hsame), ih]
      simp only [List.mem_cons, hne, false_or]

/-- What the map holds for a key after reading rows with different keys. -/
theorem foldl_update (rows : List IdempotencyRow) (ledger : Ledger)
    (hn : (rows.map IdempotencyRow.key).Nodup) (key : Bytes) :
    rows.foldl (fun (ledger : Ledger) (row : IdempotencyRow) =>
        Function.update ledger row.key (some row.messageId)) ledger key =
      ((rows.find? fun row => row.key = key).map IdempotencyRow.messageId).or (ledger key) := by
  induction rows generalizing ledger with
  | nil => rfl
  | cons row rows ih =>
    obtain ⟨hrow, hrest⟩ := List.nodup_cons.mp hn
    rw [List.foldl_cons, ih _ hrest, List.find?_cons]
    by_cases hsame : row.key = key
    · have hnone : (rows.find? fun other => other.key = key) = none := by
        refine List.find?_eq_none.mpr fun other hother => ?_
        have hne : other.key ≠ key := fun h =>
          hrow (hsame ▸ h ▸ List.mem_map_of_mem hother)
        simpa using hne
      rw [hnone, hsame, Function.update_self]
      simp
    · have hne : key ≠ row.key := fun h => hsame h.symm
      rw [Function.update_of_ne hne]
      simp [hsame]

/-- What the map holds for a key after reading one chunk of keys. -/
theorem readKeys_apply (db : Db) (ledger : Ledger) (keys : List Bytes) (key : Bytes) :
    readKeys db ledger keys key =
      if key ∈ keys then ((db.idempotency.lookup key).map IdempotencyRow.messageId).or (ledger key)
      else ledger key := by
  have hn : ((db.idempotency.select fun row => decide (row.key ∈ keys)).map
      IdempotencyRow.key).Nodup :=
    List.pairwise_map.mpr ((db.idempotency.select_sorted _).imp fun h => h.ne)
  have hfind : ((db.idempotency.select fun row => decide (row.key ∈ keys)).find? fun row =>
      row.key = key) = if key ∈ keys then db.idempotency.lookup key else none := by
    rw [Table.select, List.find?_filter, Table.lookup]
    by_cases hmem : key ∈ keys
    · rw [if_pos hmem]
      congr 1
      funext row
      by_cases hsame : row.key = key
      · simp [hsame, hmem]
      · simp [hsame]
    · rw [if_neg hmem]
      refine List.find?_eq_none.mpr fun row _ => ?_
      by_cases hsame : row.key = key
      · simp [hsame, hmem]
      · simp [hsame]
  rw [readKeys, foldl_update _ _ hn, hfind]
  by_cases hmem : key ∈ keys
  · rw [if_pos hmem, if_pos hmem]
  · rw [if_neg hmem, if_neg hmem, Option.map_none, Option.none_or]

/-- Where the chunks of a read end does not matter. -/
theorem foldl_readKeys (db : Db) (ledger : Ledger) (keys : List Bytes) {n : ℕ} (hn : 0 < n) :
    (chunks n keys).foldl (readKeys db) ledger = readKeys db ledger keys := by
  refine foldl_chunks (fun s => ?_) (fun s xs ys => ?_) hn keys ledger
  · funext key
    rw [readKeys_apply, if_neg List.not_mem_nil]
  · funext key
    simp only [readKeys_apply, List.mem_append]
    by_cases hx : key ∈ xs
    · by_cases hy : key ∈ ys
      · simp only [hx, hy, or_self, if_true, ← Option.or_assoc, Option.or_self]
      · simp only [hx, hy, or_false, if_true, if_false]
    · simp only [hx, false_or, if_false]

/-- The rewrite of a ledger row by a batch's updates. -/
def fillRow (updates : List (Bytes × ℤ)) (row : IdempotencyRow) : IdempotencyRow :=
  match updates.lookup row.key with
  | some id => ⟨row.key, some id, row.expiresAt⟩
  | none => row

/-- One chunk of fills, at one key. -/
theorem lookup_fillKeys (db : Db) (updates : List (Bytes × ℤ)) (key : Bytes) :
    (fillKeys db updates).idempotency.lookup key =
      (db.idempotency.lookup key).map (fillRow updates) := by
  unfold fillKeys
  rw [Table.lookup_updateWhere]
  congr 1
  funext row
  unfold Table.rowUpdate fillRow
  cases hl : updates.lookup row.key with
  | none =>
    rw [if_neg]
    intro hany
    obtain ⟨update, hmem, hkey⟩ := List.any_eq_true.mp hany
    have hne := List.lookup_eq_none_iff.mp hl update hmem
    rw [beq_iff_eq] at hkey
    simp [hkey] at hne
  | some id =>
    have hany : (updates.any fun update => update.1 == row.key) = true :=
      List.any_eq_true.mpr ⟨(row.key, id), mem_of_lookup hl, beq_self_eq_true row.key⟩
    rw [if_pos hany]
    simp only [hl]

/-- Fills in sequence are one fill when no key is filled twice. -/
theorem lookup_foldl_fillKeys (batches : List (List (Bytes × ℤ))) (db : Db)
    (hn : (batches.flatten.map Prod.fst).Nodup) (key : Bytes) :
    (batches.foldl fillKeys db).idempotency.lookup key =
      (db.idempotency.lookup key).map (fillRow batches.flatten) := by
  induction batches generalizing db with
  | nil =>
    have hid : fillRow ([] : List (List (Bytes × ℤ))).flatten = id := rfl
    rw [hid, Option.map_id]
    rfl
  | cons updates batches ih =>
    rw [List.flatten_cons, List.map_append, List.nodup_append'] at hn
    obtain ⟨-, hrest, hdisjoint⟩ := hn
    rw [List.foldl_cons, ih _ hrest, lookup_fillKeys, Option.map_map, List.flatten_cons]
    congr 1
    funext row
    cases hl : updates.lookup row.key with
    | none => simp only [fillRow, Function.comp_apply, List.lookup_append, hl, Option.none_or]
    | some id =>
      have hnone : batches.flatten.lookup row.key = none := by
        refine List.lookup_eq_none_iff.mpr fun update hupdate => ?_
        have hmem : row.key ∈ updates.map Prod.fst := List.mem_map_of_mem (mem_of_lookup hl)
        have hne : row.key ≠ update.1 := fun h =>
          hdisjoint hmem (h ▸ List.mem_map_of_mem hupdate)
        simpa using hne
      simp only [fillRow, Function.comp_apply, List.lookup_append, hl, hnone, Option.some_or]

/-- Fills touch the ledger only. -/
theorem foldl_fillKeys_eq (batches : List (List (Bytes × ℤ))) (db : Db) :
    batches.foldl fillKeys db =
      { db with idempotency := (batches.foldl fillKeys db).idempotency } := by
  induction batches generalizing db with
  | nil => rfl
  | cons updates batches ih =>
    rw [List.foldl_cons, ih]
    rfl

/-- The map after the fills, at one key. -/
theorem foldl_recordFill (updates : List (Bytes × ℤ)) (ledger : Ledger)
    (hn : (updates.map Prod.fst).Nodup) (key : Bytes) :
    updates.foldl recordFill ledger key = ((updates.lookup key).map some).or (ledger key) := by
  induction updates generalizing ledger with
  | nil => rfl
  | cons update updates ih =>
    obtain ⟨hfirst, hrest⟩ := List.nodup_cons.mp hn
    rw [List.foldl_cons, ih _ hrest, List.lookup_cons, recordFill]
    by_cases hsame : key = update.1
    · have hnone : updates.lookup key = none := by
        refine List.lookup_eq_none_iff.mpr fun other hother => ?_
        have hne : key ≠ other.1 := fun h => hfirst (hsame ▸ h ▸ List.mem_map_of_mem hother)
        simpa using hne
      rw [hnone, hsame, Function.update_self]
      simp
    · have hbeq : (key == update.1) = false := by simpa using hsame
      rw [Function.update_of_ne hsame, hbeq]

end Ledger

section Log

/-- Two inserts in sequence are one. -/
theorem insertMessages_append (db : Db) (xs ys : List Publish) (publishedAt : ℤ) :
    (insertMessages (insertMessages db xs publishedAt).1 ys publishedAt).1 =
      (insertMessages db (xs ++ ys) publishedAt).1 := by
  have happ : (insertMessages (insertMessages db xs publishedAt).1 ys publishedAt).1.messages =
      (insertMessages db (xs ++ ys) publishedAt).1.messages :=
    (AutoTable.appendAll_append db.messages xs ys).symm
  simp only [insertMessages] at happ ⊢
  rw [happ]

/-- No messages change nothing. -/
theorem insertMessages_nil (db : Db) (publishedAt : ℤ) :
    (insertMessages db [] publishedAt).1 = db := rfl

/-- Inserting chunk by chunk stores all messages and collects their identifiers. -/
theorem foldl_insertMessageChunk (e : Engine) (publishedAt : ℤ) (batches : List (List Publish))
    (db : Db) (ids : List ℤ) :
    ∃ fresh, batches.foldl (insertMessageChunk e publishedAt) (db, ids) =
        ((insertMessages db batches.flatten publishedAt).1, ids ++ fresh) ∧
      fresh.Perm (idsFrom db.messages.seq batches.flatten.length) := by
  induction batches generalizing db ids with
  | nil =>
    refine ⟨[], ?_, List.Perm.refl _⟩
    rw [List.foldl_nil, List.flatten_nil, insertMessages_nil, List.append_nil]
  | cons messages batches ih =>
    obtain ⟨fresh, hfold, hperm⟩ := ih (insertMessages db messages publishedAt).1
      (ids ++ e.returning (insertMessages db messages publishedAt).2)
    refine ⟨e.returning (insertMessages db messages publishedAt).2 ++ fresh, ?_, ?_⟩
    · rw [List.foldl_cons]
      refine hfold.trans ?_
      rw [insertMessages_append, List.flatten_cons, List.append_assoc]
    · have hadd : db.messages.freshKeys messages.length ++
          (insertMessages db messages publishedAt).1.messages.freshKeys batches.flatten.length =
            db.messages.freshKeys (messages.length + batches.flatten.length) :=
        AutoTable.freshKeys_add db.messages messages batches.flatten.length
      have hboth := ((e.returning_perm (insertMessages db messages publishedAt).2).append hperm)
      rw [List.flatten_cons, List.length_append]
      exact hboth.trans (List.Perm.of_eq hadd)

/-- The log insert stores all messages in order and returns their identifiers in order. -/
theorem insertMessageRows_eq (e : Engine) (db : Db) (messages : List Publish) (publishedAt : ℤ) :
    insertMessageRows e db messages publishedAt =
      ((insertMessages db messages publishedAt).1, idsFrom db.messages.seq messages.length) := by
  obtain ⟨fresh, hfold, hperm⟩ :=
    foldl_insertMessageChunk e publishedAt (chunks publishesPerChunk messages) db []
  have hflat := flatten_chunks (by decide : 0 < publishesPerChunk) messages
  rw [hflat, List.nil_append] at hfold
  rw [hflat] at hperm
  have hsort : sortBy id fresh = idsFrom db.messages.seq messages.length :=
    sortBy_eq_of_perm hperm (AutoTable.freshKeys_sorted db.messages messages.length)
  simp only [insertMessageRows, hfold, hsort]

end Log

section Batch

/-- The identifier the ledger knows for a key. -/
def known (db : Db) (key : Bytes) : Option ℤ :=
  (db.idempotency.lookup key).bind IdempotencyRow.messageId

/-- Fill one entry: a new row expires at the given reading, an old one keeps its expiry. -/
def fillEntry (expiresAt : ℤ) (t : Table IdempotencyRow IdempotencyRow.key) (entry : Bytes × ℤ) :
    Table IdempotencyRow IdempotencyRow.key :=
  (t.insertIgnore (claimRow expiresAt entry.1)).mapRows (fillRow [entry]) fun row => by
    unfold fillRow
    split <;> rfl

/-- Fill entries one after the other. -/
def fillTable (expiresAt : ℤ) (t : Table IdempotencyRow IdempotencyRow.key)
    (entries : List (Bytes × ℤ)) : Table IdempotencyRow IdempotencyRow.key :=
  entries.foldl (fillEntry expiresAt) t

/-- The database a batch leaves. -/
def publishedDb (publishedAt expiresAt : ℤ) (db : Db) (result : Assigned) : Db :=
  { (insertMessages db result.stored publishedAt).1 with
    idempotency := fillTable expiresAt db.idempotency result.filled }

/-- The ledger a batch starts from: a batch with a key first drops expired entries. -/
def ledgerAt (publishedAt : ℤ) (db : Db) (messages : List Publish) : Db :=
  if messages.all fun message => message.idempotencyKey.isNone then db
  else purgeExpiredIdempotency db publishedAt

/-- What the abstract publisher makes of a batch. -/
def assigned (publishedAt : ℤ) (db : Db) (messages : List Publish) : Assigned :=
  assign (known (ledgerAt publishedAt db messages)) db.messages.seq messages

/-- A batch first touches nothing but the ledger, and only drops entries there. -/
theorem ledgerAt_parts (publishedAt : ℤ) (db : Db) (messages : List Publish) :
    (ledgerAt publishedAt db messages).messages = db.messages ∧
      (ledgerAt publishedAt db messages).consumers = db.consumers ∧
      (ledgerAt publishedAt db messages).deliveries = db.deliveries ∧
      (ledgerAt publishedAt db messages).archives = db.archives ∧
      ∀ row ∈ (ledgerAt publishedAt db messages).idempotency, row ∈ db.idempotency := by
  unfold ledgerAt
  split
  · exact ⟨rfl, rfl, rfl, rfl, fun _ h => h⟩
  · exact ⟨rfl, rfl, rfl, rfl, fun _ h => (Table.mem_deleteWhere.mp h).1⟩

/-- The log a batch leaves: its stored messages are appended. -/
theorem publishedDb_messages (publishedAt expiresAt : ℤ) (db : Db) (messages : List Publish) :
    (publishedDb publishedAt expiresAt (ledgerAt publishedAt db messages)
      (assigned publishedAt db messages)).messages =
        db.messages.appendAll (messageRow publishedAt) (messageRow_id publishedAt)
          (assigned publishedAt db messages).stored := by
  obtain ⟨hmessages, -⟩ := ledgerAt_parts publishedAt db messages
  rw [← hmessages]
  rfl

/-- The row of a key after one fill. -/
theorem lookup_fillEntry (expiresAt : ℤ) (t : Table IdempotencyRow IdempotencyRow.key)
    (entry : Bytes × ℤ) (key : Bytes) :
    (fillEntry expiresAt t entry).lookup key =
      if key = entry.1 then
        some ⟨key, some entry.2, ((t.lookup key).map IdempotencyRow.expiresAt).getD expiresAt⟩
      else t.lookup key := by
  have hone : ∀ k, [entry].lookup k = if k = entry.1 then some entry.2 else none := by
    intro k
    rw [List.lookup_cons]
    by_cases h : k = entry.1
    · simp [h]
    · have hbeq : (k == entry.1) = false := by simpa using h
      rw [hbeq, if_neg h]
      rfl
  unfold fillEntry
  rw [Table.lookup_mapRows, Table.lookup_insertIgnore]
  by_cases hsame : key = entry.1
  · rw [if_pos hsame]
    cases hl : t.lookup key with
    | none =>
      have hclaim : (claimRow expiresAt entry.1).key = key := hsame.symm
      rw [if_pos ⟨hclaim, rfl⟩]
      simp [fillRow, claimRow, hsame, hone]
    | some row =>
      have hkey : row.key = key := (Table.lookup_eq_some.mp hl).2
      have hno : ¬((claimRow expiresAt entry.1).key = key ∧ some row = none) :=
        fun h => by cases h.2
      rw [if_neg hno]
      simp [fillRow, hkey, hsame, hone]
  · have hno : ¬((claimRow expiresAt entry.1).key = key ∧ t.lookup key = none) :=
      fun h => hsame h.1.symm
    rw [if_neg hsame, if_neg hno]
    cases hl : t.lookup key with
    | none => rfl
    | some row =>
      have hkey : row.key = key := (Table.lookup_eq_some.mp hl).2
      simp [fillRow, hone, hkey, hsame]

/-- The row of a key after all fills. -/
theorem lookup_fillTable (expiresAt : ℤ) (t : Table IdempotencyRow IdempotencyRow.key)
    (entries : List (Bytes × ℤ)) (hn : (entries.map Prod.fst).Nodup) (key : Bytes) :
    (fillTable expiresAt t entries).lookup key =
      match entries.lookup key with
      | some id => some ⟨key, some id, ((t.lookup key).map IdempotencyRow.expiresAt).getD expiresAt⟩
      | none => t.lookup key := by
  induction entries generalizing t with
  | nil => rfl
  | cons entry entries ih =>
    obtain ⟨hfirst, hrest⟩ := List.nodup_cons.mp hn
    have hcons : fillTable expiresAt t (entry :: entries) =
        fillTable expiresAt (fillEntry expiresAt t entry) entries := rfl
    rw [hcons, ih _ hrest, List.lookup_cons, lookup_fillEntry]
    by_cases hsame : key = entry.1
    · have hnone : entries.lookup key = none := by
        refine List.lookup_eq_none_iff.mpr fun other hother => ?_
        have hne : key ≠ other.1 := fun h => hfirst (hsame ▸ h ▸ List.mem_map_of_mem hother)
        simpa using hne
      rw [hnone, if_pos hsame]
      simp [hsame]
    · have hbeq : (key == entry.1) = false := by simpa using hsame
      rw [if_neg hsame, hbeq]

/-- Filling the claimed rows is filling the rows of the new keys alone: a claimed key that has
no row is filled. -/
theorem claimed_filled {expiresAt : ℤ} {t : Table IdempotencyRow IdempotencyRow.key}
    {keys : List Bytes} {filled : List (Bytes × ℤ)} {db : Db}
    (htable : db.idempotency = t.insertMany (keys.map (claimRow expiresAt)))
    (hn : (filled.map Prod.fst).Nodup) (hkeys : ∀ entry ∈ filled, entry.1 ∈ keys)
    (hcovers : ∀ key ∈ keys, t.lookup key = none → ∃ id, (key, id) ∈ filled) :
    ((chunks (maxSqlVariables / 2) filled).foldl fillKeys db).idempotency =
      fillTable expiresAt t filled := by
  have hflat := flatten_chunks (by decide : 0 < maxSqlVariables / 2) filled
  refine Table.ext_lookup fun key => ?_
  rw [lookup_foldl_fillKeys _ _ (by rw [hflat]; exact hn), hflat, htable, lookup_claimed,
    lookup_fillTable _ _ _ hn]
  cases hfill : filled.lookup key with
  | some id =>
    rw [if_pos (hkeys _ (mem_of_lookup hfill))]
    cases hl : t.lookup key with
    | none => simp [fillRow, claimRow, hfill]
    | some row =>
      have hkey : row.key = key := (Table.lookup_eq_some.mp hl).2
      simp [fillRow, hkey, hfill]
  | none =>
    cases hl : t.lookup key with
    | some row =>
      have hkey : row.key = key := (Table.lookup_eq_some.mp hl).2
      simp [fillRow, hkey, hfill]
    | none =>
      have hout : key ∉ keys := by
        intro hmem
        obtain ⟨id, hid⟩ := hcovers key hmem hl
        have hno := List.lookup_eq_none_iff.mp hfill (key, id) hid
        simp at hno
      rw [if_neg hout]
      rfl

/-- Claim, read, schedule, insert and fill together are the abstract publisher. -/
theorem publishKeyed (e : Engine) (messages : List Publish) (publishedAt expiresAt : ℤ) (db : Db) :
    let result := assign (known db) db.messages.seq messages
    let uniqueKeys := e.hashOrder (messages.filterMap Publish.idempotencyKey)
    let claimed := (chunks (maxSqlVariables / 2) uniqueKeys).foldl (claimKeys expiresAt) db
    let ledger := (chunks maxSqlVariables uniqueKeys).foldl (readKeys claimed) fun _ => none
    let scheduled := schedule ledger messages.zipIdx []
    let inserted := insertMessageRows e claimed scheduled.2 publishedAt
    let publishedIds := scheduled.1.zip inserted.2
    let updates := publishedIds.filterMap (updateOf messages)
    (chunks (maxSqlVariables / 2) updates).foldl fillKeys inserted.1 =
        publishedDb publishedAt expiresAt db result ∧
      messages.zipIdx.mapM (outcomeAt publishedIds (updates.foldl recordFill ledger)) =
        .ok result.outcomes := by
  intro result uniqueKeys claimed ledger scheduled inserted publishedIds updates
  have hkeys : ∀ key, key ∈ uniqueKeys ↔ ∃ m ∈ messages, m.idempotencyKey = some key := by
    intro key
    rw [(e.hashOrder_perm _).mem_iff, List.mem_dedup, List.mem_filterMap]
  have hclaimed : claimed = { db with
      idempotency := db.idempotency.insertMany (uniqueKeys.map (claimRow expiresAt)) } :=
    foldl_claimKeys expiresAt db uniqueKeys (by decide)
  have hledger : ∀ key ∈ uniqueKeys, ledger key = some (known db key) := by
    intro key hkey
    have hread : ledger = readKeys claimed (fun _ => none) uniqueKeys :=
      foldl_readKeys claimed (fun _ => none) uniqueKeys (by decide)
    rw [hread, readKeys_apply, if_pos hkey, hclaimed, lookup_claimed, if_pos hkey, Option.or_none]
    unfold known
    cases db.idempotency.lookup key with
    | none => rfl
    | some row => rfl
  have hschedule := schedule_assign ledger messages messages 0 (known db) db.messages.seq []
    List.drop_zero fun m hm key hkey => by
      rw [hledger key ((hkeys key).mpr ⟨m, hm, hkey⟩), Option.some_inj]
      exact ⟨fun h => ⟨h, List.not_mem_nil⟩, And.left⟩
  obtain ⟨hstored, -, -, hfilled, houtcomes⟩ := hschedule
  have hn : (result.filled.map Prod.fst).Nodup := assign_filled_nodup _ _ _
  have hinserted : inserted = ((insertMessages claimed result.stored publishedAt).1,
      idsFrom db.messages.seq result.stored.length) := by
    have hrows := insertMessageRows_eq e claimed scheduled.2 publishedAt
    have hseq : claimed.messages.seq = db.messages.seq := by rw [hclaimed]
    rw [hseq] at hrows
    rw [show inserted = _ from hrows]
    change ((insertMessages claimed scheduled.2 publishedAt).1, _) = _
    rw [show scheduled.2 = result.stored from hstored]
  have hids : publishedIds = scheduled.1.zip (idsFrom db.messages.seq result.stored.length) := by
    change scheduled.1.zip inserted.2 = _
    rw [hinserted]
  have hupdates : updates = result.filled := by
    change publishedIds.filterMap (updateOf messages) = _
    rw [hids]
    exact hfilled
  constructor
  · have hidempotency : inserted.1.idempotency =
        db.idempotency.insertMany (uniqueKeys.map (claimRow expiresAt)) := by
      rw [hinserted]
      change claimed.idempotency = _
      rw [hclaimed]
    have hfilledKeys : ∀ entry ∈ result.filled, entry.1 ∈ uniqueKeys := fun entry hentry =>
      (hkeys entry.1).mpr (assign_filled_mem _ _ _ _ hentry)
    have hcovers : ∀ key ∈ uniqueKeys, db.idempotency.lookup key = none →
        ∃ id, (key, id) ∈ result.filled := by
      intro key hmem hnone
      obtain ⟨m, hm, hkey⟩ := (hkeys key).mp hmem
      refine (assign_covers (known db) db.messages.seq messages m hm key hkey).resolve_left ?_
      rw [not_not, known, hnone]
      rfl
    rw [foldl_fillKeys_eq, hupdates, claimed_filled hidempotency hn hfilledKeys hcovers, hinserted]
    simp only [publishedDb, insertMessages, hclaimed]
  · rw [hids, hupdates]
    refine houtcomes _ fun m hm key hkey => ?_
    rw [foldl_recordFill _ _ hn, hledger key ((hkeys key).mpr ⟨m, hm, hkey⟩), knownAfter]
    change ((result.filled.lookup key).map some |>.or (some (known db key))).join =
      (known db key).or (result.filled.lookup key)
    cases hfill : result.filled.lookup key with
    | none => simp
    | some id =>
      have hnone : known db key = none := (assign_filled _ _ _ _ (mem_of_lookup hfill)).1
      simp [hnone]

/-- A batch inside the limit does what the abstract publisher says; only a keyed
batch needs its expiry in range. -/
theorem publishBatch_eq (e : Engine) {fan : Inner} {messages : List Publish}
    {publishedAt : ℤ} {db : Db}
    (hpos : messages ≠ []) (hle : messages.length ≤ fan.maxBatchSize)
    (hexpiry : (∀ m ∈ messages, m.idempotencyKey = none) ∨
      checkedAdd publishedAt fan.idempotencyWindowMs =
        .ok (publishedAt + fan.idempotencyWindowMs)) :
    publishBatch e fan messages publishedAt db =
      .ok (publishedDb publishedAt (publishedAt + fan.idempotencyWindowMs)
          (ledgerAt publishedAt db messages) (assigned publishedAt db messages),
        (assigned publishedAt db messages).outcomes) := by
  unfold publishBatch
  rw [if_neg (by simpa using hpos), ensureBatchSize_ok.mpr hle]
  unfold assigned ledgerAt
  by_cases hall : (messages.all fun message => message.idempotencyKey.isNone) = true
  · have hnone : ∀ m ∈ messages, m.idempotencyKey = none := by
      intro m hm
      simpa using List.all_eq_true.mp hall m hm
    have hplain : (assign (known db) db.messages.seq messages).filled = [] ∧
        (assign (known db) db.messages.seq messages).stored = messages := assign_all_unkeyed hnone
    obtain ⟨hfilled, hstored⟩ := hplain
    rw [if_pos hall]
    simp only [bind, Except.bind, if_pos hall]
    have houtcomes : (assign (known db) db.messages.seq messages).outcomes =
        (idsFrom db.messages.seq messages.length).map .published := assign_outcomes_unkeyed hnone
    rw [publishUnkeyedBatch, insertMessageRows_eq, houtcomes, publishedDb, hstored, hfilled]
    rfl
  · have hexp : checkedAdd publishedAt fan.idempotencyWindowMs =
        .ok (publishedAt + fan.idempotencyWindowMs) := by
      rcases hexpiry with hnone | hexp
      · exact absurd (List.all_eq_true.mpr fun m hm => by rw [hnone m hm]; rfl) hall
      · exact hexp
    obtain ⟨hdb, houtcomes⟩ := publishKeyed e messages publishedAt
      (publishedAt + fan.idempotencyWindowMs) (purgeExpiredIdempotency db publishedAt)
    rw [if_neg hall]
    simp only [bind, Except.bind, if_neg hall, hexp]
    rw [houtcomes, hdb]
    rfl

/-- Why a publish is refused, which its arguments decide. -/
def publishRefusal (fan : Inner) (messages : List Publish) (now : ℤ) : Option Error :=
  if fan.maxBatchSize < messages.length then
    some (.batchTooLarge messages.length fan.maxBatchSize)
  else if messages.all fun message => message.idempotencyKey.isNone then none
  else
    match checkedAdd now fan.idempotencyWindowMs with
    | .ok _ => none
    | .error err => some err

/-- A publish that is not refused, from the database it leaves. -/
def publishing (fan : Inner) (messages : List Publish) (now : ℤ) (db : Db) : Db :=
  publishedDb now (now + fan.idempotencyWindowMs) (ledgerAt now db messages)
    (assigned now db messages)

/-- The rows a publish adds to the log. -/
def newRows (publishedAt : ℤ) (messages : List Publish) (db : Db) : List Message :=
  List.zipWith (messageRow publishedAt) (assigned publishedAt db messages).stored
    (db.messages.freshKeys (assigned publishedAt db messages).stored.length)

/-- The log a batch leaves, row by row. -/
theorem publishedDb_rows (publishedAt expiresAt : ℤ) (db : Db) (messages : List Publish) :
    (publishedDb publishedAt expiresAt (ledgerAt publishedAt db messages)
      (assigned publishedAt db messages)).messages.table.rows =
        db.messages.table.rows ++ newRows publishedAt messages db := by
  rw [publishedDb_messages, AutoTable.appendAll_rows, newRows]

/-- A new row has an identifier that was not assigned before. -/
theorem lt_of_newRows {publishedAt : ℤ} {messages : List Publish} {db : Db} {message : Message}
    (h : message ∈ newRows publishedAt messages db) : db.messages.seq < message.id := by
  rw [newRows, ← List.map_uncurry_zip_eq_zipWith] at h
  obtain ⟨⟨stored, id⟩, hmem, rfl⟩ := List.mem_map.mp h
  exact (AutoTable.mem_freshKeys.mp (List.of_mem_zip hmem).2).1

/-- A publish stores its batch or is refused for its arguments. -/
theorem publishBatch_cases (e : Engine) (fan : Inner) (messages : List Publish) (now : ℤ)
    (db : Db) : publishBatch e fan messages now db =
      match publishRefusal fan messages now with
      | some err => .error err
      | none => .ok (publishing fan messages now db, (assigned now db messages).outcomes) := by
  unfold publishRefusal
  by_cases hempty : messages = []
  · subst hempty
    rw [if_neg (by simp), if_pos (by rfl)]
    rfl
  · by_cases hle : messages.length ≤ fan.maxBatchSize
    · rw [if_neg (not_lt.mpr hle)]
      by_cases hall : (messages.all fun message => message.idempotencyKey.isNone) = true
      · rw [if_pos hall]
        refine publishBatch_eq e hempty hle (.inl fun message hmessage => ?_)
        exact Option.isNone_iff_eq_none.mp (List.all_eq_true.mp hall message hmessage)
      · rw [if_neg hall]
        cases hexpiry : checkedAdd now fan.idempotencyWindowMs with
        | ok expiresAt =>
          exact publishBatch_eq e hempty hle (.inr (by rw [hexpiry, checkedAdd_ok hexpiry]))
        | error err =>
          unfold publishBatch
          rw [if_neg (by simpa using hempty), ensureBatchSize_ok.mpr hle]
          simp only [bind, Except.bind, if_neg hall, hexpiry]
    · rw [if_pos (not_le.mp hle), publishBatch, if_neg (by simpa using hempty),
        ensureBatchSize_error (not_le.mp hle)]
      rfl

/-- A batch that succeeds did what the abstract publisher says. -/
theorem publishBatch_ok {e : Engine} {fan : Inner} {messages : List Publish} {publishedAt : ℤ}
    {db db' : Db} {outcomes : List PublishOutcome}
    (h : publishBatch e fan messages publishedAt db = .ok (db', outcomes)) :
    messages.length ≤ fan.maxBatchSize ∧
    db' = publishedDb publishedAt (publishedAt + fan.idempotencyWindowMs)
        (ledgerAt publishedAt db messages) (assigned publishedAt db messages) ∧
      outcomes = (assigned publishedAt db messages).outcomes := by
  rw [publishBatch_cases] at h
  cases hrefusal : publishRefusal fan messages publishedAt with
  | some err =>
    rw [hrefusal] at h
    cases h
  | none =>
    rw [hrefusal] at h
    cases h
    refine ⟨?_, rfl, rfl⟩
    by_contra hlarge
    rw [publishRefusal, if_pos (not_le.mp hlarge)] at hrefusal
    cases hrefusal

end Batch

end LiteFan.Effect

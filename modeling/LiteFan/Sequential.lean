import LiteFan.Effect.Publishing
import LiteFan.System

/-!
# A batch publish equals publishing one by one

The batch path works on sets: it claims every key at once, schedules first
occurrences, inserts in chunks and fills the ledger afterwards. At one clock
reading that is the same as publishing each message on its own, in order.
-/

namespace LiteFan.Sequential

open LiteFan.Api LiteFan.Time LiteFan.Schema LiteFan.Storage LiteFan.Store LiteFan.System
open LiteFan.Effect Relational

/-- Publish messages one by one at one clock reading, each call over an engine of its own. -/
def publishEach (fan : Inner) (publishedAt : ℤ) :
    List (Engine × Publish) → Transaction (List PublishOutcome)
  | [], db => .ok (db, [])
  | (e, message) :: rest, db => do
    let first ← publish e fan message publishedAt db
    let others ← publishEach fan publishedAt rest first.1
    return (others.1, first.2 :: others.2)

/-- The database a batch leaves, from the one it starts on. -/
def batchDb (publishedAt expiresAt : ℤ) (db : Db) (messages : List Publish) : Db :=
  publishedDb publishedAt expiresAt (ledgerAt publishedAt db messages)
    (assigned publishedAt db messages)

section Ledger

variable {publishedAt expiresAt : ℤ} {db : Db} {message : Publish} {rest : List Publish}
    {key : Bytes}

/-- A batch with a key starts from the purged ledger. -/
theorem ledgerAt_keyed (h : message.idempotencyKey = some key) :
    ledgerAt publishedAt db (message :: rest) = purgeExpiredIdempotency db publishedAt := by
  simp [ledgerAt, h]

/-- A message without a key does not decide whether the ledger is purged. -/
theorem ledgerAt_unkeyed (h : message.idempotencyKey = none) :
    ledgerAt publishedAt db (message :: rest) = ledgerAt publishedAt db rest := by
  simp [ledgerAt, h]

/-- A ledger without expired entries is left as it is. -/
theorem ledgerAt_of_unexpired (h : ∀ row ∈ db.idempotency, publishedAt < row.expiresAt)
    (messages : List Publish) : ledgerAt publishedAt db messages = db := by
  have hpurged : purgeExpiredIdempotency db publishedAt = db := by
    rw [purgeExpiredIdempotency, Table.deleteWhere_eq_self fun row hrow =>
      decide_eq_false (not_le.mpr (h row hrow))]
  rw [ledgerAt, hpurged, ite_self]

/-- A purge leaves no expired entry. -/
theorem unexpired_purged (db : Db) (publishedAt : ℤ) :
    ∀ row ∈ (purgeExpiredIdempotency db publishedAt).idempotency, publishedAt < row.expiresAt := by
  intro row hrow
  have hkept := (Table.mem_deleteWhere.mp hrow).2
  exact not_le.mp (of_decide_eq_false hkept)

/-- A filled entry expires with its window, or with the window it had. -/
theorem unexpired_filled {t : Table IdempotencyRow IdempotencyRow.key} {entry : Bytes × ℤ}
    (ht : ∀ row ∈ t, publishedAt < row.expiresAt) (hwindow : publishedAt < expiresAt) :
    ∀ row ∈ fillEntry expiresAt t entry, publishedAt < row.expiresAt := by
  intro row hrow
  have hlookup := Table.lookup_key hrow
  rw [lookup_fillEntry] at hlookup
  split_ifs at hlookup with hsame
  · rw [← Option.some_inj.mp hlookup]
    cases hold : t.lookup row.key with
    | none => exact hwindow
    | some old => exact ht old (Table.lookup_eq_some.mp hold).1
  · exact ht row (Table.lookup_eq_some.mp hlookup).1

/-- What is known after one fill. -/
theorem known_filled (id : ℤ) (messages : AutoTable Message Message.id) :
    known { db with
      messages := messages
      idempotency := fillEntry expiresAt db.idempotency (key, id) } =
      Function.update (known db) key (some id) := by
  funext other
  unfold known
  rw [lookup_fillEntry, Function.update_apply]
  split_ifs with hsame
  · rfl
  · rfl

end Ledger

section Step

variable {publishedAt expiresAt : ℤ} {db : Db} {message : Publish} {rest : List Publish}

/-- What publishing the first message on its own and then the rest has in common
with publishing the batch. -/
structure Splits (publishedAt expiresAt : ℤ) (db : Db) (message : Publish) (rest : List Publish) :
    Prop where
  outcomes : ∃ outcome, (assigned publishedAt db [message]).outcomes = [outcome] ∧
    (assigned publishedAt db (message :: rest)).outcomes =
      outcome :: (assigned publishedAt (batchDb publishedAt expiresAt db [message]) rest).outcomes
  database : batchDb publishedAt expiresAt db (message :: rest) =
    batchDb publishedAt expiresAt (batchDb publishedAt expiresAt db [message]) rest

/-- A message without a key is published under the next identifier either way. -/
theorem splits_unkeyed (hkey : message.idempotencyKey = none) :
    Splits publishedAt expiresAt db message rest := by
  have hfirst : batchDb publishedAt expiresAt db [message] =
      (insertMessages db [message] publishedAt).1 := by
    unfold batchDb assigned
    rw [ledgerAt_unkeyed hkey, assign_unkeyed hkey]
    rfl
  have hledger : ledgerAt publishedAt (insertMessages db [message] publishedAt).1 rest =
      (insertMessages (ledgerAt publishedAt db rest) [message] publishedAt).1 := by
    unfold ledgerAt
    split
    · rfl
    · rfl
  have hbatch : assigned publishedAt db (message :: rest) =
      assign (known (ledgerAt publishedAt db rest)) db.messages.seq (message :: rest) := by
    rw [assigned, ledgerAt_unkeyed hkey]
  have hrest : assigned publishedAt (insertMessages db [message] publishedAt).1 rest =
      assign (known (ledgerAt publishedAt db rest)) (db.messages.seq + 1) rest := by
    rw [assigned, hledger]
    rfl
  refine ⟨⟨.published (db.messages.seq + 1), ?_, ?_⟩, ?_⟩
  · rw [assigned, assign_unkeyed hkey]
    rfl
  · rw [hfirst, hbatch, hrest, assign_unkeyed hkey]
  · rw [hfirst, batchDb, batchDb, hbatch, hrest, hledger, ledgerAt_unkeyed hkey,
      assign_unkeyed hkey]
    rfl

/-- A key the ledger knows is a duplicate either way. -/
theorem splits_known {key : Bytes} {id : ℤ} (hkey : message.idempotencyKey = some key)
    (hknown : known (purgeExpiredIdempotency db publishedAt) key = some id) :
    Splits publishedAt expiresAt db message rest := by
  have hone : assigned publishedAt db [message] = ⟨[.duplicate id], [], []⟩ := by
    rw [assigned, ledgerAt_keyed hkey, assign_known hkey hknown]
    rfl
  have hfirst : batchDb publishedAt expiresAt db [message] =
      purgeExpiredIdempotency db publishedAt := by
    rw [batchDb, hone, ledgerAt_keyed hkey]
    rfl
  have hledger := ledgerAt_of_unexpired (unexpired_purged db publishedAt) rest
  have hrest : assigned publishedAt (purgeExpiredIdempotency db publishedAt) rest =
      assign (known (purgeExpiredIdempotency db publishedAt)) db.messages.seq rest := by
    rw [assigned, hledger]
    rfl
  have hbatch : assigned publishedAt db (message :: rest) =
      assign (known (purgeExpiredIdempotency db publishedAt)) db.messages.seq
        (message :: rest) := by
    rw [assigned, ledgerAt_keyed hkey]
  refine ⟨⟨.duplicate id, by rw [hone], ?_⟩, ?_⟩
  · rw [hfirst, hbatch, hrest, assign_known hkey hknown]
  · rw [hfirst, batchDb, batchDb, hbatch, hrest, hledger, ledgerAt_keyed hkey,
      assign_known hkey hknown]
    rfl

/-- A key the ledger does not know is published and known from then on either way. -/
theorem splits_new {key : Bytes} (hwindow : publishedAt < expiresAt)
    (hkey : message.idempotencyKey = some key)
    (hnew : known (purgeExpiredIdempotency db publishedAt) key = none) :
    Splits publishedAt expiresAt db message rest := by
  have hone : assigned publishedAt db [message] =
      ⟨[.published (db.messages.seq + 1)], [message], [(key, db.messages.seq + 1)]⟩ := by
    rw [assigned, ledgerAt_keyed hkey, assign_new hkey hnew]
    rfl
  have hledger : ledgerAt publishedAt (batchDb publishedAt expiresAt db [message]) rest =
      batchDb publishedAt expiresAt db [message] := by
    refine ledgerAt_of_unexpired (fun row hrow => ?_) rest
    rw [batchDb, hone, ledgerAt_keyed hkey] at hrow
    exact unexpired_filled (unexpired_purged db publishedAt) hwindow row hrow
  have hknown : known (batchDb publishedAt expiresAt db [message]) =
      Function.update (known (purgeExpiredIdempotency db publishedAt)) key
        (some (db.messages.seq + 1)) := by
    rw [batchDb, hone, ledgerAt_keyed hkey]
    exact known_filled _ _
  have hseq : (batchDb publishedAt expiresAt db [message]).messages.seq = db.messages.seq + 1 := by
    rw [batchDb, hone, ledgerAt_keyed hkey]
    rfl
  have hrest : assigned publishedAt (batchDb publishedAt expiresAt db [message]) rest =
      assign (Function.update (known (purgeExpiredIdempotency db publishedAt)) key
        (some (db.messages.seq + 1))) (db.messages.seq + 1) rest := by
    rw [assigned, hledger, hknown, hseq]
  have hbatch : assigned publishedAt db (message :: rest) =
      assign (known (purgeExpiredIdempotency db publishedAt)) db.messages.seq
        (message :: rest) := by
    rw [assigned, ledgerAt_keyed hkey]
  refine ⟨⟨.published (db.messages.seq + 1), by rw [hone], ?_⟩, ?_⟩
  · rw [hbatch, hrest, assign_new hkey hnew]
  · rw [batchDb, hbatch, batchDb, hledger, hrest, ledgerAt_keyed hkey, assign_new hkey hnew,
      batchDb, hone,
      ledgerAt_keyed hkey]
    rfl

/-- The first message of a batch can be published on its own. -/
theorem batch_splits (hwindow : publishedAt < expiresAt) (db : Db) (message : Publish)
    (rest : List Publish) : Splits publishedAt expiresAt db message rest := by
  cases hkey : message.idempotencyKey with
  | none => exact splits_unkeyed hkey
  | some key =>
    cases hknown : known (purgeExpiredIdempotency db publishedAt) key with
    | some id => exact splits_known hkey hknown
    | none => exact splits_new hwindow hkey hknown

end Step

section Rows

/-- The row a position of a batch stores, if it was published. -/
def publishedRow (publishedAt : ℤ) (position : Publish × PublishOutcome) : Option Message :=
  match position.2 with
  | .published id => some (messageRow publishedAt position.1 id)
  | .duplicate _ => none

/-- The rows a batch stores: one for each published position, under the identifier
reported there. -/
def publishedRows (publishedAt : ℤ) (messages : List Publish) (outcomes : List PublishOutcome) :
    List Message :=
  (messages.zip outcomes).filterMap (publishedRow publishedAt)

/-- One outcome for each message. -/
theorem assign_length (known : Bytes → Option ℤ) (seq : ℤ) (messages : List Publish) :
    (assign known seq messages).outcomes.length = messages.length := by
  induction messages generalizing known seq with
  | nil => rfl
  | cons message rest ih =>
    cases hkey : message.idempotencyKey with
    | none => rw [assign_unkeyed hkey, List.length_cons, List.length_cons, ih]
    | some key =>
      cases hknown : known key with
      | some id => rw [assign_known hkey hknown, List.length_cons, List.length_cons, ih]
      | none => rw [assign_new hkey hknown, List.length_cons, List.length_cons, ih]

/-- The stored messages get the next identifiers in the order of their positions. -/
theorem assign_rows (publishedAt : ℤ) (known : Bytes → Option ℤ) (seq : ℤ)
    (messages : List Publish) :
    publishedRows publishedAt messages (assign known seq messages).outcomes =
      List.zipWith (messageRow publishedAt) (assign known seq messages).stored
        (idsFrom seq (assign known seq messages).stored.length) := by
  have hpublished : ∀ (message : Publish) (rest : List Publish)
      (outcomes : List PublishOutcome) (id : ℤ),
      publishedRows publishedAt (message :: rest) (.published id :: outcomes) =
        messageRow publishedAt message id :: publishedRows publishedAt rest outcomes :=
    fun _ _ _ _ => rfl
  induction messages generalizing known seq with
  | nil => rfl
  | cons message rest ih =>
    cases hkey : message.idempotencyKey with
    | none =>
      rw [assign_unkeyed hkey, hpublished, ih, List.length_cons, idsFrom_succ,
        List.zipWith_cons_cons]
    | some key =>
      cases hknown : known key with
      | some id =>
        rw [assign_known hkey hknown]
        exact ih known seq
      | none =>
        rw [assign_new hkey hknown, hpublished, ih, List.length_cons, idsFrom_succ,
          List.zipWith_cons_cons]

/-- A batch appends the rows of its published positions to the log. -/
theorem batchDb_rows (publishedAt expiresAt : ℤ) (db : Db) (messages : List Publish) :
    (batchDb publishedAt expiresAt db messages).messages.table.rows =
      db.messages.table.rows ++
        publishedRows publishedAt messages (assigned publishedAt db messages).outcomes := by
  rw [batchDb, publishedDb_rows, newRows, assigned, assign_rows]
  rfl

end Rows

section Positions

/-- The first position of a batch with a key. -/
def firstAt (messages : List Publish) (key : Bytes) : ℕ :=
  messages.findIdx fun message => message.idempotencyKey == some key

/-- A position is stored when it has no key or is the first with a key that is not known. -/
def stores (known : Bytes → Option ℤ) (messages : List Publish) (i : ℕ) : Bool :=
  match messages[i]?.bind Publish.idempotencyKey with
  | none => true
  | some key => (known key).isNone && firstAt messages key == i

/-- The identifier of the row of a position: the next one after those of the stored positions
before it. -/
def rowId (known : Bytes → Option ℤ) (seq : ℤ) (messages : List Publish) (i : ℕ) : ℤ :=
  seq + 1 + ((List.range i).countP (stores known messages) : ℕ)

/-- What a position reports: a key that is known is a duplicate of what is known, and one that
came before in the batch is a duplicate of the row of its first position. -/
def reported (known : Bytes → Option ℤ) (seq : ℤ) (messages : List Publish) (i : ℕ) :
    PublishOutcome :=
  match messages[i]?.bind Publish.idempotencyKey with
  | none => .published (rowId known seq messages i)
  | some key =>
    match known key with
    | some id => .duplicate id
    | none =>
      if firstAt messages key = i then .published (rowId known seq messages i)
      else .duplicate (rowId known seq messages (firstAt messages key))

/-- The identifier a batch gives a key that was not known. -/
def newlyKnown (known : Bytes → Option ℤ) (seq : ℤ) (messages : List Publish) (key : Bytes) :
    Option ℤ :=
  if (known key).isNone ∧ some key ∈ messages.map Publish.idempotencyKey then
    some (rowId known seq messages (firstAt messages key))
  else none

/-- What is known and which identifier was the last one, before and after a message. -/
structure After (message : Publish) (known : Bytes → Option ℤ) (seq : ℤ)
    (known' : Bytes → Option ℤ) (seq' : ℤ) : Prop where
  own : ∀ key, message.idempotencyKey = some key → known' key = some ((known key).getD (seq + 1))
  other : ∀ key, message.idempotencyKey ≠ some key → known' key = known key
  seq : seq' = if message.idempotencyKey.bind known = none then seq + 1 else seq

variable {known known' : Bytes → Option ℤ} {seq seq' : ℤ} {message : Publish} {rest : List Publish}
    {key : Bytes} {i : ℕ}

theorem after_unkeyed (hkey : message.idempotencyKey = none) :
    After message known seq known (seq + 1) where
  own key hsame := by
    rw [hkey] at hsame
    cases hsame
  other _ _ := rfl
  seq := by rw [hkey, Option.bind_none, if_pos rfl]

theorem after_known {id : ℤ} (hkey : message.idempotencyKey = some key)
    (hknown : known key = some id) : After message known seq known seq where
  own other hsame := by
    obtain rfl := Option.some_inj.mp (hkey.symm.trans hsame)
    rw [hknown, Option.getD_some]
  other _ _ := rfl
  seq := by simp [hkey, hknown]

theorem after_new (hkey : message.idempotencyKey = some key) (hnew : known key = none) :
    After message known seq (Function.update known key (some (seq + 1))) (seq + 1) where
  own other hsame := by
    obtain rfl := Option.some_inj.mp (hkey.symm.trans hsame)
    rw [Function.update_self, hnew, Option.getD_none]
  other other hother := Function.update_of_ne (fun hsame => hother (by rw [hkey, hsame])) _ _
  seq := by simp [hkey, hnew]

theorem firstAt_own (hkey : message.idempotencyKey = some key) :
    firstAt (message :: rest) key = 0 := by
  simp [firstAt, List.findIdx_cons, hkey]

theorem firstAt_other (hkey : message.idempotencyKey ≠ some key) :
    firstAt (message :: rest) key = firstAt rest key + 1 := by
  have hbeq : (message.idempotencyKey == some key) = false := beq_false_of_ne hkey
  rw [firstAt, List.findIdx_cons, hbeq]
  rfl

/-- The first position is stored unless its key is known. -/
theorem stores_zero :
    stores known (message :: rest) 0 = decide (message.idempotencyKey.bind known = none) := by
  unfold stores
  cases hkey : message.idempotencyKey with
  | none => simp [hkey]
  | some key => cases hknown : known key <;> simp [hkey, firstAt_own, hknown]

/-- A later position is stored in the batch when it is stored in its rest. -/
theorem stores_succ (h : After message known seq known' seq') :
    stores known (message :: rest) (i + 1) = stores known' rest i := by
  unfold stores
  rw [List.getElem?_cons_succ]
  cases hkey : rest[i]?.bind Publish.idempotencyKey with
  | none => rfl
  | some key =>
    by_cases hsame : message.idempotencyKey = some key
    · simp [firstAt_own hsame, h.own key hsame]
    · simp [firstAt_other hsame, h.other key hsame]

/-- The rows of the rest follow that of the first message, if it has one. -/
theorem rowId_succ (h : After message known seq known' seq') :
    rowId known seq (message :: rest) (i + 1) = rowId known' seq' rest i := by
  have hshift : stores known (message :: rest) ∘ Nat.succ = stores known' rest := by
    funext j
    exact stores_succ h
  rw [rowId, rowId, List.range_succ_eq_map, List.countP_cons, List.countP_map, hshift, stores_zero,
    h.seq]
  by_cases hstored : message.idempotencyKey.bind known = none
  · rw [if_pos hstored, if_pos (decide_eq_true hstored)]
    push_cast
    omega
  · rw [if_neg hstored, if_neg (by simpa using hstored), Nat.add_zero]

theorem rowId_zero (known : Bytes → Option ℤ) (seq : ℤ) (messages : List Publish) :
    rowId known seq messages 0 = seq + 1 := by
  simp [rowId]

/-- A later position reports in the batch what it reports in its rest. -/
theorem reported_succ (h : After message known seq known' seq') :
    reported known seq (message :: rest) (i + 1) = reported known' seq' rest i := by
  unfold reported
  rw [List.getElem?_cons_succ]
  cases hkey : rest[i]?.bind Publish.idempotencyKey with
  | none => simp only [rowId_succ h]
  | some key =>
    by_cases hsame : message.idempotencyKey = some key
    · -- the key came first in the batch, and is known from there on
      have hknown' := h.own key hsame
      cases hknown : known key with
      | none =>
        rw [hknown, Option.getD_none] at hknown'
        simp [hknown, hknown', firstAt_own hsame, rowId_zero]
      | some id =>
        rw [hknown, Option.getD_some] at hknown'
        simp [hknown, hknown']
    · have hknown' := h.other key hsame
      simp only [hknown', firstAt_other hsame, Nat.add_right_cancel_iff, rowId_succ h]

/-- Another key is newly known after the batch when it is after its rest. -/
theorem newlyKnown_other (h : After message known seq known' seq')
    (hother : message.idempotencyKey ≠ some key) :
    newlyKnown known seq (message :: rest) key = newlyKnown known' seq' rest key := by
  simp only [newlyKnown, h.other key hother, firstAt_other hother, rowId_succ h, List.map_cons,
    List.mem_cons, Ne.symm hother, false_or]

theorem newlyKnown_known {id : ℤ} (hknown : known key = some id) (messages : List Publish) :
    newlyKnown known seq messages key = none := by
  simp [newlyKnown, hknown]

/-- The abstract publisher reports at each position what stands to be reported there. -/
theorem assign_reported (known : Bytes → Option ℤ) (seq : ℤ) (messages : List Publish) :
    (assign known seq messages).outcomes =
      (List.range messages.length).map (reported known seq messages) := by
  have hcons : ∀ {message rest outcome known known' seq seq'},
      After message known seq known' seq' → reported known seq (message :: rest) 0 = outcome →
      outcome :: (List.range rest.length).map (reported known' seq' rest) =
        (List.range (message :: rest).length).map (reported known seq (message :: rest)) := by
    intro message rest outcome known known' seq seq' hafter hfirst
    rw [List.length_cons, List.range_succ_eq_map, List.map_cons, List.map_map, hfirst]
    exact congrArg _ (List.map_congr_left fun i _ => (reported_succ hafter).symm)
  induction messages generalizing known seq with
  | nil => rfl
  | cons message rest ih =>
    cases hkey : message.idempotencyKey with
    | none =>
      rw [assign_unkeyed hkey, ih]
      exact hcons (after_unkeyed hkey) (by simp [reported, hkey, rowId_zero])
    | some key =>
      cases hknown : known key with
      | some id =>
        rw [assign_known hkey hknown, ih]
        exact hcons (after_known hkey hknown) (by simp [reported, hkey, hknown])
      | none =>
        rw [assign_new hkey hknown, ih]
        exact hcons (after_new hkey hknown)
          (by simp [reported, hkey, hknown, firstAt_own hkey, rowId_zero])

/-- The abstract publisher fills the entries of the keys that are newly known. -/
theorem assign_newlyKnown (known : Bytes → Option ℤ) (seq : ℤ) (messages : List Publish)
    (key : Bytes) :
    (assign known seq messages).filled.lookup key = newlyKnown known seq messages key := by
  induction messages generalizing known seq with
  | nil => simp [assign, newlyKnown]
  | cons message rest ih =>
    cases hkey : message.idempotencyKey with
    | none =>
      have hother : message.idempotencyKey ≠ some key := by
        rw [hkey]
        exact (Option.some_ne_none key).symm
      rw [assign_unkeyed hkey, newlyKnown_other (after_unkeyed hkey) hother]
      exact ih known (seq + 1)
    | some first =>
      cases hknown : known first with
      | some id =>
        rw [assign_known hkey hknown]
        refine (ih known seq).trans ?_
        by_cases hsame : key = first
        · subst hsame
          rw [newlyKnown_known hknown, newlyKnown_known hknown]
        · have hother : message.idempotencyKey ≠ some key := by
            rw [hkey]
            exact fun h => hsame (Option.some_inj.mp h).symm
          exact (newlyKnown_other (after_known hkey hknown) hother).symm
      | none =>
        rw [assign_new hkey hknown, List.lookup_cons]
        by_cases hsame : key = first
        · subst hsame
          simp [newlyKnown, hknown, hkey, firstAt_own hkey, rowId_zero]
        · have hother : message.idempotencyKey ≠ some key := by
            rw [hkey]
            exact fun h => hsame (Option.some_inj.mp h).symm
          rw [beq_false_of_ne hsame, newlyKnown_other (after_new hkey hknown) hother]
          exact ih _ (seq + 1)

end Positions

section Live

variable {publishedAt : ℤ} {db : Db} {messages : List Publish}

/-- The ledger row of a key, unless it has expired. -/
def unexpired (publishedAt : ℤ) (db : Db) (key : Bytes) : Option IdempotencyRow :=
  (db.idempotency.lookup key).filter fun row => decide (publishedAt < row.expiresAt)

/-- The identifier that the ledger knows for a key at a reading. -/
def live (publishedAt : ℤ) (db : Db) (key : Bytes) : Option ℤ :=
  (unexpired publishedAt db key).bind IdempotencyRow.messageId

/-- A batch with a key starts from the rows that have not expired. -/
theorem lookup_purged (publishedAt : ℤ) (db : Db) (key : Bytes) :
    (purgeExpiredIdempotency db publishedAt).idempotency.lookup key =
      unexpired publishedAt db key := by
  have hsame : (fun row : IdempotencyRow => !decide (row.expiresAt ≤ publishedAt)) =
      fun row => decide (publishedAt < row.expiresAt) := by
    funext row
    simp only [← not_le, decide_not]
  rw [unexpired, ← hsame]
  exact Table.lookup_deleteWhere _ _ _

/-- The row of a key that a batch starts from. -/
theorem lookup_started (publishedAt : ℤ) (db : Db) (messages : List Publish) (key : Bytes) :
    (ledgerAt publishedAt db messages).idempotency.lookup key =
      if ∀ message ∈ messages, message.idempotencyKey = none then db.idempotency.lookup key
      else unexpired publishedAt db key := by
  have hkeyless : (messages.all fun message => message.idempotencyKey.isNone) = true ↔
      ∀ message ∈ messages, message.idempotencyKey = none := by
    simp only [List.all_eq_true, Option.isNone_iff_eq_none]
  simp only [ledgerAt, hkeyless]
  split_ifs
  · rfl
  · exact lookup_purged publishedAt db key

/-- The row of a key after a batch. -/
theorem lookup_batchDb (publishedAt expiresAt : ℤ) (db : Db) (messages : List Publish)
    (key : Bytes) :
    (batchDb publishedAt expiresAt db messages).idempotency.lookup key =
      match (assigned publishedAt db messages).filled.lookup key with
      | some id => some ⟨key, some id,
          (((ledgerAt publishedAt db messages).idempotency.lookup key).map
            IdempotencyRow.expiresAt).getD expiresAt⟩
      | none => (ledgerAt publishedAt db messages).idempotency.lookup key :=
  lookup_fillTable _ _ _ (assign_filled_nodup _ _ _) key

/-- Without keys it does not matter what is known. -/
theorem assign_keyless (hkeyless : ∀ message ∈ messages, message.idempotencyKey = none)
    (known known' : Bytes → Option ℤ) (seq : ℤ) :
    assign known seq messages = assign known' seq messages := by
  induction messages generalizing seq with
  | nil => rfl
  | cons message rest ih =>
    have hkey := hkeyless message List.mem_cons_self
    rw [assign_unkeyed hkey, assign_unkeyed hkey,
      ih fun other hother => hkeyless other (List.mem_cons_of_mem _ hother)]

/-- A batch goes by what the ledger knows at its reading. -/
theorem assigned_live (publishedAt : ℤ) (db : Db) (messages : List Publish) :
    assigned publishedAt db messages =
      assign (live publishedAt db) db.messages.seq messages := by
  unfold assigned ledgerAt
  split_ifs with hkeyless
  · refine assign_keyless (fun message hmessage => ?_) _ _ _
    exact Option.isNone_iff_eq_none.mp (List.all_eq_true.mp hkeyless message hmessage)
  · have hknown : known (purgeExpiredIdempotency db publishedAt) = live publishedAt db := by
      funext key
      rw [known, lookup_purged, live]
    rw [hknown]

end Live

/-- What a batch comes to: what each of its positions reports, the rows it appends, the ledger
it leaves, and nothing else. -/
structure Comes (publishedAt expiresAt : ℤ) (db : Db) (messages : List Publish) (db' : Db)
    (outcomes : List PublishOutcome) : Prop where
  reports : outcomes =
    (List.range messages.length).map (reported (live publishedAt db) db.messages.seq messages)
  rows : db'.messages.table.rows =
    db.messages.table.rows ++ publishedRows publishedAt messages outcomes
  /-- A key that was not known names the row of its first position. -/
  filled : ∀ key id, newlyKnown (live publishedAt db) db.messages.seq messages key = some id →
    db'.idempotency.lookup key = some ⟨key, some id,
      ((unexpired publishedAt db key).map IdempotencyRow.expiresAt).getD expiresAt⟩
  /-- Any other row stays, or is dropped when it has expired and the batch has a key. -/
  kept : ∀ key, newlyKnown (live publishedAt db) db.messages.seq messages key = none →
    db'.idempotency.lookup key =
      if ∀ message ∈ messages, message.idempotencyKey = none then db.idempotency.lookup key
      else unexpired publishedAt db key
  consumers : db'.consumers = db.consumers
  deliveries : db'.deliveries = db.deliveries
  archives : db'.archives = db.archives

/-- What the abstract publisher leaves. -/
theorem comes_batchDb (publishedAt expiresAt : ℤ) (db : Db) (messages : List Publish) :
    Comes publishedAt expiresAt db messages (batchDb publishedAt expiresAt db messages)
      (assigned publishedAt db messages).outcomes := by
  obtain ⟨-, hconsumers, hdeliveries, harchives, -⟩ := ledgerAt_parts publishedAt db messages
  have hfilled : ∀ key, (assigned publishedAt db messages).filled.lookup key =
      newlyKnown (live publishedAt db) db.messages.seq messages key := by
    intro key
    rw [assigned_live, assign_newlyKnown]
  refine ⟨?_, batchDb_rows _ _ _ _, fun key id hid => ?_, fun key hnone => ?_, hconsumers,
    hdeliveries, harchives⟩
  · rw [assigned_live, assign_reported]
  · -- a batch that fills an entry has a key, so it starts from the purged ledger
    have hkeyed : ¬∀ message ∈ messages, message.idempotencyKey = none := by
      intro hkeyless
      unfold newlyKnown at hid
      split_ifs at hid with hnew
      obtain ⟨message, hmessage, hkey⟩ := List.mem_map.mp hnew.2
      rw [hkeyless message hmessage] at hkey
      cases hkey
    rw [lookup_batchDb, hfilled, hid, lookup_started, if_neg hkeyed]
  · rw [lookup_batchDb, hfilled, hnone, lookup_started]

section Sequence

variable {fan : Inner} {publishedAt : ℤ}

/-- Publishing one message is a batch of one. -/
theorem publish_eq (e : Engine) (message : Publish) {db : Db}
    (hexpiry : checkedAdd publishedAt fan.idempotencyWindowMs =
      .ok (publishedAt + fan.idempotencyWindowMs)) :
    publish e fan message publishedAt db =
      .ok (batchDb publishedAt (publishedAt + fan.idempotencyWindowMs) db [message],
        (assigned publishedAt db [message]).outcomes.headI) := by
  rw [publish, publishBatch_eq e (List.cons_ne_nil message []) fan.maxBatchSize_pos
    (Or.inr hexpiry)]
  rfl

/-- Publishing one by one leaves the database and reports the outcomes of the batch. -/
theorem publishEach_eq (each : List (Engine × Publish)) (db : Db)
    (hexpiry : checkedAdd publishedAt fan.idempotencyWindowMs =
      .ok (publishedAt + fan.idempotencyWindowMs)) :
    publishEach fan publishedAt each db =
      .ok (batchDb publishedAt (publishedAt + fan.idempotencyWindowMs) db (each.map Prod.snd),
        (assigned publishedAt db (each.map Prod.snd)).outcomes) := by
  have hwindow : publishedAt < publishedAt + fan.idempotencyWindowMs := by
    have hpos := fan.idempotencyWindowMs_pos
    omega
  induction each generalizing db with
  | nil => rfl
  | cons first rest ih =>
    obtain ⟨e, message⟩ := first
    have hsplits := batch_splits hwindow db message (rest.map Prod.snd)
    obtain ⟨outcome, hone, hall⟩ := hsplits.outcomes
    rw [publishEach, publish_eq e message hexpiry, hone, List.map_cons, hall, hsplits.database]
    simp only [bind, Except.bind, ih, List.headI_cons]
    rfl

end Sequence

/-- Publishing a batch and publishing its messages one by one at the same reading come to the
same outcomes, log and ledger, whatever orders either run meets: each position without a key or
with the first occurrence of an unknown one reports the identifier of its own row, and every
other one the identifier its key is known by. -/
theorem publishBatch_sequential (e : Engine) (fan : Inner) (publishedAt : ℤ)
    (each : List (Engine × Publish)) (db : Db) (hsize : each.length ≤ fan.maxBatchSize)
    (hexpiry : i64Min ≤ publishedAt + fan.idempotencyWindowMs ∧
      publishedAt + fan.idempotencyWindowMs ≤ i64Max) :
    publishBatch e fan (each.map Prod.snd) publishedAt db = publishEach fan publishedAt each db ∧
      ∃ db' outcomes, publishBatch e fan (each.map Prod.snd) publishedAt db = .ok (db', outcomes) ∧
        Comes publishedAt (publishedAt + fan.idempotencyWindowMs) db (each.map Prod.snd) db'
          outcomes := by
  have hadd : checkedAdd publishedAt fan.idempotencyWindowMs =
      .ok (publishedAt + fan.idempotencyWindowMs) := by rw [checkedAdd, if_pos hexpiry]
  have hbatch : publishBatch e fan (each.map Prod.snd) publishedAt db =
      .ok (batchDb publishedAt (publishedAt + fan.idempotencyWindowMs) db (each.map Prod.snd),
        (assigned publishedAt db (each.map Prod.snd)).outcomes) := by
    by_cases hempty : each = []
    · rw [hempty]
      rfl
    · have hne : each.map Prod.snd ≠ [] := fun hnil => hempty (List.map_eq_nil_iff.mp hnil)
      have hlength : (each.map Prod.snd).length ≤ fan.maxBatchSize := by
        rw [List.length_map]
        exact hsize
      exact publishBatch_eq e hne hlength (Or.inr hadd)
  exact ⟨hbatch.trans (publishEach_eq each db hadd).symm, _, _, hbatch, comes_batchDb _ _ _ _⟩

/-- A batch with a repeated key, an unkeyed message, an expired key and a key that is known. -/
def mixedBatch : List (Engine × Publish) :=
  [(Engine.inOrder, ⟨none, [1], some [9]⟩), (Engine.inOrder, ⟨some "a", [2], none⟩),
    (Engine.inOrder, ⟨none, [3], some [9]⟩), (Engine.inOrder, ⟨none, [4], some [8]⟩),
    (Engine.inOrder, ⟨none, [5], some [7]⟩)]

/-- A store whose ledger holds one key that expires at 5 and one that expires at 6. -/
def expiringDb : Db :=
  outcomeDb Engine.inOrder Inner.default
    [.publishBatch [⟨none, [0], some [8]⟩] (5 - 86400000),
      .publishBatch [⟨none, [6], some [7]⟩] (6 - 86400000)] Db.empty

set_option maxRecDepth 10000 in
/-- The mixed batch at the instant the old key expires: the messages that are published follow
the two of the log, and both the repeated key and the known one name their first rows. -/
theorem publishBatch_sequential_mixed : ∃ db',
    publishBatch Engine.inOrder Inner.default (mixedBatch.map Prod.snd) 5 expiringDb =
        publishEach Inner.default 5 mixedBatch expiringDb ∧
      publishBatch Engine.inOrder Inner.default (mixedBatch.map Prod.snd) 5 expiringDb =
        .ok (db', [.published 3, .published 4, .duplicate 3, .published 5, .duplicate 2]) ∧
      db'.messages.table.rows = expiringDb.messages.table.rows ++
        [⟨3, none, [1], 5⟩, ⟨4, some "a", [2], 5⟩, ⟨5, none, [4], 5⟩] ∧
      db'.idempotency.lookup [9] = some ⟨[9], some 3, 86400005⟩ ∧
      db'.idempotency.lookup [7] = some ⟨[7], some 2, 6⟩ := by
  obtain ⟨hsame, db', outcomes, hok, hcomes⟩ := publishBatch_sequential Engine.inOrder
    Inner.default 5 mixedBatch expiringDb (by decide) (by decide)
  have houtcomes : outcomes =
      [.published 3, .published 4, .duplicate 3, .published 5, .duplicate 2] :=
    hcomes.reports.trans rfl
  subst houtcomes
  exact ⟨db', hsame, hok, hcomes.rows, hcomes.filled [9] 3 rfl, (hcomes.kept [7] rfl).trans rfl⟩

end LiteFan.Sequential

import LiteFan.Effect.Receipts

/-!
# What a claim does to the tables

A claim leases the visible retries it picks and then unseen matching log
entries, and moves the cursor over everything it has looked at. A matching
entry inside the scanned range is leased exactly when the cursor passes it, so
the jump over entries that do not match loses nothing. Under the invariant the
transaction succeeds, and every lease finds its message.
-/

namespace LiteFan.Effect

open LiteFan.Api LiteFan.Time LiteFan.Schema LiteFan.Storage LiteFan.Store LiteFan.Consumer
open LiteFan.Invariant Relational

/-- How far a claim may scan the log. -/
def scanLimit (db : Db) (row : ConsumerRow) : ℤ := row.drainCursor.getD (highWater db)

/-- The room a claim has left after its retries. -/
def remaining (db : Db) (c now : ℤ) (limit : ℕ) : ℕ := limit - (selectVisible db c now limit).length

/-- The unseen matching log entries of a consumer. -/
def unseen (db : Db) (row : ConsumerRow) : List Message :=
  scanRange db row.topicFilter row.scanCursor (scanLimit db row)

/-- The log entries a claim leases for the first time. -/
def freshMessages (db : Db) (row : ConsumerRow) (now : ℤ) (limit : ℕ) : List Message :=
  (unseen db row).take (remaining db row.id now limit)

/-- Where a claim leaves the cursor. -/
def cursorAfter (db : Db) (row : ConsumerRow) (now : ℤ) (limit : ℕ) : ℤ :=
  if remaining db row.id now limit > 0 ∧ row.scanCursor < scanLimit db row then
    nextCursor row.scanCursor (scanLimit db row) (remaining db row.id now limit)
      ((freshMessages db row now limit).map Message.id)
  else row.scanCursor

/-- A log entry is unseen when it matches and lies between the cursor and the limit. -/
theorem mem_unseen {db : Db} {row : ConsumerRow} {message : Message} :
    message ∈ unseen db row ↔ message ∈ db.messages ∧ row.scanCursor < message.id ∧
      message.id ≤ scanLimit db row ∧ topicMatches row.topicFilter message.topic = true := by
  simp only [unseen, scanRange, AutoTable.mem_select, Bool.and_eq_true,
    decide_eq_true_eq, and_assoc]

theorem unseen_sorted (db : Db) (row : ConsumerRow) :
    (unseen db row).Pairwise fun a b => a.id < b.id := Table.select_sorted _ _

/-- A leased log entry was unseen. -/
theorem mem_unseen_of_fresh {db : Db} {row : ConsumerRow} {now : ℤ} {limit : ℕ} {message : Message}
    (h : message ∈ freshMessages db row now limit) : message ∈ unseen db row :=
      List.mem_of_mem_take h

theorem freshMessages_sorted (db : Db) (row : ConsumerRow) (now : ℤ) (limit : ℕ) :
    (freshMessages db row now limit).Pairwise fun a b => a.id < b.id :=
  (unseen_sorted db row).sublist (List.take_sublist _ _)

/-- A claim without room or range leases nothing fresh and keeps its cursor. -/
theorem not_scanned {db : Db} {row : ConsumerRow} {now : ℤ} {limit : ℕ}
    (h : ¬(remaining db row.id now limit > 0 ∧ row.scanCursor < scanLimit db row)) :
    cursorAfter db row now limit = row.scanCursor ∧ freshMessages db row now limit = [] := by
  refine ⟨by rw [cursorAfter, if_neg h], ?_⟩
  by_cases hroom : remaining db row.id now limit > 0
  · have hend : ¬row.scanCursor < scanLimit db row := fun hlt => h ⟨hroom, hlt⟩
    have hnone : unseen db row = [] := by
      refine List.eq_nil_iff_forall_not_mem.mpr fun message hm => ?_
      obtain ⟨-, hlo, hhi, -⟩ := mem_unseen.mp hm
      omega
    rw [freshMessages, hnone, List.take_nil]
  · have hzero : remaining db row.id now limit = 0 := by omega
    rw [freshMessages, hzero, List.take_zero]

/-- A claim that scans ends at its limit, or at the last entry it leased. -/
theorem cursorAfter_cases (db : Db) (row : ConsumerRow) (now : ℤ) (limit : ℕ) :
    (cursorAfter db row now limit = row.scanCursor ∧ freshMessages db row now limit = []) ∨
    (row.scanCursor < scanLimit db row ∧ cursorAfter db row now limit = scanLimit db row ∧
      freshMessages db row now limit = unseen db row) ∨
    (∃ last, (freshMessages db row now limit).getLast? = some last ∧
      cursorAfter db row now limit = last.id) := by
  by_cases hscan : remaining db row.id now limit > 0 ∧ row.scanCursor < scanLimit db row
  · right
    rw [cursorAfter, if_pos hscan, nextCursor, List.length_map]
    by_cases hshort : (freshMessages db row now limit).length < remaining db row.id now limit
    · left
      rw [if_pos hshort]
      refine ⟨hscan.2, rfl, ?_⟩
      unfold freshMessages at hshort ⊢
      rw [List.length_take] at hshort
      exact List.take_of_length_le (by omega)
    · right
      rw [if_neg hshort]
      have hpos : freshMessages db row now limit ≠ [] := by
        intro hnil
        rw [hnil, List.length_nil] at hshort
        exact hshort hscan.1
      have hlast := List.getLast?_eq_some_getLast hpos
      refine ⟨_, hlast, ?_⟩
      rw [List.getLast?_map, hlast]
      rfl
  · exact Or.inl (not_scanned hscan)

/-- The cursor never moves back, and only passes what was in range. -/
theorem cursorAfter_bounds (db : Db) (row : ConsumerRow) (now : ℤ) (limit : ℕ) :
    row.scanCursor ≤ cursorAfter db row now limit ∧
      (cursorAfter db row now limit = row.scanCursor ∨
        cursorAfter db row now limit ≤ scanLimit db row) := by
  rcases cursorAfter_cases db row now limit with ⟨heq, -⟩ | ⟨hlt, heq, -⟩ | ⟨last, hlast, heq⟩
  · exact ⟨heq.ge, Or.inl heq⟩
  · exact ⟨by omega, Or.inr heq.le⟩
  · have hmem := mem_unseen_of_fresh (List.mem_of_getLast? hlast)
    obtain ⟨-, hlo, hhi, -⟩ := mem_unseen.mp hmem
    exact ⟨by omega, Or.inr (by omega)⟩

/-- An unseen entry is leased exactly when the cursor passes it. -/
theorem mem_freshMessages_iff {db : Db} {row : ConsumerRow} {now : ℤ} {limit : ℕ}
    {message : Message}
    (h : message ∈ unseen db row) :
    message ∈ freshMessages db row now limit ↔ message.id ≤ cursorAfter db row now limit := by
  obtain ⟨-, hlo, hhi, -⟩ := mem_unseen.mp h
  rcases cursorAfter_cases db row now limit with ⟨heq, hnil⟩ | ⟨-, heq, hall⟩ | ⟨last, hlast, heq⟩
  · rw [hnil, heq]
    exact iff_of_false List.not_mem_nil (by omega)
  · rw [hall, heq]
    exact iff_of_true h hhi
  · rw [heq]
    exact mem_take_iff_le_last (unseen_sorted db row) hlast h

section Visible

/-- The retries a claim picks are stored, the consumer's own, and visible. -/
theorem mem_selectVisible {db : Db} {c now : ℤ} {limit : ℕ} {d : DeliveryRow}
    (h : d ∈ selectVisible db c now limit) :
    d ∈ db.deliveries ∧ d.consumerId = c ∧ d.visibleAt ≤ now := by
  have hmem := Table.mem_select.mp (mem_sortBy.mp (List.mem_of_mem_take h))
  simpa only [Bool.and_eq_true, beq_iff_eq, decide_eq_true_eq] using hmem

theorem selectVisible_nodup (db : Db) (c now : ℤ) (limit : ℕ) :
    (selectVisible db c now limit).Nodup :=
  (((sortBy_perm _ _).nodup_iff.mpr (db.deliveries.select_nodup _))).sublist (List.take_sublist _ _)

theorem length_selectVisible_le (db : Db) (c now : ℤ) (limit : ℕ) :
    (selectVisible db c now limit).length ≤ limit := by
  unfold selectVisible
  rw [List.length_take]
  exact Nat.min_le_left _ _

/-- Whether the retry statement leases a row. -/
def chosen (db : Db) (c now : ℤ) (limit : ℕ) (d : DeliveryRow) : Bool :=
  decide (d.key ∈ (selectVisible db c now limit).map DeliveryRow.key)

/-- The retry statement leases exactly the rows it picked. -/
theorem chosen_iff {db : Db} {c now : ℤ} {limit : ℕ} {d : DeliveryRow} (hd : d ∈ db.deliveries) :
    chosen db c now limit d = true ↔ d ∈ selectVisible db c now limit := by
  simp only [chosen, decide_eq_true_eq, List.mem_map]
  constructor
  · rintro ⟨b, hb, hkey⟩
    rw [← Table.eq_of_key (mem_selectVisible hb).1 hd hkey]
    exact hb
  · intro hd'
    exact ⟨d, hd', rfl⟩

theorem select_chosen_perm (db : Db) (c now : ℤ) (limit : ℕ) :
    (db.deliveries.select (chosen db c now limit)).Perm (selectVisible db c now limit) := by
  refine (List.perm_ext_iff_of_nodup (db.deliveries.select_nodup _)
    (selectVisible_nodup db c now limit)).mpr fun d => ?_
  rw [Table.mem_select]
  constructor
  · rintro ⟨hd, hchosen⟩
    exact (chosen_iff hd).mp hchosen
  · intro hd
    exact ⟨(mem_selectVisible hd).1, (chosen_iff (mem_selectVisible hd).1).mpr hd⟩

theorem releaseUntil_key (deadline : ℤ) (d : DeliveryRow) :
    (releaseUntil deadline d).key = d.key := rfl

/-- The deliveries after the retry statement. -/
def releasedTable (db : Db) (c now deadline : ℤ) (limit : ℕ) : Table DeliveryRow DeliveryRow.key :=
  db.deliveries.updateWhere (chosen db c now limit) (releaseUntil deadline)
    (releaseUntil_key deadline)

/-- The leases of the picked retries. -/
def retriedLeases (db : Db) (c now deadline : ℤ) (limit : ℕ) : List Lease :=
  (selectVisible db c now limit).map fun d => leaseOfRow (releaseUntil deadline d)

/-- The retry statement succeeds and returns the picked rows in some order. -/
theorem leaseVisible_eq (e : Engine) {db : Db} (hinv : Inv db) (c now deadline : ℤ) (limit : ℕ) :
    ∃ leases, leaseVisible e c now deadline limit db =
        .ok ({ db with deliveries := releasedTable db c now deadline limit }, leases) ∧
      leases.Perm (retriedLeases db c now deadline limit) := by
  have hcheck : ∀ d ∈ db.deliveries, deliveryCheck (releaseUntil deadline d) = true := by
    intro d hd
    obtain ⟨hgeneration, hcount⟩ := hinv.delivery_counts d hd
    have hnext : 0 ≤ d.generation + 1 ∧ 0 ≤ d.deliveryCount + 1 := by omega
    exact deliveryCheck_iff.mpr hnext
  have hupdate : updateDeliveries db (chosen db c now limit) (releaseUntil deadline)
        (releaseUntil_key deadline) =
      .ok { db with deliveries := releasedTable db c now deadline limit } :=
        updateDeliveries_eq hcheck
  refine ⟨e.returning ((db.deliveries.select (chosen db c now limit)).map fun d =>
    leaseOfRow (releaseUntil deadline d)), ?_, ?_⟩
  · unfold leaseVisible
    change (updateDeliveries db (chosen db c now limit) (releaseUntil deadline)
      (releaseUntil_key deadline)).bind _ = _
    rw [hupdate]
    rfl
  · exact (e.returning_perm _).trans ((select_chosen_perm db c now limit).map _)

end Visible

/-- The first leases of the fresh log entries. -/
def firstLeases (db : Db) (row : ConsumerRow) (now deadline : ℤ) (limit : ℕ) : List DeliveryRow :=
  (freshMessages db row now limit).map fun message => firstLease row.id deadline message.id

/-- The rewrite that sets a cursor. -/
def withCursor (scanCursor : ℤ) (row : ConsumerRow) : ConsumerRow :=
  { row with scanCursor := scanCursor }

/-- A claim moves the cursor and keeps the row's identity. -/
theorem advanced_id (db : Db) (row : ConsumerRow) (now : ℤ) (limit : ℕ) (other : ConsumerRow) :
    (withCursor (cursorAfter db row now limit) other).id = other.id := rfl

/-- The database a claim leaves. -/
def claimedDb (db : Db) (row : ConsumerRow) (now deadline : ℤ) (limit : ℕ) : Db :=
  { db with
    consumers := db.consumers.updateWhere (fun other => other.id == row.id)
      (withCursor (cursorAfter db row now limit)) (advanced_id db row now limit)
    deliveries := (releasedTable db row.id now deadline limit).insertMany
      (firstLeases db row now deadline limit) }

section Transaction

variable {db : Db} {row : ConsumerRow} {now deadline : ℤ} {limit : ℕ}

/-- A fresh entry is stored beyond the cursor. -/
theorem mem_freshMessages {message : Message} (h : message ∈ freshMessages db row now limit) :
    message ∈ db.messages ∧ row.scanCursor < message.id ∧ message.id ≤ scanLimit db row ∧
      topicMatches row.topicFilter message.topic = true := mem_unseen.mp (mem_unseen_of_fresh h)

/-- Retries and fresh entries are different messages: every delivered one is behind the cursor. -/
theorem selectVisible_lt_fresh (hinv : Inv db) (hrow : db.consumers.lookup row.id = some row)
    {d : DeliveryRow} (hd : d ∈ db.deliveries) (hc : d.consumerId = row.id) {message : Message}
    (hm : message ∈ freshMessages db row now limit) : d.messageId < message.id := by
  have hrefers := hinv.delivery_refers d hd
  rw [hc] at hrefers
  have hle := hrefers.le_cursor hrow
  have hlt := (mem_freshMessages hm).2.1
  omega

/-- The keys of first leases are different. -/
theorem firstLeases_nodup (db : Db) (row : ConsumerRow) (now deadline : ℤ) (limit : ℕ) :
    ((firstLeases db row now deadline limit).map DeliveryRow.key).Nodup := by
  rw [firstLeases, List.map_map]
  refine List.pairwise_map.mpr ((freshMessages_sorted db row now limit).imp ?_)
  intro a b hlt hkey
  have hsame : a.id = b.id := (key_eq_iff.mp hkey).2
  omega

/-- The keys of first leases are free. -/
theorem firstLeases_free (hinv : Inv db) (hrow : db.consumers.lookup row.id = some row) :
    ∀ d ∈ firstLeases db row now deadline limit, ∀ b ∈ releasedTable db row.id now deadline limit,
      b.key ≠ d.key := by
  intro d hd b hb hkey
  obtain ⟨message, hm, rfl⟩ := List.mem_map.mp hd
  obtain ⟨hc, hid⟩ := key_eq_iff.mp hkey
  have hid : b.messageId = message.id := hid
  rcases Table.mem_updateWhere.mp hb with ⟨hb, -⟩ | ⟨b', hb', -, rfl⟩
  · have hlt := selectVisible_lt_fresh hinv hrow hb hc hm
    omega
  · have hlt := selectVisible_lt_fresh hinv hrow hb' hc hm
    have hsame : (releaseUntil deadline b').messageId = b'.messageId := rfl
    omega

/-- The scan statement succeeds after the retry statement. -/
theorem insert_firstLeases (hinv : Inv db) (hrow : db.consumers.lookup row.id = some row)
    (now deadline : ℤ) (limit : ℕ) :
    insertDeliveries { db with deliveries := releasedTable db row.id now deadline limit }
        (firstLeases db row now deadline limit) =
      .ok { db with
        deliveries := (releasedTable db row.id now deadline limit).insertMany
          (firstLeases db row now deadline limit) } := by
  refine insertDeliveries_eq ?_ ?_ ?_ (firstLeases_free hinv hrow) (firstLeases_nodup _ _ _ _ _)
  · intro d hd
    obtain ⟨message, -, rfl⟩ := List.mem_map.mp hd
    rfl
  · intro d hd
    obtain ⟨message, -, rfl⟩ := List.mem_map.mp hd
    simp only [firstLease, hrow, Option.isSome_some]
  · intro d hd
    obtain ⟨message, hm, rfl⟩ := List.mem_map.mp hd
    have hstored := AutoTable.lookup_key (mem_freshMessages hm).1
    simp only [firstLease, hstored, Option.isSome_some]

/-- The scan statement returns the fresh identifiers in some order. -/
theorem leaseUnseen_eq (e : Engine) (hinv : Inv db)
    (hrow : db.consumers.lookup row.id = some row) (now deadline : ℤ) (limit : ℕ) :
    ∃ ids, leaseUnseen e row.id deadline row.topicFilter row.scanCursor (scanLimit db row)
          (remaining db row.id now limit)
          { db with deliveries := releasedTable db row.id now deadline limit } =
        .ok ({ db with
          deliveries := (releasedTable db row.id now deadline limit).insertMany
            (firstLeases db row now deadline limit) }, ids) ∧
      sortBy id ids = (freshMessages db row now limit).map Message.id := by
  have hinsert := insert_firstLeases hinv hrow now deadline limit
  have hrows : ((freshMessages db row now limit).map Message.id).map (firstLease row.id deadline) =
      firstLeases db row now deadline limit := List.map_map
  refine ⟨e.returning ((freshMessages db row now limit).map Message.id), ?_, ?_⟩
  · unfold leaseUnseen
    change (insertDeliveries { db with deliveries := releasedTable db row.id now deadline limit }
      (((freshMessages db row now limit).map Message.id).map
        (firstLease row.id deadline))).bind _ = _
    rw [hrows, hinsert]
    rfl
  · exact sortBy_eq_of_perm (e.returning_perm _)
      (List.pairwise_map.mpr (freshMessages_sorted db row now limit))

/-- The cursor a claim leaves is in range. -/
theorem withCursor_ok (hok : RowOk db.messages.seq row) (now : ℤ) (limit : ℕ) :
    RowOk db.messages.seq (withCursor (cursorAfter db row now limit) row) := by
  have hbounds := cursorAfter_bounds db row now limit
  refine ⟨hok.nonneg.trans hbounds.1, ?_, ?_, hok.draining⟩
  · rcases hbounds.2 with heq | hle
    · exact heq.le.trans hok.le_seq
    · refine hle.trans ?_
      unfold scanLimit
      cases hdrain : row.drainCursor with
      | none => exact highWater_le_seq db
      | some last => exact (hok.drain last hdrain).2
  · intro last hdrain
    have hdrain : row.drainCursor = some last := hdrain
    obtain ⟨hle, hseq⟩ := hok.drain last hdrain
    have hlimit : scanLimit db row = last := by
      rw [scanLimit, hdrain]
      rfl
    have hmoved : cursorAfter db row now limit ≤ last := by
      rcases hbounds.2 with heq | hle'
      · omega
      · omega
    exact ⟨hmoved, hseq⟩

/-- Moving the cursor to where a claim leaves it passes the checks. -/
theorem setScanCursor_eq (hinv : Inv db) (hrow : db.consumers.lookup row.id = some row)
    (deliveries : Table DeliveryRow DeliveryRow.key) (now : ℤ) (limit : ℕ) :
    setScanCursor { db with deliveries := deliveries } row.id (cursorAfter db row now limit) =
      .ok { db with
        consumers := db.consumers.updateWhere (fun other => other.id == row.id)
          (withCursor (cursorAfter db row now limit)) (advanced_id db row now limit)
        deliveries := deliveries } := by
  obtain ⟨hmem, -⟩ := AutoTable.lookup_eq_some.mp hrow
  refine updateConsumers_eq fun other hother hid => ?_
  have hsame : other = row := AutoTable.eq_of_key hother hmem (by simpa using hid)
  rw [hsame]
  exact (withCursor_ok (hinv.rows row hmem) now limit).check

end Transaction

/-- The leases of the fresh log entries. -/
def freshLeases (db : Db) (row : ConsumerRow) (now : ℤ) (limit : ℕ) : List Lease :=
  (freshMessages db row now limit).map fun message => ⟨message.id, 1, 1⟩

/-- The leases of a claim, by message. -/
def claimedLeases (db : Db) (row : ConsumerRow) (now deadline : ℤ) (limit : ℕ) : List Lease :=
  sortBy Lease.messageId (retriedLeases db row.id now deadline limit ++
    freshLeases db row now limit)

/-- The message of a lease, if it is stored. -/
def messageOf (db : Db) (lease : Lease) : Option Message := db.messages.lookup lease.messageId

/-- The delivery a lease stands for, if its message is stored. -/
def deliveryOfLease (db : Db) (c : ℤ) (lease : Lease) : Option Delivery :=
  (messageOf db lease).map fun message =>
    ⟨message, lease.deliveryCount.toNat, ⟨c, lease.messageId, lease.generation⟩⟩

/-- The deliveries a claim hands out. -/
def claimedDeliveries (db : Db) (row : ConsumerRow) (now deadline : ℤ) (limit : ℕ) :
    List Delivery :=
  (claimedLeases db row now deadline limit).filterMap (deliveryOfLease db row.id)

section Grant

variable {db : Db} {row : ConsumerRow} {now deadline : ℤ} {limit : ℕ}

/-- A lease of a claim is a retried delivery or the first lease of a fresh entry. -/
theorem mem_claimedLeases {lease : Lease} :
    lease ∈ claimedLeases db row now deadline limit ↔
      (∃ d ∈ selectVisible db row.id now limit, leaseOfRow (releaseUntil deadline d) = lease) ∨
        ∃ message ∈ freshMessages db row now limit, (⟨message.id, 1, 1⟩ : Lease) = lease := by
  simp only [claimedLeases, mem_sortBy, List.mem_append, retriedLeases, freshLeases, List.mem_map]

/-- No message is leased twice by one claim. -/
theorem leases_nodup (hinv : Inv db) (hrow : db.consumers.lookup row.id = some row) :
    ((retriedLeases db row.id now deadline limit ++ freshLeases db row now limit).map
      Lease.messageId).Nodup := by
  rw [List.map_append, List.nodup_append']
  refine ⟨?_, ?_, ?_⟩
  · rw [retriedLeases, List.map_map]
    refine List.Nodup.map_on ?_ (selectVisible_nodup db row.id now limit)
    intro a ha b hb hsame
    obtain ⟨ha, hca, -⟩ := mem_selectVisible ha
    obtain ⟨hb, hcb, -⟩ := mem_selectVisible hb
    exact Table.eq_of_key ha hb (key_eq_iff.mpr ⟨hca.trans hcb.symm, hsame⟩)
  · rw [freshLeases, List.map_map]
    refine List.pairwise_map.mpr ((freshMessages_sorted db row now limit).imp ?_)
    intro a b hlt hsame
    have hid : a.id = b.id := hsame
    omega
  · intro m hretried hfresh
    obtain ⟨lease, hl, rfl⟩ := List.mem_map.mp hretried
    obtain ⟨d, hd, rfl⟩ := List.mem_map.mp hl
    obtain ⟨lease', hl', hm⟩ := List.mem_map.mp hfresh
    obtain ⟨message, hmessage, rfl⟩ := List.mem_map.mp hl'
    obtain ⟨hd, hc, -⟩ := mem_selectVisible hd
    have hlt := selectVisible_lt_fresh hinv hrow hd hc hmessage
    have hid : message.id = d.messageId := hm
    omega

/-- The leases of a claim stand in message order. -/
theorem claimedLeases_sorted (hinv : Inv db) (hrow : db.consumers.lookup row.id = some row)
    (now deadline : ℤ) (limit : ℕ) :
    (claimedLeases db row now deadline limit).Pairwise fun a b => a.messageId < b.messageId :=
  sortBy_strict (leases_nodup hinv hrow)

/-- The message of every lease is stored. -/
theorem claimedLeases_stored (hinv : Inv db) {lease : Lease}
    (hlease : lease ∈ claimedLeases db row now deadline limit) :
    ∃ message, messageOf db lease = some message := by
  rcases mem_claimedLeases.mp hlease with ⟨d, hd, rfl⟩ | ⟨message, hm, rfl⟩
  · obtain ⟨hd, -, -⟩ := mem_selectVisible hd
    obtain ⟨-, message, -, hmessage, -⟩ := hinv.delivery_refers d hd
    exact ⟨message, hmessage⟩
  · exact ⟨message, AutoTable.lookup_key (mem_freshMessages hm).1⟩

/-- The delivery count of every lease is not negative. -/
theorem claimedLeases_count (hinv : Inv db) {lease : Lease}
    (hlease : lease ∈ claimedLeases db row now deadline limit) : 0 ≤ lease.deliveryCount := by
  rcases mem_claimedLeases.mp hlease with ⟨d, hd, rfl⟩ | ⟨message, -, rfl⟩
  · obtain ⟨-, hcount⟩ := hinv.delivery_counts d (mem_selectVisible hd).1
    have hnext : 0 ≤ d.deliveryCount + 1 := by omega
    exact hnext
  · exact Int.one_nonneg

/-- Bodies fetched chunk by chunk are the leases' messages in lease order. -/
theorem fetchMessages_eq (store : Db) {leases : List Lease}
    (hs : leases.Pairwise fun a b => a.messageId < b.messageId) :
    fetchMessages store leases = leases.filterMap (messageOf store) := by
  have hpos : 0 < maxSqlVariables := by decide
  have hflat := flatten_chunks hpos leases
  have hchunk : ∀ chunk ∈ chunks maxSqlVariables leases, fetchMessageChunk store chunk =
      chunk.filterMap (messageOf store) := by
    intro chunk hchunk
    have hsub : chunk.Sublist leases := hflat ▸ List.sublist_flatten_of_mem hchunk
    have hids : (chunk.map Lease.messageId).Pairwise (· < ·) :=
      List.pairwise_map.mpr (hs.sublist hsub)
    have hkeys := store.messages.table.select_keys hids
    rw [List.filterMap_map] at hkeys
    exact hkeys
  have hall : (chunks maxSqlVariables leases).flatMap (fetchMessageChunk store) =
      leases.filterMap (messageOf store) := by
    conv_rhs => rw [← hflat]
    rw [List.filterMap_flatten, List.flatMap_def]
    exact congrArg List.flatten (List.map_congr_left hchunk)
  have hsorted : (leases.filterMap (messageOf store)).Pairwise fun a b => a.id < b.id := by
    refine List.pairwise_filterMap.mpr (hs.imp ?_)
    intro a b hlt m hm m' hm'
    rw [(AutoTable.lookup_eq_some.mp hm).2, (AutoTable.lookup_eq_some.mp hm').2]
    exact hlt
  rw [fetchMessages, hall]
  exact sortBy_eq_of_perm (List.Perm.refl _) hsorted

/-- Leases that all find their messages pair up with them. -/
theorem pair_leases (self : Consumer) (store : Db) (leases : List Lease)
    (hstored : ∀ lease ∈ leases, ∃ message, messageOf store lease = some message)
    (hcount : ∀ lease ∈ leases, 0 ≤ lease.deliveryCount) :
    (leases.filterMap (messageOf store)).length = leases.length ∧
      (leases.zip (leases.filterMap (messageOf store))).any
          (fun pair => pair.1.messageId != pair.2.id) = false ∧
      (leases.zip (leases.filterMap (messageOf store))).mapM (toDelivery self) =
        .ok (leases.filterMap (deliveryOfLease store self.id)) := by
  induction leases with
  | nil => exact ⟨rfl, rfl, rfl⟩
  | cons lease leases ih =>
    obtain ⟨message, hmessage⟩ := hstored lease List.mem_cons_self
    obtain ⟨hlen, hany, hmap⟩ := ih (fun l hl => hstored l (List.mem_cons_of_mem _ hl))
      fun l hl => hcount l (List.mem_cons_of_mem _ hl)
    have hid : message.id = lease.messageId := (AutoTable.lookup_eq_some.mp hmessage).2
    have hhead : toDelivery self (lease, message) =
        .ok ⟨message, lease.deliveryCount.toNat, ⟨self.id, lease.messageId, lease.generation⟩⟩ := by
      simp only [toDelivery, u64TryFrom, if_pos (hcount lease List.mem_cons_self)]
      rfl
    have hdelivery : deliveryOfLease store self.id lease =
        some ⟨message, lease.deliveryCount.toNat,
          ⟨self.id, lease.messageId, lease.generation⟩⟩ := by
      rw [deliveryOfLease, hmessage, Option.map_some]
    have hcons : (lease :: leases).filterMap (messageOf store) =
        message :: leases.filterMap (messageOf store) := List.filterMap_cons_some hmessage
    rw [hcons, List.zip_cons_cons]
    refine ⟨?_, ?_, ?_⟩
    · rw [List.length_cons, List.length_cons, hlen]
    · rw [List.any_cons, hany, hid]
      simp
    · rw [List.filterMap_cons_some hdelivery, List.mapM_cons, hhead, hmap]
      rfl

/-- When every lease finds its message the checks after the commit pass. -/
theorem toDeliveries_eq (self : Consumer) (draining : Bool) (store : Db) {leases : List Lease}
    (hstored : ∀ lease ∈ leases, ∃ message, messageOf store lease = some message)
    (hcount : ∀ lease ∈ leases, 0 ≤ lease.deliveryCount) :
    toDeliveries self ⟨leases, leases.filterMap (messageOf store), draining⟩ =
      .ok (leases.filterMap (deliveryOfLease store self.id)) := by
  obtain ⟨hlen, hany, hmap⟩ := pair_leases self store leases hstored hcount
  unfold toDeliveries
  rw [if_neg]
  · exact hmap
  · simp only [hlen, hany, ne_eq, not_true_eq_false, Bool.false_eq_true, or_self, not_false_eq_true]

/-- A claim without room or range only leases its retries. -/
theorem claimedDb_not_scanned (hrow : db.consumers.lookup row.id = some row)
    (h : ¬(remaining db row.id now limit > 0 ∧ row.scanCursor < scanLimit db row)) :
    claimedDb db row now deadline limit =
      { db with deliveries := releasedTable db row.id now deadline limit } := by
  obtain ⟨hcursor, hfresh⟩ := not_scanned h
  have hconsumers : db.consumers.updateWhere (fun other => other.id == row.id)
      (withCursor (cursorAfter db row now limit)) (advanced_id db row now limit) =
        db.consumers := by
    refine AutoTable.updateWhere_eq_self fun other hother hid => ?_
    obtain ⟨hmem, -⟩ := AutoTable.lookup_eq_some.mp hrow
    have hsame : other = row := AutoTable.eq_of_key hother hmem (by simpa using hid)
    rw [hsame, hcursor]
    rfl
  rw [claimedDb, hconsumers, firstLeases, hfresh]
  rfl

/-- The writer transaction of a claim once its deadline is known. -/
def claimUntil (e : Engine) (self : Consumer) (maxMessages : ℕ) (leaseDeadline now : ℤ) :
    Transaction Leased := fun db =>
  match db.consumers.lookup self.id with
  | none => .error (.consumerDeleted self.name)
  | some row => do
    let scanLimit := row.drainCursor.getD (highWater db)
    let _ ← i64TryFrom maxMessages (.invalidPoll "max_messages is too large")
    let visible ← leaseVisible e self.id now leaseDeadline maxMessages db
    let remaining := maxMessages - visible.2.length
    if remaining > 0 ∧ row.scanCursor < scanLimit then
      let unseen ← leaseUnseen e self.id leaseDeadline row.topicFilter row.scanCursor scanLimit
        remaining visible.1
      let newIds := sortBy id unseen.2
      let moved ← setScanCursor unseen.1 self.id
        (nextCursor row.scanCursor scanLimit remaining newIds)
      let leases := sortBy Lease.messageId
        (visible.2 ++ newIds.map fun messageId => ⟨messageId, 1, 1⟩)
      return (moved, ⟨leases, fetchMessages moved leases, row.drainingAt.isSome⟩)
    else
      let leases := sortBy Lease.messageId visible.2
      return (visible.1, ⟨leases, fetchMessages visible.1 leases, row.drainingAt.isSome⟩)

/-- The writer transaction checks its deadline first. -/
theorem claimTransaction_until (e : Engine) (self : Consumer) (maxMessages : ℕ) (leaseMs now : ℤ)
    (db : Db) : claimTransaction e self maxMessages leaseMs now db = (do
      let leaseDeadline ← checkedAdd now leaseMs
      claimUntil e self maxMessages leaseDeadline now db) := rfl

/-- The writer transaction of a live consumer up to a deadline. -/
theorem claimUntil_eq (e : Engine) {self : Consumer} (hinv : Inv db) (hid : self.id = row.id)
    (hrow : db.consumers.lookup row.id = some row) (hlimit : (limit : ℤ) ≤ i64Max) :
    claimUntil e self limit deadline now db =
      .ok (claimedDb db row now deadline limit,
        ⟨claimedLeases db row now deadline limit,
          (claimedLeases db row now deadline limit).filterMap (messageOf db),
          row.drainingAt.isSome⟩) := by
  obtain ⟨visible, hvisible, hperm⟩ := leaseVisible_eq e hinv row.id now deadline limit
  have hcount : visible.length = (selectVisible db row.id now limit).length := by
    rw [hperm.length_eq, retriedLeases, List.length_map]
  have htry : i64TryFrom limit (.invalidPoll "max_messages is too large") = .ok (limit : ℤ) := by
    rw [i64TryFrom, if_pos hlimit]
  have hroom : limit - visible.length = remaining db row.id now limit := by
    rw [hcount, remaining]
  have hsorted := claimedLeases_sorted hinv hrow now deadline limit
  have hsort : ∀ fresh : List Lease, fresh = freshLeases db row now limit →
      sortBy Lease.messageId (visible ++ fresh) = claimedLeases db row now deadline limit := by
    intro fresh hfresh
    rw [hfresh]
    exact sortBy_congr (hperm.append_right _) (leases_nodup hinv hrow)
  have hfetch : ∀ store : Db, store.messages = db.messages →
      fetchMessages store (claimedLeases db row now deadline limit) =
        (claimedLeases db row now deadline limit).filterMap (messageOf db) := by
    intro store hsame
    rw [fetchMessages_eq store hsorted]
    unfold messageOf
    rw [hsame]
  have hlimitEq : row.drainCursor.getD (highWater db) = scanLimit db row := rfl
  unfold claimUntil
  rw [hid, hrow]
  simp only [bind, Except.bind, htry, hvisible, hroom, hlimitEq]
  by_cases hscan : remaining db row.id now limit > 0 ∧ row.scanCursor < scanLimit db row
  · obtain ⟨ids, hunseen, hids⟩ := leaseUnseen_eq e hinv hrow now deadline limit
    have hcursor : nextCursor row.scanCursor (scanLimit db row) (remaining db row.id now limit)
        ((freshMessages db row now limit).map Message.id) = cursorAfter db row now limit := by
      rw [cursorAfter, if_pos hscan]
    have hfresh : ((freshMessages db row now limit).map Message.id).map
        (fun messageId => (⟨messageId, 1, 1⟩ : Lease)) = freshLeases db row now limit :=
          List.map_map
    have hset := setScanCursor_eq hinv hrow ((releasedTable db row.id now deadline limit).insertMany
      (firstLeases db row now deadline limit)) now limit
    rw [if_pos hscan]
    simp only [hunseen, hids, hcursor, hset, hsort _ hfresh]
    exact congrArg (fun messages => Except.ok (claimedDb db row now deadline limit,
      (⟨claimedLeases db row now deadline limit, messages, row.drainingAt.isSome⟩ : Leased)))
        (hfetch (claimedDb db row now deadline limit) rfl)
  · obtain ⟨hcursor, hfresh⟩ := not_scanned hscan
    have hnone : freshLeases db row now limit = [] := by rw [freshLeases, hfresh, List.map_nil]
    have hvisibleOnly := hsort [] hnone.symm
    rw [List.append_nil] at hvisibleOnly
    have hdb : claimedDb db row now deadline limit =
        { db with deliveries := releasedTable db row.id now deadline limit } :=
      claimedDb_not_scanned hrow hscan
    rw [if_neg hscan, hvisibleOnly, ← hdb]
    exact congrArg (fun messages => Except.ok (claimedDb db row now deadline limit,
      (⟨claimedLeases db row now deadline limit, messages, row.drainingAt.isSome⟩ : Leased)))
        (hfetch (claimedDb db row now deadline limit) rfl)

/-- The writer transaction of a claim with a deadline in range. -/
theorem claimTransaction_eq (e : Engine) {self : Consumer} {leaseMs : ℤ} (hinv : Inv db)
    (hid : self.id = row.id) (hrow : db.consumers.lookup row.id = some row)
    (hdeadline : checkedAdd now leaseMs = .ok deadline) (hlimit : (limit : ℤ) ≤ i64Max) :
    claimTransaction e self limit leaseMs now db =
      .ok (claimedDb db row now deadline limit,
        ⟨claimedLeases db row now deadline limit,
          (claimedLeases db row now deadline limit).filterMap (messageOf db),
          row.drainingAt.isSome⟩) := by
  rw [claimTransaction_until, hdeadline]
  exact claimUntil_eq e hinv hid hrow hlimit

/-- The checks after the commit let every delivery through. -/
theorem toDeliveries_claimed (self : Consumer) (hinv : Inv db) (hid : self.id = row.id) :
    toDeliveries self ⟨claimedLeases db row now deadline limit,
      (claimedLeases db row now deadline limit).filterMap (messageOf db),
      row.drainingAt.isSome⟩ = .ok (claimedDeliveries db row now deadline limit) := by
  rw [claimedDeliveries, ← hid]
  exact toDeliveries_eq self row.drainingAt.isSome db (fun _ h => claimedLeases_stored hinv h)
    fun _ h => claimedLeases_count hinv h

/-- A claim with a deadline in range commits its leases and returns their deliveries. -/
theorem claimCommit_eq (e : Engine) {self : Consumer} {leaseMs : ℤ} (hinv : Inv db)
    (hid : self.id = row.id) (hrow : db.consumers.lookup row.id = some row)
    (hdeadline : checkedAdd now leaseMs = .ok deadline) (hlimit : (limit : ℤ) ≤ i64Max) :
    claimCommit e self limit leaseMs now db =
      (claimedDb db row now deadline limit,
        .ok ⟨claimedDeliveries db row now deadline limit, row.drainingAt.isSome⟩) := by
  have hdeliveries : toDeliveries self ⟨claimedLeases db row now deadline limit,
      (claimedLeases db row now deadline limit).filterMap (messageOf db), row.drainingAt.isSome⟩ =
        .ok (claimedDeliveries db row now deadline limit) := toDeliveries_claimed self hinv hid
  unfold claimCommit commit
  rw [claimTransaction_eq e hinv hid hrow hdeadline hlimit]
  simp only [hdeliveries]
  rfl

/-- What a claim returns: each retry it picked at its next generation, and each
fresh entry at its first. -/
theorem mem_claimedDeliveries {delivery : Delivery} :
    delivery ∈ claimedDeliveries db row now deadline limit ↔
      (∃ d ∈ selectVisible db row.id now limit, ∃ message,
        db.messages.lookup d.messageId = some message ∧
        delivery = ⟨message, (d.deliveryCount + 1).toNat,
          ⟨row.id, d.messageId, d.generation + 1⟩⟩) ∨
      ∃ message ∈ freshMessages db row now limit, delivery =
        ⟨message, 1, ⟨row.id, message.id, 1⟩⟩ := by
  simp only [claimedDeliveries, List.mem_filterMap, mem_claimedLeases, deliveryOfLease,
    Option.map_eq_some_iff, messageOf]
  constructor
  · rintro ⟨lease, ⟨d, hd, rfl⟩ | ⟨message, hm, rfl⟩, message', hmessage, rfl⟩
    · exact Or.inl ⟨d, hd, message', hmessage, rfl⟩
    · have hstored := AutoTable.lookup_key (mem_freshMessages hm).1
      rw [hstored] at hmessage
      cases hmessage
      exact Or.inr ⟨message, hm, rfl⟩
  · rintro (⟨d, hd, message, hmessage, rfl⟩ | ⟨message, hm, rfl⟩)
    · exact ⟨_, Or.inl ⟨d, hd, rfl⟩, message, hmessage, rfl⟩
    · exact ⟨_, Or.inr ⟨message, hm, rfl⟩, message,
        AutoTable.lookup_key (mem_freshMessages hm).1, rfl⟩

/-- The deliveries of a claim stand in message order, each message once. -/
theorem claimedDeliveries_sorted (hinv : Inv db) (hrow : db.consumers.lookup row.id = some row)
    (now deadline : ℤ) (limit : ℕ) :
    (claimedDeliveries db row now deadline limit).Pairwise fun a b =>
      a.message.id < b.message.id := by
  refine List.pairwise_filterMap.mpr ((claimedLeases_sorted hinv hrow now deadline limit).imp ?_)
  intro a b hlt x hx y hy
  obtain ⟨message, hmessage, rfl⟩ := Option.map_eq_some_iff.mp hx
  obtain ⟨message', hmessage', rfl⟩ := Option.map_eq_some_iff.mp hy
  have hid : message.id = a.messageId := (AutoTable.lookup_eq_some.mp hmessage).2
  have hid' : message'.id = b.messageId := (AutoTable.lookup_eq_some.mp hmessage').2
  dsimp only
  omega

end Grant

section Tables

variable {db : Db} {row : ConsumerRow} {now deadline : ℤ} {limit : ℕ}

/-- The deliveries after the retry statement: those left alone and those leased again. -/
theorem mem_releasedTable {c : ℤ} {d : DeliveryRow} :
    d ∈ releasedTable db c now deadline limit ↔
      (d ∈ db.deliveries ∧ d ∉ selectVisible db c now limit) ∨
        ∃ b ∈ selectVisible db c now limit, releaseUntil deadline b = d := by
  have hmem : d ∈ releasedTable db c now deadline limit ↔
      (d ∈ db.deliveries ∧ chosen db c now limit d = false) ∨
        ∃ b ∈ db.deliveries, chosen db c now limit b = true ∧ releaseUntil deadline b = d :=
    Table.mem_updateWhere
  refine hmem.trans (or_congr ?_ ?_)
  · refine and_congr_right fun hd => ?_
    rw [← chosen_iff hd, Bool.not_eq_true]
  · constructor
    · intro h
      obtain ⟨b, hb, hchosen, heq⟩ := h
      exact ⟨b, (chosen_iff hb).mp hchosen, heq⟩
    · intro h
      obtain ⟨b, hb, heq⟩ := h
      have hstored := (mem_selectVisible hb).1
      exact ⟨b, hstored, (chosen_iff hstored).mpr hb, heq⟩

/-- The deliveries after a claim. -/
theorem mem_claimedDb (hinv : Inv db) (hrow : db.consumers.lookup row.id = some row)
    {d : DeliveryRow} :
    d ∈ (claimedDb db row now deadline limit).deliveries ↔
      (∃ message ∈ freshMessages db row now limit, firstLease row.id deadline message.id = d) ∨
      (d ∈ db.deliveries ∧ d ∉ selectVisible db row.id now limit) ∨
        ∃ b ∈ selectVisible db row.id now limit, releaseUntil deadline b = d := by
  have hmem : d ∈ (claimedDb db row now deadline limit).deliveries ↔
      d ∈ firstLeases db row now deadline limit ∨ d ∈ releasedTable db row.id now deadline limit :=
    Table.mem_insertMany (firstLeases_free hinv hrow) (firstLeases_nodup db row now deadline limit)
  rw [hmem, mem_releasedTable, firstLeases, List.mem_map]

/-- The claiming consumer's row after a claim. -/
theorem lookup_claimedDb_self (hrow : db.consumers.lookup row.id = some row) :
    (claimedDb db row now deadline limit).consumers.lookup row.id =
      some (withCursor (cursorAfter db row now limit) row) := by
  have hlookup : (claimedDb db row now deadline limit).consumers.lookup row.id =
      (db.consumers.lookup row.id).map (Table.rowUpdate (fun other => other.id == row.id)
        (withCursor (cursorAfter db row now limit))) := AutoTable.lookup_updateWhere _ _
  rw [hlookup, hrow, Option.map_some, Table.rowUpdate, if_pos (beq_self_eq_true row.id)]

/-- Every other consumer's row is as before. -/
theorem lookup_claimedDb_other {c : ℤ} (hc : c ≠ row.id) :
    (claimedDb db row now deadline limit).consumers.lookup c = db.consumers.lookup c := by
  have hlookup : (claimedDb db row now deadline limit).consumers.lookup c =
      (db.consumers.lookup c).map (Table.rowUpdate (fun other => other.id == row.id)
        (withCursor (cursorAfter db row now limit))) := AutoTable.lookup_updateWhere _ _
  rw [hlookup]
  cases hother : db.consumers.lookup c with
  | none => rfl
  | some other =>
    have hid : other.id = c := (AutoTable.lookup_eq_some.mp hother).2
    have hne : ¬(other.id == row.id) = true := by simpa [hid] using hc
    rw [Option.map_some, Table.rowUpdate, if_neg hne]

end Tables

end LiteFan.Effect

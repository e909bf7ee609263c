import LiteFan.ReceiptBatches

/-!
# Archiving as a move

An archive batch takes each delivery that a current receipt of the list names
out of the deliveries and puts one row for it into the archive, under the next
identifiers in message order. Removal and insertion are chunked differently
around a sort, and neither the chunks nor the order of the list shows.
-/

namespace LiteFan.ArchiveMoves

open LiteFan.Api LiteFan.Time LiteFan.Schema LiteFan.Storage LiteFan.Store LiteFan.Consumer
open LiteFan.System LiteFan.Invariant LiteFan.Effect LiteFan.Step LiteFan.Preservation
open LiteFan.ReceiptBatches Relational

/-- The deliveries of the consumer that a receipt of the list names as they are stored. -/
def named (db : Db) (c : ℤ) (receipts : List Receipt) : List DeliveryRow :=
  db.deliveries.select (pushReceiptPredicate c receipts)

/-- The archive rows of the named deliveries, under the next identifiers in message order. -/
def addedRows (db : Db) (c : ℤ) (receipts : List Receipt) (archivedAt : ℤ)
    (detail : Option String) :
    List ArchiveRow :=
  List.zipWith (archiveRow archivedAt detail) (archivedLeases db c receipts)
    (db.archives.freshKeys (archivedLeases db c receipts).length)

section Rows

variable {db : Db} {c archivedAt : ℤ} {receipts : List Receipt} {detail : Option String}

theorem mem_named {d : DeliveryRow} : d ∈ named db c receipts ↔
    d ∈ db.deliveries ∧ d.consumerId = c ∧ receiptOf d ∈ receipts := by
  simp only [named, Table.mem_select, pushReceiptPredicate_iff]

/-- What an archive row keeps of its delivery. -/
def keptColumns (a : ArchiveRow) : ℤ × ℤ × ℤ × ℤ :=
  (a.consumerId, a.messageId, a.deliveryCount, a.lastGeneration)

/-- What a delivery hands to its archive row. -/
def movedColumns (d : DeliveryRow) : ℤ × ℤ × ℤ × ℤ :=
  (d.consumerId, d.messageId, d.deliveryCount, d.generation)

/-- The added rows are those of the named deliveries, one for each, in message order. -/
theorem addedRows_columns (db : Db) (c : ℤ) (receipts : List Receipt) (archivedAt : ℤ)
    (detail : Option String) :
    (addedRows db c receipts archivedAt detail).map keptColumns =
      (named db c receipts).map movedColumns := by
  have hzip : ∀ (leases : List ArchivedLease) (ids : List ℤ), leases.length = ids.length →
      (List.zipWith (archiveRow archivedAt detail) leases ids).map keptColumns =
        leases.map fun l => (l.consumerId, l.messageId, l.deliveryCount, l.generation) := by
    intro leases ids hlength
    induction leases generalizing ids with
    | nil => rfl
    | cons lease leases ih =>
      obtain ⟨id, ids, rfl⟩ := List.exists_cons_of_length_eq_add_one hlength.symm
      have hrest : leases.length = ids.length := by simpa using hlength
      exact congrArg (List.cons _) (ih ids hrest)
  rw [addedRows, hzip _ _ (AutoTable.length_freshKeys _ _).symm, archivedLeases, List.map_map]
  rfl

/-- The added rows stand under the next identifiers. -/
theorem addedRows_ids (db : Db) (c : ℤ) (receipts : List Receipt) (archivedAt : ℤ)
    (detail : Option String) :
    (addedRows db c receipts archivedAt detail).map ArchiveRow.id =
      db.archives.freshKeys (archivedLeases db c receipts).length := by
  have hzip : ∀ (leases : List ArchivedLease) (ids : List ℤ), leases.length = ids.length →
      (List.zipWith (archiveRow archivedAt detail) leases ids).map ArchiveRow.id = ids := by
    intro leases ids hlength
    induction leases generalizing ids with
    | nil => exact (List.length_eq_zero_iff.mp hlength.symm).symm
    | cons lease leases ih =>
      obtain ⟨id, ids, rfl⟩ := List.exists_cons_of_length_eq_add_one hlength.symm
      have hrest : leases.length = ids.length := by simpa using hlength
      exact congrArg (List.cons id) (ih ids hrest)
  exact hzip _ _ (AutoTable.length_freshKeys _ _).symm

/-- Identifiers and messages of the added rows increase together. -/
theorem addedRows_sorted (db : Db) (c : ℤ) (receipts : List Receipt) (archivedAt : ℤ)
    (detail : Option String) :
    (addedRows db c receipts archivedAt detail).Pairwise fun a b =>
      a.id < b.id ∧ a.messageId < b.messageId := by
  have hids : (addedRows db c receipts archivedAt detail).Pairwise fun a b => a.id < b.id := by
    refine List.pairwise_map.mp ?_
    rw [addedRows_ids]
    exact db.archives.freshKeys_sorted _
  have hmessages : (addedRows db c receipts archivedAt detail).Pairwise
      fun a b => a.messageId < b.messageId := by
    have hmoved : ((named db c receipts).map movedColumns).Pairwise fun a b => a.2.1 < b.2.1 := by
      have hsorted := archivedLeases_sorted db c receipts
      rw [archivedLeases, List.pairwise_map] at hsorted
      rw [List.pairwise_map]
      exact hsorted
    rw [← addedRows_columns, List.pairwise_map] at hmoved
    exact hmoved
  exact hids.and hmessages

/-- Every added row carries the shared time and detail. -/
theorem addedRows_shared {a : ArchiveRow} (h : a ∈ addedRows db c receipts archivedAt detail) :
    a.archivedAt = archivedAt ∧ a.detail = detail ∧ a.consumerId = c ∧ db.archives.seq < a.id := by
  have hid : a.id ∈ (addedRows db c receipts archivedAt detail).map ArchiveRow.id :=
    List.mem_map_of_mem h
  rw [addedRows_ids] at hid
  have hcolumns : keptColumns a ∈ (addedRows db c receipts archivedAt detail).map keptColumns :=
    List.mem_map_of_mem h
  rw [addedRows_columns] at hcolumns
  obtain ⟨d, hd, hsame⟩ := List.mem_map.mp hcolumns
  have hc : d.consumerId = a.consumerId := congrArg Prod.fst hsame
  obtain ⟨i, lease, id, -, -, rfl⟩ : ∃ i lease id,
      (archivedLeases db c receipts)[i]? = some lease ∧
      (db.archives.freshKeys (archivedLeases db c receipts).length)[i]? = some id ∧
      archiveRow archivedAt detail lease id = a := by
    obtain ⟨i, hi⟩ := List.mem_iff_getElem?.mp h
    rw [addedRows, List.getElem?_zipWith_eq_some] at hi
    obtain ⟨lease, id, hlease, hkey, hrow⟩ := hi
    exact ⟨i, lease, id, hlease, hkey, hrow⟩
  exact ⟨rfl, rfl, hc.symm.trans (mem_named.mp hd).2.1, (AutoTable.mem_freshKeys.mp hid).1⟩

/-- The archive after the batch: what was there, then the added rows. -/
theorem archivedDb_rows (db : Db) (c : ℤ) (receipts : List Receipt) (archivedAt : ℤ)
    (detail : Option String) :
    (archivedDb db c receipts archivedAt detail).archives.table.rows =
      db.archives.table.rows ++ addedRows db c receipts archivedAt detail :=
  AutoTable.appendAll_rows _ _

end Rows

section Counts

variable {db : Db} {c : ℤ}

/-- Deleting rows that were selected takes them out of the selection. -/
theorem length_select_deleteWhere {p q : DeliveryRow → Bool} (hsub : ∀ d, q d = true → p d = true)
    (t : Table DeliveryRow DeliveryRow.key) :
    ((t.deleteWhere q).select p).length + (t.select q).length = (t.select p).length := by
  have hor : (fun d => q d || p d) = p := by
    funext d
    cases hq : q d with
    | false => rfl
    | true => rw [hsub d hq, Bool.true_or]
  have hperm := (t.select_or_perm q p).length_eq
  rw [hor, List.length_append] at hperm
  omega

/-- A consumer's outstanding work falls by the deliveries taken out. -/
theorem outstanding_archived {row : ConsumerRow} (receipts : List Receipt) (archivedAt : ℤ)
    (detail : Option String) :
    outstandingCount (archivedDb db row.id receipts archivedAt detail) row +
        (named db row.id receipts).length = outstandingCount db row := by
  have hdeliveries : (deliveriesOf
      (archivedDb db row.id receipts archivedAt detail) row.id).length +
      (named db row.id receipts).length = (deliveriesOf db row.id).length :=
    length_select_deleteWhere (fun d h => by simpa using (pushReceiptPredicate_iff.mp h).1)
      db.deliveries
  have hwaiting : (archivedDb db row.id receipts archivedAt detail).messages = db.messages := rfl
  rw [outstandingCount, outstandingCount, hwaiting]
  omega

/-- Its archived work rises by the rows added. -/
theorem archived_archived {row : ConsumerRow} (receipts : List Receipt) (archivedAt : ℤ)
    (detail : Option String) :
    archivedCount (archivedDb db row.id receipts archivedAt detail) row =
      archivedCount db row + (addedRows db row.id receipts archivedAt detail).length := by
  have hown : (addedRows db row.id receipts archivedAt detail).filter
      (fun a => a.consumerId == row.id) =
      addedRows db row.id receipts archivedAt detail :=
    List.filter_eq_self.mpr fun a ha => by simpa using (addedRows_shared ha).2.2.1
  have hrows : archivesOf (archivedDb db row.id receipts archivedAt detail) row.id =
      archivesOf db row.id ++ addedRows db row.id receipts archivedAt detail := by
    change (archivedDb db row.id receipts archivedAt detail).archives.table.rows.filter _ = _
    rw [archivedDb_rows, List.filter_append, hown]
    rfl
  rw [archivedCount, archivedCount, hrows, List.length_append]

end Counts

/-- What an archive batch leaves and reports. -/
structure Moved (handle : Consumer) (receipts : List Receipt) (detail : Option String)
    (archivedAt : ℤ) (db db' : Db) (result : BatchResult) : Prop where
  /-- Applied are the distinct current receipts, stale is the rest. -/
  applied : result = ⟨(current db handle.id receipts).length,
    receipts.length - (current db handle.id receipts).length⟩
  /-- Exactly the named deliveries of the consumer are gone. -/
  removed : ∀ d, d ∈ db'.deliveries ↔
    d ∈ db.deliveries ∧ ¬(d.consumerId = handle.id ∧ receiptOf d ∈ receipts)
  /-- The rows added are one for each removed delivery, with its message, count and generation;
  they carry the detail and one time, their identifiers exceed all handed out before and
  increase with the message. -/
  added : ∃ rows, db'.archives.table.rows = db.archives.table.rows ++ rows ∧
    rows.map keptColumns = (named db handle.id receipts).map movedColumns ∧
    rows.length = result.applied ∧
    (∀ a ∈ rows, a.archivedAt = archivedAt ∧ a.detail = detail ∧ db.archives.seq < a.id) ∧
    rows.Pairwise fun a b => a.id < b.id ∧ a.messageId < b.messageId
  /-- The consumer's outstanding work falls and its archived work rises by what was applied. -/
  counts : ∀ row, db.consumers.lookup handle.id = some row →
    outstandingCount db' row + result.applied = outstandingCount db row ∧
    archivedCount db' row = archivedCount db row + result.applied ∧
    outstandingCount db' row + archivedCount db' row =
      outstandingCount db row + archivedCount db row
  /-- The log, the ledger and the consumers are as before. -/
  frame : db'.messages = db.messages ∧ db'.idempotency = db.idempotency ∧
    db'.consumers = db.consumers

section Moves

variable {handle : Consumer} {receipts : List Receipt} {db : Db}

/-- The move a batch within the limit makes. -/
theorem moved_archivedDb (detail : Option String) (archivedAt : ℤ) :
    Moved handle receipts detail archivedAt db (archivedDb db handle.id receipts archivedAt detail)
      (batchResult receipts.length (archivedLeases db handle.id receipts).length) := by
  have hlength : (archivedLeases db handle.id receipts).length =
      (named db handle.id receipts).length := List.length_map _
  have hcurrent : (current db handle.id receipts).length = (named db handle.id receipts).length :=
    length_current db handle.id receipts
  have hadded : (addedRows db handle.id receipts archivedAt detail).length =
      (named db handle.id receipts).length := by
    have hcolumns := congrArg List.length
        (addedRows_columns db handle.id receipts archivedAt detail)
    rwa [List.length_map, List.length_map] at hcolumns
  constructor
  · rw [hlength, hcurrent]
    rfl
  · intro d
    have hmem : d ∈ (archivedDb db handle.id receipts archivedAt detail).deliveries ↔
        d ∈ db.deliveries ∧ pushReceiptPredicate handle.id receipts d = false :=
          Table.mem_deleteWhere
    rw [hmem, ← pushReceiptPredicate_iff, Bool.not_eq_true]
  · refine ⟨addedRows db handle.id receipts archivedAt detail, archivedDb_rows _ _ _ _ _,
      addedRows_columns _ _ _ _ _, hadded.trans hlength.symm, fun a ha => ?_,
      addedRows_sorted _ _ _ _ _⟩
    obtain ⟨hat, hdetail, -, hid⟩ := addedRows_shared ha
    exact ⟨hat, hdetail, hid⟩
  · intro row hrow
    have hid : row.id = handle.id := (AutoTable.lookup_eq_some.mp hrow).2
    have hout : outstandingCount (archivedDb db row.id receipts archivedAt detail) row +
        (named db row.id receipts).length = outstandingCount db row :=
      outstanding_archived receipts archivedAt detail
    have harc : archivedCount (archivedDb db row.id receipts archivedAt detail) row =
        archivedCount db row + (addedRows db row.id receipts archivedAt detail).length :=
      archived_archived receipts archivedAt detail
    have happlied : (batchResult receipts.length
        (archivedLeases db handle.id receipts).length).applied =
        (named db handle.id receipts).length := hlength
    rw [hid] at hout harc
    omega
  · exact ⟨rfl, rfl, rfl⟩

/-- In every reachable state an archive batch within the limit commits, is an exact move, and
is the same for every arrangement of its list and whatever order removed rows come back in. -/
theorem archive_moves (fan : Inner) (handle : Consumer) (hreachable : Reachable db)
    (hle : receipts.length ≤ fan.maxBatchSize) (detail : Option String) (archivedAt : ℤ) :
    ∃ db' result, Moved handle receipts detail archivedAt db db' result ∧
      ∀ (e : Engine) (receipts' : List Receipt), receipts'.Perm receipts →
        archiveBatchWithDetail e fan handle receipts' detail archivedAt db = .ok (db', result) := by
  refine ⟨_, _, moved_archivedDb detail archivedAt, fun e receipts' hperm => ?_⟩
  have hlength := hperm.length_eq
  have hnamed := named_perm (c := handle.id) hperm
  have hleases : archivedLeases db handle.id receipts' = archivedLeases db handle.id receipts := by
    rw [archivedLeases, archivedLeases, hnamed]
  have hdb : archivedDb db handle.id receipts' archivedAt detail =
      archivedDb db handle.id receipts archivedAt detail := by
    unfold archivedDb
    rw [hnamed, hleases]
  by_cases hpos : 0 < receipts.length
  · rw [archiveBatchWithDetail_eq e (inv_reachable hreachable) (by omega) (by omega), hdb,
      hleases, hlength]
  · obtain rfl : receipts = [] := List.length_eq_zero_iff.mp (by omega)
    obtain rfl : receipts' = [] := hperm.eq_nil
    have hnone : ∀ d, pushReceiptPredicate handle.id [] d = false :=
      pushReceiptPredicate_nil handle.id
    have hempty : named db handle.id [] = [] :=
      List.filter_eq_nil_iff.mpr fun d _ => by rw [hnone d]; exact Bool.false_ne_true
    have hleases' : archivedLeases db handle.id [] = [] := by
      rw [archivedLeases]
      exact congrArg (List.map ArchivedLease.fromRow) hempty
    have hkeep : archivedDb db handle.id [] archivedAt detail = db := by
      unfold archivedDb deleteDeliveries
      rw [hleases', Table.deleteWhere_eq_self fun d _ => hnone d]
      rfl
    rw [hkeep, hleases']
    rfl

/-- Two messages are published and leased. -/
def pairOps : List Op :=
  [.openConsumer "jobs" .all 0, .publishBatch [⟨none, [7], none⟩, ⟨none, [8], none⟩] 0,
    .claim firstHandle ⟨2, 1000000, 0⟩ 0]

set_option maxRecDepth 10000 in
/-- Both are archived by receipts given in reverse, one of them twice. -/
theorem archive_moves_reversed :
    ∃ db' result, Moved firstHandle [⟨1, 2, 1⟩, ⟨1, 1, 1⟩, ⟨1, 2, 1⟩] (some "late") 5
      (outcomeDb Engine.inOrder Inner.default pairOps Db.empty) db' result ∧ result = ⟨2, 1⟩ := by
  have hle : ([⟨1, 2, 1⟩, ⟨1, 1, 1⟩, ⟨1, 2, 1⟩] : List Receipt).length ≤
      Inner.default.maxBatchSize := by
    decide
  obtain ⟨db', result, hmoved, -⟩ := archive_moves Inner.default firstHandle
    (reachable_outcome Engine.inOrder Inner.default pairOps) hle (some "late") 5
  exact ⟨db', result, hmoved, hmoved.applied⟩

end Moves

end LiteFan.ArchiveMoves

import LiteFan.Effect.Polls
import LiteFan.Effect.Snapshots
import LiteFan.Preservation
import Mathlib.Algebra.BigOperators.Group.List.Basic

/-!
# Counting and handing out outstanding work

A snapshot, a deletion and a claim read the outstanding messages of a consumer
through conditions of their own; all denote its deliveries and its unseen log
entries. Rounds of claims and acknowledgements hand exactly these out, each
once, whatever the batch sizes are.
-/

namespace LiteFan.Outstanding

open LiteFan.Api LiteFan.Time LiteFan.Schema LiteFan.Storage LiteFan.Store LiteFan.Consumer
open LiteFan.System LiteFan.Invariant LiteFan.Effect LiteFan.Step LiteFan.Preservation Relational

/-- The outstanding messages of a consumer: its deliveries and its unseen log entries. -/
def owedIds (db : Db) (row : ConsumerRow) : List ℤ :=
  (deliveriesOf db row.id).map DeliveryRow.messageId ++ (unseen db row).map Message.id

/-- One claim of the hand-out and the readings it takes. -/
structure Round where
  engine : Engine
  poll : Poll
  now : ℤ

/-- A claim with the poll's arguments, and an acknowledgement of all it returned. -/
def handRound (fan : Inner) (self : Consumer) (round : Round) (db : Db) :
    Db × Except Error (List Delivery) :=
  match pollLease fan round.poll with
  | .error err => (db, .error err)
  | .ok none => (db, .ok [])
  | .ok (some leaseMs) =>
    match claim round.engine self round.poll.maxMessages leaseMs round.now db with
    | (db', .error err) => (db', .error err)
    | (db', .ok found) =>
      match commit (ackBatch fan self (found.deliveries.map Delivery.receipt)) db' with
      | (db'', .error err) => (db'', .error err)
      | (db'', .ok _) => (db'', .ok found.deliveries)

/-- Rounds with nothing else happening in between. -/
def handOut (fan : Inner) (self : Consumer) : List Round → Db →
    Db × Except Error (List (List Delivery))
  | [], db => (db, .ok [])
  | round :: rounds, db =>
    match handRound fan self round db with
    | (db', .error err) => (db', .error err)
    | (db', .ok batch) =>
      match handOut fan self rounds db' with
      | (db'', .error err) => (db'', .error err)
      | (db'', .ok batches) => (db'', .ok (batch :: batches))

/-- The round asks for a positive batch, its lease deadline fits, and it reads the
clock after every visibility deadline of the consumer. -/
structure Ready (fan : Inner) (db : Db) (c : ℤ) (round : Round) : Prop where
  lease : ∃ leaseMs deadline, pollLease fan round.poll = .ok (some leaseMs) ∧
    checkedAdd round.now leaseMs = .ok deadline
  deadlines : ∀ d ∈ db.deliveries, d.consumerId = c → d.visibleAt ≤ round.now

section Owed

variable {db : Db} {row : ConsumerRow}

/-- Outstanding messages are as many as a deletion counts. -/
theorem length_owedIds (db : Db) (row : ConsumerRow) :
    (owedIds db row).length = outstandingCount db row := by
  rw [owedIds, List.length_append, List.length_map, List.length_map, unseen_eq, outstandingCount]

/-- No message is delivered twice. -/
theorem deliveriesOf_ids_nodup (db : Db) (row : ConsumerRow) :
    ((deliveriesOf db row.id).map DeliveryRow.messageId).Nodup := by
  refine List.Nodup.map_on (fun a ha b hb hsame => ?_) (db.deliveries.select_nodup _)
  obtain ⟨ha, hca⟩ := mem_deliveriesOf.mp ha
  obtain ⟨hb, hcb⟩ := mem_deliveriesOf.mp hb
  exact Table.eq_of_key ha hb (key_eq_iff.mpr ⟨hca.trans hcb.symm, hsame⟩)

theorem unseen_nodup (db : Db) (row : ConsumerRow) : (unseen db row).Nodup :=
  db.messages.table.select_nodup _

/-- No message is outstanding twice: what is delivered is behind the cursor. -/
theorem owedIds_nodup (hinv : Inv db) (hrow : db.consumers.lookup row.id = some row) :
    (owedIds db row).Nodup := by
  refine List.nodup_append.mpr ⟨deliveriesOf_ids_nodup db row, ?_, ?_⟩
  · exact List.pairwise_map.mpr ((unseen_sorted db row).imp fun h => h.ne)
  · intro a ha b hb hsame
    obtain ⟨d, hd, rfl⟩ := List.mem_map.mp ha
    obtain ⟨message, hmessage, rfl⟩ := List.mem_map.mp hb
    obtain ⟨hstored, hc⟩ := mem_deliveriesOf.mp hd
    have hle := (hinv.delivery_refers d hstored)
    rw [hc] at hle
    have hle := hle.le_cursor hrow
    have hlt := (mem_unseen.mp hmessage).2.1
    omega

end Owed

section Round

variable {db : Db} {row : ConsumerRow} {now deadline : ℤ} {limit : ℕ}

/-- The database a round leaves: the picked deliveries are gone and the cursor moved. -/
def handedDb (db : Db) (row : ConsumerRow) (now : ℤ) (limit : ℕ) : Db :=
  { db with
    consumers := db.consumers.updateWhere (fun other => other.id == row.id)
      (withCursor (cursorAfter db row now limit)) (advanced_id db row now limit)
    deliveries := db.deliveries.deleteWhere (chosen db row.id now limit) }

/-- The receipts a claim returned. -/
theorem mem_claimedReceipts (hinv : Inv db) {r : Receipt} :
    r ∈ (claimedDeliveries db row now deadline limit).map Delivery.receipt ↔
      (∃ d ∈ selectVisible db row.id now limit, r = ⟨row.id, d.messageId, d.generation + 1⟩) ∨
        ∃ message ∈ freshMessages db row now limit, r = ⟨row.id, message.id, 1⟩ := by
  rw [List.mem_map]
  constructor
  · intro h
    obtain ⟨delivery, hmem, rfl⟩ := h
    rcases mem_claimedDeliveries.mp hmem with ⟨d, hd, message, -, rfl⟩ | ⟨message, hfresh, rfl⟩
    · exact Or.inl ⟨d, hd, rfl⟩
    · exact Or.inr ⟨message, hfresh, rfl⟩
  · intro h
    rcases h with ⟨d, hd, rfl⟩ | ⟨message, hfresh, rfl⟩
    · obtain ⟨-, message, -, hmessage, -⟩ := hinv.delivery_refers d (mem_selectVisible hd).1
      exact ⟨_, mem_claimedDeliveries.mpr (Or.inl ⟨d, hd, message, hmessage, rfl⟩), rfl⟩
    · exact ⟨_, mem_claimedDeliveries.mpr (Or.inr ⟨message, hfresh, rfl⟩), rfl⟩

/-- Acknowledging all a claim returned removes exactly what it leased. -/
theorem acked_claimed (hinv : Inv db) (hrow : db.consumers.lookup row.id = some row)
    (now deadline : ℤ) (limit : ℕ) :
    deleteDeliveries (claimedDb db row now deadline limit) (pushReceiptPredicate row.id
      ((claimedDeliveries db row now deadline limit).map Delivery.receipt)) =
        handedDb db row now limit := by
  have hnamed : ∀ d, pushReceiptPredicate row.id
      ((claimedDeliveries db row now deadline limit).map Delivery.receipt) d = true ↔
      d.consumerId = row.id ∧ ((∃ b ∈ selectVisible db row.id now limit,
        receiptOf d = ⟨row.id, b.messageId, b.generation + 1⟩) ∨
        ∃ message ∈ freshMessages db row now limit, receiptOf d = ⟨row.id, message.id, 1⟩) := by
    intro d
    rw [pushReceiptPredicate_iff, mem_claimedReceipts hinv]
  have hrows : (claimedDb db row now deadline limit).deliveries.deleteWhere
      (pushReceiptPredicate row.id
        ((claimedDeliveries db row now deadline limit).map Delivery.receipt)) =
      db.deliveries.deleteWhere (chosen db row.id now limit) := by
    refine Table.ext_mem fun d => ?_
    rw [Table.mem_deleteWhere, Table.mem_deleteWhere, mem_claimedDb hinv hrow]
    constructor
    · intro h
      obtain ⟨hmem, hkept⟩ := h
      rcases hmem with ⟨message, hfresh, rfl⟩ | ⟨hstored, hleft⟩ | ⟨b, hb, rfl⟩
      · rw [(hnamed _).mpr ⟨rfl, Or.inr ⟨message, hfresh, rfl⟩⟩] at hkept
        cases hkept
      · refine ⟨hstored, ?_⟩
        by_contra hpicked
        exact hleft ((chosen_iff hstored).mp (eq_true_of_ne_false hpicked))
      · have hc := (mem_selectVisible hb).2.1
        have hlisted : receiptOf (releaseUntil deadline b) =
            ⟨row.id, b.messageId, b.generation + 1⟩ := by
          rw [← hc]
          rfl
        rw [(hnamed (releaseUntil deadline b)).mpr ⟨hc, Or.inl ⟨b, hb, hlisted⟩⟩] at hkept
        cases hkept
    · intro h
      obtain ⟨hstored, hleft⟩ := h
      have hpicked : d ∉ selectVisible db row.id now limit := by
        intro hmem
        rw [(chosen_iff hstored).mpr hmem] at hleft
        cases hleft
      refine ⟨Or.inr (Or.inl ⟨hstored, hpicked⟩), ?_⟩
      by_contra hcontra
      obtain ⟨hc, hlisted⟩ := (hnamed d).mp (eq_true_of_ne_false hcontra)
      rcases hlisted with ⟨b, hb, heq⟩ | ⟨message, hfresh, heq⟩
      · have hm : d.messageId = b.messageId := congrArg Receipt.messageId heq
        obtain ⟨hbstored, hbc, -⟩ := mem_selectVisible hb
        have hsame := Table.eq_of_key hstored hbstored (key_eq_iff.mpr ⟨hc.trans hbc.symm, hm⟩)
        exact hpicked (hsame ▸ hb)
      · have hm : d.messageId = message.id := congrArg Receipt.messageId heq
        have hlt := selectVisible_lt_fresh hinv hrow hstored hc hfresh
        omega
  rw [deleteDeliveries, hrows]
  rfl

/-- A round keeps the invariant. -/
theorem inv_handed (hinv : Inv db) (hrow : db.consumers.lookup row.id = some row) (now : ℤ)
    (limit : ℕ) : Inv (handedDb db row now limit) := by
  rw [← acked_claimed hinv hrow now now limit]
  exact inv_acked (inv_granted hinv hrow now now limit) _

/-- The consumer's row after a round. -/
theorem lookup_handed (hrow : db.consumers.lookup row.id = some row) (now : ℤ) (limit : ℕ) :
    (handedDb db row now limit).consumers.lookup row.id =
      some (withCursor (cursorAfter db row now limit) row) :=
  show (claimedDb db row now now limit).consumers.lookup row.id = _ from lookup_claimedDb_self hrow

/-- The claimed deliveries name the picked rows and the fresh entries. -/
theorem claimed_ids_perm (hinv : Inv db) (row : ConsumerRow) (now deadline : ℤ) (limit : ℕ) :
    ((claimedDeliveries db row now deadline limit).map fun delivery => delivery.message.id).Perm
      ((selectVisible db row.id now limit).map DeliveryRow.messageId ++
        (freshMessages db row now limit).map Message.id) := by
  have hids : (claimedDeliveries db row now deadline limit).map
      (fun delivery => delivery.message.id) =
      (claimedLeases db row now deadline limit).map Lease.messageId := by
    have hstored := fun lease (h : lease ∈ claimedLeases db row now deadline limit) =>
      claimedLeases_stored hinv h
    unfold claimedDeliveries
    generalize claimedLeases db row now deadline limit = leases at hstored
    induction leases with
    | nil => rfl
    | cons lease leases ih =>
      obtain ⟨message, hmessage⟩ := hstored lease List.mem_cons_self
      have hone : deliveryOfLease db row.id lease = some ⟨message, lease.deliveryCount.toNat,
          ⟨row.id, lease.messageId, lease.generation⟩⟩ := by rw [deliveryOfLease, hmessage]; rfl
      have hid : message.id = lease.messageId := (AutoTable.lookup_eq_some.mp hmessage).2
      rw [List.filterMap_cons_some hone, List.map_cons, List.map_cons,
        ih fun other hother => hstored other (List.mem_cons_of_mem _ hother), hid]
  have hleases : (retriedLeases db row.id now deadline limit ++ freshLeases db row now limit).map
      Lease.messageId = (selectVisible db row.id now limit).map DeliveryRow.messageId ++
        (freshMessages db row now limit).map Message.id := by
    rw [List.map_append, retriedLeases, freshLeases, List.map_map, List.map_map]
    rfl
  rw [hids, ← hleases]
  exact (sortBy_perm _ _).map _

/-- What a consumer has yet to be given depends on nothing but the log and its row. -/
theorem unseen_congr {db' : Db} (h : db'.messages = db.messages) (row : ConsumerRow) :
    unseen db' row = unseen db row := by
  rw [unseen_eq, unseen_eq, h]

/-- A consumer that was given log entries has yet to be given the others. -/
theorem mem_unseen_advanced {message : Message} :
    message ∈ unseen db (withCursor (cursorAfter db row now limit) row) ↔
      message ∈ unseen db row ∧ message ∉ freshMessages db row now limit := by
  have hbounds := (cursorAfter_bounds db row now limit).1
  constructor
  · intro h
    obtain ⟨hmem, hbeyond, hlimit, hmatches⟩ := mem_unseen.mp h
    have hbeyond : cursorAfter db row now limit < message.id := hbeyond
    have hunseen : message ∈ unseen db row := mem_unseen.mpr ⟨hmem, by omega, hlimit, hmatches⟩
    refine ⟨hunseen, fun hfresh => ?_⟩
    have hle := (mem_freshMessages_iff hunseen).mp hfresh
    omega
  · intro h
    obtain ⟨hunseen, hfresh⟩ := h
    obtain ⟨hmem, -, hlimit, hmatches⟩ := mem_unseen.mp hunseen
    have hbeyond : ¬message.id ≤ cursorAfter db row now limit :=
      fun hle => hfresh ((mem_freshMessages_iff hunseen).mpr hle)
    exact mem_unseen.mpr ⟨hmem, not_le.mp hbeyond, hlimit, hmatches⟩

/-- A round hands out part of what is outstanding and leaves the rest. -/
theorem handed_perm (hinv : Inv db) (row : ConsumerRow) (now deadline : ℤ) (limit : ℕ) :
    (((claimedDeliveries db row now deadline limit).map fun delivery => delivery.message.id) ++
      owedIds (handedDb db row now limit) (withCursor (cursorAfter db row now limit) row)).Perm
        (owedIds db row) := by
  have hdeliveries : (selectVisible db row.id now limit ++
      deliveriesOf (handedDb db row now limit) row.id).Perm (deliveriesOf db row.id) := by
    have hrest : ∀ d, d ∈ deliveriesOf (handedDb db row now limit) row.id ↔
        d ∈ deliveriesOf db row.id ∧ d ∉ selectVisible db row.id now limit := by
      intro d
      have hmem : d ∈ (handedDb db row now limit).deliveries ↔
          d ∈ db.deliveries ∧ chosen db row.id now limit d = false := Table.mem_deleteWhere
      rw [mem_deliveriesOf, mem_deliveriesOf, hmem, and_right_comm]
      refine and_congr_right fun h => ?_
      rw [← Bool.not_eq_true, chosen_iff h.1]
    refine (List.perm_ext_iff_of_nodup ?_ (db.deliveries.select_nodup _)).mpr fun d => ?_
    · refine List.nodup_append.mpr ⟨selectVisible_nodup _ _ _ _, Table.select_nodup _ _, ?_⟩
      intro a ha b hb hsame
      exact ((hrest b).mp hb).2 (hsame ▸ ha)
    · rw [List.mem_append, hrest]
      constructor
      · intro h
        rcases h with hpicked | ⟨howed, -⟩
        · obtain ⟨hstored, hc, -⟩ := mem_selectVisible hpicked
          exact mem_deliveriesOf.mpr ⟨hstored, hc⟩
        · exact howed
      · intro howed
        by_cases hpicked : d ∈ selectVisible db row.id now limit
        · exact Or.inl hpicked
        · exact Or.inr ⟨howed, hpicked⟩
  have hlog : (freshMessages db row now limit ++ unseen (handedDb db row now limit)
      (withCursor (cursorAfter db row now limit) row)).Perm (unseen db row) := by
    have hrest : ∀ message, message ∈ unseen (handedDb db row now limit)
        (withCursor (cursorAfter db row now limit) row) ↔
        message ∈ unseen db row ∧ message ∉ freshMessages db row now limit := by
      intro message
      have hsame : (handedDb db row now limit).messages = db.messages := rfl
      rw [unseen_congr hsame, mem_unseen_advanced]
    refine (List.perm_ext_iff_of_nodup ?_ (unseen_nodup db row)).mpr fun message => ?_
    · refine List.nodup_append.mpr ⟨(unseen_nodup db row).sublist (List.take_sublist _ _),
        unseen_nodup _ _, ?_⟩
      intro a ha b hb hsame
      exact ((hrest b).mp hb).2 (hsame ▸ ha)
    · rw [List.mem_append, hrest]
      constructor
      · intro h
        rcases h with hfresh | ⟨howed, -⟩
        · exact mem_unseen_of_fresh hfresh
        · exact howed
      · intro howed
        by_cases hfresh : message ∈ freshMessages db row now limit
        · exact Or.inl hfresh
        · exact Or.inr ⟨howed, hfresh⟩
  have hids := claimed_ids_perm hinv row now deadline limit
  have hboth := (hdeliveries.map DeliveryRow.messageId).append (hlog.map Message.id)
  rw [List.map_append, List.map_append] at hboth
  refine ((hids.append_right _).trans ?_).trans hboth
  rw [owedIds, List.append_assoc, List.append_assoc]
  refine List.Perm.append_left _ ?_
  rw [← List.append_assoc, ← List.append_assoc]
  exact List.perm_append_comm.append_right _

/-- When every deadline has passed, a positive batch is empty only if nothing is outstanding. -/
theorem owedIds_of_empty (hinv : Inv db) (hlimit : 0 < limit)
    (hdeadlines : ∀ d ∈ db.deliveries, d.consumerId = row.id → d.visibleAt ≤ now)
    (hempty : claimedDeliveries db row now deadline limit = []) : owedIds db row = [] := by
  have hperm := claimed_ids_perm hinv row now deadline limit
  rw [hempty, List.map_nil] at hperm
  obtain ⟨hvisible, hfresh⟩ := List.append_eq_nil_iff.mp hperm.symm.eq_nil
  have hvisible := List.map_eq_nil_iff.mp hvisible
  have hfresh := List.map_eq_nil_iff.mp hfresh
  have hnone : deliveriesOf db row.id = [] := by
    refine List.eq_nil_iff_forall_not_mem.mpr fun d hd => ?_
    obtain ⟨hstored, hc⟩ := mem_deliveriesOf.mp hd
    unfold selectVisible at hvisible
    rcases List.take_eq_nil_iff.mp hvisible with hzero | hnil
    · omega
    · have hmem : d ∈ sortBy (fun d : DeliveryRow => (toLex (d.visibleAt, d.messageId) : ℤ ×ₗ ℤ))
          (db.deliveries.select fun d => d.consumerId == row.id && decide (d.visibleAt ≤ now)) := by
        refine mem_sortBy.mpr (Table.mem_select.mpr ⟨hstored, ?_⟩)
        simp [hc, hdeadlines d hstored hc]
      rw [hnil] at hmem
      exact absurd hmem List.not_mem_nil
  have hroom : remaining db row.id now limit = limit := by
    rw [remaining, hvisible, List.length_nil, Nat.sub_zero]
  have hlog : unseen db row = [] := by
    rw [freshMessages, hroom] at hfresh
    rcases List.take_eq_nil_iff.mp hfresh with hzero | hnil
    · omega
    · exact hnil
  rw [owedIds, hnone, hlog]
  rfl

/-- A claim that finds nothing to lease leaves the database as it is. -/
theorem handed_of_nothing (hrow : db.consumers.lookup row.id = some row) (h : Nothing db row now)
    (limit : ℕ) : handedDb db row now limit = db := by
  have hvisible := selectVisible_of_nothing h limit
  have hend := h.2
  have hcursor : cursorAfter db row now limit = row.scanCursor := (not_scanned (by omega)).1
  have hconsumers : db.consumers.updateWhere (fun other => other.id == row.id)
      (withCursor (cursorAfter db row now limit)) (advanced_id db row now limit) =
        db.consumers := by
    refine AutoTable.updateWhere_eq_self fun other hother hsame => ?_
    have hid : other.id = row.id := beq_iff_eq.mp hsame
    have hstored := (AutoTable.lookup_eq_some.mp hrow).1
    rw [AutoTable.eq_of_key hother hstored hid, hcursor]
    rfl
  have hdeliveries : db.deliveries.deleteWhere (chosen db row.id now limit) = db.deliveries := by
    refine Table.deleteWhere_eq_self fun d hd => ?_
    by_contra hpicked
    have hmem := (chosen_iff hd).mp (eq_true_of_ne_false hpicked)
    rw [hvisible] at hmem
    exact absurd hmem List.not_mem_nil
  rw [handedDb, hconsumers, hdeliveries]

end Round

section Claims

variable {db : Db} {row : ConsumerRow} {fan : Inner} {self : Consumer} {round : Round}

/-- A claim returns at most its batch. -/
theorem claimed_length_le (hinv : Inv db) (row : ConsumerRow) (now deadline : ℤ) (limit : ℕ) :
    (claimedDeliveries db row now deadline limit).length ≤ limit := by
  have hlength := (claimed_ids_perm hinv row now deadline limit).length_eq
  rw [List.length_map, List.length_append, List.length_map, List.length_map] at hlength
  have hvisible := length_selectVisible_le db row.id now limit
  have hfresh : (freshMessages db row now limit).length ≤ remaining db row.id now limit :=
    List.length_take_le _ _
  unfold remaining at hfresh
  omega

/-- No receipts name no delivery. -/
theorem deleteDeliveries_nil (db : Db) (c : ℤ) :
    deleteDeliveries db (pushReceiptPredicate c []) = db := by
  rw [deleteDeliveries, Table.deleteWhere_eq_self fun d _ => pushReceiptPredicate_nil c d]

/-- Acknowledging the receipts of a batch succeeds, also when the batch is empty. -/
theorem acked_delivered (fan : Inner) (self : Consumer) {delivered : List Delivery}
    (hle : delivered.length ≤ fan.maxBatchSize) (db : Db) :
    ∃ result, commit (ackBatch fan self (delivered.map Delivery.receipt)) db =
      (deleteDeliveries db (pushReceiptPredicate self.id (delivered.map Delivery.receipt)),
        .ok result) := by
  have hsize : (delivered.map Delivery.receipt).length = delivered.length := List.length_map _
  rcases Nat.eq_zero_or_pos delivered.length with hzero | hpos
  · have hnone : ackBatch fan self [] db = .ok (db, BatchResult.default) := receiptBatch_zero rfl
    refine ⟨BatchResult.default, ?_⟩
    rw [List.length_eq_zero_iff.mp hzero, List.map_nil, deleteDeliveries_nil, commit, hnone]
  · exact ⟨_, by rw [commit, ackBatch_eq (hsize ▸ hpos) (hsize ▸ hle)]⟩

/-- A round with nothing else happening claims what the writer transaction grants
and acknowledges all of it. -/
theorem handRound_eq (hinv : Inv db) (hrow : db.consumers.lookup row.id = some row)
    (hid : self.id = row.id) {leaseMs deadline : ℤ}
    (hlease : pollLease fan round.poll = .ok (some leaseMs))
    (hdeadline : checkedAdd round.now leaseMs = .ok deadline) :
    handRound fan self round db = (handedDb db row round.now round.poll.maxMessages,
      .ok (claimedDeliveries db row round.now deadline round.poll.maxMessages)) := by
  have hself : db.consumers.lookup self.id = some row := hid ▸ hrow
  have hlimit := (pollLease_some hlease).2.1
  by_cases hnothing : Nothing db row round.now
  · have hnone : claimedDeliveries db row round.now deadline round.poll.maxMessages = [] := by
      have hvisible := selectVisible_of_nothing hnothing round.poll.maxMessages
      have hend := hnothing.2
      have hfresh : freshMessages db row round.now round.poll.maxMessages = [] :=
        (not_scanned (by omega)).2
      have hlength := (claimed_ids_perm hinv row round.now deadline
        round.poll.maxMessages).length_eq
      rw [hvisible, hfresh, List.length_map] at hlength
      exact List.length_eq_zero_iff.mp hlength
    obtain ⟨result, hresult⟩ := @acked_delivered fan self [] (Nat.zero_le _) db
    rw [List.map_nil, deleteDeliveries_nil] at hresult
    simp only [handRound, hlease, claim_nothing round.engine hself hnothing, List.map_nil, hresult,
      handed_of_nothing hrow hnothing, hnone]
  · have hfits := pollLease_fits hlease
    have hrow' : (claimedDb db row round.now deadline round.poll.maxMessages).consumers.lookup
        self.id = some (withCursor (cursorAfter db row round.now round.poll.maxMessages) row) := by
      rw [hid]
      exact lookup_claimedDb_self hrow
    obtain ⟨found, hfound, hdeliveries⟩ := claimReread_deliveries hrow' round.now
      ⟨claimedDeliveries db row round.now deadline round.poll.maxMessages, row.drainingAt.isSome⟩
    have hle := (claimed_length_le hinv row round.now deadline round.poll.maxMessages).trans hlimit
    obtain ⟨result, hresult⟩ :=
      acked_delivered fan self hle (claimedDb db row round.now deadline round.poll.maxMessages)
    rw [hid, acked_claimed hinv hrow] at hresult
    simp only [handRound, hlease, claim_eq round.engine hinv hid hrow hnothing hdeadline hfits,
      hfound, hdeliveries, hresult]

end Claims

section HandOut

variable {db : Db} {row : ConsumerRow} {fan : Inner} {self : Consumer}

/-- The messages of a sequence of batches. -/
def handedIds (batches : List (List Delivery)) : List ℤ :=
  batches.flatten.map fun delivery => delivery.message.id

/-- What rounds of claims and acknowledgements leave and have returned. -/
structure HandedOut (db : Db) (row : ConsumerRow) (rounds : List Round)
    (batches : List (List Delivery)) (db' : Db) (row' : ConsumerRow) : Prop where
  inv : Inv db'
  stored : db'.consumers.lookup row.id = some row'
  count : batches.length = rounds.length
  /-- Every outstanding message is either handed out or still outstanding. -/
  split : (handedIds batches ++ owedIds db' row').Perm (owedIds db row)
  /-- What is handed out is the message of the log. -/
  genuine : ∀ delivery ∈ batches.flatten,
    db.messages.lookup delivery.message.id = some delivery.message
  /-- An empty batch comes only after everything was handed out. -/
  busy : ∀ i, batches[i]? = some [] → (batches.take i).flatten.length = (owedIds db row).length

/-- A ready round stays ready while deliveries only disappear. -/
theorem Ready.handed {round : Round} (h : Ready fan db row.id round) (now : ℤ) (limit : ℕ) :
    Ready fan (handedDb db row now limit) row.id round :=
  ⟨h.lease, fun d hd hc => h.deadlines d (Table.mem_deleteWhere.mp hd).1 hc⟩

/-- Ready rounds all succeed, and hand out outstanding messages until none is left. -/
theorem handOut_handed (rounds : List Round) (hinv : Inv db)
    (hrow : db.consumers.lookup row.id = some row) (hid : self.id = row.id)
    (hready : ∀ round ∈ rounds, Ready fan db row.id round) :
    ∃ db' row' batches, handOut fan self rounds db = (db', .ok batches) ∧
      HandedOut db row rounds batches db' row' := by
  induction rounds generalizing db row with
  | nil =>
    refine ⟨db, row, [], rfl, hinv, hrow, rfl, List.Perm.refl _, fun d hd => ?_, fun i hi => ?_⟩
    · exact absurd hd List.not_mem_nil
    · simp at hi
  | cons round rounds ih =>
    obtain ⟨⟨leaseMs, deadline, hlease, hdeadline⟩, hdeadlines⟩ := hready round List.mem_cons_self
    have hhead := handRound_eq hinv hrow hid hlease hdeadline
    have hpos := (pollLease_some hlease).1
    set limit := round.poll.maxMessages
    set batch := claimedDeliveries db row round.now deadline limit with hbatch
    -- The remaining rounds start from what this one leaves.
    obtain ⟨db', row', batches, hrun, htail⟩ := @ih (handedDb db row round.now limit)
      (withCursor (cursorAfter db row round.now limit) row) (inv_handed hinv hrow round.now limit)
      (lookup_handed hrow round.now limit) hid
      fun other hother => (hready other (List.mem_cons_of_mem _ hother)).handed round.now limit
    have hperm := handed_perm hinv row round.now deadline limit
    refine ⟨db', row', batch :: batches, ?_, htail.inv, htail.stored, ?_, ?_, ?_, ?_⟩
    · simp only [handOut, hhead, hrun]
    · rw [List.length_cons, List.length_cons, htail.count]
    · have hmap : handedIds (batch :: batches) =
          batch.map (fun delivery => delivery.message.id) ++ handedIds batches := by
        rw [handedIds, List.flatten_cons, List.map_append, handedIds]
      rw [hmap, List.append_assoc]
      exact (htail.split.append_left _).trans hperm
    · intro delivery hmem
      rw [List.flatten_cons, List.mem_append] at hmem
      rcases hmem with hclaimed | hlater
      · rcases mem_claimedDeliveries.mp hclaimed with
          ⟨d, -, message, hmessage, rfl⟩ | ⟨message, hfresh, rfl⟩
        · have hid := (AutoTable.lookup_eq_some.mp hmessage).2
          exact (congrArg db.messages.lookup hid).trans hmessage
        · exact AutoTable.lookup_eq_some.mpr ⟨(mem_unseen.mp (mem_unseen_of_fresh hfresh)).1, rfl⟩
      · exact htail.genuine delivery hlater
    · intro i hi
      have hlength := hperm.length_eq
      rw [List.length_append, List.length_map] at hlength
      cases i with
      | zero =>
        have hempty : batch = [] := by simpa using hi
        rw [owedIds_of_empty hinv hpos hdeadlines (hbatch ▸ hempty)]
        rfl
      | succ i =>
        have hrest := htail.busy i (by simpa using hi)
        rw [List.take_succ_cons, List.flatten_cons, List.length_append, hrest]
        exact hlength

/-- Batches that are never empty before all is handed out use up what is outstanding. -/
theorem HandedOut.all_handed {rounds : List Round} {batches : List (List Delivery)} {db' : Db}
    {row' : ConsumerRow} (h : HandedOut db row rounds batches db' row')
    (henough : (owedIds db row).length ≤ rounds.length) : owedIds db' row' = [] := by
  have hlength := h.split.length_eq
  rw [List.length_append, handedIds, List.length_map] at hlength
  have hhanded : (owedIds db row).length ≤ batches.flatten.length := by
    by_cases hempty : ∃ i : ℕ, batches[i]? = some []
    · obtain ⟨i, hi⟩ := hempty
      have hcut : batches.flatten = (batches.take i).flatten ++ (batches.drop i).flatten := by
        rw [← List.flatten_append, List.take_append_drop]
      rw [← h.busy i hi, hcut, List.length_append]
      exact Nat.le_add_right _ _
    · have hlong : batches.length ≤ batches.flatten.length := by
        rw [List.length_flatten]
        have hsizes : (batches.map List.length).length = batches.length := List.length_map _
        rw [← hsizes]
        refine List.length_le_sum_of_one_le _ fun n hn => ?_
        obtain ⟨batch, hbatch, rfl⟩ := List.mem_map.mp hn
        refine List.length_pos_iff.mpr fun hnil => hempty ?_
        exact List.mem_iff_getElem?.mp (hnil ▸ hbatch)
      have hcount := h.count
      omega
  refine List.length_eq_zero_iff.mp ?_
  omega

/-- What a snapshot, a deletion and any rounds of claims agree on. -/
structure Agree (fan : Inner) (self : Consumer) (db : Db) (row : ConsumerRow) (outstanding : ℕ) :
    Prop where
  snapshot : ∀ now, ∃ found, Consumer.snapshot self now db = .ok found ∧
    found.outstanding = outstanding
  /-- Every deletion that succeeds reports it. -/
  reported : ∀ mode db' outcome, deleteConsumer row.name mode db = .ok (db', outcome) →
    outcome.discardedDeliveries = outstanding
  deletable : ∃ db' outcome, deleteConsumer row.name .discardAll db = .ok (db', outcome)
  /-- Rounds hand each outstanding message out at most once, count down what a snapshot
  reports, are empty only after everything was handed out, and with enough of them hand
  out the same messages whatever the batch sizes are. -/
  handed : ∃ owed : List ℤ, owed.Nodup ∧ owed.length = outstanding ∧
    ∀ rounds, (∀ round ∈ rounds, Ready fan db row.id round) →
      ∃ db' batches, handOut fan self rounds db = (db', .ok batches) ∧
        (handedIds batches).Nodup ∧ (∀ id ∈ handedIds batches, id ∈ owed) ∧
        (∀ delivery ∈ batches.flatten,
          db.messages.lookup delivery.message.id = some delivery.message) ∧
        (∀ now, ∃ found, Consumer.snapshot self now db' = .ok found ∧
          found.outstanding + batches.flatten.length = outstanding) ∧
        (∀ i : ℕ, batches[i]? = some [] → (batches.take i).flatten.length = outstanding) ∧
        (outstanding ≤ rounds.length → (handedIds batches).Perm owed)

/-- The paths that count or hand out the outstanding work of a consumer agree. -/
theorem outstanding_agree (hreach : Reachable db) (hstored : row ∈ db.consumers)
    (hid : self.id = row.id) (fan : Inner) :
    Agree fan self db row (outstandingCount db row) := by
  obtain ⟨events, hrun⟩ := hreach
  have hinv : Inv db := inv_run hrun
  have hrow : db.consumers.lookup row.id = some row := AutoTable.lookup_eq_some.mpr ⟨hstored, rfl⟩
  have hnamed : consumerNamed db row.name = some row := consumerNamed_of_mem hinv hstored
  have hcount := length_owedIds db row
  refine ⟨fun now => ?_, fun mode db' outcome hdelete => ?_, ?_, owedIds db row,
    owedIds_nodup hinv hrow, hcount, fun rounds hready => ?_⟩
  · exact ⟨snapshotOf db now row, by rw [snapshot_eq, hid, hrow], rfl⟩
  · rw [deleteConsumer_eq hnamed] at hdelete
    cases hrefusal : deleteRefusal row.name mode db row with
    | some err => rw [hrefusal] at hdelete; cases hdelete
    | none => rw [hrefusal] at hdelete; cases hdelete; rfl
  · refine ⟨deletedDb db row, ⟨outstandingCount db row, archivedCount db row⟩, ?_⟩
    rw [deleteConsumer_eq hnamed]
    simp [deleteRefusal]
  · obtain ⟨db', row', batches, hhand, handed⟩ := handOut_handed rounds hinv hrow hid hready
    have hnodup := handed.split.nodup_iff.mpr (owedIds_nodup hinv hrow)
    refine ⟨db', batches, hhand, (List.nodup_append.mp hnodup).1, fun id hmem => ?_, handed.genuine,
      fun now => ⟨snapshotOf db' now row', ?_, ?_⟩, fun i hi => ?_, fun henough => ?_⟩
    · exact handed.split.mem_iff.mp (List.mem_append_left _ hmem)
    · rw [snapshot_eq, hid, handed.stored]
    · have hlength := handed.split.length_eq
      rw [List.length_append, handedIds, List.length_map, length_owedIds, length_owedIds] at hlength
      change outstandingCount db' row' + batches.flatten.length = outstandingCount db row
      omega
    · rw [handed.busy i hi, hcount]
    · have hperm := handed.split
      rw [handed.all_handed (hcount ▸ henough), List.append_nil] at hperm
      exact hperm

/-- A consumer has one of three messages leased. -/
def leasedOps : List Op :=
  [.openConsumer "jobs" .all 0,
    .publishBatch [⟨none, [7], none⟩, ⟨none, [8], none⟩, ⟨none, [9], none⟩] 0,
    .claim firstHandle pollOne 0]

set_option maxRecDepth 10000 in
/-- The leased message and the two unseen ones are outstanding. -/
theorem outstanding_agree_leased :
    ∃ row ∈ (outcomeDb Engine.inOrder Inner.default leasedOps Db.empty).consumers,
      Agree Inner.default firstHandle (outcomeDb Engine.inOrder Inner.default leasedOps Db.empty)
        row 3 := by
  have hrow : (outcomeDb Engine.inOrder Inner.default leasedOps Db.empty).consumers.lookup 1 =
      some ⟨1, "jobs", none, 0, none, 1, none⟩ := rfl
  have hstored := (AutoTable.lookup_eq_some.mp hrow).1
  exact ⟨_, hstored, outstanding_agree (reachable_outcome Engine.inOrder Inner.default leasedOps)
    hstored rfl Inner.default⟩

end HandOut

end LiteFan.Outstanding

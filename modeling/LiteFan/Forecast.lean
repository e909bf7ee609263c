import LiteFan.Outstanding
import LiteFan.Relational.Due

/-!
# Snapshots predict claims

What a snapshot calls ready is what a claim at the same reading can lease, its
next readiness is the next reading at which more is ready, and its oldest
publish time is the earliest one among the messages that handing out everything
would deliver.
-/

namespace LiteFan.Forecast

open LiteFan.Api LiteFan.Time LiteFan.Schema LiteFan.Storage LiteFan.Store LiteFan.Consumer
open LiteFan.System LiteFan.Invariant LiteFan.Effect LiteFan.Step LiteFan.Preservation
open LiteFan.Outstanding Relational

/-- A snapshot's predictions about the consumer, for the number that is ready at each reading
and the messages that are owed. -/
structure Predicts (handle : Consumer) (db : Db) (ready : ℤ → ℕ) (outstanding : ℕ)
    (owed : List Message) : Prop where
  reported : ∀ now, ∃ found, Consumer.snapshot handle now db = .ok found ∧
    found.ready = ready now ∧ found.outstanding = outstanding
  /-- A claim run alone leases as much of its batch as is ready. -/
  claimed : ∀ (fan : Inner) (e : Engine) (limit : ℕ) (leaseMs now deadline : ℤ), 0 < limit →
    limit ≤ fan.maxBatchSize → checkedAdd now leaseMs = .ok deadline →
    ∃ db' found, claim e handle limit leaseMs now db = (db', .ok found) ∧
      found.deliveries.length = min limit (ready now)
  grows : ∀ now later, now ≤ later → ready now ≤ ready later
  bounded : ∀ now, ready now ≤ outstanding
  /-- The next readiness is the least later reading at which more is ready. -/
  next : ∀ now found, Consumer.snapshot handle now db = .ok found →
    (∀ later, found.nextReadyAtMs = some later ↔
      IsLeast {t | now < t ∧ ready now < ready t} later) ∧
    (found.nextReadyAtMs = none ↔ ∀ later, now < later → ¬ready now < ready later) ∧
    (found.nextReadyAtMs = none ↔ ready now = outstanding)
  /-- The oldest publish time is the least among the messages owed. -/
  oldest : ∀ now found, Consumer.snapshot handle now db = .ok found →
    (found.oldestOutstandingAtMs = none ↔ outstanding = 0) ∧
    ∀ publishedAt, found.oldestOutstandingAtMs = some publishedAt ↔
      IsLeast {t | ∃ message ∈ owed, message.publishedAtMs = t} publishedAt
  /-- Claims and acknowledgements deliver these until nothing is left. -/
  delivered : owed.length = outstanding ∧
    ∀ fan rounds, (∀ round ∈ rounds, Ready fan db handle.id round) → outstanding ≤ rounds.length →
      ∃ db' batches, handOut fan handle rounds db = (db', .ok batches) ∧
        (batches.flatten.map Delivery.message).Perm owed

section Ready

variable {db : Db} {row : ConsumerRow} {now deadline : ℤ} {limit : ℕ}

/-- How much is ready at a reading: what is due of the deliveries, and all of the log. -/
def readyAt (db : Db) (row : ConsumerRow) (now : ℤ) : ℕ :=
  due DeliveryRow.visibleAt (deliveriesOf db row.id) now + (unseen db row).length

theorem snapshotOf_ready (db : Db) (now : ℤ) (row : ConsumerRow) :
    (snapshotOf db now row).ready = readyAt db row now := by
  rw [readyAt, unseen_eq]
  rfl

theorem outstandingCount_eq (db : Db) (row : ConsumerRow) :
    outstandingCount db row = (deliveriesOf db row.id).length + (unseen db row).length := by
  rw [outstandingCount, unseen_eq]

/-- More is ready later exactly when more deliveries are due. -/
theorem readyAt_lt_iff {later : ℤ} : readyAt db row now < readyAt db row later ↔
    due DeliveryRow.visibleAt (deliveriesOf db row.id) now <
      due DeliveryRow.visibleAt (deliveriesOf db row.id) later := by
  rw [readyAt, readyAt]
  omega

/-- Everything is ready exactly when every delivery is due. -/
theorem readyAt_eq_outstanding : readyAt db row now = outstandingCount db row ↔
    due DeliveryRow.visibleAt (deliveriesOf db row.id) now = (deliveriesOf db row.id).length := by
  rw [readyAt, outstandingCount_eq]
  omega

/-- The next readiness of a snapshot is when the next delivery falls due. -/
theorem snapshotOf_next (db : Db) (now : ℤ) (row : ConsumerRow) :
    (snapshotOf db now row).nextReadyAtMs =
      nextDue DeliveryRow.visibleAt (deliveriesOf db row.id) now := rfl

/-- The retry statement picks as many deliveries as are due and fit. -/
theorem length_selectVisible (db : Db) (c now : ℤ) (limit : ℕ) :
    (selectVisible db c now limit).length =
      min limit (due DeliveryRow.visibleAt (deliveriesOf db c) now) := by
  have hfilter : (db.deliveries.select fun d => d.consumerId == c && decide (d.visibleAt ≤ now)) =
      (deliveriesOf db c).filter fun d => decide (d.visibleAt ≤ now) := by
    rw [deliveriesOf, Table.select, Table.select, List.filter_filter]
    exact List.filter_congr fun d _ => Bool.and_comm _ _
  rw [selectVisible, List.length_take, (sortBy_perm _ _).length_eq, hfilter, due]

/-- A claim leases as much of its batch as is ready. -/
theorem length_claimed (hinv : Inv db) (row : ConsumerRow) (now deadline : ℤ) (limit : ℕ) :
    (claimedDeliveries db row now deadline limit).length = min limit (readyAt db row now) := by
  have hlength := (claimed_ids_perm hinv row now deadline limit).length_eq
  have hvisible := length_selectVisible db row.id now limit
  have hfresh : (freshMessages db row now limit).length =
      min (remaining db row.id now limit) (unseen db row).length := List.length_take
  rw [List.length_map, List.length_append, List.length_map, List.length_map] at hlength
  rw [remaining] at hfresh
  rw [hlength, hfresh, hvisible, readyAt]
  omega

end Ready

section Oldest

variable {db : Db} {row : ConsumerRow} {self : Consumer} {fan : Inner}

/-- The messages a consumer is owed. -/
def owedMessages (db : Db) (row : ConsumerRow) : List Message :=
  db.messages.select fun message =>
    (deliveriesOf db row.id).any (fun d => d.messageId == message.id) || awaits row message

/-- A stored message is owed when its identifier is outstanding. -/
theorem mem_owedMessages {message : Message} : message ∈ owedMessages db row ↔
    message ∈ db.messages ∧ message.id ∈ owedIds db row := by
  rw [owedMessages, AutoTable.mem_select, owedIds, unseen_eq, Bool.or_eq_true, List.any_eq_true,
    List.mem_append, List.mem_map, List.mem_map]
  refine and_congr_right fun hmem => or_congr ?_ ?_
  · simp only [beq_iff_eq]
  · constructor
    · exact fun h => ⟨message, AutoTable.mem_select.mpr ⟨hmem, h⟩, rfl⟩
    · rintro ⟨other, hother, hid⟩
      obtain ⟨hstored, hawaits⟩ := AutoTable.mem_select.mp hother
      rwa [AutoTable.eq_of_key hstored hmem hid] at hawaits

/-- Every outstanding identifier belongs to a stored message. -/
theorem owedMessages_ids (hinv : Inv db) (hrow : db.consumers.lookup row.id = some row) :
    ((owedMessages db row).map Message.id).Perm (owedIds db row) := by
  have hnodup : ((owedMessages db row).map Message.id).Nodup :=
    List.pairwise_map.mpr ((Table.select_sorted _ _).imp fun h => h.ne)
  refine (List.perm_ext_iff_of_nodup hnodup (owedIds_nodup hinv hrow)).mpr fun id => ?_
  rw [List.mem_map]
  constructor
  · rintro ⟨message, hmem, rfl⟩
    exact (mem_owedMessages.mp hmem).2
  · intro howed
    have hstored : ∃ message ∈ db.messages, message.id = id := by
      rcases List.mem_append.mp howed with hdelivered | hunseen
      · obtain ⟨d, hd, rfl⟩ := List.mem_map.mp hdelivered
        obtain ⟨-, message, -, hmessage, -⟩ :=
          hinv.delivery_refers d (mem_deliveriesOf.mp hd).1
        exact ⟨message, AutoTable.lookup_eq_some.mp hmessage⟩
      · obtain ⟨message, hmem, rfl⟩ := List.mem_map.mp hunseen
        exact ⟨message, (mem_unseen.mp hmem).1, rfl⟩
    obtain ⟨message, hmem, rfl⟩ := hstored
    exact ⟨message, mem_owedMessages.mpr ⟨hmem, howed⟩, rfl⟩

/-- Enough rounds of claims and acknowledgements deliver exactly the messages owed. -/
theorem handed_owed (hinv : Inv db) (hrow : db.consumers.lookup row.id = some row)
    (hid : self.id = row.id) {rounds : List Round}
    (hready : ∀ round ∈ rounds, Ready fan db row.id round)
    (henough : outstandingCount db row ≤ rounds.length) :
    ∃ db' batches, handOut fan self rounds db = (db', .ok batches) ∧
      (batches.flatten.map Delivery.message).Perm (owedMessages db row) := by
  obtain ⟨db', row', batches, hhand, handed⟩ := handOut_handed rounds hinv hrow hid hready
  refine ⟨db', batches, hhand, ?_⟩
  have hids : (handedIds batches).Perm (owedIds db row) := by
    have hsplit := handed.split
    rwa [handed.all_handed (length_owedIds db row ▸ henough), List.append_nil] at hsplit
  have hmap : handedIds batches = (batches.flatten.map Delivery.message).map Message.id :=
    List.map_map.symm
  have hnodup : (batches.flatten.map Delivery.message).Nodup := by
    refine List.Nodup.of_map Message.id ?_
    rw [← hmap]
    exact hids.nodup_iff.mpr (owedIds_nodup hinv hrow)
  refine (List.perm_ext_iff_of_nodup hnodup (Table.select_nodup _ _)).mpr fun message => ?_
  change message ∈ _ ↔ message ∈ owedMessages db row
  rw [mem_owedMessages, ← hids.mem_iff, hmap]
  constructor
  · intro hmem
    obtain ⟨delivery, hdelivery, rfl⟩ := List.mem_map.mp hmem
    exact ⟨(AutoTable.lookup_eq_some.mp (handed.genuine delivery hdelivery)).1,
      List.mem_map_of_mem hmem⟩
  · rintro ⟨hstored, hmem⟩
    obtain ⟨other, hother, hsame⟩ := List.mem_map.mp hmem
    obtain ⟨delivery, hdelivery, rfl⟩ := List.mem_map.mp hother
    have hlogged := (AutoTable.lookup_eq_some.mp (handed.genuine delivery hdelivery)).1
    rwa [AutoTable.eq_of_key hlogged hstored hsame] at hother

/-- The oldest publish time of a snapshot is the least among the messages owed. -/
theorem snapshotOf_oldest {now : ℤ} :
    ((snapshotOf db now row).oldestOutstandingAtMs = none ↔ owedMessages db row = []) ∧
    ∀ publishedAt, (snapshotOf db now row).oldestOutstandingAtMs = some publishedAt ↔
      IsLeast {t | ∃ message ∈ owedMessages db row, message.publishedAtMs = t} publishedAt := by
  have holdest : (snapshotOf db now row).oldestOutstandingAtMs =
      ((owedMessages db row).map Message.publishedAtMs).min? := rfl
  rw [holdest]
  refine ⟨by rw [List.min?_eq_none_iff, List.map_eq_nil_iff], fun publishedAt => ?_⟩
  rw [List.min?_eq_some_iff, List.mem_map]
  refine and_congr_right fun _ => ⟨?_, ?_⟩
  · rintro hleast t ⟨message, hmem, rfl⟩
    exact hleast _ (List.mem_map_of_mem hmem)
  · intro hleast t ht
    exact hleast (List.mem_map.mp ht)

end Oldest

/-- In every reachable state the snapshots of a live consumer predict its claims. -/
theorem snapshot_predicts {db : Db} {row : ConsumerRow} {self : Consumer}
    (hreachable : Reachable db) (hrow : db.consumers.lookup self.id = some row) :
    Predicts self db (readyAt db row) (outstandingCount db row) (owedMessages db row) := by
  have hinv := inv_reachable hreachable
  have hid : self.id = row.id := (AutoTable.lookup_eq_some.mp hrow).2.symm
  have hself : db.consumers.lookup row.id = some row := hid ▸ hrow
  have hsnapshot : ∀ now, Consumer.snapshot self now db = .ok (snapshotOf db now row) := by
    intro now
    rw [snapshot_eq, hrow]
  have hcount : (owedMessages db row).length = outstandingCount db row := by
    rw [← length_owedIds, ← (owedMessages_ids hinv hself).length_eq, List.length_map]
  refine ⟨fun now => ⟨_, hsnapshot now, snapshotOf_ready db now row, rfl⟩, ?_, ?_, ?_, ?_, ?_,
    hcount, fun fan rounds hready henough => handed_owed hinv hself hid (hid ▸ hready) henough⟩
  · intro fan e limit leaseMs now deadline hpos hle hdeadline
    have hlimit : (limit : ℤ) ≤ i64Max := (Int.ofNat_le.mpr hle).trans fan.maxBatchSize_le
    have hrow' : (claimedDb db row now deadline limit).consumers.lookup self.id =
        some (withCursor (cursorAfter db row now limit) row) := hid ▸ lookup_claimedDb_self hself
    obtain ⟨found, hfound, hdeliveries⟩ := claimReread_deliveries hrow' now
      ⟨claimedDeliveries db row now deadline limit, row.drainingAt.isSome⟩
    refine ⟨claimedDb db row now deadline limit, found, ?_, ?_⟩
    · rw [claim_whole e hinv hid hself hdeadline hlimit, hfound]
    · rw [hdeliveries, length_claimed hinv]
  · intro now later hle
    exact Nat.add_le_add_right (due_mono _ _ hle) _
  · intro now
    rw [outstandingCount_eq]
    exact Nat.add_le_add_right (due_le_length _ _ now) _
  · intro now found hfound
    rw [hsnapshot now] at hfound
    obtain rfl := Except.ok.inj hfound
    rw [snapshotOf_next]
    refine ⟨fun later => ?_, ?_, ?_⟩
    · simp only [nextDue_eq_some, readyAt_lt_iff]
    · constructor
      · intro hnone later _ hmore
        have hall := nextDue_eq_none.mp hnone
        have hmost := due_le_length DeliveryRow.visibleAt (deliveriesOf db row.id) later
        have hdue := readyAt_lt_iff.mp hmore
        omega
      · intro hnever
        cases hnext : nextDue DeliveryRow.visibleAt (deliveriesOf db row.id) now with
        | none => rfl
        | some later =>
          obtain ⟨hahead, hdue⟩ := (nextDue_eq_some.mp hnext).1
          exact absurd (readyAt_lt_iff.mpr hdue) (hnever later hahead)
    · rw [nextDue_eq_none, readyAt_eq_outstanding]
  · intro now found hfound
    rw [hsnapshot now] at hfound
    obtain rfl := Except.ok.inj hfound
    refine ⟨?_, snapshotOf_oldest.2⟩
    rw [snapshotOf_oldest.1, ← hcount, List.length_eq_zero_iff]

/-- Of two messages one is leased until a millisecond later. -/
def halfLeasedOps : List Op :=
  [.openConsumer "jobs" .all 0, .publishBatch [⟨none, [7], none⟩, ⟨none, [8], none⟩] 0,
    .claim firstHandle pollOne 0]

set_option maxRecDepth 10000 in
/-- The snapshot before the lease ends predicts a claim of one message. -/
theorem snapshot_predicts_leased :
    ∃ db' found, claim Engine.inOrder firstHandle 2 5 0
      (outcomeDb Engine.inOrder Inner.default halfLeasedOps Db.empty) = (db', .ok found) ∧
        found.deliveries.length = 1 := by
  have hrow : (outcomeDb Engine.inOrder Inner.default halfLeasedOps Db.empty).consumers.lookup
      firstHandle.id = some ⟨1, "jobs", none, 0, none, 1, none⟩ := rfl
  have hdeadline : checkedAdd 0 5 = .ok 5 := rfl
  have hle : 2 ≤ Inner.default.maxBatchSize := by decide
  have hpredicts := snapshot_predicts
    (reachable_outcome Engine.inOrder Inner.default halfLeasedOps) hrow
  obtain ⟨db', found, hclaim, hlength⟩ :=
    hpredicts.claimed Inner.default Engine.inOrder 2 5 0 5 Nat.two_pos hle hdeadline
  exact ⟨db', found, hclaim, hlength⟩

end LiteFan.Forecast

import LiteFan.Effect.Pages
import LiteFan.Parallel

/-!
# Pruning is invisible to consumers

A prune drops log entries that no delivery or archive refers to and no consumer
awaits. What it can change is where cursors end: a new consumer starts at the
retained high-water mark and a claim scans up to it. No answer depends on that,
but for a round of a poll whose lease ends after the last timestamp, which is
refused when there is something beyond the cursor to look at and finds nothing
when there is not.
-/

namespace LiteFan.Pruning

open LiteFan.Api LiteFan.Time LiteFan.Schema LiteFan.Storage LiteFan.Store LiteFan.Consumer
open LiteFan.System LiteFan.Invariant LiteFan.Effect LiteFan.Step LiteFan.Preservation LiteFan.Calls
open LiteFan.Inbox LiteFan.Alike Relational

section Archives

variable {a b : Db} {self : Consumer} {op : Op}

/-- Two stores that look alike to everybody and hold the same archives. -/
structure Unpruned (a b : Db) : Prop where
  alike : AlikeBut (fun _ => False) a b
  archives : a.archives = b.archives

/-- A consumer's inbox is the same in both. -/
theorem Unpruned.inbox (h : Unpruned a b) (c : ℤ) : SameInbox c a b := h.alike.inbox c not_false

/-- An operation that writes no archives. -/
def KeepsArchives : Op → Prop
  | .archiveBatch .. | .redriveBatch .. | .purgeArchives .. | .deleteConsumer .. => False
  | _ => True

/-- Only archiving, redriving, purging and deleting write archives. -/
theorem archives_effect {fan : Inner} {db db' : Db} {reply : Except Error Reply}
    (heffect : Effect fan db op db' reply) (hop : KeepsArchives op) :
    db'.archives = db.archives := by
  cases heffect with
  | @published messages now hle => exact (ledgerAt_parts now db messages).2.2.2.1
  | archived | redriven | purged | deleted => exact hop.elim
  | rejected | idle | created | reopened | granted | acked | nacked | extended | drained | pruned =>
    rfl

/-- Transactions that both commit or are both refused leave the same archives when they do. -/
theorem archives_of_sized {α : Type} {wrap : α → Reply} {fan : Inner} {size : ℕ} {large : Error}
    {none : α} {transaction transaction' : Transaction α} (h : a.archives = b.archives)
    (hzero : size = 0 → transaction a = .ok (a, none) ∧ transaction' b = .ok (b, none))
    (hlarge : fan.maxBatchSize < size → transaction a = .error large ∧
      transaction' b = .error large)
    (hbody : 0 < size → size ≤ fan.maxBatchSize →
      (replying wrap (commit transaction a)).1.archives =
        (replying wrap (commit transaction' b)).1.archives) :
    (replying wrap (commit transaction a)).1.archives =
      (replying wrap (commit transaction' b)).1.archives := by
  by_cases hpos : size = 0
  · obtain ⟨hleft, hright⟩ := hzero hpos
    rw [replying_ok hleft, replying_ok hright]
    exact h
  · by_cases hle : size ≤ fan.maxBatchSize
    · exact hbody (Nat.pos_of_ne_zero hpos) hle
    · obtain ⟨hleft, hright⟩ := hlarge (by omega)
      rw [replying_error hleft, replying_error hright]
      exact h

/-- An archive batch leaves the same archives. -/
theorem Unpruned.archived (h : Unpruned a b) (e : Engine) (fan : Inner) (self : Consumer)
    (receipts : List Receipt) (detail : Option String) (now : ℤ) :
    (exec e fan (.archiveBatch self receipts detail now) a).1.archives =
      (exec e fan (.archiveBatch self receipts detail now) b).1.archives := by
  refine archives_of_sized h.archives (fun h => ⟨receiptBatch_zero h, receiptBatch_zero h⟩)
    (fun h => ⟨receiptBatch_large h, receiptBatch_large h⟩) fun hpos hle => ?_
  have hleases : archivedLeases a self.id receipts = archivedLeases b self.id receipts :=
    congrArg _ ((h.inbox self.id).named receipts)
  rw [replying_ok (archiveBatchWithDetail_eq e h.alike.inv hpos hle),
    replying_ok (archiveBatchWithDetail_eq e h.alike.inv' hpos hle)]
  change a.archives.appendAll _ _ _ = b.archives.appendAll _ _ _
  rw [hleases, h.archives]

/-- A redrive leaves the same archives. -/
theorem Unpruned.redriven (h : Unpruned a b) (e : Engine) (fan : Inner) (self : Consumer)
    (ids : List ℤ) (retry : Retry) (now : ℤ) :
    (exec e fan (.redriveBatch self ids retry now) a).1.archives =
      (exec e fan (.redriveBatch self ids retry now) b).1.archives := by
  refine archives_of_sized h.archives (fun h => ⟨receiptBatch_zero h, receiptBatch_zero h⟩)
    (fun h => ⟨receiptBatch_large h, receiptBatch_large h⟩) fun hpos hle => ?_
  cases hvisible : addDuration now retry.delay with
  | ok visibleAt =>
    rw [replying_ok (redriveBatch_eq e h.alike.inv hpos hle hvisible),
      replying_ok (redriveBatch_eq e h.alike.inv' hpos hle hvisible)]
    change a.archives.deleteWhere _ = b.archives.deleteWhere _
    rw [h.archives]
  | error err =>
    rw [replying_error (redriveBatch_late e hpos hle hvisible),
      replying_error (redriveBatch_late e hpos hle hvisible)]
    exact h.archives

/-- A purge leaves the same archives. -/
theorem Unpruned.purged (h : Unpruned a b) (e : Engine) (fan : Inner) (self : Consumer)
    (purge : PurgeArchives) :
    (exec e fan (.purgeArchives self purge) a).1.archives =
      (exec e fan (.purgeArchives self purge) b).1.archives := by
  refine archives_of_sized h.archives (fun h => ⟨purgeArchives_zero h, purgeArchives_zero h⟩)
    (fun h => ⟨purgeArchives_large h, purgeArchives_large h⟩) fun hpos hle => ?_
  rw [replying_ok (purgeArchives_eq hpos.ne' hle), replying_ok (purgeArchives_eq hpos.ne' hle)]
  change a.archives.deleteWhere (purgedNamed a self.id purge) =
    b.archives.deleteWhere (purgedNamed b self.id purge)
  unfold purgedNamed purgedIds
  rw [h.archives]

/-- A deletion leaves the same archives. -/
theorem Unpruned.deleted (h : Unpruned a b) (e : Engine) (fan : Inner) (name : String)
    (mode : DeleteMode) :
    (exec e fan (.deleteConsumer name mode) a).1.archives =
      (exec e fan (.deleteConsumer name mode) b).1.archives := by
  change (replying .deleted (commit (deleteConsumer name mode) a)).1.archives =
    (replying .deleted (commit (deleteConsumer name mode) b)).1.archives
  rcases h.alike.named name with ⟨hleft, hright⟩ | ⟨row, row', hleft, hright, hid, -⟩
  · rw [replying_error (deleteConsumer_free hleft), replying_error (deleteConsumer_free hright)]
    exact h.archives
  · have habreast := h.alike.abreast not_false hleft hright hid
    have hdelete : deleteConsumer name mode a = _ := deleteConsumer_eq hleft
    have hdelete' : deleteConsumer name mode b = _ := deleteConsumer_eq hright
    rw [← habreast.refusal] at hdelete'
    cases hrefusal : deleteRefusal name mode a row with
    | some err =>
      rw [hrefusal] at hdelete hdelete'
      rw [replying_error hdelete, replying_error hdelete']
      exact h.archives
    | none =>
      rw [hrefusal] at hdelete hdelete'
      rw [replying_ok hdelete, replying_ok hdelete']
      change a.archives.deleteWhere _ = b.archives.deleteWhere _
      rw [h.archives, hid]

/-- The same operation leaves the same archives. -/
theorem Unpruned.exec_archives (h : Unpruned a b) (e : Engine) (fan : Inner) (op : Op) :
    (exec e fan op a).1.archives = (exec e fan op b).1.archives := by
  have hkept : KeepsArchives op → (exec e fan op a).1.archives = (exec e fan op b).1.archives := by
    intro hop
    rw [archives_effect (exec_effect e fan op h.alike.inv) hop,
      archives_effect (exec_effect e fan op h.alike.inv') hop, h.archives]
  cases op with
  | archiveBatch self receipts detail now => exact h.archived e fan self receipts detail now
  | redriveBatch self ids retry now => exact h.redriven e fan self ids retry now
  | purgeArchives self purge => exact h.purged e fan self purge
  | deleteConsumer name mode => exact h.deleted e fan name mode
  | openConsumer | publishBatch | claim | ackBatch | nackBatch | extendVisibilityBatch
  | beginDraining | pruneMessages => exact hkept trivial

end Archives

section Reads

variable {a b : Db} {self : Consumer} {row row' : ConsumerRow} {now : ℤ}

/-- Messages both stores hold under one identifier are the same. -/
theorem lookup_agree (h : SameLog a b) {id : ℤ} (ha : (a.messages.lookup id).isSome = true)
    (hb : (b.messages.lookup id).isSome = true) : a.messages.lookup id = b.messages.lookup id := by
  obtain ⟨message, hmessage⟩ := Option.isSome_iff_exists.mp ha
  obtain ⟨message', hmessage'⟩ := Option.isSome_iff_exists.mp hb
  obtain ⟨hmem, hid⟩ := AutoTable.lookup_eq_some.mp hmessage
  obtain ⟨hmem', hid'⟩ := AutoTable.lookup_eq_some.mp hmessage'
  rw [hmessage, hmessage', h.agree message hmem message' hmem' (hid.trans hid'.symm)]

/-- An archive page shows the same in both stores. -/
theorem Unpruned.page (h : Unpruned a b) (fan : Inner) (self : Consumer) (list : ListArchives) :
    Consumer.archives fan self list a = Consumer.archives fan self list b := by
  by_cases hpos : list.maxArchives = 0
  · rw [Consumer.archives, Consumer.archives, if_pos hpos, if_pos hpos]
  · by_cases hle : list.maxArchives ≤ fan.maxBatchSize
    · have hrows : pageRows a self.id list = pageRows b self.id list := by
        rw [pageRows, pageRows, archivesAfter, archivesAfter, h.archives]
      rw [archives_eq h.alike.inv hpos hle, archives_eq h.alike.inv' hpos hle, ← hrows]
      refine congrArg Except.ok (List.filterMap_congr fun r hr => ?_)
      have hstored : r ∈ a.archives := (mem_archivesAfter.mp (List.mem_of_mem_take hr)).1
      rw [archiveView, archiveView, lookup_agree h.alike.log
        (h.alike.inv.archive_refers r hstored).message
        (h.alike.inv'.archive_refers r (h.archives ▸ hstored)).message]
    · have hlarge := ensureBatchSize_error (not_le.mp hle)
      rw [Consumer.archives, Consumer.archives, if_neg hpos, if_neg hpos, hlarge]
      rfl

/-- What a consumer is owed is the same in both stores. -/
theorem owed_alike (h : Abreast a b row row') :
    (a.messages.select fun message =>
        (deliveriesOf a row.id).any (fun d => d.messageId == message.id) || awaits row message) =
      b.messages.select fun message =>
        (deliveriesOf b row'.id).any (fun d => d.messageId == message.id) ||
          awaits row' message := by
  -- Either store holds every message that is delivered or awaited in the other.
  have hhalf : ∀ {a b : Db} {row row' : ConsumerRow}, Abreast a b row row' → ∀ message,
      (message ∈ a.messages ∧ ((deliveriesOf a row.id).any (fun d => d.messageId == message.id) ||
        awaits row message) = true) →
      message ∈ b.messages ∧ ((deliveriesOf b row'.id).any (fun d => d.messageId == message.id) ||
        awaits row' message) = true := by
    intro a b row row' h message ⟨hmem, howed⟩
    rw [Bool.or_eq_true] at howed ⊢
    rcases howed with hdelivered | hawaited
    · rw [h.inbox.deliveries, h.id] at hdelivered
      obtain ⟨d, hd, hid⟩ := List.any_eq_true.mp hdelivered
      obtain ⟨hstored, -⟩ := mem_deliveriesOf.mp hd
      obtain ⟨-, message', -, hmessage', -⟩ := h.inv'.delivery_refers d hstored
      obtain ⟨hmem', hid'⟩ := AutoTable.lookup_eq_some.mp hmessage'
      obtain rfl := h.log.agree message hmem message' hmem'
          ((beq_iff_eq.mp hid).symm.trans hid'.symm)
      exact ⟨hmem', .inl hdelivered⟩
    · have hunseen : message ∈ unseen a row := by
        rw [unseen_eq]
        exact AutoTable.mem_select.mpr ⟨hmem, hawaited⟩
      rw [h.unseen, unseen_eq] at hunseen
      obtain ⟨hmem', hawaited'⟩ := AutoTable.mem_select.mp hunseen
      exact ⟨hmem', .inr hawaited'⟩
  exact Table.select_eq_of_mem fun message => ⟨hhalf h message, hhalf h.symm message⟩

/-- The snapshot of a consumer is the same in both stores. -/
theorem snapshotOf_alike (h : Abreast a b row row') (now : ℤ) :
    snapshotOf a now row = snapshotOf b now row' := by
  obtain ⟨-, hname, hfilter, hcreated, hdraining, -⟩ := ConsumerRow.mk.inj h.plain
  have hname : row.name = row'.name := hname
  have hfilter : row.topicFilter = row'.topicFilter := hfilter
  have hcreated : row.createdAt = row'.createdAt := hcreated
  have hunseen := h.unseen
  rw [unseen_eq, unseen_eq] at hunseen
  have hdeliveries : deliveriesOf a row.id = deliveriesOf b row'.id := h.id ▸ h.inbox.deliveries
  rw [snapshotOf, snapshotOf, owed_alike h, h.counts.1, h.counts.2, hname, hfilter, hcreated,
    h.drainingAt, hunseen, hdeliveries]

/-- A consumer snapshot reports the same in both stores. -/
theorem Unpruned.consumerSnapshot (h : Unpruned a b) (self : Consumer) (now : ℤ) :
    Consumer.snapshot self now a = Consumer.snapshot self now b := by
  rw [snapshot_eq, snapshot_eq]
  rcases (h.inbox self.id).abreast h.alike.log h.alike.inv h.alike.inv' with
    ⟨hleft, hright⟩ | ⟨row, row', hleft, hright, -, -, habreast⟩
  · rw [hleft, hright]
  · rw [hleft, hright]
    exact congrArg Except.ok (snapshotOf_alike habreast now)

/-- The rows of the consumers correspond in key order. -/
theorem Unpruned.rows (h : Unpruned a b) : List.Forall₂ (Abreast a b) a.consumers.table.rows
    b.consumers.table.rows := by
  have hkey : ∀ row, (plain row).id = row.id := fun _ => rfl
  have hplain : a.consumers.table.mapRows plain hkey = b.consumers.table.mapRows plain hkey := by
    refine Table.ext_lookup fun c => ?_
    rw [Table.lookup_mapRows, Table.lookup_mapRows]
    exact (h.inbox c).row
  have hrows : a.consumers.table.rows.map plain = b.consumers.table.rows.map plain :=
    congrArg Table.rows hplain
  rw [← List.forall₂_eq_eq_eq, List.forall₂_map_left_iff, List.forall₂_map_right_iff] at hrows
  refine List.forall₂_iff_zip.mpr ⟨hrows.length_eq, fun {row row'} hpair => ?_⟩
  have hsame := List.forall₂_zip hrows hpair
  have hmem : row ∈ a.consumers := (List.of_mem_zip hpair).1
  have hmem' : row' ∈ b.consumers := (List.of_mem_zip hpair).2
  exact ⟨h.alike.log, h.inbox row.id, AutoTable.lookup_key hmem, AutoTable.lookup_key hmem', hsame,
    h.alike.inv, h.alike.inv'⟩

/-- The snapshots of all consumers are the same in both stores. -/
theorem Unpruned.consumerSnapshots (h : Unpruned a b) (now : ℤ) :
    fetchConsumerSnapshots a now none = fetchConsumerSnapshots b now none := by
  have hall : ∀ db : Db, (db.consumers.select fun _ => true) = db.consumers.table.rows := fun db =>
    List.filter_eq_self.mpr fun _ _ => rfl
  have hmapped : a.consumers.table.rows.map (snapshotOf a now) =
      b.consumers.table.rows.map (snapshotOf b now) := by
    rw [← List.forall₂_eq_eq_eq, List.forall₂_map_left_iff, List.forall₂_map_right_iff]
    exact h.rows.imp fun row row' habreast => snapshotOf_alike habreast now
  have hsorted : ∀ {db : Db}, Inv db →
      ((sortBy ConsumerRow.name db.consumers.table.rows).map (snapshotOf db now)).Pairwise
        fun x y => x.name < y.name := by
    intro db hinv
    refine List.pairwise_map.mpr (sortBy_strict (List.pairwise_map.mpr ?_))
    refine List.Pairwise.imp_of_mem (fun hmem hmem' hlt hname => ?_) db.consumers.table.sorted
    exact hlt.ne (congrArg ConsumerRow.id (hinv.names _ hmem _ hmem' hname))
  have hperm : ∀ db : Db,
      ((sortBy ConsumerRow.name db.consumers.table.rows).map (snapshotOf db now)).Perm
        (db.consumers.table.rows.map (snapshotOf db now)) := fun db =>
    (sortBy_perm ConsumerRow.name db.consumers.table.rows).map _
  have hsame : (sortBy ConsumerRow.name a.consumers.table.rows).map (snapshotOf a now) =
      (sortBy ConsumerRow.name b.consumers.table.rows).map (snapshotOf b now) := by
    refine List.Perm.eq_of_pairwise (fun x y _ _ hxy hyx => absurd hxy hyx.not_gt)
      (hsorted h.alike.inv) (hsorted h.alike.inv') ?_
    exact ((hperm a).trans (hmapped ▸ List.Perm.refl _)).trans (hperm b).symm
  unfold fetchConsumerSnapshots
  rw [mapM_consumerSnapshot, mapM_consumerSnapshot]
  dsimp only
  rw [hall, hall, hsame]

end Reads

section Requests

variable {a b : Db} {self : Consumer}

/-- What is left of an answer without the count of a prune and the retained messages. -/
def hidden : Answer → Answer
  | .reply (.pruned _) => .reply (.pruned ⟨0⟩)
  | .snapshot found => .snapshot { found with retainedMessages := 0 }
  | answer => answer

/-- A round of a poll that found nothing, or was refused for its lease. -/
def BarrenAnswer (answer : Except Error Answer) : Prop :=
  ∃ found, Barren found ∧ answer = found.map Answer.polled

/-- A request is answered the same, or is a round whose lease ends too late and that is barren. -/
def SameAnswer (request : Request) (x y : Except Error Answer) : Prop :=
  x.map hidden = y.map hidden ∨
    ∃ self options start now, request.call = .poll self options start now ∧
      Overflows request.fan options start now ∧ BarrenAnswer x ∧ BarrenAnswer y

theorem SameAnswer.of_eq {request : Request} {x y : Except Error Answer} (h : x = y) :
    SameAnswer request x y := .inl (congrArg _ h)

/-- The same identifiers name the same archives. -/
theorem Unpruned.corresponds (h : Unpruned a b) (c : ℤ) (ids : List ℤ) :
    Corresponds c a b ids ids := by
  refine ⟨rfl, ?_⟩
  rw [archivesOf, archivesOf, h.archives]
  exact List.forall₂_same.mpr fun _ _ => ⟨rfl, Iff.rfl⟩

theorem renumber_id (op : Op) : renumber id op = op := by
  cases op <;> rfl

theorem Call.renumber_id (call : Call) : Call.renumber id call = call := by
  cases call with
  | commit op => exact congrArg Call.commit (Pruning.renumber_id op)
  | poll | archives | beginDraining | consumerSnapshot | snapshot => rfl

/-- A call through a handle leaves the stores alike. -/
theorem Unpruned.called (h : Unpruned a b) (e : Engine) (fan : Inner) {call : Call}
    (hthrough : call.through = some self) :
    AlikeBut (fun _ => False) (call.run e fan a).1 (call.run e fan b).1 := by
  have hinbox : SameInbox self.id (call.run e fan a).1 ((Call.renumber id call).run e fan b).1 :=
    (h.inbox self.id).call h.alike.log h.alike.inv h.alike.inv' e fan hthrough fun ids _ =>
      h.corresponds self.id ids
  rw [Call.renumber_id] at hinbox
  exact h.alike.confined (confined_call e fan h.alike.inv hthrough)
    (confined_call e fan h.alike.inv' hthrough) fun _ => hinbox

/-- A prune is accepted in both stores or refused in both for the same reason. -/
theorem pruned_alike (e : Engine) (fan : Inner) (prune : Prune) (a b : Db) :
    ((exec e fan (.pruneMessages prune) a).2.map Answer.reply).map hidden =
      ((exec e fan (.pruneMessages prune) b).2.map Answer.reply).map hidden := by
  have hcases : ∀ db, ((exec e fan (.pruneMessages prune) db).2.map Answer.reply).map hidden =
      if prune.maxMessages ≤ fan.maxBatchSize then .ok (.reply (.pruned ⟨0⟩))
      else .error (.batchTooLarge prune.maxMessages fan.maxBatchSize) := by
    intro db
    change ((replying .pruned (commit (pruneMessages fan prune) db)).2.map
      Answer.reply).map hidden = _
    by_cases hpos : prune.maxMessages = 0
    · rw [replying_ok (pruneMessages_zero hpos), if_pos (by omega)]
      rfl
    · by_cases hle : prune.maxMessages ≤ fan.maxBatchSize
      · rw [replying_ok (pruneMessages_eq hpos hle), if_pos hle]
        rfl
      · rw [replying_error (pruneMessages_large (not_le.mp hle)), if_neg hle]
        rfl
  rw [hcases a, hcases b]

/-- A transaction keeps the stores alike and is answered the same. -/
theorem Unpruned.committed (h : Unpruned a b) (e : Engine) (fan : Inner) (op : Op) :
    Unpruned (exec e fan op a).1 (exec e fan op b).1 ∧
      SameAnswer ⟨e, fan, .commit op⟩ ((Call.commit op).run e fan a).2
        ((Call.commit op).run e fan b).2 := by
  have harchives := h.exec_archives e fan op
  have hanswer : (exec e fan op a).2 = (exec e fan op b).2 →
      SameAnswer ⟨e, fan, .commit op⟩ ((Call.commit op).run e fan a).2
        ((Call.commit op).run e fan b).2 :=
          fun hsame => .of_eq (congrArg (Except.map Answer.reply) hsame)
  cases hthrough : System.through op with
  | some self =>
    have hmatched : Matched self.id (exec e fan op a) (exec e fan (renumber id op) b) :=
      (h.inbox self.id).exec h.alike.log h.alike.inv h.alike.inv' e fan hthrough fun ids _ =>
        h.corresponds self.id ids
    rw [Pruning.renumber_id] at hmatched
    have halike : AlikeBut (fun _ => False) (exec e fan op a).1 (exec e fan op b).1 :=
      h.alike.confined (confined_exec e fan h.alike.inv hthrough)
        (confined_exec e fan h.alike.inv' hthrough) fun _ => hmatched.inbox
    exact ⟨⟨halike, harchives⟩, hanswer hmatched.answer⟩
  | none =>
    obtain ⟨halike, hsame⟩ := h.alike.store e fan hthrough fun _ _ _ _ _ => not_false
    refine ⟨⟨halike, harchives⟩, ?_⟩
    cases op with
    | pruneMessages prune => exact .inl (pruned_alike e fan prune a b)
    | openConsumer | publishBatch | deleteConsumer =>
      exact hanswer (hsame fun prune hprune => by cases hprune)
    | claim | ackBatch | nackBatch | extendVisibilityBatch | archiveBatch | redriveBatch
    | purgeArchives | beginDraining => cases hthrough

/-- A round of a poll keeps the stores alike and is answered the same, or is barren in both. -/
theorem Unpruned.polled (h : Unpruned a b) (e : Engine) (fan : Inner) (self : Consumer)
    (options : Poll) (start : Start) (now : ℤ) :
    Unpruned (pollRound e fan self options start now a).1
        (pollRound e fan self options start now b).1 ∧
      SameAnswer ⟨e, fan, .poll self options start now⟩
        ((Call.poll self options start now).run e fan a).2
        ((Call.poll self options start now).run e fan b).2 := by
  have halike : AlikeBut (fun _ => False) (pollRound e fan self options start now a).1
      (pollRound e fan self options start now b).1 := @Unpruned.called _ _ self h e fan
    (.poll self options start now) rfl
  have hkept : ∀ {db : Db}, Inv db →
      (pollRound e fan self options start now db).1.archives = db.archives := by
    intro db hinv
    rcases pollRound_after e fan self options start now db with hsame | hexec
    · rw [hsame]
    · rw [hexec]
      exact archives_effect (exec_effect e fan (.claim self options now) hinv) trivial
  refine ⟨⟨halike, ?_⟩, ?_⟩
  · rw [hkept h.alike.inv, hkept h.alike.inv', h.archives]
  · obtain ⟨-, hsame | ⟨hover, hbarren, hbarren'⟩⟩ := (h.inbox self.id).pollRound h.alike.log
      h.alike.inv h.alike.inv' e fan options start now
    · exact .of_eq (congrArg (Except.map Answer.polled) hsame)
    · exact .inr ⟨self, options, start, now, rfl, hover, ⟨_, hbarren, rfl⟩, ⟨_, hbarren', rfl⟩⟩

/-- A drain call keeps the stores alike and is answered the same. -/
theorem Unpruned.drained (h : Unpruned a b) (e : Engine) (fan : Inner) (self : Consumer) (now : ℤ) :
    Unpruned (Consumer.beginDraining self now a).1 (Consumer.beginDraining self now b).1 ∧
      (Consumer.beginDraining self now a).2 = (Consumer.beginDraining self now b).2 := by
  have hcommitted := (h.committed e fan (.beginDraining self now)).1
  rw [← beginDraining_after, ← beginDraining_after] at hcommitted
  refine ⟨hcommitted, ?_⟩
  have hcall : ∀ {db : Db}, Inv db → Consumer.beginDraining self now db =
      (drainedDb db self.id now,
        drainReport self (Effect.drainChanges db self.id) (drainedDb db self.id now)) := by
    intro db hinv
    rw [Consumer.beginDraining, commit, drainTransition_eq hinv]
  have hlive : ((drainedDb a self.id now).consumers.lookup self.id).isSome =
      ((drainedDb b self.id now).consumers.lookup self.id).isSome := by
    rw [lookup_drainedDb, lookup_drainedDb, Option.isSome_map, Option.isSome_map]
    have hrow := congrArg Option.isSome (h.inbox self.id).row
    rwa [Option.isSome_map, Option.isSome_map] at hrow
  rw [hcall h.alike.inv, hcall h.alike.inv']
  dsimp only
  rw [drainReport, drainReport, (h.inbox self.id).drainChanges, hlive]

/-- A snapshot of the store reports the same, but for the messages it retains. -/
theorem Unpruned.snapshot (h : Unpruned a b) (now : ℤ) :
    ((Store.snapshot a now).map Answer.snapshot).map hidden =
      ((Store.snapshot b now).map Answer.snapshot).map hidden := by
  unfold Store.snapshot
  rw [h.consumerSnapshots, h.alike.log.ledger, u64TryFrom_nat, u64TryFrom_nat, u64TryFrom_nat]
  cases fetchConsumerSnapshots b now none with
  | error err => rfl
  | ok consumers =>
    simp only [bind, Except.bind]
    cases sumColumn ConsumerSnapshot.outstanding consumers with
    | error err => rfl
    | ok outstanding =>
      cases sumColumn ConsumerSnapshot.archived consumers with
      | error err => rfl
      | ok archived => rfl

/-- A request keeps the stores alike and is answered the same. -/
theorem Unpruned.request (h : Unpruned a b) (request : Request) :
    Unpruned (request.after a) (request.after b) ∧
      SameAnswer request (request.answer a) (request.answer b) := by
  obtain ⟨e, fan, call⟩ := request
  cases call with
  | commit op => exact h.committed e fan op
  | poll self options start now => exact h.polled e fan self options start now
  | archives self list =>
    exact ⟨h, .of_eq (congrArg (Except.map Answer.page) (h.page fan self list))⟩
  | beginDraining self now =>
    obtain ⟨hafter, hsame⟩ := h.drained e fan self now
    exact ⟨hafter, .of_eq (congrArg (Except.map Answer.drained) hsame)⟩
  | consumerSnapshot self now =>
    exact ⟨h, .of_eq (congrArg (Except.map Answer.consumerSnapshot) (h.consumerSnapshot self now))⟩
  | snapshot now => exact ⟨h, .inl (h.snapshot now)⟩

/-- Requests made one after the other are answered the same. -/
theorem Unpruned.answers (requests : List Request) (h : Unpruned a b) :
    List.Forall₂ (fun pair y => SameAnswer pair.1 pair.2 y)
      (requests.zip (Calls.answers requests a)) (Calls.answers requests b) := by
  induction requests generalizing a b with
  | nil => exact .nil
  | cons request requests ih =>
    obtain ⟨hafter, hanswer⟩ := h.request request
    exact .cons hanswer (ih hafter)

end Requests

section Invisible

variable {db : Db}

/-- A prune changes nothing that a consumer can see. -/
theorem unpruned_pruned (e : Engine) (fan : Inner) (prune : Prune) (hinv : Inv db) :
    Unpruned db (exec e fan (.pruneMessages prune) db).1 := by
  have heffect := exec_effect e fan (.pruneMessages prune) hinv
  have hconsumers := consumers_effect heffect (.inr ⟨prune, rfl⟩)
  have harchives := archives_effect heffect trivial
  have hkept : ∀ c, Kept c db (exec e fan (.pruneMessages prune) db).1 := by
    intro c
    generalize exec e fan (.pruneMessages prune) db = after at heffect
    obtain ⟨db', reply⟩ := after
    cases heffect with
    | rejected | idle => exact .refl c _
    | pruned => exact kept_pruned prune
  refine ⟨⟨hinv, inv_effect heffect hinv, ?_, ?_, fun c => ?_, fun c _ => ?_⟩, harchives.symm⟩
  · exact (SameLog.refl db).shortened (hkept 0).log
  · rw [hconsumers]
  · rw [hconsumers]
  · exact (SameInbox.refl c db).kept (hkept c)

/-- Whatever is asked after a prune is answered as if it had not been made, up to the counts of
later prunes and of the retained messages, and but for rounds of a poll whose lease ends too late,
which deliver nothing with or without it. -/
theorem prune_invisible (hreachable : Reachable db) (e : Engine) (fan : Inner) (prune : Prune)
    (requests : List Request) :
    List.Forall₂ (fun pair y => SameAnswer pair.1 pair.2 y)
      (requests.zip (Calls.answers requests db))
      (Calls.answers requests (exec e fan (.pruneMessages prune) db).1) :=
  (unpruned_pruned e fan prune (inv_reachable hreachable)).answers requests

/-- A consumer of one topic, and a message of another. -/
def foreignOps : List Op :=
  [.openConsumer "b" (.topic "b") 0, .publishBatch [⟨some "a", [7], none⟩] 0]

/-- The database they lead to. -/
def foreignDb : Db := outcomeDb Engine.inOrder Inner.default foreignOps Db.empty

/-- A new consumer, a message for both, and what each is then given. -/
def askedAfter : List Request :=
  [⟨.inOrder, .default, .commit (.openConsumer "c" .all 1)⟩,
    ⟨.inOrder, .default, .commit (.publishBatch [⟨some "b", [8], none⟩] 1)⟩,
    ⟨.inOrder, .default, .poll ⟨1, "b", .topic "b"⟩ pollOne ⟨9, 0⟩ 1⟩,
    ⟨.inOrder, .default, .poll ⟨2, "c", .all⟩ pollOne ⟨9, 0⟩ 1⟩, ⟨.inOrder, .default, .snapshot 1⟩]

/-- They are given the same when the first message is pruned. -/
theorem prune_invisible_topics :
    List.Forall₂ (fun pair y => SameAnswer pair.1 pair.2 y)
      (askedAfter.zip (Calls.answers askedAfter foreignDb))
      (Calls.answers askedAfter
        (exec Engine.inOrder Inner.default (.pruneMessages ⟨1, 1⟩) foreignDb).1) :=
  prune_invisible (reachable_outcome Engine.inOrder Inner.default foreignOps) Engine.inOrder
    Inner.default ⟨1, 1⟩ askedAfter

/-- A round whose lease would last to the end of time is refused for the message of another
topic, and finds nothing once that is pruned. -/
theorem prune_visible_overflow : ¬∀ db, Reachable db → ∀ e fan prune, ∀ requests : List Request,
    (∀ request ∈ requests, ∀ later, request.call ≠ .commit (.pruneMessages later)) →
    (Calls.answers requests db).map (Except.map hidden) =
      (Calls.answers requests (exec e fan (.pruneMessages prune) db).1).map
        (Except.map hidden) := by
  intro h
  have hsame := h foreignDb (reachable_outcome Engine.inOrder Inner.default foreignOps)
    Engine.inOrder Inner.default ⟨1, 1⟩
    [⟨.inOrder, .default, .poll ⟨1, "b", .topic "b"⟩ ⟨1, 9223372036854775807000000, 0⟩ ⟨9, 0⟩ 1⟩]
    fun request hmem later hcall => by
      obtain rfl := List.mem_singleton.mp hmem
      cases hcall
  have hkept : (Calls.answers [⟨.inOrder, .default,
      .poll ⟨1, "b", .topic "b"⟩ ⟨1, 9223372036854775807000000, 0⟩ ⟨9, 0⟩ 1⟩] foreignDb).map
        (Except.map hidden) = [.error .durationOutOfRange] := by rfl
  have hpruned : (Calls.answers [⟨.inOrder, .default,
      .poll ⟨1, "b", .topic "b"⟩ ⟨1, 9223372036854775807000000, 0⟩ ⟨9, 0⟩ 1⟩]
        (exec Engine.inOrder Inner.default (.pruneMessages ⟨1, 1⟩) foreignDb).1).map
        (Except.map hidden) = [.ok (.polled (some ⟨[], none, false⟩))] := by rfl
  rw [hkept, hpruned] at hsame
  cases hsame

end Invisible

end LiteFan.Pruning

import LiteFan.Mailboxes

/-!
# Scanning the log refines filling mailboxes

The store keeps one log and a cursor for every consumer. Read through its
cursors, what a consumer has yet to see is a mailbox, and every transaction of
the store is the transaction of the mailboxes: a publish appends to the boxes
that accept it although no box exists, a claim takes the oldest copies although
it moves a cursor, and closing an inbox changes nothing in it although it fixes
a boundary. So no run of calls can tell the two stores apart.
-/

namespace LiteFan.FanOutOnWrite

open LiteFan.Api LiteFan.Time LiteFan.Schema LiteFan.Storage LiteFan.Store LiteFan.Consumer
open LiteFan.System LiteFan.Invariant LiteFan.Effect LiteFan.Step LiteFan.Preservation
open LiteFan.Calls LiteFan.Inbox LiteFan.Alike LiteFan.Refusals LiteFan.Engines LiteFan.Mailboxes
open LiteFan.Outstanding Relational

/-- The mailbox a consumer row stands for. -/
def boxOf (db : Db) (row : ConsumerRow) : Mailbox :=
  ⟨row.id, row.name, row.topicFilter, row.createdAt, row.drainingAt, unseen db row⟩

theorem boxOf_id (db : Db) (row : ConsumerRow) : (boxOf db row).id = row.id := rfl

/-- The store read through its cursors. -/
def view (db : Db) : Post :=
  ⟨db.messages, db.idempotency, db.consumers.view (boxOf db) (boxOf_id db), db.deliveries,
    db.archives⟩

section Reading

variable {db db' : Db} {row : ConsumerRow}

/-- A fresh store has no mailbox. -/
theorem view_empty : view Db.empty = Post.empty := rfl

/-- A mailbox depends on the log and the row. -/
theorem boxOf_congr (h : db'.messages = db.messages) (row : ConsumerRow) :
    boxOf db' row = boxOf db row := by
  rw [boxOf, unseen_congr h, boxOf]

/-- The mailboxes of given rows depend on the log. -/
theorem boxes_congr (h : db'.messages = db.messages)
    (rows : AutoTable ConsumerRow ConsumerRow.id) :
    rows.view (boxOf db') (boxOf_id db') = rows.view (boxOf db) (boxOf_id db) :=
  AutoTable.view_congr fun row _ => boxOf_congr h row

/-- What leaves the log and the rows alone leaves the mailboxes alone. -/
theorem view_restore (hmessages : db'.messages = db.messages)
    (hconsumers : db'.consumers = db.consumers) : view db' = (view db).restore db' := by
  have hboxes : db'.consumers.view (boxOf db') (boxOf_id db') =
      db.consumers.view (boxOf db) (boxOf_id db) := by
    rw [boxes_congr hmessages, hconsumers]
  rw [view, hboxes]
  rfl

/-- The mailbox of an identity. -/
theorem lookup_boxes (db : Db) (c : ℤ) :
    (view db).boxes.lookup c = (db.consumers.lookup c).map (boxOf db) :=
  AutoTable.lookup_view db.consumers c

/-- The mailbox of a name. -/
theorem boxNamed_view (db : Db) (name : String) :
    (view db).boxNamed name = (consumerNamed db name).map (boxOf db) :=
  List.find?_map

/-- A mailbox owes what a deletion would discard. -/
theorem owes_view (db : Db) (row : ConsumerRow) :
    (view db).owes (boxOf db row) = outstandingCount db row := by
  rw [outstandingCount, ← unseen_eq]
  rfl

/-- The guards of a deletion are the same. -/
theorem deleteRefusal_view (name : String) (mode : DeleteMode) (db : Db) (row : ConsumerRow) :
    (view db).deleteRefusal name mode (boxOf db row) = Effect.deleteRefusal name mode db row := by
  rw [Post.deleteRefusal, owes_view]
  rfl

/-- The guards of a transaction are the same. -/
theorem refusal_view (fan : Inner) (db : Db) (op : Op) :
    (view db).refusal fan op = Refusals.refusal fan db op := by
  cases op with
  | openConsumer name filter now =>
    rw [Post.refusal, Refusals.refusal, boxNamed_view]
    cases consumerNamed db name <;> rfl
  | claim handle poll now =>
    rw [Post.refusal, Refusals.refusal, lookup_boxes, Option.isNone_map]
  | deleteConsumer name mode =>
    rw [Post.refusal, Refusals.refusal, boxNamed_view]
    cases consumerNamed db name with
    | none => rfl
    | some row => exact deleteRefusal_view name mode db row
  | publishBatch messages now | ackBatch handle receipts | nackBatch handle receipts retry now
  | extendVisibilityBatch handle receipts timeout now
  | archiveBatch handle receipts detail now | redriveBatch handle archiveIds retry now
  | purgeArchives handle purge | beginDraining handle now | pruneMessages prune => rfl

end Reading

section Transactions

variable {db : Db} {row : ConsumerRow}

/-- A new identity sees nothing of the log. -/
theorem view_opened (name : String) (filter : Filter) (now : ℤ) :
    view (openedDb db name filter now) = { view db with
      boxes := (view db).boxes.append (newBox name filter now) (newBox_id name filter now) } := by
  have hnone : unseen (openedDb db name filter now)
      (activeRow name filter now (highWater db) (db.consumers.seq + 1)) = [] := by
    refine List.eq_nil_iff_forall_not_mem.mpr fun message hm => ?_
    obtain ⟨-, hbeyond, hlimit, -⟩ := mem_unseen.mp hm
    have hlimit : message.id ≤ highWater db := hlimit
    have hbeyond : highWater db < message.id := hbeyond
    omega
  have hnew : boxOf (openedDb db name filter now)
      (activeRow name filter now (highWater db) (db.consumers.seq + 1)) =
        newBox name filter now (db.consumers.seq + 1) := by
    rw [boxOf, hnone]
    rfl
  have hboxes : (openedDb db name filter now).consumers.view (boxOf (openedDb db name filter now))
      (boxOf_id (openedDb db name filter now)) =
        (db.consumers.view (boxOf db) (boxOf_id db)).append (newBox name filter now)
          (newBox_id name filter now) := by
    have hsame : db.consumers.view (boxOf (openedDb db name filter now))
        (boxOf_id (openedDb db name filter now)) = db.consumers.view (boxOf db) (boxOf_id db) :=
      boxes_congr rfl db.consumers
    have happend : (db.consumers.append (activeRow name filter now (highWater db))
        (activeRow_id name filter now (highWater db))).view (boxOf (openedDb db name filter now))
          (boxOf_id (openedDb db name filter now)) =
        (db.consumers.view (boxOf (openedDb db name filter now))
          (boxOf_id (openedDb db name filter now))).append (newBox name filter now)
            (newBox_id name filter now) := AutoTable.view_append hnew
    rw [← hsame]
    exact happend
  rw [view, hboxes]
  rfl

/-- An open that finds its identity changes no mailbox. -/
theorem view_reopened : view (reopenedDb db) = { view db with boxes := (view db).boxes.bump } := by
  have hboxes : db.consumers.bump.view (boxOf (reopenedDb db)) (boxOf_id (reopenedDb db)) =
      (db.consumers.view (boxOf db) (boxOf_id db)).bump := by
    rw [AutoTable.view_bump]
    exact congrArg AutoTable.bump (boxes_congr rfl db.consumers)
  exact congrArg (fun boxes => ({ view db with boxes := boxes } : Post)) hboxes

/-- The log entries a publish adds. -/
def newMessages (fan : Inner) (messages : List Publish) (now : ℤ) (db : Db) : List Message :=
  (publishing fan messages now db).messages.select fun message =>
    decide (db.messages.seq < message.id)

/-- Publishing knows nothing of the consumers. -/
theorem publishing_shared (fan : Inner) (messages : List Publish) (now : ℤ) (db : Db) :
    publishing fan messages now (view db).shared =
      { publishing fan messages now db with consumers := AutoTable.empty } := by
  unfold publishing assigned ledgerAt
  split_ifs <;> rfl

/-- What a publish assigns depends on the log and the ledger. -/
theorem assigned_shared (messages : List Publish) (now : ℤ) (db : Db) :
    assigned now (view db).shared messages = assigned now db messages := by
  unfold assigned ledgerAt
  split_ifs <;> rfl

/-- The log before a publish is what it has up to the last identifier. -/
theorem newMessages_eq (fan : Inner) (messages : List Publish) (now : ℤ) (db : Db) :
    newMessages fan messages now db = newRows now messages db := by
  have hold : db.messages.table.rows.filter (fun message =>
      decide (db.messages.seq < message.id)) = [] :=
    List.filter_eq_nil_iff.mpr fun message hm => by
      have hle := db.messages.key_le message hm
      rw [decide_eq_true_eq]
      omega
  have hnew : (newRows now messages db).filter (fun message =>
      decide (db.messages.seq < message.id)) = newRows now messages db :=
    List.filter_eq_self.mpr fun message hm => decide_eq_true (lt_of_newRows hm)
  rw [newMessages, AutoTable.select, Table.select, publishing, publishedDb_rows,
    List.filter_append, hold, hnew, List.nil_append]

/-- A publish appends to the mailbox of a consumer what it accepts. -/
theorem boxOf_published (hinv : Inv db) (hrow : row ∈ db.consumers) (fan : Inner)
    (messages : List Publish) (now : ℤ) :
    boxOf (publishing fan messages now db) row = Table.rowUpdate (fun _ => true)
      (Mailbox.deliver (newMessages fan messages now db)) (boxOf db row) := by
  have hunseen : unseen (publishing fan messages now db) row =
      unseen db row ++ (newMessages fan messages now db).filter (boxOf db row).accepts := by
    rw [unseen_eq, unseen_eq, AutoTable.select, Table.select, publishing, publishedDb_rows,
      List.filter_append, newMessages_eq]
    refine congrArg (_ ++ ·) (List.filter_congr fun message hm => ?_)
    exact (hinv.rows row hrow).awaits_new (lt_of_newRows hm)
  rw [Table.rowUpdate, if_pos rfl, boxOf, hunseen]
  rfl

/-- A publish appends to every open mailbox that accepts a message, and to no other. -/
theorem view_published (hinv : Inv db) (fan : Inner) (messages : List Publish) (now : ℤ) :
    view (publishing fan messages now db) = (view db).publish fan messages now := by
  have hboxes : (publishing fan messages now db).consumers.view
      (boxOf (publishing fan messages now db)) (boxOf_id (publishing fan messages now db)) =
        (db.consumers.view (boxOf db) (boxOf_id db)).updateWhere (fun _ => true)
          (Mailbox.deliver (newMessages fan messages now db))
          (Mailbox.deliver_id (newMessages fan messages now db)) := by
    have hconsumers : (publishing fan messages now db).consumers = db.consumers :=
      (ledgerAt_parts now db messages).2.1
    rw [hconsumers]
    exact AutoTable.view_rewrite fun row hrow => boxOf_published hinv hrow fan messages now
  rw [view, hboxes, Post.publish]
  simp only [publishing_shared]
  rfl

/-- What a claim leaves unseen is what it had no room for. -/
theorem unseen_advanced (db : Db) (row : ConsumerRow) (now : ℤ) (limit : ℕ) :
    unseen db (withCursor (cursorAfter db row now limit) row) =
      (unseen db row).drop (remaining db row.id now limit) := by
  have hsorted := unseen_sorted db row
  have hdrop : ((unseen db row).drop (remaining db row.id now limit)).Pairwise
      fun a b => a.id < b.id := hsorted.sublist (List.drop_sublist _ _)
  have hsplit := List.take_append_drop (remaining db row.id now limit) (unseen db row)
  have hnodup : (freshMessages db row now limit ++
      (unseen db row).drop (remaining db row.id now limit)).Nodup := by
    rw [freshMessages, hsplit]
    exact unseen_nodup db row
  refine (sortBy_eq_of_perm (List.Perm.refl _) (unseen_sorted db _)).symm.trans
    (sortBy_eq_of_perm ((List.perm_ext_iff_of_nodup (unseen_nodup db _)
      (List.nodup_append'.mp hnodup).2.1).mpr fun message => ?_) hdrop)
  rw [mem_unseen_advanced]
  constructor
  · rintro ⟨hunseen, hfresh⟩
    rw [← hsplit, List.mem_append] at hunseen
    exact hunseen.resolve_left hfresh
  · intro hrest
    exact ⟨List.mem_of_mem_drop hrest, fun hfresh =>
      (List.nodup_append'.mp hnodup).2.2 hfresh hrest⟩

/-- A claim takes the oldest copies out of the mailbox of its consumer. -/
theorem view_claimed (hrow : db.consumers.lookup row.id = some row) (now deadline : ℤ)
    (limit : ℕ) :
    view (claimedDb db row now deadline limit) =
      (view db).claimed (boxOf db row) now deadline limit := by
  have hboxes : (claimedDb db row now deadline limit).consumers.view
      (boxOf (claimedDb db row now deadline limit))
      (boxOf_id (claimedDb db row now deadline limit)) =
        (db.consumers.view (boxOf db) (boxOf_id db)).updateWhere
          (fun other => other.id == row.id) (Mailbox.takeOut (remaining db row.id now limit))
          (Mailbox.takeOut_id (remaining db row.id now limit)) := by
    refine AutoTable.view_updateWhere fun other hother => ?_
    have hsamelog : boxOf (claimedDb db row now deadline limit) = boxOf db :=
      funext fun row => boxOf_congr rfl row
    rw [hsamelog]
    unfold Table.rowUpdate
    by_cases hid : (other.id == row.id) = true
    · have hsame : other = row :=
        AutoTable.eq_of_key hother (AutoTable.lookup_eq_some.mp hrow).1 (beq_iff_eq.mp hid)
      have hbox : ((boxOf db other).id == row.id) = true := hid
      rw [if_pos hid, if_pos hbox, hsame]
      unfold boxOf
      rw [unseen_advanced]
      rfl
    · have hbox : ¬((boxOf db other).id == row.id) = true := hid
      rw [if_neg hid, if_neg hbox]
  rw [view, hboxes]
  rfl

/-- The boundary a drain fixes is above every stored entry. -/
theorem unseen_drained (hinv : Inv db) (hrow : row ∈ db.consumers) (c now : ℤ) :
    unseen db (Table.rowUpdate (drainGuard c) (startDraining now (highWater db)) row) =
      unseen db row := by
  by_cases hc : row.id = c
  · subst hc
    have hlookup := AutoTable.lookup_key hrow
    have hwaiting := waiting_drained hinv row.id now
    have hdrained : (drainedDb db row.id now).consumers.lookup row.id = some
        (Table.rowUpdate (drainGuard row.id) (startDraining now (highWater db)) row) := by
      rw [lookup_drainedDb, hlookup, Option.map_some]
    have hsame : (drainedDb db row.id now).messages = db.messages := rfl
    rw [waiting_row hlookup, waiting_row hdrained, unseen_congr hsame] at hwaiting
    exact hwaiting
  · have hother : drainGuard c row = false := by
      rw [drainGuard, beq_false_of_ne hc, Bool.false_and]
    rw [Table.rowUpdate, hother, if_neg Bool.false_ne_true]

/-- Closing an inbox changes nothing in it. -/
theorem view_drained (hinv : Inv db) (c now : ℤ) :
    view (drainedDb db c now) = (view db).closed c now := by
  have hboxes : (drainedDb db c now).consumers.view (boxOf (drainedDb db c now))
      (boxOf_id (drainedDb db c now)) = (db.consumers.view (boxOf db) (boxOf_id db)).updateWhere
        (fun box => box.id == c && box.drainingAt.isNone) (Mailbox.close now)
        (Mailbox.close_id now) := by
    refine AutoTable.view_updateWhere fun row hrow => ?_
    have hunseen := unseen_drained hinv hrow c now
    have hlog : boxOf (drainedDb db c now) = boxOf db := funext fun row => boxOf_congr rfl row
    rw [hlog]
    unfold Table.rowUpdate at hunseen ⊢
    by_cases hdrains : drainGuard c row = true
    · have hbox : ((boxOf db row).id == c && (boxOf db row).drainingAt.isNone) = true := hdrains
      rw [if_pos hdrains] at hunseen ⊢
      rw [if_pos hbox]
      unfold boxOf
      rw [hunseen]
      rfl
    · have hbox : ¬((boxOf db row).id == c && (boxOf db row).drainingAt.isNone) = true := hdrains
      rw [if_neg hdrains, if_neg hbox]
  rw [view, hboxes]
  rfl

theorem view_deleted (row : ConsumerRow) :
    view (deletedDb db row) = (view db).removed (boxOf db row) := by
  have hboxes : (deletedDb db row).consumers.view (boxOf (deletedDb db row))
      (boxOf_id (deletedDb db row)) = (db.consumers.view (boxOf db) (boxOf_id db)).deleteWhere
        (fun other => other.id == row.id) := by
    rw [boxes_congr rfl]
    exact AutoTable.view_deleteWhere fun other _ => rfl
  rw [view, hboxes]
  rfl

/-- A stored message awaits a consumer when a copy is in its mailbox. -/
theorem any_unseen {message : Message} (hm : message ∈ db.messages) (row : ConsumerRow) :
    ((unseen db row).any fun copy => copy.id == message.id) = awaits row message := by
  rw [Bool.eq_iff_iff, List.any_eq_true]
  constructor
  · rintro ⟨copy, hcopy, hid⟩
    rw [unseen_eq, AutoTable.mem_select] at hcopy
    obtain rfl := AutoTable.eq_of_key hcopy.1 hm (beq_iff_eq.mp hid)
    exact hcopy.2
  · intro hawaits
    have hunseen : message ∈ unseen db row := by
      rw [unseen_eq, AutoTable.mem_select]
      exact ⟨hm, hawaits⟩
    exact ⟨message, hunseen, beq_self_eq_true message.id⟩

/-- A stored message awaits some consumer when it is in some mailbox. -/
theorem any_fresh {message : Message} (hm : message ∈ db.messages) :
    ((view db).boxes.table.rows.any fun box => box.fresh.any fun copy => copy.id == message.id) =
      db.consumers.table.rows.any fun row => awaits row message := by
  rw [view, AutoTable.view_rows, List.any_map]
  exact List.any_congr rfl fun row => any_unseen hm row

/-- A prune takes nothing that is still in a mailbox. -/
theorem pruned_view (prune : Prune) : (view db).pruned prune = prunedIds db prune := by
  have hidle : db.messages.select ((view db).idle prune.beforeMs) =
      db.messages.select (prunable db prune.beforeMs) := by
    refine Table.select_congr fun message hm => ?_
    unfold Post.idle prunable
    rw [any_fresh hm]
    rfl
  rw [prunedIds, ← hidle]
  rfl

/-- A prune leaves the mailboxes as they are. -/
theorem view_pruned (prune : Prune) : view (prunedDb db prune) = { view db with
    messages := db.messages.deleteWhere fun message =>
      decide (message.id ∈ prunedIds db prune) } := by
  have hboxes : db.consumers.view (boxOf (prunedDb db prune)) (boxOf_id (prunedDb db prune)) =
      db.consumers.view (boxOf db) (boxOf_id db) := by
    refine AutoTable.view_congr fun row hrow => ?_
    have hlookup := AutoTable.lookup_key hrow
    have hpruned : (prunedDb db prune).consumers.lookup row.id = some row := hlookup
    have hwaiting : waiting (prunedDb db prune) row.id = waiting db row.id := waiting_pruned prune
    rw [waiting_row hlookup, waiting_row hpruned] at hwaiting
    rw [boxOf, hwaiting, boxOf]
  exact congrArg (fun boxes => ({ view (prunedDb db prune) with boxes := boxes } : Post)) hboxes

/-- There is an open mailbox to close when the drain call changes a row. -/
theorem closes_view (db : Db) (c : ℤ) : (view db).closes c = drainChanges db c := by
  rw [Post.closes, lookup_boxes, Bool.eq_iff_iff, drainChanges_iff]
  cases db.consumers.lookup c with
  | none =>
    refine iff_of_false Bool.false_ne_true ?_
    rintro ⟨row, hrow, -⟩
    cases hrow
  | some row =>
    constructor
    · intro hopen
      exact ⟨row, rfl, Option.isNone_iff_eq_none.mp hopen⟩
    · rintro ⟨row', hrow, hopen⟩
      cases hrow
      exact Option.isNone_iff_eq_none.mpr hopen

/-- A transaction on deliveries and archives is the same transaction. -/
theorem outcome_restored {fan : Inner} {op : Op}
    (hrestores : (view db).outcome fan op = ((view db).restore (Engines.outcome fan db op).1,
      (Engines.outcome fan db op).2))
    (hmessages : (Engines.outcome fan db op).1.messages = db.messages)
    (hconsumers : (Engines.outcome fan db op).1.consumers = db.consumers) :
    (view db).outcome fan op =
      (view (Engines.outcome fan db op).1, (Engines.outcome fan db op).2) := by
  rw [hrestores, view_restore hmessages hconsumers]

/-- What a transaction leaves and replies. -/
theorem outcome_view (hinv : Inv db) (fan : Inner) (op : Op) :
    (view db).outcome fan op =
      (view (Engines.outcome fan db op).1, (Engines.outcome fan db op).2) := by
  cases op with
  | openConsumer name filter now =>
    rw [Post.outcome, Engines.outcome, boxNamed_view]
    cases consumerNamed db name with
    | none => exact Prod.ext (view_opened name filter now).symm rfl
    | some row => exact Prod.ext view_reopened.symm rfl
  | publishBatch messages now =>
    rw [Post.outcome, Engines.outcome, ← view_published hinv, assigned_shared]
  | claim handle poll now =>
    rw [Post.outcome, Engines.outcome, sizedOutcome, sizedOutcome, lookup_boxes]
    by_cases hpos : poll.maxMessages = 0
    · rw [if_pos hpos, if_pos hpos]
    · rw [if_neg hpos, if_neg hpos]
      cases hrow : db.consumers.lookup handle.id with
      | none => rfl
      | some row =>
        have hid : handle.id = row.id := (AutoTable.lookup_eq_some.mp hrow).2.symm
        have hrow' : db.consumers.lookup row.id = some row := hid ▸ hrow
        exact Prod.ext (view_claimed hrow' now _ _).symm rfl
  | ackBatch handle receipts | nackBatch handle receipts retry now
  | extendVisibilityBatch handle receipts timeout now
  | archiveBatch handle receipts detail now | redriveBatch handle archiveIds retry now
  | purgeArchives handle purge => exact outcome_restored rfl rfl rfl
  | beginDraining handle now =>
    rw [Post.outcome, Engines.outcome, ← view_drained hinv, closes_view]
  | deleteConsumer name mode =>
    rw [Post.outcome, Engines.outcome, boxNamed_view]
    cases consumerNamed db name with
    | none => rfl
    | some row =>
      refine Prod.ext (view_deleted row).symm ?_
      exact congrArg (fun owed => Reply.deleted ⟨owed, _⟩) (owes_view db row)
  | pruneMessages prune =>
    rw [Post.outcome, Engines.outcome, pruned_view, view_pruned]
    rfl

/-- A transaction of the store is the transaction of the mailboxes. -/
theorem exec_view (hinv : Inv db) (e : Engine) (fan : Inner) (op : Op) :
    (view db).exec fan op = (view (exec e fan op db).1, (exec e fan op db).2) := by
  rw [Post.exec, refusal_view, exec_outcome e fan op hinv, outcome_view hinv]
  cases Refusals.refusal fan db op <;> rfl

end Transactions

/-- A poll computes its lease deadline inside the 64-bit range; other calls have none to keep. -/
def InTime (call : Call) : Prop :=
  match call with
  | .poll _ options _ now => InRange (now + asMillis options.visibilityTimeout)
  | _ => True

instance decidableInTime : (call : Call) → Decidable (InTime call)
  | .poll _ _ _ now => inferInstanceAs (Decidable (InRange (now + asMillis _)))
  | .commit _ | .archives .. | .beginDraining .. | .consumerSnapshot .. | .snapshot _ =>
    inferInstanceAs (Decidable True)

section Calls

variable {db : Db}

/-- A round of a poll. -/
theorem poll_view (hinv : Inv db) (e : Engine) (fan : Inner) (handle : Consumer) (options : Poll)
    (start : Start) (now : ℤ) (htime : InRange (now + asMillis options.visibilityTimeout)) :
    (view db).poll fan handle options start now =
      (view (pollRound e fan handle options start now db).1,
        (pollRound e fan handle options start now db).2) := by
  have hchecks := pollChecks_settles fan options start
  unfold Post.poll
  cases hrefused : argumentRefusal fan options start with
  | some err =>
    rw [hrefused] at hchecks
    rw [pollRound, hchecks]
  | none =>
    rw [hrefused] at hchecks
    dsimp only
    by_cases hpos : options.maxMessages = 0
    · rw [if_pos hpos] at hchecks ⊢
      rw [pollRound, hchecks]
    · rw [if_neg hpos] at hchecks ⊢
      rw [lookup_boxes]
      cases hrow : db.consumers.lookup handle.id with
      | none =>
        have hgone : claimCheck handle now db = .error (.consumerDeleted handle.name) := by
          rw [claimCheck, claimState, hrow]
          rfl
        rw [pollRound, hchecks]
        dsimp only
        rw [claim, hgone]
        rfl
      | some row =>
        have hid : handle.id = row.id := (AutoTable.lookup_eq_some.mp hrow).2.symm
        have hrow' : db.consumers.lookup row.id = some row := hid ▸ hrow
        rw [pollRound_claimed e hinv hid hrow' hchecks (checkedAdd_inRange htime)]
        dsimp only [Option.map_some]
        rw [← view_claimed hrow']
        rfl

/-- The snapshot of a consumer. -/
theorem snapshotOf_view (db : Db) (now : ℤ) (row : ConsumerRow) :
    (view db).snapshotOf now (boxOf db row) = Effect.snapshotOf db now row := by
  have howed : ((view db).messages.select fun message =>
      (deliveriesOf (view db).shared (boxOf db row).id).any (fun d => d.messageId == message.id) ||
        (boxOf db row).fresh.any fun copy => copy.id == message.id) =
      db.messages.select fun message =>
        (deliveriesOf db row.id).any (fun d => d.messageId == message.id) || awaits row message :=
    Table.select_congr fun message hm => by
      rw [← any_unseen hm row]
      rfl
  have hcount : (boxOf db row).fresh.length = (db.messages.select (awaits row)).length := by
    rw [← unseen_eq]
    rfl
  unfold Post.snapshotOf
  rw [howed, hcount, owes_view]
  rfl

/-- The snapshot of the store. -/
theorem storeSnapshot_view (db : Db) (now : ℤ) :
    (view db).storeSnapshot now = Store.snapshot db now := by
  have howes : (view db).total Post.owes = consumerTotal db outstandingCount := by
    rw [Post.total, view, AutoTable.view_rows, List.map_map]
    exact congrArg List.sum (List.map_congr_left fun row _ => owes_view db row)
  have harchived : (view db).total Post.archived = consumerTotal db archivedCount := by
    rw [Post.total, view, AutoTable.view_rows, List.map_map]
    rfl
  have hsnapshots : (sortBy Mailbox.name (view db).boxes.table.rows).map
      ((view db).snapshotOf now) = snapshotsOf db now := by
    have hsorted : sortBy Mailbox.name (view db).boxes.table.rows =
        (sortBy ConsumerRow.name db.consumers.table.rows).map (boxOf db) := by
      exact (List.map_insertionSort _ _ (boxOf db) db.consumers.table.rows
        fun _ _ _ _ => Iff.rfl).symm
    rw [hsorted, List.map_map]
    exact List.map_congr_left fun row _ => snapshotOf_view db now row
  rw [Post.storeSnapshot, howes, harchived, hsnapshots, storeSnapshot_eq]
  rfl

/-- A drain call. -/
theorem beginDraining_view (hinv : Inv db) (fan : Inner) (handle : Consumer) (now : ℤ) :
    (view db).run fan (.beginDraining handle now) =
      (view (Consumer.beginDraining handle now db).1,
        (Consumer.beginDraining handle now db).2.map .drained) := by
  rw [Post.run, lookup_boxes, Option.isSome_map, beginDraining_eq hinv, ← view_drained hinv,
    closes_view]
  split_ifs <;> rfl

/-- A call on the store is the call on the mailboxes. -/
theorem run_view (hinv : Inv db) (e : Engine) (fan : Inner) (call : Call) (htime : InTime call) :
    (view db).run fan call = (view (call.run e fan db).1, (call.run e fan db).2) := by
  cases call with
  | commit op =>
    rw [Post.run, exec_view hinv e]
    rfl
  | poll handle options start now =>
    rw [Post.run, poll_view hinv e fan handle options start now htime]
    rfl
  | archives handle list => rfl
  | beginDraining handle now => exact beginDraining_view hinv fan handle now
  | consumerSnapshot handle now =>
    rw [Post.run, lookup_boxes, Call.run, snapshot_eq]
    cases db.consumers.lookup handle.id with
    | none => rfl
    | some row =>
      refine Prod.ext rfl ?_
      exact congrArg (fun found => Except.ok (Answer.consumerSnapshot found))
        (snapshotOf_view db now row)
  | snapshot now =>
    rw [Post.run, storeSnapshot_view]
    rfl

/-- Calls made one after the other. -/
theorem answers_view (requests : List Request) (hinv : Inv db)
    (htime : ∀ request ∈ requests, InTime request.call) :
    answers requests db = Post.answers (requests.map Request.asked) (view db) := by
  induction requests generalizing db with
  | nil => rfl
  | cons request requests ih =>
    have hrun := run_view hinv request.e request.fan request.call
      (htime request List.mem_cons_self)
    have hrest := ih (inv_call request.e request.fan request.call hinv)
      fun other hother => htime other (List.mem_cons_of_mem _ hother)
    rw [answers, List.map_cons, Request.asked, Post.answers, hrun]
    exact congrArg (_ :: ·) hrest

end Calls

/-- No run of calls on a fresh store can be told from the same calls on a store that fills a
mailbox for every consumer when it publishes: every answer, with every identifier, body, count,
receipt, deadline and error, is the same. -/
theorem fan_out_on_write (requests : List Request)
    (htime : ∀ request ∈ requests, InTime request.call) :
    answers requests Db.empty = Post.answers (requests.map Request.asked) Post.empty := by
  rw [← view_empty]
  exact answers_view requests inv_empty htime

/-- Two consumers with different filters, a message for one of them, a drain, a second message,
polls of both, and a snapshot. -/
def twoConsumers : List Request :=
  [.commit (.openConsumer "all" .all 0), .commit (.openConsumer "red" (.topic "red") 0),
    .commit (.publishBatch [⟨some "blue", [7], none⟩, ⟨some "red", [8], some [1]⟩] 1),
    .beginDraining ⟨2, "red", .topic "red"⟩ 2,
    .commit (.publishBatch [⟨some "red", [9], none⟩] 3),
    .poll ⟨1, "all", .all⟩ ⟨5, 1000000, 0⟩ ⟨9, 0⟩ 4,
    .poll ⟨2, "red", .topic "red"⟩ ⟨5, 1000000, 0⟩ ⟨9, 0⟩ 4,
    .snapshot 5].map (Request.mk Engine.inOrder Inner.default)

/-- The two stores answer this run alike. -/
theorem fan_out_on_write_two :
    answers twoConsumers Db.empty = Post.answers (twoConsumers.map Request.asked) Post.empty :=
  fan_out_on_write twoConsumers (by decide)

end LiteFan.FanOutOnWrite

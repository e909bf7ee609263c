import LiteFan.FanOutOnWrite
import LiteFan.Forecast
import LiteFan.Owing
import LiteFan.Parallel
import LiteFan.RedriveMoves
import LiteFan.Transition.Potential

/-!
# The books of every consumer balance

What an event reports is entered in the book of each consumer: what it fanned
out to it, what its workers settled, moved to the archives and back, and what a
deletion threw away. Over every run the entries account for exactly what the
snapshots count, whichever workers, handles, engines and clocks took part.
-/

namespace LiteFan.Balance

open LiteFan.Api LiteFan.Time LiteFan.Schema LiteFan.Storage LiteFan.Store LiteFan.Consumer
open LiteFan.System LiteFan.Invariant LiteFan.Effect LiteFan.Step LiteFan.Preservation
open LiteFan.Inbox LiteFan.Outstanding LiteFan.Owing LiteFan.ArchiveMoves LiteFan.RedriveMoves
open LiteFan.Sequential Relational

/-- What one event moves in the inbox and the archives of a consumer, in copies. -/
structure Entry where
  /-- Published while it was active and accepted by its filter. -/
  fannedOut : ℕ
  acked : ℕ
  archived : ℕ
  redriven : ℕ
  purged : ℕ
  /-- Outstanding copies thrown away with the identity. -/
  discarded : ℕ
  /-- Archived copies thrown away with the identity. -/
  discardedArchives : ℕ
  deriving DecidableEq

/-- Nothing moves. -/
def Entry.blank : Entry := ⟨0, 0, 0, 0, 0, 0, 0⟩

/-- What a publish reports as stored. -/
def publishedBy (event : Event) : List Message :=
  match event.op, event.reply with
  | .publishBatch messages now, .ok (.outcomes outcomes) => publishedRows now messages outcomes
  | _, _ => []

/-- The active consumer stored under the identity accepts the message. -/
def acceptedBy (db : Db) (c : ℤ) (message : Message) : Bool :=
  match db.consumers.lookup c with
  | none => false
  | some row => row.drainingAt.isNone && topicMatches row.topicFilter message.topic

/-- What the reply of an event enters in a consumer's book. -/
def entry (c : ℤ) (event : Event) : Entry :=
  match event.op, event.reply with
  | .publishBatch _ _, .ok (.outcomes _) =>
    { Entry.blank with fannedOut := (publishedBy event).countP (acceptedBy event.before c) }
  | .ackBatch handle _, .ok (.batch result) =>
    if handle.id = c then { Entry.blank with acked := result.applied } else Entry.blank
  | .archiveBatch handle _ _ _, .ok (.batch result) =>
    if handle.id = c then { Entry.blank with archived := result.applied } else Entry.blank
  | .redriveBatch handle _ _ _, .ok (.batch result) =>
    if handle.id = c then { Entry.blank with redriven := result.applied } else Entry.blank
  | .purgeArchives handle _, .ok (.purged outcome) =>
    if handle.id = c then { Entry.blank with purged := outcome.deletedArchives } else Entry.blank
  | .deleteConsumer name _, .ok (.deleted outcome) =>
    if (consumerNamed event.before name).map ConsumerRow.id = some c then
      { Entry.blank with
        discarded := outcome.discardedDeliveries
        discardedArchives := outcome.discardedArchives }
    else Entry.blank
  | _, _ => Entry.blank

/-- A column of a consumer's book over a run. -/
def total (column : Entry → ℕ) (c : ℤ) (events : List Event) : ℕ :=
  (events.map fun event => column (entry c event)).sum

/-- The outstanding copies a snapshot of the consumer counts, none once it is gone. -/
def outstandingOf (db : Db) (c : ℤ) : ℕ :=
  match db.consumers.lookup c with
  | none => 0
  | some row => outstandingCount db row

/-- The archived copies a snapshot of the consumer counts, none once it is gone. -/
def archivedOf (db : Db) (c : ℤ) : ℕ :=
  match db.consumers.lookup c with
  | none => 0
  | some row => archivedCount db row

/-- The log entries a prune reports as deleted. -/
def prunedBy (event : Event) : ℕ :=
  match event.reply with
  | .ok (.pruned outcome) => outcome.deletedMessages
  | _ => 0

section Counts

variable {db db' : Db} {row : ConsumerRow} {c : ℤ}

/-- The messages outstanding for an identity. -/
def owedTo (db : Db) (c : ℤ) : List ℤ :=
  match db.consumers.lookup c with
  | none => []
  | some row => owedIds db row

theorem length_owedTo (db : Db) (c : ℤ) : (owedTo db c).length = outstandingOf db c := by
  unfold owedTo outstandingOf
  cases db.consumers.lookup c with
  | none => rfl
  | some row => exact length_owedIds db row

theorem owedTo_nodup (hinv : Inv db) (c : ℤ) : (owedTo db c).Nodup := by
  unfold owedTo
  cases hrow : db.consumers.lookup c with
  | none => exact List.nodup_nil
  | some row =>
    have hid : row.id = c := (AutoTable.lookup_eq_some.mp hrow).2
    exact owedIds_nodup hinv (hid ▸ hrow)

theorem mem_owedTo (hinv : Inv db) {m : ℤ} : m ∈ owedTo db c ↔ Owes db c m := by
  unfold owedTo
  cases hrow : db.consumers.lookup c with
  | none =>
    refine iff_of_false List.not_mem_nil fun howes => ?_
    obtain ⟨row, hlive⟩ := live_of_owes hinv howes
    rw [hrow] at hlive
    cases hlive
  | some row => exact (owes_iff_mem hrow).symm

/-- Whoever is owed the same has as much outstanding. -/
theorem outstandingOf_congr (hinv : Inv db) (hinv' : Inv db')
    (h : ∀ m, Owes db' c m ↔ Owes db c m) : outstandingOf db' c = outstandingOf db c := by
  rw [← length_owedTo, ← length_owedTo]
  refine ((List.perm_ext_iff_of_nodup (owedTo_nodup hinv' c) (owedTo_nodup hinv c)).mpr
    fun m => ?_).length_eq
  rw [mem_owedTo hinv', mem_owedTo hinv, h]

theorem outstandingOf_row (hrow : db.consumers.lookup c = some row) :
    outstandingOf db c = outstandingCount db row := by
  unfold outstandingOf
  rw [hrow]

theorem outstandingOf_none (hrow : db.consumers.lookup c = none) : outstandingOf db c = 0 := by
  unfold outstandingOf
  rw [hrow]

/-- The archives of an identity are counted, also when it is gone and has none. -/
theorem archivedOf_eq (hinv : Inv db) (c : ℤ) : archivedOf db c = (archivesOf db c).length := by
  unfold archivedOf
  cases hrow : db.consumers.lookup c with
  | none =>
    have hnone : archivesOf db c = [] := List.eq_nil_iff_forall_not_mem.mpr fun a ha => by
      obtain ⟨hstored, hc⟩ := mem_archivesOf.mp ha
      exact Identity.no_archives hinv hrow a hstored hc
    rw [hnone]
    rfl
  | some row =>
    have hid : row.id = c := (AutoTable.lookup_eq_some.mp hrow).2
    exact congrArg (fun id => (archivesOf db id).length) hid

end Counts

/-- What is outstanding is delivered or waiting in the log. -/
theorem outstandingOf_eq {db : Db} (hinv : Inv db) (c : ℤ) :
    outstandingOf db c = (deliveriesOf db c).length + (waiting db c).length := by
  unfold outstandingOf
  cases hrow : db.consumers.lookup c with
  | none =>
    rw [(Alike.unused_inbox hinv hrow).1, waiting, hrow]
    rfl
  | some row =>
    have hid : row.id = c := (AutoTable.lookup_eq_some.mp hrow).2
    have hcount := Forecast.outstandingCount_eq db row
    rw [hid] at hcount
    rw [Alike.waiting_row hrow]
    exact hcount

/-- The entries of an event account for what it changes in one consumer's counts. -/
structure Booked (c : ℤ) (entry : Entry) (db db' : Db) : Prop where
  outstanding : outstandingOf db' c + (entry.acked + entry.archived + entry.discarded) =
    outstandingOf db c + (entry.fannedOut + entry.redriven)
  archived : archivedOf db' c + (entry.redriven + entry.purged + entry.discardedArchives) =
    archivedOf db c + entry.archived

section Step

variable {fan : Inner} {db db' : Db} {row : ConsumerRow} {c : ℤ}

/-- Nothing is entered where nothing changes. -/
theorem Booked.unchanged (houtstanding : outstandingOf db' c = outstandingOf db c)
    (harchived : archivedOf db' c = archivedOf db c) : Booked c Entry.blank db db' where
  outstanding := by rw [houtstanding]; rfl
  archived := by rw [harchived]; rfl

/-- Nothing is entered where the same is owed and archived. -/
theorem Booked.same (hinv : Inv db) (hinv' : Inv db') (howes : ∀ m, Owes db' c m ↔ Owes db c m)
    (harchives : archivesOf db' c = archivesOf db c) : Booked c Entry.blank db db' := by
  refine Booked.unchanged (outstandingOf_congr hinv hinv' howes) ?_
  rw [archivedOf_eq hinv, archivedOf_eq hinv', harchives]

/-- Nothing is entered for an inbox a receipt operation does not touch. -/
theorem Booked.untouched (hinv : Inv db) (hinv' : Inv db') (h : Untouched c db db')
    (hlog : db'.messages = db.messages) : Booked c Entry.blank db db' := by
  refine Booked.unchanged ?_ ?_
  · unfold outstandingOf
    rw [h.row]
    cases hrow : db.consumers.lookup c with
    | none => rfl
    | some row =>
      have hid : row.id = c := (AutoTable.lookup_eq_some.mp hrow).2
      simp only [outstandingCount, hid, h.deliveries, hlog]
  · rw [archivedOf_eq hinv, archivedOf_eq hinv', h.archives]

/-- A new identity is owed nothing and has nothing archived. -/
theorem booked_opened (hinv : Inv db) (name : String) (filter : Filter) (now : ℤ)
    (hinv' : Inv (openedDb db name filter now)) :
    Booked c Entry.blank db (openedDb db name filter now) := by
  have hdeliveries : deliveriesOf (openedDb db name filter now) c = deliveriesOf db c := rfl
  have harchives : archivesOf (openedDb db name filter now) c = archivesOf db c := rfl
  refine Booked.unchanged ?_ (by rw [archivedOf_eq hinv, archivedOf_eq hinv', harchives])
  rw [outstandingOf_eq hinv, outstandingOf_eq hinv', hdeliveries]
  by_cases hnew : c = db.consumers.seq + 1
  · have hgone : db.consumers.lookup c = none := Alike.lookup_beyond (by omega)
    have hbefore : waiting db c = [] := by
      unfold waiting
      rw [hgone]
    rw [hbefore, hnew, Alike.waiting_opened]
  · have hrow : (openedDb db name filter now).consumers.lookup c = db.consumers.lookup c := by
      rw [lookup_openedDb, if_neg hnew]
    rw [waiting_congr hrow rfl]

/-- A publish enters what the active consumer accepts. -/
theorem booked_published (hinv : Inv db) (messages : List Publish) (now : ℤ)
    (hinv' : Inv (publishing fan messages now db)) :
    Booked c { Entry.blank with
      fannedOut := (publishedRows now messages (assigned now db messages).outcomes).countP
        (acceptedBy db c) } db (publishing fan messages now db) := by
  have hnew : FanOutOnWrite.newMessages fan messages now db =
      publishedRows now messages (assigned now db messages).outcomes :=
    (FanOutOnWrite.newMessages_eq fan messages now db).trans (assign_rows _ _ _ _).symm
  obtain ⟨-, hconsumers, hdeliveries, harchives, -⟩ := ledgerAt_parts now db messages
  have hrow : (publishing fan messages now db).consumers.lookup c = db.consumers.lookup c :=
    congrArg (fun t => t.lookup c) hconsumers
  have howed : deliveriesOf (publishing fan messages now db) c = deliveriesOf db c :=
    congrArg (fun t => t.select fun d => d.consumerId == c) hdeliveries
  have hkept : archivesOf (publishing fan messages now db) c = archivesOf db c :=
    congrArg (fun t => t.select fun a => a.consumerId == c) harchives
  have hwaiting : (waiting (publishing fan messages now db) c).length = (waiting db c).length +
      (publishedRows now messages (assigned now db messages).outcomes).countP
        (acceptedBy db c) := by
    rw [← hnew]
    cases hlookup : db.consumers.lookup c with
    | none =>
      have hnone : ∀ message ∈ FanOutOnWrite.newMessages fan messages now db,
          ¬acceptedBy db c message = true := by
        intro message _
        unfold acceptedBy
        rw [hlookup]
        exact Bool.false_ne_true
      rw [waiting, waiting, hrow, hlookup, List.countP_eq_zero.mpr hnone]
      rfl
    | some row =>
      have hmem : row ∈ db.consumers := (AutoTable.lookup_eq_some.mp hlookup).1
      have hbox := congrArg Mailboxes.Mailbox.fresh
        (FanOutOnWrite.boxOf_published hinv hmem fan messages now)
      have hcount : ((FanOutOnWrite.newMessages fan messages now db).filter
          (FanOutOnWrite.boxOf db row).accepts).length =
          (FanOutOnWrite.newMessages fan messages now db).countP (acceptedBy db c) := by
        rw [← List.countP_eq_length_filter]
        refine List.countP_congr fun message _ => ?_
        unfold acceptedBy
        rw [hlookup]
        rfl
      have hfresh : unseen (publishing fan messages now db) row = unseen db row ++
          (FanOutOnWrite.newMessages fan messages now db).filter
            (FanOutOnWrite.boxOf db row).accepts := hbox
      rw [Alike.waiting_row hlookup, Alike.waiting_row (hrow.trans hlookup), hfresh,
        List.length_append, hcount]
  refine ⟨?_, ?_⟩
  · rw [outstandingOf_eq hinv, outstandingOf_eq hinv', howed, hwaiting]
    simp only [Entry.blank]
    omega
  · rw [archivedOf_eq hinv, archivedOf_eq hinv', hkept]
    rfl

/-- An acknowledgement enters the deliveries it removes. -/
theorem booked_acked (hinv : Inv db) (receipts : List Receipt)
    (hinv' : Inv (deleteDeliveries db (pushReceiptPredicate c receipts))) :
    Booked c { Entry.blank with
      acked := (db.deliveries.select (pushReceiptPredicate c receipts)).length } db
      (deleteDeliveries db (pushReceiptPredicate c receipts)) := by
  have hwaiting : waiting (deleteDeliveries db (pushReceiptPredicate c receipts)) c =
      waiting db c := waiting_congr rfl rfl
  have hsplit := (deliveriesOf db c).length_eq_length_filter_add
    (pushReceiptPredicate c receipts)
  refine ⟨?_, ?_⟩
  · rw [outstandingOf_eq hinv, outstandingOf_eq hinv', Alike.deliveriesOf_delete, hwaiting,
      Alike.select_named]
    simp only [Entry.blank]
    omega
  · rw [archivedOf_eq hinv, archivedOf_eq hinv']
    rfl

/-- An archive batch enters the deliveries it moves. -/
theorem booked_archived (hinv : Inv db) (receipts : List Receipt) (detail : Option String)
    (now : ℤ) (hinv' : Inv (archivedDb db c receipts now detail)) :
    Booked c { Entry.blank with archived := (archivedLeases db c receipts).length } db
      (archivedDb db c receipts now detail) := by
  have hcounts := (booked_acked hinv receipts
    (inv_acked hinv (pushReceiptPredicate c receipts))).outstanding
  have hmoved : (archivedLeases db c receipts).length =
      (db.deliveries.select (pushReceiptPredicate c receipts)).length := by
    rw [archivedLeases, List.length_map]
  have hsame : outstandingOf (archivedDb db c receipts now detail) c =
      outstandingOf (deleteDeliveries db (pushReceiptPredicate c receipts)) c := rfl
  have hadded := congrArg List.length (Alike.archivesOf_archivedDb (c := c) db receipts now detail)
  refine ⟨?_, ?_⟩
  · rw [hsame, hmoved]
    simp only [Entry.blank] at hcounts ⊢
    omega
  · rw [archivedOf_eq hinv, archivedOf_eq hinv', hadded]
    simp [Entry.blank, AutoTable.length_freshKeys]

/-- A redrive enters the archives it moves back. -/
theorem booked_redriven (hinv : Inv db) (archiveIds : List ℤ) (visibleAt : ℤ)
    (hinv' : Inv (redrivenDb db c archiveIds visibleAt)) :
    Booked c { Entry.blank with
      redriven := (db.archives.select (archiveNamed c archiveIds)).length } db
      (redrivenDb db c archiveIds visibleAt) := by
  have hrows : (redrivenDb db c archiveIds visibleAt).consumers = db.consumers := rfl
  cases hrow : db.consumers.lookup c with
  | none =>
    have hnothing : (db.archives.select (archiveNamed c archiveIds)) = [] := by
      rw [Alike.select_archiveNamed, (Alike.unused_inbox hinv hrow).2]
      rfl
    rw [hnothing]
    refine Booked.unchanged ?_ ?_
    · rw [outstandingOf_none hrow, outstandingOf_none (hrows ▸ hrow)]
    · unfold archivedOf
      rw [hrows, hrow]
  | some row =>
    have hid : row.id = c := (AutoTable.lookup_eq_some.mp hrow).2
    subst hid
    have howed : outstandingCount (redrivenDb db row.id archiveIds visibleAt) row =
        outstandingCount db row + (db.archives.select (archiveNamed row.id archiveIds)).length :=
      outstanding_redriven hinv archiveIds visibleAt
    have hkept : archivedCount (redrivenDb db row.id archiveIds visibleAt) row +
        (db.archives.select (archiveNamed row.id archiveIds)).length = archivedCount db row :=
      archived_redriven archiveIds visibleAt
    refine ⟨?_, ?_⟩
    · rw [outstandingOf_row hrow, outstandingOf_row (hrows ▸ hrow), howed]
      simp only [Entry.blank]
      omega
    · unfold archivedOf
      rw [hrows, hrow]
      simp only [Entry.blank]
      omega

/-- A purge enters the archives it deletes. -/
theorem booked_purged (hinv : Inv db) (purge : PurgeArchives)
    (hinv' : Inv (deleteArchives db (purgedNamed db c purge))) :
    Booked c { Entry.blank with
      purged := (db.archives.select (purgedNamed db c purge)).length } db
      (deleteArchives db (purgedNamed db c purge)) := by
  have hsplit := (archivesOf db c).length_eq_length_filter_add (purgedNamed db c purge)
  refine ⟨rfl, ?_⟩
  rw [archivedOf_eq hinv, archivedOf_eq hinv', Alike.archivesOf_delete, Alike.select_purgedNamed]
  simp only [Entry.blank]
  omega

/-- A deletion enters all that is left. -/
theorem booked_deleted (hrow : db.consumers.lookup row.id = some row) :
    Booked row.id { Entry.blank with
      discarded := outstandingCount db row
      discardedArchives := archivedCount db row } db (deletedDb db row) := by
  have hgone : (deletedDb db row).consumers.lookup row.id = none := by
    refine AutoTable.lookup_eq_none.mpr fun other hother hid => ?_
    have hkept := (AutoTable.mem_deleteWhere.mp hother).2
    rw [hid, beq_self_eq_true] at hkept
    cases hkept
  refine ⟨?_, ?_⟩
  · rw [outstandingOf_none hgone, outstandingOf_row hrow]
    simp only [Entry.blank]
    omega
  · unfold archivedOf
    rw [hgone, hrow]
    simp only [Entry.blank]
    omega

/-- A receipt operation enters what it applied in the book of its handle, and in no other. -/
theorem Booked.through {op : Op} {reply : Except Error Reply} {own : Entry} {handle : Consumer}
    (heffect : Effect fan db op db' reply) (hinv : Inv db)
    (hthrough : System.through op = some handle)
    (hown : Booked handle.id own db db') :
    Booked c (if handle.id = c then own else Entry.blank) db db' := by
  obtain ⟨hlog, -, hothers⟩ := untouched_effect heffect hinv hthrough
  by_cases hc : handle.id = c
  · rw [if_pos hc, ← hc]
    exact hown
  · rw [if_neg hc]
    exact Booked.untouched hinv (inv_effect heffect hinv) (hothers c (Ne.symm hc)) hlog

/-- A batch that only moves deadlines or cursors enters nothing. -/
theorem Booked.silent {op : Op} {reply : Except Error Reply} {handle : Consumer}
    (heffect : Effect fan db op db' reply) (hinv : Inv db)
    (hthrough : System.through op = some handle) (hown : Booked handle.id Entry.blank db db') :
    Booked c Entry.blank db db' := by
  have hbooked := Booked.through (c := c) heffect hinv hthrough hown
  rwa [ite_self] at hbooked

/-- The entries of an event account for everything it changes in any consumer's counts. -/
theorem booked_effect {op : Op} {reply : Except Error Reply}
    (heffect : Effect fan db op db' reply) (hinv : Inv db) (c : ℤ) :
    Booked c (entry c ⟨fan, op, db, db', reply⟩) db db' := by
  have hinv' := inv_effect heffect hinv
  have hwhole := heffect
  cases heffect with
  | @rejected op err h =>
    have hblank : entry c ⟨fan, op, db, db, .error err⟩ = Entry.blank := by
      unfold entry
      cases op <;> rfl
    rw [hblank]
    exact Booked.unchanged rfl rfl
  | @idle op reply h =>
    have hblank : entry c ⟨fan, op, db, db, .ok reply⟩ = Entry.blank := by
      unfold Idle at h
      cases op <;> simp at h <;> simp [entry, h, Entry.blank, BatchResult.default]
    rw [hblank]
    exact Booked.unchanged rfl rfl
  | created _ _ => exact booked_opened hinv _ _ _ hinv'
  | reopened _ _ _ => exact Booked.unchanged rfl rfl
  | published _ => exact booked_published hinv _ _ hinv'
  | @granted handle poll now leaseMs deadline row _ hid hrow _ =>
    refine Booked.silent hwhole hinv rfl (Booked.same hinv hinv' (fun m => ?_) rfl)
    exact owes_claimed hinv hrow
  | acked _ _ => exact Booked.through hwhole hinv rfl (booked_acked hinv _ hinv')
  | nacked _ _ _ =>
    exact Booked.silent hwhole hinv rfl (Booked.same hinv hinv' (fun m => owes_touched) rfl)
  | extended _ _ _ _ _ =>
    exact Booked.silent hwhole hinv rfl (Booked.same hinv hinv' (fun m => owes_touched) rfl)
  | archived _ _ => exact Booked.through hwhole hinv rfl (booked_archived hinv _ _ _ hinv')
  | redriven _ _ _ => exact Booked.through hwhole hinv rfl (booked_redriven hinv _ _ hinv')
  | purged => exact Booked.through hwhole hinv rfl (booked_purged hinv _ hinv')
  | @drained handle now =>
    refine Booked.silent hwhole hinv rfl (Booked.unchanged ?_ ?_)
    · rw [outstandingOf_eq hinv, outstandingOf_eq hinv', Alike.waiting_drained hinv]
      rfl
    · rw [archivedOf_eq hinv, archivedOf_eq hinv']
      rfl
  | @deleted name mode row hrow _ =>
    have hstored := AutoTable.lookup_key (consumerNamed_some hrow).1
    have hnamed : (consumerNamed db name).map ConsumerRow.id = some c ↔ row.id = c := by
      rw [hrow, Option.map_some, Option.some_inj]
    change Booked c (if (consumerNamed db name).map ConsumerRow.id = some c then _ else _) _ _
    by_cases hc : row.id = c
    · rw [if_pos (hnamed.mpr hc), ← hc]
      exact booked_deleted hstored
    · rw [if_neg fun h => hc (hnamed.mp h)]
      exact Booked.untouched hinv hinv' (untouched_deletedDb hc) rfl
  | @pruned prune =>
    have hkept : Kept c db (prunedDb db prune) := kept_pruned prune
    exact Booked.same hinv hinv' (fun m => owes_kept hkept) hkept.untouched.archives

end Step

section Log

variable {fan : Inner} {db db' : Db} {op : Op} {reply : Except Error Reply}

/-- The log grows by what a publish reports and shrinks by what a prune reports. -/
theorem log_effect (heffect : Effect fan db op db' reply) :
    db'.messages.table.rows.length + prunedBy ⟨fan, op, db, db', reply⟩ =
      db.messages.table.rows.length + (publishedBy ⟨fan, op, db, db', reply⟩).length := by
  cases heffect with
  | @rejected op err h =>
    have hnone : publishedBy ⟨fan, op, db, db, .error err⟩ = [] := by
      unfold publishedBy
      cases op <;> rfl
    rw [hnone]
    rfl
  | idle h =>
    unfold Idle at h
    cases op <;> simp at h <;> simp [publishedBy, prunedBy, h]
  | @published messages now _ =>
    have hrows := congrArg List.length
      (batchDb_rows now (now + fan.idempotencyWindowMs) db messages)
    rw [List.length_append] at hrows
    exact hrows
  | @pruned prune =>
    have hsplit := db.messages.table.rows.length_eq_length_filter_add
      fun message => decide (message.id ∈ prunedIds db prune)
    exact (Nat.add_comm _ _).trans hsplit.symm
  | created _ _ => rfl
  | reopened _ _ _ => rfl
  | granted _ _ _ _ => rfl
  | acked _ _ => rfl
  | nacked _ _ _ => rfl
  | extended _ _ _ _ _ => rfl
  | archived _ _ => rfl
  | redriven _ _ _ => rfl
  | purged => rfl
  | drained => rfl
  | deleted _ _ => rfl

end Log

/-- The books of a run against what the tables hold at its end. -/
structure Balanced (events : List Event) (db : Db) : Prop where
  /-- Every copy fanned out to a consumer or redriven is outstanding, acknowledged, archived or
  discarded with the identity, and nothing else is. -/
  outstanding : ∀ c, outstandingOf db c + total Entry.acked c events +
      total Entry.archived c events + total Entry.discarded c events =
    total Entry.fannedOut c events + total Entry.redriven c events
  /-- Every copy archived is still archived, redriven, purged or discarded with the identity. -/
  archived : ∀ c, archivedOf db c + total Entry.redriven c events + total Entry.purged c events +
      total Entry.discardedArchives c events = total Entry.archived c events
  /-- The log holds what was published and not pruned. -/
  retained : db.messages.table.rows.length + (events.map prunedBy).sum =
    (events.map fun event => (publishedBy event).length).sum

/-- Every event is booked for every consumer. -/
theorem booked_event (c : ℤ) (event : Event) (hv : system.valid event) (hinv : Inv event.before) :
    Booked c (entry c event) event.before event.after :=
  booked_effect (effect_of_valid hv hinv) hinv c

/-- What the snapshots count is what the replies of the whole history add up to. -/
theorem books_balance {events : List Event} {db : Db} (hrun : Run events db) :
    Balanced events db where
  outstanding c := by
    have hbalance := hrun.balance (fun db => outstandingOf db c)
      (fun event => (entry c event).fannedOut + (entry c event).redriven)
      (fun event => (entry c event).acked + (entry c event).archived + (entry c event).discarded)
      inv_empty inv_event fun event hv hinv => (booked_event c event hv hinv).outstanding
    have hempty : outstandingOf Db.empty c = 0 := rfl
    simp only [List.sum_map_add] at hbalance
    simp only [total]
    omega
  archived c := by
    have hbalance := hrun.balance (fun db => archivedOf db c)
      (fun event => (entry c event).archived)
      (fun event => (entry c event).redriven + (entry c event).purged +
        (entry c event).discardedArchives)
      inv_empty inv_event fun event hv hinv => (booked_event c event hv hinv).archived
    have hempty : archivedOf Db.empty c = 0 := rfl
    simp only [List.sum_map_add] at hbalance
    simp only [total]
    omega
  retained := by
    have hbalance := hrun.balance (fun db => db.messages.table.rows.length)
      (fun event => (publishedBy event).length) prunedBy inv_empty inv_event
      fun event hv hinv => log_effect (effect_of_valid hv hinv)
    have hempty : Db.empty.messages.table.rows.length = 0 := rfl
    omega

/-- Two consumers and two messages: one copy archived and redriven, one acknowledged, and an
identity deleted with its copy. -/
def bookedOps : List Op :=
  [.openConsumer "jobs" .all 0, .openConsumer "mail" (.topic "mail") 0,
    .publishBatch [⟨some "mail", [7], none⟩, ⟨none, [8], none⟩] 0,
    .claim firstHandle ⟨2, 1000000, 0⟩ 0, .archiveBatch firstHandle [⟨1, 1, 1⟩] none 5,
    .ackBatch firstHandle [⟨1, 2, 1⟩], .redriveBatch firstHandle [1] .immediately 6,
    .deleteConsumer "mail" .discardAll]

set_option maxRecDepth 10000 in
/-- The redriven copy is all that is left to the first consumer. -/
theorem books_balance_deleted :
    outstandingOf (outcomeDb Engine.inOrder Inner.default bookedOps Db.empty) 1 = 1 ∧
      Balanced (trace Engine.inOrder Inner.default bookedOps Db.empty)
        (outcomeDb Engine.inOrder Inner.default bookedOps Db.empty) :=
  ⟨rfl, books_balance (trace_run Engine.inOrder Inner.default bookedOps Db.empty)⟩

end LiteFan.Balance

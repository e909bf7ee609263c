import LiteFan.ArchiveMoves
import LiteFan.DeliveryCounts
import LiteFan.PublishOrder

/-!
# Redriving as the inverse move

A redrive takes each named archive of the consumer out and puts one delivery
for its message back, at generation and count zero. The pair is free and the
message is still stored, so it never fails. What a later claim returns is the
row that was published, and an identifier that left the archive stays unused.
-/

namespace LiteFan.RedriveMoves

open LiteFan.Api LiteFan.Time LiteFan.Schema LiteFan.Storage LiteFan.Store LiteFan.Consumer
open LiteFan.System LiteFan.Invariant LiteFan.Effect LiteFan.Step LiteFan.Preservation
open LiteFan.Lifecycle LiteFan.Lineage LiteFan.Returned LiteFan.Sequential LiteFan.DeliveryCounts
open LiteFan.PublishOrder Relational

/-- The distinct identifiers of a list that name an archive of the consumer. -/
def matching (db : Db) (c : ℤ) (archiveIds : List ℤ) : List ℤ :=
  archiveIds.dedup.filter fun i =>
    db.archives.table.rows.any fun a => a.consumerId == c && decide (a.id = i)

section Matching

variable {db : Db} {c : ℤ} {archiveIds : List ℤ}

theorem mem_matching {i : ℤ} : i ∈ matching db c archiveIds ↔
    i ∈ archiveIds ∧ ∃ a ∈ db.archives, a.consumerId = c ∧ a.id = i := by
  simp only [matching, List.mem_filter, List.mem_dedup, List.any_eq_true,
    Bool.and_eq_true, beq_iff_eq,
    decide_eq_true_eq]
  exact Iff.rfl

/-- There are as many distinct matching identifiers as archives they name. -/
theorem length_matching (db : Db) (c : ℤ) (archiveIds : List ℤ) :
    (matching db c archiveIds).length =
      (db.archives.select (archiveNamed c archiveIds)).length := by
  have hnamed : ((db.archives.select (archiveNamed c archiveIds)).map ArchiveRow.id).Nodup := by
    refine List.pairwise_map.mpr ((Table.select_sorted db.archives.table _).imp ?_)
    intro a b hlt
    exact hlt.ne
  have hmatching : (matching db c archiveIds).Nodup := archiveIds.nodup_dedup.filter _
  have hperm : (matching db c archiveIds).Perm
      ((db.archives.select (archiveNamed c archiveIds)).map ArchiveRow.id) := by
    refine (List.perm_ext_iff_of_nodup hmatching hnamed).mpr fun i => ?_
    simp only [mem_matching, List.mem_map, AutoTable.mem_select, archiveNamed_iff]
    constructor
    · intro h
      obtain ⟨hlisted, a, ha, hc, rfl⟩ := h
      exact ⟨a, ⟨ha, hc, hlisted⟩, rfl⟩
    · intro h
      obtain ⟨a, ⟨ha, hc, hlisted⟩, rfl⟩ := h
      exact ⟨hlisted, a, ha, hc, rfl⟩
  rw [hperm.length_eq, List.length_map]

/-- What a list of identifiers names depends on its members only. -/
theorem archiveNamed_perm {archiveIds' : List ℤ} (h : archiveIds'.Perm archiveIds) :
    archiveNamed c archiveIds' = archiveNamed c archiveIds := by
  funext a
  rw [Bool.eq_iff_iff, archiveNamed_iff, archiveNamed_iff, h.mem_iff]

end Matching

section Counts

variable {db : Db}

/-- A consumer's outstanding work rises by the deliveries restored. -/
theorem outstanding_redriven (hinv : Inv db) {row : ConsumerRow} (archiveIds : List ℤ)
    (visibleAt : ℤ) : outstandingCount (redrivenDb db row.id archiveIds visibleAt) row =
      outstandingCount db row + (db.archives.select (archiveNamed row.id archiveIds)).length := by
  have hperm : (deliveriesOf (redrivenDb db row.id archiveIds visibleAt) row.id).Perm
      (redrivenRows db row.id archiveIds visibleAt ++ deliveriesOf db row.id) := by
    have hrestored : (redrivenRows db row.id archiveIds visibleAt).Nodup :=
      (redrivenRows_nodup hinv).of_map _
    have hfree : List.Disjoint (redrivenRows db row.id archiveIds visibleAt)
        (deliveriesOf db row.id) :=
      fun d hnew hold => redrivenRows_free hinv d hnew d (Table.mem_select.mp hold).1 rfl
    refine (List.perm_ext_iff_of_nodup (Table.select_nodup _ _)
      (List.nodup_append'.mpr ⟨hrestored, Table.select_nodup _ _, hfree⟩)).mpr fun d => ?_
    rw [List.mem_append, Table.mem_select, mem_redrivenDb hinv, Table.mem_select]
    constructor
    · intro h
      rcases h.1 with hnew | hold
      · exact Or.inl hnew
      · exact Or.inr ⟨hold, h.2⟩
    · intro h
      rcases h with hnew | hold
      · obtain ⟨a, -, -, rfl⟩ := mem_redrivenRows.mp hnew
        exact ⟨Or.inl hnew, beq_self_eq_true row.id⟩
      · exact ⟨Or.inr hold.1, hold.2⟩
  have hlength := hperm.length_eq
  rw [List.length_append, redrivenRows, List.length_map] at hlength
  have hwaiting : (redrivenDb db row.id archiveIds visibleAt).messages = db.messages := rfl
  rw [outstandingCount, outstandingCount, hwaiting]
  omega

/-- Its archived work falls by the archives taken out. -/
theorem archived_redriven {row : ConsumerRow} (archiveIds : List ℤ) (visibleAt : ℤ) :
    archivedCount (redrivenDb db row.id archiveIds visibleAt) row +
      (db.archives.select (archiveNamed row.id archiveIds)).length = archivedCount db row := by
  have hor : (fun a : ArchiveRow => archiveNamed row.id archiveIds a || a.consumerId == row.id) =
      fun a => a.consumerId == row.id := by
    funext a
    cases hn : archiveNamed row.id archiveIds a with
    | false => rfl
    | true =>
      have hc := (archiveNamed_iff.mp hn).1
      simp [hc]
  have hperm := (db.archives.select_or_perm (archiveNamed row.id archiveIds)
    fun a => a.consumerId == row.id).length_eq
  rw [hor, List.length_append] at hperm
  have hleft : archivesOf (redrivenDb db row.id archiveIds visibleAt) row.id =
      (db.archives.deleteWhere (archiveNamed row.id archiveIds)).select
        fun a => a.consumerId == row.id := rfl
  have hall : archivesOf db row.id = db.archives.select fun a => a.consumerId == row.id := rfl
  rw [archivedCount, archivedCount, hleft, hall]
  omega

end Counts

/-- What a redrive leaves and reports. -/
structure Restored (handle : Consumer) (archiveIds : List ℤ) (visibleAt : ℤ) (db db' : Db)
    (result : BatchResult) : Prop where
  /-- Applied are the distinct identifiers that name an archive of the consumer. -/
  applied : result = ⟨(matching db handle.id archiveIds).length,
    archiveIds.length - (matching db handle.id archiveIds).length⟩
  /-- Exactly the named archives of the consumer are gone. -/
  removed : ∀ a, a ∈ db'.archives ↔
    a ∈ db.archives ∧ ¬(a.consumerId = handle.id ∧ a.id ∈ archiveIds)
  /-- Exactly one delivery is added for the message of each, visible after the delay. -/
  added : ∀ d, d ∈ db'.deliveries ↔ d ∈ db.deliveries ∨
    ∃ a ∈ db.archives, a.consumerId = handle.id ∧ a.id ∈ archiveIds ∧
      d = ⟨handle.id, a.messageId, visibleAt, 0, 0⟩
  /-- The pairs restored had no delivery. -/
  free : ∀ a ∈ db.archives, a.consumerId = handle.id → a.id ∈ archiveIds →
    deliveryOf db handle.id a.messageId = none
  /-- Outstanding work rises and archived work falls by what was applied. -/
  counts : ∀ row, db.consumers.lookup handle.id = some row →
    outstandingCount db' row = outstandingCount db row + result.applied ∧
    archivedCount db' row + result.applied = archivedCount db row
  /-- Archives and deliveries of other consumers are as before. -/
  others : ∀ c ≠ handle.id, archivesOf db' c = archivesOf db c ∧
    ∀ d, d.consumerId = c → (d ∈ db'.deliveries ↔ d ∈ db.deliveries)
  /-- The log, the ledger, the cursors and the identifiers handed out are as before. -/
  frame : db'.messages = db.messages ∧ db'.idempotency = db.idempotency ∧
    db'.consumers = db.consumers ∧ db'.archives.seq = db.archives.seq

section Moves

variable {handle : Consumer} {archiveIds : List ℤ} {db : Db}

/-- The move a redrive within the limit makes. -/
theorem restored_redrivenDb (hinv : Inv db) (visibleAt : ℤ) :
    Restored handle archiveIds visibleAt db (redrivenDb db handle.id archiveIds visibleAt)
      (batchResult archiveIds.length
        (db.archives.select (archiveNamed handle.id archiveIds)).length) := by
  have harchives : ∀ a, a ∈ (redrivenDb db handle.id archiveIds visibleAt).archives ↔
      a ∈ db.archives ∧ archiveNamed handle.id archiveIds a = false :=
    fun a => AutoTable.mem_deleteWhere
  constructor
  · rw [length_matching]
    rfl
  · intro a
    rw [harchives, ← archiveNamed_iff, Bool.not_eq_true]
  · intro d
    rw [mem_redrivenDb hinv, mem_redrivenRows]
    constructor
    · intro h
      rcases h with ⟨a, ha, hnamed, rfl⟩ | hd
      · obtain ⟨hc, hlisted⟩ := archiveNamed_iff.mp hnamed
        exact Or.inr ⟨a, ha, hc, hlisted, rfl⟩
      · exact Or.inl hd
    · intro h
      rcases h with hd | ⟨a, ha, hc, hlisted, rfl⟩
      · exact Or.inr hd
      · exact Or.inl ⟨a, ha, archiveNamed_iff.mpr ⟨hc, hlisted⟩, rfl⟩
  · intro a ha hc _
    exact deliveryOf_none.mpr fun d hd hdc hdm =>
      hinv.disjoint a ha d hd (hc.trans hdc.symm) hdm.symm
  · intro row hrow
    have hid : row.id = handle.id := (AutoTable.lookup_eq_some.mp hrow).2
    have hout : outstandingCount (redrivenDb db row.id archiveIds visibleAt) row =
        outstandingCount db row + (db.archives.select (archiveNamed row.id archiveIds)).length :=
      outstanding_redriven hinv archiveIds visibleAt
    have harc : archivedCount (redrivenDb db row.id archiveIds visibleAt) row +
        (db.archives.select (archiveNamed row.id archiveIds)).length = archivedCount db row :=
      archived_redriven archiveIds visibleAt
    rw [hid] at hout harc
    exact ⟨hout, harc⟩
  · intro c hc
    constructor
    · refine Table.select_eq_of_mem fun a => ?_
      constructor
      · intro h
        exact ⟨((harchives a).mp h.1).1, h.2⟩
      · intro h
        have hac : a.consumerId = c := by simpa using h.2
        refine ⟨(harchives a).mpr ⟨h.1, eq_false_of_ne_true fun hnamed => hc ?_⟩, h.2⟩
        exact hac.symm.trans (archiveNamed_iff.mp hnamed).1
    · intro d hd
      rw [mem_redrivenDb hinv]
      refine ⟨fun h => ?_, Or.inr⟩
      rcases h with hnew | hold
      · obtain ⟨a, -, -, rfl⟩ := mem_redrivenRows.mp hnew
        exact absurd hd.symm hc
      · exact hold
  · exact ⟨rfl, rfl, rfl, rfl⟩

end Moves

section Later

variable {event : Event} {events past future : List Event} {db : Db} {c m : ℤ}

/-- An archive that an event took out leaves its identifier unused. -/
theorem archive_gone (hv : system.valid event) (hinv : Inv event.before) {a : ArchiveRow}
    (ha : a ∈ event.before.archives) (hgone : a ∉ event.after.archives)
    (hrun : Transition.Run system event.after future db) : ∀ b ∈ db.archives, b.id ≠ a.id := by
  intro b hb hid
  have hle : a.id ≤ event.before.archives.seq := event.before.archives.key_le a ha
  have hseq := archives_seq_mono hv hinv
  have hafter : b ∈ event.after.archives :=
    (archive_run hrun (inv_event event hv hinv)).2 b hb (by omega)
  rcases archive_step hv hinv hafter with hold | ⟨hnew, -⟩
  · exact hgone (AutoTable.eq_of_key hold ha hid ▸ hafter)
  · omega

/-- No poll result of the cycle counts until one returns the message. -/
theorem attempts_unreturned (hredrove : redrove c m event = true)
    (h : ∀ e ∈ future, returns c m e = false) : attempts c m (past ++ event :: future) = 0 := by
  induction future using List.reverseRecOn with
  | nil => exact attempts_redrove past hredrove
  | append_singleton future e ih =>
    have hpast := ih fun e' he' => h e' (List.mem_append_left _ he')
    have hsplit : past ++ event :: (future ++ [e]) = (past ++ event :: future) ++ [e] := by simp
    rw [hsplit]
    cases hagain : redrove c m e with
    | true => exact attempts_redrove _ hagain
    | false =>
      rw [attempts_snoc _ hagain, hpast, h e (List.mem_append_right _ List.mem_cons_self)]
      rfl

/-- Some publish of the history stored the message for a position of its batch, with the
position's topic and body. -/
def Originally (events : List Event) (message : Message) : Prop :=
  ∃ e ∈ events, ∃ (messages : List Publish) (now : ℤ) (outcomes : List PublishOutcome),
    e.op = .publishBatch messages now ∧ e.reply = .ok (.outcomes outcomes) ∧
      ∃ (i : ℕ) (published : Publish), messages[i]? = some published ∧
        outcomes[i]? = some (.published message.id) ∧ message.topic = published.topic ∧
        message.body = published.body ∧ message.publishedAtMs = now

/-- A row of a published batch stands for one of its positions. -/
theorem position_of_row {publishedAt : ℤ} {messages : List Publish} {outcomes : List PublishOutcome}
    {message : Message} (h : message ∈ publishedRows publishedAt messages outcomes) :
    ∃ (i : ℕ) (published : Publish), messages[i]? = some published ∧
      outcomes[i]? = some (.published message.id) ∧ message.topic = published.topic ∧
      message.body = published.body ∧ message.publishedAtMs = publishedAt := by
  obtain ⟨⟨published, outcome⟩, hposition, hrow⟩ := List.mem_filterMap.mp h
  obtain ⟨i, hi⟩ := List.mem_iff_getElem?.mp hposition
  obtain ⟨hmessage, houtcome⟩ := List.getElem?_zip_eq_some.mp hi
  cases outcome with
  | duplicate id => cases hrow
  | published id =>
    cases hrow
    exact ⟨i, published, hmessage, houtcome, rfl, rfl, rfl⟩

/-- Every stored message is a row some publish stored. -/
theorem originally_run (hrun : Run events db) :
    ∀ message ∈ db.messages, Originally events message := by
  induction hrun with
  | nil => exact fun message h => absurd h (AutoTable.not_mem_empty message)
  | @snoc events e hsteps hv ih =>
    intro message h
    have hinv : Inv e.before := inv_run hsteps
    by_cases hold : message ∈ e.before.messages
    · obtain ⟨e', he', horiginally⟩ := ih message hold
      exact ⟨e', List.mem_append_left _ he', horiginally⟩
    · have hid := (stored_step hv hinv h).resolve_left hold
      unfold publishedIds at hid
      split at hid
      · rename_i outcomes hreply
        obtain ⟨messages, now, hop, -, hrows, -⟩ := published_step hv hinv hreply
        have hmem : message ∈ e.after.messages.table.rows := h
        rw [hrows] at hmem
        have hrow := (List.mem_append.mp hmem).resolve_left hold
        exact ⟨e, List.mem_append_right _ List.mem_cons_self, messages, now, outcomes, hop, hreply,
          position_of_row hrow⟩
      · exact absurd hid List.not_mem_nil

/-- Redriving in a run and in the state it leads to. -/
structure Exact (events : List Event) (db : Db) : Prop where
  /-- A redrive within the limit with a deadline in range commits and is an exact move, the
  same for every arrangement of its list and whatever order removed rows come back in. -/
  redrive : ∀ (fan : Inner) (handle : Consumer) (archiveIds : List ℤ) (retry : Retry)
    (now visibleAt : ℤ), archiveIds.length ≤ fan.maxBatchSize →
    addDuration now retry.delay = .ok visibleAt →
    visibleAt = now + asMillis retry.delay ∧
      ∃ db' result, Restored handle archiveIds visibleAt db db' result ∧
        ∀ (e : Engine) (archiveIds' : List ℤ), archiveIds'.Perm archiveIds →
          redriveBatch e fan handle archiveIds' retry now db = .ok (db', result)
  /-- The first poll result that returns a redriven message counts one and carries the topic
  and body it was published with. -/
  returned : ∀ c m past event between later future,
    events = past ++ event :: (between ++ later :: future) → Redrives event c m →
    (∀ e ∈ between, returns c m e = false) →
    ∀ delivery ∈ Returned.returned c later, delivery.message.id = m →
      delivery.deliveryCount = 1 ∧ Originally past delivery.message
  /-- An identifier redriven or purged names no archive of any later state. -/
  gone : ∀ past event between future later, events = past ++ event :: (between ++ future) →
    Transition.Run system event.after between later →
    ∀ a ∈ event.before.archives, a ∉ event.after.archives → ∀ b ∈ later.archives, b.id ≠ a.id

/-- In every run redriving is the exact inverse of archiving. -/
theorem redrive_restores (hrun : Run events db) : Exact events db where
  redrive fan handle archiveIds retry now visibleAt hle hvisible := by
    have hinv := inv_run hrun
    refine ⟨addDuration_ok hvisible, _, _, restored_redrivenDb hinv visibleAt,
      fun e archiveIds' hperm => ?_⟩
    have hlength := hperm.length_eq
    have hnamed := archiveNamed_perm (c := handle.id) hperm
    have hdb : redrivenDb db handle.id archiveIds' visibleAt =
        redrivenDb db handle.id archiveIds visibleAt := by
      unfold redrivenDb redrivenRows
      rw [hnamed]
    by_cases hpos : 0 < archiveIds.length
    · rw [redriveBatch_eq e hinv (by omega) (by omega) hvisible, hdb, hnamed, hlength]
    · obtain rfl : archiveIds = [] := List.length_eq_zero_iff.mp (by omega)
      obtain rfl : archiveIds' = [] := hperm.eq_nil
      have hnone : ∀ a ∈ db.archives, archiveNamed handle.id [] a = false := by
        intro a _
        simp [archiveNamed]
      have hselect : db.archives.select (archiveNamed handle.id []) = [] :=
        List.filter_eq_nil_iff.mpr fun a ha => by rw [hnone a ha]; exact Bool.false_ne_true
      have hkeep : redrivenDb db handle.id [] visibleAt = db := by
        unfold redrivenDb deleteArchives redrivenRows
        rw [AutoTable.deleteWhere_eq_self hnone, hselect]
        rfl
      rw [hkeep, hselect]
      rfl
  returned c m past event between later future hsplit hredrives hbetween delivery hmem hm := by
    have hevents : events = (past ++ event :: between) ++ later :: future := by simp [hsplit]
    subst hm
    rw [hevents] at hrun
    obtain ⟨hbefore, hv, -⟩ := hrun.around
    have hinv : Inv later.before := inv_run hbefore
    have hzero : attempts c delivery.message.id (past ++ event :: between) = 0 :=
      attempts_unreturned (redrove_iff.mpr hredrives) hbetween
    obtain ⟨row, hleases⟩ := returned_step hv hinv hmem
    constructor
    · rcases hleases.before with ⟨-, -, hone⟩ | ⟨v, g, n, hleased, hmore⟩
      · exact hone
      · have hcount : n = attempts c delivery.message.id (past ++ event :: between) :=
          (counted_run hbefore).delivery _ (copyOf_leased.mp hleased)
        omega
    · obtain ⟨hpast, hvEvent, hafter⟩ := hbefore.around
      -- the message was already stored when the archive was redriven
      obtain ⟨-, -, -, -, -, -, -, a, ha, -, ham, -⟩ := hredrives
      obtain ⟨-, message, -, hmessage, -⟩ := (inv_run hpast).archive_refers a ha
      obtain ⟨hlogged, hid⟩ := AutoTable.lookup_eq_some.mp hmessage
      have hsince : Transition.Run system event.before (event :: between) later.before :=
        (Transition.Run.single hvEvent).append hafter
      have hle : delivery.message.id ≤ event.before.messages.seq := by
        rw [← ham, ← hid]
        exact event.before.messages.key_le message hlogged
      exact originally_run hpast _ (message_run hsince (inv_run hpast) hleases.stored hle)
  gone past event between future later hsplit hbetween a ha hgone := by
    subst hsplit
    obtain ⟨hpast, hv, -⟩ := hrun.around
    exact archive_gone hv (inv_run hpast) ha hgone hbetween

set_option maxRecDepth 10000 in
/-- A redriven message is returned with count one and the body it was published with. -/
theorem redrive_restores_polled :
    ∃ delivery : Delivery, delivery.deliveryCount = 1 ∧ delivery.message.id = 1 ∧
      Originally (trace Engine.inOrder Inner.default
        (cycledOps.take 6) Db.empty) delivery.message := by
  have hexact := redrive_restores (trace_run Engine.inOrder Inner.default cycledOps Db.empty)
  obtain ⟨hone, horiginally⟩ := hexact.returned 1 1
    (trace Engine.inOrder Inner.default (cycledOps.take 6) Db.empty) _ [] _ _ rfl
    ⟨firstHandle, [1], .immediately, 0, rfl, rfl, ⟨_, rfl⟩, ⟨1, 1, 1, 0, 2, 3, none⟩,
      ((AutoTable.lookup_eq_some (k := 1)).mp rfl).1, rfl, rfl, List.mem_cons_self⟩
    (fun e he => absurd he List.not_mem_nil)
    ⟨⟨1, none, [7], 0⟩, 1, ⟨1, 1, 1⟩⟩ List.mem_cons_self rfl
  exact ⟨_, hone, rfl, horiginally⟩

end Later

end LiteFan.RedriveMoves

import LiteFan.Effect.Pages
import LiteFan.Lineage

/-!
# Archive pagination

A traversal reads pages one after the other, each beyond the last archive shown
before it, while other transactions commit in between. Identifiers are assigned
upwards and a row never comes back, so a row that outlives the traversal stands
on exactly one page, and the pages never go back.
-/

namespace LiteFan.Pagination

open LiteFan.Api LiteFan.Time LiteFan.Schema LiteFan.Storage LiteFan.Store LiteFan.Consumer
open LiteFan.System LiteFan.Invariant LiteFan.Effect LiteFan.Step LiteFan.Preservation
open LiteFan.Lifecycle LiteFan.Lineage Relational

/-- A page as it was shown, with the database it was read from. -/
structure Read where
  store : Db
  shown : List ArchivedDelivery

/-- A traversal of one consumer's archives from a start, its pages, and the databases of
its first and its last read: pages of any positive size until an empty one, each beyond
the last archive shown before it, with any events committing in between. -/
inductive Traversal (self : Consumer) : Option ℤ → Db → List Read → Db → Prop
  /-- The empty page ends the traversal. -/
  | done {fan : Inner} {after : Option ℤ} {size : ℕ} {db : Db} (hsize : 0 < size)
      (hpage : archives fan self ⟨after, size⟩ db = .ok []) : Traversal self after db [] db
  /-- A page, what commits until the next read, and the rest of the traversal. -/
  | page {fan : Inner} {after : Option ℤ} {size : ℕ} {db next stop : Db}
      {shown : List ArchivedDelivery} {last : ArchivedDelivery} {events : List Event}
      {rest : List Read} (hsize : 0 < size)
      (hpage : archives fan self ⟨after, size⟩ db = .ok shown)
      (hlast : shown.getLast? = some last) (hevents : Transition.Run system db events next)
      (hrest : Traversal self (some last.id) next rest stop) :
      Traversal self after db (⟨db, shown⟩ :: rest) stop

/-- All archives a traversal shows, in the order shown. -/
def listed (reads : List Read) : List ArchivedDelivery := reads.flatMap Read.shown

section Page

variable {db : Db} {self : Consumer} {list : ListArchives} {shown : List ArchivedDelivery}

/-- The identifiers on a page are those of its rows. -/
theorem page_ids (hinv : Inv db) (c : ℤ) (list : ListArchives) :
    ((pageRows db c list).filterMap (archiveView db)).map ArchivedDelivery.id =
      (pageRows db c list).map ArchiveRow.id := by
  have hstored : ∀ a ∈ pageRows db c list, a ∈ db.archives := fun a ha =>
    (mem_archivesAfter.mp (List.mem_of_mem_take ha)).1
  generalize pageRows db c list = rows at hstored
  induction rows with
  | nil => rfl
  | cons a rows ih =>
    obtain ⟨-, message, -, hmessage, -⟩ := hinv.archive_refers a (hstored a List.mem_cons_self)
    have hview : archiveView db a =
        some ⟨a.id, message, a.deliveryCount.toNat, a.archivedAt, a.detail⟩ := by
      rw [archiveView, hmessage, Option.map_some]
    rw [List.filterMap_cons_some hview, List.map_cons, List.map_cons,
      ih fun b hb => hstored b (List.mem_cons_of_mem _ hb)]

/-- A page shows increasing identifiers beyond its start. -/
theorem page_sorted (hinv : Inv db) (c : ℤ) (list : ListArchives) :
    (((pageRows db c list).filterMap (archiveView db)).map ArchivedDelivery.id).Pairwise
      (· < ·) := by
  rw [page_ids hinv]
  exact List.pairwise_map.mpr ((archivesAfter_sorted db c _).sublist (List.take_sublist _ _))

/-- A page that shows nothing had no row to show. -/
theorem page_empty (hinv : Inv db) {c : ℤ} {list : ListArchives} (hsize : 0 < list.maxArchives)
    (h : (pageRows db c list).filterMap (archiveView db) = []) :
    ∀ a ∈ db.archives, a.consumerId = c → ¬list.after.getD 0 < a.id := by
  intro a ha hc hbeyond
  have hids := page_ids hinv c list
  rw [h, List.map_nil] at hids
  have hnone : pageRows db c list = [] := List.map_eq_nil_iff.mp hids.symm
  rcases List.take_eq_nil_iff.mp hnone with hzero | hrows
  · omega
  · have hmem := mem_archivesAfter.mpr ⟨ha, hc, hbeyond⟩
    rw [hrows] at hmem
    exact absurd hmem List.not_mem_nil

/-- A row of the consumer beyond the start is on the page exactly when it does not come
after the last archive shown. -/
theorem mem_pageRows_iff (hinv : Inv db) {c : ℤ} {list : ListArchives} {last : ArchivedDelivery}
    (hlast : ((pageRows db c list).filterMap (archiveView db)).getLast? = some last)
    {a : ArchiveRow}
    (ha : a ∈ db.archives) (hc : a.consumerId = c) (hbeyond : list.after.getD 0 < a.id) :
    a ∈ pageRows db c list ↔ a.id ≤ last.id := by
  have hids : ((pageRows db c list).map ArchiveRow.id).getLast? = some last.id := by
    rw [← page_ids hinv, List.getLast?_map, hlast, Option.map_some]
  rw [List.getLast?_map] at hids
  obtain ⟨row, hrow, hid⟩ := Option.map_eq_some_iff.mp hids
  rw [← hid]
  exact mem_take_iff_le_last (archivesAfter_sorted db c _) hrow
    (mem_archivesAfter.mpr ⟨ha, hc, hbeyond⟩)

/-- In a list with increasing identifiers an identifier picks out its one entry. -/
theorem filter_id_eq {shown : List ArchivedDelivery} {view : ArchivedDelivery}
    (hsorted : (shown.map ArchivedDelivery.id).Pairwise (· < ·)) (hmem : view ∈ shown) :
    shown.filter (fun entry => entry.id == view.id) = [view] := by
  obtain ⟨front, back, rfl⟩ := List.append_of_mem hmem
  rw [List.map_append, List.map_cons, List.pairwise_append, List.pairwise_cons] at hsorted
  obtain ⟨-, ⟨hback, -⟩, hfront⟩ := hsorted
  have hbefore : front.filter (fun entry => entry.id == view.id) = [] := by
    refine List.filter_eq_nil_iff.mpr fun entry hentry hsame => ?_
    have hlt := hfront entry.id (List.mem_map_of_mem hentry) view.id List.mem_cons_self
    have hid : entry.id = view.id := by simpa using hsame
    omega
  have hafter : back.filter (fun entry => entry.id == view.id) = [] := by
    refine List.filter_eq_nil_iff.mpr fun entry hentry hsame => ?_
    have hlt := hback entry.id (List.mem_map_of_mem hentry)
    have hid : entry.id = view.id := by simpa using hsame
    omega
  rw [List.filter_append, hbefore, List.nil_append, List.filter_cons_of_pos (by simp), hafter]

end Page

section Traversals

variable {self : Consumer} {after : Option ℤ} {start stop : Db} {reads : List Read}

/-- The events of a traversal are a run. -/
theorem Traversal.run (h : Traversal self after start reads stop) :
    ∃ events, Transition.Run system start events stop := by
  induction h with
  | done _ _ => exact ⟨[], .nil⟩
  | page _ _ _ hevents _ ih =>
    obtain ⟨events, hrest⟩ := ih
    exact ⟨_, hevents.append hrest⟩

/-- What a traversal shows increases, and lies beyond its start. -/
theorem traversal_increasing (h : Traversal self after start reads stop) (hinv : Inv start) :
    ((listed reads).map ArchivedDelivery.id).Pairwise (· < ·) ∧
      ∀ entry ∈ listed reads, after.getD 0 < entry.id := by
  induction h with
  | done _ _ => exact ⟨List.Pairwise.nil, fun entry h => absurd h List.not_mem_nil⟩
  | @page fan after size db next stop shown last events rest hsize hpage hlast hevents hrest ih =>
    obtain ⟨hsorted, hbeyond⟩ := ih (hevents.invariant hinv inv_event)
    have hshown := archives_ok hinv hpage
    have hpageSorted : (shown.map ArchivedDelivery.id).Pairwise (· < ·) := by
      rw [hshown]
      exact page_sorted hinv _ _
    have hstart : ∀ entry ∈ shown, after.getD 0 < entry.id := by
      intro entry hentry
      rw [hshown] at hentry
      obtain ⟨a, -, -, hlt, hid, -⟩ := mem_page hinv hentry
      rw [hid]
      exact hlt
    have hend : ∀ entry ∈ shown, entry.id ≤ last.id := by
      intro entry hentry
      obtain ⟨front, rfl⟩ := List.getLast?_eq_some_iff.mp hlast
      rcases List.mem_append.mp hentry with hfront | hback
      · rw [List.map_append, List.pairwise_append] at hpageSorted
        exact (hpageSorted.2.2 entry.id (List.mem_map_of_mem hfront) last.id (by simp)).le
      · rw [List.mem_singleton.mp hback]
    have hlisted : listed (⟨db, shown⟩ :: rest) = shown ++ listed rest := rfl
    rw [hlisted, List.map_append]
    constructor
    · refine List.pairwise_append.mpr ⟨hpageSorted, hsorted, fun x hx y hy => ?_⟩
      obtain ⟨entry, hentry, rfl⟩ := List.mem_map.mp hx
      obtain ⟨later, hlater, rfl⟩ := List.mem_map.mp hy
      exact (hend entry hentry).trans_lt (hbeyond later hlater)
    · intro entry hentry
      rcases List.mem_append.mp hentry with hnow | hlater
      · exact hstart entry hnow
      · have hlast' := hstart last (List.mem_of_getLast? hlast)
        have hlt : last.id < entry.id := hbeyond entry hlater
        omega

/-- Every archive shown is a row of the consumer in the database read, with its own
message, detail and count. -/
theorem traversal_shows (h : Traversal self after start reads stop) (hinv : Inv start) :
    ∀ read ∈ reads, ∀ entry ∈ read.shown, ∃ a ∈ read.store.archives, a.consumerId = self.id ∧
      entry.id = a.id ∧ read.store.messages.lookup a.messageId = some entry.message ∧
      (entry.deliveryCount : ℤ) = a.deliveryCount ∧ entry.archivedAtMs = a.archivedAt ∧
      entry.detail = a.detail := by
  induction h with
  | done _ _ => exact fun read hread => absurd hread List.not_mem_nil
  | page hsize hpage hlast hevents hrest ih =>
    intro read hread entry hentry
    rcases List.mem_cons.mp hread with rfl | hlater
    · dsimp only at hentry ⊢
      rw [archives_ok hinv hpage] at hentry
      obtain ⟨a, ha, hc, -, hrest⟩ := mem_page hinv hentry
      exact ⟨a, ha, hc, hrest⟩
    · exact ih (hevents.invariant hinv inv_event) read hlater entry hentry

/-- A row beyond the start that outlives the traversal is shown once, as it is stored. -/
theorem traversal_once (h : Traversal self after start reads stop) (hinv : Inv start)
    {a : ArchiveRow}
    {message : Message} (hstart : a ∈ start.archives) (hstop : a ∈ stop.archives)
    (hc : a.consumerId = self.id) (hbeyond : after.getD 0 < a.id)
    (hmessage : start.messages.lookup a.messageId = some message) :
    (listed reads).filter (fun entry => entry.id == a.id) =
      [⟨a.id, message, a.deliveryCount.toNat, a.archivedAt, a.detail⟩] := by
  induction h with
  | done hsize hpage =>
    have hempty := archives_ok hinv hpage
    exact absurd hbeyond (page_empty hinv hsize hempty.symm a hstart hc)
  | @page fan after size db next stop shown last events rest hsize hpage hlast hevents hrest ih =>
    have hinv' : Inv next := hevents.invariant hinv inv_event
    have hshown := archives_ok hinv hpage
    have hsorted : (shown.map ArchivedDelivery.id).Pairwise (· < ·) := by
      rw [hshown]
      exact page_sorted hinv _ _
    have hlater := (traversal_increasing hrest hinv').2
    have hlisted : listed (⟨db, shown⟩ :: rest) = shown ++ listed rest := rfl
    have hlast' := hlast
    rw [hshown] at hlast'
    rw [hlisted, List.filter_append]
    by_cases hon : a.id ≤ last.id
    · -- the row is on this page, and later pages lie beyond it
      have hrow := (mem_pageRows_iff hinv hlast' hstart hc hbeyond).mpr hon
      have hview : (⟨a.id, message, a.deliveryCount.toNat, a.archivedAt, a.detail⟩ :
          ArchivedDelivery) ∈ shown := by
        rw [hshown]
        exact List.mem_filterMap.mpr ⟨a, hrow, by rw [archiveView, hmessage, Option.map_some]⟩
      have hnone : (listed rest).filter (fun entry => entry.id == a.id) = [] := by
        refine List.filter_eq_nil_iff.mpr fun entry hentry hsame => ?_
        have hlt : last.id < entry.id := hlater entry hentry
        have hid : entry.id = a.id := by simpa using hsame
        omega
      rw [hnone, List.append_nil]
      exact filter_id_eq hsorted hview
    · -- the row comes later, and it is still stored at the next read
      have hnone : shown.filter (fun entry => entry.id == a.id) = [] := by
        refine List.filter_eq_nil_iff.mpr fun entry hentry hsame => hon ?_
        have hid : entry.id = a.id := by simpa using hsame
        have hentry' := hentry
        rw [hshown] at hentry'
        obtain ⟨b, hb, hbc, -, hbid, -⟩ := mem_page hinv hentry'
        have hrow : b ∈ pageRows db self.id ⟨after, size⟩ := by
          obtain ⟨b', hb', hview⟩ := List.mem_filterMap.mp hentry'
          obtain ⟨message', -, rfl⟩ := Option.map_eq_some_iff.mp hview
          have hstored := (mem_archivesAfter.mp (List.mem_of_mem_take hb')).1
          rw [AutoTable.eq_of_key hb hstored hbid.symm]
          exact hb'
        have hsame' : b = a := AutoTable.eq_of_key hb hstart (hbid.symm.trans hid)
        exact (mem_pageRows_iff hinv hlast' hstart hc hbeyond).mp (hsame' ▸ hrow)
      obtain ⟨later, hrunRest⟩ := hrest.run
      have hseq : a.id ≤ next.archives.seq :=
        (db.archives.key_le a hstart).trans (archive_run hevents hinv).1
      have hnext : a ∈ next.archives := (archive_run hrunRest hinv').2 a hstop hseq
      have hnextMessage : next.messages.lookup a.messageId = some message := by
        obtain ⟨-, message', -, hlookup, -⟩ := hinv'.archive_refers a hnext
        obtain ⟨hstored, hid⟩ := AutoTable.lookup_eq_some.mp hmessage
        obtain ⟨hstored', hid'⟩ := AutoTable.lookup_eq_some.mp hlookup
        have hle : message'.id ≤ db.messages.seq := by
          rw [hid', ← hid]
          exact db.messages.key_le message hstored
        have hold := message_run hevents hinv hstored' hle
        rw [AutoTable.eq_of_key hstored hold (hid.trans hid'.symm)]
        exact hlookup
      have hbeyond' : (some last.id).getD 0 < a.id := not_le.mp hon
      rw [hnone, List.nil_append]
      exact ih hinv' hnext hstop hbeyond' hnextMessage

end Traversals

/-- A traversal of one consumer's archives in a state some run leads to. -/
structure Exact (handle : Consumer) (start : Db) (reads : List Read) (stop : Db) : Prop where
  /-- The identifiers listed increase strictly. -/
  increasing : ((listed reads).map ArchivedDelivery.id).Pairwise (· < ·)
  /-- A row of the consumer stored from before the first page until after the last is listed
  once, with its own message, detail and count. -/
  once : ∀ a ∈ start.archives, a ∈ stop.archives → a.consumerId = handle.id →
    ∃ message, start.messages.lookup a.messageId = some message ∧
      (listed reads).filter (fun entry => entry.id == a.id) =
        [⟨a.id, message, a.deliveryCount.toNat, a.archivedAt, a.detail⟩]
  /-- Every archive listed is a row of the consumer in the database its page was read from. -/
  own : ∀ read ∈ reads, ∀ entry ∈ read.shown, ∃ a ∈ read.store.archives,
    a.consumerId = handle.id ∧ entry.id = a.id ∧
      read.store.messages.lookup a.messageId = some entry.message ∧
      (entry.deliveryCount : ℤ) = a.deliveryCount ∧ entry.archivedAtMs = a.archivedAt ∧
      entry.detail = a.detail

/-- Whatever commits between its pages, a traversal from the beginning lists every row
that outlives it once, in increasing order, and no archive of another consumer. -/
theorem pagination_exact {self : Consumer} {start stop : Db} {reads : List Read}
    (hreachable : Reachable start) (h : Traversal self none start reads stop) :
    Exact self start reads stop where
  increasing := (traversal_increasing h (inv_reachable hreachable)).1
  once a hstart hstop hc := by
    have hinv := inv_reachable hreachable
    obtain ⟨-, message, -, hmessage, -⟩ := hinv.archive_refers a hstart
    have hpos : (none : Option ℤ).getD 0 < a.id := start.archives.key_pos a hstart
    exact ⟨message, hmessage, traversal_once h hinv hstart hstop hc hpos hmessage⟩
  own := traversal_shows h (inv_reachable hreachable)

/-- Three messages are published, polled and archived. -/
def archivedOps : List Op :=
  [.openConsumer "jobs" .all 0,
    .publishBatch [⟨none, [7], none⟩, ⟨none, [8], none⟩, ⟨none, [9], none⟩] 0,
    .claim firstHandle ⟨3, 1000000, 0⟩ 0,
    .archiveBatch firstHandle [⟨1, 1, 1⟩, ⟨1, 2, 1⟩, ⟨1, 3, 1⟩] none 0]

/-- The first archive is redriven and archived again between two pages. -/
def rearchivedOps : List Op :=
  [.redriveBatch firstHandle [1] .immediately 0, .claim firstHandle pollOne 0,
    .archiveBatch firstHandle [⟨1, 1, 1⟩] (some "again") 0]

set_option maxRecDepth 10000 in
/-- A traversal in two pages lists the third archive once although the first comes back
under a new identifier. -/
theorem pagination_exact_rearchived :
    ∃ reads stop message, Traversal firstHandle none
        (outcomeDb Engine.inOrder Inner.default archivedOps Db.empty) reads stop ∧
      (listed reads).filter (fun entry => entry.id == 3) = [⟨3, message, 1, 0, none⟩] := by
  have hreachable := reachable_outcome Engine.inOrder Inner.default archivedOps
  have hbetween := trace_run Engine.inOrder Inner.default rearchivedOps
    (outcomeDb Engine.inOrder Inner.default archivedOps Db.empty)
  have hfirst : archives Inner.default firstHandle ⟨none, 2⟩
      (outcomeDb Engine.inOrder Inner.default archivedOps Db.empty) =
        .ok [⟨1, ⟨1, none, [7], 0⟩, 1, 0, none⟩, ⟨2, ⟨2, none, [8], 0⟩, 1, 0, none⟩] := rfl
  have hsecond : archives Inner.default firstHandle ⟨some 2, 2⟩
      (outcomeDb Engine.inOrder Inner.default rearchivedOps
        (outcomeDb Engine.inOrder Inner.default archivedOps Db.empty)) =
        .ok [⟨3, ⟨3, none, [9], 0⟩, 1, 0, none⟩, ⟨4, ⟨1, none, [7], 0⟩, 1, 0, some "again"⟩] := rfl
  have hthird : archives Inner.default firstHandle ⟨some 4, 2⟩
      (outcomeDb Engine.inOrder Inner.default rearchivedOps
        (outcomeDb Engine.inOrder Inner.default archivedOps Db.empty)) = .ok [] := rfl
  have htraversal : Traversal firstHandle none
      (outcomeDb Engine.inOrder Inner.default archivedOps Db.empty) _ _ :=
    .page Nat.two_pos hfirst rfl hbetween
      (.page Nat.two_pos hsecond rfl .nil (.done Nat.two_pos hthird))
  have hexact := pagination_exact hreachable htraversal
  have hstart : (outcomeDb Engine.inOrder Inner.default archivedOps Db.empty).archives.lookup 3 =
      some ⟨3, 1, 3, 0, 1, 1, none⟩ := rfl
  have hstop : (outcomeDb Engine.inOrder Inner.default rearchivedOps
      (outcomeDb Engine.inOrder Inner.default archivedOps Db.empty)).archives.lookup 3 =
        some ⟨3, 1, 3, 0, 1, 1, none⟩ := rfl
  obtain ⟨message, -, honce⟩ := hexact.once _ (AutoTable.lookup_eq_some.mp hstart).1
    (AutoTable.lookup_eq_some.mp hstop).1 rfl
  exact ⟨_, _, message, htraversal, honce⟩

end LiteFan.Pagination

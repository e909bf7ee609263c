import LiteFan.Effect.Polls
import LiteFan.Preservation

/-!
# What one claim selects

A claim run alone leases the longest visible deliveries first and fills the rest
of its batch from the log, both in a fixed order. What it passes over in the log
it has leased or does not match, and it returns what it leased in message order.
-/

namespace LiteFan.Selection

open LiteFan.Api LiteFan.Time LiteFan.Schema LiteFan.Storage LiteFan.Store LiteFan.Consumer
open LiteFan.System LiteFan.Invariant LiteFan.Effect LiteFan.Preservation Relational

/-- The visible deliveries of a consumer, in the order a claim takes them. -/
structure Visible (db : Db) (c now : ℤ) (visible : List DeliveryRow) : Prop where
  mem : ∀ d, d ∈ visible ↔ d ∈ db.deliveries ∧ d.consumerId = c ∧ d.visibleAt ≤ now
  /-- By deadline, then by message. -/
  order : visible.Pairwise fun a b =>
    a.visibleAt < b.visibleAt ∨ (a.visibleAt = b.visibleAt ∧ a.messageId < b.messageId)

/-- The matching unscanned messages of a consumer, in the order a claim takes them. -/
structure Unscanned (db : Db) (row : ConsumerRow) (waiting : List Message) : Prop where
  mem : ∀ message, message ∈ waiting ↔ message ∈ db.messages ∧ row.scanCursor < message.id ∧
    message.id ≤ row.drainCursor.getD (highWater db) ∧
    topicMatches row.topicFilter message.topic = true
  order : waiting.Pairwise fun a b => a.id < b.id

/-- A claim of at most `limit` leases until the deadline: the retries and the fresh messages
it selects, the state it leaves and what it returns. -/
structure Selects (db db' : Db) (row : ConsumerRow) (deadline : ℤ) (room : ℕ)
    (retries : List DeliveryRow) (waiting : List Message) (deliveries : List Delivery) : Prop where
  /-- Retries get their next generation and count, fresh messages their first; all are leased
  until the deadline, and no other delivery changes. -/
  leased : ∀ d, d ∈ db'.deliveries ↔ (d ∈ db.deliveries ∧ d ∉ retries) ∨
    (∃ b ∈ retries, d = ⟨row.id, b.messageId, deadline, b.generation + 1, b.deliveryCount + 1⟩) ∨
    ∃ message ∈ waiting.take room, d = ⟨row.id, message.id, deadline, 1, 1⟩
  /-- The fresh messages had no delivery. -/
  fresh : ∀ message ∈ waiting, ∀ d ∈ db.deliveries, d.consumerId = row.id → d.messageId ≠ message.id
  /-- Only the cursor of the consumer's row moves, and never back. -/
  cursor : ∃ scanCursor, db'.consumers.lookup row.id = some { row with scanCursor := scanCursor } ∧
    row.scanCursor ≤ scanCursor ∧
    (∀ message ∈ db.messages, topicMatches row.topicFilter message.topic = true →
      row.scanCursor < message.id → message.id ≤ scanCursor →
        ∃ d ∈ db'.deliveries, d.consumerId = row.id ∧ d.messageId = message.id) ∧
    (0 < room → row.scanCursor < row.drainCursor.getD (highWater db) → waiting.length < room →
      scanCursor = row.drainCursor.getD (highWater db))
  /-- The returned deliveries are exactly these leases. -/
  returned : ∀ delivery, delivery ∈ deliveries ↔
    (∃ b ∈ retries, ∃ message, db.messages.lookup b.messageId = some message ∧
      delivery = ⟨message, (b.deliveryCount + 1).toNat, ⟨row.id, b.messageId, b.generation + 1⟩⟩) ∨
    ∃ message ∈ waiting.take room, delivery = ⟨message, 1, ⟨row.id, message.id, 1⟩⟩
  /-- They are returned in message order. -/
  order : deliveries.Pairwise fun a b => a.message.id < b.message.id
  /-- The log, the ledger, the archive and the other consumers are as before. -/
  frame : db'.messages = db.messages ∧ db'.idempotency = db.idempotency ∧
    db'.archives = db.archives ∧ ∀ c ≠ row.id, db'.consumers.lookup c = db.consumers.lookup c

section Claim

variable {db : Db} {row : ConsumerRow} {now deadline : ℤ} {limit : ℕ}

/-- The order the retry statement sorts by lists every visible delivery. -/
theorem visible_sorted (db : Db) (c now : ℤ) :
    Visible db c now (sortBy (fun d : DeliveryRow => (toLex (d.visibleAt, d.messageId) : ℤ ×ₗ ℤ))
      (db.deliveries.select fun d => d.consumerId == c && decide (d.visibleAt ≤ now))) where
  mem d := by
    rw [mem_sortBy, Table.mem_select, Bool.and_eq_true, beq_iff_eq, decide_eq_true_eq]
  order := by
    have hn : ((db.deliveries.select fun d => d.consumerId == c && decide (d.visibleAt ≤ now)).map
        fun d : DeliveryRow => (toLex (d.visibleAt, d.messageId) : ℤ ×ₗ ℤ)).Nodup := by
      refine List.Nodup.map_on ?_ (db.deliveries.select_nodup _)
      intro a ha b hb hsame
      obtain ⟨ha, hca⟩ := Table.mem_select.mp ha
      obtain ⟨hb, hcb⟩ := Table.mem_select.mp hb
      rw [Bool.and_eq_true, beq_iff_eq] at hca hcb
      simp only [toLex_inj, Prod.mk.injEq] at hsame
      exact Table.eq_of_key ha hb (key_eq_iff.mpr ⟨hca.1.trans hcb.1.symm, hsame.2⟩)
    refine (sortBy_strict hn).imp fun hlt => ?_
    simpa only [Prod.Lex.toLex_lt_toLex] using hlt

/-- What a claim selects of the visible deliveries and the log. -/
theorem claimed_selects (hinv : Inv db) (hrow : db.consumers.lookup row.id = some row) :
    Selects db (claimedDb db row now deadline limit) row deadline
      (limit - (selectVisible db row.id now limit).length) (selectVisible db row.id now limit)
      (unseen db row) (claimedDeliveries db row now deadline limit) where
  leased d := by
    rw [mem_claimedDb hinv hrow]
    constructor
    · intro h
      rcases h with ⟨message, hmessage, rfl⟩ | hkept | ⟨b, hb, rfl⟩
      · exact Or.inr (Or.inr ⟨message, hmessage, rfl⟩)
      · exact Or.inl hkept
      · have hc : b.consumerId = row.id := (mem_selectVisible hb).2.1
        exact Or.inr (Or.inl ⟨b, hb, by rw [← hc]; rfl⟩)
    · intro h
      rcases h with hkept | ⟨b, hb, rfl⟩ | ⟨message, hmessage, rfl⟩
      · exact Or.inr (Or.inl hkept)
      · have hc : b.consumerId = row.id := (mem_selectVisible hb).2.1
        exact Or.inr (Or.inr ⟨b, hb, by rw [← hc]; rfl⟩)
      · exact Or.inl ⟨message, hmessage, rfl⟩
  fresh message hmessage d hd hc hm := by
    have hrefers := hinv.delivery_refers d hd
    rw [hc] at hrefers
    have hle := hrefers.le_cursor hrow
    have hlt := (mem_unseen.mp hmessage).2.1
    omega
  cursor := by
    refine ⟨cursorAfter db row now limit, lookup_claimedDb_self hrow,
      (cursorAfter_bounds _ _ _ _).1, ?_, ?_⟩
    · intro message hmessage hmatches hbeyond hpassed
      have hlimit : message.id ≤ scanLimit db row := by
        rcases (cursorAfter_bounds db row now limit).2 with hsame | hle
        · omega
        · omega
      have hunseen : message ∈ unseen db row := mem_unseen.mpr ⟨hmessage, hbeyond, hlimit, hmatches⟩
      have hfresh := (mem_freshMessages_iff hunseen).mpr hpassed
      exact ⟨firstLease row.id deadline message.id,
        (mem_claimedDb hinv hrow).mpr (Or.inl ⟨message, hfresh, rfl⟩), rfl, rfl⟩
    · intro hroom hrange hshort
      have hscan : remaining db row.id now limit > 0 ∧ row.scanCursor < scanLimit db row :=
        ⟨hroom, hrange⟩
      have hlength : ((freshMessages db row now limit).map Message.id).length <
          remaining db row.id now limit := by
        have hunseen : (unseen db row).length < remaining db row.id now limit := hshort
        rw [List.length_map, freshMessages, List.length_take]
        omega
      rw [cursorAfter, if_pos hscan, nextCursor, if_pos hlength]
      rfl
  returned delivery := mem_claimedDeliveries
  order := claimedDeliveries_sorted hinv hrow now deadline limit
  frame := ⟨rfl, rfl, rfl, fun c hc => lookup_claimedDb_other hc⟩

/-- In every reachable state a claim run alone on a live consumer, with a deadline in range,
selects the visible deliveries that are due longest and then unscanned messages in order. -/
theorem claim_selects {self : Consumer} {leaseMs : ℤ} (hreachable : Reachable db)
    (hrow : db.consumers.lookup self.id = some row)
    (hdeadline : checkedAdd now leaseMs = .ok deadline)
    (hlimit : (limit : ℤ) ≤ i64Max) :
    ∃ db' found visible waiting, (∀ e : Engine, claim e self limit leaseMs now db =
      (db', .ok found)) ∧
      Visible db self.id now visible ∧ Unscanned db row waiting ∧
      Selects db db' row (now + leaseMs) (limit - (visible.take limit).length) (visible.take limit)
        waiting found.deliveries := by
  have hinv := inv_reachable hreachable
  have hid : self.id = row.id := (AutoTable.lookup_eq_some.mp hrow).2.symm
  rw [hid] at hrow
  have hsum : now + leaseMs = deadline := (checkedAdd_ok hdeadline).symm
  have hrow' : (claimedDb db row now deadline limit).consumers.lookup self.id =
      some (withCursor (cursorAfter db row now limit) row) := by
    rw [hid]
    exact lookup_claimedDb_self hrow
  obtain ⟨found, hfound, hdeliveries⟩ := claimReread_deliveries hrow' now
    ⟨claimedDeliveries db row now deadline limit, row.drainingAt.isSome⟩
  refine ⟨claimedDb db row now deadline limit, found, _, unseen db row, fun e => ?_,
    visible_sorted db self.id now, ⟨fun message => mem_unseen, unseen_sorted db row⟩, ?_⟩
  · rw [claim_whole e hinv hid hrow hdeadline hlimit, hfound]
  · rw [hsum, hdeliveries, hid]
    exact claimed_selects hinv hrow

/-- Three messages are published, two taken, and one is given back. -/
def mixedOps : List Op :=
  [.openConsumer "jobs" .all 0,
    .publishBatch [⟨none, [7], none⟩, ⟨none, [8], none⟩, ⟨none, [9], none⟩] 0,
    .claim firstHandle ⟨2, 1000000, 0⟩ 0, .nackBatch firstHandle [⟨1, 2, 1⟩] .immediately 0]

set_option maxRecDepth 10000 in
/-- A claim for two leases the one given back and then the one never taken. -/
theorem claim_selects_mixed :
    ∃ db' found, (∀ e : Engine, claim e firstHandle 2 5 0
      (outcomeDb Engine.inOrder Inner.default mixedOps Db.empty) = (db', .ok found)) ∧
      found.deliveries.Pairwise fun a b => a.message.id < b.message.id := by
  have hfits : ((2 : ℕ) : ℤ) ≤ i64Max := by decide
  have hrow : (outcomeDb Engine.inOrder Inner.default mixedOps Db.empty).consumers.lookup
      firstHandle.id = some ⟨1, "jobs", none, 0, none, 2, none⟩ := rfl
  have hdeadline : checkedAdd 0 5 = .ok 5 := rfl
  obtain ⟨db', found, visible, waiting, hclaim, -, -, hselects⟩ := claim_selects
    (reachable_outcome Engine.inOrder Inner.default mixedOps) hrow hdeadline hfits
  exact ⟨db', found, hclaim, hselects.order⟩

end Claim

end LiteFan.Selection

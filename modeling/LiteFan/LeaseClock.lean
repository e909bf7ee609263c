import LiteFan.Owing
import LiteFan.Shortcut
import LiteFan.Transition.Labelled

/-!
# Leases by the clock at their commit

A claim reads the clock, checks without a lock, and then waits for the writer
lock while the clock goes on and others commit. Its leases end a visibility
timeout after the reading, so the wait is taken out of them: they are in force
at the commit only when the wait was shorter than the timeout.
-/

namespace LiteFan.LeaseClock

open LiteFan.Api LiteFan.Time LiteFan.Schema LiteFan.Storage LiteFan.Store LiteFan.Consumer
open LiteFan.System LiteFan.Invariant LiteFan.Effect LiteFan.Step LiteFan.Preservation
open LiteFan.Owing LiteFan.Shortcut Relational

/-- A claim of a poll between its clock reading and its commit. -/
structure Claiming where
  fan : Inner
  handle : Consumer
  options : Poll
  leaseMs : ℤ
  /-- The clock reading. -/
  now : ℕ
  /-- The read-only check has found work. -/
  checked : Bool
  /-- The arguments of the poll have passed. -/
  lease : pollLease fan options = .ok (some leaseMs)

/-- The writer transaction of a claim. -/
def Claiming.commit (claim : Claiming) (e : Engine) (db : Db) : Db × Except Error Granted :=
  claimCommit e claim.handle claim.options.maxMessages claim.leaseMs claim.now db

/-- The database, the clock in milliseconds, and the claims on their way to the lock. -/
structure World where
  db : Db
  clock : ℕ
  claims : List Claiming

/-- A new store at some time. -/
def World.initial (clock : ℕ) : World := ⟨Db.empty, clock, []⟩

/-- What can happen next. -/
inductive Action : Type 1 where
  /-- Time passes. -/
  | pass (ms : ℕ)
  | readClock (fan : Inner) (handle : Consumer) (options : Poll)
  /-- A claim takes its read-only check. -/
  | check (i : ℕ)
  /-- A claim obtains the writer lock and commits. -/
  | lock (i : ℕ) (e : Engine)
  /-- Another transaction commits. -/
  | other (e : Engine) (fan : Inner) (op : Op)

/-- The transaction of a claim, which goes through a reading of the clock. -/
def isClaim : Op → Bool
  | .claim .. => true
  | _ => false

/-- One step, if it can happen. -/
def step (w : World) : Action → Option World
  | .pass ms => some { w with clock := w.clock + ms }
  | .readClock fan handle options =>
    match h : pollLease fan options with
    | .ok (some leaseMs) =>
      if (w.clock : ℤ) ≤ i64Max then
        some { w with claims := w.claims ++ [⟨fan, handle, options, leaseMs, w.clock, false, h⟩] }
      else none
    | _ => none
  | .check i =>
    match w.claims[i]? with
    | none => none
    | some claim =>
      match claimCheck claim.handle claim.now w.db with
      | .ok none => some { w with claims := w.claims.set i { claim with checked := true } }
      | _ => some { w with claims := w.claims.eraseIdx i }
  | .lock i e =>
    match w.claims[i]? with
    | none => none
    | some claim =>
      if claim.checked then
        some { w with db := (claim.commit e w.db).1, claims := w.claims.eraseIdx i }
      else none
  | .other e fan op =>
    if isClaim op then none else some { w with db := (exec e fan op w.db).1 }

/-- One thing that has happened. -/
abbrev Move := Transition.Move World Action

/-- A claim of the consumer at the given reading is handed the message. -/
def Handed (db : Db) (c m now : ℤ) : Prop :=
  ∃ (e : Engine) (fan : Inner) (handle : Consumer) (options : Poll) (db' : Db) (granted : Granted),
    handle.id = c ∧ pollCommit e fan handle options now db = (db', .ok granted) ∧
      ∃ delivery ∈ granted.deliveries, delivery.message.id = m

/-- The lease is in force by the clock, and no claim that reads the clock now is handed the
message. -/
structure InForce (w : World) (c m : ℤ) : Prop where
  ahead : ∃ d ∈ w.db.deliveries, d.consumerId = c ∧ d.messageId = m ∧ (w.clock : ℤ) < d.visibleAt
  alone : ¬Handed w.db c m w.clock

/-- Every lease that the move's claim returns is in force once it has committed. -/
def Granting (move : Move) : Prop :=
  ∀ i e claim granted, move.action = .lock i e → move.before.claims[i]? = some claim →
    (claim.commit e move.before.db).2 = .ok granted →
      ∀ delivery ∈ granted.deliveries, InForce move.after claim.handle.id delivery.message.id

/-- The consumer has a delivery visible at the reading or an undelivered message. -/
def Due (db : Db) (c now : ℤ) : Prop :=
  (∃ d ∈ db.deliveries, d.consumerId = c ∧ d.visibleAt ≤ now) ∨ ∃ m, Awaited db c m

/-- The move's claim has waited for less than its timeout, or has nothing to lease: its deadline
does not fit, or nothing is due. -/
def Prompt (move : Move) : Prop :=
  ∀ i e claim, move.action = .lock i e → move.before.claims[i]? = some claim →
    (move.before.clock : ℤ) < claim.now + claim.leaseMs ∨
      i64Max < claim.now + claim.leaseMs ∨ ¬Due move.before.db claim.handle.id claim.now

section Claims

variable {db db' : Db} {claim : Claiming} {e : Engine} {row : ConsumerRow} {c m now : ℤ}

/-- A claim of a live consumer with a deadline in range commits what it leases. -/
theorem commit_eq (e : Engine) (hinv : Inv db) (hid : claim.handle.id = row.id)
    (hrow : db.consumers.lookup row.id = some row) (hfits : claim.now + claim.leaseMs ≤ i64Max) :
    claim.commit e db =
      (claimedDb db row claim.now (claim.now + claim.leaseMs) claim.options.maxMessages,
        .ok ⟨claimedDeliveries db row claim.now (claim.now + claim.leaseMs)
          claim.options.maxMessages, row.drainingAt.isSome⟩) := by
  have hpos := (pollLease_some claim.lease).2.2.1
  have hmin : i64Min ≤ claim.now + claim.leaseMs := by
    unfold i64Min
    omega
  exact claimCommit_eq e hinv hid hrow (if_pos ⟨hmin, hfits⟩) (pollLease_fits claim.lease)

/-- A claim that commits is one of a live consumer with a deadline in range. -/
theorem live_of_commit {granted : Granted} (h : (claim.commit e db).2 = .ok granted) :
    (∃ row, db.consumers.lookup claim.handle.id = some row) ∧
      claim.now + claim.leaseMs ≤ i64Max := by
  unfold Claiming.commit claimCommit commit claimTransaction at h
  cases hdeadline : checkedAdd claim.now claim.leaseMs with
  | error err =>
    rw [hdeadline] at h
    cases h
  | ok deadline =>
    have hfits : claim.now + claim.leaseMs ≤ i64Max := by
      unfold checkedAdd at hdeadline
      split at hdeadline
      · next hrange => exact hrange.2
      · cases hdeadline
    cases hrow : db.consumers.lookup claim.handle.id with
    | none =>
      rw [hdeadline] at h
      simp only [bind, Except.bind, hrow] at h
      cases h
    | some row => exact ⟨⟨row, rfl⟩, hfits⟩

/-- A claim of a live consumer is empty exactly when nothing is due. -/
theorem claimed_empty_iff (hinv : Inv db) (hrow : db.consumers.lookup row.id = some row)
    (deadline : ℤ) {limit : ℕ} (hpos : 0 < limit) :
    claimedDeliveries db row now deadline limit = [] ↔ ¬Due db row.id now := by
  constructor
  · intro hempty
    obtain ⟨hvisible, hunseen⟩ := nothing_of_empty hinv hpos hempty
    rintro (⟨d, hd, hc, hle⟩ | ⟨m, other, message, hother, hmem, -⟩)
    · have hlt := hvisible d hd hc
      omega
    · obtain rfl := Option.some.inj (hrow.symm.trans hother)
      rw [hunseen] at hmem
      exact absurd hmem List.not_mem_nil
  · intro hnone
    refine List.eq_nil_iff_forall_not_mem.mpr fun delivery hdelivery => hnone ?_
    rcases mem_claimedDeliveries.mp hdelivery with ⟨d, hd, -, -, -⟩ | ⟨message, hfresh, -⟩
    · obtain ⟨hstored, hc, hle⟩ := mem_selectVisible hd
      exact .inl ⟨d, hstored, hc, hle⟩
    · exact .inr ⟨message.id, row, message, hrow, mem_unseen_of_fresh hfresh, rfl⟩

/-- A returned delivery is leased until the deadline. -/
theorem row_of_claimed (hinv : Inv db) (hrow : db.consumers.lookup row.id = some row)
    {deadline : ℤ} {limit : ℕ} {delivery : Delivery}
    (h : delivery ∈ claimedDeliveries db row now deadline limit) :
    ∃ d ∈ (claimedDb db row now deadline limit).deliveries,
      d.consumerId = row.id ∧ d.messageId = delivery.message.id ∧ d.visibleAt = deadline := by
  rcases mem_claimedDeliveries.mp h with ⟨d, hd, message, hmessage, rfl⟩ | ⟨message, hfresh, rfl⟩
  · obtain ⟨-, hc, -⟩ := mem_selectVisible hd
    have hid : message.id = d.messageId := (AutoTable.lookup_eq_some.mp hmessage).2
    exact ⟨_, (mem_claimedDb hinv hrow).mpr (.inr (.inr ⟨d, hd, rfl⟩)), hc, hid.symm, rfl⟩
  · exact ⟨_, (mem_claimedDb hinv hrow).mpr (.inl ⟨message, hfresh, rfl⟩), rfl, rfl, rfl⟩

/-- A claim that commits leaves and returns what its lease amounts to. -/
theorem commit_cases (hinv : Inv db) {granted : Granted}
    (h : (claim.commit e db).2 = .ok granted) :
    ∃ row, db.consumers.lookup row.id = some row ∧ claim.handle.id = row.id ∧
      (claim.commit e db).1 = claimedDb db row claim.now (claim.now + claim.leaseMs)
        claim.options.maxMessages ∧
      granted.deliveries = claimedDeliveries db row claim.now (claim.now + claim.leaseMs)
        claim.options.maxMessages := by
  obtain ⟨⟨row, hrow⟩, hfits⟩ := live_of_commit h
  have hid : claim.handle.id = row.id := (AutoTable.lookup_eq_some.mp hrow).2.symm
  have hcommit := commit_eq e hinv hid (hid ▸ hrow) hfits
  rw [hcommit] at h
  obtain rfl := Except.ok.inj h
  exact ⟨row, hid ▸ hrow, hid, congrArg Prod.fst hcommit, rfl⟩

/-- A claim with a deadline in range and something due commits. -/
theorem commits_of_due (e : Engine) (hinv : Inv db)
    (hfits : claim.now + claim.leaseMs ≤ i64Max) (hdue : Due db claim.handle.id claim.now) :
    ∃ granted, (claim.commit e db).2 = .ok granted := by
  obtain ⟨row, hrow⟩ : ∃ row, db.consumers.lookup claim.handle.id = some row := by
    rcases hdue with ⟨d, hd, hc, -⟩ | ⟨m, row, -, hrow, -⟩
    · obtain ⟨row, -, hrow, -⟩ := hinv.delivery_refers d hd
      exact ⟨row, hc ▸ hrow⟩
    · exact ⟨row, hrow⟩
  have hid : claim.handle.id = row.id := (AutoTable.lookup_eq_some.mp hrow).2.symm
  exact ⟨_, congrArg Prod.snd (commit_eq e hinv hid (hid ▸ hrow) hfits)⟩

/-- A claim that commits is empty exactly when nothing is due. -/
theorem granted_empty_iff (hinv : Inv db) {granted : Granted}
    (h : (claim.commit e db).2 = .ok granted) :
    granted.deliveries = [] ↔ ¬Due db claim.handle.id claim.now := by
  obtain ⟨row, hrow, hid, -, hdeliveries⟩ := commit_cases hinv h
  rw [hdeliveries, hid]
  exact claimed_empty_iff hinv hrow _ (pollLease_some claim.lease).1

/-- Every returned delivery is leased until the deadline of the claim. -/
theorem leased_of_granted (hinv : Inv db) {granted : Granted}
    (h : (claim.commit e db).2 = .ok granted) {delivery : Delivery}
    (hdelivery : delivery ∈ granted.deliveries) :
    ∃ d ∈ (claim.commit e db).1.deliveries, d.consumerId = claim.handle.id ∧
      d.messageId = delivery.message.id ∧ d.visibleAt = claim.now + claim.leaseMs := by
  obtain ⟨row, hrow, hid, hafter, hdeliveries⟩ := commit_cases hinv h
  rw [hafter, hid]
  exact row_of_claimed hinv hrow (hdeliveries ▸ hdelivery)

/-- A message whose delivery is not yet visible is handed to no claim. -/
theorem not_handed (hinv : Inv db) {d : DeliveryRow} (hd : d ∈ db.deliveries)
    (hc : d.consumerId = c) (hm : d.messageId = m) (hahead : now < d.visibleAt) :
    ¬Handed db c m now := by
  rintro ⟨e, fan, handle, options, db', granted, rfl, hcommit, delivery, hdelivery, rfl⟩
  have heffect := @effect_claim fan db e hinv handle options now
  rw [hcommit] at heffect
  change Effect fan db (.claim handle options now) db' (.ok (.granted granted)) at heffect
  obtain ⟨_, _, _, -, deadline, row, hclaim, -, -, hid, hrow, -, rfl⟩ := heffect.returning hdelivery
  cases hclaim
  rcases mem_claimedDeliveries.mp hdelivery with ⟨other, hother, message, hmessage, rfl⟩ |
    ⟨message, hfresh, rfl⟩
  · obtain ⟨hstored, howner, hle⟩ := mem_selectVisible hother
    have hkey : message.id = other.messageId := (AutoTable.lookup_eq_some.mp hmessage).2
    have hsame : other.key = d.key := by
      rw [DeliveryRow.key, DeliveryRow.key, howner, hc, hid, hm]
      exact congrArg (Prod.mk _) hkey.symm
    obtain rfl := Table.eq_of_key hstored hd hsame
    omega
  · have hlt := selectVisible_lt_fresh hinv hrow hd (hc.trans hid) hfresh
    dsimp only at hm
    omega

end Claims

section Runs

variable {started : ℕ} {moves : List Move} {w w' : World}

/-- A claim's writer transaction is the poll's. -/
theorem commit_exec (claim : Claiming) (e : Engine) (db : Db) :
    (claim.commit e db).1 =
      (exec e claim.fan (.claim claim.handle claim.options claim.now) db).1 := by
  change _ = (pollCommit e claim.fan claim.handle claim.options claim.now db).1
  rw [pollCommit, claim.lease]
  rfl

/-- Every state of a run holds a reachable database. -/
theorem reachable_world
    (hrun : Transition.Run (Transition.labelled step) (World.initial started) moves w) :
    Reachable w.db := by
  have hinit : Reachable (World.initial started).db := ⟨[], .nil⟩
  have hstep : ∀ move : Move, (Transition.labelled step).valid move →
      Reachable move.before.db → Reachable move.after.db := by
    rintro ⟨before, action, after⟩ hvalid hreachable
    change step before action = some after at hvalid
    cases action with
    | pass ms =>
      obtain rfl := Option.some.inj hvalid
      exact hreachable
    | readClock fan handle options =>
      simp only [step] at hvalid
      split at hvalid
      · split at hvalid
        · obtain rfl := Option.some.inj hvalid
          exact hreachable
        · cases hvalid
      · cases hvalid
    | check i =>
      simp only [step] at hvalid
      split at hvalid
      · cases hvalid
      · split at hvalid <;>
        · obtain rfl := Option.some.inj hvalid
          exact hreachable
    | lock i e =>
      simp only [step] at hvalid
      split at hvalid
      · cases hvalid
      · next claim _ =>
        split at hvalid
        · obtain rfl := Option.some.inj hvalid
          change Reachable (claim.commit e before.db).1
          rw [commit_exec]
          exact reachable_exec hreachable e _ _
        · cases hvalid
    | other e fan op =>
      simp only [step] at hvalid
      split at hvalid
      · cases hvalid
      · obtain rfl := Option.some.inj hvalid
        exact reachable_exec hreachable e fan op
  exact @Transition.Run.invariant _ _ _ _ _ _ (fun w => Reachable w.db) hrun hinit hstep

/-- What a commit leaves. -/
theorem lock_after {i : ℕ} {e : Engine} {claim : Claiming} (h : step w (.lock i e) = some w')
    (hclaim : w.claims[i]? = some claim) :
    w'.db = (claim.commit e w.db).1 ∧ w'.clock = w.clock := by
  simp only [step, hclaim] at h
  split at h
  · obtain rfl := Option.some.inj h
    exact ⟨rfl, rfl⟩
  · cases h

/-- In every run a claim returns only leases in force, with nobody else to be handed their
messages, exactly when it has waited for less than its timeout or has nothing to lease. -/
theorem granting_iff
    (hrun : Transition.Run (Transition.labelled step) (World.initial started) moves w)
    {move : Move} (hmem : move ∈ moves) : Granting move ↔ Prompt move := by
  obtain ⟨past, future, rfl⟩ := List.append_of_mem hmem
  obtain ⟨hbefore, hvalid, -⟩ := hrun.around
  have hinv : Inv move.before.db := inv_reachable (reachable_world hbefore)
  have hafter : Inv move.after.db := by
    have hsnoc := hbefore.append (.single (S := Transition.labelled step) hvalid)
    exact inv_reachable (reachable_world hsnoc)
  constructor
  · intro hgranting i e claim haction hclaim
    by_contra hlate
    simp only [not_or, not_lt, not_not] at hlate
    obtain ⟨hover, hfits, hdue⟩ := hlate
    obtain ⟨granted, hgranted⟩ := commits_of_due e hinv hfits hdue
    obtain ⟨delivery, hdelivery⟩ := List.exists_mem_of_ne_nil _
      fun hempty => (granted_empty_iff hinv hgranted).mp hempty hdue
    obtain ⟨d, hd, hc, hm, hahead⟩ :=
      (hgranting i e claim granted haction hclaim hgranted delivery hdelivery).ahead
    obtain ⟨leased, hleased, howner, hmessage, huntil⟩ := leased_of_granted hinv hgranted hdelivery
    have hstep : step move.before (.lock i e) = some move.after := haction ▸ hvalid
    obtain ⟨hdb, hclock⟩ := lock_after hstep hclaim
    have hsame : leased.key = d.key := by
      rw [DeliveryRow.key, DeliveryRow.key, howner, hc, hmessage, hm]
    obtain rfl := Table.eq_of_key (hdb ▸ hleased) hd hsame
    rw [hclock] at hahead
    omega
  · intro hprompt i e claim granted haction hclaim hgranted delivery hdelivery
    obtain ⟨-, hfits⟩ := live_of_commit hgranted
    have hearly : (move.before.clock : ℤ) < claim.now + claim.leaseMs := by
      rcases hprompt i e claim haction hclaim with hearly | hover | hnone
      · exact hearly
      · omega
      · rw [(granted_empty_iff hinv hgranted).mpr hnone] at hdelivery
        exact absurd hdelivery List.not_mem_nil
    obtain ⟨leased, hleased, howner, hmessage, huntil⟩ := leased_of_granted hinv hgranted hdelivery
    have hstep : step move.before (.lock i e) = some move.after := haction ▸ hvalid
    obtain ⟨hdb, hclock⟩ := lock_after hstep hclaim
    rw [← hdb] at hleased
    have hahead : (move.after.clock : ℤ) < leased.visibleAt := by
      rw [hclock, huntil]
      exact hearly
    exact ⟨⟨leased, hleased, howner, hmessage, hahead⟩,
      not_handed hafter hleased howner hmessage hahead⟩

end Runs

/-- A message is published, and a claim with a lease of a millisecond has found it. -/
def foundActions : List Action :=
  [.other Engine.inOrder Inner.default (.openConsumer "jobs" .all 0),
    .other Engine.inOrder Inner.default (.publishBatch [⟨none, [7], none⟩] 0),
    .readClock Inner.default firstHandle pollOne, .check 0]

set_option maxRecDepth 10000 in
/-- Committing at once it returns a lease in force. -/
theorem granting_iff_prompt : ∃ moves w w',
    Transition.Run (Transition.labelled step) (World.initial 0)
      (moves ++ [⟨w, .lock 0 Engine.inOrder, w'⟩]) w' ∧
    Granting ⟨w, .lock 0 Engine.inOrder, w'⟩ := by
  obtain ⟨moves, w, w', hplay, hstep, hclock, hreading⟩ : ∃ moves w w',
      Transition.play step foundActions (World.initial 0) = some (moves, w) ∧
      step w (.lock 0 Engine.inOrder) = some w' ∧ w.clock = 0 ∧
      w.claims[0]?.map (fun claim => (claim.now, claim.leaseMs)) = some (0, 1) :=
    ⟨_, _, _, rfl, rfl, rfl, rfl⟩
  have hrun := Transition.labelled_snoc (Transition.play_run hplay) hstep
  refine ⟨moves, w, w', hrun, ?_⟩
  refine (granting_iff hrun (List.mem_append_right _ (List.mem_singleton.mpr rfl))).mpr ?_
  intro i e claim haction hclaim
  obtain ⟨rfl, rfl⟩ := Action.lock.inj haction
  rw [hclaim] at hreading
  obtain ⟨hnow, hlease⟩ := Prod.mk.inj (Option.some.inj hreading)
  left
  change (w.clock : ℤ) < claim.now + claim.leaseMs
  omega

set_option maxRecDepth 10000 in
/-- Committing five milliseconds later it returns a lease that has already ended. -/
theorem late_lease : ¬∀ (started : ℕ) (moves : List Move) (w : World),
    Transition.Run (Transition.labelled step) (World.initial started) moves w →
      ∀ move ∈ moves, Granting move := by
  intro hclaim
  obtain ⟨moves, w, w', claim, granted, hplay, hstep, hwaiting, hcommit, hids, hrows, hclock⟩ :
      ∃ moves w w' claim granted,
        Transition.play step (foundActions ++ [.pass 5]) (World.initial 0) = some (moves, w) ∧
        step w (.lock 0 Engine.inOrder) = some w' ∧ w.claims[0]? = some claim ∧
        (claim.commit Engine.inOrder w.db).2 = .ok granted ∧
        granted.deliveries.map (fun delivery => delivery.message.id) = [1] ∧
        w'.db.deliveries.rows = [⟨1, 1, 1, 1, 1⟩] ∧ w'.clock = 5 :=
    ⟨_, _, _, _, _, rfl, rfl, rfl, rfl, rfl, rfl, rfl⟩
  have hrun := Transition.labelled_snoc (Transition.play_run hplay) hstep
  have hgranting := hclaim 0 _ w' hrun _ (List.mem_append_right _ (List.mem_singleton.mpr rfl))
  obtain ⟨delivery, hdelivery, -⟩ := List.mem_map.mp
    (hids ▸ List.mem_singleton.mpr rfl : (1 : ℤ) ∈ granted.deliveries.map _)
  obtain ⟨d, hd, -, -, hahead⟩ :=
    (hgranting 0 _ claim granted rfl hwaiting hcommit delivery hdelivery).ahead
  change d ∈ w'.db.deliveries.rows at hd
  rw [hrows] at hd
  obtain rfl := List.mem_singleton.mp hd
  change (w'.clock : ℤ) < 1 at hahead
  omega

end LiteFan.LeaseClock

import LiteFan.Shortcut

/-!
# How long a poll sleeps

A poll without work waits for whatever comes first: its own deadline, the
polling interval, or the time at which its claim said a delivery falls due. The
last is a difference of two readings of the clock, and what becomes of it when
it is negative decides whether a poll that is already late claims again at once.
-/

namespace LiteFan.Sleeps

open LiteFan.Api LiteFan.Time LiteFan.Schema LiteFan.Storage LiteFan.Store LiteFan.Consumer
open LiteFan.System LiteFan.Invariant LiteFan.Effect LiteFan.Step LiteFan.Preservation
open LiteFan.Outstanding LiteFan.Shortcut Relational

/-- How long it is until a timestamp, nothing once it has passed. -/
def untilDue (visibleAt now : ℤ) : Duration := (max 0 (visibleAt - now)).toNat * 1000000

/-- The longest sleep that misses neither the deadline nor the next delivery. -/
def promptSleep (fan : Inner) (remaining : Duration) (visibleAt now : ℤ) : Duration :=
  min (min remaining fan.crossProcessPollInterval) (untilDue visibleAt now)

section Difference

variable {visibleAt now : ℤ}

/-- The difference of a timestamp and a reading of the clock saturates in one direction only. -/
theorem saturatingSub_eq (hfits : i64Min ≤ visibleAt ∧ visibleAt ≤ i64Max)
    (hnow : 0 ≤ now) : saturatingSub visibleAt now = max i64Min (visibleAt - now) := by
  obtain ⟨-, hle⟩ := hfits
  rw [saturatingSub, min_eq_right (by omega)]

/-- A difference that is not negative keeps its value. -/
theorem asU64_of_nonneg {a : ℤ} (h : 0 ≤ a) (hle : a ≤ i64Max) : asU64 a = a.toNat := by
  rw [i64Max] at hle
  rw [asU64, Int.emod_eq_of_lt h (by omega)]

/-- A negative difference reads as a span of more than half the unsigned range. -/
theorem asU64_of_neg {a : ℤ} (h : a < 0) (hle : i64Min ≤ a) :
    asU64 a = (a + 18446744073709551616).toNat := by
  rw [i64Min] at hle
  have hwrap : a % 18446744073709551616 = a + 18446744073709551616 := by
    rw [← Int.add_emod_right, Int.emod_eq_of_lt (by omega) (by omega)]
  rw [asU64, hwrap]

/-- Until a timestamp ahead the span is the distance to it. -/
theorem durationUntilMs_ahead (hfits : i64Min ≤ visibleAt ∧ visibleAt ≤ i64Max)
    (hnow : 0 ≤ now) (h : now ≤ visibleAt) :
    durationUntilMs visibleAt now = untilDue visibleAt now := by
  have hzero : i64Min ≤ 0 := by decide
  rw [durationUntilMs, untilDue, saturatingSub_eq hfits hnow, max_eq_right (by omega),
    max_eq_right (by omega), asU64_of_nonneg (by omega) (by omega)]

/-- Once a timestamp has passed the span is at least half the unsigned range. -/
theorem durationUntilMs_past (hfits : i64Min ≤ visibleAt ∧ visibleAt ≤ i64Max)
    (hnow : 0 ≤ now) (h : visibleAt < now) :
    (9223372036854775808 * 1000000 : ℕ) ≤ durationUntilMs visibleAt now := by
  have hneg : max i64Min (visibleAt - now) < 0 := max_lt (by decide) (by omega)
  have hle : i64Min ≤ max i64Min (visibleAt - now) := le_max_left _ _
  rw [durationUntilMs, saturatingSub_eq hfits hnow, asU64_of_neg hneg hle]
  rw [i64Min] at hle ⊢
  refine Nat.mul_le_mul_right 1000000 ?_
  omega

/-- Nothing is left to wait for once a timestamp has passed. -/
theorem untilDue_past (h : visibleAt < now) : untilDue visibleAt now = 0 := by
  rw [untilDue, max_eq_left (by omega)]
  rfl

end Difference

section Sleep

variable {fan : Inner} {remaining : Duration} {visibleAt now : ℤ}

/-- The sleep with a timestamp is the shortest of the three spans. -/
theorem sleepFor_some : sleepFor fan remaining (some visibleAt) now =
    min (min remaining fan.crossProcessPollInterval) (durationUntilMs visibleAt now) := rfl

/-- A poll that is late sleeps for more than nothing. -/
theorem sleepFor_past (hfits : i64Min ≤ visibleAt ∧ visibleAt ≤ i64Max) (hnow : 0 ≤ now)
    (h : visibleAt < now) (hremaining : 0 < remaining) :
    0 < sleepFor fan remaining (some visibleAt) now := by
  have hspan := durationUntilMs_past hfits hnow h
  have hinterval := fan.crossProcessPollInterval_pos
  rw [sleepFor_some]
  exact lt_min (lt_min hremaining hinterval) (lt_of_lt_of_le (by decide) hspan)

/-- A poll sleeps until what comes first exactly when that time has not passed, or when it
has no time left itself. -/
theorem sleepFor_prompt_iff (hfits : i64Min ≤ visibleAt ∧ visibleAt ≤ i64Max)
    (hnow : 0 ≤ now ∧ now ≤ i64Max) :
    sleepFor fan remaining (some visibleAt) now = promptSleep fan remaining visibleAt now ↔
      now ≤ visibleAt ∨ remaining = 0 := by
  constructor
  · intro hprompt
    by_contra hlate
    push Not at hlate
    obtain ⟨hpast, hleft⟩ := hlate
    have hsleep := @sleepFor_past fan remaining visibleAt now hfits hnow.1 hpast
      (Nat.pos_of_ne_zero hleft)
    rw [hprompt, promptSleep, untilDue_past hpast, Nat.min_zero] at hsleep
    exact lt_irrefl 0 hsleep
  · rintro (hahead | rfl)
    · rw [sleepFor_some, durationUntilMs_ahead hfits hnow.1 hahead, promptSleep]
    · rw [sleepFor_some, promptSleep, Nat.zero_min, Nat.zero_min, Nat.zero_min]

/-- A poll whose clock has moved past a deadline of 1000 milliseconds is late. -/
theorem sleepFor_prompt_iff_past : ¬sleepFor Inner.default 1000000000 (some 1000) 1001 =
    promptSleep Inner.default 1000000000 1000 1001 := by
  have hlate : ¬((1001 : ℤ) ≤ 1000 ∨ (1000000000 : Duration) = 0) := by decide
  exact fun hprompt => hlate ((sleepFor_prompt_iff ⟨by decide, by decide⟩
    ⟨by decide, by decide⟩).mp hprompt)

/-- A poll that computes its sleep at the reading of a claim run alone is never late. -/
theorem sleepFor_at_claim {db db' : Db} {e : Engine} {self : Consumer} {limit : ℕ}
    {leaseMs reading deadline : ℤ} {found : Claim} (hreachable : Reachable db) (hpos : 0 < limit)
    (hle : limit ≤ fan.maxBatchSize) (hdeadline : checkedAdd reading leaseMs = .ok deadline)
    (hclaim : claim e self limit leaseMs reading db = (db', .ok found))
    (hnone : found.deliveries = []) (hreading : 0 ≤ reading ∧ reading ≤ i64Max)
    (hnext : found.nextVisibleAt = some visibleAt)
    (hfits : i64Min ≤ visibleAt ∧ visibleAt ≤ i64Max) :
    sleepFor fan remaining found.nextVisibleAt reading =
      promptSleep fan remaining visibleAt reading := by
  obtain ⟨-, -, hexpects⟩ := shortcut_agrees hreachable hpos hle hdeadline
  obtain ⟨row, row', -, -, hbefore, -⟩ := hexpects e db' found (.inl hclaim) hnone
  rw [hnext]
  exact (sleepFor_prompt_iff hfits hreading).mpr (.inl (hbefore.ahead visibleAt hnext).le)

end Sleep

set_option maxRecDepth 10000 in
/-- While the only message is leased until 1, another worker's claim finds nothing before 1;
by the time its sleep is computed the clock shows 2, and the poll sleeps the whole interval. -/
theorem late_sleep : ¬∀ db, Reachable db → ∀ (e : Engine) (fan : Inner) (self : Consumer)
    (limit : ℕ) (leaseMs reading : ℤ) (db' : Db) (found : Claim) (visibleAt : ℤ),
    claim e self limit leaseMs reading db = (db', .ok found) → found.deliveries = [] →
    found.nextVisibleAt = some visibleAt → ∀ (remaining : Duration) (now : ℤ), reading ≤ now →
      now ≤ i64Max → sleepFor fan remaining found.nextVisibleAt now =
        promptSleep fan remaining visibleAt now := by
  intro hclaimed
  have hclaim : claim Engine.inOrder firstHandle 1 5 0
      (outcomeDb Engine.inOrder Inner.default heldOps Db.empty) =
        (outcomeDb Engine.inOrder Inner.default heldOps Db.empty, .ok ⟨[], some 1, false⟩) := rfl
  have hsleep := hclaimed _ (reachable_outcome Engine.inOrder Inner.default heldOps)
    Engine.inOrder Inner.default firstHandle 1 5 0 _ _ 1 hclaim rfl rfl 1000000000 2
    (by decide) (by decide)
  revert hsleep
  decide

end LiteFan.Sleeps

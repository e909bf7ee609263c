import LiteFan.Api
import Mathlib.Tactic.NormNum

/-!
# Durable time conversion and validated settings

Durations become whole milliseconds, additions are checked against the 64-bit
range, and a store handle carries the facts its configuration was checked for.
-/

namespace LiteFan.Time

open LiteFan.Api

/-- The largest 64-bit signed integer. -/
def i64Max : ℤ := 9223372036854775807

/-- The smallest 64-bit signed integer. -/
def i64Min : ℤ := -9223372036854775808

/-- Addition that reports a result outside the 64-bit range. -/
def checkedAdd (a b : ℤ) : Except Error ℤ :=
  if i64Min ≤ a + b ∧ a + b ≤ i64Max then .ok (a + b) else .error .durationOutOfRange

/-- Subtraction that stops at the ends of the 64-bit range. -/
def saturatingSub (a b : ℤ) : ℤ := max i64Min (min i64Max (a - b))

/-- The bit pattern of a 64-bit signed integer read as an unsigned one. -/
def asU64 (a : ℤ) : ℕ := (a % 18446744073709551616).toNat

/-- A count that must fit SQLite's integer column. -/
def i64TryFrom (n : ℕ) (err : Error) : Except Error ℤ :=
  if (n : ℤ) ≤ i64Max then .ok n else .error err

/-- A stored counter read back as an unsigned number. -/
def u64TryFrom (n : ℤ) : Except Error ℕ :=
  if 0 ≤ n then .ok n.toNat else .error .counterOutOfRange

/-- Whole milliseconds of a span, if they fit. -/
def durationMs (duration : Duration) : Except Error ℤ :=
  i64TryFrom (asMillis duration) .durationOutOfRange

/-- A timestamp moved by a span, if it fits. -/
def addDuration (timestampMs : ℤ) (duration : Duration) : Except Error ℤ := do
  let ms ← durationMs duration
  checkedAdd timestampMs ms

/-- The wall clock in milliseconds, from its span since the epoch, none before it. -/
def nowMs : Option Duration → Except Error ℤ
  | none => .error .clockBeforeUnixEpoch
  | some sinceEpoch => i64TryFrom (asMillis sinceEpoch) .durationOutOfRange

/-- The span from a clock reading to a timestamp. -/
def durationUntilMs (timestampMs now : ℤ) : Duration :=
  asU64 (saturatingSub timestampMs now) * 1000000

/-- The settings a handle can be opened with. -/
def validateConfig (config : Config) : Except Error Unit :=
  if config.maxConnections = 0 then
    .error (.invalidConfig "max_connections must be greater than zero")
  else if config.maxBatchSize = 0 then
    .error (.invalidConfig "max_batch_size must be greater than zero")
  else if ¬(config.maxBatchSize : ℤ) ≤ i64Max then
    .error (.invalidConfig "max_batch_size must fit in SQLite")
  else if config.crossProcessPollInterval = 0 then
    .error (.invalidConfig "cross_process_poll_interval must be greater than zero")
  else if asMillis config.idempotencyWindow = 0 then
    .error (.invalidConfig "idempotency_window must be at least one millisecond")
  else if ¬(asMillis config.idempotencyWindow : ℤ) ≤ i64Max then
    .error (.invalidConfig "idempotency_window must fit in SQLite milliseconds")
  else .ok ()

/-- An open store handle. Its settings passed the configuration check. -/
structure Inner where
  /-- Largest slice accepted by a batch operation. -/
  maxBatchSize : ℕ
  /-- Poll cadence used to discover commits made elsewhere. -/
  crossProcessPollInterval : Duration
  /-- How long a supplied idempotency key suppresses another publish. -/
  idempotencyWindowMs : ℤ
  /-- Some batch is accepted. -/
  maxBatchSize_pos : 0 < maxBatchSize
  /-- Every accepted batch size fits SQLite. -/
  maxBatchSize_le : (maxBatchSize : ℤ) ≤ i64Max
  /-- The fallback cadence is a real wait. -/
  crossProcessPollInterval_pos : 0 < crossProcessPollInterval
  /-- The window is at least one millisecond. -/
  idempotencyWindowMs_pos : 0 < idempotencyWindowMs
  /-- The window fits SQLite. -/
  idempotencyWindowMs_le : idempotencyWindowMs ≤ i64Max
  deriving DecidableEq

/-- The checks passed exactly when every setting is in its range. -/
theorem validateConfig_ok {config : Config} (h : validateConfig config = .ok ()) :
    0 < config.maxConnections ∧ 0 < config.maxBatchSize ∧ (config.maxBatchSize : ℤ) ≤ i64Max ∧
      0 < config.crossProcessPollInterval ∧ 0 < asMillis config.idempotencyWindow ∧
      (asMillis config.idempotencyWindow : ℤ) ≤ i64Max := by
  unfold validateConfig at h
  split_ifs at h with h₁ h₂ h₃ h₄ h₅ h₆
  exact ⟨Nat.pos_of_ne_zero h₁, Nat.pos_of_ne_zero h₂, h₃, Nat.pos_of_ne_zero h₄,
    Nat.pos_of_ne_zero h₅, h₆⟩

/-- Open a handle with checked settings. -/
def openWithConfig (config : Config) : Except Error Inner :=
  match h : validateConfig config with
  | .error err => .error err
  | .ok () => .ok {
      maxBatchSize := config.maxBatchSize
      crossProcessPollInterval := config.crossProcessPollInterval
      idempotencyWindowMs := asMillis config.idempotencyWindow
      maxBatchSize_pos := (validateConfig_ok h).2.1
      maxBatchSize_le := (validateConfig_ok h).2.2.1
      crossProcessPollInterval_pos := (validateConfig_ok h).2.2.2.1
      idempotencyWindowMs_pos := by exact_mod_cast (validateConfig_ok h).2.2.2.2.1
      idempotencyWindowMs_le := (validateConfig_ok h).2.2.2.2.2 }

/-- The handle the default settings open. -/
def Inner.default : Inner where
  maxBatchSize := 500
  crossProcessPollInterval := 250 * 1000000
  idempotencyWindowMs := 24 * 60 * 60 * 1000
  maxBatchSize_pos := by decide
  maxBatchSize_le := by decide
  crossProcessPollInterval_pos := by decide
  idempotencyWindowMs_pos := by decide
  idempotencyWindowMs_le := by decide

/-- The default settings pass every check. -/
theorem openWithConfig_default : openWithConfig Config.default = .ok Inner.default := rfl

/-- Reject a request larger than the handle's batch limit. -/
def ensureBatchSize (fan : Inner) (requested : ℕ) : Except Error Unit :=
  if requested > fan.maxBatchSize then .error (.batchTooLarge requested fan.maxBatchSize)
  else .ok ()

theorem ensureBatchSize_ok {fan : Inner} {requested : ℕ} :
    ensureBatchSize fan requested = .ok () ↔ requested ≤ fan.maxBatchSize := by
  unfold ensureBatchSize
  split_ifs with h
  · exact iff_of_false (by simp) (by omega)
  · exact iff_of_true rfl (by omega)

/-- A checked addition that succeeds is the sum. -/
theorem checkedAdd_ok {a b c : ℤ} (h : checkedAdd a b = .ok c) : c = a + b := by
  unfold checkedAdd at h
  split_ifs at h
  cases h
  rfl

/-- A span's milliseconds are not negative. -/
theorem durationMs_ok {d : Duration} {ms : ℤ} (h : durationMs d = .ok ms) : ms = asMillis d := by
  unfold durationMs i64TryFrom at h
  split_ifs at h
  cases h
  rfl

/-- A checked deadline is the timestamp plus the span's milliseconds. -/
theorem addDuration_ok {t : ℤ} {d : Duration} {c : ℤ} (h : addDuration t d = .ok c) :
    c = t + asMillis d := by
  unfold addDuration at h
  cases hd : durationMs d with
  | error err => rw [hd] at h; cases h
  | ok ms =>
    rw [hd] at h
    rw [checkedAdd_ok h, durationMs_ok hd]

/-- A checked addition fails in one way. -/
theorem checkedAdd_error {a b : ℤ} {err : Error} (h : checkedAdd a b = .error err) :
    err = .durationOutOfRange := by
  unfold checkedAdd at h
  split_ifs at h
  cases h
  rfl

/-- A span that does not fit fails in one way. -/
theorem durationMs_error {d : Duration} {err : Error} (h : durationMs d = .error err) :
    err = .durationOutOfRange := by
  unfold durationMs i64TryFrom at h
  split_ifs at h
  cases h
  rfl

/-- A deadline that does not fit fails in one way. -/
theorem addDuration_error {t : ℤ} {d : Duration} {err : Error} (h : addDuration t d = .error err) :
    err = .durationOutOfRange := by
  unfold addDuration at h
  cases hd : durationMs d with
  | error err' =>
    rw [hd] at h
    cases h
    exact durationMs_error hd
  | ok ms =>
    rw [hd] at h
    exact checkedAdd_error h

/-- A request over the limit fails with both sizes. -/
theorem ensureBatchSize_error {fan : Inner} {requested : ℕ} (h : fan.maxBatchSize < requested) :
    ensureBatchSize fan requested = .error (.batchTooLarge requested fan.maxBatchSize) := by
  unfold ensureBatchSize
  rw [if_pos h]

end LiteFan.Time

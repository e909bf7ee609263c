import LiteFan.Api
import Mathlib.Data.Nat.Notation
import Mathlib.Logic.Function.Basic

/-!
# In-process notifications

A signal is a watch channel that counts its sends, and a receiver remembers the
count it has last marked seen. A registry maps each topic and each consumer to a
weak reference, which upgrades only while some handle still holds the signal.
-/

namespace LiteFan

open LiteFan.Api

/-- The address of a shared signal. -/
abbrev Signals.Signal := ℕ

/-- The signals of one store handle and their registries. -/
structure Signals where
  /-- How often each signal has been sent. -/
  generation : Signals.Signal → ℕ
  /-- The address of the next new signal. -/
  fresh : Signals.Signal
  allPublishes : Signals.Signal
  /-- Weak references of the topics. -/
  topics : String → Option Signals.Signal
  /-- Weak references of the consumer identities. -/
  consumers : ℤ → Option Signals.Signal

namespace Signals

/-- The signals of a new store handle. -/
def new : Signals := ⟨fun _ => 0, 1, 0, fun _ => none, fun _ => none⟩

/-- Send on a signal. -/
def notify (s : Signals) (signal : Signal) : Signals :=
  { s with generation := Function.update s.generation signal (s.generation signal + 1) }

/-- A weak reference leads to its signal while something holds the signal. -/
def upgrade (held : Signal → Bool) (weak : Option Signal) : Option Signal := weak.filter held

/-- The registered signal of a key, a new one when its weak reference has expired. -/
def signalForKey {κ : Type} [DecidableEq κ] (held : Signal → Bool) (registry : κ → Option Signal)
    (key : κ) (fresh : Signal) : (κ → Option Signal) × Signal × Signal :=
  match upgrade held (registry key) with
  | some signal => (registry, signal, fresh)
  | none => (Function.update registry key (some fresh), fresh, fresh + 1)

/-- The signal that a publish of a matching message raises. -/
def publishesFor (held : Signal → Bool) (s : Signals) (filter : Filter) : Signals × Signal :=
  match filter with
  | .all => (s, s.allPublishes)
  | .topic topic =>
    let found := signalForKey held s.topics topic s.fresh
    ({ s with topics := found.1, fresh := found.2.2 }, found.2.1)

/-- The signal of one consumer identity. -/
def consumerSignal (held : Signal → Bool) (s : Signals) (id : ℤ) : Signals × Signal :=
  let found := signalForKey held s.consumers id s.fresh
  ({ s with consumers := found.1, fresh := found.2.2 }, found.2.1)

/-- One topic of a publish: send on its signal, or drop its expired entry. -/
def notifyTopic (held : Signal → Bool) (s : Signals) (topic : String) : Signals :=
  match upgrade held (s.topics topic) with
  | some signal => notify s signal
  | none => { s with topics := Function.update s.topics topic none }

/-- Send on the signal of a consumer identity, or drop its expired entry. -/
def notifyConsumer (held : Signal → Bool) (s : Signals) (id : ℤ) : Signals :=
  match upgrade held (s.consumers id) with
  | some signal => notify s signal
  | none => { s with consumers := Function.update s.consumers id none }

/-- A subscription to a signal. -/
structure Receiver where
  signal : Signal
  /-- The number of sends last marked seen. -/
  seen : ℕ
  deriving DecidableEq

/-- A new subscription has seen every send so far. -/
def subscribe (s : Signals) (signal : Signal) : Receiver := ⟨signal, s.generation signal⟩

/-- Mark every send so far as seen. -/
def Receiver.borrowAndUpdate (s : Signals) (receiver : Receiver) : Receiver :=
  { receiver with seen := s.generation receiver.signal }

/-- A send has happened that the receiver has not seen. -/
def Receiver.changed (s : Signals) (receiver : Receiver) : Bool :=
  receiver.seen != s.generation receiver.signal

/-- The registered signal of a filter. -/
def publishEntry (s : Signals) : Filter → Option Signal
  | .all => some s.allPublishes
  | .topic topic => s.topics topic

/-- No signal of the second state has fewer sends. -/
def Later (s s' : Signals) : Prop := ∀ signal, s.generation signal ≤ s'.generation signal

section Sends

variable {s s' : Signals} {held : Signal → Bool} {signal : Signal} {receiver : Receiver}

theorem Later.refl (s : Signals) : Later s s := fun _ => Nat.le_refl _

theorem later_notify (s : Signals) (signal : Signal) : Later s (notify s signal) := by
  intro other
  by_cases hother : other = signal
  · subst hother
    simp only [notify, Function.update_self]
    omega
  · simp only [notify, Function.update_of_ne hother]
    exact Nat.le_refl _

/-- A subscription has seen what has been sent so far. -/
theorem subscribe_seen : (subscribe s signal).seen ≤ s.generation (subscribe s signal).signal :=
  Nat.le_refl _

/-- A mark has seen what has been sent so far. -/
theorem mark_seen :
    (receiver.borrowAndUpdate s).seen ≤ s.generation (receiver.borrowAndUpdate s).signal :=
      Nat.le_refl _

/-- A receiver that has missed a send keeps missing it while others send. -/
theorem changed_mono (hlater : Later s s') (hseen : receiver.seen ≤ s.generation receiver.signal)
    (h : receiver.changed s = true) : receiver.changed s' = true := by
  have hgrow := hlater receiver.signal
  rw [Receiver.changed, bne_iff_ne] at h ⊢
  omega

/-- A send reaches every receiver of its signal. -/
theorem changed_notify (hseen : receiver.seen ≤ s.generation receiver.signal) :
    receiver.changed (notify s receiver.signal) = true := by
  rw [Receiver.changed, bne_iff_ne]
  simp only [notify, Function.update_self]
  omega

end Sends

section Registry

variable {κ : Type} {held : Signal → Bool} {registry : κ → Option Signal}
variable {key other : κ} {signal fresh : Signal}

/-- A held entry upgrades. -/
theorem upgrade_held (hentry : registry key = some signal) (hheld : held signal = true) :
    upgrade held (registry key) = some signal := by
  rw [upgrade, hentry, Option.filter_some_pos hheld]

variable [DecidableEq κ]

/-- The registry records the signal it hands out. -/
theorem signalForKey_entry (held : Signal → Bool) (registry : κ → Option Signal) (key : κ)
    (fresh : Signal) :
    (signalForKey held registry key fresh).1 key =
      some (signalForKey held registry key fresh).2.1 := by
  unfold signalForKey
  split
  · next signal hfound =>
    rw [upgrade, Option.filter_eq_some_iff] at hfound
    exact hfound.1
  · exact Function.update_self ..

/-- Handing out a signal keeps every entry that something still holds. -/
theorem signalForKey_keeps (hentry : registry other = some signal) (hheld : held signal = true) :
    (signalForKey held registry key fresh).1 other = some signal := by
  unfold signalForKey
  split
  · exact hentry
  · next hexpired =>
    have hne : other ≠ key := by
      rintro rfl
      rw [upgrade_held hentry hheld] at hexpired
      cases hexpired
    exact (Function.update_of_ne hne _ _).trans hentry

/-- Dropping an expired entry keeps every entry that something still holds. -/
theorem expired_keeps (registry : κ → Option Signal) (hexpired : upgrade held (registry key) = none)
    (hentry : registry other = some signal) (hheld : held signal = true) :
    Function.update registry key none other = some signal := by
  have hne : other ≠ key := by
    rintro rfl
    rw [upgrade_held hentry hheld] at hexpired
    cases hexpired
  exact (Function.update_of_ne hne _ _).trans hentry

end Registry

/-- The second state still finds every held signal under its key, and has sent no less. -/
structure Keeps (held : Signal → Bool) (s s' : Signals) : Prop where
  later : Later s s'
  publishes : ∀ filter signal, s.publishEntry filter = some signal → held signal = true →
    s'.publishEntry filter = some signal
  consumers : ∀ id signal, s.consumers id = some signal → held signal = true →
    s'.consumers id = some signal

section Keeps

variable (held : Signal → Bool) (s : Signals)

/-- Sending changes no registry. -/
theorem keeps_notify (signal : Signal) : Keeps held s (notify s signal) where
  later := later_notify s signal
  publishes filter _ hentry _ := by cases filter <;> exact hentry
  consumers _ _ hentry _ := hentry

theorem keeps_notifyTopic (name : String) : Keeps held s (notifyTopic held s name) := by
  unfold notifyTopic
  split
  · exact keeps_notify held s _
  · next hexpired =>
    refine ⟨Later.refl s, ?_, fun _ _ hentry _ => hentry⟩
    intro filter signal hentry hheld
    cases filter with
    | all => exact hentry
    | topic other => exact expired_keeps s.topics hexpired hentry hheld

theorem keeps_notifyConsumer (id : ℤ) : Keeps held s (notifyConsumer held s id) := by
  unfold notifyConsumer
  split
  · exact keeps_notify held s _
  · next hexpired =>
    refine ⟨Later.refl s, ?_, ?_⟩
    · intro filter _ hentry _
      cases filter <;> exact hentry
    · intro other signal hentry hheld
      exact expired_keeps s.consumers hexpired hentry hheld

theorem keeps_publishesFor (filter : Filter) : Keeps held s (publishesFor held s filter).1 := by
  cases filter with
  | all => exact ⟨Later.refl s, fun _ _ hentry _ => hentry, fun _ _ hentry _ => hentry⟩
  | topic name =>
    refine ⟨Later.refl s, ?_, fun _ _ hentry _ => hentry⟩
    intro filter signal hentry hheld
    cases filter with
    | all => exact hentry
    | topic other => exact signalForKey_keeps hentry hheld

theorem keeps_consumerSignal (id : ℤ) : Keeps held s (consumerSignal held s id).1 := by
  refine ⟨Later.refl s, ?_, fun _ _ hentry hheld => signalForKey_keeps hentry hheld⟩
  intro filter _ hentry _
  cases filter <;> exact hentry

/-- The publish signal handed out for a filter is the registered one. -/
theorem publishesFor_entry (filter : Filter) :
    (publishesFor held s filter).1.publishEntry filter = some (publishesFor held s filter).2 := by
  cases filter with
  | all => rfl
  | topic name => exact signalForKey_entry held s.topics name s.fresh

/-- The consumer signal handed out for an identity is the registered one. -/
theorem consumerSignal_entry (id : ℤ) :
    (consumerSignal held s id).1.consumers id = some (consumerSignal held s id).2 :=
  signalForKey_entry held s.consumers id s.fresh

end Keeps

end Signals

end LiteFan

import LiteFan.Transition.Labelled
import LiteFan.Wakeups
import Mathlib.Data.List.ReduceOption

/-!
# The registry of signals under concurrent opens, drops and notifications

An open takes its publish signal and then its consumer signal, and a drop
releases them one after the other, outside any lock. A publish raises the signal
of all publishes, takes the mutex of the topics and raises them one by one. Every
held signal stays registered under its key, and no two keys share a signal.
-/

namespace LiteFan.Registry

open LiteFan.Api LiteFan.Signals
open LiteFan.Wakeups (Handle)

/-- What a signal is registered for. -/
inductive Key where
  | publishes (filter : Filter)
  | consumer (id : ℤ)
  deriving DecidableEq

/-- The registered signal of a key. -/
def entry (s : Signals) : Key → Option Signal
  | .publishes filter => s.publishEntry filter
  | .consumer id => s.consumers id

/-- Where a notification of publishes stands. -/
inductive CallStage where
  /-- Before it takes the mutex of the topics. -/
  | waiting (order : List String)
  /-- Holding the mutex. -/
  | raising (pending : List String)
  | returned

/-- A notification of publishes with its topics. -/
structure Call where
  topics : List (Option String)
  stage : CallStage

/-- The call holds the mutex of the topics. -/
def Call.locks (call : Call) : Bool :=
  match call.stage with
  | .raising _ => true
  | _ => false

/-- The registry and everything that uses it. -/
structure World where
  signals : Signals
  /-- The live consumer handles, clones included. -/
  handles : List Handle
  /-- Opens that hold only their publish signal so far. -/
  opening : List (Consumer × Signal)
  /-- Drops that hold only their consumer signal any more. -/
  closing : List (ℤ × Signal)
  calls : List Call

/-- The registry of a new store handle. -/
def World.initial : World := ⟨Signals.new, [], [], [], []⟩

/-- The two references of a handle. -/
def refs (handle : Handle) : List (Key × Signal) :=
  [(.publishes handle.consumer.filter, handle.publishSignal),
    (.consumer handle.consumer.id, handle.consumerSignal)]

/-- Every strong reference to a signal with the key it was taken for. -/
def World.refs (w : World) : List (Key × Signal) :=
  w.handles.flatMap Registry.refs ++
    (w.opening.map fun opened => (.publishes opened.1.filter, opened.2)) ++
      w.closing.map fun closed => (.consumer closed.1, closed.2)

/-- Something holds the signal, so weak references to it upgrade. -/
def World.held (w : World) (signal : Signal) : Bool :=
  signal == w.signals.allPublishes || w.refs.any fun ref => ref.2 == signal

/-- Nobody holds the mutex of the topics. -/
def World.unlocked (w : World) : Bool := w.calls.all fun call => !call.locks

/-- What can happen next. -/
inductive Action where
  /-- An open takes its publish signal. -/
  | takePublishes (consumer : Consumer)
  /-- An open takes its consumer signal and returns the handle. -/
  | takeConsumer (i : ℕ)
  | clone (handle : Handle)
  /-- A drop releases the publish signal. -/
  | drop (handle : Handle)
  /-- A drop releases the consumer signal. -/
  | release (i : ℕ)
  /-- A notification raises the signal of all publishes; its topics come in the order of a hash
  set. -/
  | publish (topics : List (Option String)) (order : List String)
  | lock (p : ℕ)
  /-- A notification raises its next topic. -/
  | raise (p : ℕ)
  | unlock (p : ℕ)
  | notifyConsumer (id : ℤ)
  /-- A handle raises the consumer signal it holds. -/
  | notifyOwn (handle : Handle)

/-- One step, if it can happen. -/
def step (w : World) : Action → Option World
  | .takePublishes consumer =>
    if consumer.filter = .all ∨ w.unlocked = true then
      let found := publishesFor w.held w.signals consumer.filter
      some { w with signals := found.1, opening := w.opening ++ [(consumer, found.2)] }
    else none
  | .takeConsumer i =>
    match w.opening[i]? with
    | none => none
    | some (consumer, publishSignal) =>
      let found := consumerSignal w.held w.signals consumer.id
      some { w with
        signals := found.1
        handles := w.handles ++ [⟨consumer, publishSignal, found.2⟩]
        opening := w.opening.eraseIdx i }
  | .clone handle =>
    if handle ∈ w.handles then some { w with handles := w.handles ++ [handle] } else none
  | .drop handle =>
    if handle ∈ w.handles then
      some { w with
        handles := w.handles.erase handle
        closing := w.closing ++ [(handle.consumer.id, handle.consumerSignal)] }
    else none
  | .release i => some { w with closing := w.closing.eraseIdx i }
  | .publish topics order =>
    if order.Perm topics.reduceOption.dedup then
      some { w with
        signals := notify w.signals w.signals.allPublishes
        calls := w.calls ++ [⟨topics, .waiting order⟩] }
    else none
  | .lock p =>
    match w.calls[p]? with
    | some ⟨topics, .waiting order⟩ =>
      if w.unlocked then some { w with calls := w.calls.set p ⟨topics, .raising order⟩ } else none
    | _ => none
  | .raise p =>
    match w.calls[p]? with
    | some ⟨topics, .raising (topic :: pending)⟩ =>
      some { w with
        signals := notifyTopic w.held w.signals topic
        calls := w.calls.set p ⟨topics, .raising pending⟩ }
    | _ => none
  | .unlock p =>
    match w.calls[p]? with
    | some ⟨topics, .raising []⟩ => some { w with calls := w.calls.set p ⟨topics, .returned⟩ }
    | _ => none
  | .notifyConsumer id =>
    some { w with signals := Signals.notifyConsumer w.held w.signals id }
  | .notifyOwn handle =>
    if handle ∈ w.handles then
      some { w with signals := notify w.signals handle.consumerSignal }
    else none

/-- One thing that has happened. -/
abbrev Move := Transition.Move World Action

/-- Everything that uses one registry, step by step. -/
abbrev sharing : Transition.System World Move := Transition.labelled step

/-- The possible steps, one constructor for each action. -/
inductive Stepped (w : World) : Action → World → Prop
  | takePublishes (consumer : Consumer) :
      Stepped w (.takePublishes consumer)
        { w with
          signals := (publishesFor w.held w.signals consumer.filter).1
          opening := w.opening ++
            [(consumer, (publishesFor w.held w.signals consumer.filter).2)] }
  | takeConsumer {i : ℕ} {consumer : Consumer} {publishSignal : Signal}
      (hopening : w.opening[i]? = some (consumer, publishSignal)) :
      Stepped w (.takeConsumer i)
        { w with
          signals := (consumerSignal w.held w.signals consumer.id).1
          handles := w.handles ++
            [⟨consumer, publishSignal, (consumerSignal w.held w.signals consumer.id).2⟩]
          opening := w.opening.eraseIdx i }
  | clone {handle : Handle} (hlive : handle ∈ w.handles) :
      Stepped w (.clone handle) { w with handles := w.handles ++ [handle] }
  | drop {handle : Handle} (hlive : handle ∈ w.handles) :
      Stepped w (.drop handle)
        { w with
          handles := w.handles.erase handle
          closing := w.closing ++ [(handle.consumer.id, handle.consumerSignal)] }
  | release (i : ℕ) : Stepped w (.release i) { w with closing := w.closing.eraseIdx i }
  | publish {topics : List (Option String)} {order : List String}
      (horder : order.Perm topics.reduceOption.dedup) :
      Stepped w (.publish topics order)
        { w with
          signals := notify w.signals w.signals.allPublishes
          calls := w.calls ++ [⟨topics, .waiting order⟩] }
  | lock {p : ℕ} {topics : List (Option String)} {order : List String}
      (hcall : w.calls[p]? = some ⟨topics, .waiting order⟩) :
      Stepped w (.lock p) { w with calls := w.calls.set p ⟨topics, .raising order⟩ }
  | raise {p : ℕ} {topics : List (Option String)} {topic : String} {pending : List String}
      (hcall : w.calls[p]? = some ⟨topics, .raising (topic :: pending)⟩) :
      Stepped w (.raise p)
        { w with
          signals := notifyTopic w.held w.signals topic
          calls := w.calls.set p ⟨topics, .raising pending⟩ }
  | unlock {p : ℕ} {topics : List (Option String)}
      (hcall : w.calls[p]? = some ⟨topics, .raising []⟩) :
      Stepped w (.unlock p) { w with calls := w.calls.set p ⟨topics, .returned⟩ }
  | notifyConsumer (id : ℤ) :
      Stepped w (.notifyConsumer id)
        { w with signals := Signals.notifyConsumer w.held w.signals id }
  | notifyOwn {handle : Handle} (hlive : handle ∈ w.handles) :
      Stepped w (.notifyOwn handle)
        { w with signals := notify w.signals handle.consumerSignal }

/-- A step is one of the listed ones. -/
theorem step_cases {w w' : World} {action : Action} (h : step w action = some w') :
    Stepped w action w' := by
  unfold step at h
  split at h
  · split at h
    · obtain rfl := Option.some.inj h
      exact .takePublishes _
    · cases h
  · split at h
    · cases h
    · next hopening =>
      obtain rfl := Option.some.inj h
      exact .takeConsumer hopening
  · split at h
    · next hlive =>
      obtain rfl := Option.some.inj h
      exact .clone hlive
    · cases h
  · split at h
    · next hlive =>
      obtain rfl := Option.some.inj h
      exact .drop hlive
    · cases h
  · obtain rfl := Option.some.inj h
    exact .release _
  · split at h
    · next horder =>
      obtain rfl := Option.some.inj h
      exact .publish horder
    · cases h
  · split at h
    · next hcall =>
      split at h
      · obtain rfl := Option.some.inj h
        exact .lock hcall
      · cases h
    · cases h
  · split at h
    · next hcall =>
      obtain rfl := Option.some.inj h
      exact .raise hcall
    · cases h
  · split at h
    · next hcall =>
      obtain rfl := Option.some.inj h
      exact .unlock hcall
    · cases h
  · obtain rfl := Option.some.inj h
    exact .notifyConsumer _
  · split at h
    · next hlive =>
      obtain rfl := Option.some.inj h
      exact .notifyOwn hlive
    · cases h

/-- Registered signals are older than the next new one, and no two keys share one. -/
structure Apart (s : Signals) : Prop where
  lt_fresh : ∀ key signal, entry s key = some signal → signal < s.fresh
  unique : ∀ key key' signal, entry s key = some signal → entry s key' = some signal → key = key'

/-- Every strong reference is to the registered signal of its key. -/
structure Coherent (w : World) : Prop where
  registered : ∀ ref ∈ w.refs, entry w.signals ref.1 = some ref.2
  apart : Apart w.signals

section Entries

variable {s s' : Signals} {held : Signal → Bool} {key : Key} {signal : Signal}

/-- A new signal under one key, or none, keeps the registry apart. -/
theorem Apart.change (h : Apart s) (hfresh : s.fresh ≤ s'.fresh)
    (hentries : ∀ other signal, entry s' other = some signal → entry s other = some signal ∨
      (other = key ∧ signal = s.fresh ∧ s.fresh < s'.fresh)) : Apart s' where
  lt_fresh other signal hentry := by
    rcases hentries other signal hentry with hold | ⟨-, rfl, hlt⟩
    · exact (h.lt_fresh other signal hold).trans_le hfresh
    · exact hlt
  unique other other' signal hentry hentry' := by
    rcases hentries other signal hentry with hold | ⟨rfl, hnew, -⟩
    · rcases hentries other' signal hentry' with hold' | ⟨-, hnew', -⟩
      · exact h.unique other other' signal hold hold'
      · exact absurd (h.lt_fresh other signal hold) (hnew' ▸ Nat.lt_irrefl _)
    · rcases hentries other' signal hentry' with hold' | ⟨rfl, -, -⟩
      · exact absurd (h.lt_fresh other' signal hold') (hnew ▸ Nat.lt_irrefl _)
      · rfl

/-- A lookup leaves the other entries, and under its key the old signal or a new one. -/
theorem signalForKey_cases {κ : Type} [DecidableEq κ] {registry : κ → Option Signal}
    {key other : κ} {fresh signal : Signal}
    (h : (signalForKey held registry key fresh).1 other = some signal) :
    registry other = some signal ∨ (other = key ∧ signal = fresh ∧
      fresh < (signalForKey held registry key fresh).2.2) := by
  unfold signalForKey at h ⊢
  split at h
  · exact .inl h
  · dsimp only at h ⊢
    by_cases hkey : other = key
    · subst hkey
      rw [Function.update_self] at h
      exact .inr ⟨rfl, (Option.some.inj h).symm, Nat.lt_succ_self _⟩
    · rw [Function.update_of_ne hkey] at h
      exact .inl h

theorem signalForKey_fresh {κ : Type} [DecidableEq κ] (held : Signal → Bool)
    (registry : κ → Option Signal) (key : κ) (fresh : Signal) :
    fresh ≤ (signalForKey held registry key fresh).2.2 := by
  unfold signalForKey
  split
  · exact Nat.le_refl _
  · exact Nat.le_succ _

/-- What an open finds registered for publishes was registered before or is its own new signal. -/
theorem entry_publishesFor {filter : Filter}
    (h : entry (publishesFor held s filter).1 key = some signal) :
    entry s key = some signal ∨ (key = .publishes filter ∧ signal = s.fresh ∧
      s.fresh < (publishesFor held s filter).1.fresh) := by
  cases filter with
  | all => exact .inl h
  | topic topic =>
    rcases key with (_ | name) | id
    · exact .inl h
    · rcases signalForKey_cases h with hold | ⟨rfl, hnew, hlt⟩
      · exact .inl hold
      · exact .inr ⟨rfl, hnew, hlt⟩
    · exact .inl h

/-- What an open finds registered for consumers was registered before or is its own new signal. -/
theorem entry_consumerSignal {id : ℤ}
    (h : entry (consumerSignal held s id).1 key = some signal) :
    entry s key = some signal ∨ (key = .consumer id ∧ signal = s.fresh ∧
      s.fresh < (consumerSignal held s id).1.fresh) := by
  rcases key with (_ | name) | other
  · exact .inl h
  · exact .inl h
  · rcases signalForKey_cases h with hold | ⟨rfl, hnew, hlt⟩
    · exact .inl hold
    · exact .inr ⟨rfl, hnew, hlt⟩

/-- A send changes no entry. -/
theorem entry_notify (s : Signals) (signal : Signal) (key : Key) :
    entry (notify s signal) key = entry s key := by
  rcases key with (_ | name) | id <;> rfl

/-- Raising a topic registers nothing. -/
theorem entry_notifyTopic {topic : String}
    (h : entry (notifyTopic held s topic) key = some signal) : entry s key = some signal := by
  unfold notifyTopic at h
  split at h
  · rwa [entry_notify] at h
  · rcases key with (_ | name) | id
    · exact h
    · by_cases hname : name = topic
      · subst hname
        change Function.update s.topics name none name = some signal at h
        rw [Function.update_self] at h
        cases h
      · exact (Function.update_of_ne hname _ _).symm.trans h
    · exact h

/-- Raising a consumer registers nothing. -/
theorem entry_notifyConsumer {id : ℤ}
    (h : entry (Signals.notifyConsumer held s id) key = some signal) :
    entry s key = some signal := by
  unfold Signals.notifyConsumer at h
  split at h
  · rwa [entry_notify] at h
  · rcases key with (_ | name) | other
    · exact h
    · exact h
    · by_cases hid : other = id
      · subst hid
        change Function.update s.consumers other none other = some signal at h
        rw [Function.update_self] at h
        cases h
      · exact (Function.update_of_ne hid _ _).symm.trans h

theorem apart_publishesFor (h : Apart s) (held : Signal → Bool) (filter : Filter) :
    Apart (publishesFor held s filter).1 := by
  refine h.change ?_ fun _ _ hentry => entry_publishesFor hentry
  cases filter with
  | all => exact Nat.le_refl _
  | topic topic => exact signalForKey_fresh held s.topics topic s.fresh

theorem apart_consumerSignal (h : Apart s) (held : Signal → Bool) (id : ℤ) :
    Apart (consumerSignal held s id).1 :=
  h.change (signalForKey_fresh held s.consumers id s.fresh)
    fun _ _ hentry => entry_consumerSignal hentry

/-- A change that registers nothing keeps the registry apart. -/
theorem Apart.fewer (h : Apart s) (hfresh : s.fresh ≤ s'.fresh)
    (hentries : ∀ key signal, entry s' key = some signal → entry s key = some signal) :
    Apart s' :=
  @Apart.change s s' (.publishes .all) h hfresh
    fun other signal hentry => .inl (hentries other signal hentry)

theorem apart_notify (h : Apart s) (signal : Signal) : Apart (notify s signal) :=
  h.fewer (Nat.le_refl _) fun key _ hentry => (entry_notify s signal key).symm.trans hentry

theorem apart_notifyTopic (h : Apart s) (held : Signal → Bool) (topic : String) :
    Apart (notifyTopic held s topic) := by
  refine h.fewer ?_ fun _ _ hentry => entry_notifyTopic hentry
  unfold notifyTopic
  split <;> exact Nat.le_refl _

theorem apart_notifyConsumer (h : Apart s) (held : Signal → Bool) (id : ℤ) :
    Apart (Signals.notifyConsumer held s id) := by
  refine h.fewer ?_ fun _ _ hentry => entry_notifyConsumer hentry
  unfold Signals.notifyConsumer
  split <;> exact Nat.le_refl _

/-- What is held stays under its key. -/
theorem keeps_entry (h : Keeps held s s') (hentry : entry s key = some signal)
    (hheld : held signal = true) : entry s' key = some signal := by
  cases key with
  | publishes filter => exact h.publishes filter signal hentry hheld
  | consumer id => exact h.consumers id signal hentry hheld

end Entries

section Steps

variable {w w' : World} {signals : Signals} {action : Action}

/-- What is referred to is held. -/
theorem held_of_ref {ref : Key × Signal} (h : ref ∈ w.refs) : w.held ref.2 = true :=
  Bool.or_eq_true_iff.mpr (.inr (List.any_eq_true.mpr ⟨ref, h, beq_self_eq_true ref.2⟩))

/-- A reference is one of a handle, of an open or of a drop. -/
theorem mem_refs {ref : Key × Signal} : ref ∈ w.refs ↔
    (∃ handle ∈ w.handles, ref ∈ refs handle) ∨
      (∃ opened ∈ w.opening, (.publishes opened.1.filter, opened.2) = ref) ∨
        ∃ closed ∈ w.closing, (.consumer closed.1, closed.2) = ref := by
  rw [World.refs, List.mem_append, List.mem_append, List.mem_flatMap, List.mem_map, List.mem_map,
    or_assoc]

/-- A change that keeps what is held, and refers to nothing new that is not registered, keeps the
registry coherent. -/
theorem Coherent.keeps (h : Coherent w) (hkeeps : Keeps w.held w.signals w'.signals)
    (hapart : Apart w'.signals)
    (hrefs : ∀ ref ∈ w'.refs, ref ∈ w.refs ∨ entry w'.signals ref.1 = some ref.2) :
    Coherent w' where
  registered ref href := by
    rcases hrefs ref href with hold | hnew
    · exact keeps_entry hkeeps (h.registered ref hold) (held_of_ref hold)
    · exact hnew
  apart := hapart

/-- A change of the signals alone that keeps what is held keeps the registry coherent. -/
theorem Coherent.sent (h : Coherent w) (hkeeps : Keeps w.held w.signals signals)
    (hapart : Apart signals) (calls : List Call) :
    Coherent { w with signals := signals, calls := calls } :=
  Coherent.keeps h hkeeps hapart fun _ href => .inl href

theorem keeps_refl (held : Signal → Bool) (s : Signals) : Keeps held s s :=
  ⟨Later.refl s, fun _ _ hentry _ => hentry, fun _ _ hentry _ => hentry⟩

theorem coherent_initial : Coherent World.initial where
  registered _ href := absurd href List.not_mem_nil
  apart := by
    constructor
    · intro key signal hentry
      rcases key with (_ | name) | id
      · obtain rfl := Option.some.inj hentry
        exact Nat.zero_lt_one
      · cases hentry
      · cases hentry
    · intro key key' signal hentry hentry'
      rcases key with (_ | name) | id
      · rcases key' with (_ | name') | id'
        · rfl
        · cases hentry'
        · cases hentry'
      · cases hentry
      · cases hentry

/-- One step keeps the registry coherent. -/
theorem coherent_step (h : Coherent w) (hstep : step w action = some w') : Coherent w' := by
  cases step_cases hstep with
  | takePublishes consumer =>
    refine h.keeps (keeps_publishesFor w.held w.signals _) (apart_publishesFor h.apart _ _) ?_
    intro ref href
    rcases mem_refs.mp href with hhandle | ⟨opened, hopened, rfl⟩ | hclosed
    · exact .inl (mem_refs.mpr (.inl hhandle))
    · rcases List.mem_append.mp hopened with hold | hnew
      · exact .inl (mem_refs.mpr (.inr (.inl ⟨opened, hold, rfl⟩)))
      · obtain rfl := List.mem_singleton.mp hnew
        exact .inr (publishesFor_entry w.held w.signals consumer.filter)
    · exact .inl (mem_refs.mpr (.inr (.inr hclosed)))
  | @takeConsumer i consumer publishSignal hopening =>
    have hkeeps := keeps_consumerSignal w.held w.signals consumer.id
    refine h.keeps hkeeps (apart_consumerSignal h.apart _ _) ?_
    intro ref href
    rcases mem_refs.mp href with ⟨handle, hhandle, hmem⟩ | ⟨opened, hopened, rfl⟩ | hclosed
    · rcases List.mem_append.mp hhandle with hold | hnew
      · exact .inl (mem_refs.mpr (.inl ⟨handle, hold, hmem⟩))
      · obtain rfl := List.mem_singleton.mp hnew
        rcases List.mem_pair.mp hmem with rfl | rfl
        · exact .inl (mem_refs.mpr (.inr (.inl ⟨_, List.mem_of_getElem? hopening, rfl⟩)))
        · exact .inr (consumerSignal_entry w.held w.signals consumer.id)
    · exact .inl (mem_refs.mpr (.inr (.inl ⟨opened, List.mem_of_mem_eraseIdx hopened, rfl⟩)))
    · exact .inl (mem_refs.mpr (.inr (.inr hclosed)))
  | @clone handle hlive =>
    refine h.keeps (keeps_refl _ _) h.apart fun ref href => ?_
    rcases mem_refs.mp href with ⟨other, hother, hmem⟩ | hrest
    · rcases List.mem_append.mp hother with hold | hnew
      · exact .inl (mem_refs.mpr (.inl ⟨other, hold, hmem⟩))
      · obtain rfl := List.mem_singleton.mp hnew
        exact .inl (mem_refs.mpr (.inl ⟨other, hlive, hmem⟩))
    · exact .inl (mem_refs.mpr (.inr hrest))
  | @drop handle hlive =>
    refine h.keeps (keeps_refl _ _) h.apart fun ref href => ?_
    rcases mem_refs.mp href with ⟨other, hother, hmem⟩ | hopened | ⟨closed, hclosed, rfl⟩
    · exact .inl (mem_refs.mpr (.inl ⟨other, List.mem_of_mem_erase hother, hmem⟩))
    · exact .inl (mem_refs.mpr (.inr (.inl hopened)))
    · rcases List.mem_append.mp hclosed with hold | hnew
      · exact .inl (mem_refs.mpr (.inr (.inr ⟨closed, hold, rfl⟩)))
      · obtain rfl := List.mem_singleton.mp hnew
        exact .inl (mem_refs.mpr (.inl ⟨handle, hlive, List.mem_pair.mpr (.inr rfl)⟩))
  | release i =>
    refine h.keeps (keeps_refl _ _) h.apart fun ref href => ?_
    rcases mem_refs.mp href with hhandle | hopened | ⟨closed, hclosed, rfl⟩
    · exact .inl (mem_refs.mpr (.inl hhandle))
    · exact .inl (mem_refs.mpr (.inr (.inl hopened)))
    · exact .inl (mem_refs.mpr (.inr (.inr ⟨closed, List.mem_of_mem_eraseIdx hclosed, rfl⟩)))
  | publish _ => exact h.sent (keeps_notify _ _ _) (apart_notify h.apart _) _
  | lock _ => exact h.sent (keeps_refl _ _) h.apart _
  | raise _ => exact h.sent (keeps_notifyTopic _ _ _) (apart_notifyTopic h.apart _ _) _
  | unlock _ => exact h.sent (keeps_refl _ _) h.apart _
  | notifyConsumer id =>
    exact h.sent (keeps_notifyConsumer _ _ _) (apart_notifyConsumer h.apart _ _) _
  | notifyOwn _ => exact h.sent (keeps_notify _ _ _) (apart_notify h.apart _) _

/-- Every run keeps the registry coherent. -/
theorem coherent_run {moves : List Move} (hrun : Transition.Run sharing World.initial moves w) :
    Coherent w :=
  @Transition.Run.invariant _ _ _ _ _ _ Coherent hrun coherent_initial
    fun _ hvalid h => coherent_step h hvalid

end Steps

/-- The topics that a call has still to raise. -/
def CallStage.left : CallStage → List String
  | .waiting order => order
  | .raising pending => pending
  | .returned => []

/-- The move has raised the signal. -/
def Raised (move : Move) (signal : Signal) : Prop :=
  move.after.signals.generation signal = move.before.signals.generation signal + 1

/-- The move has not raised the signal. -/
def Unraised (move : Move) (signal : Signal) : Prop :=
  move.after.signals.generation signal = move.before.signals.generation signal

/-- A publish of the topics concerns the handle. -/
def Matches (topics : List (Option String)) (handle : Handle) : Prop :=
  match handle.consumer.filter with
  | .all => True
  | .topic topic => some topic ∈ topics

/-- The move is one of the notification of publishes with this number. -/
def OfCall (p : ℕ) (move : Move) : Prop :=
  (∃ topics order, move.action = .publish topics order ∧ move.before.calls.length = p) ∨
    move.action = .lock p ∨ move.action = .raise p ∨ move.action = .unlock p

/-- Live handles share a signal exactly when they share its key, and the registry maps their keys
to their signals. -/
structure Shares (w : World) : Prop where
  publishes : ∀ handle ∈ w.handles, ∀ other ∈ w.handles,
    handle.publishSignal = other.publishSignal ↔ handle.consumer.filter = other.consumer.filter
  consumers : ∀ handle ∈ w.handles, ∀ other ∈ w.handles,
    handle.consumerSignal = other.consumerSignal ↔ handle.consumer.id = other.consumer.id
  apart : ∀ handle ∈ w.handles, ∀ other ∈ w.handles, handle.publishSignal ≠ other.consumerSignal
  registered : ∀ handle ∈ w.handles, ∀ ref ∈ refs handle, entry w.signals ref.1 = some ref.2

/-- The notifications of publishes in a run. -/
structure RaisesPublishes (moves : List Move) : Prop where
  /-- A complete one raises the signal of every matching handle that lives through it. -/
  raises : ∀ past begin between finish future topics order,
    moves = past ++ begin :: (between ++ finish :: future) →
    begin.action = .publish topics order → finish.action = .unlock begin.before.calls.length →
    ∀ handle, (∀ move ∈ begin :: between, handle ∈ move.before.handles) → Matches topics handle →
      ∃ move ∈ begin :: between, OfCall begin.before.calls.length move ∧
        Raised move handle.publishSignal
  /-- None raises a signal of any other handle. -/
  spares : ∀ past begin later topics order, moves = past ++ begin :: later →
    begin.action = .publish topics order →
    ∀ move ∈ begin :: later, OfCall begin.before.calls.length move →
      ∀ handle ∈ move.before.handles,
        (¬Matches topics handle → Unraised move handle.publishSignal) ∧
          Unraised move handle.consumerSignal

/-- A notification of a consumer raises the signals of its live handles and no other. -/
def RaisesConsumer (moves : List Move) : Prop :=
  ∀ move ∈ moves, ∀ id, move.action = .notifyConsumer id → ∀ handle ∈ move.before.handles,
    (handle.consumer.id = id → Raised move handle.consumerSignal) ∧
      (handle.consumer.id ≠ id → Unraised move handle.consumerSignal) ∧
        Unraised move handle.publishSignal

section Raises

variable {w w' : World} {action : Action} {ref : Key × Signal} {key : Key}

/-- A send on a registered signal reaches the references of its key and no other. -/
theorem sent_entry (h : Coherent w) {signal : Signal} (hentry : entry w.signals key = some signal)
    (href : ref ∈ w.refs) :
    (ref.1 = key → (notify w.signals signal).generation ref.2 =
      w.signals.generation ref.2 + 1) ∧
    (ref.1 ≠ key → (notify w.signals signal).generation ref.2 = w.signals.generation ref.2) := by
  have hregistered := h.registered ref href
  constructor
  · rintro rfl
    obtain rfl := Option.some.inj (hregistered.symm.trans hentry)
    exact Function.update_self ..
  · intro hne
    refine Function.update_of_ne (fun hsame => hne ?_) _ _
    exact h.apart.unique ref.1 key signal (hsame ▸ hregistered) hentry

/-- What a send on the signal of a key does to a reference. -/
def Sends (w : World) (signals : Signals) (key : Key) : Prop :=
  ∀ ref ∈ w.refs,
    (ref.1 = key → signals.generation ref.2 = w.signals.generation ref.2 + 1) ∧
      (ref.1 ≠ key → signals.generation ref.2 = w.signals.generation ref.2)

/-- Raising what an entry upgrades to, and nothing when it has expired, sends on the key. -/
theorem sends_upgrade (h : Coherent w) {signals : Signals}
    (hfound : ∀ signal, upgrade w.held (entry w.signals key) = some signal →
      signals = notify w.signals signal)
    (hexpired : upgrade w.held (entry w.signals key) = none →
      signals.generation = w.signals.generation) : Sends w signals key := by
  intro ref href
  cases hentry : upgrade w.held (entry w.signals key) with
  | some signal =>
    rw [hfound signal hentry]
    exact sent_entry h (Option.filter_eq_some_iff.mp hentry).1 href
  | none =>
    refine ⟨?_, fun _ => congrFun (hexpired hentry) ref.2⟩
    rintro rfl
    have hheld : upgrade w.held (entry w.signals ref.1) = some ref.2 := by
      rw [upgrade, h.registered ref href, Option.filter_some_pos (held_of_ref href)]
    cases hheld.symm.trans hentry

theorem sends_notifyTopic (h : Coherent w) (topic : String) :
    Sends w (notifyTopic w.held w.signals topic) (.publishes (.topic topic)) := by
  refine sends_upgrade h (fun signal hfound => ?_) fun hexpired => ?_
  · have hfound : upgrade w.held (w.signals.topics topic) = some signal := hfound
    simp only [notifyTopic, hfound]
  · have hexpired : upgrade w.held (w.signals.topics topic) = none := hexpired
    simp only [notifyTopic, hexpired]

theorem sends_notifyConsumer (h : Coherent w) (id : ℤ) :
    Sends w (Signals.notifyConsumer w.held w.signals id) (.consumer id) := by
  refine sends_upgrade h (fun signal hfound => ?_) fun hexpired => ?_
  · have hfound : upgrade w.held (w.signals.consumers id) = some signal := hfound
    simp only [Signals.notifyConsumer, hfound]
  · have hexpired : upgrade w.held (w.signals.consumers id) = none := hexpired
    simp only [Signals.notifyConsumer, hexpired]

theorem sends_all (h : Coherent w) :
    Sends w (notify w.signals w.signals.allPublishes) (.publishes .all) :=
  fun _ href => sent_entry h rfl href

/-- The references of a live handle. -/
theorem refs_of_handle {handle : Handle} (h : handle ∈ w.handles) :
    (.publishes handle.consumer.filter, handle.publishSignal) ∈ w.refs ∧
      (.consumer handle.consumer.id, handle.consumerSignal) ∈ w.refs :=
  ⟨mem_refs.mpr (.inl ⟨handle, h, List.mem_pair.mpr (.inl rfl)⟩),
    mem_refs.mpr (.inl ⟨handle, h, List.mem_pair.mpr (.inr rfl)⟩)⟩

/-- A step leaves a call with its topics, and with all it has left but the topic it raises. -/
theorem call_step (hstep : step w action = some w') {p : ℕ} {call : Call}
    (hcall : w.calls[p]? = some call) :
    ∃ call', w'.calls[p]? = some call' ∧ call'.topics = call.topics ∧
      (∀ topic ∈ call'.stage.left, topic ∈ call.stage.left) ∧
      ∀ topic ∈ call.stage.left, topic ∈ call'.stage.left ∨
        action = .raise p ∧ ∃ pending, call.stage = .raising (topic :: pending) := by
  have hsame : w'.calls[p]? = some call → ∃ call', w'.calls[p]? = some call' ∧
      call'.topics = call.topics ∧ (∀ topic ∈ call'.stage.left, topic ∈ call.stage.left) ∧
      ∀ topic ∈ call.stage.left, topic ∈ call'.stage.left ∨
        action = .raise p ∧ ∃ pending, call.stage = .raising (topic :: pending) :=
    fun hkept => ⟨call, hkept, rfl, fun _ h => h, fun _ h => .inl h⟩
  have hlt := (List.getElem?_eq_some_iff.mp hcall).1
  cases step_cases hstep with
  | publish _ => exact hsame ((List.getElem?_append_left hlt).trans hcall)
  | @lock q topics order hq =>
    by_cases hpq : q = p
    · subst hpq
      obtain rfl := Option.some.inj (hcall.symm.trans hq)
      exact ⟨_, List.getElem?_set_self hlt, rfl, fun _ h => h, fun _ h => .inl h⟩
    · exact hsame ((List.getElem?_set_ne hpq).trans hcall)
  | @raise q topics topic pending hq =>
    by_cases hpq : q = p
    · subst hpq
      obtain rfl := Option.some.inj (hcall.symm.trans hq)
      refine ⟨_, List.getElem?_set_self hlt, rfl, fun _ h => List.mem_cons_of_mem _ h,
        fun other hother => ?_⟩
      rcases List.mem_cons.mp hother with rfl | hrest
      · exact .inr ⟨rfl, pending, rfl⟩
      · exact .inl hrest
    · exact hsame ((List.getElem?_set_ne hpq).trans hcall)
  | @unlock q topics hq =>
    by_cases hpq : q = p
    · subst hpq
      obtain rfl := Option.some.inj (hcall.symm.trans hq)
      exact ⟨_, List.getElem?_set_self hlt, rfl, fun _ h => h, fun _ h => .inl h⟩
    · exact hsame ((List.getElem?_set_ne hpq).trans hcall)
  | takePublishes _ => exact hsame hcall
  | takeConsumer _ => exact hsame hcall
  | clone _ => exact hsame hcall
  | drop _ => exact hsame hcall
  | release _ => exact hsame hcall
  | notifyConsumer _ => exact hsame hcall
  | notifyOwn _ => exact hsame hcall

/-- A call that has begun keeps its topics, and what it has left is among them. -/
theorem call_run {s : World} {moves : List Move} (hrun : Transition.Run sharing s moves w)
    {p : ℕ} {topics : List (Option String)}
    (h : ∃ call, s.calls[p]? = some call ∧ call.topics = topics ∧
      ∀ topic ∈ call.stage.left, some topic ∈ topics) :
    ∃ call, w.calls[p]? = some call ∧ call.topics = topics ∧
      ∀ topic ∈ call.stage.left, some topic ∈ topics := by
  refine @Transition.Run.invariant _ _ _ _ _ _ (fun w => ∃ call, w.calls[p]? = some call ∧
    call.topics = topics ∧ ∀ topic ∈ call.stage.left, some topic ∈ topics) hrun h ?_
  rintro move hvalid ⟨call, hcall, htopics, hleft⟩
  obtain ⟨call', hcall', htopics', hless, -⟩ := call_step hvalid hcall
  exact ⟨call', hcall', htopics'.trans htopics,
    fun topic htopic => hleft topic (hless topic htopic)⟩

/-- The first step of a notification raises the signal of all publishes and notes its topics. -/
theorem publish_step {topics : List (Option String)} {order : List String}
    (hstep : step w (.publish topics order) = some w') :
    w'.signals = notify w.signals w.signals.allPublishes ∧
      w'.calls[w.calls.length]? = some ⟨topics, .waiting order⟩ ∧
        ∀ topic, topic ∈ order ↔ some topic ∈ topics := by
  cases step_cases hstep with
  | publish horder =>
    refine ⟨rfl, List.getElem?_concat_length, fun topic => ?_⟩
    rw [horder.mem_iff, List.mem_dedup, List.reduceOption_mem_iff]

/-- A raise sends on the key of the topic at the front of its call. -/
theorem raise_step {p : ℕ} (hstep : step w (.raise p) = some w') :
    ∃ topics topic pending, w.calls[p]? = some ⟨topics, .raising (topic :: pending)⟩ ∧
      w'.signals = notifyTopic w.held w.signals topic := by
  cases step_cases hstep with
  | @raise _ topics topic pending hcall => exact ⟨topics, topic, pending, hcall, rfl⟩

/-- Taking and leaving the mutex raises nothing. -/
theorem mutex_step {p : ℕ} (hstep : step w action = some w')
    (haction : action = .lock p ∨ action = .unlock p) : w'.signals = w.signals := by
  rcases haction with rfl | rfl
  · cases step_cases hstep
    rfl
  · cases step_cases hstep
    rfl

/-- A notification leaves the mutex when it has raised all its topics. -/
theorem unlock_step {p : ℕ} (hstep : step w (.unlock p) = some w') :
    ∃ topics, w.calls[p]? = some ⟨topics, .raising []⟩ := by
  cases step_cases hstep with
  | @unlock _ topics hcall => exact ⟨topics, hcall⟩

end Raises

section Runs

variable {w : World} {moves : List Move}

/-- Live handles share what they should. -/
theorem shares_of_coherent (h : Coherent w) : Shares w where
  publishes handle hhandle other hother := by
    have hown := h.registered _ (refs_of_handle hhandle).1
    have hforeign := h.registered _ (refs_of_handle hother).1
    constructor
    · intro hsame
      have hkey := h.apart.unique _ _ _ hown (hsame ▸ hforeign)
      exact Key.publishes.inj hkey
    · intro hfilter
      rw [hfilter] at hown
      exact Option.some.inj (hown.symm.trans hforeign)
  consumers handle hhandle other hother := by
    have hown := h.registered _ (refs_of_handle hhandle).2
    have hforeign := h.registered _ (refs_of_handle hother).2
    constructor
    · intro hsame
      have hkey := h.apart.unique _ _ _ hown (hsame ▸ hforeign)
      exact Key.consumer.inj hkey
    · intro hid
      rw [hid] at hown
      exact Option.some.inj (hown.symm.trans hforeign)
  apart handle hhandle other hother hsame := by
    have hkey := h.apart.unique _ _ _ (h.registered _ (refs_of_handle hhandle).1)
      (hsame ▸ h.registered _ (refs_of_handle hother).2)
    cases hkey
  registered handle hhandle ref href :=
    h.registered ref (mem_refs.mpr (.inl ⟨handle, hhandle, href⟩))

/-- Every move of a run starts from a coherent registry. -/
theorem coherent_before (hrun : Transition.Run sharing World.initial moves w) {move : Move}
    (hmem : move ∈ moves) :
    Coherent move.before ∧ step move.before move.action = some move.after := by
  obtain ⟨past, future, rfl⟩ := List.append_of_mem hmem
  obtain ⟨hbefore, hvalid, -⟩ := hrun.around
  exact ⟨coherent_run hbefore, hvalid⟩

/-- Notifications of consumers raise the signals of their handles. -/
theorem raisesConsumer_run (hrun : Transition.Run sharing World.initial moves w) :
    RaisesConsumer moves := by
  intro move hmem id haction handle hhandle
  obtain ⟨hcoherent, hstep⟩ := coherent_before hrun hmem
  obtain ⟨before, action, after⟩ := move
  dsimp only at haction hhandle hcoherent hstep
  subst haction
  cases step_cases hstep
  obtain ⟨hpublish, hconsumer⟩ := refs_of_handle hhandle
  have hsends := sends_notifyConsumer hcoherent id
  refine ⟨fun hid => (hsends _ hconsumer).1 (congrArg Key.consumer hid), fun hid => ?_, ?_⟩
  · exact (hsends _ hconsumer).2 fun hkey => hid (Key.consumer.inj hkey)
  · exact (hsends _ hpublish).2 fun hkey => by cases hkey

/-- A call raises only topics it began with. -/
theorem listed_of_raise {past later : List Move} {begin move : Move}
    {topics called : List (Option String)} {order pending : List String} {topic : String}
    (hrun : Transition.Run sharing World.initial (past ++ begin :: later) w)
    (hbegin : begin.action = .publish topics order) (hmem : move ∈ begin :: later)
    (haction : move.action = .raise begin.before.calls.length)
    (hcall : move.before.calls[begin.before.calls.length]? =
      some ⟨called, .raising (topic :: pending)⟩) : some topic ∈ topics := by
  obtain ⟨-, hstep, hrest⟩ := hrun.around
  have hlater : move ∈ later := by
    rcases List.mem_cons.mp hmem with rfl | hlater
    · cases hbegin.symm.trans haction
    · exact hlater
  obtain ⟨pre, post, rfl⟩ := List.append_of_mem hlater
  obtain ⟨hpre, -, -⟩ := hrest.around
  change step begin.before begin.action = some begin.after at hstep
  rw [hbegin] at hstep
  obtain ⟨-, hbegun, horder⟩ := publish_step hstep
  obtain ⟨call, hcall', -, hleft⟩ := call_run hpre
    ⟨_, hbegun, rfl, fun topic htopic => (horder topic).mp htopic⟩
  obtain rfl := Option.some.inj (hcall'.symm.trans hcall)
  exact hleft topic List.mem_cons_self

/-- What a send on the signal of a filter does to the signals of a live handle. -/
theorem sends_handle {move : Move} {filter : Filter}
    (hsends : Sends move.before move.after.signals (.publishes filter)) {handle : Handle}
    (hhandle : handle ∈ move.before.handles) :
    (handle.consumer.filter = filter → Raised move handle.publishSignal) ∧
      (handle.consumer.filter ≠ filter → Unraised move handle.publishSignal) ∧
        Unraised move handle.consumerSignal := by
  obtain ⟨hpublish, hconsumer⟩ := refs_of_handle hhandle
  refine ⟨fun hfilter => ?_, fun hother => ?_, ?_⟩
  · exact (hsends _ hpublish).1 (congrArg Key.publishes hfilter)
  · exact (hsends _ hpublish).2 fun hkey => hother (Key.publishes.inj hkey)
  · exact (hsends _ hconsumer).2 fun hkey => by cases hkey

/-- A topic that a call has left is raised before the call leaves the mutex. -/
theorem raised_before_unlock {s last : World} (hrun : Transition.Run sharing s moves w) {p : ℕ}
    {call : Call} {topic : String} (hcall : s.calls[p]? = some call)
    (hleft : topic ∈ call.stage.left) (hunlock : step w (.unlock p) = some last) :
    ∃ pre move post, moves = pre ++ move :: post ∧ move.action = .raise p ∧
      ∃ topics pending, move.before.calls[p]? = some ⟨topics, .raising (topic :: pending)⟩ := by
  -- the topic is left over at first, and no more when the mutex is released
  let done : World → Prop := fun w => ∀ call, w.calls[p]? = some call → topic ∉ call.stage.left
  have hfirst : ¬done s := fun hnone => hnone call hcall hleft
  have hdone : done w := by
    intro call hcall
    obtain ⟨called, hraised⟩ := unlock_step hunlock
    obtain rfl := Option.some.inj (hcall.symm.trans hraised)
    exact List.not_mem_nil
  obtain ⟨pre, move, post, rfl, hpending, hgone⟩ := hrun.exists_gain hfirst hdone
  obtain ⟨-, hstep, -⟩ := hrun.around
  simp only [done, not_forall, not_not] at hpending
  obtain ⟨⟨topics, stage⟩, hbefore, htopic⟩ := hpending
  obtain ⟨call', hafter, -, -, hkept⟩ := call_step hstep hbefore
  obtain ⟨haction, pending, rfl⟩ := (hkept topic htopic).resolve_left (hgone call' hafter)
  exact ⟨pre, move, post, rfl, haction, topics, pending, hbefore⟩

/-- Notifications of publishes raise the signals of the matching handles. -/
theorem raisesPublishes_run (hrun : Transition.Run sharing World.initial moves w) :
    RaisesPublishes moves where
  raises past begin between finish future topics order hmoves hbegin hfinish handle hlive
      hmatches := by
    subst hmoves
    obtain ⟨-, hstep, hrest⟩ := hrun.around
    obtain ⟨last, hbetween, htail⟩ := hrest.split
    obtain ⟨rfl, hlast, -⟩ := htail.cons_inv
    change step begin.before begin.action = some begin.after at hstep
    change step finish.before finish.action = some finish.after at hlast
    rw [hbegin] at hstep
    rw [hfinish] at hlast
    obtain ⟨hsignals, hcall, horder⟩ := publish_step hstep
    unfold Matches at hmatches
    cases hfilter : handle.consumer.filter with
    | all =>
      obtain ⟨hcoherent, -⟩ := coherent_before hrun
        (List.mem_append_right past (List.mem_cons_self (a := begin)))
      have hsends := hsignals ▸ sends_all hcoherent
      exact ⟨begin, List.mem_cons_self, .inl ⟨topics, order, hbegin, rfl⟩,
        (sends_handle hsends (hlive begin List.mem_cons_self)).1 hfilter⟩
    | topic topic =>
      rw [hfilter] at hmatches
      obtain ⟨pre, move, post, rfl, haction, called, pending, hraising⟩ :=
        raised_before_unlock hbetween hcall ((horder topic).mpr hmatches) hlast
      have hmem : move ∈ past ++ begin :: ((pre ++ move :: post) ++ finish :: future) := by simp
      obtain ⟨hcoherent, hraise⟩ := coherent_before hrun hmem
      rw [haction] at hraise
      obtain ⟨called', front, rest, hfront, hraised⟩ := raise_step hraise
      obtain ⟨-, hstage⟩ := Call.mk.inj (Option.some.inj (hraising.symm.trans hfront))
      obtain ⟨rfl, -⟩ := List.cons.inj (CallStage.raising.inj hstage)
      have hsends := hraised ▸ sends_notifyTopic hcoherent topic
      exact ⟨move, by simp, .inr (.inr (.inl haction)),
        (sends_handle hsends (hlive move (by simp))).1 hfilter⟩
  spares past begin later topics order hmoves hbegin move hmem hown handle hhandle := by
    subst hmoves
    obtain ⟨hcoherent, hstep⟩ := coherent_before hrun (List.mem_append_right past hmem)
    have hnone : move.after.signals = move.before.signals →
        (¬Matches topics handle → Unraised move handle.publishSignal) ∧
          Unraised move handle.consumerSignal := fun hsame =>
      ⟨fun _ => congrArg (Signals.generation · handle.publishSignal) hsame,
        congrArg (Signals.generation · handle.consumerSignal) hsame⟩
    rcases hown with ⟨other, order', haction, -⟩ | haction | haction | haction
    · rw [haction] at hstep
      obtain ⟨hsignals, -, -⟩ := publish_step hstep
      have hsends := hsignals ▸ sends_all hcoherent
      obtain ⟨-, hspared, hconsumer⟩ := sends_handle hsends hhandle
      refine ⟨fun hother => hspared fun hfilter => hother ?_, hconsumer⟩
      unfold Matches
      rw [hfilter]
      trivial
    · exact hnone (mutex_step hstep (.inl haction))
    · rw [haction] at hstep
      obtain ⟨called, topic, pending, hcall, hsignals⟩ := raise_step hstep
      have hsends := hsignals ▸ sends_notifyTopic hcoherent topic
      obtain ⟨-, hspared, hconsumer⟩ := sends_handle hsends hhandle
      refine ⟨fun hother => hspared fun hfilter => hother ?_, hconsumer⟩
      unfold Matches
      rw [hfilter]
      exact listed_of_raise hrun hbegin hmem haction hcall
    · exact hnone (mutex_step hstep (.inr haction))

/-- In every run live handles share a signal exactly when they share its key, the registry maps
their keys to their signals, and a notification raises the signals of the live handles it concerns
and of no other. -/
theorem registry_coherent (hrun : Transition.Run sharing World.initial moves w) :
    Shares w ∧ RaisesPublishes moves ∧ RaisesConsumer moves :=
  ⟨shares_of_coherent (coherent_run hrun), raisesPublishes_run hrun, raisesConsumer_run hrun⟩

end Runs

/-- Two handles are opened, and a publish of the topic of one is notified. -/
def openedTwo : List Action :=
  [.takePublishes ⟨1, "jobs", .topic "a"⟩, .takeConsumer 0, .takePublishes ⟨2, "log", .all⟩,
    .takeConsumer 0, .publish [some "a", none] ["a"], .lock 0, .raise 0, .unlock 0]

set_option maxRecDepth 10000 in
/-- They share no signal, and both publish signals are raised once. -/
theorem registry_coherent_two : ∃ moves w, Transition.Run sharing World.initial moves w ∧
    w.handles.map (fun handle => w.signals.generation handle.publishSignal) = [1, 1] ∧
    Shares w ∧ RaisesPublishes moves ∧ RaisesConsumer moves := by
  obtain ⟨moves, w, hplay, hraised⟩ : ∃ moves w,
      Transition.play step openedTwo World.initial = some (moves, w) ∧
      w.handles.map (fun handle => w.signals.generation handle.publishSignal) = [1, 1] :=
    ⟨_, _, rfl, rfl⟩
  have hrun := Transition.play_run hplay
  exact ⟨moves, w, hrun, hraised, registry_coherent hrun⟩

end LiteFan.Registry

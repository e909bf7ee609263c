import LiteFan.Registry
import Mathlib.Data.Set.Card

/-!
# The size of the registry

An entry is made when a signal is first taken and goes when a notification or
another open finds it expired. Dropping a handle touches no registry, so the
entries outnumber the live handles as soon as the last handle of a topic or of a
consumer is dropped, and as long as nobody asks for the key again.
-/

namespace LiteFan.RegistrySize

open LiteFan.Api LiteFan.Signals LiteFan.Registry
open LiteFan.Wakeups (Handle)

/-- A whole operation on the registry. -/
inductive Operation where
  | openConsumer (consumer : Consumer)
  | clone (handle : Handle)
  | drop (handle : Handle)
  /-- A publish that has inserted messages of the topics, in the order of a hash set. -/
  | publish (topics : List (Option String)) (order : List String)
  /-- A nack, archive or redrive that applied, or a drain that changed the row. -/
  | notifyOwn (handle : Handle)
  | deleteConsumer (id : ℤ)

/-- The steps of an operation. -/
def steps (w : World) : Operation → List Action
  | .openConsumer consumer => [.takePublishes consumer, .takeConsumer w.opening.length]
  | .clone handle => [.clone handle]
  | .drop handle => [.drop handle, .release w.closing.length]
  | .publish topics order =>
    .publish topics order :: .lock w.calls.length ::
      (order.map fun _ => .raise w.calls.length) ++ [.unlock w.calls.length]
  | .notifyOwn handle => [.notifyOwn handle]
  | .deleteConsumer id => [.notifyConsumer id]

/-- Run an operation with nothing else happening in between. -/
def operate (w : World) (operation : Operation) : Option World :=
  (Transition.play step (steps w operation) w).map Prod.snd

/-- One operation that has happened. -/
abbrev Move := Transition.Move World Operation

/-- Operations one after the other. -/
abbrev operating : Transition.System World Move := Transition.labelled operate

/-- The topics with an entry. -/
def registeredTopics (w : World) : Set String := {topic | (w.signals.topics topic).isSome = true}

/-- The topics with a live handle. -/
def liveTopics (w : World) : Set String :=
  {topic | ∃ handle ∈ w.handles, handle.consumer.filter = .topic topic}

/-- The consumers with an entry. -/
def registeredConsumers (w : World) : Set ℤ := {id | (w.signals.consumers id).isSome = true}

/-- The consumers with a live handle. -/
def liveConsumers (w : World) : Set ℤ := {id | ∃ handle ∈ w.handles, handle.consumer.id = id}

/-- Neither registry has more entries than there are topics or consumers with a live handle. -/
structure Bounded (w : World) : Prop where
  topics : (registeredTopics w).encard ≤ (liveTopics w).encard
  consumers : (registeredConsumers w).encard ≤ (liveConsumers w).encard

/-- The operation drops the last handle of a topic or of a consumer. -/
def DropsLast (move : Move) : Prop :=
  ∃ handle, move.action = .drop handle ∧
    ((∃ topic, handle.consumer.filter = .topic topic ∧
      ∀ other ∈ move.before.handles.erase handle, other.consumer.filter ≠ .topic topic) ∨
    ∀ other ∈ move.before.handles.erase handle, other.consumer.id ≠ handle.consumer.id)

section Tight

variable {w w' : World} {action : Action} {key : Key}

/-- Something refers to the key. -/
def Referred (w : World) (key : Key) : Prop := ∃ ref ∈ w.refs, ref.1 = key

/-- Every entry of a topic or a consumer is still referred to. -/
def Tight (w : World) : Prop :=
  ∀ key, (entry w.signals key).isSome = true → key = .publishes .all ∨ Referred w key

/-- No open and no drop is half done. -/
def Settled (w : World) : Prop := w.opening = [] ∧ w.closing = []

/-- In a settled state the references are those of the live handles. -/
theorem referred_iff (h : Settled w) : Referred w key ↔
    ∃ handle ∈ w.handles, key = .publishes handle.consumer.filter ∨
      key = .consumer handle.consumer.id := by
  constructor
  · rintro ⟨ref, href, rfl⟩
    rcases mem_refs.mp href with ⟨handle, hhandle, hmem⟩ | ⟨opened, hopened, -⟩ |
      ⟨closed, hclosed, -⟩
    · rcases List.mem_pair.mp hmem with rfl | rfl
      · exact ⟨handle, hhandle, .inl rfl⟩
      · exact ⟨handle, hhandle, .inr rfl⟩
    · rw [h.1] at hopened
      exact absurd hopened List.not_mem_nil
    · rw [h.2] at hclosed
      exact absurd hclosed List.not_mem_nil
  · rintro ⟨handle, hhandle, rfl | rfl⟩
    · exact ⟨_, (refs_of_handle hhandle).1, rfl⟩
    · exact ⟨_, (refs_of_handle hhandle).2, rfl⟩

/-- Every live handle has its entries. -/
theorem live_subset (h : Coherent w) :
    liveTopics w ⊆ registeredTopics w ∧ liveConsumers w ⊆ registeredConsumers w := by
  constructor
  · rintro topic ⟨handle, hhandle, hfilter⟩
    have hentry := h.registered _ (refs_of_handle hhandle).1
    rw [hfilter] at hentry
    exact Option.isSome_iff_exists.mpr ⟨_, hentry⟩
  · rintro id ⟨handle, hhandle, rfl⟩
    exact Option.isSome_iff_exists.mpr ⟨_, h.registered _ (refs_of_handle hhandle).2⟩

/-- The live handles are finitely many. -/
theorem live_finite (w : World) : (liveTopics w).Finite ∧ (liveConsumers w).Finite := by
  constructor
  · have hfilters :=
      (w.handles.map fun handle => handle.consumer.filter.asDatabaseValue).finite_toSet
    refine (hfilters.preimage (Option.some_injective _).injOn).subset ?_
    rintro topic ⟨handle, hhandle, hfilter⟩
    exact List.mem_map.mpr ⟨handle, hhandle, by rw [hfilter]; rfl⟩
  · refine (w.handles.map fun handle => handle.consumer.id).finite_toSet.subset ?_
    rintro id ⟨handle, hhandle, rfl⟩
    exact List.mem_map.mpr ⟨handle, hhandle, rfl⟩

/-- The bound holds exactly when every entry belongs to a live handle. -/
theorem bounded_iff_tight (hcoherent : Coherent w) (hsettled : Settled w) :
    Bounded w ↔ Tight w := by
  obtain ⟨htopics, hconsumers⟩ := live_subset hcoherent
  obtain ⟨hfinite, hfinite'⟩ := live_finite w
  constructor
  · intro hbounded key hentry
    have hsame := hfinite.eq_of_subset_of_encard_le htopics hbounded.topics
    have hsame' := hfinite'.eq_of_subset_of_encard_le hconsumers hbounded.consumers
    rcases key with (_ | topic) | id
    · exact .inl rfl
    · obtain ⟨handle, hhandle, hfilter⟩ : topic ∈ liveTopics w := hsame ▸ hentry
      exact .inr ((referred_iff hsettled).mpr ⟨handle, hhandle, .inl (by rw [hfilter])⟩)
    · obtain ⟨handle, hhandle, hid⟩ : id ∈ liveConsumers w := hsame' ▸ hentry
      exact .inr ((referred_iff hsettled).mpr ⟨handle, hhandle, .inr (by rw [hid])⟩)
  · intro htight
    constructor
    · refine Set.encard_le_encard fun topic hentry => ?_
      rcases htight (.publishes (.topic topic)) hentry with hall | hreferred
      · cases hall
      · obtain ⟨handle, hhandle, hkey | hkey⟩ := (referred_iff hsettled).mp hreferred
        · exact ⟨handle, hhandle, (Key.publishes.inj hkey).symm⟩
        · cases hkey
    · refine Set.encard_le_encard fun id hentry => ?_
      rcases htight (.consumer id) hentry with hall | hreferred
      · cases hall
      · obtain ⟨handle, hhandle, hkey | hkey⟩ := (referred_iff hsettled).mp hreferred
        · cases hkey
        · exact ⟨handle, hhandle, (Key.consumer.inj hkey).symm⟩

/-- An entry that a step leaves was there before, or belongs to a reference it has taken. -/
theorem entry_step (hstep : step w action = some w')
    (hentry : (entry w'.signals key).isSome = true) :
    (entry w.signals key).isSome = true ∨ Referred w' key := by
  obtain ⟨signal, hentry⟩ := Option.isSome_iff_exists.mp hentry
  have hold : entry w.signals key = some signal →
      (entry w.signals key).isSome = true ∨ Referred w' key :=
    fun h => .inl (Option.isSome_iff_exists.mpr ⟨signal, h⟩)
  cases step_cases hstep with
  | takePublishes consumer =>
    rcases entry_publishesFor hentry with h | ⟨rfl, -, -⟩
    · exact hold h
    · exact .inr ⟨_, mem_refs.mpr (.inr (.inl
        ⟨_, List.mem_append_right _ (List.mem_singleton.mpr rfl), rfl⟩)), rfl⟩
  | takeConsumer hopening =>
    rcases entry_consumerSignal hentry with h | ⟨rfl, -, -⟩
    · exact hold h
    · exact .inr ⟨_, (refs_of_handle
        (List.mem_append_right _ (List.mem_singleton.mpr rfl))).2, rfl⟩
  | publish _ => exact hold ((entry_notify _ _ _).symm.trans hentry)
  | raise _ => exact hold (entry_notifyTopic hentry)
  | notifyConsumer id => exact hold (entry_notifyConsumer hentry)
  | notifyOwn _ => exact hold ((entry_notify _ _ _).symm.trans hentry)
  | clone _ => exact hold hentry
  | drop _ => exact hold hentry
  | release _ => exact hold hentry
  | lock _ => exact hold hentry
  | unlock _ => exact hold hentry

/-- A step that keeps every referred key referred keeps the registry tight. -/
theorem Tight.step (h : Tight w) (hstep : step w action = some w')
    (hretains : ∀ key, Referred w key → key = .publishes .all ∨ Referred w' key) : Tight w' := by
  intro key hentry
  rcases entry_step hstep hentry with hold | hreferred
  · rcases h key hold with hall | hreferred
    · exact .inl hall
    · exact hretains key hreferred
  · exact .inr hreferred

/-- The action raises signals or moves the mutex. -/
def notifies : Action → Bool
  | .publish _ _ | .lock _ | .raise _ | .unlock _ | .notifyConsumer _ | .notifyOwn _ => true
  | _ => false

/-- The two worlds have the same references. -/
structure SameRefs (w w' : World) : Prop where
  handles : w'.handles = w.handles
  opening : w'.opening = w.opening
  closing : w'.closing = w.closing

/-- A notification changes no reference. -/
theorem sameRefs_step (hstep : step w action = some w') (hnotifies : notifies action = true) :
    SameRefs w w' := by
  cases step_cases hstep with
  | takePublishes _ => cases hnotifies
  | takeConsumer _ => cases hnotifies
  | clone _ => cases hnotifies
  | drop _ => cases hnotifies
  | release _ => cases hnotifies
  | publish _ => exact ⟨rfl, rfl, rfl⟩
  | lock _ => exact ⟨rfl, rfl, rfl⟩
  | raise _ => exact ⟨rfl, rfl, rfl⟩
  | unlock _ => exact ⟨rfl, rfl, rfl⟩
  | notifyConsumer _ => exact ⟨rfl, rfl, rfl⟩
  | notifyOwn _ => exact ⟨rfl, rfl, rfl⟩

theorem SameRefs.refs (h : SameRefs w w') : w'.refs = w.refs := by
  rw [World.refs, World.refs, h.handles, h.opening, h.closing]

/-- Notifications one after the other change no reference and keep the registry tight. -/
theorem sameRefs_play {actions : List Action} {moves : List Registry.Move}
    (hplay : Transition.play step actions w = some (moves, w'))
    (hnotifies : ∀ action ∈ actions, notifies action = true) :
    SameRefs w w' ∧ (Tight w → Tight w') := by
  obtain ⟨hrun, hactions⟩ := Transition.play_spec hplay
  refine @Transition.Run.invariant_mem _ _ _ _ _ _
    (fun v => SameRefs w v ∧ (Tight w → Tight v)) hrun ⟨⟨rfl, rfl, rfl⟩, id⟩ ?_
  rintro move hmem hvalid ⟨hsame, htight⟩
  have haction := hnotifies move.action (hactions ▸ List.mem_map_of_mem hmem)
  have hframe := sameRefs_step hvalid haction
  refine ⟨⟨hframe.handles.trans hsame.handles, hframe.opening.trans hsame.opening,
    hframe.closing.trans hsame.closing⟩, fun h => (htight h).step hvalid ?_⟩
  rintro key ⟨ref, href, hkey⟩
  exact .inr ⟨ref, hframe.refs ▸ href, hkey⟩

end Tight

section Operations

variable {w w' : World} {operation : Operation}

/-- An operation is the run of its steps. -/
theorem play_of_operate (h : operate w operation = some w') :
    ∃ moves, Transition.play step (steps w operation) w = some (moves, w') := by
  obtain ⟨⟨moves, last⟩, hplay, hlast⟩ := Option.map_eq_some_iff.mp h
  exact ⟨moves, hlast ▸ hplay⟩

/-- Operations one after the other are a run of their steps. -/
theorem steps_run {moves : List Move}
    (hrun : Transition.Run operating World.initial moves w) :
    ∃ moves, Transition.Run sharing World.initial moves w := by
  refine @Transition.Run.invariant _ _ _ _ _ _
    (fun w => ∃ moves, Transition.Run sharing World.initial moves w) hrun ⟨[], .nil⟩ ?_
  rintro move hvalid ⟨past, hpast⟩
  obtain ⟨moves, hplay⟩ := play_of_operate hvalid
  exact ⟨_, hpast.append (Transition.play_run hplay)⟩

/-- What an open leaves. -/
theorem open_after {consumer : Consumer} (hsettled : Settled w)
    (h : operate w (.openConsumer consumer) = some w') :
    Settled w' ∧ (Tight w → Tight w') := by
  obtain ⟨hopening, hclosing⟩ := hsettled
  obtain ⟨moves, hplay⟩ := play_of_operate h
  obtain ⟨t, rest, hfirst, hplay, -⟩ := Transition.play_cons.mp hplay
  obtain ⟨last, rest, hsecond, hplay, -⟩ := Transition.play_cons.mp hplay
  cases hplay
  have htook := step_cases hfirst
  have hreturned := step_cases hsecond
  cases htook
  cases hreturned with
  | takeConsumer hopened =>
    simp only [hopening, List.nil_append, List.length_nil, List.getElem?_cons_zero,
      Option.some.injEq, Prod.mk.injEq] at hopened
    obtain ⟨rfl, rfl⟩ := hopened
    refine ⟨⟨?_, hclosing⟩, fun htight => (htight.step hfirst ?_).step hsecond ?_⟩
    · change (w.opening ++ [_]).eraseIdx w.opening.length = []
      rw [hopening]
      rfl
    · rintro key ⟨ref, href, rfl⟩
      refine .inr ⟨ref, mem_refs.mpr ?_, rfl⟩
      rcases mem_refs.mp href with hhandle | ⟨opened, hopened, hkey⟩ | hclosed
      · exact .inl hhandle
      · exact .inr (.inl ⟨opened, List.mem_append_left _ hopened, hkey⟩)
      · exact .inr (.inr hclosed)
    · rintro key ⟨ref, href, rfl⟩
      rcases mem_refs.mp href with ⟨handle, hhandle, hmem⟩ | ⟨opened, hopened, rfl⟩ | hclosed
      · exact .inr ⟨ref, mem_refs.mpr (.inl ⟨handle, List.mem_append_left _ hhandle, hmem⟩), rfl⟩
      · rw [hopening, List.nil_append] at hopened
        obtain rfl := List.mem_singleton.mp hopened
        exact .inr ⟨_, (refs_of_handle
          (List.mem_append_right _ (List.mem_singleton.mpr rfl))).1, rfl⟩
      · exact .inr ⟨ref, mem_refs.mpr (.inr (.inr hclosed)), rfl⟩

/-- What a clone leaves. -/
theorem clone_after {handle : Handle} (hsettled : Settled w)
    (h : operate w (.clone handle) = some w') : Settled w' ∧ (Tight w → Tight w') := by
  obtain ⟨moves, hplay⟩ := play_of_operate h
  obtain ⟨t, rest, hfirst, hplay, -⟩ := Transition.play_cons.mp hplay
  cases hplay
  cases step_cases hfirst
  refine ⟨hsettled, fun htight => htight.step hfirst ?_⟩
  rintro key ⟨ref, href, rfl⟩
  refine .inr ⟨ref, mem_refs.mpr ?_, rfl⟩
  rcases mem_refs.mp href with ⟨other, hother, hmem⟩ | hrest
  · exact .inl ⟨other, List.mem_append_left _ hother, hmem⟩
  · exact .inr hrest

/-- A drop takes one handle away and leaves the registry alone. -/
theorem drop_after {handle : Handle} (hsettled : Settled w)
    (h : operate w (.drop handle) = some w') :
    handle ∈ w.handles ∧ Settled w' ∧ w'.handles = w.handles.erase handle ∧
      w'.signals = w.signals := by
  obtain ⟨hopening, hclosing⟩ := hsettled
  obtain ⟨moves, hplay⟩ := play_of_operate h
  obtain ⟨t, rest, hfirst, hplay, -⟩ := Transition.play_cons.mp hplay
  obtain ⟨last, rest, hsecond, hplay, -⟩ := Transition.play_cons.mp hplay
  cases hplay
  cases step_cases hfirst with
  | drop hlive =>
    cases step_cases hsecond
    refine ⟨hlive, ⟨hopening, ?_⟩, rfl, rfl⟩
    change (w.closing ++ [_]).eraseIdx w.closing.length = []
    rw [hclosing]
    rfl

/-- What notifications leave. -/
theorem notified_after {actions : List Action} (hsettled : Settled w)
    {moves : List Registry.Move} (hplay : Transition.play step actions w = some (moves, w'))
    (hnotifies : ∀ action ∈ actions, notifies action = true) :
    Settled w' ∧ (Tight w → Tight w') := by
  obtain ⟨hsame, htight⟩ := sameRefs_play hplay hnotifies
  exact ⟨⟨hsame.opening.trans hsettled.1, hsame.closing.trans hsettled.2⟩, htight⟩

/-- Every step of a publish is a notification. -/
theorem publish_notifies {topics : List (Option String)} {order : List String} :
    ∀ action ∈ steps w (.publish topics order), notifies action = true := by
  intro action haction
  simp only [steps, List.cons_append, List.mem_cons, List.mem_append, List.mem_map,
    List.not_mem_nil, or_false] at haction
  rcases haction with rfl | rfl | ⟨topic, -, rfl⟩ | rfl <;> rfl

/-- An operation ends settled, and keeps the registry tight unless it drops a last handle. -/
theorem operate_after (hsettled : Settled w) (h : operate w operation = some w') :
    Settled w' ∧ (Tight w → ¬DropsLast ⟨w, operation, w'⟩ → Tight w') := by
  cases operation with
  | openConsumer consumer =>
    obtain ⟨hafter, htight⟩ := open_after hsettled h
    exact ⟨hafter, fun hbefore _ => htight hbefore⟩
  | clone handle =>
    obtain ⟨hafter, htight⟩ := clone_after hsettled h
    exact ⟨hafter, fun hbefore _ => htight hbefore⟩
  | drop handle =>
    obtain ⟨-, hafter, hhandles, hsignals⟩ := drop_after hsettled h
    refine ⟨hafter, fun htight hlast key hentry => ?_⟩
    rw [hsignals] at hentry
    rcases htight key hentry with hall | hreferred
    · exact .inl hall
    · -- another handle of the key is left
      by_contra hgone
      obtain ⟨hnotall, hnone⟩ := not_or.mp hgone
      rw [referred_iff hafter, hhandles] at hnone
      obtain ⟨owner, howner, hkey⟩ := (referred_iff hsettled).mp hreferred
      obtain rfl : owner = handle := by
        by_contra hother
        exact hnone ⟨owner, (List.mem_erase_of_ne hother).mpr howner, hkey⟩
      refine hlast ⟨owner, rfl, ?_⟩
      rcases hkey with rfl | rfl
      · cases hfilter : owner.consumer.filter with
        | all => exact absurd (congrArg Key.publishes hfilter) hnotall
        | topic topic =>
          refine .inl ⟨topic, rfl, fun other hother hsame => hnone ⟨other, hother, .inl ?_⟩⟩
          rw [hfilter, hsame]
      · exact .inr fun other hother hsame => hnone ⟨other, hother, .inr (by rw [hsame])⟩
  | publish topics order =>
    obtain ⟨moves, hplay⟩ := play_of_operate h
    obtain ⟨hafter, htight⟩ := notified_after hsettled hplay publish_notifies
    exact ⟨hafter, fun hbefore _ => htight hbefore⟩
  | notifyOwn handle =>
    obtain ⟨moves, hplay⟩ := play_of_operate h
    obtain ⟨hafter, htight⟩ := notified_after hsettled hplay fun action haction => by
      rw [List.mem_singleton.mp haction]
      rfl
    exact ⟨hafter, fun hbefore _ => htight hbefore⟩
  | deleteConsumer id =>
    obtain ⟨moves, hplay⟩ := play_of_operate h
    obtain ⟨hafter, htight⟩ := notified_after hsettled hplay fun action haction => by
      rw [List.mem_singleton.mp haction]
      rfl
    exact ⟨hafter, fun hbefore _ => htight hbefore⟩

/-- A drop of a last handle leaves an entry that nothing refers to. -/
theorem loose_of_dropsLast {move : Move} (hcoherent : Coherent move.before)
    (hsettled : Settled move.before)
    (hoperate : operate move.before move.action = some move.after) (h : DropsLast move) :
    ¬Tight move.after := by
  obtain ⟨handle, haction, hlast⟩ := h
  rw [haction] at hoperate
  obtain ⟨hlive, hafter, hhandles, hsignals⟩ := drop_after hsettled hoperate
  obtain ⟨hpublish, hconsumer⟩ := refs_of_handle hlive
  intro htight
  rcases hlast with ⟨topic, hfilter, hnone⟩ | hnone
  · have hentry := hcoherent.registered _ hpublish
    rw [← hsignals, hfilter] at hentry
    rcases htight _ (Option.isSome_iff_exists.mpr ⟨_, hentry⟩) with hall | hreferred
    · cases hall
    · obtain ⟨other, hother, hkey | hkey⟩ := (referred_iff hafter).mp hreferred
      · exact hnone other (hhandles ▸ hother) (Key.publishes.inj hkey).symm
      · cases hkey
  · have hentry := hcoherent.registered _ hconsumer
    rw [← hsignals] at hentry
    rcases htight _ (Option.isSome_iff_exists.mpr ⟨_, hentry⟩) with hall | hreferred
    · cases hall
    · obtain ⟨other, hother, hkey | hkey⟩ := (referred_iff hafter).mp hreferred
      · cases hkey
      · exact hnone other (hhandles ▸ hother) (Key.consumer.inj hkey).symm

end Operations

section Runs

variable {w : World} {moves : List Move}

theorem settled_run (hrun : Transition.Run operating World.initial moves w) : Settled w :=
  @Transition.Run.invariant _ _ _ _ _ _ Settled hrun ⟨rfl, rfl⟩
    fun _ hvalid hsettled => (operate_after hsettled hvalid).1

/-- The registry stays tight while no last handle is dropped. -/
theorem tight_run (hrun : Transition.Run operating World.initial moves w)
    (hnone : ∀ move ∈ moves, ¬DropsLast move) : Tight w := by
  have hinit : Tight World.initial := by
    intro key hentry
    rcases key with (_ | topic) | id
    · exact .inl rfl
    · cases hentry
    · cases hentry
  refine (@Transition.Run.invariant_mem _ _ _ _ _ _ (fun w => Settled w ∧ Tight w) hrun
    ⟨⟨rfl, rfl⟩, hinit⟩ ?_).2
  rintro move hmem hvalid ⟨hsettled, htight⟩
  obtain ⟨hafter, hkeeps⟩ := operate_after hsettled hvalid
  exact ⟨hafter, hkeeps htight (hnone move hmem)⟩

/-- In every run of operations the registry is bounded by the live handles after each of them
exactly when none of them drops the last handle of a topic or of a consumer. -/
theorem bounded_iff (hrun : Transition.Run operating World.initial moves w) :
    (∀ move ∈ moves, Bounded move.after) ↔ ∀ move ∈ moves, ¬DropsLast move := by
  constructor
  · intro hbounded move hmem hlast
    obtain ⟨past, future, rfl⟩ := List.append_of_mem hmem
    obtain ⟨hbefore, hvalid, -⟩ := hrun.around
    have hafter := hbefore.append (.single (S := operating) hvalid)
    obtain ⟨steps, hsteps⟩ := steps_run hbefore
    obtain ⟨steps', hsteps'⟩ := steps_run hafter
    refine loose_of_dropsLast (coherent_run hsteps) (settled_run hbefore) hvalid hlast ?_
    exact (bounded_iff_tight (coherent_run hsteps') (settled_run hafter)).mp (hbounded move hmem)
  · intro hnone move hmem
    obtain ⟨past, future, rfl⟩ := List.append_of_mem hmem
    obtain ⟨hbefore, hvalid, -⟩ := hrun.around
    have hafter := hbefore.append (.single (S := operating) hvalid)
    obtain ⟨steps, hsteps⟩ := steps_run hafter
    refine (bounded_iff_tight (coherent_run hsteps) (settled_run hafter)).mpr
      (tight_run hafter fun other hother => hnone other ?_)
    rcases List.mem_append.mp hother with hpast | hlast
    · exact List.mem_append_left _ hpast
    · exact List.mem_append_right _ (List.mem_singleton.mp hlast ▸ List.mem_cons_self)

end Runs

/-- The first handle of a fresh registry. -/
def firstOpened : Handle := ⟨⟨1, "jobs", .topic "a"⟩, 1, 2⟩

set_option maxRecDepth 10000 in
/-- Opening, cloning and dropping the clone keeps the registry bounded. -/
theorem bounded_iff_cloned : ∃ moves w, Transition.Run operating World.initial moves w ∧
    moves.map Transition.Move.action =
      [.openConsumer firstOpened.consumer, .clone firstOpened, .drop firstOpened] ∧
    ∀ move ∈ moves, Bounded move.after := by
  obtain ⟨moves, w, hplay, hhandles⟩ : ∃ moves w,
      Transition.play operate [.openConsumer firstOpened.consumer, .clone firstOpened,
        .drop firstOpened] World.initial = some (moves, w) ∧
      moves.map (fun move => (move.action, move.before.handles)) =
        [(.openConsumer firstOpened.consumer, []), (.clone firstOpened, [firstOpened]),
          (.drop firstOpened, [firstOpened, firstOpened])] :=
    ⟨_, _, rfl, rfl⟩
  obtain ⟨hrun, hactions⟩ := Transition.play_spec hplay
  refine ⟨moves, w, hrun, hactions, (bounded_iff hrun).mpr ?_⟩
  rintro move hmem ⟨handle, haction, hlast⟩
  have hshape := List.mem_map_of_mem (f := fun move => (move.action, move.before.handles)) hmem
  rw [hhandles, haction] at hshape
  simp only [List.mem_cons, Prod.mk.injEq, reduceCtorEq, false_and, false_or, List.not_mem_nil,
    or_false, Operation.drop.injEq] at hshape
  obtain ⟨rfl, hbefore⟩ := hshape
  rw [hbefore, List.erase_cons_head] at hlast
  rcases hlast with ⟨topic, hfilter, hnone⟩ | hnone
  · exact hnone firstOpened (List.mem_singleton.mpr rfl) hfilter
  · exact hnone firstOpened (List.mem_singleton.mpr rfl) rfl

set_option maxRecDepth 10000 in
/-- Dropping the only handle of a topic leaves the topic's entry behind. -/
theorem leaked_entry : ¬∀ (moves : List Move) (w : World),
    Transition.Run operating World.initial moves w → ∀ move ∈ moves, Bounded move.after := by
  intro hclaim
  obtain ⟨moves, w, w', hplay, hoperate, hhandles, hentry⟩ : ∃ moves w w',
      Transition.play operate [.openConsumer firstOpened.consumer] World.initial =
        some (moves, w) ∧
      operate w (.drop firstOpened) = some w' ∧ w'.handles = [] ∧
      (w'.signals.topics "a").isSome = true :=
    ⟨_, _, _, rfl, rfl, rfl, rfl⟩
  have hrun := Transition.labelled_snoc (Transition.play_run hplay) hoperate
  have hbounded := (hclaim _ w' hrun ⟨w, .drop firstOpened, w'⟩ (by simp)).topics
  have hnone : liveTopics w' = ∅ := by
    refine Set.eq_empty_of_forall_notMem ?_
    rintro topic ⟨handle, hhandle, -⟩
    rw [hhandles] at hhandle
    exact absurd hhandle List.not_mem_nil
  change (registeredTopics w').encard ≤ (liveTopics w').encard at hbounded
  rw [hnone, Set.encard_empty, nonpos_iff_eq_zero, Set.encard_eq_zero] at hbounded
  exact absurd (hbounded ▸ hentry : "a" ∈ (∅ : Set String)) (Set.notMem_empty "a")

end LiteFan.RegistrySize

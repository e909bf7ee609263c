import LiteFan.Transition.Script
import Mathlib

/-!
# Catalogs and the scripts that fill them

A catalog names tables, views and indexes, whatever the case its names are written
in. A statement that creates an object unless its name is taken can be repeated,
and what it finds it leaves alone. For
a script whose names differ and whose indexes are on tables it creates, whether
it succeeds is decided by the catalog it starts from.
-/

namespace Relational

open Transition

universe u v

/-- A name in SQL: spellings that differ in the case of ASCII letters are one name. -/
structure Name where
  letters : List Char
  /-- The spelling that stands for all of them has no capital letters. -/
  folded : letters.map Char.toLower = letters
  deriving DecidableEq

/-- The name with a spelling. -/
def Name.of (spelling : String) : Name where
  letters := spelling.toList.map Char.toLower
  folded := by
    rw [List.map_map]
    exact List.map_congr_left fun c _ => c.toLower_toLower_eq_toLower

instance coeName : Coe String Name := ⟨Name.of⟩

variable {ν : Type u} {κ : Type v}

/-- What a name of a database stands for. -/
inductive Object (ν : Type u) (κ : Type v) where
  | table (columns : List κ)
  /-- A view or a virtual table, which can be read and not indexed. -/
  | view (columns : List κ)
  | index (parent : ν) (columns : List κ)
  deriving DecidableEq

/-- The objects of a database under their names. -/
abbrev Catalog (ν : Type u) (κ : Type v) := List (ν × Object ν κ)

/-- Why a statement on the catalog fails. -/
inductive CatalogError where
  | nameTaken
  | noSuchTable
  | viewIndexed
  | noSuchColumn
  deriving DecidableEq

/-- A statement that creates an object unless there is one. -/
inductive Definition (ν : Type u) (κ : Type v) where
  /-- `CREATE TABLE IF NOT EXISTS`. -/
  | table (name : ν) (columns : List κ)
  /-- `CREATE INDEX IF NOT EXISTS`. -/
  | index (name parent : ν) (columns : List κ)
  deriving DecidableEq

/-- The name a definition gives. -/
def Definition.name : Definition ν κ → ν
  | .table name _ => name
  | .index name _ _ => name

/-- The object a definition creates. -/
def Definition.object : Definition ν κ → Object ν κ
  | .table _ columns => .table columns
  | .index _ parent columns => .index parent columns

variable [DecidableEq ν]

/-- Execute a definition. A table is created unless a table or view has its name; an index needs
a table, a name that is no table's or view's, and, if it is not there yet, its columns. -/
def Definition.run [DecidableEq κ] (catalog : Catalog ν κ) :
    Definition ν κ → Except CatalogError (Catalog ν κ)
  | .table name columns =>
    match catalog.lookup name with
    | some (.index _ _) => .error .nameTaken
    | some _ => .ok catalog
    | none => .ok (catalog ++ [(name, .table columns)])
  | .index name parent columns =>
    match catalog.lookup parent with
    | none | some (.index _ _) => .error .noSuchTable
    | some (.view _) => .error .viewIndexed
    | some (.table present) =>
      match catalog.lookup name with
      | some (.table _) | some (.view _) => .error .nameTaken
      | some (.index _ _) => .ok catalog
      | none =>
        if columns ⊆ present then .ok (catalog ++ [(name, .index parent columns)])
        else .error .noSuchColumn

/-- The object a definition asks for is there. -/
def Definition.Settled (catalog : Catalog ν κ) : Definition ν κ → Prop
  | .table name _ => ∃ columns, catalog.lookup name = some (.table columns) ∨
      catalog.lookup name = some (.view columns)
  | .index name parent _ => (∃ on columns, catalog.lookup name = some (.index on columns)) ∧
      ∃ columns, catalog.lookup parent = some (.table columns)

/-- Whatever is there stays as it is. -/
def Grows (before after : Catalog ν κ) : Prop :=
  ∀ name object, before.lookup name = some object → after.lookup name = some object

section Definitions

variable {catalog catalog' : Catalog ν κ} {definition : Definition ν κ}

theorem Grows.refl (catalog : Catalog ν κ) : Grows catalog catalog := fun _ _ h => h

theorem Grows.trans {a b c : Catalog ν κ} (h : Grows a b) (k : Grows b c) : Grows a c :=
  fun name object hobject => k name object (h name object hobject)

variable [DecidableEq κ]

/-- A definition does nothing, or its name was free and it adds its object. -/
theorem Definition.run_cases (h : definition.run catalog = .ok catalog') :
    definition.Settled catalog ∧ catalog' = catalog ∨
      catalog.lookup definition.name = none ∧
        catalog' = catalog ++ [(definition.name, definition.object)] ∧
        definition.Settled catalog' := by
  cases definition with
  | table name columns =>
    rw [run] at h
    cases hname : catalog.lookup name with
    | none =>
      rw [hname] at h
      cases h
      refine .inr ⟨hname, rfl, columns, .inl ?_⟩
      simp [List.lookup_append, hname]
    | some object =>
      rw [hname] at h
      cases object with
      | index _ _ => cases h
      | table present =>
        cases h
        exact .inl ⟨⟨present, .inl hname⟩, rfl⟩
      | view present =>
        cases h
        exact .inl ⟨⟨present, .inr hname⟩, rfl⟩
  | index name parent columns =>
    rw [run] at h
    cases htable : catalog.lookup parent with
    | none =>
      rw [htable] at h
      cases h
    | some object =>
      rw [htable] at h
      cases object with
      | index _ _ => cases h
      | view _ => cases h
      | table present =>
        cases hname : catalog.lookup name with
        | none =>
          simp only [hname] at h
          split_ifs at h
          cases h
          refine .inr ⟨hname, rfl, ⟨parent, columns, ?_⟩, present, ?_⟩
          · simp [List.lookup_append, hname]
          · simp [List.lookup_append, htable]
        | some object =>
          simp only [hname] at h
          cases object with
          | table _ => cases h
          | view _ => cases h
          | index on already =>
            cases h
            exact .inl ⟨⟨⟨on, already, hname⟩, present, htable⟩, rfl⟩

/-- A definition leaves what it finds. -/
theorem Definition.run_grows (h : definition.run catalog = .ok catalog') :
    Grows catalog catalog' := by
  rcases definition.run_cases h with ⟨-, rfl⟩ | ⟨-, rfl, -⟩
  · exact Grows.refl _
  · intro name object hobject
    rw [List.lookup_append, hobject, Option.some_or]

/-- What is asked for is there once the definition has run. -/
theorem Definition.run_settles (h : definition.run catalog = .ok catalog') :
    definition.Settled catalog' := by
  rcases definition.run_cases h with ⟨hsettled, hsame⟩ | ⟨-, -, hsettled⟩
  · exact hsame ▸ hsettled
  · exact hsettled

/-- Where the object is there already, the definition does nothing. -/
theorem Definition.run_again (h : definition.Settled catalog) :
    definition.run catalog = .ok catalog := by
  cases definition with
  | table name columns =>
    obtain ⟨present, htable | hview⟩ := h
    · rw [run, htable]
    · rw [run, hview]
  | index name parent columns =>
    obtain ⟨⟨on, already, hname⟩, present, htable⟩ := h
    simp only [run, htable, hname]

omit [DecidableEq κ] in
/-- What is there stays there. -/
theorem Definition.Settled.grows (h : definition.Settled catalog)
    (hgrows : Grows catalog catalog') : definition.Settled catalog' := by
  cases definition with
  | table name columns =>
    obtain ⟨present, htable | hview⟩ := h
    · exact ⟨present, .inl (hgrows _ _ htable)⟩
    · exact ⟨present, .inr (hgrows _ _ hview)⟩
  | index name parent columns =>
    obtain ⟨⟨on, already, hname⟩, present, htable⟩ := h
    exact ⟨⟨on, already, hgrows _ _ hname⟩, present, hgrows _ _ htable⟩

end Definitions

section Scripts

variable [DecidableEq κ] {script past rest : List (Definition ν κ)} {initial catalog : Catalog ν κ}
  {definition : Definition ν κ}

/-- A definition as a statement that can be repeated. -/
def Definition.statement (definition : Definition ν κ) :
    Statement (Catalog ν κ) CatalogError where
  run catalog := definition.run catalog
  done := definition.Settled
  settles := Definition.run_settles
  again := Definition.run_again

/-- The object a script has for a name. -/
def planned (script : List (Definition ν κ)) (name : ν) : Option (Object ν κ) :=
  (script.find? fun definition => definition.name = name).map Definition.object

/-- After a script a name stands for what it stood for before, or else for what the script
creates. -/
theorem lookup_runAll (h : runAll (script.map Definition.statement) initial = (catalog, .ok ()))
    (name : ν) : catalog.lookup name = (initial.lookup name).or (planned script name) := by
  induction script generalizing initial with
  | nil =>
    cases h
    exact Option.or_none.symm
  | cons definition script ih =>
    rw [List.map_cons, runAll] at h
    cases hrun : definition.statement.run initial with
    | error err =>
      rw [hrun] at h
      cases h
    | ok next =>
      rw [hrun] at h
      have hplanned : planned (definition :: script) name =
          if definition.name = name then some definition.object else planned script name := by
        unfold planned
        by_cases hname : definition.name = name <;> simp [hname]
      rw [ih h, hplanned]
      rcases definition.run_cases hrun with ⟨hsettled, rfl⟩ | ⟨hfree, rfl, -⟩
      · by_cases hname : definition.name = name
        · subst hname
          obtain ⟨object, hobject⟩ : ∃ object, next.lookup definition.name = some object := by
            cases definition with
            | table _ _ =>
              obtain ⟨columns, htable | hview⟩ := hsettled
              · exact ⟨_, htable⟩
              · exact ⟨_, hview⟩
            | index _ _ _ =>
              obtain ⟨⟨on, columns, hindex⟩, -⟩ := hsettled
              exact ⟨_, hindex⟩
          rw [hobject, Option.some_or, Option.some_or]
        · rw [if_neg hname]
      · by_cases hname : definition.name = name
        · subst hname
          rw [if_pos rfl, List.lookup_append, hfree]
          simp
        · have hne : (name == definition.name) = false := beq_false_of_ne (Ne.symm hname)
          rw [if_neg hname, List.lookup_append]
          simp [List.lookup_cons, hne]

/-- The catalog a script starts from leaves room for a definition: a table's name is no index;
an index's name is no table or view, its table is no view or index, and, unless the index is
there, the table has its columns if it is there. -/
def Definition.Admits (initial : Catalog ν κ) : Definition ν κ → Prop
  | .table name _ => ∀ on columns, initial.lookup name ≠ some (.index on columns)
  | .index name parent columns =>
    (∀ object, initial.lookup parent = some object → ∃ present, object = .table present) ∧
      (∀ object, initial.lookup name = some object → ∃ on already, object = .index on already) ∧
      (initial.lookup name = none → ∀ present, initial.lookup parent = some (.table present) →
        columns ⊆ present)

/-- An index comes after the table it is on, which is created with its columns. -/
def Definition.parented (past : List (Definition ν κ)) : Definition ν κ → Bool
  | .table _ _ => true
  | .index _ parent columns => past.any fun
    | .table name present => decide (name = parent) && decide (columns ⊆ present)
    | .index .. => false

/-- Names are given once, and every index has its table. -/
def WellFormed (script : List (Definition ν κ)) : Prop :=
  (script.map Definition.name).Nodup ∧
    ∀ i, (h : i < script.length) → script[i].parented (script.take i) = true

instance decidableWellFormed (script : List (Definition ν κ)) : Decidable (WellFormed script) :=
  inferInstanceAs (Decidable (_ ∧ _))

/-- An index of a well-formed script is on a table created before it, with its columns. -/
theorem WellFormed.parent {name parent : ν} {columns : List κ}
    (h : WellFormed (past ++ .index name parent columns :: rest)) :
    ∃ present : List κ, .table parent present ∈ past ∧ columns ⊆ present := by
  have hparented := h.2 past.length (by simp)
  simp only [List.getElem_append_right (Nat.le_refl past.length), Nat.sub_self,
    List.getElem_cons_zero, List.take_left, Definition.parented] at hparented
  obtain ⟨definition, hmem, hfound⟩ := List.any_eq_true.mp hparented
  cases definition with
  | index _ _ _ => cases hfound
  | table created present =>
    obtain ⟨hname, hsub⟩ := Bool.and_eq_true_iff.mp hfound
    obtain rfl := of_decide_eq_true hname
    exact ⟨present, hmem, of_decide_eq_true hsub⟩

omit [DecidableEq κ] in
/-- A script has an object for each name it gives. -/
theorem planned_of_mem (hnames : (script.map Definition.name).Nodup) (h : definition ∈ script) :
    planned script definition.name = some definition.object := by
  induction script with
  | nil => exact absurd h List.not_mem_nil
  | cons first script ih =>
    obtain ⟨hfresh, hnames⟩ := List.nodup_cons.mp hnames
    unfold planned
    rcases List.mem_cons.mp h with rfl | hrest
    · simp
    · have hne : first.name ≠ definition.name := fun hname =>
        hfresh (hname ▸ List.mem_map_of_mem hrest)
      rw [List.find?_cons_of_neg (by simpa using hne)]
      exact ih hnames hrest

omit [DecidableEq κ] in
/-- A script has no object for a name it does not give. -/
theorem planned_of_not_mem {name : ν} (h : name ∉ script.map Definition.name) :
    planned script name = none := by
  rw [planned, Option.map_eq_none_iff, List.find?_eq_none]
  intro definition hmem hname
  exact h (List.mem_map.mpr ⟨definition, hmem, of_decide_eq_true hname⟩)

/-- After the part of a script before it, a definition succeeds exactly when the catalog the
script starts from leaves room for it. -/
theorem run_ok_iff (hwell : WellFormed (past ++ definition :: rest))
    (h : runAll (past.map Definition.statement) initial = (catalog, .ok ())) :
    (∃ catalog', definition.run catalog = .ok catalog') ↔ definition.Admits initial := by
  have hlookup := lookup_runAll h
  have hnames := hwell.1
  rw [List.map_append, List.map_cons] at hnames
  have hfresh : definition.name ∉ past.map Definition.name := fun hmem =>
    (List.nodup_append'.mp hnames).2.2 hmem List.mem_cons_self
  have hname : catalog.lookup definition.name = initial.lookup definition.name := by
    rw [hlookup, planned_of_not_mem hfresh, Option.or_none]
  cases definition with
  | table name columns =>
    have hname : catalog.lookup name = initial.lookup name := hname
    simp only [Definition.run, Definition.Admits, hname]
    cases initial.lookup name with
    | none => simp
    | some object => cases object <;> simp
  | index name parent columns =>
    obtain ⟨present, hcreated, hsub⟩ := hwell.parent
    have hpast := (List.nodup_append.mp hnames).1
    have hparent : catalog.lookup parent =
        (initial.lookup parent).or (some (.table present)) := by
      rw [hlookup]
      exact congrArg (Option.or _) (planned_of_mem hpast hcreated)
    have hname : catalog.lookup name = initial.lookup name := hname
    simp only [Definition.run, Definition.Admits, hname, hparent]
    cases initial.lookup parent with
    | none =>
      cases initial.lookup name with
      | none => simp [hsub]
      | some object => cases object <;> simp
    | some parent =>
      cases parent with
      | index _ _ => simp
      | view _ => simp
      | table stored =>
        cases initial.lookup name with
        | none => by_cases hstored : columns ⊆ stored <;> simp [hstored]
        | some object => cases object <;> simp

/-- A script succeeds exactly when the catalog it starts from leaves room for every definition. -/
theorem runAll_ok_iff (hwell : WellFormed script) :
    (runAll (script.map Definition.statement) initial).2 = .ok () ↔
      ∀ definition ∈ script, definition.Admits initial := by
  have hgeneral : ∀ rest past catalog, past ++ rest = script →
      runAll (past.map Definition.statement) initial = (catalog, .ok ()) →
      ((runAll (rest.map Definition.statement) catalog).2 = .ok () ↔
        ∀ definition ∈ rest, definition.Admits initial) := by
    intro rest
    induction rest with
    | nil => exact fun _ _ _ _ => iff_of_true rfl fun _ h => absurd h List.not_mem_nil
    | cons definition rest ih =>
      intro past catalog hsplit hran
      have hhere := run_ok_iff (hsplit.symm ▸ hwell) hran
      rw [List.forall_mem_cons, ← hhere, List.map_cons, runAll]
      cases hrun : definition.run catalog with
      | error err =>
        have hstatement : definition.statement.run catalog = .error err := hrun
        simp [hstatement]
      | ok next =>
        have hstatement : definition.statement.run catalog = .ok next := hrun
        have hnext : runAll ((past ++ [definition]).map Definition.statement) initial =
            (next, .ok ()) := by
          rw [List.map_append]
          exact runAll_snoc hran hstatement
        have hrest := ih (past ++ [definition]) next (by simp [← hsplit]) hnext
        simp only [hstatement, hrest]
        simp
  exact hgeneral script [] initial rfl rfl

end Scripts

end Relational

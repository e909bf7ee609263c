import LiteFan.Time
import LiteFan.Relational.Catalog
import LiteFan.Transition.Labelled

/-!
# Opening a database file

An open checks its settings and the version of the file, creates what is
missing of the schema, probes two tables and marks the file. The script runs
outside a transaction, so any number of processes can be between its statements,
and any of them can stop there. They still behave as one: each open reports what
it would report alone on the file as it was, and a file is marked only when the
whole schema is in place.
-/

namespace LiteFan.Opening

open LiteFan.Api LiteFan.Time Relational Transition

/-- What an open reads and writes of a database file. Its names are told apart as SQLite does,
without regard to case. -/
structure File where
  catalog : Catalog Name Name
  /-- `PRAGMA user_version`. -/
  userVersion : ℤ
  deriving DecidableEq

/-- Why an open fails. -/
inductive OpenError where
  | config (cause : Error)
  | sqlx (cause : CatalogError)
  | incompatibleSchema
  | unsupportedSchemaVersion (found maximum : ℤ)
  deriving DecidableEq

/-- `VERSION`. -/
def schemaVersion : ℤ := 2

/-- `SQL`: the tables with their columns and the indexes. -/
def schemaSql : List (Definition Name Name) :=
  [.table "litefan_messages" ["id", "topic", "body", "published_at"],
    .index "litefan_messages_topic" "litefan_messages" ["topic", "id"],
    .table "litefan_idempotency" ["key", "message_id", "expires_at"],
    .index "litefan_idempotency_expiry" "litefan_idempotency" ["expires_at"],
    .table "litefan_consumers" ["id", "name", "topic_filter", "created_at", "draining_at",
      "scan_cursor", "drain_cursor"],
    .table "litefan_deliveries" ["consumer_id", "message_id", "visible_at", "generation",
      "delivery_count"],
    .index "litefan_deliveries_visible" "litefan_deliveries" ["consumer_id", "visible_at",
      "message_id"],
    .index "litefan_deliveries_message" "litefan_deliveries" ["message_id"],
    .table "litefan_archived_deliveries" ["id", "consumer_id", "message_id", "archived_at",
      "delivery_count", "last_generation", "detail"],
    .index "litefan_archives_consumer" "litefan_archived_deliveries" ["consumer_id",
      "archived_at", "id"],
    .index "litefan_archives_message" "litefan_archived_deliveries" ["message_id"]]

/-- `SELECT columns FROM table LIMIT 0`. -/
structure Probe where
  table : Name
  columns : List Name

/-- The probes that follow the script. -/
def probes : List Probe :=
  [⟨"litefan_consumers", ["scan_cursor", "drain_cursor"]⟩,
    ⟨"litefan_archived_deliveries", ["consumer_id", "message_id", "detail"]⟩]

/-- The columns an object can be asked for. -/
def columnsOf : Object Name Name → Option (List Name)
  | .table columns | .view columns => some columns
  | .index _ _ => none

/-- A probe is answered by a table or view that has its columns. -/
def Probe.answered (probe : Probe) (catalog : Catalog Name Name) : Bool :=
  match (catalog.lookup probe.table).bind columnsOf with
  | none => false
  | some columns => decide (probe.columns ⊆ columns)

/-- An open whose settings are checked, with nothing else happening in between. -/
def openFile (inner : Inner) (file : File) : File × Except OpenError Inner :=
  if file.userVersion > schemaVersion then
    (file, .error (.unsupportedSchemaVersion file.userVersion schemaVersion))
  else
    match runAll (schemaSql.map Definition.statement) file.catalog with
    | (catalog, .error cause) => ({ file with catalog := catalog }, .error (.sqlx cause))
    | (catalog, .ok ()) =>
      if probes.all (Probe.answered · catalog) then
        ({ catalog := catalog
           userVersion :=
            if file.userVersion < schemaVersion then schemaVersion else file.userVersion },
          .ok inner)
      else ({ file with catalog := catalog }, .error .incompatibleSchema)

/-- Open a database file. -/
def openWithConfig (config : Config) (file : File) : File × Except OpenError Inner :=
  match Time.openWithConfig config with
  | .error cause => (file, .error (.config cause))
  | .ok inner => openFile inner file

/-- Where an open is on its way. -/
inductive Phase where
  /-- Before it reads the version. -/
  | reading
  /-- In the script, with the version it found. -/
  | defining (found : ℤ) (rest : List (Definition Name Name))
  | probing (found : ℤ) (rest : List Probe)
  | marking (found : ℤ)
  | finished (result : Except OpenError Inner)

/-- One statement of an open on the file as it is then. -/
def Phase.advance (inner : Inner) (file : File) : Phase → Option (Phase × File)
  | .reading =>
    if file.userVersion > schemaVersion then
      some (.finished (.error (.unsupportedSchemaVersion file.userVersion schemaVersion)), file)
    else some (.defining file.userVersion schemaSql, file)
  | .defining found [] => some (.probing found probes, file)
  | .defining found (definition :: rest) =>
    match definition.run file.catalog with
    | .error cause => some (.finished (.error (.sqlx cause)), file)
    | .ok catalog => some (.defining found rest, { file with catalog := catalog })
  | .probing found [] => some (.marking found, file)
  | .probing found (probe :: rest) =>
    if probe.answered file.catalog then some (.probing found rest, file)
    else some (.finished (.error .incompatibleSchema), file)
  | .marking found =>
    if found < schemaVersion then
      some (.finished (.ok inner), { file with userVersion := schemaVersion })
    else some (.finished (.ok inner), file)
  | .finished _ => none

/-- An open whose settings passed the check. -/
structure Opener where
  config : Config
  inner : Inner
  checked : Time.openWithConfig config = .ok inner
  phase : Phase

/-- The file and the opens on it, each in a process or a task of its own. -/
structure World where
  file : File
  openers : List Opener

/-- An open begins, or one of them goes on. -/
inductive Action where
  | begin (config : Config)
  | advance (i : ℕ)

/-- One step on the shared file. Settings that fail their check never reach it. -/
def World.step (w : World) : Action → Option World
  | .begin config =>
    match hchecked : Time.openWithConfig config with
    | .error _ => none
    | .ok inner => some { w with openers := w.openers ++ [⟨config, inner, hchecked, .reading⟩] }
  | .advance i =>
    match w.openers[i]? with
    | none => none
    | some opener =>
      (opener.phase.advance opener.inner w.file).map fun moved =>
        ⟨moved.2, w.openers.set i { opener with phase := moved.1 }⟩

section Statements

/-- What a later moment of a file keeps of an earlier one. -/
structure Evolves (before after : File) : Prop where
  grows : Grows before.catalog after.catalog
  adds : ∀ name object, after.catalog.lookup name = some object →
    before.catalog.lookup name = some object ∨ planned schemaSql name = some object
  version : after.userVersion = before.userVersion ∨ after.userVersion = schemaVersion

/-- The script names an object once, and an index after its table. -/
theorem wellFormed_schemaSql : WellFormed schemaSql := by decide +kernel

theorem Evolves.refl (file : File) : Evolves file file where
  grows := Grows.refl _
  adds _ _ h := .inl h
  version := .inl rfl

theorem Evolves.trans {a b c : File} (h : Evolves a b) (k : Evolves b c) : Evolves a c where
  grows := h.grows.trans k.grows
  adds name object hobject := (k.adds name object hobject).elim (h.adds name object) .inr
  version := by
    rcases k.version with hsame | hmarked
    · rw [hsame]
      exact h.version
    · exact .inr hmarked

/-- A definition of the script adds what the script has for its name, or nothing. -/
theorem Evolves.define {file : File} {definition : Definition Name Name}
    {catalog : Catalog Name Name} (hmem : definition ∈ schemaSql)
    (h : definition.run file.catalog = .ok catalog) :
    Evolves file { file with catalog := catalog } where
  grows := Definition.run_grows h
  version := .inl rfl
  adds name object hobject := by
    rcases definition.run_cases h with ⟨-, rfl⟩ | ⟨-, rfl, -⟩
    · exact .inl hobject
    · change List.lookup name (file.catalog ++ _) = some object at hobject
      rw [List.lookup_append, Option.or_eq_some_iff] at hobject
      rcases hobject with hold | ⟨-, hnew⟩
      · exact .inl hold
      · obtain ⟨rfl, rfl⟩ : name = definition.name ∧ definition.object = object := by
          rw [List.lookup_cons] at hnew
          cases hname : name == definition.name with
          | false =>
            rw [hname] at hnew
            cases hnew
          | true =>
            rw [hname] at hnew
            exact ⟨eq_of_beq hname, Option.some.inj hnew⟩
        exact .inr (planned_of_mem wellFormed_schemaSql.1 hmem)

/-- A probe stays answered. -/
theorem Probe.answered_grows {probe : Probe} {before after : Catalog Name Name}
    (hgrows : Grows before after) (h : probe.answered before = true) :
    probe.answered after = true := by
  unfold answered at h ⊢
  cases hobject : before.lookup probe.table with
  | none =>
    rw [hobject] at h
    cases h
  | some object =>
    rw [hgrows _ _ hobject]
    rw [hobject] at h
    exact h

/-- The check of the version. -/
def checkVersion : Statement File OpenError where
  run file :=
    if file.userVersion > schemaVersion then
      .error (.unsupportedSchemaVersion file.userVersion schemaVersion)
    else .ok file
  done file := file.userVersion ≤ schemaVersion
  settles h := by
    split_ifs at h with hnew
    cases h
    exact not_lt.mp hnew
  again h := if_neg (not_lt.mpr h)

/-- A definition of the script, on the file. -/
def define (definition : Definition Name Name) : Statement File OpenError where
  run file :=
    match definition.run file.catalog with
    | .error cause => .error (.sqlx cause)
    | .ok catalog => .ok { file with catalog := catalog }
  done file := definition.Settled file.catalog
  settles {s t} h := by
    cases hrun : definition.run s.catalog with
    | error cause =>
      rw [hrun] at h
      cases h
    | ok catalog =>
      rw [hrun] at h
      cases h
      exact Definition.run_settles hrun
  again h := by rw [Definition.run_again h]

/-- A probe, on the file. -/
def ask (probe : Probe) : Statement File OpenError where
  run file := if probe.answered file.catalog then .ok file else .error .incompatibleSchema
  done file := probe.answered file.catalog = true
  settles h := by
    split_ifs at h with hanswered
    cases h
    exact hanswered
  again h := if_pos h

/-- The mark of a complete schema. -/
def mark : Statement File OpenError where
  run file := .ok { file with userVersion := schemaVersion }
  done file := file.userVersion = schemaVersion
  settles h := by
    cases h
    rfl
  again {file} h := by
    have hsame : file.userVersion = schemaVersion := h
    rw [← hsame]

/-- The statements of an open before the mark. -/
def unmarked : List (Statement File OpenError) :=
  checkVersion :: (schemaSql.map define ++ probes.map ask)

/-- The statements of an open. -/
def opening : List (Statement File OpenError) := unmarked ++ [mark]

/-- What a statement of an open does to the file. -/
theorem evolves_of_run {f : Statement File OpenError} (hf : f ∈ opening) {s t : File}
    (h : f.run s = .ok t) : Evolves s t := by
  rw [opening, unmarked, List.cons_append, List.mem_cons, List.append_assoc, List.mem_append,
    List.mem_append, List.mem_singleton] at hf
  rcases hf with rfl | hdefine | hask | rfl
  · simp only [checkVersion] at h
    split_ifs at h
    cases h
    exact Evolves.refl _
  · obtain ⟨definition, hmem, rfl⟩ := List.mem_map.mp hdefine
    cases hrun : definition.run s.catalog with
    | error cause =>
      simp only [define, hrun] at h
      cases h
    | ok catalog =>
      simp only [define, hrun] at h
      cases h
      exact Evolves.define hmem hrun
  · obtain ⟨probe, -, rfl⟩ := List.mem_map.mp hask
    simp only [ask] at h
    split_ifs at h
    cases h
    exact Evolves.refl _
  · cases h
    exact ⟨Grows.refl _, fun _ _ h => .inl h, .inr rfl⟩

/-- What a statement of an open has settled stays so. -/
theorem done_of_evolves {f : Statement File OpenError} (hf : f ∈ opening) {s t : File}
    (h : f.done s) (hevolves : Evolves s t) : f.done t := by
  rw [opening, unmarked, List.cons_append, List.mem_cons, List.append_assoc, List.mem_append,
    List.mem_append, List.mem_singleton] at hf
  rcases hf with rfl | hdefine | hask | rfl
  · have hold : s.userVersion ≤ schemaVersion := h
    rcases hevolves.version with hsame | hmarked
    · exact hsame.trans_le hold
    · exact hmarked.le
  · obtain ⟨definition, -, rfl⟩ := List.mem_map.mp hdefine
    exact Definition.Settled.grows h hevolves.grows
  · obtain ⟨probe, -, rfl⟩ := List.mem_map.mp hask
    exact Probe.answered_grows hevolves.grows h
  · rcases hevolves.version with hsame | hmarked
    · exact hsame.trans h
    · exact hmarked

/-- No statement of an open undoes another. -/
theorem harmless_opening : Harmless opening := fun _ hf _ hg _ _ hdone hrun =>
  done_of_evolves hf hdone (evolves_of_run hg hrun)

/-- The definitions of a script, run on the file. -/
theorem runAll_define (definitions : List (Definition Name Name)) (file : File) :
    runAll (definitions.map define) file =
      match runAll (definitions.map Definition.statement) file.catalog with
      | (catalog, .error cause) => ({ file with catalog := catalog }, .error (.sqlx cause))
      | (catalog, .ok ()) => ({ file with catalog := catalog }, .ok ()) := by
  induction definitions generalizing file with
  | nil => rfl
  | cons definition definitions ih =>
    rw [List.map_cons, List.map_cons, runAll, runAll]
    cases hrun : definition.run file.catalog with
    | error cause => simp only [define, Definition.statement, hrun]
    | ok catalog =>
      simp only [define, Definition.statement, hrun]
      exact ih _

/-- Probes succeed on a file that answers all of them, and leave it alone. -/
theorem runAll_ask (asked : List Probe) (file : File) :
    runAll (asked.map ask) file =
      (file, if asked.all (Probe.answered · file.catalog) then .ok ()
        else .error .incompatibleSchema) := by
  induction asked with
  | nil => rfl
  | cons probe asked ih =>
    rw [List.map_cons, runAll]
    by_cases hanswered : probe.answered file.catalog = true
    · simp only [ask, hanswered, if_true, List.all_cons, Bool.true_and]
      exact ih
    · simp [ask, hanswered]

/-- An open alone is its statements one after the other. -/
theorem openFile_eq (inner : Inner) (file : File) :
    openFile inner file =
      ((runAll opening file).1, (runAll opening file).2.map fun _ => inner) := by
  rw [openFile, opening, unmarked, List.cons_append, List.append_assoc, runAll]
  by_cases hnew : file.userVersion > schemaVersion
  · simp only [checkVersion, hnew, if_true]
    rfl
  · simp only [checkVersion, hnew, if_false]
    have hscript := runAll_define schemaSql file
    cases hran : runAll (schemaSql.map Definition.statement) file.catalog with
    | mk catalog result =>
      rw [hran] at hscript
      cases result with
      | error cause =>
        rw [runAll_stopped hscript]
        rfl
      | ok _ =>
        rw [runAll_append hscript]
        have hasked := runAll_ask probes { file with catalog := catalog }
        by_cases hall : probes.all (Probe.answered · catalog) = true
        · rw [if_pos hall] at hasked
          simp only [hall, if_true]
          rw [runAll_append hasked]
          have hmark : (if file.userVersion < schemaVersion then schemaVersion
              else file.userVersion) = schemaVersion := by
            split_ifs <;> omega
          rw [hmark]
          rfl
        · rw [if_neg hall] at hasked
          simp only [hall]
          rw [runAll_stopped hasked]
          rfl

end Statements

section Refinement

/-- The statements an open has still to run. -/
def Phase.process : Phase → Process File OpenError
  | .reading => .running opening
  | .defining _ rest => .running (rest.map define ++ (probes.map ask ++ [mark]))
  | .probing _ rest => .running (rest.map ask ++ [mark])
  | .marking _ => .running [mark]
  | .finished (.ok _) => .running []
  | .finished (.error err) => .finished (.error err)

/-- The opens as processes that run their statements. -/
def World.crowd (w : World) : Crowd File OpenError where
  state := w.file
  processes := w.openers.map fun opener => opener.phase.process

/-- What an open has found out: a version it leaves alone is that of the file, and it returns the
handle it was called for. -/
def Opener.Sound (file : File) (opener : Opener) : Prop :=
  match opener.phase with
  | .reading | .finished (.error _) => True
  | .defining found _ | .probing found _ | .marking found =>
    found < schemaVersion ∨ file.userVersion = schemaVersion
  | .finished (.ok inner) => inner = opener.inner

/-- A step of an open is a statement of its script, or none at all. -/
theorem advance_process {opener : Opener} {file file' : File} {phase : Phase}
    (hsound : opener.Sound file)
    (h : opener.phase.advance opener.inner file = some (phase, file')) :
    phase.process = opener.phase.process ∧ file' = file ∨
      opener.phase.process.advance file = some (phase.process, file') := by
  obtain ⟨config, inner, hchecked, old⟩ := opener
  cases old with
  | reading =>
    rw [Phase.advance] at h
    split_ifs at h with hnew
    · cases h
      refine .inr ?_
      simp [Phase.process, opening, unmarked, Process.advance, checkVersion, hnew]
    · cases h
      refine .inr ?_
      simp [Phase.process, opening, unmarked, Process.advance, checkVersion, hnew]
  | defining found rest =>
    cases rest with
    | nil =>
      cases h
      exact .inl ⟨rfl, rfl⟩
    | cons definition rest =>
      refine .inr ?_
      rw [Phase.advance] at h
      cases hrun : definition.run file.catalog with
      | error cause =>
        rw [hrun] at h
        cases h
        simp [Phase.process, Process.advance, define, hrun]
      | ok catalog =>
        rw [hrun] at h
        cases h
        simp [Phase.process, Process.advance, define, hrun]
  | probing found rest =>
    cases rest with
    | nil =>
      cases h
      exact .inl ⟨rfl, rfl⟩
    | cons probe rest =>
      refine .inr ?_
      rw [Phase.advance] at h
      split_ifs at h with hanswered
      · cases h
        simp [Phase.process, Process.advance, ask, hanswered]
      · cases h
        simp [Phase.process, Process.advance, ask, hanswered]
  | marking found =>
    refine .inr ?_
    rw [Phase.advance] at h
    split_ifs at h with hold
    · cases h
      rfl
    · cases h
      -- the version found is the mark already, and it is still there
      have hmarked : file.userVersion = schemaVersion := hsound.resolve_left hold
      simp [Phase.process, Process.advance, mark, ← hmarked]
  | finished result => cases h

/-- A step leaves every open sound. -/
theorem advance_sound {opener : Opener} {file file' : File} {phase : Phase}
    (hsound : opener.Sound file)
    (h : opener.phase.advance opener.inner file = some (phase, file')) :
    Opener.Sound file' { opener with phase := phase } ∧
      (file.userVersion = schemaVersion → file'.userVersion = schemaVersion) := by
  obtain ⟨config, inner, hchecked, old⟩ := opener
  cases old with
  | reading =>
    rw [Phase.advance] at h
    split_ifs at h with hnew
    · cases h
      exact ⟨trivial, id⟩
    · cases h
      exact ⟨(not_lt.mp hnew).lt_or_eq, id⟩
  | defining found rest =>
    cases rest with
    | nil =>
      cases h
      exact ⟨hsound, id⟩
    | cons definition rest =>
      rw [Phase.advance] at h
      cases hrun : definition.run file.catalog with
      | error cause =>
        rw [hrun] at h
        cases h
        exact ⟨trivial, id⟩
      | ok catalog =>
        rw [hrun] at h
        cases h
        exact ⟨hsound, id⟩
  | probing found rest =>
    cases rest with
    | nil =>
      cases h
      exact ⟨hsound, id⟩
    | cons probe rest =>
      rw [Phase.advance] at h
      split_ifs at h
      · cases h
        exact ⟨hsound, id⟩
      · cases h
        exact ⟨trivial, id⟩
  | marking found =>
    rw [Phase.advance] at h
    split_ifs at h
    · cases h
      exact ⟨rfl, fun _ => rfl⟩
    · cases h
      exact ⟨rfl, id⟩
  | finished result => cases h

/-- Another open's step leaves an open sound. -/
theorem Opener.Sound.mono {opener : Opener} {file file' : File} (h : opener.Sound file)
    (hkeeps : file.userVersion = schemaVersion → file'.userVersion = schemaVersion) :
    opener.Sound file' := by
  unfold Sound at h ⊢
  cases hphase : opener.phase with
  | reading => trivial
  | finished result =>
    rw [hphase] at h
    cases result with
    | ok _ => exact h
    | error _ => trivial
  | defining found rest =>
    rw [hphase] at h
    exact h.imp_right hkeeps
  | probing found rest =>
    rw [hphase] at h
    exact h.imp_right hkeeps
  | marking found =>
    rw [hphase] at h
    exact h.imp_right hkeeps

/-- The opens of a file follow the script together. -/
structure Together (file : File) (w : World) : Prop where
  abreast : ∃ past ahead, past ++ ahead = opening ∧ Abreast past ahead file w.crowd
  sound : ∀ opener ∈ w.openers, opener.Sound w.file

/-- An open that begins. -/
theorem begin_eq {w w' : World} {config : Config} (h : w.step (.begin config) = some w') :
    ∃ inner, ∃ hchecked : Time.openWithConfig config = .ok inner,
      w' = { w with openers := w.openers ++ [⟨config, inner, hchecked, .reading⟩] } := by
  rw [World.step] at h
  split at h
  · cases h
  · cases h
    exact ⟨_, by assumption, rfl⟩

/-- A step of an open on its own. -/
theorem advance_eq {w w' : World} {i : ℕ} (h : w.step (.advance i) = some w') :
    ∃ opener phase file, w.openers[i]? = some opener ∧
      opener.phase.advance opener.inner w.file = some (phase, file) ∧
      w' = ⟨file, w.openers.set i { opener with phase := phase }⟩ := by
  rw [World.step] at h
  cases hopener : w.openers[i]? with
  | none =>
    rw [hopener] at h
    cases h
  | some opener =>
    rw [hopener] at h
    obtain ⟨⟨phase, file⟩, hadvance, rfl⟩ := Option.map_eq_some_iff.mp h
    exact ⟨opener, phase, file, rfl, hadvance, rfl⟩

/-- Each step keeps the opens together. -/
theorem Together.step {file : File} {w w' : World} {action : Action} (h : Together file w)
    (hstep : w.step action = some w') : Together file w' := by
  obtain ⟨past, ahead, hscript, habreast⟩ := h.abreast
  have hharmless : Harmless (past ++ ahead) := hscript ▸ harmless_opening
  cases action with
  | begin config =>
    obtain ⟨inner, hchecked, rfl⟩ := begin_eq hstep
    refine ⟨?_, fun opener hopener => ?_⟩
    · have hstart : w.crowd.step (past ++ ahead) .start = some (World.crowd
          { w with openers := w.openers ++ [⟨config, inner, hchecked, .reading⟩] }) := by
        simp [Crowd.step, World.crowd, Phase.process, hscript]
      obtain ⟨past', ahead', hsame, habreast'⟩ := habreast.step hharmless hstart
      exact ⟨past', ahead', hsame.trans hscript, habreast'⟩
    · rcases List.mem_append.mp hopener with hold | hnew
      · exact h.sound opener hold
      · rw [List.mem_singleton.mp hnew]
        trivial
  | advance i =>
    obtain ⟨opener, phase, file', hopener, hadvance, rfl⟩ := advance_eq hstep
    have hsound := h.sound opener (List.mem_of_getElem? hopener)
    obtain ⟨hnext, hkeeps⟩ := advance_sound hsound hadvance
    have hprocess : w.crowd.processes[i]? = some opener.phase.process := by
      simp [World.crowd, hopener]
    refine ⟨?_, fun other hother => ?_⟩
    · rcases advance_process hsound hadvance with ⟨hsame, rfl⟩ | hmoved
      · refine ⟨past, ahead, hscript, ?_⟩
        have hreplaced := habreast.replace (i := i)
          (habreast.follows _ (List.mem_of_getElem? hprocess))
        simpa [World.crowd, List.map_set, hsame] using hreplaced
      · have hturn : w.crowd.step (past ++ ahead) (.advance i) = some (World.crowd
            ⟨file', w.openers.set i { opener with phase := phase }⟩) := by
          simp only [Crowd.step, hprocess]
          have hmoved' : opener.phase.process.advance w.crowd.state =
              some (phase.process, file') := hmoved
          rw [hmoved']
          simp [World.crowd, List.map_set]
        obtain ⟨past', ahead', hsame, habreast'⟩ := habreast.step hharmless hturn
        exact ⟨past', ahead', hsame.trans hscript, habreast'⟩
    · rcases List.mem_or_eq_of_mem_set hother with hold | rfl
      · exact (h.sound other hold).mono hkeeps
      · exact hnext

/-- Whatever the opens of a file have done, they are together. -/
theorem together_run {file : File} {moves : List (Move World Action)} {w : World}
    (hrun : Run (labelled World.step) ⟨file, []⟩ moves w) : Together file w := by
  refine hrun.invariant (I := Together file) ⟨⟨[], opening, rfl, rfl, ?_, ?_⟩, ?_⟩ ?_
  · exact fun f hf => absurd hf List.not_mem_nil
  · exact fun process hprocess => absurd hprocess List.not_mem_nil
  · exact fun opener hopener => absurd hopener List.not_mem_nil
  · exact fun move hv h => h.step hv

end Refinement

section Results

/-- The file an open can work with: its version is known, the names of the schema are free or
stand for the right kind of object, and the tables that are probed have their columns. -/
structure Compatible (file : File) : Prop where
  version : file.userVersion ≤ schemaVersion
  room : ∀ definition ∈ schemaSql, definition.Admits file.catalog
  probed : ∀ probe ∈ probes, ∀ object, file.catalog.lookup probe.table = some object →
    ∃ columns, columnsOf object = some columns ∧ probe.columns ⊆ columns

/-- What is probed is what the script creates. -/
theorem probes_planned : ∀ probe ∈ probes, ∃ columns,
    planned schemaSql probe.table = some (.table columns) ∧ probe.columns ⊆ columns := by
  have hconsumers : planned schemaSql "litefan_consumers" = some (.table ["id", "name",
      "topic_filter", "created_at", "draining_at", "scan_cursor", "drain_cursor"]) := by
    decide +kernel
  have harchives : planned schemaSql "litefan_archived_deliveries" = some (.table ["id",
      "consumer_id", "message_id", "archived_at", "delivery_count", "last_generation",
      "detail"]) := by
    decide +kernel
  intro probe hprobe
  rcases List.mem_cons.mp hprobe with rfl | hrest
  · exact ⟨_, hconsumers, by decide +kernel⟩
  · rw [List.mem_singleton.mp hrest]
    exact ⟨_, harchives, by decide +kernel⟩

/-- An open alone succeeds exactly on the files it can work with. -/
theorem openFile_ok_iff (inner : Inner) (file : File) :
    (openFile inner file).2 = .ok inner ↔ Compatible file := by
  have hroom : (runAll (schemaSql.map Definition.statement) file.catalog).2 = .ok () ↔
      ∀ definition ∈ schemaSql, definition.Admits file.catalog :=
    runAll_ok_iff wellFormed_schemaSql
  unfold openFile
  by_cases hnew : file.userVersion > schemaVersion
  · rw [if_pos hnew]
    refine iff_of_false (fun h => by cases h) fun h => ?_
    exact absurd h.version (not_le.mpr hnew)
  · rw [if_neg hnew]
    cases hran : runAll (schemaSql.map Definition.statement) file.catalog with
    | mk catalog result =>
      rw [hran] at hroom
      cases result with
      | error cause =>
        refine iff_of_false (fun h => by cases h) fun h => ?_
        cases hroom.mpr h.room
      | ok _ =>
        have hlookup := lookup_runAll hran
        have hprobes : probes.all (Probe.answered · catalog) = true ↔
            ∀ probe ∈ probes, ∀ object, file.catalog.lookup probe.table = some object →
              ∃ columns, columnsOf object = some columns ∧ probe.columns ⊆ columns := by
          rw [List.all_eq_true]
          refine forall₂_congr fun probe hprobe => ?_
          obtain ⟨columns, hplanned, hsub⟩ := probes_planned probe hprobe
          rw [Probe.answered, hlookup, hplanned]
          cases file.catalog.lookup probe.table with
          | none => simpa [columnsOf] using hsub
          | some object => cases hobject : columnsOf object <;> simp [hobject]
        dsimp only
        by_cases hall : probes.all (Probe.answered · catalog) = true
        · rw [if_pos hall]
          exact iff_of_true rfl ⟨not_lt.mp hnew, hroom.mp rfl, hprobes.mp hall⟩
        · rw [if_neg hall]
          exact iff_of_false (fun h => by cases h) fun h => hall (hprobes.mpr h.probed)

/-- A table of another spelling is the table, and here the index on it fails. -/
example : (openFile Inner.default ⟨[("LITEFAN_MESSAGES", .table ["x"])], 0⟩).2 =
    .error (.sqlx .noSuchColumn) := by decide +kernel

/-- Nor does the spelling of columns matter. -/
example : (openFile Inner.default ⟨[("litefan_consumers", .table ["ID", "NAME", "TOPIC_FILTER",
    "CREATED_AT", "DRAINING_AT", "SCAN_CURSOR", "DRAIN_CURSOR"])], 0⟩).2 = .ok Inner.default := by
  decide +kernel

/-- The steps an open has ahead of it at most. -/
def Phase.left : Phase → ℕ
  | .reading => schemaSql.length + probes.length + 4
  | .defining _ rest => rest.length + probes.length + 3
  | .probing _ rest => rest.length + 2
  | .marking _ => 1
  | .finished _ => 0

/-- An open that has not finished can go on, and has fewer steps ahead then. -/
theorem Phase.goes_on (inner : Inner) (file : File) {phase : Phase}
    (h : ∀ result, phase ≠ .finished result) :
    ∃ next file', phase.advance inner file = some (next, file') ∧ next.left < phase.left := by
  cases phase with
  | finished result => exact absurd rfl (h result)
  | reading =>
    rw [advance]
    split_ifs with hnew
    · exact ⟨_, _, rfl, by simp [left]⟩
    · exact ⟨_, _, rfl, by simp [left]⟩
  | defining found rest =>
    cases rest with
    | nil => exact ⟨_, _, rfl, by simp [left]⟩
    | cons definition rest =>
      rw [advance]
      cases definition.run file.catalog with
      | error cause => exact ⟨_, _, rfl, by simp [left]⟩
      | ok catalog => exact ⟨_, _, rfl, by simp [left]⟩
  | probing found rest =>
    cases rest with
    | nil => exact ⟨_, _, rfl, by simp [left]⟩
    | cons probe rest =>
      rw [advance]
      split_ifs
      · exact ⟨_, _, rfl, by simp [left]⟩
      · exact ⟨_, _, rfl, by simp [left]⟩
  | marking found =>
    rw [advance]
    split_ifs
    · exact ⟨_, _, rfl, by simp [left]⟩
    · exact ⟨_, _, rfl, by simp [left]⟩

/-- No open has more steps ahead than when it began. -/
theorem left_run {file : File} {moves : List (Move World Action)} {w : World}
    (hrun : Run (labelled World.step) ⟨file, []⟩ moves w) :
    ∀ opener ∈ w.openers, opener.phase.left ≤ 17 := by
  refine hrun.invariant (I := fun w => ∀ opener ∈ w.openers, opener.phase.left ≤ 17)
    (fun opener hopener => absurd hopener List.not_mem_nil) ?_
  rintro ⟨before, action, after⟩ hstep hbefore opener hopener
  change before.step action = some after at hstep
  cases action with
  | begin config =>
    obtain ⟨inner, hchecked, rfl⟩ := begin_eq hstep
    rcases List.mem_append.mp hopener with hold | hnew
    · exact hbefore opener hold
    · rw [List.mem_singleton.mp hnew]
      exact (by decide : Phase.reading.left ≤ 17)
  | advance i =>
    obtain ⟨moving, phase, file', hmoving, hadvance, rfl⟩ := advance_eq hstep
    rcases List.mem_or_eq_of_mem_set hopener with hold | rfl
    · exact hbefore opener hold
    · have hmany := hbefore moving (List.mem_of_getElem? hmoving)
      have hgoing : ∀ result, moving.phase ≠ .finished result := by
        intro result hphase
        rw [hphase] at hadvance
        cases hadvance
      obtain ⟨next, file'', hnext, hless⟩ := Phase.goes_on moving.inner before.file hgoing
      obtain ⟨rfl, -⟩ := Prod.mk.inj (Option.some.inj (hnext.symm.trans hadvance))
      exact hless.le.trans hmany

/-- Wherever the others stand, an open that goes on alone finishes in as many steps as it has
ahead. -/
theorem finishes_alone {w : World} {i : ℕ} {opener : Opener} (h : w.openers[i]? = some opener) :
    ∃ moves w' result, Run (labelled World.step) w moves w' ∧ moves.length ≤ opener.phase.left ∧
      (∀ move ∈ moves, move.action = .advance i) ∧
      w'.openers[i]? = some { opener with phase := .finished result } := by
  induction hleft : opener.phase.left using Nat.strong_induction_on generalizing w opener with
  | h n ih =>
    by_cases hfinished : ∃ result, opener.phase = .finished result
    · obtain ⟨result, hphase⟩ := hfinished
      refine ⟨[], w, result, .nil, Nat.zero_le _, ?_, ?_⟩
      · exact fun move hmove => absurd hmove List.not_mem_nil
      · rw [h, ← hphase]
    · obtain ⟨next, file, hadvance, hless⟩ :=
        Phase.goes_on opener.inner w.file (not_exists.mp hfinished)
      have hstep : w.step (.advance i) =
          some ⟨file, w.openers.set i { opener with phase := next }⟩ := by
        simp only [World.step, h, hadvance, Option.map_some]
      have hnext : (w.openers.set i { opener with phase := next })[i]? =
          some { opener with phase := next } :=
        List.getElem?_set_self (List.getElem?_eq_some_iff.mp h).1
      obtain ⟨moves, w', result, hrun, hmoves, hown, hresult⟩ :=
        ih next.left (hleft ▸ hless)
          (w := ⟨file, w.openers.set i { opener with phase := next }⟩) hnext rfl
      refine ⟨_, w', result, (labelled_single hstep).append hrun, ?_, ?_, hresult⟩
      · rw [List.singleton_append, List.length_cons]
        omega
      · intro move hmove
        rcases List.mem_cons.mp hmove with rfl | hlater
        · rfl
        · exact hown move hlater

/-- What the opens of a file come to. -/
structure Converges (file : File) (w : World) : Prop where
  /-- An open that has finished reports what it reports alone, and the file is as it leaves it
  then. -/
  alone : ∀ opener ∈ w.openers, ∀ result, opener.phase = .finished result →
    openWithConfig opener.config file = (w.file, result)
  /-- It has succeeded exactly if the file was one it can work with. -/
  succeeds : ∀ opener ∈ w.openers, ∀ result, opener.phase = .finished result →
    (result = .ok opener.inner ↔ Compatible file)
  /-- Each can finish, wherever the others stand. -/
  finishes : ∀ i opener, w.openers[i]? = some opener →
    ∃ moves w' result, Run (labelled World.step) w moves w' ∧ moves.length ≤ 17 ∧
      (∀ move ∈ moves, move.action = .advance i) ∧
      openWithConfig opener.config file = (w'.file, result) ∧
      w'.openers[i]? = some { opener with phase := .finished result }
  /-- Nothing that was in the file is lost or changed, and only the schema is added. -/
  kept : Grows file.catalog w.file.catalog
  added : ∀ name object, w.file.catalog.lookup name = some object →
    file.catalog.lookup name = some object ∨ planned schemaSql name = some object
  /-- The file is marked when the schema is complete. -/
  marked : w.file.userVersion ≠ file.userVersion →
    w.file.userVersion = schemaVersion ∧ file.userVersion < schemaVersion ∧ Compatible file ∧
      (∀ definition ∈ schemaSql, definition.Settled w.file.catalog) ∧
      ∀ probe ∈ probes, probe.answered w.file.catalog = true
  /-- Opening the file again once an open has succeeded changes nothing. -/
  reopened : ∀ opener ∈ w.openers, ∀ result, opener.phase = .finished (.ok result) →
    ∀ inner, openFile inner w.file = (w.file, .ok inner)

/-- A handle an open returns means that the whole script has taken effect. -/
theorem Together.complete {file : File} {w : World} (h : Together file w) {opener : Opener}
    (hopener : opener ∈ w.openers) {inner : Inner} (hphase : opener.phase = .finished (.ok inner)) :
    runAll opening file = (w.file, .ok ()) ∧ (∀ f ∈ opening, f.done w.file) ∧
      inner = opener.inner := by
  obtain ⟨past, ahead, hscript, habreast⟩ := h.abreast
  have hfollows := habreast.follows _ (List.mem_map_of_mem hopener)
  rw [hphase] at hfollows
  obtain ⟨before, after, -, hnothing⟩ := hfollows
  obtain ⟨-, rfl⟩ := List.append_eq_nil_iff.mp hnothing.symm
  rw [List.append_nil] at hscript
  subst hscript
  have hsound := h.sound opener hopener
  rw [Opener.Sound, hphase] at hsound
  exact ⟨habreast.ran, habreast.done, hsound⟩

/-- An open that has finished reports what it reports alone. -/
theorem Together.alone {file : File} {w : World} (h : Together file w) {opener : Opener}
    (hopener : opener ∈ w.openers) {result : Except OpenError Inner}
    (hphase : opener.phase = .finished result) :
    openFile opener.inner file = (w.file, result) := by
  rw [openFile_eq]
  cases result with
  | ok inner =>
    obtain ⟨hran, -, rfl⟩ := h.complete hopener hphase
    rw [hran]
    rfl
  | error err =>
    obtain ⟨past, ahead, hscript, habreast⟩ := h.abreast
    have hfollows := habreast.follows _ (List.mem_map_of_mem hopener)
    rw [hphase] at hfollows
    obtain ⟨f, rest, rfl, hfails⟩ := hfollows
    rw [← hscript, runAll_stops habreast.ran hfails]
    rfl

/-- The file grows by the script. -/
theorem Together.evolves {file : File} {w : World} (h : Together file w) :
    Evolves file w.file := by
  obtain ⟨past, ahead, hscript, habreast⟩ := h.abreast
  have hkeeps : Evolves file (runAll past file).1 :=
    runAll_keeps (Evolves file) (Evolves.refl file) fun f hf s t hs hrun =>
      hs.trans (evolves_of_run (hscript ▸ List.mem_append_left ahead hf) hrun)
  rw [habreast.ran] at hkeeps
  exact hkeeps

/-- Only the mark changes the version. -/
theorem version_of_run {f : Statement File OpenError} (hf : f ∈ unmarked) {s t : File}
    (h : f.run s = .ok t) : t.userVersion = s.userVersion := by
  rw [unmarked, List.mem_cons, List.mem_append] at hf
  rcases hf with rfl | hdefine | hask
  · simp only [checkVersion] at h
    split_ifs at h
    cases h
    rfl
  · obtain ⟨definition, -, rfl⟩ := List.mem_map.mp hdefine
    cases hrun : definition.run s.catalog with
    | error cause =>
      simp only [define, hrun] at h
      cases h
    | ok catalog =>
      simp only [define, hrun] at h
      cases h
      rfl
  · obtain ⟨probe, -, rfl⟩ := List.mem_map.mp hask
    simp only [ask] at h
    split_ifs at h
    cases h
    rfl

/-- A version that has changed means that the whole script has taken effect. -/
theorem Together.marked {file : File} {w : World} (h : Together file w)
    (hchanged : w.file.userVersion ≠ file.userVersion) :
    runAll opening file = (w.file, .ok ()) ∧ ∀ f ∈ opening, f.done w.file := by
  obtain ⟨past, ahead, hscript, habreast⟩ := h.abreast
  rcases List.eq_nil_or_concat ahead with rfl | ⟨others, last, rfl⟩
  · rw [List.append_nil] at hscript
    subst hscript
    exact ⟨habreast.ran, habreast.done⟩
  · -- the mark, the last statement, is still ahead
    rw [List.concat_eq_append, ← List.append_assoc, opening] at hscript
    obtain ⟨hpast, -⟩ := List.append_inj' hscript rfl
    have hkeeps : (runAll past file).1.userVersion = file.userVersion :=
      runAll_keeps (fun s => s.userVersion = file.userVersion) rfl fun f hf s t hs hrun =>
        (version_of_run (hpast ▸ List.mem_append_left others hf) hrun).trans hs
    rw [habreast.ran] at hkeeps
    exact absurd hkeeps hchanged

/-- Any number of opens of one file, each statement at any time and any of them stopped
anywhere, come to what one open alone comes to. -/
theorem openers_converge {file : File} {moves : List (Move World Action)} {w : World}
    (hrun : Run (labelled World.step) ⟨file, []⟩ moves w) : Converges file w := by
  have htogether := together_run hrun
  have halone : ∀ {w : World}, Together file w → ∀ opener ∈ w.openers, ∀ result,
      opener.phase = .finished result → openWithConfig opener.config file = (w.file, result) := by
    intro w h opener hopener result hphase
    rw [openWithConfig, opener.checked]
    exact h.alone hopener hphase
  refine ⟨halone htogether, ?_, ?_, htogether.evolves.grows, htogether.evolves.adds, ?_, ?_⟩
  · intro opener hopener result hphase
    rw [← openFile_ok_iff opener.inner, htogether.alone hopener hphase]
  · intro i opener hopener
    obtain ⟨more, w', result, hmore, hlength, hown, hresult⟩ := finishes_alone hopener
    have hshort := left_run hrun opener (List.mem_of_getElem? hopener)
    have hreported := halone (together_run (hrun.append hmore)) _
      (List.mem_of_getElem? hresult) result rfl
    exact ⟨more, w', result, hmore, hlength.trans hshort, hown, hreported, hresult⟩
  · intro hchanged
    obtain ⟨hran, hdone⟩ := htogether.marked hchanged
    have hcompatible : Compatible file := by
      rw [← openFile_ok_iff Inner.default, openFile_eq, hran]
      rfl
    have hmark : w.file.userVersion = schemaVersion := hdone mark (by simp [opening])
    have hold := hcompatible.version
    refine ⟨hmark, by omega, hcompatible, fun definition hmem => ?_, fun probe hmem => ?_⟩
    · exact hdone (define definition)
        (List.mem_append_left _ (List.mem_cons_of_mem _
          (List.mem_append_left _ (List.mem_map_of_mem hmem))))
    · exact hdone (ask probe)
        (List.mem_append_left _ (List.mem_cons_of_mem _
          (List.mem_append_right _ (List.mem_map_of_mem hmem))))
  · intro opener hopener result hphase inner
    obtain ⟨-, hdone, -⟩ := htogether.complete hopener hphase
    rw [openFile_eq, runAll_again hdone]
    rfl

/-- Two opens of a new file: the second overtakes the first in the script. -/
theorem openers_converge_two :
    ∃ moves w, play World.step ([.begin Config.default, .begin Config.default] ++
        List.replicate 4 (.advance 0) ++ List.replicate 17 (.advance 1) ++
        List.replicate 13 (.advance 0)) ⟨⟨[], 0⟩, []⟩ = some (moves, w) ∧
      w.file.userVersion = 2 ∧ w.openers.map (fun opener => opener.phase.left) = [0, 0] ∧
      Converges ⟨[], 0⟩ w := by
  have hplayed : (play World.step ([.begin Config.default, .begin Config.default] ++
      List.replicate 4 (.advance 0) ++ List.replicate 17 (.advance 1) ++
      List.replicate 13 (.advance 0)) ⟨⟨[], 0⟩, []⟩).map (fun played =>
        (played.2.file.userVersion, played.2.openers.map fun opener => opener.phase.left)) =
      some (2, [0, 0]) := by
    decide +kernel
  obtain ⟨⟨moves, w⟩, hplay, hend⟩ := Option.map_eq_some_iff.mp hplayed
  obtain ⟨hversion, hleft⟩ := Prod.mk.inj hend
  exact ⟨moves, w, hplay, hversion, hleft, openers_converge (play_run hplay)⟩

end Results

end LiteFan.Opening

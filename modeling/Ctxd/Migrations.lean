import Ctxd.Lib.Sql
import Ctxd.Models
import Mathlib.Data.List.MinMax
import Mathlib.Data.List.Sort
import Mathlib.Data.String.Basic

/-!
# The migration of the entries table

`CtxfsStore` brings its database up to date whenever it is opened.  An `entries` table without a writer for each row,
or without the unique index over the writers' source keys, is renamed, created again and filled from the renamed one.
The statements stand under `with self.connection`, but the driver opens no transaction before the `INSERT`, so renaming
and creating commit on their own.  An opening that is stopped between its renaming and its commit leaves a table that
the next opening takes for a new one: `openings_hold_iff` says in which runs of openings the rows survive.
-/

namespace Ctxd

open Program Sql

namespace Migrations

/-! ### The database -/

/-- What becomes of `DROP TABLE IF EXISTS grep_index`. -/
inductive GrepIndex where
  | absent
  | loadable
  /-- The tokenizer or the module of the table is not available. -/
  | incapable
  | damaged
  deriving DecidableEq, Repr

/-- The catalog database as the migration sees it. -/
structure Database where
  /-- The entries table and those it was renamed to. -/
  tables : String → Option Table
  writerPrefixes : Option (List WriterPrefix)
  grepIndex : GrepIndex
  machineColumns : Option (List String)
  /-- The other tables and the indexes. -/
  objects : List String

def entryColumns : List String :=
  ["user_id", "writer_id", "path", "source_key", "source_version", "doc_class", "file_format", "content_hash",
    "size_bytes", "line_count", "object_id", "provenance", "created_at", "updated_at"]

/-- The table that `_create_entries_table` creates. -/
def newEntries : Table :=
  ⟨entryColumns, entryColumns, [["user_id", "path"], ["user_id", "writer_id", "source_key"]], []⟩

def hasScopedSourceKeyIndex (t : Table) : Bool :=
  t.unique.any fun columns => columns = ["user_id", "writer_id", "source_key"]

/-- The table is taken as it is. -/
def accepted (t : Table) : Bool := t.columns.contains "writer_id" && hasScopedSourceKeyIndex t

def operational (message : String) : Error := .operational message

def createEntriesTable (d : Database) : Except Error Database :=
  if (d.tables "entries").isSome then .error (operational "table entries already exists")
  else .ok { d with tables := Function.update d.tables "entries" (some newEntries) }

def renameTable (name newName : String) (d : Database) : Except Error Database :=
  match d.tables name with
  | none => .error (operational s!"no such table: {name}")
  | some t =>
    if (d.tables newName).isSome then
      .error (operational s!"there is already another table or index with this name: {newName}")
    else .ok { d with tables := Function.update (Function.update d.tables name none) newName (some t) }

def dropTable (name : String) (d : Database) : Except Error Database :=
  match d.tables name with
  | none => .error (operational s!"no such table: {name}")
  | some _ => .ok { d with tables := Function.update d.tables name none }

/-! ### The writer of a legacy row -/

/-- `text LIKE pattern`: `%` is any text, `_` any character, and ASCII letters match in either case. -/
def like : List Char → List Char → Bool
  | [], text => text.isEmpty
  | c :: pattern, text =>
    if c = '%' then text.tails.any (like pattern)
    else match text with
      | [] => false
      | d :: text => (c = '_' || c.toLower = d.toLower) && like pattern text

/-- The row lies at the prefix or below it. -/
def underPrefix (r : Row) (p : WriterPrefix) : Bool :=
  match r "path" with
  | .text path => r "user_id" = .text p.userId &&
      (path = p.prefixPath || like (p.prefixPath.toList ++ "/%".toList) path.toList)
  | _ => false

/-- The order of the primary key of `writer_prefixes`, in which the prefixes of a user are read. -/
def inKeyOrder (p q : WriterPrefix) : Prop :=
  p.writerId < q.writerId ∨ p.writerId = q.writerId ∧ p.prefixPath ≤ q.prefixPath

instance : DecidableRel inKeyOrder := fun p q => by
  unfold inKeyOrder
  infer_instance

/-- `ORDER BY length(prefix) DESC LIMIT 1` keeps the first of the longest that are read. -/
def writerExpr (prefixes : List WriterPrefix) (legacy : Table) (r : Row) : Value :=
  if legacy.columns.contains "writer_id" then r "writer_id"
  else match ((prefixes.filter (underPrefix r)).insertionSort inKeyOrder).argmax (fun p => p.prefixPath.length) with
    | some p => .text p.writerId
    | none => .text "__legacy__"

/-- A row of the `SELECT` that fills the new table. -/
def migratedRow (prefixes : List WriterPrefix) (legacy : Table) (r : Row) : Row := fun column =>
  if column = "writer_id" then writerExpr prefixes legacy r
  else if entryColumns.contains column then r column
  else .null

def Database.prefixes (d : Database) : List WriterPrefix := d.writerPrefixes.getD []

def migratedRows (d : Database) (legacy : Table) : List Row := legacy.rows.map (migratedRow d.prefixes legacy)

/-- The columns the `SELECT` names. -/
def selects (legacy : Table) : Bool :=
  entryColumns.all fun column => column = "writer_id" || legacy.columns.contains column

def copyEntries (legacy : String) (d : Database) : Except Error Database :=
  match d.tables legacy, d.tables "entries" with
  | some old, some new =>
    if selects old then do
      let new ← new.insertRows (migratedRows d old)
      return { d with tables := Function.update d.tables "entries" (some new) }
    else .error (operational "no such column")
  | _, _ => .error (operational "no such table")

/-! ### The statements -/

/-- The places where an opening may be stopped: before each statement that changes something, and before the commit. -/
inductive Point where
  | createWriterPrefixes
  | renameEntries
  | createEntries
  | copyEntries
  | dropLegacy
  | dropGrepIndex
  | dropGrepEntries
  | dropGrepMetadata
  | createSubmissions
  | createDecisions
  | createMachines
  | addEnrollmentKey
  | createCredentialKeys
  | createMachinesListing
  | createFolders
  | createFoldersListing
  | commit
  deriving DecidableEq, Repr

abbrev Migration := Session Error Database Unit

def createWriterPrefixes (d : Database) : Except Error Database := .ok { d with writerPrefixes := some d.prefixes }

/-- `CREATE TABLE IF NOT EXISTS` and `CREATE INDEX IF NOT EXISTS`. -/
def createMissing (name : String) (d : Database) : Except Error Database :=
  .ok { d with objects := if d.objects.contains name then d.objects else d.objects ++ [name] }

def dropPresent (name : String) (d : Database) : Except Error Database :=
  .ok { d with objects := d.objects.erase name }

def dropGrepIndex (d : Database) : Except Error Database :=
  match d.grepIndex with
  | .incapable => .error (operational "no such module: fts5")
  | .damaged => .error (operational "database disk image is malformed")
  | _ => .ok { d with grepIndex := .absent }

def isLegacyFtsCapabilityError (error : Error) : Bool := error = operational "no such module: fts5"

def machineColumnNames : List String :=
  ["user_id", "machine_id", "machine_key", "local_registration_id", "registration_name", "registration_description",
    "registration_platform", "registration_ctxd_version", "name", "description", "state", "platform", "ctxd_version",
    "credential_key_id", "enrollment_key_id", "registered_at"]

def createMachines (d : Database) : Except Error Database :=
  .ok { d with machineColumns := some (d.machineColumns.getD machineColumnNames) }

def hasEnrollmentKey (d : Database) : Bool := (d.machineColumns.getD machineColumnNames).contains "enrollment_key_id"

def addEnrollmentKey (d : Database) : Except Error Database :=
  .ok { d with machineColumns := d.machineColumns.map (· ++ ["enrollment_key_id"]) }

def migrateEntriesTable (stop : Option Point) (draw : String) : Migration := do
  match ← query fun d => d.tables "entries" with
  | none => stopAt stop .createEntries (schema createEntriesTable)
  | some entries =>
    if accepted entries then return
    let legacy := "entries_legacy_" ++ draw
    stopAt stop .renameEntries (schema (renameTable "entries" legacy))
    stopAt stop .createEntries (schema createEntriesTable)
    stopAt stop .copyEntries (change (copyEntries legacy))
    stopAt stop .dropLegacy (schema (dropTable legacy))

def dropLegacyGrepIndex (stop : Option Point) : Migration := do
  let dropped ← tryCatch (do stopAt stop .dropGrepIndex (schema dropGrepIndex); return true) fun halt =>
    match halt with
    | .raised error => if isLegacyFtsCapabilityError error then return false else throw halt
    | .stopped => throw halt
  if dropped then
    stopAt stop .dropGrepEntries (schema (dropPresent "grep_index_entries"))
    stopAt stop .dropGrepMetadata (schema (dropPresent "grep_index_metadata"))

/-- The statements of `apply_migrations` after the entries table. -/
def createCatalogTables (stop : Option Point) : Migration := do
  stopAt stop .createSubmissions (schema (createMissing "submissions"))
  stopAt stop .createDecisions (schema (createMissing "decisions"))
  stopAt stop .createMachines (schema createMachines)
  unless ← query hasEnrollmentKey do
    stopAt stop .addEnrollmentKey (schema addEnrollmentKey)
  stopAt stop .createCredentialKeys (schema (createMissing "machines_credential_key"))
  stopAt stop .createMachinesListing (schema (createMissing "machines_listing"))
  stopAt stop .createFolders (schema (createMissing "tracked_folders"))
  stopAt stop .createFoldersListing (schema (createMissing "tracked_folders_listing"))

def applyMigrations (stop : Option Point) (draw : String) : Migration :=
  within do
    stopAt stop .createWriterPrefixes (schema createWriterPrefixes)
    migrateEntriesTable stop draw
    dropLegacyGrepIndex stop
    createCatalogTables stop
    stopAt stop .commit (return)

/-- An opening of the store: the name it draws and the place where it is stopped, if it is. -/
structure Opening where
  draw : String
  stop : Option Point
  deriving DecidableEq, Repr

/-- What the file holds after the opening. -/
def Opening.run (o : Opening) (d : Database) : Database :=
  (endState (applyMigrations o.stop o.draw) ⟨d, none⟩).saved

def openAll (d : Database) (openings : List Opening) : Database := openings.foldl (fun d o => o.run d) d

/-! ### An opening that leaves the entries table alone -/

variable {d d' : Database} {t : Table} {o : Opening} {stop : Option Point} {draw : String}

/-- `P` is about the entries table and those it was renamed to. -/
def AboutTables (P : Database → Prop) : Prop := ∀ d d' : Database, d'.tables = d.tables → P d → P d'

variable {P : Database → Prop}

private theorem preserves_same {f : Database → Except Error Database} {point : Point} (hP : AboutTables P)
    (hf : ∀ d d', f d = .ok d' → d'.tables = d.tables) : Preserves P (stopAt stop point (schema f)) :=
  .stopAt (.schema fun d d' h hd => hP d d' (hf d d' hd) h)

private theorem createMissing_tables (name : String) :
    ∀ d d', createMissing name d = .ok d' → d'.tables = d.tables := by
  intro d d' h
  cases h
  rfl

private theorem dropPresent_tables (name : String) : ∀ d d', dropPresent name d = .ok d' → d'.tables = d.tables := by
  intro d d' h
  cases h
  rfl

private theorem dropGrepIndex_tables : ∀ d d', dropGrepIndex d = .ok d' → d'.tables = d.tables := by
  intro d d' h
  unfold dropGrepIndex at h
  split at h <;> cases h
  rfl

private theorem dropLegacyGrepIndex_preserves (hP : AboutTables P) : Preserves P (dropLegacyGrepIndex stop) := by
  refine .bind (.tryCatch ?_ ?_) ?_
  · exact .bind (preserves_same hP dropGrepIndex_tables) fun _ => .pure
  · intro halt
    cases halt with
    | stopped => exact .throw
    | raised error =>
      dsimp only
      split
      · exact .pure
      · exact .throw
  · intro dropped
    split
    · exact .bind (preserves_same hP (dropPresent_tables _)) fun _ => preserves_same hP (dropPresent_tables _)
    · exact .pure

private theorem createCatalogTables_preserves (hP : AboutTables P) : Preserves P (createCatalogTables stop) := by
  have hmissing : ∀ name point, Preserves P (stopAt stop point (schema (createMissing name))) := by
    intro name point
    exact preserves_same hP (createMissing_tables name)
  refine .bind (hmissing _ _) fun _ => .bind (hmissing _ _) fun _ => .bind (preserves_same hP ?_) fun _ => ?_
  · intro d d' h
    cases h
    rfl
  have hindexes : Preserves P (do
      stopAt stop .createCredentialKeys (schema (createMissing "machines_credential_key"))
      stopAt stop .createMachinesListing (schema (createMissing "machines_listing"))
      stopAt stop .createFolders (schema (createMissing "tracked_folders"))
      stopAt stop .createFoldersListing (schema (createMissing "tracked_folders_listing"))) :=
    .bind (hmissing _ _) fun _ => .bind (hmissing _ _) fun _ => .bind (hmissing _ _) fun _ => hmissing _ _
  refine .query fun s _ => ?_
  dsimp only
  split
  · exact hindexes
  · refine .bind (preserves_same hP ?_) fun _ => hindexes
    intro d d' h
    cases h
    rfl

/-- The property survives every opening if migrating the table keeps it. -/
private theorem run_preserves (hP : AboutTables P) (hmigrate : Preserves P (migrateEntriesTable o.stop o.draw))
    (h : P d) :
    P (o.run d) := by
  have hbody : Preserves P (applyMigrations o.stop o.draw) := by
    refine .within (.bind (preserves_same hP ?_) fun _ => .bind hmigrate fun _ =>
      .bind (dropLegacyGrepIndex_preserves hP) fun _ => .bind (createCatalogTables_preserves hP) fun _ => .stopAt .pure)
    intro d d' h
    cases h
    rfl
  exact ((hbody _ (Connection.keeps_idle h)).mono (fun _ _ h => h.saved) (fun _ _ h => h.saved)).endState

private theorem aboutTables_entries {p : Option Table → Prop} : AboutTables fun d => p (d.tables "entries") := by
  intro d d' h hd
  rwa [h]

/-- A table that is taken as it is stays. -/
private theorem run_of_accepted (h : d.tables "entries" = some t) (ht : accepted t = true) :
    (o.run d).tables "entries" = some t := by
  refine run_preserves (P := fun d => d.tables "entries" = some t) (aboutTables_entries (p := fun t' => t' = some t))
    (.query fun s hs => ?_) h
  rw [hs]
  dsimp only
  rw [if_pos ht]
  exact .pure

/-- The rows are not in the table: it is missing, or it is the new one. -/
def Lost (d : Database) : Prop := d.tables "entries" = none ∨ d.tables "entries" = some newEntries

/-- The rows are not in the table; it is missing only when the opening was stopped before creating it. -/
def LostAt (stop : Option Point) (d : Database) : Prop :=
  d.tables "entries" = some newEntries ∨ d.tables "entries" = none ∧ stop = some .createEntries

private theorem LostAt.lost (h : LostAt stop d) : Lost d := by
  rcases h with h | ⟨h, -⟩
  · exact .inr h
  · exact .inl h

private theorem accepted_newEntries : accepted newEntries = true := by
  decide

private theorem createEntriesTable_ok (h : createEntriesTable d = .ok d') : d'.tables "entries" = some newEntries := by
  unfold createEntriesTable at h
  split at h
  · cases h
  · cases h
    simp

private theorem Lost.run (h : Lost d) : Lost (o.run d) := by
  refine run_preserves (P := Lost) (aboutTables_entries (p := fun t => t = none ∨ t = some newEntries))
    (.query fun s hs => ?_) h
  rcases hs with hs | hs
  · rw [hs]
    exact .stopAt (.schema fun _ _ _ h => .inr (createEntriesTable_ok h))
  · rw [hs]
    dsimp only
    rw [if_pos accepted_newEntries]
    exact .pure

/-! ### An opening that renames it -/

def entryPoints : List Point := [.createEntries, .copyEntries, .dropLegacy]

/-- The points of the statements on the old grep index. -/
def Database.grepPoints (d : Database) : List Point :=
  if d.grepIndex = .incapable then [.dropGrepIndex] else [.dropGrepIndex, .dropGrepEntries, .dropGrepMetadata]

def Database.catalogPoints (d : Database) : List Point :=
  [.createSubmissions, .createDecisions, .createMachines] ++ (if hasEnrollmentKey d then [] else [.addEnrollmentKey]) ++
    [.createCredentialKeys, .createMachinesListing, .createFolders, .createFoldersListing]

/-- The new table takes the rows of the legacy table. -/
structure Copies (d : Database) (legacy : Table) : Prop where
  selects : selects legacy = true
  admits : newEntries.Admits (migratedRows d legacy)

def migrated (d : Database) (legacy : Table) : Table := { newEntries with rows := migratedRows d legacy }

private theorem copyEntries_eq_ok_iff {legacy : String} (hold : d.tables legacy = some t)
    (hnew : d.tables "entries" = some newEntries) :
    copyEntries legacy d = .ok d' ↔
      d' = { d with tables := Function.update d.tables "entries" (some (migrated d t)) } ∧ Copies d t := by
  have hkeys : ∀ key ∈ newEntries.unique, ∀ c ∈ key, c ∈ newEntries.notNull := by decide
  unfold copyEntries
  rw [hold, hnew]
  dsimp only
  by_cases hselects : selects t = true
  · rw [if_pos hselects, bind_eq_ok]
    constructor
    · rintro ⟨new, hinsert, h⟩
      obtain ⟨rfl, hadmits⟩ := (Table.insertRows_eq_ok_iff hkeys).1 hinsert
      cases h
      exact ⟨by simp [migrated, newEntries], ⟨hselects, hadmits⟩⟩
    · rintro ⟨rfl, hcopies⟩
      refine ⟨migrated d t, ?_, rfl⟩
      exact (Table.insertRows_eq_ok_iff hkeys).2 ⟨by simp [migrated, newEntries], hcopies.admits⟩
  · rw [if_neg hselects]
    constructor
    · intro h
      cases h
    · intro h
      exact absurd h.2.selects hselects

theorem migrateEntriesTable_spec (h : d.tables "entries" = some t) (ht : accepted t = false)
    (hfree : d.tables ("entries_legacy_" ++ draw) = none) (hstop : stop ≠ some .renameEntries) :
    Ends (migrateEntriesTable stop draw)
      (fun _ c => (∀ point ∈ entryPoints, stop ≠ some point) ∧ Copies d t ∧ ∃ s d', c = ⟨s, some d'⟩ ∧
        s.tables "entries" = some newEntries ∧ d'.tables "entries" = some (migrated d t) ∧ d'.grepIndex =
          d.grepIndex ∧ d'.machineColumns = d.machineColumns)
      (fun _ c => LostAt stop c.saved ∧ (Copies d t → ∃ point ∈ entryPoints, stop = some point)) ⟨d, none⟩ := by
  generalize hlegacy : "entries_legacy_" ++ draw = legacy at hfree
  have hne : legacy ≠ "entries" := by
    rintro rfl
    rw [h] at hfree
    cases hfree
  have hrename : renameTable "entries" legacy d =
      .ok { d with tables := Function.update (Function.update d.tables "entries" none) legacy (some t) } := by
    simp [renameTable, h, hfree]
  generalize hd₂ : ({ d with tables := Function.update (Function.update d.tables "entries" none) legacy (some t) } :
    Database) = d₂ at hrename
  have hentries₂ : d₂.tables "entries" = none := by
    simp [← hd₂, hne.symm]
  have hcreate : createEntriesTable d₂ =
    .ok { d₂ with tables := Function.update d₂.tables "entries" (some newEntries) } := by
    simp [createEntriesTable, hentries₂]
  generalize hd₃ : ({ d₂ with tables := Function.update d₂.tables "entries" (some newEntries) } : Database) =
    d₃ at hcreate
  have hentries₃ : d₃.tables "entries" = some newEntries := by
    simp [← hd₃]
  have hold₃ : d₃.tables legacy = some t := by
    simp [← hd₃, ← hd₂, hne]
  have hrows : migrated d₃ t = migrated d t ∧ (Copies d₃ t ↔ Copies d t) := by
    subst hd₃ hd₂
    exact ⟨rfl, fun h => ⟨h.selects, h.admits⟩, fun h => ⟨h.selects, h.admits⟩⟩
  unfold migrateEntriesTable
  rw [ends_bind, ends_query, Connection.view_idle, h]
  dsimp only
  rw [if_neg (by simp [ht]), hlegacy]
  simp only [ends_bind, ends_stopAt, ends_schema, ends_change, Connection.view_idle, hrename, if_neg hstop,
    Except.ok.injEq,
    forall_eq', Connection.store_idle, hcreate, reduceCtorEq, false_imp_iff, implies_true, and_true]
  have hstopped : ∀ point ∈ entryPoints, stop = some point → ∃ point ∈ entryPoints, stop = some point :=
    fun point hpoint h => ⟨point, hpoint, h⟩
  by_cases hcreateStop : stop = some .createEntries
  · rw [if_pos hcreateStop]
    exact ⟨.inr ⟨hentries₂, hcreateStop⟩, fun _ => hstopped _ (by decide) hcreateStop⟩
  rw [if_neg hcreateStop]
  by_cases hcopyStop : stop = some .copyEntries
  · rw [if_pos hcopyStop]
    exact ⟨.inl hentries₃, fun _ => hstopped _ (by decide) hcopyStop⟩
  rw [if_neg hcopyStop]
  have hcopy : ∀ s, copyEntries legacy d₃ = .ok s ↔ _ := fun s => copyEntries_eq_ok_iff hold₃ hentries₃
  rw [hrows.1, hrows.2] at hcopy
  constructor
  · intro s hs
    obtain ⟨rfl, hcopies⟩ := (hcopy s).1 hs
    by_cases hdropStop : stop = some .dropLegacy
    · rw [if_pos hdropStop]
      exact ⟨.inl hentries₃, fun _ => hstopped _ (by decide) hdropStop⟩
    rw [if_neg hdropStop]
    have hdrop : dropTable legacy { d₃ with tables := Function.update d₃.tables "entries" (some (migrated d t)) } =
        .ok { d₃ with
          tables := Function.update (Function.update d₃.tables "entries" (some (migrated d t))) legacy none } := by
      simp [dropTable, hne, hold₃]
    rw [Connection.view_begun, hdrop]
    refine ⟨?_, fun error herror => by cases herror⟩
    intro s hs
    cases hs
    refine ⟨?_, hcopies, d₃, _, rfl, hentries₃, by simp [hne.symm], by rw [← hd₃, ← hd₂], by rw [← hd₃, ← hd₂]⟩
    simp [entryPoints, hcreateStop, hcopyStop, hdropStop]
  · intro error herror
    refine ⟨.inl hentries₃, fun hcopies => ?_⟩
    rw [(hcopy _).2 ⟨rfl, hcopies⟩] at herror
    cases herror

private theorem dropLegacyGrepIndex_spec {s : Database} :
    Ends (dropLegacyGrepIndex stop)
      (fun _ c => d.grepIndex ≠ .damaged ∧ (∀ point ∈ d.grepPoints, stop ≠ some point) ∧
        ∃ d', c = ⟨s, some d'⟩ ∧ d'.tables = d.tables ∧ d'.machineColumns = d.machineColumns)
      (fun _ c => c.saved = s ∧ (d.grepIndex ≠ .damaged → ∃ point ∈ d.grepPoints, stop = some point)) ⟨s, some d⟩ := by
  have hstopped : ∀ point ∈ d.grepPoints, stop = some point → ∃ point ∈ d.grepPoints, stop = some point :=
    fun point hpoint h => ⟨point, hpoint, h⟩
  have hfirst : .dropGrepIndex ∈ d.grepPoints := by
    unfold Database.grepPoints
    split <;> simp
  unfold dropLegacyGrepIndex
  rw [ends_bind, ends_tryCatch, ends_bind, ends_stopAt]
  by_cases hstop : stop = some .dropGrepIndex
  · rw [if_pos hstop]
    exact ⟨rfl, fun _ => hstopped _ hfirst hstop⟩
  rw [if_neg hstop, ends_schema, Connection.view_begun]
  by_cases hindex : d.grepIndex = .incapable ∨ d.grepIndex = .damaged
  · rcases hindex with hindex | hindex
    · have hdrop : dropGrepIndex d = .error (operational "no such module: fts5") := by
        simp [dropGrepIndex, hindex]
      rw [hdrop]
      refine ⟨fun _ h => (by cases h), fun error herror => ?_⟩
      cases herror
      refine ⟨by simp [hindex], ?_, d, rfl, rfl, rfl⟩
      simp [Database.grepPoints, hindex, hstop]
    · have hdrop : dropGrepIndex d = .error (operational "database disk image is malformed") := by
        simp [dropGrepIndex, hindex]
      rw [hdrop]
      refine ⟨fun _ h => (by cases h), fun error herror => ?_⟩
      cases herror
      exact ⟨rfl, fun hne => absurd hindex hne⟩
  · have hdrop : dropGrepIndex d = .ok { d with grepIndex := .absent } := by
      unfold dropGrepIndex
      split <;> simp_all
    have hpoints : d.grepPoints = [.dropGrepIndex, .dropGrepEntries, .dropGrepMetadata] :=
      if_neg fun h => hindex (.inl h)
    rw [hdrop]
    refine ⟨fun d' h => ?_, fun error herror => by cases herror⟩
    cases h
    show Ends (stopAt stop .dropGrepEntries (schema (dropPresent "grep_index_entries")) >>= fun _ =>
      stopAt stop .dropGrepMetadata (schema (dropPresent "grep_index_metadata"))) _ _ _
    rw [ends_bind]
    refine ends_begun rfl (fun h => ⟨rfl, fun _ => hstopped _ (by simp [hpoints]) h⟩) fun hentries => ?_
    refine ends_begun rfl (fun h => ⟨rfl, fun _ => hstopped _ (by simp [hpoints]) h⟩) fun hmetadata => ?_
    refine ⟨fun h => hindex (.inr h), ?_, _, rfl, rfl, rfl⟩
    simp [hpoints, hstop, hentries, hmetadata]

private theorem createCatalogTables_spec {s : Database} :
    Ends (createCatalogTables stop)
      (fun _ c => (∀ point ∈ d.catalogPoints, stop ≠ some point) ∧ ∃ d', c = ⟨s, some d'⟩ ∧ d'.tables = d.tables)
      (fun _ c => c.saved = s ∧ ∃ point ∈ d.catalogPoints, stop = some point) ⟨s, some d⟩ := by
  have hstopped : ∀ point, point ∈ d.catalogPoints → stop = some point → s = s ∧ ∃ point ∈ d.catalogPoints, stop =
    some point :=
    fun point hpoint h => ⟨rfl, point, hpoint, h⟩
  unfold createCatalogTables
  rw [ends_bind]
  refine ends_begun rfl (hstopped _ (by simp [Database.catalogPoints])) fun h₁ => ends_bind.2 ?_
  refine ends_begun rfl (hstopped _ (by simp [Database.catalogPoints])) fun h₂ => ends_bind.2 ?_
  refine ends_begun rfl (hstopped _ (by simp [Database.catalogPoints])) fun h₃ => ends_bind.2 ?_
  have hindexes : ∀ d' : Database, d'.tables =
    d.tables → (hasEnrollmentKey d = false → stop ≠ some .addEnrollmentKey) → 
      Ends (do
      stopAt stop .createCredentialKeys (schema (createMissing "machines_credential_key"))
      stopAt stop .createMachinesListing (schema (createMissing "machines_listing"))
      stopAt stop .createFolders (schema (createMissing "tracked_folders"))
      stopAt stop .createFoldersListing (schema (createMissing "tracked_folders_listing")))
      (fun _ c => (∀ point ∈ d.catalogPoints, stop ≠ some point) ∧ ∃ d', c = ⟨s, some d'⟩ ∧ d'.tables = d.tables)
      (fun _ c => c.saved = s ∧ ∃ point ∈ d.catalogPoints, stop = some point) ⟨s, some d'⟩ := by
    intro d' htables hkey
    rw [ends_bind]
    refine ends_begun rfl (hstopped _ (by simp [Database.catalogPoints])) fun h₅ => ends_bind.2 ?_
    refine ends_begun rfl (hstopped _ (by simp [Database.catalogPoints])) fun h₆ => ends_bind.2 ?_
    refine ends_begun rfl (hstopped _ (by simp [Database.catalogPoints])) fun h₇ => ?_
    refine ends_begun rfl (hstopped _ (by simp [Database.catalogPoints])) fun h₈ => ?_
    refine ⟨?_, _, rfl, htables⟩
    cases hd : hasEnrollmentKey d with
    | false => simp [Database.catalogPoints, hd, h₁, h₂, h₃, hkey hd, h₅, h₆, h₇, h₈]
    | true => simp [Database.catalogPoints, hd, h₁, h₂, h₃, h₅, h₆, h₇, h₈]
  rw [ends_query, Connection.view_begun]
  show Ends (if hasEnrollmentKey d = true then _ else _) _ _ _
  split
  · rename_i hkey
    exact hindexes _ rfl fun h => by simp [hkey] at h
  · rename_i hkey
    rw [ends_bind]
    refine ends_begun rfl (hstopped _ (by simp [Database.catalogPoints, hkey])) fun h₄ => ?_
    exact hindexes _ rfl fun _ => h₄

/-- Nothing stops the opening between its renaming and its commit. -/
structure Opening.Commits (o : Opening) (d : Database) : Prop where
  entries : ∀ point ∈ entryPoints, o.stop ≠ some point
  intact : d.grepIndex ≠ .damaged
  grepIndex : ∀ point ∈ d.grepPoints, o.stop ≠ some point
  catalog : ∀ point ∈ d.catalogPoints, o.stop ≠ some point
  commit : o.stop ≠ some .commit

/-- The opening comes to the renaming, and the name it draws is not taken. -/
def Opening.renames (o : Opening) (d : Database) : Bool :=
  o.stop ≠ some .createWriterPrefixes && o.stop ≠ some .renameEntries && (d.tables ("entries_legacy_" ++ o.draw)).isNone

/-- The database with its table of writer prefixes. -/
def Database.withPrefixes (d : Database) : Database := { d with writerPrefixes := some d.prefixes }

private theorem run_of_renames (h : d.tables "entries" = some t) (ht : accepted t = false) (ho : o.renames d = true) :
    (Copies d t ∧ o.Commits d ∧ (o.run d).tables "entries" = some (migrated d t)) ∨
      (¬(Copies d t ∧ o.Commits d) ∧ LostAt o.stop (o.run d)) := by
  simp only [Opening.renames, Bool.and_eq_true, decide_eq_true_eq, Option.isNone_iff_eq_none] at ho
  obtain ⟨⟨hprefixes, hrename⟩, hfree⟩ := ho
  have hspec : Ends (applyMigrations o.stop o.draw)
      (fun _ c => Copies d t ∧ o.Commits d ∧ c.saved.tables "entries" = some (migrated d t))
      (fun _ c => ¬(Copies d t ∧ o.Commits d) ∧ LostAt o.stop c.saved) ⟨d, none⟩ := by
    unfold applyMigrations
    rw [ends_within, ends_bind, ends_stopAt, if_neg hprefixes, ends_schema]
    refine ⟨?_, fun error herror => (by cases herror)⟩
    intro d₁ hd₁
    cases hd₁
    rw [ends_bind]
    refine (migrateEntriesTable_spec (d := d.withPrefixes) h ht hfree hrename).mono ?_ ?_
    · intro _ c ⟨hentries, hcopies, s, d₂, hc, hlost, htable, hindex, hmachines⟩
      subst hc
      have hgrep : d₂.grepPoints = d.grepPoints := by
        unfold Database.grepPoints
        rw [hindex]
        rfl
      have hcatalog : ∀ d' : Database, d'.machineColumns = d₂.machineColumns → d'.catalogPoints = d.catalogPoints := by
        intro d' h
        unfold Database.catalogPoints hasEnrollmentKey
        rw [h, hmachines]
        rfl
      rw [ends_bind]
      refine (dropLegacyGrepIndex_spec (d := d₂)).mono ?_ ?_
      · intro _ c ⟨hintact, hdropped, d₃, hc, htables, hmachines⟩
        subst hc
        rw [ends_bind]
        refine (createCatalogTables_spec (d := d₃)).mono ?_ ?_
        · intro _ c ⟨hcreated, d₄, hc, htables'⟩
          subst hc
          rw [ends_stopAt]
          split
          · rename_i hcommit
            exact ⟨fun h => h.2.commit hcommit, .inl hlost⟩
          · rename_i hcommit
            rw [hcatalog d₃ hmachines] at hcreated
            rw [hgrep] at hdropped
            rw [hindex] at hintact
            refine ⟨⟨hcopies.selects, hcopies.admits⟩, ⟨hentries, hintact, hdropped, hcreated, hcommit⟩, ?_⟩
            show d₄.tables "entries" = some (migrated d t)
            rw [htables', htables, htable]
            rfl
        · intro _ c ⟨hc, point, hpoint, hstop⟩
          rw [hcatalog d₃ hmachines] at hpoint
          exact ⟨fun h => h.2.catalog point hpoint hstop, .inl (hc ▸ hlost)⟩
      · intro _ c ⟨hc, hdropped⟩
        refine ⟨fun h => ?_, .inl (hc ▸ hlost)⟩
        obtain ⟨point, hpoint, hstop⟩ := hdropped (hindex ▸ h.2.intact)
        exact h.2.grepIndex point (hgrep ▸ hpoint) hstop
    · intro _ c ⟨hlost, hentries⟩
      refine ⟨fun h => ?_, hlost⟩
      obtain ⟨point, hpoint, hstop⟩ := hentries ⟨h.1.selects, h.1.admits⟩
      exact h.2.entries point hpoint hstop
  exact (hspec.mono (fun _ c h => .inl h) (fun _ c h => .inr h) :
    Ends _ (fun _ c => (Copies d t ∧ o.Commits d ∧ c.saved.tables "entries" = some (migrated d t)) ∨
      (¬(Copies d t ∧ o.Commits d) ∧ LostAt o.stop c.saved)) _ _).endState

private theorem run_of_not_renames (h : d.tables "entries" = some t) (ht : accepted t = false)
    (ho : o.renames d = false) :
    o.run d = d ∨ o.run d = d.withPrefixes := by
  have hspec : Ends (applyMigrations o.stop o.draw) (fun _ _ => False)
    (fun _ c => c.saved = d ∨ c.saved = d.withPrefixes)
      ⟨d, none⟩ := by
    unfold applyMigrations
    rw [ends_within, ends_bind, ends_stopAt]
    split
    · exact .inl rfl
    rename_i hprefixes
    rw [ends_schema]
    refine ⟨?_, fun error herror => (by cases herror)⟩
    intro d₁ hd₁
    cases hd₁
    show Ends (migrateEntriesTable o.stop o.draw >>= _) _ _ ⟨d.withPrefixes, none⟩
    rw [ends_bind]
    unfold migrateEntriesTable
    rw [ends_bind, ends_query, Connection.view_idle]
    show Ends (match d.tables "entries" with | none => _ | some entries => _) _ _ _ 
    rw [h]
    dsimp only
    rw [if_neg (by simp [ht]), ends_bind, ends_stopAt]
    split
    · exact .inr rfl
    rename_i hrename
    have htaken : (d.tables ("entries_legacy_" ++ o.draw)).isSome := by
      simpa [Opening.renames, hprefixes, hrename] using ho
    rw [ends_schema]
    constructor
    · intro d₁ hd₁
      simp [renameTable, Database.withPrefixes, h, htaken] at hd₁
    · intro error _
      exact .inr rfl
  exact (hspec.mono (fun _ _ h => h.elim) (fun _ _ h => h)).endState

private theorem Lost.run_complete (h : Lost d) (ho : o.stop = none) : (o.run d).tables "entries" = some newEntries := by
  have hnew : AboutTables fun d => d.tables "entries" =
    some newEntries := aboutTables_entries (p := fun t => t = some newEntries)
  have hrest : Preserves (fun d => d.tables "entries" = some newEntries) (do
      dropLegacyGrepIndex o.stop
      createCatalogTables o.stop
      stopAt o.stop .commit (return)) :=
    .bind (dropLegacyGrepIndex_preserves hnew) fun _ => .bind (createCatalogTables_preserves hnew) fun _ =>
      .stopAt .pure
  have hspec : Ends (applyMigrations o.stop o.draw) (fun _ c => c.saved.tables "entries" = some newEntries)
      (fun _ c => c.saved.tables "entries" = some newEntries) ⟨d, none⟩ := by
    unfold applyMigrations
    rw [ends_within, ends_bind, ends_stopAt, if_neg (by simp [ho]), ends_schema]
    refine ⟨?_, fun error herror => (by cases herror)⟩
    intro d₁ hd₁
    cases hd₁
    rw [ends_bind]
    have hmigrated : Ends (migrateEntriesTable o.stop o.draw)
        (fun _ c => c.Keeps fun d => d.tables "entries" = some newEntries) (fun _ _ => False)
          ⟨d.withPrefixes, none⟩ := by
      unfold migrateEntriesTable
      rw [ends_bind, ends_query, Connection.view_idle]
      show Ends (match d.tables "entries" with | none => _ | some entries => _) _ _ _
      rcases h with h | h
      · rw [h]
        dsimp only
        rw [ends_stopAt, if_neg (by simp [ho]), ends_schema]
        refine ⟨fun d₁ hd₁ => Connection.keeps_idle (createEntriesTable_ok hd₁), ?_⟩
        intro error herror
        simp [createEntriesTable, Database.withPrefixes, h] at herror
      · rw [h]
        dsimp only
        rw [if_pos accepted_newEntries]
        exact Connection.keeps_idle h
    refine hmigrated.mono (fun _ c hc => ?_) (fun _ _ h => h.elim)
    exact (hrest c hc).mono (fun _ _ h => h.view) (fun _ _ h => h.saved)
  exact hspec.endState


/-! ### Runs of openings -/

/-- The columns of a row that the legacy table has. -/
def shown (legacy : Table) (r : Row) : List Value := (entryColumns.filter legacy.columns.contains).map r

/-- The entries table holds every row of the legacy table once, and nothing else. -/
def HoldsRows (legacy : Table) (d : Database) : Prop :=
  ∃ t, d.tables "entries" = some t ∧ (t.rows.map (shown legacy)).Perm (legacy.rows.map (shown legacy))

private theorem shown_migratedRow (prefixes : List WriterPrefix) (r : Row) :
    shown t (migratedRow prefixes t r) = shown t r := by
  apply List.map_congr_left
  intro column hcolumn
  obtain ⟨hentry, hlegacy⟩ := List.mem_filter.1 hcolumn
  unfold migratedRow
  split
  · rename_i hwriter
    unfold writerExpr
    rw [← hwriter, if_pos hlegacy]
  · rw [if_pos (List.contains_iff_mem.2 hentry)]

private theorem holdsRows_of_migrated {d₀ : Database} (h : d.tables "entries" = some (migrated d₀ t)) :
    HoldsRows t d := by
  refine ⟨_, h, ?_⟩
  have hrows : (migrated d₀ t).rows.map (shown t) = t.rows.map (shown t) := by
    simp [migrated, migratedRows, shown_migratedRow]
  rw [hrows]

private theorem holdsRows_iff_of_new (h : d.tables "entries" = some newEntries) : HoldsRows t d ↔ t.rows = [] := by
  constructor
  · rintro ⟨t', ht', hperm⟩
    rw [h] at ht'
    cases ht'
    simpa [newEntries] using hperm.symm
  · intro hrows
    exact ⟨newEntries, h, by simp [newEntries, hrows]⟩

/-- The first opening that renames the table also copies its rows and commits. -/
def FirstRenamingCommits (d : Database) (legacy : Table) : List Opening → Prop
  | [] => True
  | o :: rest => if o.renames d then Copies d legacy ∧ o.Commits d else FirstRenamingCommits d legacy rest

private theorem firstRenamingCommits_withPrefixes {openings : List Opening} :
    FirstRenamingCommits d.withPrefixes t openings ↔ FirstRenamingCommits d t openings := by
  induction openings with
  | nil => exact Iff.rfl
  | cons o rest ih =>
    have hcopies : Copies d.withPrefixes t ↔
      Copies d t := ⟨fun h => ⟨h.selects, h.admits⟩, fun h => ⟨h.selects, h.admits⟩⟩
    have hcommits : o.Commits d.withPrefixes ↔ o.Commits d :=
      ⟨fun h => ⟨h.entries, h.intact, h.grepIndex, h.catalog, h.commit⟩,
        fun h => ⟨h.entries, h.intact, h.grepIndex, h.catalog, h.commit⟩⟩
    have hrenames : o.renames d.withPrefixes = o.renames d := rfl
    unfold FirstRenamingCommits
    rw [hrenames, hcopies, hcommits, ih]

private theorem openAll_of_accepted {openings : List Opening} (h : d.tables "entries" = some t)
    (ht : accepted t = true) :
    (openAll d openings).tables "entries" = some t := by
  induction openings generalizing d with
  | nil => exact h
  | cons o rest ih => exact ih (run_of_accepted h ht)

/-- Rows that are lost stay lost. -/
private theorem Lost.openAll (openings : List Opening) {last : Opening} (hlast : last.stop = none) (h : Lost d) :
    (openAll d (openings ++ [last])).tables "entries" = some newEntries := by
  induction openings generalizing d with
  | nil => exact h.run_complete hlast
  | cons o rest ih => exact ih h.run

/-- What a run of openings makes of a table that is not taken as it is. -/
private theorem openAll_of_not_accepted (openings : List Opening) {last : Opening} (hlast : last.stop = none)
    (h : d.tables "entries" = some t) (ht : accepted t = false) :
    (FirstRenamingCommits d t (openings ++ [last]) ∧
      ((openAll d (openings ++ [last])).tables "entries" = some t ∨
        (openAll d (openings ++ [last])).tables "entries" = some (migrated d t))) ∨
      (¬FirstRenamingCommits d t (openings ++ [last]) ∧
        (openAll d (openings ++ [last])).tables "entries" = some newEntries) := by
  induction openings generalizing d with
  | nil =>
    show (FirstRenamingCommits d t [last] ∧ ((last.run d).tables "entries" = some t ∨
      (last.run d).tables "entries" = some (migrated d t))) ∨ (¬FirstRenamingCommits d t [last] ∧
        (last.run d).tables "entries" = some newEntries)
    unfold FirstRenamingCommits
    by_cases ho : last.renames d = true
    · rw [if_pos ho]
      rcases run_of_renames h ht ho with ⟨hcopies, hcommits, hrun⟩ | ⟨hnot, hlost | ⟨-, hstop⟩⟩
      · exact .inl ⟨⟨hcopies, hcommits⟩, .inr hrun⟩
      · exact .inr ⟨hnot, hlost⟩
      · rw [hlast] at hstop
        cases hstop
    · rw [if_neg ho]
      rcases run_of_not_renames h ht (by simpa using ho) with hrun | hrun
      · exact .inl ⟨trivial, .inl (by rw [hrun, h])⟩
      · exact .inl ⟨trivial, .inl (by rw [hrun]; exact h)⟩
  | cons o rest ih =>
    rw [List.cons_append]
    unfold FirstRenamingCommits
    by_cases ho : o.renames d = true
    · rw [if_pos ho]
      rcases run_of_renames h ht ho with ⟨hcopies, hcommits, hrun⟩ | ⟨hnot, hlost⟩
      · have hmigrated : accepted (migrated d t) = true := accepted_newEntries
        have hstays : (openAll (o.run d) (rest ++ [last])).tables "entries" = some (migrated d t) :=
          openAll_of_accepted hrun hmigrated
        exact .inl ⟨⟨hcopies, hcommits⟩, .inr hstays⟩
      · exact .inr ⟨hnot, hlost.lost.openAll rest hlast⟩
    · rw [if_neg ho]
      rcases run_of_not_renames h ht (by simpa using ho) with hrun | hrun
      · have hstep : openAll d (o :: (rest ++ [last])) = openAll d (rest ++ [last]) :=
          congrArg (openAll · (rest ++ [last])) hrun
        rw [hstep]
        exact ih h
      · have hstep : openAll d (o :: (rest ++ [last])) = openAll d.withPrefixes (rest ++ [last]) :=
          congrArg (openAll · (rest ++ [last])) hrun
        rw [hstep, ← firstRenamingCommits_withPrefixes]
        exact ih h

/-- The rows of the entries table survive every interruption of the openings exactly if the table is taken as it is, or
has no rows, or the first opening that renames it also fills the new one and commits. -/
theorem openings_hold_iff (h : d.tables "entries" = some t) (openings : List Opening) {last : Opening}
    (hlast : last.stop = none) :
    HoldsRows t (openAll d (openings ++ [last])) ↔
      accepted t = true ∨ t.rows = [] ∨ FirstRenamingCommits d t (openings ++ [last]) := by
  have hsame : ∀ {d : Database}, d.tables "entries" = some t → HoldsRows t d := fun h => ⟨t, h, .refl _⟩
  by_cases ht : accepted t = true
  · exact ⟨fun _ => .inl ht, fun _ => hsame (openAll_of_accepted h ht)⟩
  rcases openAll_of_not_accepted openings hlast h (by simpa using ht) with ⟨hfirst, hheld⟩ | ⟨hnot, hnew⟩
  · refine ⟨fun _ => .inr (.inr hfirst), fun _ => ?_⟩
    rcases hheld with hheld | hheld
    · exact hsame hheld
    · exact holdsRows_of_migrated hheld
  · rw [holdsRows_iff_of_new hnew]
    exact ⟨fun hrows => .inr (.inl hrows), fun hor => (hor.resolve_left ht).resolve_right hnot⟩

/-! ### A table without writers -/

def legacyRow : Row := fun column =>
  if column = "size_bytes" || column = "line_count" then .integer 1
  else if column = "created_at" || column = "updated_at" then .real 0
  else .text "notes.md"

def legacyColumns : List String := entryColumns.erase "writer_id"

def legacyEntries : Table :=
    ⟨legacyColumns, legacyColumns, [["user_id", "path"], ["user_id", "source_key"]], [legacyRow]⟩

def legacyDatabase : Database :=
  ⟨fun name => if name = "entries" then some legacyEntries else none, some [], .absent, none, []⟩

theorem openings_hold_iff_legacy : HoldsRows legacyEntries (openAll legacyDatabase ([] ++ [⟨"1", none⟩])) := by
  have hentries : legacyDatabase.tables "entries" = some legacyEntries := rfl
  refine (openings_hold_iff hentries [] rfl).2 (.inr (.inr ?_))
  have hvalues : newEntries.notNull.all (fun column =>
      migratedRow legacyDatabase.prefixes legacyEntries legacyRow column ≠ .null) = true := by decide +kernel
  have hcopies : Copies legacyDatabase legacyEntries := by
    refine ⟨by decide +kernel, ⟨?_, ?_, ?_⟩⟩
    · intro r hr column hcolumn
      rw [List.mem_singleton.1 hr]
      exact of_decide_eq_true (List.all_eq_true.1 hvalues column hcolumn)
    · intro key _
      exact List.pairwise_singleton _ _
    · intro key _ r _ old hold
      cases hold
  have hrenames : Opening.renames ⟨"1", none⟩ legacyDatabase = true := by decide +kernel
  rw [List.nil_append, FirstRenamingCommits, if_pos hrenames]
  exact ⟨hcopies, ⟨by simp, by decide, by simp, by simp, by simp⟩⟩

/-- The opening is stopped after the renaming, and the next one finds no table and creates a new one. -/
theorem renamed_rows_lost :
    ¬HoldsRows legacyEntries (openAll legacyDatabase ([⟨"1", some .createEntries⟩] ++ [⟨"2", none⟩])) := by
  have hentries : legacyDatabase.tables "entries" = some legacyEntries := rfl
  have hnew : accepted legacyEntries = false := by decide +kernel
  have hrenames : Opening.renames ⟨"1", some .createEntries⟩ legacyDatabase = true := by decide +kernel
  have hlast : (⟨"2", none⟩ : Opening).stop = none := rfl
  rcases openAll_of_not_accepted [⟨"1", some .createEntries⟩] hlast hentries hnew with ⟨hfirst, -⟩ | ⟨-, hlost⟩
  · rw [List.singleton_append, FirstRenamingCommits, if_pos hrenames] at hfirst
    exact absurd rfl (hfirst.2.entries .createEntries (by decide))
  · rw [holdsRows_iff_of_new hlost]
    intro hrows
    cases hrows

end Migrations

end Ctxd

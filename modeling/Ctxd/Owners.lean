import Ctxd.Inside

/-!
# The owners of migrated rows

A row of a table without writers belongs to the writer of the longest registered prefix that contains its path.  The
migration asks for the longest prefix whose pattern the path matches.  The two agree for a table exactly when, for each
row, no other writer's prefix comes first among those that match without containing the path
(`migration_owners_iff`).  Of two that are equally long the one of the lower writer comes first.
-/

namespace Ctxd

open Program Sql

namespace Migrations

/-! ### Owners -/

/-- The prefix is registered for the user of the row and contains its path. -/
def Contains (r : Row) (p : WriterPrefix) : Prop :=
  ∃ path, r "path" = .text path ∧ r "user_id" = .text p.userId ∧ Inside p.prefixPath path

/-- The writer to whom the row belongs. -/
inductive IsOwner (prefixes : List WriterPrefix) (r : Row) : String → Prop
  | registered {p : WriterPrefix} (mem : p ∈ prefixes) (contains : Contains r p)
      (longest : ∀ q ∈ prefixes, Contains r q → q.prefixPath.length ≤ p.prefixPath.length) :
      IsOwner prefixes r p.writerId
  | unregistered (none : ∀ p ∈ prefixes, ¬Contains r p) : IsOwner prefixes r "__legacy__"

/-- No prefix of one writer overlaps one of another. -/
def DisjointOwnership (prefixes : List WriterPrefix) : Prop :=
  ∀ p ∈ prefixes, ∀ q ∈ prefixes, p.userId = q.userId → p.writerId ≠ q.writerId → ¬Inside p.prefixPath q.prefixPath

/-- A prefix that comes first: none is longer, and none of the same length has a lower writer. -/
def Leads (prefixes : List WriterPrefix) (p : WriterPrefix) : Prop :=
  p ∈ prefixes ∧ (∀ q ∈ prefixes, q.prefixPath.length ≤ p.prefixPath.length) ∧
    ∀ q ∈ prefixes, p.prefixPath.length ≤ q.prefixPath.length → p.writerId ≤ q.writerId

/-- The prefixes whose pattern the path of the row matches. -/
def matching (prefixes : List WriterPrefix) (r : Row) : List WriterPrefix := prefixes.filter (underPrefix r)

/-- The prefix misleads the migration: it does not contain the path, and its writer is not the owner. -/
def Misleads (prefixes : List WriterPrefix) (r : Row) (p : WriterPrefix) : Prop :=
  ¬Contains r p ∧ ¬IsOwner prefixes r p.writerId

variable {prefixes : List WriterPrefix} {r : Row} {t : Table} {d : Database} {draw : String}

private theorem underPrefix_of_contains {p : WriterPrefix} (h : Contains r p) : underPrefix r p = true := by
  obtain ⟨path, hpath, huser, hin⟩ := h
  unfold underPrefix
  rw [hpath]
  dsimp only
  rw [Bool.and_eq_true, Bool.or_eq_true]
  refine ⟨decide_eq_true huser, ?_⟩
  rcases inside_iff.1 hin with h | h
  · exact .inl (decide_eq_true h)
  · exact .inr (like_of_startsBelow h)

private theorem Leads.writerId_eq {l : List WriterPrefix} {p q : WriterPrefix} (hp : Leads l p) (hq : Leads l q) :
    p.writerId = q.writerId :=
  le_antisymm (hp.2.2 q hq.1 (hq.2.1 p hp.1)) (hq.2.2 p hp.1 (hp.2.1 q hq.1))

private theorem inKeyOrder_total (p q : WriterPrefix) : inKeyOrder p q ∨ inKeyOrder q p := by
  rcases lt_trichotomy p.writerId q.writerId with h | h | h
  · exact .inl (.inl h)
  · exact (le_total p.prefixPath q.prefixPath).imp (fun hle => .inr ⟨h, hle⟩) (fun hle => .inr ⟨h.symm, hle⟩)
  · exact .inr (.inl h)

private theorem inKeyOrder_trans {p q o : WriterPrefix} (h : inKeyOrder p q) (h' : inKeyOrder q o) :
    inKeyOrder p o := by
  rcases h with h | ⟨h, hle⟩ <;> rcases h' with h' | ⟨h', hle'⟩
  · exact .inl (h.trans h')
  · exact .inl (h' ▸ h)
  · exact .inl (h ▸ h')
  · exact .inr ⟨h.trans h', hle.trans hle'⟩

/-- The prefix that is kept when they are read in the order of the key. -/
private theorem leads_of_argmax {l : List WriterPrefix} {p : WriterPrefix}
    (h : (l.insertionSort inKeyOrder).argmax (fun p => p.prefixPath.length) = some p) : Leads l p := by
  obtain ⟨hmem, hlongest, hfirst⟩ := List.mem_argmax_iff.1 (Option.mem_def.2 h)
  have hperm := List.perm_insertionSort inKeyOrder l
  have hsorted : (l.insertionSort inKeyOrder).Pairwise inKeyOrder :=
    haveI : Std.Total inKeyOrder := ⟨inKeyOrder_total⟩
    haveI : IsTrans WriterPrefix inKeyOrder := ⟨fun _ _ _ => inKeyOrder_trans⟩
    List.pairwise_insertionSort inKeyOrder l
  refine ⟨hperm.mem_iff.1 hmem, fun q hq => hlongest q (hperm.mem_iff.2 hq), fun q hq hle => ?_⟩
  have hq' := hperm.mem_iff.2 hq
  have hindex := hfirst q hq' hle
  rcases Nat.lt_or_eq_of_le hindex with hlt | heq
  · have horder := List.pairwise_iff_getElem.1 hsorted _ _ (List.idxOf_lt_length_of_mem hmem)
      (List.idxOf_lt_length_of_mem hq') hlt
    rw [List.getElem_idxOf, List.getElem_idxOf] at horder
    rcases horder with hless | ⟨hsame, -⟩
    · exact hless.le
    · exact hsame.le
  · rw [(List.idxOf_inj hmem).1 heq]

/-- The writer that the migration gives to the row of a table without writers. -/
private theorem writerExpr_legacy (prefixes : List WriterPrefix) (r : Row) (ht : "writer_id" ∉ t.columns) :
    (∃ p, Leads (matching prefixes r) p ∧ writerExpr prefixes t r = .text p.writerId) ∨
      matching prefixes r = [] ∧ writerExpr prefixes t r = .text "__legacy__" := by
  unfold writerExpr
  rw [if_neg (by simpa using ht)]
  cases hargmax : ((prefixes.filter (underPrefix r)).insertionSort inKeyOrder).argmax
      (fun p => p.prefixPath.length) with
  | none =>
    refine .inr ⟨?_, rfl⟩
    have hperm := List.perm_insertionSort inKeyOrder (prefixes.filter (underPrefix r))
    rw [List.argmax_eq_none.1 hargmax] at hperm
    exact hperm.nil_eq.symm
  | some p => exact .inl ⟨p, leads_of_argmax hargmax, rfl⟩

/-- A row gets its owner exactly when no prefix that misleads comes first. -/
private theorem writerExpr_owner_iff (ht : "writer_id" ∉ t.columns) :
    (∃ writer, writerExpr prefixes t r = .text writer ∧ IsOwner prefixes r writer) ↔
      ∀ p, Misleads prefixes r p → ¬Leads (matching prefixes r) p := by
  have hcontained : ∀ p ∈ prefixes, Contains r p → p ∈ matching prefixes r := fun p hp h =>
    List.mem_filter.2 ⟨hp, underPrefix_of_contains h⟩
  rcases writerExpr_legacy prefixes r ht with ⟨first, hfirst, hwriter⟩ | ⟨hempty, hwriter⟩
  · rw [hwriter]
    constructor
    · rintro ⟨writer, heq, howner⟩ p hmisleads hp
      obtain rfl := Value.text.inj heq
      exact hmisleads.2 (hfirst.writerId_eq hp ▸ howner)
    · intro h
      refine ⟨first.writerId, rfl, ?_⟩
      by_contra howner
      have hcontains : ¬Contains r first := by
        intro hcontains
        refine howner (.registered (List.mem_filter.1 hfirst.1).1 hcontains fun q hq hqpath => ?_)
        exact hfirst.2.1 q (hcontained q hq hqpath)
      exact h first ⟨hcontains, howner⟩ hfirst
  · rw [hwriter]
    constructor
    · intro _ p _ hp
      have hmem := hp.1
      rw [hempty] at hmem
      cases hmem
    · intro _
      refine ⟨"__legacy__", rfl, .unregistered fun p hp hcontains => ?_⟩
      have hmem := hcontained p hp hcontains
      rw [hempty] at hmem
      cases hmem

/-! ### The migrated table -/

/-- The new table has the rows of the legacy table, and their columns other than the writer. -/
def KeepsColumns (legacy new : Table) : Prop :=
  List.Forall₂ (fun r r' => ∀ column ∈ entryColumns, column ≠ "writer_id" → r' column = r column) legacy.rows new.rows

/-- Every row of the new table has its owner. -/
def RightOwners (prefixes : List WriterPrefix) (legacy new : Table) : Prop :=
  List.Forall₂ (fun r r' => ∃ writer, r' "writer_id" = .text writer ∧ IsOwner prefixes r writer) legacy.rows new.rows

/-- The constraints of a table without writers. -/
structure IsLegacy (t : Table) : Prop where
  columns : ∀ column ∈ entryColumns, column ≠ "writer_id" → column ∈ t.columns
  notNull : ∀ r ∈ t.rows, ∀ column ∈ entryColumns, column ≠ "writer_id" → r column ≠ .null
  paths : t.rows.Pairwise fun r r' => ["user_id", "path"].map r ≠ ["user_id", "path"].map r'
  sourceKeys : t.rows.Pairwise fun r r' => ["user_id", "source_key"].map r ≠ ["user_id", "source_key"].map r'

private theorem migratedRow_column {column : String} (hmem : column ∈ entryColumns) (hne : column ≠ "writer_id") :
    migratedRow prefixes t r column = r column := by
  unfold migratedRow
  rw [if_neg hne, if_pos (List.contains_iff_mem.2 hmem)]

private theorem migratedRow_writer : migratedRow prefixes t r "writer_id" = writerExpr prefixes t r := if_pos rfl

private theorem migrated_keepsColumns : KeepsColumns t (migrated d t) :=
  List.forall₂_map_right_iff.2 (List.forall₂_same.2 fun _ _ _ hmem hne => migratedRow_column hmem hne)

private theorem migrated_rightOwners_iff (ht : "writer_id" ∉ t.columns) :
    RightOwners d.prefixes t (migrated d t) ↔
      ∀ r ∈ t.rows, ∀ p, Misleads d.prefixes r p → ¬Leads (matching d.prefixes r) p := by
  unfold RightOwners migrated migratedRows
  rw [List.forall₂_map_right_iff, List.forall₂_same]
  refine forall₂_congr fun r _ => ?_
  rw [migratedRow_writer]
  exact writerExpr_owner_iff ht

/-- The constraints of the new table hold of the rows of a legacy table. -/
private theorem IsLegacy.copies (h : IsLegacy t) (ht : "writer_id" ∉ t.columns) : Copies d t := by
  have hwriter : ∀ r, ∃ writer, writerExpr d.prefixes t r = .text writer := by
    intro r
    rcases writerExpr_legacy d.prefixes r ht with ⟨p, -, hp⟩ | ⟨-, hp⟩
    · exact ⟨_, hp⟩
    · exact ⟨_, hp⟩
  have hcolumn : ∀ r column, column ∈ entryColumns → column ≠ "writer_id" →
      migratedRow d.prefixes t r column = r column := fun r column => migratedRow_column
  refine ⟨?_, ⟨?_, ?_, ?_⟩⟩
  · refine List.all_eq_true.2 fun column hcolumn => ?_
    by_cases hne : column = "writer_id"
    · simp [hne]
    · simp [h.columns column hcolumn hne]
  · intro r' hr' column hmem
    obtain ⟨r, hr, rfl⟩ := List.mem_map.1 hr'
    by_cases hne : column = "writer_id"
    · obtain ⟨writer, hw⟩ := hwriter r
      rw [hne, migratedRow_writer, hw]
      exact fun h => by cases h
    · rw [hcolumn r column hmem hne]
      exact h.notNull r hr column hmem hne
  · intro key hkey
    unfold migratedRows
    rw [List.pairwise_map]
    have huser : ∀ r, migratedRow d.prefixes t r "user_id" = r "user_id" := fun r =>
      hcolumn r _ (by decide) (by decide)
    have hpath : ∀ r, migratedRow d.prefixes t r "path" = r "path" := fun r => hcolumn r _ (by decide) (by decide)
    have hsource : ∀ r, migratedRow d.prefixes t r "source_key" = r "source_key" := fun r =>
      hcolumn r _ (by decide) (by decide)
    have hkeys : key = ["user_id", "path"] ∨ key = ["user_id", "writer_id", "source_key"] := by
      simpa [newEntries] using hkey
    rcases hkeys with rfl | rfl
    · refine h.paths.imp fun hne heq => hne ?_
      simpa [huser, hpath] using heq
    · refine h.sourceKeys.imp fun hne heq => hne ?_
      simp only [List.map_cons, List.map_nil, List.cons.injEq, huser, hsource] at heq ⊢
      exact ⟨heq.1, heq.2.2⟩
  · intro key _ r _ old hold
    cases hold

/-- A migration that ends leaves the migrated table. -/
private theorem migrateEntriesTable_ok (h : d.tables "entries" = some t) (ht : "writer_id" ∉ t.columns)
    (hfree : d.tables ("entries_legacy_" ++ draw) = none) {c : Connection Database}
    (hc : migrateEntriesTable none draw ⟨d, none⟩ = .ok () c) : c.view.tables "entries" = some (migrated d t) := by
  have hnew : accepted t = false := by simp [accepted, ht]
  have hstop : (none : Option Point) ≠ some .renameEntries := by simp
  obtain ⟨-, -, s, d', rfl, -, htable, -⟩ := (migrateEntriesTable_spec h hnew hfree hstop).of_ok hc
  exact htable

/-- The migration of a table that keeps its constraints ends. -/
private theorem IsLegacy.migrates (hlegacy : IsLegacy t) (h : d.tables "entries" = some t)
    (ht : "writer_id" ∉ t.columns) (hfree : d.tables ("entries_legacy_" ++ draw) = none) :
    ∃ c, migrateEntriesTable none draw ⟨d, none⟩ = .ok () c := by
  have hnew : accepted t = false := by simp [accepted, ht]
  have hstop : (none : Option Point) ≠ some .renameEntries := by simp
  have hspec := migrateEntriesTable_spec h hnew hfree hstop
  cases hrun : migrateEntriesTable none draw ⟨d, none⟩ with
  | ok a c => exact ⟨c, rfl⟩
  | error halt c =>
    obtain ⟨point, -, hpoint⟩ := (hspec.of_error hrun).2 (hlegacy.copies ht)
    cases hpoint

/-- What the migration leaves of a table without writers has the same rows with their other columns, and each row its
owner exactly when no prefix that misleads comes first.  It leaves such a table whenever the constraints of the legacy
table hold. -/
theorem migration_owners_iff (h : d.tables "entries" = some t) (ht : "writer_id" ∉ t.columns)
    (hfree : d.tables ("entries_legacy_" ++ draw) = none) :
    (∀ c, migrateEntriesTable none draw ⟨d, none⟩ = .ok () c →
        ∃ new, c.view.tables "entries" = some new ∧ KeepsColumns t new ∧
          (RightOwners d.prefixes t new ↔
            ∀ r ∈ t.rows, ∀ p, Misleads d.prefixes r p → ¬Leads (matching d.prefixes r) p)) ∧
      (IsLegacy t → ∃ c, migrateEntriesTable none draw ⟨d, none⟩ = .ok () c) :=
  ⟨fun _ hc => ⟨migrated d t, migrateEntriesTable_ok h ht hfree hc, migrated_keepsColumns, migrated_rightOwners_iff ht⟩,
    fun hlegacy => hlegacy.migrates h ht hfree⟩

/-! ### A prefix with a wildcard -/

/-- A row of the user at the path. -/
def rowAt (path : String) : Row := fun column =>
  if column = "path" then .text path else if column = "user_id" then .text "user" else legacyRow column

-- of two prefixes of one length the lower writer's is taken, whichever was registered first
example : writerExpr [⟨"user", "b", "axb", 0⟩, ⟨"user", "a", "a_b", 1⟩] legacyEntries (rowAt "axb/a") = .text "a" := by
  decide

/-- A database with one row and one registered prefix. -/
def databaseOf (path pre : String) : Database :=
  { legacyDatabase with
    tables := fun name => if name = "entries" then some { legacyEntries with rows := [rowAt path] } else none,
    writerPrefixes := some [⟨"user", "writer", pre, 0⟩] }

private theorem databaseOf_entries (path pre : String) :
    (databaseOf path pre).tables "entries" = some { legacyEntries with rows := [rowAt path] } := rfl

private theorem databaseOf_isLegacy (path : String) : IsLegacy { legacyEntries with rows := [rowAt path] } := by
  have hcolumns : ∀ column ∈ entryColumns, column ≠ "writer_id" → column ∈ legacyEntries.columns := by decide
  refine ⟨hcolumns, ?_, List.pairwise_singleton _ _, List.pairwise_singleton _ _⟩
  intro r hr column _ _
  obtain rfl := List.mem_singleton.1 hr
  unfold rowAt legacyRow
  split
  · exact fun h => by cases h
  · split
    · exact fun h => by cases h
    · split
      · exact fun h => by cases h
      · split
        · exact fun h => by cases h
        · exact fun h => by cases h

/-- The row goes to the writer of the prefix `d`. -/
theorem migration_owners_single :
    ∃ c new, migrateEntriesTable none "1" ⟨databaseOf "d/a" "d", none⟩ = .ok () c ∧
      c.view.tables "entries" =
        some new ∧ RightOwners [⟨"user", "writer", "d", 0⟩] { legacyEntries with rows := [rowAt "d/a"] } new := by
  have hfree : (databaseOf "d/a" "d").tables ("entries_legacy_" ++ "1") = none := by decide
  obtain ⟨hpost, hreturns⟩ := migration_owners_iff (databaseOf_entries "d/a" "d") (by decide) hfree
  obtain ⟨c, hc⟩ := hreturns (databaseOf_isLegacy "d/a")
  obtain ⟨new, hnew, -, howners⟩ := hpost c hc
  refine ⟨c, new, hc, hnew, howners.2 ?_⟩
  intro r hr p hmisleads hleads
  obtain rfl := List.mem_singleton.1 hr
  obtain rfl := List.mem_singleton.1 (List.mem_filter.1 hleads.1).1
  exact hmisleads.1 ⟨"d/a", rfl, rfl, by decide⟩

/-- The underscore of the prefix `a_b` matches any character, so its writer gets a row that it does not contain. -/
theorem wildcard_owner :
    ∃ c new, migrateEntriesTable none "1" ⟨databaseOf "axb/a" "a_b", none⟩ = .ok () c ∧
      c.view.tables "entries" = some new ∧
      ¬RightOwners [⟨"user", "writer", "a_b", 0⟩] { legacyEntries with rows := [rowAt "axb/a"] } new := by
  have hentries := databaseOf_entries "axb/a" "a_b"
  have hfree : (databaseOf "axb/a" "a_b").tables ("entries_legacy_" ++ "1") = none := by decide
  obtain ⟨c, hc⟩ := (databaseOf_isLegacy "axb/a").migrates hentries (by decide) hfree
  refine ⟨c, _, hc, migrateEntriesTable_ok hentries (by decide) hfree hc, ?_⟩
  show ¬RightOwners (databaseOf "axb/a" "a_b").prefixes _ _
  rw [migrated_rightOwners_iff (by decide)]
  intro h
  have hinside : ¬Inside "a_b" "axb/a" := by decide
  have hnot : ¬Contains (rowAt "axb/a") ⟨"user", "writer", "a_b", 0⟩ := by
    rintro ⟨path, hpath, -, hin⟩
    obtain rfl := Value.text.inj hpath
    exact hinside hin
  refine h _ (List.mem_singleton.2 rfl) ⟨"user", "writer", "a_b", 0⟩ ⟨hnot, fun howner => ?_⟩ ?_
  · generalize hwriter : "writer" = writer at howner
    cases howner with
    | registered hmem hcontains =>
      obtain rfl := List.mem_singleton.1 hmem
      exact hnot hcontains
    | unregistered => exact absurd hwriter (by decide)
  · have hmatching : matching (databaseOf "axb/a" "a_b").prefixes (rowAt "axb/a") = [⟨"user", "writer", "a_b", 0⟩] := by
      decide
    rw [hmatching]
    simp [Leads]

end Migrations

end Ctxd

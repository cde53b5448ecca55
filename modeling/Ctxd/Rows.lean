import Ctxd.Catalog
import Mathlib.Data.List.Pairwise

/-!
# The rows of the catalog

What the statements on `entries` do to a table that keeps its two uniqueness constraints (`Catalog.Distinct`): they
keep them, and they change the row of one source only.
-/

namespace Ctxd

/-- The columns of the second uniqueness constraint: user, writer and key. -/
abbrev SourceId := String × String × String

def Entry.source (e : Entry) : SourceId := (e.userId, e.writerId, e.sourceKey)

theorem Entry.isSource_iff (e : Entry) (user writer sourceKey : String) :
    e.isSource user writer sourceKey = true ↔ e.source = (user, writer, sourceKey) := by
  simp [isSource, source, and_assoc]

namespace Catalog

/-- The two uniqueness constraints of `entries`. -/
structure Distinct (c : Catalog) : Prop where
  paths : (c.entries.map fun e => (e.userId, e.path)).Nodup
  sources : (c.entries.map Entry.source).Nodup

variable {c c' : Catalog}

theorem Distinct.eq_of_path (h : c.Distinct) {e e' : Entry} (he : e ∈ c.entries) (he' : e' ∈ c.entries)
    (hu : e.userId = e'.userId) (hp : e.path = e'.path) : e = e' :=
  List.inj_on_of_nodup_map h.paths he he' (by simp [hu, hp])

theorem Distinct.eq_of_source (h : c.Distinct) {e e' : Entry} (he : e ∈ c.entries) (he' : e' ∈ c.entries)
    (hs : e.source = e'.source) : e = e' :=
  List.inj_on_of_nodup_map h.sources he he' hs

/-- The row of a source. -/
def row (c : Catalog) (i : SourceId) : Option Entry := c.entries.find? fun e => e.source = i

theorem entryBySourceKey_eq_row (c : Catalog) (user writer sourceKey : String) :
    c.entryBySourceKey user writer sourceKey = c.row (user, writer, sourceKey) := by
  unfold entryBySourceKey row
  congr 1
  funext e
  rw [Bool.eq_iff_iff, e.isSource_iff]
  simp

theorem mem_of_row {i : SourceId} {e : Entry} (h : c.row i = some e) : e ∈ c.entries ∧ e.source = i :=
  ⟨List.mem_of_find?_eq_some h, by simpa using List.find?_some h⟩

theorem Distinct.row_eq_some_iff (h : c.Distinct) {i : SourceId} {e : Entry} :
    c.row i = some e ↔ e ∈ c.entries ∧ e.source = i := by
  refine ⟨mem_of_row, fun ⟨he, hs⟩ => ?_⟩
  cases hr : c.row i with
  | none =>
    have := List.find?_eq_none.1 hr e he
    simp [hs] at this
  | some e' =>
    obtain ⟨he', hs'⟩ := mem_of_row hr
    rw [h.eq_of_source he' he (hs'.trans hs.symm)]

theorem row_eq_none_iff {i : SourceId} : c.row i = none ↔ ∀ e ∈ c.entries, e.source ≠ i := by
  unfold row
  rw [List.find?_eq_none]
  simp

/-- The tables that no operation on documents writes. -/
structure SameTables (c c' : Catalog) : Prop where
  writerPrefixes : c'.writerPrefixes = c.writerPrefixes
  submissions : c'.submissions = c.submissions

theorem SameTables.refl (c : Catalog) : SameTables c c := ⟨rfl, rfl⟩

theorem SameTables.trans {c'' : Catalog} (h : SameTables c c') (h' : SameTables c' c'') : SameTables c c'' :=
  ⟨h'.writerPrefixes.trans h.writerPrefixes, h'.submissions.trans h.submissions⟩

/-- `c'` is `c` with `new` as the row of its source. -/
structure RowSet (c c' : Catalog) (new : Entry) : Prop where
  mem : ∀ e, e ∈ c'.entries ↔ (e ∈ c.entries ∧ e.source ≠ new.source) ∨ e = new
  distinct : c'.Distinct
  /-- No other source has the path. -/
  free : ∀ e ∈ c.entries, e.source ≠ new.source → e.userId = new.userId → e.path ≠ new.path

theorem RowSet.row {new : Entry} (h : RowSet c c' new) (i : SourceId) :
    c'.row i = if i = new.source then some new else c.row i := by
  split
  · rename_i hi
    exact h.distinct.row_eq_some_iff.2 ⟨(h.mem new).2 (.inr rfl), hi.symm⟩
  · rename_i hi
    cases hr : c.row i with
    | none =>
      rw [row_eq_none_iff] at hr ⊢
      intro e he
      rcases (h.mem e).1 he with ⟨he, -⟩ | rfl
      · exact hr e he
      · exact Ne.symm hi
    | some e =>
      obtain ⟨he, hs⟩ := mem_of_row hr
      exact h.distinct.row_eq_some_iff.2 ⟨(h.mem e).2 (.inl ⟨he, by rw [hs]; exact hi⟩), hs⟩

private theorem not_pathTaken {user writer sourceKey path : String}
    (h : ¬c.pathTaken user writer sourceKey path = true) :
    ∀ e ∈ c.entries, e.source ≠ (user, writer, sourceKey) → e.userId = user → e.path ≠ path := by
  intro e he hs hu hp
  refine h (List.any_eq_true.2 ⟨e, he, ?_⟩)
  have : e.isSource user writer sourceKey = false := by
    rw [← Bool.not_eq_true, e.isSource_iff]
    exact hs
  simp [hu, hp, this]

/-- Replacing the row of a source in place. -/
private theorem rowSet_map (hc : c.Distinct) {old new : Entry} (hold : old ∈ c.entries) (hs : new.source = old.source)
    (hfree : ∀ e ∈ c.entries, e.source ≠ new.source → e.userId = new.userId → e.path ≠ new.path) {f : Entry → Entry}
    (hf : ∀ e ∈ c.entries, f e = if e.source = new.source then new else e) :
    RowSet c { c with entries := c.entries.map f } new := by
  have hkey : ∀ e ∈ c.entries, (f e).source = e.source := by
    intro e he
    rw [hf e he]
    split
    · rename_i h
      exact h.symm
    · rfl
  have hinj : ∀ e ∈ c.entries, ∀ e' ∈ c.entries, (f e).userId = (f e').userId → (f e).path = (f e').path → e = e' := by
    intro e he e' he' hu hp
    rw [hf e he, hf e' he'] at hu hp
    split at hu <;> split at hu <;> rename_i h h'
    · exact hc.eq_of_source he he' (h.trans h'.symm)
    · rw [if_pos h, if_neg h'] at hp
      exact absurd hp.symm (hfree e' he' h' hu.symm)
    · rw [if_neg h, if_pos h'] at hp
      exact absurd hp (hfree e he h hu)
    · rw [if_neg h, if_neg h'] at hp
      exact hc.eq_of_path he he' hu hp
  refine ⟨fun e => ?_, ⟨?_, ?_⟩, hfree⟩
  · simp only [List.mem_map]
    constructor
    · rintro ⟨e', he', rfl⟩
      rw [hf e' he']
      split
      · exact .inr rfl
      · exact .inl ⟨he', ‹_›⟩
    · rintro (⟨he, hne⟩ | rfl)
      · exact ⟨e, he, by rw [hf e he, if_neg hne]⟩
      · exact ⟨old, hold, by rw [hf old hold, if_pos hs.symm]⟩
  · rw [List.map_map]
    have hnd := hc.paths.of_map
    refine hnd.map_on fun e he e' he' h => ?_
    simp only [Function.comp_apply, Prod.mk.injEq] at h
    exact hinj e he e' he' h.1 h.2
  · rw [List.map_map]
    refine hc.sources.of_map.map_on fun e he e' he' h => ?_
    simp only [Function.comp_apply, hkey e he, hkey e' he'] at h
    exact hc.eq_of_source he he' h

theorem upsertEntry_ok (hc : c.Distinct) {new : Entry} (h : c.upsertEntry new = .ok c') :
    ∃ createdAt, RowSet c c' { new with createdAt } ∧ SameTables c c' := by
  unfold upsertEntry at h
  split at h
  · cases h
  · rename_i hfree
    have hfree := not_pathTaken hfree
    split at h
    · rename_i hany
      obtain ⟨old, hold, hs⟩ := List.any_eq_true.1 hany
      rw [Entry.isSource_iff] at hs
      cases h
      refine ⟨old.createdAt, rowSet_map hc hold
        (show ({ new with createdAt := old.createdAt } : Entry).source = old.source from hs.symm) hfree
        fun e he => ?_, ⟨rfl, rfl⟩⟩
      simp only [Entry.isSource_iff]
      show _ = if e.source = (new.userId, new.writerId, new.sourceKey) then _ else _
      split
      · rename_i h
        rw [hc.eq_of_source he hold (h.trans hs.symm)]
      · rfl
    · rename_i hany
      have hnone : ∀ e ∈ c.entries, e.source ≠ new.source := by
        intro e he hs
        exact hany (List.any_eq_true.2 ⟨e, he, (e.isSource_iff _ _ _).2 hs⟩)
      cases h
      refine ⟨new.createdAt, ⟨fun e => ?_, ⟨?_, ?_⟩, hfree⟩, ⟨rfl, rfl⟩⟩
      · simp only [List.mem_append, List.mem_singleton]
        constructor
        · rintro (he | rfl)
          · exact .inl ⟨he, hnone e he⟩
          · exact .inr rfl
        · rintro (⟨he, -⟩ | rfl)
          · exact .inl he
          · exact .inr rfl
      · simp only [List.map_append, List.map_cons, List.map_nil]
        refine List.nodup_append.2 ⟨hc.paths, by simp, ?_⟩
        rintro a ha b hb rfl
        obtain ⟨e, he, rfl⟩ := List.mem_map.1 ha
        simp only [List.mem_singleton, Prod.mk.injEq] at hb
        exact hfree e he (hnone e he) hb.1 hb.2
      · simp only [List.map_append, List.map_cons, List.map_nil]
        refine List.nodup_append.2 ⟨hc.sources, by simp, ?_⟩
        rintro a ha b hb rfl
        obtain ⟨e, he, rfl⟩ := List.mem_map.1 ha
        simp only [List.mem_singleton] at hb
        exact hnone e he hb

theorem upsertEntry_error {new : Entry} {err : StoreError} (h : c.upsertEntry new = .error err) :
    c.pathTaken new.userId new.writerId new.sourceKey new.path = true := by
  unfold upsertEntry at h
  split at h
  · assumption
  · split at h <;> cases h

theorem updateEntry_ok (hc : c.Distinct) {user writer sourceKey path : String} {f : Entry → Entry}
    (hf : ∀ e, (f e).source = e.source) {old : Entry} (hold : c.row (user, writer, sourceKey) = some old)
    (h : c.updateEntry user writer sourceKey path f = .ok c') :
    RowSet c c' { f old with path := path } ∧ SameTables c c' := by
  obtain ⟨hmem, hs⟩ := mem_of_row hold
  have hany : (c.entries.any fun e => e.isSource user writer sourceKey) = true :=
    List.any_eq_true.2 ⟨old, hmem, (old.isSource_iff _ _ _).2 hs⟩
  unfold updateEntry at h
  rw [hany, Bool.true_and] at h
  split at h
  · cases h
  · rename_i hfree
    have hfree := not_pathTaken hfree
    cases h
    have hs' : ({ f old with path := path } : Entry).source = old.source := hf old
    refine ⟨rowSet_map hc hmem hs' ?_ fun e he => ?_, ⟨rfl, rfl⟩⟩
    · rw [hs', hs]
      have hu : ({ f old with path := path } : Entry).userId = user :=
        (congrArg Prod.fst hs').trans (congrArg Prod.fst hs)
      rw [hu]
      exact hfree
    · simp only [Entry.isSource_iff]
      rw [hs', hs]
      split
      · rename_i h
        rw [hc.eq_of_source he hmem (h.trans hs.symm)]
      · rfl

theorem updateEntry_error {user writer sourceKey path : String} {f : Entry → Entry} {err : StoreError}
    (h : c.updateEntry user writer sourceKey path f = .error err) :
    c.pathTaken user writer sourceKey path = true := by
  unfold updateEntry at h
  split at h
  · rename_i hp
    exact (Bool.and_eq_true_iff.1 hp).2
  · cases h

theorem mem_deleteEntry {user writer sourceKey : String} {e : Entry} :
    e ∈ (c.deleteEntry user writer sourceKey).entries ↔ e ∈ c.entries ∧ e.source ≠ (user, writer, sourceKey) := by
  unfold deleteEntry
  rw [List.mem_filter, Bool.not_eq_true', ← Bool.not_eq_true, e.isSource_iff]

theorem Distinct.deleteEntry (hc : c.Distinct) (user writer sourceKey : String) :
    (c.deleteEntry user writer sourceKey).Distinct :=
  ⟨hc.paths.sublist (List.filter_sublist.map _), hc.sources.sublist (List.filter_sublist.map _)⟩

theorem row_deleteEntry (hc : c.Distinct) (user writer sourceKey : String) (i : SourceId) :
    (c.deleteEntry user writer sourceKey).row i = if i = (user, writer, sourceKey) then none else c.row i := by
  split
  · rename_i hi
    rw [row_eq_none_iff]
    intro e he
    rw [hi]
    exact (mem_deleteEntry.1 he).2
  · rename_i hi
    cases hr : c.row i with
    | none =>
      rw [row_eq_none_iff] at hr ⊢
      exact fun e he => hr e (mem_deleteEntry.1 he).1
    | some e =>
      obtain ⟨he, hs⟩ := mem_of_row hr
      exact (hc.deleteEntry _ _ _).row_eq_some_iff.2 ⟨mem_deleteEntry.2 ⟨he, by rw [hs]; exact hi⟩, hs⟩

theorem deleteEntry_of_none {user writer sourceKey : String} (h : c.row (user, writer, sourceKey) = none) :
    c.deleteEntry user writer sourceKey = c := by
  unfold deleteEntry
  rw [List.filter_eq_self.2 fun e he => ?_]
  rw [Bool.not_eq_true', ← Bool.not_eq_true, e.isSource_iff]
  exact row_eq_none_iff.1 h e he

end Catalog

end Ctxd

import Ctxd.Atomicity
import Ctxd.Deletions

/-!
# The scope of a deletion

What is inside a prefix is decided by components for entries and by an SQL pattern for decisions, so a deletion may take
decisions that are not in its scope (`deletePrefix_scope_iff`).
-/

namespace Ctxd

open Program

namespace Service

variable {user writer pre : String} {rows : List Entry} {s s' : Service} {receipt : Option String}

/-! ### The scope -/

/-- The entry is one of the writer's inside the prefix. -/
def inEntryScope (user writer pre : String) (e : Entry) : Bool :=
  e.userId = user && e.writerId = writer && decide (Inside pre e.path)

/-- The decision is one of the writer's, and its path is inside the prefix or its source is that of an entry inside. -/
def belongs (user writer pre : String) (c : Catalog) (r : Decision) : Bool :=
  r.userId = user && r.writerId = writer &&
    (r.path.any (fun path => decide (Inside pre path)) ||
      c.entries.any fun e => inEntryScope user writer pre e && e.sourceKey = r.sourceKey)

/-- The scope is gone, and nothing else. -/
structure DeletesScope (user writer pre : String) (s s' : Service) : Prop where
  entries : s'.world.catalog.entries = s.world.catalog.entries.filter fun e => !inEntryScope user writer pre e
  decisions : s'.world.catalog.decisions =
    s.world.catalog.decisions.filter fun r => !belongs user writer pre s.world.catalog r
  gone : ∀ e ∈ s.world.catalog.entries, inEntryScope user writer pre e = true →
    ∀ l ∈ filesOf user e, s'.world.fs.disk.file l = none
  kept : ∀ l, (∀ e ∈ s.world.catalog.entries, inEntryScope user writer pre e = true → l ∉ filesOf user e) →
    s'.world.fs.disk.file l = s.world.fs.disk.file l

private theorem Allowed.mem_iff (h : Allowed user writer pre rows s) {e : Entry} :
    e ∈ rows ↔ e ∈ s.world.catalog.entries ∧ inEntryScope user writer pre e = true := by
  obtain ⟨hall, hrows⟩ := filterM_eq_ok_iff.1 h.rows
  rw [hrows, List.mem_filter]
  have hmem : e ∈ entryRowsForWriter s.world.catalog user writer ↔
      e ∈ s.world.catalog.entries ∧ e.userId = user ∧ e.writerId = writer := by
    unfold entryRowsForWriter byPath
    rw [List.mem_mergeSort, List.mem_filter]
    simp
  constructor
  · rintro ⟨he, hholds⟩
    obtain ⟨b, hb⟩ := hall e he
    rw [hb] at hholds
    obtain rfl : b = true := hholds
    obtain ⟨hmem, hu, hw⟩ := hmem.1 he
    simp [inEntryScope, hmem, hu, hw, inside_of_within hb]
  · rintro ⟨he, hscope⟩
    simp only [inEntryScope, Bool.and_eq_true, decide_eq_true_eq] at hscope
    obtain ⟨⟨hu, hw⟩, hin⟩ := hscope
    have he' := hmem.2 ⟨he, hu, hw⟩
    obtain ⟨b, hb⟩ := hall e he'
    refine ⟨he', ?_⟩
    rw [within_eq (pathIsWithinPrefix_ok hb).1 h.normal]
    exact decide_eq_true hin

theorem Allowed.any_isSource (h : Allowed user writer pre rows s) (hdistinct : s.world.catalog.Distinct) {e : Entry}
    (he : e ∈ s.world.catalog.entries) :
    (rows.any fun row => e.isSource user row.writerId row.sourceKey) = inEntryScope user writer pre e := by
  rw [Bool.eq_iff_iff, List.any_eq_true]
  constructor
  · rintro ⟨row, hrow, hsource⟩
    obtain ⟨hmem, hscope⟩ := h.mem_iff.1 hrow
    rw [e.isSource_iff] at hsource
    have hu : row.userId = user := by
      simp only [inEntryScope, Bool.and_eq_true, decide_eq_true_eq] at hscope
      exact hscope.1.1
    rw [hdistinct.eq_of_source he hmem (hsource.trans (by rw [Entry.source, hu]))]
    exact hscope
  · intro hscope
    refine ⟨e, h.mem_iff.2 ⟨he, hscope⟩, ?_⟩
    simp only [inEntryScope, Bool.and_eq_true, decide_eq_true_eq] at hscope
    rw [e.isSource_iff, Entry.source, hscope.1.1]

theorem Allowed.mem_filesOfAll (h : Allowed user writer pre rows s) {l : Loc} :
    l ∈ filesOfAll user rows ↔
      ∃ e ∈ s.world.catalog.entries, inEntryScope user writer pre e = true ∧ l ∈ filesOf user e := by
  unfold filesOfAll
  rw [List.mem_flatMap]
  simp only [h.mem_iff, and_assoc]

/-- The statement deletes what is in the scope, and what it takes by its pattern alone. -/
private theorem Allowed.inDecisionScope_eq (h : Allowed user writer pre rows s) (r : Decision) :
    inDecisionScope user writer pre (rows.map (·.sourceKey)) r =
      (belongs user writer pre s.world.catalog r ||
        (r.userId = user && r.writerId = writer && likePrefix pre r.path)) := by
  have hkeys : (rows.map (·.sourceKey)).contains r.sourceKey =
      s.world.catalog.entries.any fun e => inEntryScope user writer pre e && e.sourceKey = r.sourceKey := by
    rw [Bool.eq_iff_iff, List.contains_iff_mem, List.mem_map, List.any_eq_true]
    simp only [h.mem_iff, Bool.and_eq_true, decide_eq_true_eq, and_assoc]
  have hpath : r.path.any (fun path => decide (Inside pre path)) = true → likePrefix pre r.path = true := by
    cases r.path with
    | none => exact fun h => by cases h
    | some path => exact fun h => likePrefix_of_inside (of_decide_eq_true h)
  unfold inDecisionScope belongs
  rw [hkeys]
  cases hlike : likePrefix pre r.path with
  | true => cases decide (r.userId = user) <;> cases decide (r.writerId = writer) <;> simp
  | false =>
    rw [hlike] at hpath
    have hnone : r.path.any (fun path => decide (Inside pre path)) = false := by
      rw [← Bool.not_eq_true]
      exact fun h => Bool.false_ne_true (hpath h)
    simp [hnone]

/-- No decision of the writer matches the pattern without being in the scope. -/
def NoneMisread (user writer pre : String) (s : Service) : Prop :=
  ∀ r ∈ s.world.catalog.decisions, r.userId = user → r.writerId = writer → likePrefix pre r.path = true →
    belongs user writer pre s.world.catalog r = true

private theorem filter_scope_iff (h : Allowed user writer pre rows s) :
    (s.world.catalog.decisions.filter fun r => !inDecisionScope user writer pre (rows.map (·.sourceKey)) r) =
        (s.world.catalog.decisions.filter fun r => !belongs user writer pre s.world.catalog r) ↔
      NoneMisread user writer pre s := by
  constructor
  · intro heq r hr hu hw hlike
    by_contra hnot
    have hmem : r ∈ s.world.catalog.decisions.filter fun r => !belongs user writer pre s.world.catalog r :=
      List.mem_filter.2 ⟨hr, by simpa using hnot⟩
    rw [← heq, List.mem_filter, h.inDecisionScope_eq] at hmem
    simp [hu, hw, hlike] at hmem
  · intro hnone
    refine List.filter_congr fun r hr => ?_
    rw [h.inDecisionScope_eq]
    cases hbelongs : belongs user writer pre s.world.catalog r with
    | true => rfl
    | false =>
      have hnot : ¬(r.userId = user ∧ r.writerId = writer ∧ likePrefix pre r.path = true) := by
        rintro ⟨hu, hw, hlike⟩
        rw [hnone r hr hu hw hlike] at hbelongs
        cases hbelongs
      have hfalse : (r.userId = user && r.writerId = writer && likePrefix pre r.path) = false := by
        rw [← Bool.not_eq_true]
        simpa [and_assoc] using hnot
      rw [hfalse]
      rfl

/-- A deletion that returns has deleted exactly its scope if and only if the pattern takes no other decision. -/
theorem deletePrefix_scope_iff (hs : s.Sound) {result : DeletionResult}
    (hrun : deletePrefix user writer pre receipt s = .ok result s') :
    DeletesScope user writer pre s s' ↔ NoneMisread user writer pre s := by
  obtain ⟨rows, hallowed, -, heffect⟩ := (deletePrefix_spec user writer pre receipt hs).of_ok hrun
  have hdecisions : s'.world.catalog.decisions =
      s.world.catalog.decisions.filter fun r => !inDecisionScope user writer pre (rows.map (·.sourceKey)) r :=
    congrArg Stock.decisions heffect.stock
  have hentries : s'.world.catalog.entries =
      s.world.catalog.entries.filter fun e => !rows.any fun row => e.isSource user row.writerId row.sourceKey :=
    congrArg Stock.entries heffect.stock
  have hfile : ∀ l, s'.world.fs.disk.file l = if l ∈ filesOfAll user rows then none else s.world.fs.disk.file l :=
    fun l => congrArg (fun k => k.file l) heffect.stock
  rw [← filter_scope_iff hallowed, ← hdecisions]
  constructor
  · exact fun h => h.decisions
  · intro h
    refine ⟨?_, h, fun e he hscope l hl => ?_, fun l hl => ?_⟩
    · rw [hentries]
      exact List.filter_congr fun e he => by rw [hallowed.any_isSource hs.distinct he]
    · rw [hfile, if_pos (hallowed.mem_filesOfAll.2 ⟨e, he, hscope, hl⟩)]
    · rw [hfile, if_neg]
      intro hmem
      obtain ⟨e, he, hscope, hle⟩ := hallowed.mem_filesOfAll.1 hmem
      exact hl e he hscope hle

/-! ### Deletions that return -/

theorem Allowed.rows_eq {rows' : List Entry} (h : Allowed user writer pre rows s)
    (h' : Allowed user writer pre rows' s) : rows = rows' := Except.ok.inj (h.rows.symm.trans h'.rows)

/-- A list has one first element that fails. -/
theorem first_failure_unique {α ε β : Type} {f : α → Except ε β} {done done' rest rest' : List α} {x x' : α} {e e' : ε}
    (h : done ++ x :: rest = done' ++ x' :: rest') (hdone : ∀ y ∈ done, ∃ b, f y = .ok b) (hx : f x = .error e)
    (hdone' : ∀ y ∈ done', ∃ b, f y = .ok b) (hx' : f x' = .error e') : done = done' ∧ x = x' := by
  induction done generalizing done' with
  | nil =>
    cases done' with
    | nil => exact ⟨rfl, (List.cons.inj h).1⟩
    | cons y ys =>
      obtain ⟨b, hb⟩ := hdone' y (List.mem_cons_self ..)
      rw [← (List.cons.inj h).1, hx] at hb
      cases hb
  | cons y ys ih =>
    cases done' with
    | nil =>
      obtain ⟨b, hb⟩ := hdone y (List.mem_cons_self ..)
      rw [(List.cons.inj h).1, hx'] at hb
      cases hb
    | cons z zs =>
      obtain ⟨rfl, htail⟩ := List.cons.inj h
      obtain ⟨rfl, rfl⟩ := ih htail (fun y hy => hdone y (List.mem_cons_of_mem _ hy)) fun y hy =>
        hdone' y (List.mem_cons_of_mem _ hy)
      exact ⟨rfl, rfl⟩

/-- The files of a document of a store without defects can be removed. -/
theorem removable_of_consistent {w : World} (h : Consistent w) {e : Entry} (he : e ∈ w.catalog.entries) :
    ∀ l ∈ filesOf e.userId e, w.fs.disk.Removable l := by
  intro l hl
  have hcases : l = treeLoc e.userId e.path ∨ l = objectLoc e.userId e.objectId := by
    simpa [filesOf] using hl
  rcases hcases with rfl | rfl
  · obtain ⟨data, hdata, -⟩ := h.agrees.files e he
    have hsome : (w.fs.disk.node (treeLoc e.userId e.path)).isSome := by rw [hdata]; rfl
    refine ⟨h.wf.fits hsome, by rw [hdata]; simp, fun r hr hne data' hfile => ?_⟩
    have hdir := h.wf.ancestor hsome hr hne
    cases hdir.symm.trans hfile
  · refine ⟨⟨rfl, fun _ _ => rfl⟩, fun hdir => ?_, fun r hr hne data hfile => ?_⟩
    · obtain ⟨v, hv⟩ := h.flat _ hdir (by simp [objectLoc])
      cases hv
    · rcases List.suffix_cons_iff.1 hr with rfl | hr
      · exact hne rfl
      · rw [List.suffix_nil.1 hr] at hfile
        cases hfile

theorem deletePrefix_returns (hs : s.Sound) (hcrash : s.crash = none) (hallowed : Allowed user writer pre rows s)
    (hvalid : AllValid user writer pre rows s) (hfiles : ∀ l ∈ filesOfAll user rows, s.world.fs.disk.Removable l) :
    ∃ result s', deletePrefix user writer pre receipt s = .ok result s' := by
  cases hrun : deletePrefix user writer pre receipt s with
  | ok result s' => exact ⟨result, s', rfl⟩
  | error h s' =>
    cases (deletePrefix_spec user writer pre receipt hs).of_error hrun with
    | refused hnot => exact absurd hallowed (hnot rows)
    | invalid hallowed' hqueue _ herror =>
      obtain rfl := hallowed.rows_eq hallowed'
      obtain ⟨kept, hok⟩ := hvalid _ (hqueue ▸ List.mem_append_right _ (List.mem_cons_self ..))
      rw [herror] at hok
      cases hok
    | partway hallowed' halt =>
      obtain rfl := hallowed.rows_eq hallowed'
      rcases halt with hdies | ⟨-, -, l, hl, hstuck⟩
      · exact absurd hcrash hdies.2
      · exact absurd (hfiles l hl) hstuck
    | unrecorded _ _ halt => exact absurd hcrash halt.2

/-- A queued submission with an invalid path stops the deletion. -/
theorem deletePrefix_invalid (hs : s.Sound) (hcrash : s.crash = none) (hallowed : Allowed user writer pre rows s)
    {done rest : List ServiceRow} {row : ServiceRow} {e : StoreError}
    (hqueue : queuedOf user writer s.rows = done ++ row :: rest)
    (hkept : ∀ r ∈ done, ∃ kept, keptOperations pre (rows.map (·.sourceKey)) r.operations = .ok kept)
    (herror : keptOperations pre (rows.map (·.sourceKey)) row.operations = .error e) :
    ∃ s', deletePrefix user writer pre receipt s = .error (.raised e) s' ∧
      Effect (.mapRows (onIds (done.map (·.submissionId)) (keptRow pre (rows.map (·.sourceKey)))) ∘
        .dropDecisions (inDecisionScope user writer pre (rows.map (·.sourceKey)))) s s' := by
  have hnotValid : ¬AllValid user writer pre rows s := by
    intro hvalid
    obtain ⟨kept, hok⟩ := hvalid row (by rw [hqueue]; simp)
    rw [herror] at hok
    cases hok
  have hspec := deletePrefix_spec user writer pre receipt hs
  cases hrun : deletePrefix user writer pre receipt s with
  | ok result s' =>
    obtain ⟨rows', hallowed', hvalid, -⟩ := hspec.of_ok hrun
    obtain rfl := hallowed.rows_eq hallowed'
    exact absurd hvalid hnotValid
  | error h s' =>
    cases hspec.of_error hrun with
    | refused hnot => exact absurd hallowed (hnot rows)
    | partway hallowed' halt =>
      obtain rfl := hallowed.rows_eq hallowed'
      rcases halt with hdies | ⟨hvalid, -⟩
      · exact absurd hcrash hdies.2
      · exact absurd hvalid hnotValid
    | unrecorded hallowed' hvalid =>
      obtain rfl := hallowed.rows_eq hallowed'
      exact absurd hvalid hnotValid
    | invalid hallowed' hqueue' hkept' herror' heffect =>
      obtain rfl := hallowed.rows_eq hallowed'
      obtain ⟨rfl, rfl⟩ := first_failure_unique (hqueue.symm.trans hqueue') hkept herror hkept' herror'
      rw [herror] at herror'
      cases herror'
      exact ⟨s', rfl, heffect⟩

/-! ### A prefix with a wildcard -/

/-- A service over a store, with an empty queue. -/
def serviceOf (w : World) : Service :=
  { world := w, rows := [], deletions := [], draw := fun n => if n = 0 then "0" else if n = 1 then "1" else "2",
    drawn := 0, crash := none }

theorem serviceOf_sound {w : World} (h : Consistent w) : (serviceOf w).Sound := ⟨h.wf, h.distinct, List.nodup_nil⟩

def underscoredCalls : List Call :=
  [.register "user" "writer" "d_", .register "user" "writer" "dx",
    .submit "user" "writer" [putText "1" "dx/b" "x", .decision ⟨"2", "1", .skipped, some "dx/a", none, none, none⟩]
      none]

/-- A document and a decision under `dx`, of a writer that also has the prefix `d_`. -/
@[irreducible] def underscored : World := runCalls underscoredCalls (emptyStore (fun _ => 0) 4000)

theorem underscored_consistent : Consistent underscored := by
  unfold underscored
  exact (runCalls_consistent (emptyStore_consistent _ _) (by decide +kernel)).1

private theorem underscored_entries :
    ∃ e, underscored.catalog.entries = [e] ∧ e.userId = "user" ∧ e.writerId = "writer" ∧
    e.path = "dx/b" := by
  have h : underscored.catalog.entries.map (fun e => (e.userId, e.writerId, e.path)) =
    [("user", "writer", "dx/b")] := by
    decide +kernel
  obtain ⟨e, he, hfields⟩ := List.map_eq_singleton_iff.1 h
  simp only [Prod.mk.injEq] at hfields
  exact ⟨e, he, hfields⟩

/-- The rows of the one document. -/
private theorem underscored_rows {pre : String} (hpre : Normalized pre) :
    ∃ e ∈ underscored.catalog.entries, e.userId = "user" ∧
      entryRowsUnderPrefix underscored.catalog "user" "writer" pre =
        .ok (if Inside pre "dx/b" then [e] else []) := by
  obtain ⟨e, he, hu, hw, hpath⟩ := underscored_entries
  have hnormal : Normalized "dx/b" := by decide +kernel
  refine ⟨e, by simp [he], hu, ?_⟩
  have hrows : entryRowsForWriter underscored.catalog "user" "writer" = [e] := by
    unfold entryRowsForWriter byPath
    rw [he]
    simp [hu, hw]
  unfold entryRowsUnderPrefix
  rw [hrows, filterM_ok (g := fun _ => decide (Inside pre "dx/b"))]
  · split <;> simp [*]
  · intro e' he'
    rw [List.mem_singleton.1 he', hpath]
    exact within_eq hnormal hpre

/-- A deletion in that store returns. -/
theorem underscored_returns (pre : String) (hpre : Normalized pre)
    (hauthorized : underscored.catalog.requireAuthorizedPath "user" "writer" pre = .ok ()) :
    ∃ result s', deletePrefix "user" "writer" pre none (serviceOf underscored) = .ok result s' := by
  obtain ⟨e, he, hu, hrows⟩ := underscored_rows hpre
  refine deletePrefix_returns (serviceOf_sound underscored_consistent) rfl ⟨hpre, hauthorized, hrows⟩ ?_ ?_
  · intro r hr
    cases hr
  · intro l hl
    obtain ⟨e', he', hl'⟩ := List.mem_flatMap.1 hl
    have heq : e' = e := by
      split at he'
      · exact List.mem_singleton.1 he'
      · cases he'
    rw [heq, ← hu] at hl'
    exact removable_of_consistent underscored_consistent he l hl'

/-- The document and the decision are deleted with the prefix that they are under. -/
theorem deletePrefix_scope_under :
    ∃ result s', deletePrefix "user" "writer" "dx" none (serviceOf underscored) = .ok result s' ∧
      DeletesScope "user" "writer" "dx" (serviceOf underscored) s' := by
  obtain ⟨result, s', hrun⟩ := underscored_returns "dx" (by decide +kernel) (by decide +kernel)
  have hmisread : NoneMisread "user" "writer" "dx" (serviceOf underscored) := by
    unfold NoneMisread
    decide +kernel
  exact ⟨result, s', hrun, (deletePrefix_scope_iff (serviceOf_sound underscored_consistent) hrun).2 hmisread⟩

/-- The underscore matches the `x`, and the decision is deleted with the prefix `d_`. -/
theorem wildcard_decision :
    ∃ result s', deletePrefix "user" "writer" "d_" none (serviceOf underscored) = .ok result s' ∧
      ¬DeletesScope "user" "writer" "d_" (serviceOf underscored) s' := by
  obtain ⟨result, s', hrun⟩ := underscored_returns "d_" (by decide +kernel) (by decide +kernel)
  refine ⟨result, s', hrun, fun h => ?_⟩
  obtain ⟨rows, hallowed, -, heffect⟩ :=
    (deletePrefix_spec "user" "writer" "d_" none (serviceOf_sound underscored_consistent)).of_ok hrun
  have hmisread : ¬NoneMisread "user" "writer" "d_" (serviceOf underscored) := by
    unfold NoneMisread
    decide +kernel
  refine hmisread ((filter_scope_iff hallowed).1 ?_)
  exact (congrArg Stock.decisions heffect.stock).symm.trans h.decisions

end Service

end Ctxd

import Ctxd.DeletionScope

/-!
# Deletions that are run again

A deletion deletes the rows of the entries last, so as long as they are there a call that is run again finds the same
rows and does the missing steps, and when they are gone everything else is done.  However often a deletion is
interrupted, what it will leave in the end is the same (`reruns_same`).
-/

namespace Ctxd

open Program

namespace Service

variable {user writer pre : String} {rows : List Entry} {s s' : Service} {receipt : Option String} {keys : List String}

/-! ### Dropping operations twice -/

/-- The operation stays. -/
def keeps (pre : String) (keys : List String) (op : Operation) : Bool :=
  holds do return !(← operationTargetsPrefix pre keys op)

theorem keeps_iff {op : Operation} : keeps pre keys op = true ↔ operationTargetsPrefix pre keys op = .ok false := by
  unfold keeps
  cases operationTargetsPrefix pre keys op with
  | error e => exact ⟨fun h => (by cases h), fun h => (by cases h)⟩
  | ok b => cases b <;> simp [holds, pure, Except.pure, bind, Except.bind]

private theorem keptOperations_eq_ok_iff {operations kept : List Operation} :
    keptOperations pre keys operations = .ok kept ↔
      (∀ op ∈ operations, ∃ b, operationTargetsPrefix pre keys op = .ok b) ∧
        kept = operations.filter (keeps pre keys) := by
  unfold keptOperations
  rw [filterM_eq_ok_iff]
  refine and_congr (forall₂_congr fun op _ => ?_) Iff.rfl
  cases operationTargetsPrefix pre keys op with
  | error e =>
    constructor
    · rintro ⟨b, hb⟩
      cases hb
    · rintro ⟨b, hb⟩
      cases hb
  | ok b => exact ⟨fun _ => ⟨b, rfl⟩, fun _ => ⟨!b, rfl⟩⟩

private theorem keptOperations_self {operations : List Operation} (h : ∀ op ∈ operations, keeps pre keys op = true) :
    keptOperations pre keys operations = .ok operations :=
  keptOperations_eq_ok_iff.2
    ⟨fun op hop => ⟨false, keeps_iff.1 (h op hop)⟩, (List.filter_eq_self.2 h).symm⟩

/-- A row of which every operation stays is not changed. -/
private theorem keptRow_self {r : ServiceRow} (h : ∀ op ∈ r.operations, keeps pre keys op = true) :
    keptRow pre keys r = r := by
  unfold keptRow
  rw [keptOperations_self h]
  exact if_pos rfl

/-- The operations of a row that stays in the queue are those that stay. -/
theorem keeps_of_keptRow {r : ServiceRow} {kept : List Operation}
    (hkept : keptOperations pre keys r.operations = .ok kept) (hqueued : isQueued (keptRow pre keys r) = true) :
    ∀ op ∈ (keptRow pre keys r).operations, keeps pre keys op = true := by
  obtain ⟨-, hfilter⟩ := keptOperations_eq_ok_iff.1 hkept
  unfold keptRow at hqueued ⊢
  rw [hkept] at hqueued ⊢
  dsimp only at hqueued ⊢
  by_cases hlength : kept.length = r.operations.length
  · rw [if_pos hlength]
    rw [hfilter] at hlength
    exact fun op hop => List.length_filter_eq_length_iff.1 hlength op hop
  · rw [if_neg hlength] at hqueued ⊢
    split at hqueued
    · cases hqueued
    · rename_i hne
      rw [if_neg hne]
      intro op hop
      have hop : op ∈ kept := hop
      rw [hfilter] at hop
      exact (List.mem_filter.1 hop).2

/-- Without source keys no more operations are dropped. -/
private theorem keeps_without_keys {op : Operation} (h : keeps pre keys op = true) : keeps pre [] op = true := by
  rw [keeps_iff] at h ⊢
  cases op with
  | put op => exact h
  | move op =>
    change (pathIsWithinPrefix op.path pre >>= fun b => if b then pure true else pure (keys.contains op.sourceKey)) =
      _ at h
    show (pathIsWithinPrefix op.path pre >>= fun b => if b then
      pure true else pure (([] : List String).contains op.sourceKey)) = _
    cases hwithin : pathIsWithinPrefix op.path pre with
    | error e =>
      rw [hwithin] at h
      cases h
    | ok b =>
      rw [hwithin] at h
      cases b with
      | true => cases h
      | false => rfl
  | delete op => rfl
  | decision op => exact h

theorem isQueued_of_queuedFor {r : ServiceRow} (h : queuedFor user writer r = true) : isQueued r = true := by
  unfold queuedFor at h
  rw [Bool.and_eq_true] at h
  exact h.2

/-- The queued rows of the writer in a stock have no invalid path. -/
def StockValid (user writer pre : String) (keys : List String) (k : Stock) : Prop :=
  ∀ r ∈ k.rows, queuedFor user writer r = true → ∃ kept, keptOperations pre keys r.operations = .ok kept

theorem allValid_iff : AllValid user writer pre rows s ↔ StockValid user writer pre
    (rows.map (·.sourceKey)) s.stock := by
  constructor
  · intro h r hr hqueued
    obtain ⟨r0, hr0, rfl⟩ := List.mem_map.1 hr
    exact h r0 (List.mem_filter.2 ⟨hr0, hqueued⟩)
  · intro h r hr
    obtain ⟨hmem, hqueued⟩ := List.mem_filter.1 hr
    exact h r.untimed (List.mem_map_of_mem hmem) hqueued

/-- Dropping the operations of some of the rows before those of all of them makes no difference. -/
private theorem mapRows_keptRow_twice {k : Stock} {ids : List String} (hvalid : StockValid user writer pre keys k)
    (hids : ∀ r ∈ k.rows, r.submissionId ∈ ids → queuedFor user writer r = true) :
    StockValid user writer pre keys (k.mapRows (onIds ids (keptRow pre keys))) ∧
      (k.mapRows (onIds ids (keptRow pre keys))).mapRows (onQueued user writer (keptRow pre keys)) =
        k.mapRows (onQueued user writer (keptRow pre keys)) := by
  have hagain : ∀ r ∈ k.rows, r.submissionId ∈ ids → queuedFor user writer (keptRow pre keys r) = true →
      ∀ op ∈ (keptRow pre keys r).operations, keeps pre keys op = true := by
    intro r hr hid hqueued
    obtain ⟨kept, hkept⟩ := hvalid r hr (hids r hr hid)
    exact keeps_of_keptRow hkept (isQueued_of_queuedFor hqueued)
  constructor
  · intro r' hr' hqueued
    obtain ⟨r, hr, rfl⟩ := List.mem_map.1 hr'
    unfold onIds at hqueued ⊢
    by_cases hid : r.submissionId ∈ ids
    · rw [if_pos hid] at hqueued ⊢
      exact ⟨_, keptOperations_self (hagain r hr hid hqueued)⟩
    · rw [if_neg hid] at hqueued ⊢
      exact hvalid r hr hqueued
  · unfold Stock.mapRows
    simp only [List.map_map]
    congr 1
    refine List.map_congr_left fun r hr => ?_
    show onQueued user writer (keptRow pre keys) (onIds ids (keptRow pre keys) r) = _
    unfold onIds
    by_cases hid : r.submissionId ∈ ids
    · rw [if_pos hid]
      unfold onQueued
      rw [if_pos (hids r hr hid)]
      split
      · rename_i hqueued
        exact keptRow_self (hagain r hr hid hqueued)
      · rfl
    · rw [if_neg hid]

/-- A row with an invalid path keeps it until the operations of all rows have been looked at. -/
private theorem stockValid_of_mapRows {k : Stock} {ids : List String}
    (h : StockValid user writer pre keys (k.mapRows (onIds ids (keptRow pre keys)))) :
      StockValid user writer pre keys k := by
  intro r hr hqueued
  cases hkept : keptOperations pre keys r.operations with
  | ok kept => exact ⟨kept, rfl⟩
  | error e =>
    have hsame : onIds ids (keptRow pre keys) r = r := by
      unfold onIds keptRow
      rw [hkept]
      exact ite_self r
    have hmem : r ∈ (k.mapRows (onIds ids (keptRow pre keys))).rows := List.mem_map.2 ⟨r, hr, hsame⟩
    obtain ⟨kept, hok⟩ := h r hmem hqueued
    rw [hkept] at hok
    cases hok

/-- When all rows have lost their operations, there is nothing to drop without source keys either. -/
private theorem mapRows_keptRow_done {k : Stock} (hvalid : StockValid user writer pre keys k) :
    StockValid user writer pre [] (k.mapRows (onQueued user writer (keptRow pre keys))) ∧
      (k.mapRows (onQueued user writer (keptRow pre keys))).mapRows (onQueued user writer (keptRow pre [])) =
        k.mapRows (onQueued user writer (keptRow pre keys)) := by
  have hkeeps : ∀ r ∈ k.rows, queuedFor user writer (onQueued user writer (keptRow pre keys) r) = true →
      ∀ op ∈ (onQueued user writer (keptRow pre keys) r).operations, keeps pre [] op = true := by
    intro r hr hqueued
    unfold onQueued at hqueued ⊢
    by_cases hbefore : queuedFor user writer r = true
    · rw [if_pos hbefore] at hqueued ⊢
      obtain ⟨kept, hkept⟩ := hvalid r hr hbefore
      exact fun op hop => keeps_without_keys (keeps_of_keptRow hkept (isQueued_of_queuedFor hqueued) op hop)
    · rw [if_neg hbefore] at hqueued
      exact absurd hqueued hbefore
  constructor
  · intro r' hr' hqueued
    obtain ⟨r, hr, rfl⟩ := List.mem_map.1 hr'
    exact ⟨_, keptOperations_self (hkeeps r hr hqueued)⟩
  · unfold Stock.mapRows
    simp only [List.map_map]
    congr 1
    refine List.map_congr_left fun r hr => ?_
    show onQueued user writer (keptRow pre []) (onQueued user writer (keptRow pre keys) r) = _
    generalize hr' : onQueued user writer (keptRow pre keys) r = r'
    unfold onQueued
    split
    · rename_i hqueued
      rw [← hr'] at hqueued ⊢
      exact keptRow_self (hkeeps r hr hqueued)
    · rfl

/-! ### Steps taken twice -/

private theorem Effect.erasing {f : Stock → Stock} (h : Effect f s s') : Effect (.erase [] ∘ f) s s' := by
  rw [show Stock.erase [] = id from funext Stock.erase_nil]
  exact h

/-- The steps that both deletions have in common. -/
def finish (user : String) (rows : List Entry) (f : ServiceRow → ServiceRow) (scope : Decision → Bool) :
    Stock → Stock :=
  .dropEntries user rows ∘ .erase (filesOfAll user rows) ∘ .mapRows f ∘ .dropDecisions scope

/-- Some of the steps before all of them make no difference. -/
private theorem finish_again {k : Stock} {rows : List Entry} {ls : List Loc} {f g : ServiceRow → ServiceRow}
    {scope : Decision → Bool} {h : Stock → Stock} (hls : ls ⊆ filesOfAll user rows)
    (hh : h = id ∨ h = .dropDecisions scope) (htwice : (k.mapRows g).mapRows f = k.mapRows f) :
    finish user rows f scope ((.erase ls ∘ .mapRows g ∘ h) k) = finish user rows f scope k := by
  have hrows : ((.erase ls ∘ .mapRows g ∘ h) k : Stock).rows = (k.mapRows g).rows := by
    rcases hh with rfl | rfl <;> rfl
  have hfile : ((.erase ls ∘ .mapRows g ∘ h) k : Stock).file = (k.erase ls).file := by
    rcases hh with rfl | rfl <;> rfl
  unfold finish
  ext1
  · rcases hh with rfl | rfl <;> rfl
  · rcases hh with rfl | rfl
    · rfl
    · show List.filter _ (List.filter _ _) = List.filter _ _
      rw [List.filter_filter]
      exact List.filter_congr fun r _ => Bool.and_self _
  · rcases hh with rfl | rfl <;> rfl
  · exact (congrArg (List.map f) hrows).trans (congrArg Stock.rows htwice)
  · funext l
    by_cases hmem : l ∈ filesOfAll user rows
    · exact (if_pos hmem).trans (if_pos hmem).symm
    · refine (if_neg hmem).trans (Eq.trans ?_ (if_neg hmem).symm)
      have hsame := congrFun hfile l
      exact hsame.trans (if_neg fun hl => hmem (hls hl))

/-- Without rows of entries, and when the decisions and operations are gone, nothing is left to do. -/
private theorem finish_nil {k : Stock} {f : ServiceRow → ServiceRow} {scope : Decision → Bool}
    (hdecisions : ∀ r ∈ k.decisions, scope r = false) (hrows : ∀ r ∈ k.rows, f r = r) :
    finish user [] f scope k = k := by
  unfold finish
  ext1
  · show List.filter _ k.entries = k.entries
    rw [List.filter_eq_self]
    intro e _
    rfl
  · show List.filter _ k.decisions = k.decisions
    rw [List.filter_eq_self]
    intro r hr
    rw [hdecisions r hr]
    rfl
  · rfl
  · show k.rows.map f = k.rows
    exact (List.map_congr_left hrows).trans (List.map_id' _)
  · funext l
    show (if l ∈ ([] : List Loc) then none else k.file l) = k.file l
    exact if_neg List.not_mem_nil

/-! ### What a deletion would leave -/

/-- Only entries and files have gone, and no row of a submission. -/
structure Shrinks (s s' : Service) : Prop where
  entries : s'.world.catalog.entries.Sublist s.world.catalog.entries
  ids : s'.rows.map (·.submissionId) = s.rows.map (·.submissionId)
  prunes : s.world.fs.disk.Prunes s'.world.fs.disk

private theorem Shrinks.refl (s : Service) : Shrinks s s := ⟨List.Sublist.refl _, rfl, .refl _⟩

private theorem Shrinks.trans {s'' : Service} (h : Shrinks s s') (h' : Shrinks s' s'') : Shrinks s s'' :=
  ⟨h'.entries.trans h.entries, h'.ids.trans h.ids, h.prunes.trans h'.prunes⟩

private theorem Effect.shrinks {f : Stock → Stock} (h : Effect f s s')
    (hentries : (f s.stock).entries.Sublist s.stock.entries)
    (hids : (f s.stock).rows.map (·.submissionId) = s.stock.rows.map (·.submissionId)) : Shrinks s s' := by
  refine ⟨?_, ?_, h.prunes⟩
  · show s'.stock.entries.Sublist _
    rw [h.stock]
    exact hentries
  · have huntimed : ∀ s : Service, s.stock.rows.map (·.submissionId) = s.rows.map (·.submissionId) := by
      intro s
      show (s.rows.map _).map _ = _
      rw [List.map_map]
      rfl
    rw [← huntimed s', ← huntimed s, h.stock, hids]

private theorem Shrinks.sound (h : Shrinks s s') (hs : s.Sound) : s'.Sound := by
  refine ⟨h.prunes.wf hs.disk, ⟨?_, ?_⟩, ?_⟩
  · exact hs.distinct.paths.sublist (h.entries.map _)
  · exact hs.distinct.sources.sublist (h.entries.map _)
  · rw [h.ids]
    exact hs.keyed

/-- The files of the user's documents can be removed. -/
def Clearable (user : String) (s : Service) : Prop :=
  ∀ e ∈ s.world.catalog.entries, e.userId = user → ∀ l ∈ filesOf user e, s.world.fs.disk.Removable l

private theorem Shrinks.clearable (h : Shrinks s s') (hc : s.Clearable user) : s'.Clearable user := fun e he hu l hl =>
  h.prunes.removable (hc e (h.entries.subset he) hu l hl)

private theorem mapRows_ids {k : Stock} {f : ServiceRow → ServiceRow} (hf : ∀ r, (f r).submissionId = r.submissionId) :
    (k.mapRows f).rows.map (·.submissionId) = k.rows.map (·.submissionId) := by
  show (k.rows.map f).map _ = _
  rw [List.map_map]
  exact List.map_congr_left fun r _ => hf r

private theorem onQueued_submissionId {f : ServiceRow → ServiceRow} (hf : ∀ r, (f r).submissionId = r.submissionId)
    (r : ServiceRow) : (onQueued user writer f r).submissionId = r.submissionId := by
  unfold onQueued
  split
  · exact hf r
  · rfl

private theorem Effect.shrinks_partway {ls : List Loc} {ids : List String} {f : ServiceRow → ServiceRow}
    {g : Stock → Stock} {scope : Decision → Bool} (h : Effect (.erase ls ∘ .mapRows (onIds ids f) ∘ g) s s')
    (hf : ∀ r, (f r).submissionId = r.submissionId) (hg : g = id ∨ g = .dropDecisions scope) : Shrinks s s' := by
  refine h.shrinks ?_ ?_
  · rcases hg with rfl | rfl <;> exact List.Sublist.refl _
  · rcases hg with rfl | rfl <;> exact mapRows_ids (k := s.stock) (onIds_submissionId hf)

private theorem Effect.shrinks_finish {rows : List Entry} {f : ServiceRow → ServiceRow} {scope : Decision → Bool}
    (h : Effect (finish user rows (onQueued user writer f) scope) s s')
    (hf : ∀ r, (f r).submissionId = r.submissionId) : Shrinks s s' :=
  h.shrinks List.filter_sublist (mapRows_ids (k := s.stock) (onQueued_submissionId hf))

private theorem PrefixHalt.shrinks {h : ServiceHalt} (hhalt : PrefixHalt user writer pre s h s') : Shrinks s s' := by
  cases hhalt with
  | refused => exact .refl s
  | invalid _ _ _ _ effect =>
    exact effect.shrinks (List.Sublist.refl _)
      (mapRows_ids (k := s.stock) (onIds_submissionId (keptRow_submissionId _ _)))
  | partway _ _ _ _ decisions effect => exact effect.shrinks_partway (keptRow_submissionId _ _) decisions
  | unrecorded _ _ _ effect => exact effect.shrinks_finish (keptRow_submissionId _ _)

private theorem effect_late_shrinks {rows : List Entry} {f : Stock → Stock}
    (hf : f = id ∨ f = .dropPrefixes (isOfWriter user writer)) (h : Effect (f ∘ writerEffect user writer rows) s s') :
    Shrinks s s' := by
  have hids : (s.stock.mapRows (onQueued user writer discardedRow)).rows.map (·.submissionId) =
      s.stock.rows.map (·.submissionId) := mapRows_ids (onQueued_submissionId fun _ => rfl)
  rcases hf with rfl | rfl <;> exact h.shrinks List.filter_sublist hids

private theorem IntegrationHalt.shrinks {rows : List Entry} {h : ServiceHalt}
    (hhalt : IntegrationHalt user writer rows s h s') :
    Shrinks s s' := by
  cases hhalt with
  | partway _ _ _ decisions effect => exact effect.shrinks_partway (fun _ => rfl) decisions
  | late _ prefixes effect => exact effect_late_shrinks prefixes effect

private theorem authorized_congr {c c' : Catalog} (h : c'.writerPrefixes = c.writerPrefixes)
    (user writer path : String) :
    c'.requireAuthorizedPath user writer path = c.requireAuthorizedPath user writer path := by
  unfold Catalog.requireAuthorizedPath Catalog.writerPrefixesOf
  rw [h]

private theorem entryRowsUnderPrefix_congr {c c' : Catalog} (h : c'.entries = c.entries) :
    entryRowsUnderPrefix c' user writer pre = entryRowsUnderPrefix c user writer pre := by
  unfold entryRowsUnderPrefix entryRowsForWriter
  rw [h]

/-- The call is allowed in this service, and run to its end it leaves the stock `k`. -/
structure PrefixLeaves (user writer pre : String) (k : Stock) (rows : List Entry) (s : Service) : Prop where
  allowed : Allowed user writer pre rows s
  valid : AllValid user writer pre rows s
  leaves : prefixEffect user writer pre rows s.stock = k

variable {k : Stock}

/-- Some steps of the deletion have been taken. -/
private theorem PrefixLeaves.of_partway (hs : s.Sound) (h : PrefixLeaves user writer pre k rows s) {ids : List String}
    {ls : List Loc} {f : Stock → Stock} (hids : ids ⊆ (queuedOf user writer s.rows).map (·.submissionId))
    (hls : ls ⊆ filesOfAll user rows)
    (hf : f = id ∨ f = .dropDecisions (inDecisionScope user writer pre (rows.map (·.sourceKey))))
    (heffect : Effect (.erase ls ∘ .mapRows (onIds ids (keptRow pre (rows.map (·.sourceKey)))) ∘ f) s s') :
    PrefixLeaves user writer pre k rows s' := by
  have hstock := heffect.stock
  have hentries : s'.stock.entries = s.stock.entries := by
    rw [hstock]
    rcases hf with rfl | rfl <;> rfl
  have hprefixes : s'.stock.writerPrefixes = s.stock.writerPrefixes := by
    rw [hstock]
    rcases hf with rfl | rfl <;> rfl
  have hrows : s'.stock.rows = (s.stock.mapRows (onIds ids (keptRow pre (rows.map (·.sourceKey))))).rows := by
    rw [hstock]
    rcases hf with rfl | rfl <;> rfl
  have hqueued : ∀ r ∈ s.stock.rows, r.submissionId ∈ ids → queuedFor user writer r = true := fun r hr hid =>
    (mem_queuedIds_iff hs.stock_keyed hr).1 (hids hid)
  obtain ⟨hvalid, htwice⟩ := mapRows_keptRow_twice (allValid_iff.1 h.valid) hqueued
  refine ⟨⟨h.allowed.normal, ?_, ?_⟩, ?_, ?_⟩
  · exact (authorized_congr hprefixes _ _ _).trans h.allowed.authorized
  · exact (entryRowsUnderPrefix_congr hentries).trans h.allowed.rows
  · rw [allValid_iff]
    unfold StockValid at hvalid ⊢
    rw [hrows]
    exact hvalid
  · rw [← h.leaves, hstock]
    exact finish_again hls hf htwice

/-- All of the deletion has been done. -/
private theorem PrefixLeaves.of_done (hs : s.Sound) (h : PrefixLeaves user writer pre k rows s)
    (heffect : Effect (prefixEffect user writer pre rows) s s') :
    PrefixLeaves user writer pre k [] s' ∧ s'.stock = k := by
  have hstock : s'.stock = k := heffect.stock.trans h.leaves
  obtain ⟨hvalid, hdone⟩ := mapRows_keptRow_done (allValid_iff.1 h.valid)
  have hentries : s'.world.catalog.entries =
      s.world.catalog.entries.filter fun e => !rows.any fun row => e.isSource user row.writerId row.sourceKey :=
    congrArg Stock.entries heffect.stock
  have hdecisions : s'.stock.decisions = s.stock.decisions.filter fun r =>
      !inDecisionScope user writer pre (rows.map (·.sourceKey)) r := congrArg Stock.decisions heffect.stock
  have hrows : s'.stock.rows =
      (s.stock.mapRows (onQueued user writer (keptRow pre (rows.map (·.sourceKey))))).rows := by
    rw [heffect.stock]
    rfl
  have hprefixes : s'.stock.writerPrefixes = s.stock.writerPrefixes := by
    rw [heffect.stock]
    rfl
  refine ⟨⟨⟨h.allowed.normal, ?_, ?_⟩, ?_, ?_⟩, hstock⟩
  · exact (authorized_congr hprefixes _ _ _).trans h.allowed.authorized
  · -- No row of the writer is left under the prefix.
    obtain ⟨hall, -⟩ := filterM_eq_ok_iff.1 h.allowed.rows
    have hmem : ∀ e ∈ entryRowsForWriter s'.world.catalog user writer,
        e ∈ entryRowsForWriter s.world.catalog user writer ∧ inEntryScope user writer pre e = false := by
      intro e he
      unfold entryRowsForWriter byPath at he ⊢
      rw [List.mem_mergeSort, List.mem_filter, hentries, List.mem_filter] at he
      obtain ⟨⟨he, hkept⟩, hof⟩ := he
      rw [h.allowed.any_isSource hs.distinct he] at hkept
      rw [List.mem_mergeSort, List.mem_filter]
      exact ⟨⟨he, hof⟩, by simpa using hkept⟩
    refine filterM_eq_ok_iff.2 ⟨fun e he => hall e (hmem e he).1, ?_⟩
    rw [eq_comm, List.filter_eq_nil_iff]
    intro e he hholds
    obtain ⟨hbefore, hscope⟩ := hmem e he
    obtain ⟨b, hb⟩ := hall e hbefore
    rw [hb] at hholds
    obtain rfl : b = true := hholds
    have hof : e.userId = user ∧ e.writerId = writer := by
      unfold entryRowsForWriter byPath at he
      rw [List.mem_mergeSort, List.mem_filter] at he
      simpa using he.2
    simp [inEntryScope, hof.1, hof.2, inside_of_within hb] at hscope
  · rw [allValid_iff]
    unfold StockValid at hvalid ⊢
    rw [hrows]
    exact hvalid
  · rw [← hstock]
    refine finish_nil (fun r hr => ?_) (fun r hr => ?_)
    · rw [hdecisions, List.mem_filter] at hr
      have hscope := hr.2
      unfold inDecisionScope at hscope ⊢
      cases hlike : likePrefix pre r.path with
      | false => simp
      | true =>
        rw [hlike] at hscope
        simp only [Bool.true_or, Bool.and_true, Bool.not_eq_true'] at hscope
        simp [hscope]
    · rw [hrows] at hr
      exact List.map_inj_left.1 ((congrArg Stock.rows hdone).trans (List.map_id' _).symm) r hr

/-- Run to its end, the deletion of the integration leaves the stock `k`. -/
def IntegrationLeaves (user writer : String) (k : Stock) (s : Service) : Prop :=
  integrationEffect user writer (entryRowsForWriter s.world.catalog user writer) s.stock = k

private theorem entryRowsForWriter_congr {c c' : Catalog} (h : c'.entries = c.entries) :
    entryRowsForWriter c' user writer = entryRowsForWriter c user writer := by
  unfold entryRowsForWriter
  rw [h]

private theorem queuedFor_discardedRow (user writer : String) (r : ServiceRow) :
    queuedFor user writer (discardedRow r) = false := by
  simp [queuedFor, discardedRow, isQueued]

private theorem mapRows_discardedRow_twice {k : Stock} {ids : List String}
    (hids : ∀ r ∈ k.rows, r.submissionId ∈ ids → queuedFor user writer r = true) :
    (k.mapRows (onIds ids discardedRow)).mapRows (onQueued user writer discardedRow) =
      k.mapRows (onQueued user writer discardedRow) := by
  unfold Stock.mapRows
  simp only [List.map_map]
  congr 1
  refine List.map_congr_left fun r hr => ?_
  show onQueued user writer discardedRow (onIds ids discardedRow r) = _
  unfold onIds
  by_cases hid : r.submissionId ∈ ids
  · rw [if_pos hid]
    unfold onQueued
    rw [if_pos (hids r hr hid), queuedFor_discardedRow]
    rfl
  · rw [if_neg hid]

private theorem onQueued_discardedRow_twice (r : ServiceRow) :
    onQueued user writer discardedRow (onQueued user writer discardedRow r) = onQueued user writer discardedRow r := by
  unfold onQueued
  by_cases hqueued : queuedFor user writer r = true
  · rw [if_pos hqueued, queuedFor_discardedRow]
    rfl
  · rw [if_neg hqueued, if_neg hqueued]

/-- Some steps of the deletion have been taken. -/
private theorem IntegrationLeaves.of_partway (hs : s.Sound) (h : IntegrationLeaves user writer k s)
    {ids : List String} {ls : List Loc}
    {f : Stock → Stock} (hids : ids ⊆ (queuedOf user writer s.rows).map (·.submissionId))
    (hls : ls ⊆ filesOfAll user (entryRowsForWriter s.world.catalog user writer))
    (hf : f = id ∨ f = .dropDecisions (ofWriter user writer))
    (heffect : Effect (.erase ls ∘ .mapRows (onIds ids discardedRow) ∘ f) s s') :
    IntegrationLeaves user writer k s' := by
  have hstock := heffect.stock
  have hentries : s'.stock.entries = s.stock.entries := by
    rw [hstock]
    rcases hf with rfl | rfl <;> rfl
  have hrows : s'.stock.rows = (s.stock.mapRows (onIds ids discardedRow)).rows := by
    rw [hstock]
    rcases hf with rfl | rfl <;> rfl
  have hqueued : ∀ r ∈ s.stock.rows, r.submissionId ∈ ids → queuedFor user writer r = true := fun r hr hid =>
    (mem_queuedIds_iff hs.stock_keyed hr).1 (hids hid)
  unfold IntegrationLeaves at h ⊢
  rw [← h, entryRowsForWriter_congr hentries, hstock]
  exact congrArg (Stock.dropPrefixes _) (finish_again hls hf (mapRows_discardedRow_twice hqueued))

/-- The entries are gone. -/
private theorem IntegrationLeaves.of_late (h : IntegrationLeaves user writer k s) {f : Stock → Stock}
    (hf : f = id ∨ f = .dropPrefixes (isOfWriter user writer))
    (heffect : Effect (f ∘ writerEffect user writer (entryRowsForWriter s.world.catalog user writer)) s s') :
    IntegrationLeaves user writer k s' := by
  have hstock := heffect.stock
  have hentries : s'.world.catalog.entries = s.world.catalog.entries.filter fun e =>
      !(entryRowsForWriter s.world.catalog user writer).any fun row => e.isSource user row.writerId row.sourceKey := by
    show s'.stock.entries = _
    rw [hstock]
    rcases hf with rfl | rfl <;> rfl
  have hdecisions : s'.stock.decisions = s.stock.decisions.filter fun r => !ofWriter user writer r := by
    rw [hstock]
    rcases hf with rfl | rfl <;> rfl
  have hrows : s'.stock.rows = s.stock.rows.map (onQueued user writer discardedRow) := by
    rw [hstock]
    rcases hf with rfl | rfl <;> rfl
  have hnone : entryRowsForWriter s'.world.catalog user writer = [] := by
    unfold entryRowsForWriter byPath
    rw [List.filter_eq_nil_iff.2, List.mergeSort_nil]
    intro e he hof
    rw [hentries, List.mem_filter] at he
    obtain ⟨he, hkept⟩ := he
    have hmem : e ∈ entryRowsForWriter s.world.catalog user writer := by
      unfold entryRowsForWriter byPath
      rw [List.mem_mergeSort]
      exact List.mem_filter.2 ⟨he, hof⟩
    have hu : e.userId = user := by
      simp only [Bool.and_eq_true, decide_eq_true_eq] at hof
      exact hof.1
    rw [Bool.not_eq_true', ← Bool.not_eq_true, List.any_eq_true] at hkept
    refine hkept ⟨e, hmem, ?_⟩
    rw [e.isSource_iff, Entry.source, hu]
  have hdone : finish user [] (onQueued user writer discardedRow) (ofWriter user writer) s'.stock = s'.stock := by
    refine finish_nil (fun r hr => ?_) (fun r hr => ?_)
    · rw [hdecisions, List.mem_filter] at hr
      simpa using hr.2
    · rw [hrows] at hr
      obtain ⟨r0, -, rfl⟩ := List.mem_map.1 hr
      exact onQueued_discardedRow_twice r0
  unfold IntegrationLeaves at h ⊢
  rw [hnone, ← h]
  refine (congrArg (Stock.dropPrefixes _) hdone).trans ?_
  rw [hstock]
  rcases hf with rfl | rfl
  · rfl
  · unfold integrationEffect
    show Stock.dropPrefixes _ (Stock.dropPrefixes _ _) = Stock.dropPrefixes _ _
    unfold Stock.dropPrefixes
    dsimp only
    rw [List.filter_filter]
    simp only [Bool.and_self]

/-! ### Calls that are run again -/

/-- A call that deletes a prefix or an integration. -/
inductive Deletion
  | ofPrefix (user writer pre : String) (receipt : Option String)
  | ofIntegration (user writer : String) (receipt : Option String)

namespace Deletion

def userId : Deletion → String
  | ofPrefix user _ _ _ => user
  | ofIntegration user _ _ => user

def run : Deletion → ServiceM DeletionResult
  | ofPrefix user writer pre receipt => deletePrefix user writer pre receipt
  | ofIntegration user writer receipt => deleteIntegration user writer receipt

/-- The call is run again and again, and dies each time after so many steps if it is not over by then. -/
def interrupted (d : Deletion) (crashes : List Nat) (s : Service) : Service :=
  crashes.foldl (fun s n => endState d.run { s with crash := some n }) s

/-- Nothing stands against the call. -/
def Returnable (s : Service) : Deletion → Prop
  | ofPrefix user writer pre _ => ∃ rows, Allowed user writer pre rows s ∧ AllValid user writer pre rows s
  | ofIntegration _ _ _ => True

/-- Run to its end, the call leaves the stock `k`. -/
def Leaves (k : Stock) (s : Service) : Deletion → Prop
  | ofPrefix user writer pre _ => ∃ rows, PrefixLeaves user writer pre k rows s
  | ofIntegration user writer _ => IntegrationLeaves user writer k s

private theorem Leaves.returnable {d : Deletion} (h : d.Leaves k s) : d.Returnable s := by
  cases d with
  | ofPrefix user writer pre receipt =>
    obtain ⟨rows, hleaves⟩ := h
    exact ⟨rows, hleaves.allowed, hleaves.valid⟩
  | ofIntegration => trivial

private theorem Leaves.crashing {d : Deletion} (h : d.Leaves k s) (crash : Option Nat) :
    d.Leaves k { s with crash := crash } := by
  cases d with
  | ofPrefix user writer pre receipt =>
    obtain ⟨rows, hleaves⟩ := h
    exact ⟨rows, ⟨hleaves.allowed.normal, hleaves.allowed.authorized, hleaves.allowed.rows⟩, hleaves.valid,
      hleaves.leaves⟩
  | ofIntegration => exact h

private theorem Returnable.crashing {d : Deletion} (crash : Option Nat) (h : d.Returnable { s with crash := crash }) :
    d.Returnable s := by
  cases d with
  | ofPrefix user writer pre receipt =>
    obtain ⟨rows, hallowed, hvalid⟩ := h
    exact ⟨rows, ⟨hallowed.normal, hallowed.authorized, hallowed.rows⟩, hvalid⟩
  | ofIntegration => trivial

private theorem shrinks_crashing (s : Service) (crash : Option Nat) : Shrinks s { s with crash := crash } :=
  ⟨List.Sublist.refl _, rfl, .refl _⟩

/-- However the call ends, only entries and files have gone. -/
private theorem run_shrinks (d : Deletion) (hs : s.Sound) :
    Ends d.run (fun _ s' => Shrinks s s') (fun _ s' => Shrinks s s') s := by
  cases d with
  | ofPrefix user writer pre receipt =>
    refine (deletePrefix_spec user writer pre receipt hs).mono (fun _ s' h => ?_) fun _ _ h => h.shrinks
    obtain ⟨rows, -, -, heffect⟩ := h
    exact heffect.shrinks_finish (keptRow_submissionId _ _)
  | ofIntegration user writer receipt =>
    exact (deleteIntegration_spec user writer receipt hs).mono (fun _ _ h => effect_late_shrinks (.inr rfl) h)
      fun _ _ h => h.shrinks

/-- However the call ends, it will leave the same when it is run again, and that is what it leaves when it returns. -/
private theorem run_leaves {d : Deletion} (hs : s.Sound) (h : d.Leaves k s) :
    Ends d.run (fun _ s' => d.Leaves k s' ∧ s'.stock = k) (fun _ s' => d.Leaves k s') s := by
  cases d with
  | ofPrefix user writer pre receipt =>
    obtain ⟨rows, hleaves⟩ := h
    refine (deletePrefix_spec user writer pre receipt hs).mono (fun _ s' h => ?_) (fun _ s' h => ?_)
    · obtain ⟨rows', hallowed, -, heffect⟩ := h
      obtain rfl := hleaves.allowed.rows_eq hallowed
      obtain ⟨hdone, hstock⟩ := hleaves.of_done hs heffect
      exact ⟨⟨[], hdone⟩, hstock⟩
    · cases h with
      | refused hnot => exact absurd hleaves.allowed (hnot rows)
      | invalid allowed queue _ error =>
        obtain rfl := hleaves.allowed.rows_eq allowed
        obtain ⟨kept, hok⟩ := hleaves.valid _ (queue ▸ List.mem_append_right _ (List.mem_cons_self ..))
        rw [error] at hok
        cases hok
      | partway allowed _ ids_subset ls_subset decisions effect =>
        obtain rfl := hleaves.allowed.rows_eq allowed
        exact ⟨rows, hleaves.of_partway hs ids_subset ls_subset decisions effect⟩
      | unrecorded allowed _ _ effect =>
        obtain rfl := hleaves.allowed.rows_eq allowed
        exact ⟨[], (hleaves.of_done hs effect).1⟩
  | ofIntegration user writer receipt =>
    have h : IntegrationLeaves user writer k s := h
    refine (deleteIntegration_spec user writer receipt hs).mono (fun _ s' heffect => ?_) (fun _ s' hhalt => ?_)
    · exact ⟨h.of_late (.inr rfl) heffect, heffect.stock.trans h⟩
    · cases hhalt with
      | partway _ ids_subset ls_subset decisions effect => exact h.of_partway hs ids_subset ls_subset decisions effect
      | late _ prefixes effect => exact h.of_late prefixes effect

/-- What a call that returns leaves is what it leaves. -/
private theorem leaves_of_returns {d : Deletion} (hs : s.Sound) {result : DeletionResult}
    (hrun : d.run s = .ok result s') :
    d.Leaves s'.stock s := by
  cases d with
  | ofPrefix user writer pre receipt =>
    obtain ⟨rows, hallowed, hvalid, heffect⟩ := (deletePrefix_spec user writer pre receipt hs).of_ok hrun
    exact ⟨rows, hallowed, hvalid, heffect.stock.symm⟩
  | ofIntegration user writer receipt =>
    exact ((deleteIntegration_spec user writer receipt hs).of_ok hrun).stock.symm

/-- A call that does not die returns if nothing stands against it. -/
private theorem returns_iff (d : Deletion) (hs : s.Sound) (hcrash : s.crash = none) (hclear : s.Clearable d.userId) :
    (∃ result s', d.run s = .ok result s') ↔ d.Returnable s := by
  constructor
  · rintro ⟨result, s', hrun⟩
    exact (leaves_of_returns hs hrun).returnable
  · intro h
    cases d with
    | ofPrefix user writer pre receipt =>
      obtain ⟨rows, hallowed, hvalid⟩ := h
      refine deletePrefix_returns hs hcrash hallowed hvalid fun l hl => ?_
      obtain ⟨e, he, hscope, hle⟩ := hallowed.mem_filesOfAll.1 hl
      simp only [inEntryScope, Bool.and_eq_true, decide_eq_true_eq] at hscope
      exact hclear e he hscope.1.1 l hle
    | ofIntegration user writer receipt =>
      cases hrun : deleteIntegration user writer receipt s with
      | ok result s' => exact ⟨result, s', hrun⟩
      | error halt s' =>
        cases (deleteIntegration_spec user writer receipt hs).of_error hrun with
        | partway hinterrupted =>
          rcases hinterrupted with hdies | ⟨-, l, hl, hstuck⟩
          · exact absurd hcrash hdies.2
          · obtain ⟨e, he, hle⟩ := List.mem_flatMap.1 hl
            unfold entryRowsForWriter byPath at he
            rw [List.mem_mergeSort, List.mem_filter] at he
            have hu : e.userId = user := by
              have hof := he.2
              simp only [Bool.and_eq_true, decide_eq_true_eq] at hof
              exact hof.1
            exact absurd (hclear e he.1 hu l hle) hstuck
        | late hdies => exact absurd hcrash hdies.2

/-- Where nothing stands against the call that is run again, nothing stood against it before. -/
private theorem run_returnable (d : Deletion) (hs : s.Sound) :
    Ends d.run (fun _ s' => d.Returnable s' → d.Returnable s) (fun _ s' => d.Returnable s' → d.Returnable s) s := by
  cases d with
  | ofIntegration user writer receipt =>
    exact (deleteIntegration_spec user writer receipt hs).mono (fun _ _ _ _ => trivial) fun _ _ _ _ => trivial
  | ofPrefix user writer pre receipt =>
    have hbefore : ∀ {rows : List Entry} {ids : List String} {ls : List Loc} {f : Stock → Stock} {s' : Service},
        Allowed user writer pre rows s →
        f = id ∨ f = .dropDecisions (inDecisionScope user writer pre (rows.map (·.sourceKey))) →
        Effect (.erase ls ∘ .mapRows (onIds ids (keptRow pre (rows.map (·.sourceKey)))) ∘ f) s s' →
        Returnable s' (.ofPrefix user writer pre receipt) → Returnable s (.ofPrefix user writer pre receipt) := by
      intro rows ids ls f s' hallowed hf heffect hafter
      obtain ⟨rows', hallowed', hvalid'⟩ := hafter
      have hentries : s'.stock.entries = s.stock.entries := by
        rw [heffect.stock]
        rcases hf with rfl | rfl <;> rfl
      have hrows : s'.stock.rows = (s.stock.mapRows (onIds ids (keptRow pre (rows.map (·.sourceKey))))).rows := by
        rw [heffect.stock]
        rcases hf with rfl | rfl <;> rfl
      obtain rfl : rows' = rows := by
        have hsame := hallowed'.rows
        rw [entryRowsUnderPrefix_congr hentries, hallowed.rows] at hsame
        exact (Except.ok.inj hsame).symm
      have hstockValid := allValid_iff.1 hvalid'
      unfold StockValid at hstockValid
      rw [hrows] at hstockValid
      exact ⟨rows', hallowed, allValid_iff.2 (stockValid_of_mapRows hstockValid)⟩
    refine (deletePrefix_spec user writer pre receipt hs).mono (fun _ s' h _ => ?_) (fun _ s' h hafter => ?_)
    · obtain ⟨rows, hallowed, hvalid, -⟩ := h
      exact ⟨rows, hallowed, hvalid⟩
    · cases h with
      | refused => exact hafter
      | invalid allowed _ _ _ effect =>
        exact hbefore allowed (.inr rfl) effect.erasing hafter
      | partway allowed _ _ _ decisions effect => exact hbefore allowed decisions effect hafter
      | unrecorded allowed valid => exact ⟨_, allowed, valid⟩

private theorem interrupted_shrinks (d : Deletion) (crashes : List Nat) (hs : s.Sound) :
    Shrinks s (d.interrupted crashes s) := by
  induction crashes generalizing s with
  | nil => exact .refl s
  | cons n crashes ih =>
    have hcrashing := shrinks_crashing s (some n)
    have hstep := (run_shrinks d (hcrashing.sound hs)).endState
    have hfirst := hcrashing.trans hstep
    exact hfirst.trans (ih (hfirst.sound hs))

private theorem interrupted_leaves {d : Deletion} (crashes : List Nat) (hs : s.Sound) (h : d.Leaves k s) :
    d.Leaves k (d.interrupted crashes s) := by
  induction crashes generalizing s with
  | nil => exact h
  | cons n crashes ih =>
    have hcrashing := (shrinks_crashing s (some n)).sound hs
    refine ih ((run_shrinks d hcrashing).endState.sound hcrashing) ?_
    exact ((run_leaves hcrashing (h.crashing (some n))).mono (fun _ _ h => h.1) fun _ _ h => h).endState

private theorem interrupted_returnable {d : Deletion} (crashes : List Nat) (hs : s.Sound)
    (h : d.Returnable (d.interrupted crashes s)) : d.Returnable s := by
  induction crashes generalizing s with
  | nil => exact h
  | cons n crashes ih =>
    have hcrashing := (shrinks_crashing s (some n)).sound hs
    have hlater := ih ((run_shrinks d hcrashing).endState.sound hcrashing) h
    have hfirst := Ends.endState (P := fun s' => d.Returnable s' → d.Returnable { s with crash := some n })
      (run_returnable d hcrashing)
    exact (hfirst hlater).crashing

/-- A call that was interrupted, however often, and is run again leaves what one uninterrupted call leaves; where files
can be removed, it returns if and only if that call does. -/
theorem reruns_same (d : Deletion) (crashes : List Nat) (hs : s.Sound) :
    (∀ result result' done again, d.run { s with crash := none } = .ok result done →
        d.run { d.interrupted crashes s with crash := none } = .ok result' again → again.stock = done.stock) ∧
      (s.Clearable d.userId → ((∃ result done, d.run { s with crash := none } = .ok result done) ↔
        ∃ result' again, d.run { d.interrupted crashes s with crash := none } = .ok result' again)) := by
  have hfresh := (shrinks_crashing s none).sound hs
  have hshrinks := (interrupted_shrinks d crashes hs).trans (shrinks_crashing _ none)
  have hleaves : ∀ result done, d.run { s with crash := none } = .ok result done →
      d.Leaves done.stock { d.interrupted crashes s with crash := none } := by
    intro result done hrun
    have hnow : d.Leaves done.stock s := (leaves_of_returns hfresh hrun).crashing s.crash
    exact (interrupted_leaves crashes hs hnow).crashing none
  constructor
  · intro result result' done again hrun hrerun
    exact ((run_leaves (hshrinks.sound hs) (hleaves result done hrun)).of_ok hrerun).2
  · intro hclear
    rw [returns_iff d hfresh rfl ((shrinks_crashing s none).clearable hclear),
      returns_iff d (hshrinks.sound hs) rfl (hshrinks.clearable hclear)]
    constructor
    · intro h
      obtain ⟨result, done, hrun⟩ :=
        (returns_iff d hfresh rfl ((shrinks_crashing s none).clearable hclear)).2 h
      exact (hleaves result done hrun).returnable
    · intro h
      have hnow : d.Returnable s := interrupted_returnable crashes hs h.crashing
      exact Returnable.crashing s.crash hnow

/-- The process dies three times while the prefix `dx` is deleted. -/
theorem reruns_same_thrice :
    ∃ result result' done again, deletePrefix "user" "writer" "dx" none (serviceOf underscored) = .ok result done ∧
      deletePrefix "user" "writer" "dx" none
        { (Deletion.ofPrefix "user" "writer" "dx" none).interrupted [3, 0, 1] (serviceOf underscored) with
          crash := none } =
          .ok result' again ∧ again.stock = done.stock := by
  obtain ⟨result, done, hrun⟩ := underscored_returns "dx" (by decide +kernel) (by decide +kernel)
  have hsound := serviceOf_sound underscored_consistent
  obtain ⟨hsame, hreturns⟩ := reruns_same (.ofPrefix "user" "writer" "dx" none) [3, 0, 1] hsound
  have hclear : (serviceOf underscored).Clearable "user" := by
    intro e he hu l hl
    rw [← hu] at hl
    exact removable_of_consistent underscored_consistent he l hl
  obtain ⟨result', again, hrerun⟩ := (hreturns hclear).1 ⟨result, done, hrun⟩
  exact ⟨result, result', done, again, hrun, hrerun, hsame result result' done again hrun hrerun⟩

end Deletion

end Service

end Ctxd

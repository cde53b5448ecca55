import Ctxd.Inside
import Ctxd.Rows
import Ctxd.Submit

/-!
# What a deletion does

A deletion is followed on the `Stock` of the service: the rows and files that it is about, without the times at which
rows were changed.  Each part of it has an `Effect` on the stock.  A part that is cut short, because the process dies or
a file cannot be removed, has done the first of its steps, and the rules say which stocks are possible then.
-/

namespace Ctxd

open Program

namespace Disk

variable {d d' d'' : Disk} {l : Loc}

/-- Nodes were removed, and nothing else. -/
structure Prunes (d d' : Disk) : Prop where
  wf : d.WF → d'.WF
  node : ∀ l, d'.node l = d.node l ∨ d'.node l = none
  pathMax : d'.pathMax = d.pathMax

theorem Prunes.refl (d : Disk) : d.Prunes d := ⟨id, fun _ => .inl rfl, rfl⟩

theorem Prunes.trans (h : d.Prunes d') (h' : d'.Prunes d'') : d.Prunes d'' := by
  refine ⟨h'.wf ∘ h.wf, fun l => ?_, h'.pathMax.trans h.pathMax⟩
  rcases h'.node l with e | e
  · rw [e]
    exact h.node l
  · exact .inr e

theorem WF.prunes_remove (h : d.WF) (hl : l.path ≠ []) (hleaf : ∀ name, d.node ⟨l.area, name :: l.path⟩ = none) :
    d.Prunes (d.remove l) := by
  refine ⟨fun _ => h.remove hl hleaf, fun l' => ?_, rfl⟩
  rw [node_remove d hl]
  split
  · exact .inr rfl
  · exact .inl rfl

theorem Prunes.fits (h : d.Prunes d') (hl : d.Fits l) : d'.Fits l := by
  unfold Fits pathTooLong at hl ⊢
  rw [h.pathMax]
  exact hl

theorem Prunes.removable (h : d.Prunes d') (hl : d.Removable l) : d'.Removable l := by
  refine ⟨h.fits hl.fits, fun hdir => ?_, fun r hr hne data hfile => ?_⟩
  · rcases h.node l with e | e
    · exact hl.notDir (e.symm.trans hdir)
    · rw [e] at hdir
      cases hdir
  · rcases h.node ⟨l.area, r⟩ with e | e
    · exact hl.above r hr hne data (e.symm.trans hfile)
    · rw [e] at hfile
      cases hfile

end Disk

/-! ### Stocks -/

/-- The row without the time of its last change. -/
def ServiceRow.untimed (r : ServiceRow) : ServiceRow := { r with updatedAt := 0 }

/-- What a deletion is about. -/
@[ext] structure Stock where
  entries : List Entry
  decisions : List Decision
  writerPrefixes : List WriterPrefix
  rows : List ServiceRow
  file : Loc → Option ByteArray

namespace Stock

def dropDecisions (scope : Decision → Bool) (k : Stock) : Stock :=
  { k with decisions := k.decisions.filter fun r => !scope r }

def dropPrefixes (scope : WriterPrefix → Bool) (k : Stock) : Stock :=
  { k with writerPrefixes := k.writerPrefixes.filter fun r => !scope r }

def dropEntries (user : String) (rows : List Entry) (k : Stock) : Stock :=
  { k with entries := k.entries.filter fun e => !rows.any fun row => e.isSource user row.writerId row.sourceKey }

def mapRows (f : ServiceRow → ServiceRow) (k : Stock) : Stock := { k with rows := k.rows.map f }

def erase (ls : List Loc) (k : Stock) : Stock := { k with file := fun l => if l ∈ ls then none else k.file l }

@[simp] theorem erase_nil (k : Stock) : k.erase [] = k := by
  unfold erase
  simp

@[simp] theorem erase_erase (ls ls' : List Loc) (k : Stock) : (k.erase ls).erase ls' = k.erase (ls ++ ls') := by
  unfold erase
  ext1
  all_goals try rfl
  funext l
  by_cases h : l ∈ ls' <;> simp [h]

end Stock

namespace Service

/-! ### Effects -/

def stock (s : Service) : Stock :=
  ⟨s.world.catalog.entries, s.world.catalog.decisions, s.world.catalog.writerPrefixes, s.rows.map ServiceRow.untimed,
    s.world.fs.disk.file⟩

/-- The stock has changed from `s` to `s'` by `f`; the process is not to die later unless it was before. -/
structure Effect (f : Stock → Stock) (s s' : Service) : Prop where
  stock : s'.stock = f s.stock
  prunes : s.world.fs.disk.Prunes s'.world.fs.disk
  crash : s.crash = none → s'.crash = none

variable {s s' s'' : Service} {f g : Stock → Stock}

theorem Effect.refl (s : Service) : Effect id s s := ⟨rfl, .refl _, id⟩

theorem Effect.trans (h : Effect f s s') (h' : Effect g s' s'') : Effect (g ∘ f) s s'' :=
  ⟨by rw [h'.stock, h.stock]; rfl, h.prunes.trans h'.prunes, h'.crash ∘ h.crash⟩

private theorem Effect.ticked (s : Service) : Effect id s s.ticked := ⟨rfl, .refl _, id⟩

private theorem Effect.drawn (s : Service) : Effect id s { s with drawn := s.drawn + 1 } := ⟨rfl, .refl _, id⟩

private theorem Effect.crashed (s : Service) {c : Option Nat} (hc : s.crash = none → c = none) :
    Effect id s { s with crash := c } := ⟨rfl, .refl _, hc⟩

/-- The process dies here only if it is to die. -/
def Dies (s : Service) (h : ServiceHalt) : Prop := h = .crashed ∧ s.crash ≠ none

private theorem Effect.dies (h : Effect f s s') {halt : ServiceHalt} (hd : s'.Dies halt) : s.Dies halt :=
  ⟨hd.1, fun hc => hd.2 (h.crash hc)⟩

/-- A step is taken, or the process dies before it. -/
theorem ends_step {u : Service → Service} {Q : PUnit → Service → Prop} {E : ServiceHalt → Service → Prop}
    (hdies : s.Dies .crashed → E .crashed s)
    (hstep : ∀ c, (s.crash = none → c = none) → Q ⟨⟩ (u { s with crash := c })) : Ends (step u) Q E s := by
  unfold step
  rw [ends_bind, ends_get]
  cases hcrash : s.crash with
  | none =>
    dsimp only
    rw [ends_set]
    have hs : ({ s with crash := none } : Service) = s := by rw [← hcrash]
    have h := hstep none fun _ => rfl
    rwa [hs] at h
  | some n =>
    cases n with
    | zero =>
      dsimp only
      rw [ends_throw]
      exact hdies ⟨rfl, by rw [hcrash]; simp⟩
    | succ n =>
      dsimp only
      rw [ends_set]
      exact hstep (some n) fun h => by rw [hcrash] at h; cases h

/-- A step whose effect is known. -/
private theorem effect_step {u : Service → Service} (hu : ∀ s, Effect f s (u s)) (s : Service) :
    Ends (step u) (fun _ s' => Effect f s s') (fun h s' => s.Dies h ∧ Effect id s s') s := by
  refine ends_step (fun hd => ⟨hd, .refl s⟩) fun c hc => ?_
  exact (Effect.crashed s hc).trans (hu _)

/-! ### Statements -/

private theorem effect_deleteDecisions (scope : Decision → Bool) (s : Service) :
    Effect (.dropDecisions scope) s (setCatalog (deleteDecisions scope) s) := ⟨rfl, .refl _, id⟩

theorem deleteDecisionsIn_spec (scope : Decision → Bool) (s : Service) :
    Ends (deleteDecisionsIn scope) (fun _ s' => Effect (.dropDecisions scope) s s' ∧ s'.rows = s.rows)
      (fun h s' => s.Dies h ∧ Effect id s s') s := by
  unfold deleteDecisionsIn
  rw [ends_bind, ends_get, ends_bind]
  refine ends_step (fun hd => ⟨hd, .refl s⟩) fun c hc => ?_
  exact ⟨(Effect.crashed s hc).trans (effect_deleteDecisions scope _), rfl⟩

theorem recordDeletion_spec (result : DeletionResult) (s : Service) :
    Ends (recordDeletion result) (fun _ s' => Effect id s s') (fun h s' => s.Dies h ∧ Effect id s s') s := by
  unfold recordDeletion
  rw [ends_bind, ends_draw, ends_bind, ends_time]
  have hbefore := (Effect.drawn s).trans (Effect.ticked { s with drawn := s.drawn + 1 })
  refine ends_step (fun hd => ⟨hbefore.dies hd, hbefore⟩) fun c hc => ?_
  exact ⟨rfl, .refl _, hc⟩

/-! ### Files -/

/-- A file could not be removed. -/
def Stuck (ls : List Loc) (s : Service) (h : ServiceHalt) : Prop :=
  (∃ e, h = .raised (.osError e)) ∧ ∃ l ∈ ls, ¬s.world.fs.disk.Removable l

/-- The process dies, or a file among these cannot be removed. -/
def Interrupted (ls : List Loc) (s : Service) (h : ServiceHalt) : Prop := s.Dies h ∨ s.Stuck ls h

private theorem Effect.interrupted (h : Effect f s s') {ls ls' : List Loc} (hls : ls ⊆ ls') {halt : ServiceHalt}
    (hi : s'.Interrupted ls halt) : s.Interrupted ls' halt := by
  rcases hi with hd | ⟨herror, l, hl, hstuck⟩
  · exact .inl (h.dies hd)
  · exact .inr ⟨herror, l, hls hl, fun hr => hstuck (h.prunes.removable hr)⟩

private theorem effect_setDisk {d : Disk} {ls : List Loc} (hprunes : s.world.fs.disk.Prunes d)
    (hfile : ∀ l, d.file l = if l ∈ ls then none else s.world.fs.disk.file l) (c : Option Nat)
    (hc : s.crash = none → c = none) : Effect (.erase ls) s (setDisk d { s with crash := c }) := by
  refine ⟨?_, hprunes, hc⟩
  unfold stock setDisk Stock.erase
  ext1
  all_goals try rfl
  funext l
  exact hfile l

theorem unlinkMissingOk_spec (l : Loc) (hwf : s.world.fs.disk.WF) :
    Ends (unlinkMissingOk l) (fun _ s' => Effect (.erase [l]) s s')
      (fun h s' => s.Interrupted [l] h ∧ Effect id s s') s := by
  unfold unlinkMissingOk
  rw [ends_bind, ends_get]
  cases hunlink : s.world.fs.disk.unlink l with
  | ok d =>
    obtain ⟨data, hdata, rfl⟩ := hwf.unlink_ok hunlink
    have hl : l.path ≠ [] := Disk.path_ne_nil_of_file (Disk.file_eq_some_iff.2 hdata)
    refine ends_step (fun hd => ⟨.inl hd, .refl s⟩) fun c hc => ?_
    refine effect_setDisk (hwf.prunes_remove hl (hwf.file_leaf hdata)) (fun l' => ?_) c hc
    rw [Disk.file_remove hl, Function.update_apply]
    simp
  | error e =>
    by_cases he : e = .ENOENT
    · subst he
      refine ends_step (fun hd => ⟨.inl hd, .refl s⟩) fun c hc => ?_
      have hsame : ({ s with crash := c } : Service) = setDisk s.world.fs.disk { s with crash := c } := rfl
      show Effect _ s { s with crash := c }
      rw [hsame]
      refine effect_setDisk (.refl _) (fun l' => ?_) c hc
      split
      · rename_i hmem
        rw [List.mem_singleton.1 hmem]
        exact hwf.file_of_unlink_noent hunlink
      · rfl
    · have hthrow : Ends (throw (.raised (.osError e)) : ServiceM Unit) (fun _ s' => Effect (.erase [l]) s s')
          (fun h s' => s.Interrupted [l] h ∧ Effect id s s') s := by
        rw [ends_throw]
        refine ⟨.inr ⟨⟨e, rfl⟩, l, List.mem_singleton.2 rfl, fun hr => he (hr.unlink hwf hunlink)⟩, .refl s⟩
      cases e <;> first | exact absurd rfl he | exact hthrow

/-- An empty directory is removed. -/
theorem effect_rmdir {l : Loc} (hwf : s.world.fs.disk.WF) (hl : l.path ≠ []) (hdir : s.world.fs.disk.node l = some .dir)
    (hleaf : ∀ name, s.world.fs.disk.node ⟨l.area, name :: l.path⟩ = none) (c : Option Nat)
    (hc : s.crash = none → c = none) : Effect id s (setDisk (s.world.fs.disk.remove l) { s with crash := c }) := by
  rw [show id = Stock.erase [] from (funext Stock.erase_nil).symm]
  refine effect_setDisk (hwf.prunes_remove hl hleaf) (fun l' => ?_) c hc
  rw [Disk.file_remove hl, Function.update_apply]
  split
  · rename_i heq
    rw [heq, Disk.file_of_node_dir hdir]
    rfl
  · rfl

private theorem removeEmptyUpwards_spec (a : Area) (p : TreePath) (hwf : s.world.fs.disk.WF) :
    Ends (removeEmptyUpwards a p) (fun _ s' => Effect id s s') (fun h s' => s.Dies h ∧ Effect id s s') s := by
  induction p generalizing s with
  | nil => exact .refl s
  | cons name rest ih =>
    unfold removeEmptyUpwards
    rw [ends_bind, ends_get]
    cases hrmdir : s.world.fs.disk.rmdir ⟨a, name :: rest⟩ with
    | error e => exact .refl s
    | ok d =>
      obtain ⟨hl, hdir, hleaf, rfl⟩ := hwf.rmdir_ok hrmdir
      dsimp only
      rw [ends_bind]
      refine ends_step (fun hd => ⟨hd, .refl s⟩) fun c hc => ?_
      have hstep := effect_rmdir hwf hl hdir hleaf c hc
      refine (ih (hstep.prunes.wf hwf)).mono ?_ ?_
      · intro _ s' h
        exact hstep.trans h
      · intro _ s' h
        exact ⟨hstep.dies h.1, hstep.trans h.2⟩

/-- The files of a document. -/
def filesOf (user : String) (row : Entry) : List Loc := [treeLoc user row.path, objectLoc user row.objectId]

private theorem deleteFiles_spec (user : String) (row : Entry) (hwf : s.world.fs.disk.WF) :
    Ends (deleteFiles user row) (fun _ s' => Effect (.erase (filesOf user row)) s s')
      (fun h s' => s.Interrupted (filesOf user row) h ∧ ∃ ls ⊆ filesOf user row, Effect (.erase ls) s s') s := by
  have htree : [treeLoc user row.path] ⊆ filesOf user row := by simp [filesOf]
  have hobject : [objectLoc user row.objectId] ⊆ filesOf user row := by simp [filesOf]
  have hnone : Stock.erase [] = id := funext Stock.erase_nil
  unfold deleteFiles
  rw [ends_bind]
  refine (unlinkMissingOk_spec _ hwf).mono (fun _ s1 h1 => ?_) (fun h s1 h1 => ?_)
  · rw [ends_bind]
    refine (removeEmptyUpwards_spec _ _ (h1.prunes.wf hwf)).mono (fun _ s2 h2 => ?_) (fun h s2 h2 => ?_)
    · have h12 := h1.trans h2
      refine (unlinkMissingOk_spec _ (h12.prunes.wf hwf)).mono (fun _ s3 h3 => ?_) (fun h s3 h3 => ?_)
      · have h13 := h12.trans h3
        refine ⟨h13.stock.trans ?_, h13.prunes, h13.crash⟩
        exact Stock.erase_erase _ _ _
      · exact ⟨h12.interrupted hobject h3.1, _, htree, h12.trans h3.2⟩
    · exact ⟨.inl (h1.dies h2.1), _, htree, h1.trans h2.2⟩
  · refine ⟨(Effect.refl s).interrupted htree h1.1, [], List.nil_subset _, ?_⟩
    rw [hnone]
    exact h1.2

/-- The files of documents. -/
def filesOfAll (user : String) (rows : List Entry) : List Loc := rows.flatMap (filesOf user)

private theorem deleteFiles_forM_spec (user : String) (rows : List Entry) (hwf : s.world.fs.disk.WF) :
    Ends (rows.forM (deleteFiles user)) (fun _ s' => Effect (.erase (filesOfAll user rows)) s s')
      (fun h s' => s.Interrupted (filesOfAll user rows) h ∧ ∃ ls ⊆ filesOfAll user rows, Effect (.erase ls) s s')
        s := by
  have hnone : Stock.erase [] = id := funext Stock.erase_nil
  induction rows generalizing s with
  | nil =>
    have h := Effect.refl s
    rw [← hnone] at h
    exact h
  | cons row rest ih =>
    have hall : filesOfAll user (row :: rest) = filesOf user row ++ filesOfAll user rest := List.flatMap_cons
    rw [hall]
    show Ends (deleteFiles user row >>= fun _ => rest.forM (deleteFiles user)) _ _ s
    rw [ends_bind]
    refine (deleteFiles_spec user row hwf).mono (fun _ s1 h1 => ?_) (fun h s1 h1 => ?_)
    · refine (ih (h1.prunes.wf hwf)).mono (fun _ s2 h2 => ?_) (fun h s2 h2 => ?_)
      · have h12 := h1.trans h2
        exact ⟨h12.stock.trans (Stock.erase_erase _ _ _), h12.prunes, h12.crash⟩
      · obtain ⟨hi, ls, hls, h2⟩ := h2
        have h12 := h1.trans h2
        refine ⟨h1.interrupted (List.subset_append_right _ _) hi, filesOf user row ++ ls, ?_,
          ⟨h12.stock.trans (Stock.erase_erase _ _ _), h12.prunes, h12.crash⟩⟩
        exact List.append_subset.2 ⟨List.subset_append_left _ _, List.Subset.trans hls (List.subset_append_right _ _)⟩
    · obtain ⟨hi, ls, hls, h1⟩ := h1
      exact ⟨(Effect.refl s).interrupted (List.subset_append_left _ _) hi, ls,
        List.Subset.trans hls (List.subset_append_left _ _), h1⟩

private theorem deleteRows_eq (user : String) (rows : List Entry) (c : Catalog) :
    deleteRows user rows c =
      { c with
        entries := c.entries.filter fun e =>
          !rows.any fun row => e.isSource user row.writerId row.sourceKey } := by
  unfold deleteRows
  induction rows generalizing c with
  | nil => simp
  | cons row rest ih =>
    rw [List.foldl_cons, ih]
    unfold Catalog.deleteEntry
    simp only [List.filter_filter, List.any_cons]
    congr 2
    funext e
    rw [Bool.not_or, Bool.and_comm]

private theorem deleteEntryRowsAndFiles_spec (user : String) (rows : List Entry) (hwf : s.world.fs.disk.WF) :
    Ends (deleteEntryRowsAndFiles user rows)
      (fun _ s' => Effect (.dropEntries user rows ∘ .erase (filesOfAll user rows)) s s')
      (fun h s' => s.Interrupted (filesOfAll user rows) h ∧ ∃ ls ⊆ filesOfAll user rows, Effect (.erase ls) s s')
        s := by
  unfold deleteEntryRowsAndFiles
  rw [ends_bind]
  refine (deleteFiles_forM_spec user rows hwf).mono (fun _ s1 h1 => ?_) (fun _ _ h => h)
  have hdrop : ∀ s, Effect (.dropEntries user rows) s (setCatalog (deleteRows user rows) s) := by
    intro s
    refine ⟨?_, .refl _, id⟩
    unfold setCatalog
    rw [deleteRows_eq]
    rfl
  refine (effect_step hdrop s1).mono (fun _ s2 h2 => ?_) (fun h s2 h2 => ?_)
  · exact h1.trans h2
  · exact ⟨.inl (h1.dies h2.1), _, List.Subset.refl _, h1.trans h2.2⟩

/-! ### Queued submissions -/

/-- The row after the operations that a deletion of the prefix drops are gone. -/
def keptRow (pre : String) (sourceKeys : List String) (r : ServiceRow) : ServiceRow :=
  match keptOperations pre sourceKeys r.operations with
  | .error _ => r
  | .ok kept =>
    if kept.length = r.operations.length then r
    else if kept = [] then { r with state := .discarded, error := some .discarded }
    else { r with operationCount := kept.length, operations := kept, error := some .partiallyDiscarded }

def discardedRow (r : ServiceRow) : ServiceRow := { r with state := .discarded, error := some .discarded }

/-- The change of the rows with these ids. -/
def onIds (ids : List String) (f : ServiceRow → ServiceRow) (r : ServiceRow) : ServiceRow :=
  if r.submissionId ∈ ids then f r else r

def queuedFor (user writer : String) (r : ServiceRow) : Bool := r.userId = user && r.writerId = writer && isQueued r

/-- The change of the queued rows of a writer. -/
def onQueued (user writer : String) (f : ServiceRow → ServiceRow) (r : ServiceRow) : ServiceRow :=
  if queuedFor user writer r then f r else r

theorem keptRow_submissionId (pre : String) (sourceKeys : List String) (r : ServiceRow) :
    (keptRow pre sourceKeys r).submissionId = r.submissionId := by
  unfold keptRow
  split
  · rfl
  · split
    · rfl
    · split <;> rfl

theorem onIds_submissionId {ids : List String} {f : ServiceRow → ServiceRow}
    (hf : ∀ r, (f r).submissionId = r.submissionId) (r : ServiceRow) : (onIds ids f r).submissionId =
      r.submissionId := by
  unfold onIds
  split
  · exact hf r
  · rfl

private theorem onIds_cons {submissionId : String} {ids : List String} {f : ServiceRow → ServiceRow}
    (hf : ∀ r, (f r).submissionId = r.submissionId) (hid : submissionId ∉ ids) (r : ServiceRow) :
    onIds ids f (onIds [submissionId] f r) = onIds (submissionId :: ids) f r := by
  unfold onIds
  by_cases h : r.submissionId = submissionId
  · have hnot : (f r).submissionId ∉ ids := by rwa [hf, h]
    simp [h, hnot]
  · simp [h]

/-- The ids of the rows of a stock name them. -/
def Keyed (k : Stock) : Prop := (k.rows.map (·.submissionId)).Nodup

private theorem Keyed.mapRows {k : Stock} (h : Keyed k) {f : ServiceRow → ServiceRow}
    (hf : ∀ r, (f r).submissionId = r.submissionId) : Keyed (k.mapRows f) := by
  have hids : (k.rows.map f).map (·.submissionId) = k.rows.map (·.submissionId) := by
    rw [List.map_map]
    exact List.map_congr_left fun r _ => hf r
  unfold Keyed Stock.mapRows
  rw [hids]
  exact h

private theorem Keyed.eq {k : Stock} (h : Keyed k) {r r' : ServiceRow} (hr : r ∈ k.rows) (hr' : r' ∈ k.rows)
    (hid : r.submissionId = r'.submissionId) : r = r' :=
  List.inj_on_of_nodup_map h hr hr' hid

private theorem mapRows_congr {k : Stock} {f g : ServiceRow → ServiceRow} (h : ∀ r ∈ k.rows, f r = g r) :
    k.mapRows f = k.mapRows g := by
  unfold Stock.mapRows
  rw [List.map_congr_left h]

private theorem mapRows_onIds_nil (f : ServiceRow → ServiceRow) : Stock.mapRows (onIds [] f) = id := by
  funext k
  have h : onIds [] f = id := by
    funext r
    simp [onIds]
  unfold Stock.mapRows
  rw [h, List.map_id]
  rfl

private theorem mapRows_onIds_cons {submissionId : String} {ids : List String} {f : ServiceRow → ServiceRow}
    (hf : ∀ r, (f r).submissionId = r.submissionId) (hid : submissionId ∉ ids) :
    Stock.mapRows (onIds ids f) ∘ Stock.mapRows (onIds [submissionId] f) =
      Stock.mapRows (onIds (submissionId :: ids) f) := by
  funext k
  unfold Stock.mapRows
  simp only [Function.comp_apply, List.map_map]
  congr 2
  funext r
  exact onIds_cons hf hid r

/-- One row is changed by a step that may also set its time. -/
private theorem stepRow_spec {submissionId : String} {f g : ServiceRow → ServiceRow} {s : Service}
    (h : ∀ r ∈ s.rows, r.submissionId = submissionId → (g r).untimed = f r.untimed) :
    Ends (stepRow submissionId g) (fun _ s' => Effect (.mapRows (onIds [submissionId] f)) s s')
      (fun h s' => s.Dies h ∧ Effect id s s' ∧ s'.rows = s.rows) s := by
  unfold stepRow
  refine ends_step (fun hd => ⟨hd, .refl s, rfl⟩) fun c hc => ⟨?_, .refl _, hc⟩
  unfold stock Stock.mapRows
  ext1
  all_goals try rfl
  show (s.rows.map fun r => if r.submissionId = submissionId then g r else r).map _ = (s.rows.map _).map _
  rw [List.map_map, List.map_map]
  refine List.map_congr_left fun r hr => ?_
  unfold onIds
  by_cases hid : r.submissionId = submissionId
  · have hid' : r.untimed.submissionId = submissionId := hid
    simp [hid, hid', h r hr hid]
  · have hid' : r.untimed.submissionId ≠ submissionId := hid
    simp [hid, hid']

/-- The same after the clock has been read. -/
private theorem ends_ticked {m : ServiceM Unit} {f : Stock → Stock}
    (h : Ends m (fun _ s' => Effect f s.ticked s')
      (fun h s' => s.ticked.Dies h ∧ Effect id s.ticked s' ∧ s'.rows = s.ticked.rows) s.ticked) :
    Ends m (fun _ s' => Effect f s s') (fun h s' => s.Dies h ∧ Effect id s s' ∧ s'.rows = s.rows) s.ticked :=
  h.mono (fun _ _ h => (Effect.ticked s).trans h) fun _ _ h =>
    ⟨(Effect.ticked s).dies h.1, (Effect.ticked s).trans h.2.1, h.2.2⟩

private theorem discardSubmission_spec (submissionId : String) (s : Service) :
    Ends (discardSubmission submissionId) (fun _ s' => Effect (.mapRows (onIds [submissionId] discardedRow)) s s')
      (fun h s' => s.Dies h ∧ Effect id s s' ∧ s'.rows = s.rows) s := by
  unfold discardSubmission
  rw [ends_bind, ends_time]
  exact ends_ticked (stepRow_spec fun _ _ _ => rfl)

/-- What becomes of one row of the queue. -/
private theorem dropOperations_spec {pre : String} {sourceKeys : List String} {row : ServiceRow} {kept : List Operation}
    (hkept : keptOperations pre sourceKeys row.operations = .ok kept) (hne : kept.length ≠ row.operations.length)
    (hkeyed : Keyed s.stock) (hrow : row.untimed ∈ s.stock.rows) :
    Ends (if kept = [] then discardSubmission row.submissionId else replaceOperations row.submissionId kept)
      (fun _ s' => Effect (.mapRows (onIds [row.submissionId] (keptRow pre sourceKeys))) s s')
      (fun h s' => s.Dies h ∧ Effect id s s' ∧ s'.rows = s.rows) s := by
  have hsame : ∀ r ∈ s.rows, r.submissionId = row.submissionId → r.untimed = row.untimed := fun r hr hid =>
    hkeyed.eq (List.mem_map_of_mem hr) hrow hid
  have hkeptRow : ∀ r ∈ s.rows, r.submissionId = row.submissionId → keptRow pre sourceKeys r.untimed =
      if kept = [] then { r.untimed with state := .discarded, error := some .discarded }
      else { r.untimed with
        operationCount := kept.length, operations := kept, error := some .partiallyDiscarded } := by
    intro r hr hid
    have hoperations : r.untimed.operations = row.untimed.operations := by rw [hsame r hr hid]
    have hkept' : keptOperations pre sourceKeys r.untimed.operations = .ok kept := by
      rw [hoperations]
      exact hkept
    unfold keptRow
    rw [hkept']
    dsimp only
    rw [if_neg fun h => hne (h.trans (congrArg List.length hoperations))]
  by_cases hempty : kept = []
  · rw [if_pos hempty]
    unfold discardSubmission
    rw [ends_bind, ends_time]
    refine ends_ticked (stepRow_spec fun r hr hid => ?_)
    rw [hkeptRow r hr hid, if_pos hempty]
    rfl
  · rw [if_neg hempty]
    unfold replaceOperations
    rw [ends_bind, ends_time]
    refine ends_ticked (stepRow_spec fun r hr hid => ?_)
    rw [hkeptRow r hr hid, if_neg hempty]
    rfl

/-- The row keeps all its operations. -/
def KeepsAll (pre : String) (sourceKeys : List String) (r : ServiceRow) : Prop :=
  ∀ kept, keptOperations pre sourceKeys r.operations = .ok kept → kept.length = r.operations.length

/-- The rows have lost the operations that are dropped, and none of those has an invalid path. -/
structure Dropped (pre : String) (sourceKeys : List String) (rows : List ServiceRow) (s s' : Service) : Prop where
  effect : Effect (.mapRows (onIds (rows.map (·.submissionId)) (keptRow pre sourceKeys))) s s'
  kept : ∀ r ∈ rows, ∃ kept, keptOperations pre sourceKeys r.operations = .ok kept
  /-- When there is nothing to drop, the table is not touched. -/
  untouched : (∀ r ∈ rows, KeepsAll pre sourceKeys r) → s'.rows = s.rows

/-- The loop has ended after some of the rows: the process dies, or the next row has an invalid path. -/
def CutShort (pre : String) (sourceKeys : List String) (rows : List ServiceRow) (s : Service) (h : ServiceHalt)
    (s' : Service) : Prop :=
  ∃ done rest, rows = done ++ rest ∧ Dropped pre sourceKeys done s s' ∧
    (s.Dies h ∨ ∃ row rest' e, rest = row :: rest' ∧ keptOperations pre sourceKeys row.operations = .error e ∧
      h = .raised e)

private theorem Dropped.nil (pre : String) (sourceKeys : List String) (s : Service) :
    Dropped pre sourceKeys [] s s := by
  refine ⟨?_, fun r hr => absurd hr List.not_mem_nil, fun _ => rfl⟩
  rw [List.map_nil, mapRows_onIds_nil]
  exact .refl s

private theorem Dropped.cons {pre : String} {sourceKeys : List String} {row : ServiceRow} {rows : List ServiceRow}
    (h : Dropped pre sourceKeys [row] s s') (h' : Dropped pre sourceKeys rows s' s'')
    (hid : row.submissionId ∉ rows.map (·.submissionId)) : Dropped pre sourceKeys (row :: rows) s s'' := by
  refine ⟨?_, List.forall_mem_cons.2 ⟨h.kept row (List.mem_singleton.2 rfl), h'.kept⟩, fun hkeeps => ?_⟩
  swap
  · rw [h'.untouched fun r hr => hkeeps r (List.mem_cons_of_mem _ hr)]
    refine h.untouched fun r hr => ?_
    rw [List.mem_singleton.1 hr]
    exact hkeeps row (List.mem_cons_self ..)
  have heffect := h.effect.trans h'.effect
  rw [List.map_singleton, mapRows_onIds_cons (keptRow_submissionId pre sourceKeys) hid] at heffect
  exact heffect

private theorem CutShort.cons {pre : String} {sourceKeys : List String} {row : ServiceRow} {rows : List ServiceRow}
    {halt : ServiceHalt} (h : Dropped pre sourceKeys [row] s s') (h' : CutShort pre sourceKeys rows s' halt s'')
    (hid : row.submissionId ∉ rows.map (·.submissionId)) : CutShort pre sourceKeys (row :: rows) s halt s'' := by
  obtain ⟨done, rest, rfl, hdropped, hhalt⟩ := h'
  have hid' : row.submissionId ∉ done.map (·.submissionId) := fun hmem =>
    hid (by rw [List.map_append]; exact List.mem_append_left _ hmem)
  exact ⟨row :: done, rest, rfl, h.cons hdropped hid', hhalt.imp_left h.effect.dies⟩

/-- The loop drops the operations of one row after another; it is cut short at a row with an invalid path. -/
theorem discardForPrefix_spec (pre : String) (sourceKeys : List String) (rows : List ServiceRow) {s : Service}
    (hkeyed : Keyed s.stock) (hrows : ∀ r ∈ rows, r.untimed ∈ s.stock.rows)
    (hnodup : (rows.map (·.submissionId)).Nodup) :
    Ends (discardForPrefix pre sourceKeys rows) (fun _ s' => Dropped pre sourceKeys rows s s')
      (CutShort pre sourceKeys rows s) s := by
  induction rows generalizing s with
  | nil => exact .nil pre sourceKeys s
  | cons row rest ih =>
    rw [List.map_cons, List.nodup_cons] at hnodup
    obtain ⟨hrow, hrest⟩ := List.forall_mem_cons.1 hrows
    unfold discardForPrefix
    rw [ends_bind, ends_orHalt]
    constructor
    · intro kept hkept
      -- Whatever becomes of the row, the loop goes on in a table in which only this row has changed.
      have hgo : ∀ s1, Dropped pre sourceKeys [row] s s1 → Ends (discardForPrefix pre sourceKeys rest)
          (fun _ s' => Dropped pre sourceKeys (row :: rest) s s') (CutShort pre sourceKeys (row :: rest) s) s1 := by
        intro s1 h1
        have hkeyed1 : Keyed s1.stock := by
          rw [h1.effect.stock]
          exact hkeyed.mapRows (onIds_submissionId (keptRow_submissionId pre sourceKeys))
        refine (ih hkeyed1 (fun r hr => ?_) hnodup.2).mono (fun _ s' h => h1.cons h hnodup.1) fun _ s' h =>
          CutShort.cons h1 h hnodup.1
        rw [h1.effect.stock]
        refine List.mem_map.2 ⟨r.untimed, hrest r hr, ?_⟩
        have hne : r.submissionId ≠ row.submissionId := fun hid => hnodup.1 (hid ▸ List.mem_map_of_mem hr)
        have hne' : r.untimed.submissionId ∉ [row].map (·.submissionId) := fun hmem => hne (List.mem_singleton.1 hmem)
        exact if_neg hne'
      have hone : ∀ r ∈ [row], ∃ kept, keptOperations pre sourceKeys r.operations = .ok kept := by
        intro r hr
        rw [List.mem_singleton.1 hr]
        exact ⟨kept, hkept⟩
      refine Ends.ite (fun hlength => hgo s ⟨?_, hone, fun _ => rfl⟩) (fun hlength => ?_)
      · refine ⟨?_, .refl _, id⟩
        have hself : ∀ r ∈ s.stock.rows, onIds ([row].map (·.submissionId)) (keptRow pre sourceKeys) r = r := by
          intro r hr
          unfold onIds
          split
          · rename_i hid
            rw [hkeyed.eq hr hrow (List.mem_singleton.1 hid)]
            unfold keptRow
            have hkept' : keptOperations pre sourceKeys row.untimed.operations = .ok kept := hkept
            rw [hkept']
            exact if_pos hlength
          · rfl
        rw [mapRows_congr hself]
        unfold Stock.mapRows
        rw [List.map_id']
      · have hdrop := dropOperations_spec hkept hlength hkeyed hrow
        have hchanged : ∀ s1 : Service, (∀ r ∈ [row], KeepsAll pre sourceKeys r) → s1.rows = s.rows := fun s1 hkeeps =>
          absurd (hkeeps row (List.mem_singleton.2 rfl) kept hkept) hlength
        have hthen : ∀ m : ServiceM Unit,
            Ends m (fun _ s' => Effect (.mapRows (onIds [row.submissionId] (keptRow pre sourceKeys))) s s')
              (fun h s' => s.Dies h ∧ Effect id s s' ∧ s'.rows = s.rows) s →
            Ends (m >>= fun _ => do return (← discardForPrefix pre sourceKeys rest) + 1)
              (fun _ s' => Dropped pre sourceKeys (row :: rest) s s') (CutShort pre sourceKeys (row :: rest) s) s := by
          intro m hm
          rw [ends_bind]
          refine hm.mono (fun _ s1 h1 => ?_) (fun h s1 h1 => ?_)
          · rw [ends_bind]
            refine (hgo s1 ⟨h1, hone, hchanged s1⟩).mono (fun _ s' h => ?_) fun _ _ h => h
            rw [ends_pure]
            exact h
          · refine ⟨[], row :: rest, rfl, ⟨?_, fun r hr => absurd hr List.not_mem_nil, fun _ => h1.2.2⟩, .inl h1.1⟩
            rw [List.map_nil, mapRows_onIds_nil]
            exact h1.2.1
        refine Ends.ite (fun hempty => ?_) (fun hempty => ?_)
        · rw [if_pos hempty] at hdrop
          exact hthen _ hdrop
        · rw [if_neg hempty] at hdrop
          exact hthen _ hdrop
    · intro e he
      exact ⟨[], row :: rest, rfl, .nil pre sourceKeys s, .inr ⟨row, rest, e, rfl, he, rfl⟩⟩

/-- The loop of `_discard_queued_submissions_for_writer`. -/
private theorem discard_forM_spec (rows : List ServiceRow) (s : Service) (hnodup : (rows.map (·.submissionId)).Nodup) :
    Ends (rows.forM fun row => discardSubmission row.submissionId)
      (fun _ s' => Effect (.mapRows (onIds (rows.map (·.submissionId)) discardedRow)) s s')
      (fun h s' => s.Dies h ∧ ∃ ids ⊆ rows.map (·.submissionId), Effect (.mapRows (onIds ids discardedRow)) s s')
        s := by
  induction rows generalizing s with
  | nil =>
    rw [List.map_nil, mapRows_onIds_nil]
    exact Effect.refl s
  | cons row rest ih =>
    rw [List.map_cons, List.nodup_cons] at hnodup
    have hcons : ∀ ids ⊆ rest.map (·.submissionId), row.submissionId ∉ ids := fun ids hids hmem => hnodup.1 (hids hmem)
    have htrans : ∀ {s1 s2 : Service} {ids : List String}, ids ⊆ rest.map (·.submissionId) →
        Effect (.mapRows (onIds [row.submissionId] discardedRow)) s s1 →
        Effect (.mapRows (onIds ids discardedRow)) s1 s2 →
        Effect (.mapRows (onIds (row.submissionId :: ids) discardedRow)) s s2 := by
      intro s1 s2 ids hids h1 h2
      have h := h1.trans h2
      rwa [mapRows_onIds_cons (f := discardedRow) (fun _ => rfl) (hcons ids hids)] at h
    show Ends (discardSubmission row.submissionId >>= fun _ => rest.forM fun row =>
      discardSubmission row.submissionId) _ _ s
    rw [ends_bind]
    refine (discardSubmission_spec row.submissionId s).mono (fun _ s1 h1 => ?_) (fun h s1 h1 => ?_)
    · refine (ih s1 hnodup.2).mono (fun _ s2 h2 => htrans (List.Subset.refl _) h1 h2) (fun h s2 h2 => ?_)
      obtain ⟨hdies, ids, hids, h2⟩ := h2
      exact ⟨h1.dies hdies, row.submissionId :: ids, List.cons_subset_cons _ hids, htrans hids h1 h2⟩
    · refine ⟨h1.1, [], List.nil_subset _, ?_⟩
      rw [mapRows_onIds_nil]
      exact h1.2.1

/-- The ids of the rows of a writer in the queue single them out. -/
theorem mem_queuedIds_iff {s : Service} {user writer : String} (hkeyed : Keyed s.stock) {r : ServiceRow}
    (hr : r ∈ s.stock.rows) :
    r.submissionId ∈ (queuedOf user writer s.rows).map (·.submissionId) ↔ queuedFor user writer r = true := by
  obtain ⟨r0, hr0, rfl⟩ := List.mem_map.1 hr
  constructor
  · intro hmem
    obtain ⟨r1, hr1, hid⟩ := List.mem_map.1 hmem
    obtain ⟨hr1, hqueued⟩ := List.mem_filter.1 hr1
    have heq : r1.untimed = r0.untimed := hkeyed.eq (List.mem_map_of_mem hr1) (List.mem_map_of_mem hr0) hid
    rw [← heq]
    exact hqueued
  · exact fun hqueued => List.mem_map.2 ⟨r0, List.mem_filter.2 ⟨hr0, hqueued⟩, rfl⟩

private theorem mapRows_onQueued (s : Service) (user writer : String) (f : ServiceRow → ServiceRow)
    (hkeyed : Keyed s.stock) :
    s.stock.mapRows (onIds ((queuedOf user writer s.rows).map (·.submissionId)) f) =
      s.stock.mapRows (onQueued user writer f) := by
  refine mapRows_congr fun r hr => ?_
  unfold onIds onQueued
  by_cases h : queuedFor user writer r = true
  · rw [if_pos ((mem_queuedIds_iff hkeyed hr).2 h), if_pos h]
  · rw [if_neg (mt (mem_queuedIds_iff hkeyed hr).1 h), if_neg h]

theorem queuedOf_nodup {s : Service} (user writer : String) (hkeyed : Keyed s.stock) :
    ((queuedOf user writer s.rows).map (·.submissionId)).Nodup := by
  have hids : s.stock.rows.map (·.submissionId) = s.rows.map (·.submissionId) := by
    show (s.rows.map _).map _ = _
    rw [List.map_map]
    rfl
  unfold Keyed at hkeyed
  rw [hids] at hkeyed
  exact hkeyed.sublist (List.filter_sublist.map _)

/-! ### The deletion of a prefix -/

/-- What the schema and the file system guarantee of a service. -/
structure Sound (s : Service) : Prop where
  disk : s.world.fs.disk.WF
  distinct : s.world.catalog.Distinct
  keyed : (s.rows.map (·.submissionId)).Nodup

theorem Sound.stock_keyed (h : s.Sound) : Keyed s.stock := by
  show ((s.rows.map _).map _).Nodup
  rw [List.map_map]
  exact h.keyed

/-- What the deletion of a prefix makes of a stock, when these are the rows under the prefix. -/
def prefixEffect (user writer pre : String) (rows : List Entry) : Stock → Stock :=
  .dropEntries user rows ∘ .erase (filesOfAll user rows) ∘
    .mapRows (onQueued user writer (keptRow pre (rows.map (·.sourceKey)))) ∘
      .dropDecisions (inDecisionScope user writer pre (rows.map (·.sourceKey)))

/-- The queued submissions of the writer have no invalid path. -/
def AllValid (user writer pre : String) (rows : List Entry) (s : Service) : Prop :=
  ∀ r ∈ queuedOf user writer s.rows, ∃ kept, keptOperations pre (rows.map (·.sourceKey)) r.operations = .ok kept

/-- The call is allowed, and these are the rows under the prefix. -/
structure Allowed (user writer pre : String) (rows : List Entry) (s : Service) : Prop where
  normal : Normalized pre
  authorized : s.world.catalog.requireAuthorizedPath user writer pre = .ok ()
  rows : entryRowsUnderPrefix s.world.catalog user writer pre = .ok rows

/-- How the deletion of a prefix ends when it does not return. -/
inductive PrefixHalt (user writer pre : String) (s : Service) : ServiceHalt → Service → Prop
  /-- The prefix is not valid or not the writer's. -/
  | refused {e : StoreError} (not : ∀ rows, ¬Allowed user writer pre rows s) :
    PrefixHalt user writer pre s (.raised e) s
  /-- A queued operation has an invalid path. -/
  | invalid {rows : List Entry} {done rest : List ServiceRow} {row : ServiceRow} {e : StoreError} {s' : Service}
      (allowed : Allowed user writer pre rows s) (queue : queuedOf user writer s.rows = done ++ row :: rest)
      (kept : ∀ r ∈ done, ∃ kept, keptOperations pre (rows.map (·.sourceKey)) r.operations = .ok kept)
      (error : keptOperations pre (rows.map (·.sourceKey)) row.operations = .error e)
      (effect : Effect (.mapRows (onIds (done.map (·.submissionId)) (keptRow pre (rows.map (·.sourceKey)))) ∘
        .dropDecisions (inDecisionScope user writer pre (rows.map (·.sourceKey)))) s s')
      (untouched : (∀ r ∈ done, KeepsAll pre (rows.map (·.sourceKey)) r) → s'.rows = s.rows) :
    PrefixHalt user writer pre s (.raised e) s'
  /-- Some steps have been taken. -/
  | partway {rows : List Entry} {h : ServiceHalt} {ids : List String} {ls : List Loc} {f : Stock → Stock} {s' : Service}
      (allowed : Allowed user writer pre rows s)
      (halt : s.Dies h ∨ AllValid user writer pre rows s ∧ s.Stuck (filesOfAll user rows) h)
      (ids_subset : ids ⊆ (queuedOf user writer s.rows).map (·.submissionId)) (ls_subset : ls ⊆ filesOfAll user rows)
      (decisions : f = id ∨ f = .dropDecisions (inDecisionScope user writer pre (rows.map (·.sourceKey))))
      (effect : Effect (.erase ls ∘ .mapRows (onIds ids (keptRow pre (rows.map (·.sourceKey)))) ∘ f) s s') :
    PrefixHalt user writer pre s h s'
  /-- Only the record of the deletion is missing. -/
  | unrecorded {rows : List Entry} {h : ServiceHalt} {s' : Service} (allowed : Allowed user writer pre rows s)
      (valid : AllValid user writer pre rows s) (halt : s.Dies h)
      (effect : Effect (prefixEffect user writer pre rows) s s') : PrefixHalt user writer pre s h s'

theorem deletePrefix_spec (user writer pre : String) (receipt : Option String) (hs : s.Sound) :
    Ends (deletePrefix user writer pre receipt)
      (fun _ s' => ∃ rows, Allowed user writer pre rows s ∧ AllValid user writer pre rows s ∧
        Effect (prefixEffect user writer pre rows) s s')
      (PrefixHalt user writer pre s) s := by
  unfold deletePrefix
  rw [ends_bind, ends_orHalt]
  constructor
  · intro normalized hnormalize
    obtain rfl := normalizePath_eq hnormalize
    rw [ends_bind, ends_get, ends_bind, ends_orHalt]
    constructor
    · intro _ hauthorized
      rw [ends_bind, ends_orHalt]
      constructor
      · intro rows hrows
        have hallowed : Allowed user writer normalized rows s := ⟨hnormalize, hauthorized, hrows⟩
        dsimp only
        rw [ends_bind]
        refine (deleteDecisionsIn_spec _ s).mono (fun decisionCount s1 h1 => ?_) (fun h s1 h1 => ?_)
        · obtain ⟨h1, hrows1⟩ := h1
          have hkeyed1 : Keyed s1.stock := by
            rw [h1.stock]
            exact hs.stock_keyed
          unfold discardQueuedSubmissionsForPrefix
          rw [ends_bind, ends_bind, ends_get]
          have hqueued : ∀ r ∈ queuedOf user writer s1.rows, r.untimed ∈ s1.stock.rows := fun r hr =>
            List.mem_map_of_mem (List.mem_filter.1 hr).1
          refine (discardForPrefix_spec _ _ _ hkeyed1 hqueued (queuedOf_nodup user writer hkeyed1)).mono
            (fun queuedCount s2 h2 => ?_) (fun h s2 h2 => ?_)
          · have hvalid : AllValid user writer normalized rows s := by
              intro r hr
              rw [← hrows1] at hr
              exact h2.kept r hr
            have h12 := h1.trans h2.effect
            rw [ends_bind]
            refine (deleteEntryRowsAndFiles_spec user rows (h12.prunes.wf hs.disk)).mono (fun _ s3 h3 => ?_)
              (fun h s3 h3 => ?_)
            · have h13 := h12.trans h3
              have heffect : Effect (prefixEffect user writer normalized rows) s s3 := by
                refine ⟨h13.stock.trans ?_, h13.prunes, h13.crash⟩
                have hmap := mapRows_onQueued s1 user writer (keptRow normalized (rows.map (·.sourceKey))) hkeyed1
                rw [h1.stock] at hmap
                unfold prefixEffect
                simp only [Function.comp_apply]
                rw [hmap]
              rw [ends_bind]
              refine (recordDeletion_spec _ s3).mono (fun _ s4 h4 => ?_) (fun h s4 h4 => ?_)
              · rw [ends_pure]
                exact ⟨rows, hallowed, hvalid, heffect.trans h4⟩
              · exact .unrecorded hallowed hvalid (heffect.dies h4.1) (heffect.trans h4.2)
            · obtain ⟨hhalt, ls, hls, h3⟩ := h3
              have hhalt := (h12.interrupted (List.Subset.refl _) hhalt).imp_right fun h => And.intro hvalid h
              refine .partway hallowed hhalt ?_ hls (.inr rfl) (h12.trans h3)
              rw [hrows1]
              exact List.Subset.refl _
          -- the process has died between two queued submissions, or one of them cannot be parsed
          · obtain ⟨done, rest, hsplit, hdropped, hhalt⟩ := h2
            rw [hrows1] at hsplit
            have h12 := h1.trans hdropped.effect
            rcases hhalt with hdies | ⟨row, rest', e, rfl, he, rfl⟩
            · have hids : done.map (·.submissionId) ⊆ (queuedOf user writer s.rows).map (·.submissionId) := by
                rw [hsplit, List.map_append]
                exact List.subset_append_left _ _
              refine .partway hallowed (.inl (h1.dies hdies)) hids (List.nil_subset _) (.inr rfl) ?_
              rw [show Stock.erase [] = id from funext Stock.erase_nil]
              exact h12
            · refine .invalid hallowed hsplit hdropped.kept he h12 fun hkeeps => ?_
              exact (hdropped.untouched hkeeps).trans hrows1
        -- the process has died before a queued submission was touched
        · refine .partway hallowed (.inl h1.1) (List.nil_subset _) (List.nil_subset _) (.inl rfl) ?_
          rw [mapRows_onIds_nil, show Stock.erase [] = id from funext Stock.erase_nil]
          exact h1.2
      · intro e he
        exact .refused (fun rows hallowed => by rw [hallowed.rows] at he; cases he)
    · intro e he
      exact .refused (fun rows hallowed => by rw [hallowed.authorized] at he; cases he)
  · intro e he
    exact .refused (fun rows hallowed => by rw [hallowed.normal] at he; cases he)

/-! ### The deletion of an integration -/

def ofWriter (user writer : String) (r : Decision) : Bool := r.userId = user && r.writerId = writer

/-- What the deletion of an integration makes of a stock, without and with the prefixes of the writer. -/
def writerEffect (user writer : String) (rows : List Entry) : Stock → Stock :=
  .dropEntries user rows ∘ .erase (filesOfAll user rows) ∘ .mapRows (onQueued user writer discardedRow) ∘
    .dropDecisions (ofWriter user writer)

def integrationEffect (user writer : String) (rows : List Entry) : Stock → Stock :=
  .dropPrefixes (isOfWriter user writer) ∘ writerEffect user writer rows

/-- How the deletion of an integration ends when it does not return. -/
inductive IntegrationHalt (user writer : String) (rows : List Entry) (s : Service) : ServiceHalt → Service → Prop
  /-- Some steps have been taken. -/
  | partway {h : ServiceHalt} {ids : List String} {ls : List Loc} {f : Stock → Stock} {s' : Service}
      (halt : s.Interrupted (filesOfAll user rows) h)
      (ids_subset : ids ⊆ (queuedOf user writer s.rows).map (·.submissionId)) (ls_subset : ls ⊆ filesOfAll user rows)
      (decisions : f = id ∨ f = .dropDecisions (ofWriter user writer))
      (effect : Effect (.erase ls ∘ .mapRows (onIds ids discardedRow) ∘ f) s s') :
    IntegrationHalt user writer rows s h s'
  /-- The entries are gone. -/
  | late {h : ServiceHalt} {f : Stock → Stock} {s' : Service} (halt : s.Dies h)
      (prefixes : f = id ∨ f = .dropPrefixes (isOfWriter user writer))
      (effect : Effect (f ∘ writerEffect user writer rows) s s') : IntegrationHalt user writer rows s h s'

private theorem effect_deletePrefixes (user writer : String) (s : Service) :
    Effect (.dropPrefixes (isOfWriter user writer)) s
      (setCatalog (fun c => { c with writerPrefixes := c.writerPrefixes.filter fun r => !isOfWriter user writer r })
        s) :=
  ⟨rfl, .refl _, id⟩

theorem deleteIntegration_spec (user writer : String) (receipt : Option String) (hs : s.Sound) :
    Ends (deleteIntegration user writer receipt)
      (fun _ s' => Effect (integrationEffect user writer (entryRowsForWriter s.world.catalog user writer)) s s')
      (IntegrationHalt user writer (entryRowsForWriter s.world.catalog user writer) s) s := by
  generalize hrows : entryRowsForWriter s.world.catalog user writer = rows
  have hempty : Stock.erase [] = id := funext Stock.erase_nil
  unfold deleteIntegration
  rw [ends_bind, ends_get, hrows]
  dsimp only
  rw [ends_bind]
  refine (deleteDecisionsIn_spec _ s).mono (fun decisionCount s1 h1 => ?_) (fun h s1 h1 => ?_)
  · obtain ⟨h1, hrows1⟩ := h1
    have hkeyed1 : Keyed s1.stock := by
      rw [h1.stock]
      exact hs.stock_keyed
    unfold discardQueuedSubmissionsForWriter
    rw [ends_bind, ends_bind, ends_get, ends_bind]
    refine (discard_forM_spec _ s1 (queuedOf_nodup user writer hkeyed1)).mono (fun _ s2 h2 => ?_) (fun h s2 h2 => ?_)
    · have h12 := h1.trans h2
      rw [ends_pure, ends_bind]
      refine (deleteEntryRowsAndFiles_spec user rows (h12.prunes.wf hs.disk)).mono (fun _ s3 h3 => ?_)
        (fun h s3 h3 => ?_)
      · have h13 := h12.trans h3
        have heffect : Effect (writerEffect user writer rows) s s3 := by
          refine ⟨h13.stock.trans ?_, h13.prunes, h13.crash⟩
          have hmap := mapRows_onQueued s1 user writer discardedRow hkeyed1
          rw [h1.stock] at hmap
          unfold writerEffect
          simp only [Function.comp_apply]
          exact congrArg _ (congrArg _ hmap)
        rw [ends_bind, ends_get, ends_bind]
        refine (effect_step (effect_deletePrefixes user writer) s3).mono (fun _ s4 h4 => ?_) (fun h s4 h4 => ?_)
        · have h14 := heffect.trans h4
          rw [ends_bind]
          refine (recordDeletion_spec _ s4).mono (fun _ s5 h5 => ?_) (fun h s5 h5 => ?_)
          · rw [ends_pure]
            exact h14.trans h5
          · exact .late (h14.dies h5.1) (.inr rfl) (h14.trans h5.2)
        · exact .late (heffect.dies h4.1) (.inl rfl) (heffect.trans h4.2)
      · obtain ⟨hhalt, ls, hls, h3⟩ := h3
        refine .partway (h12.interrupted (List.Subset.refl _) hhalt) ?_ hls (.inr rfl) (h12.trans h3)
        rw [hrows1]
        exact List.Subset.refl _
    · obtain ⟨hdies, ids, hids, h2⟩ := h2
      rw [hrows1] at hids
      refine .partway (.inl (h1.dies hdies)) hids (List.nil_subset _) (.inr rfl) ?_
      rw [hempty]
      exact h1.trans h2
  · refine .partway (.inl h1.1) (List.nil_subset _) (List.nil_subset _) (.inl rfl) ?_
    rw [mapRows_onIds_nil, hempty]
    exact h1.2

end Service

end Ctxd

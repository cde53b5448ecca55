import Ctxd.DeletionScope

/-!
# Deletions that are refused

A deletion of a prefix commits the decisions and the rewritten submissions before it has looked at all queued paths, and
before it removes a file.  So a queued path that is not valid, or a directory where a file should be, leaves it half
done, unless there was nothing to delete before (`deletePrefix_refused_iff`).
-/

namespace Ctxd

open Program

namespace Disk

variable {d d' : Disk} {done : List Loc} {l : Loc}

/-- The file at the location cannot be removed when those at the earlier ones are gone: a directory is there, or a file
is above it that stays. -/
def Blocks (d : Disk) (earlier : List Loc) (l : Loc) : Prop :=
  d.node l = some .dir ∨ ∃ r, r <:+ l.path ∧ r ≠ l.path ∧ (⟨l.area, r⟩ : Loc) ∉ earlier ∧
    ∃ data, d.node ⟨l.area, r⟩ = some (.file data)

/-- A place is strictly below another one. -/
def Beneath (l l' : Loc) : Prop := l.area = l'.area ∧ l'.path <:+ l.path ∧ l.path ≠ l'.path

/-- The files at these locations are gone, and perhaps directories above them, and nothing else. -/
structure Swept (done : List Loc) (d d' : Disk) : Prop where
  prunes : d.Prunes d'
  file : ∀ l, d'.file l = if l ∈ done then none else d.file l
  dir : ∀ l, d.node l = some .dir → d'.node l = none → ∃ l' ∈ done, Beneath l' l

private theorem Swept.nil (d : Disk) : Swept [] d d := by
  refine ⟨.refl d, fun l => ?_, fun l hdir hnone => ?_⟩
  · rw [if_neg List.not_mem_nil]
  · rw [hdir] at hnone
    cases hnone

/-- A file at the location is removed, or there is none. -/
private theorem Swept.unlink (h : Swept done d d') (hwf : d'.WF) (l : Loc) {d'' : Disk}
    (hd : d'' = d' ∧ d'.file l = none ∨ d'' = d'.remove l ∧ ∃ data, d'.node l = some (.file data)) :
    Swept (done ++ [l]) d d'' := by
  have hmem : ∀ {l' : Loc}, l' ∈ done ++ [l] ↔ l' ∈ done ∨ l' = l := by simp
  rcases hd with ⟨rfl, hnone⟩ | ⟨rfl, data, hdata⟩
  · refine ⟨h.prunes, fun l' => ?_, fun l' hdir hgone => ?_⟩
    · rw [h.file]
      by_cases hl : l' ∈ done
      · rw [if_pos hl, if_pos (hmem.2 (.inl hl))]
      · by_cases heq : l' = l
        · rw [heq] at hl ⊢
          rw [h.file, if_neg hl] at hnone
          rw [if_neg hl, if_pos (hmem.2 (.inr rfl)), hnone]
        · rw [if_neg hl, if_neg fun hin => (hmem.1 hin).elim hl heq]
    · obtain ⟨l₁, hl₁, hunder⟩ := h.dir l' hdir hgone
      exact ⟨l₁, hmem.2 (.inl hl₁), hunder⟩
  · have hl : l.path ≠ [] := path_ne_nil_of_file (file_eq_some_iff.2 hdata)
    refine ⟨h.prunes.trans (hwf.prunes_remove hl (hwf.file_leaf hdata)), fun l' => ?_, fun l' hdir hgone => ?_⟩
    · rw [file_remove hl, Function.update_apply, h.file]
      by_cases heq : l' = l
      · rw [if_pos heq, if_pos (hmem.2 (.inr heq))]
      · rw [if_neg heq]
        by_cases hdone : l' ∈ done
        · rw [if_pos hdone, if_pos (hmem.2 (.inl hdone))]
        · rw [if_neg hdone, if_neg fun hin => (hmem.1 hin).elim hdone heq]
    · have hother : l' ≠ l := by
        rintro rfl
        rcases h.prunes.node l' with heq | heq
        · rw [heq, hdir] at hdata
          cases hdata
        · rw [heq] at hdata
          cases hdata
      rw [node_remove _ hl, if_neg hother] at hgone
      obtain ⟨l₁, hl₁, hunder⟩ := h.dir l' hdir hgone
      exact ⟨l₁, hmem.2 (.inl hl₁), hunder⟩

/-- An empty directory above one of the locations is removed. -/
private theorem Swept.rmdir (h : Swept done d d') (hwf : d'.WF) (hl : l.path ≠ []) (hdir : d'.node l = some .dir)
    (hleaf : ∀ name, d'.node ⟨l.area, name :: l.path⟩ = none) (habove : ∃ l' ∈ done, Beneath l' l) :
    Swept done d (d'.remove l) := by
  refine ⟨h.prunes.trans (hwf.prunes_remove hl hleaf), fun l' => ?_, fun l' hdir' hgone => ?_⟩
  · rw [file_remove hl, Function.update_apply]
    split
    · rename_i heq
      have hfile := h.file l'
      rw [heq, file_of_node_dir hdir] at hfile
      rw [heq]
      exact hfile
    · exact h.file l'
  · rw [node_remove _ hl] at hgone
    split at hgone
    · rename_i heq
      rw [heq]
      exact habove
    · exact h.dir l' hdir' hgone

/-- What is blocked is known from the disk before, if no removed file was below. -/
private theorem Swept.blocks_iff (h : Swept done d d') (hnot : ∀ l' ∈ done, ¬Beneath l' l) :
    d.Blocks done l ↔ d'.node l = some .dir ∨ ∃ r, r <:+ l.path ∧ r ≠ l.path ∧
      ∃ data, d'.node ⟨l.area, r⟩ = some (.file data) := by
  constructor
  · rintro (hdir | ⟨r, hr, hne, hstays, data, hdata⟩)
    · left
      rcases h.prunes.node l with heq | hgone
      · rw [heq, hdir]
      · obtain ⟨l', hl', hunder⟩ := h.dir l hdir hgone
        exact absurd hunder (hnot l' hl')
    · refine .inr ⟨r, hr, hne, data, ?_⟩
      rw [← file_eq_some_iff, h.file, if_neg hstays, file_eq_some_iff]
      exact hdata
  · rintro (hdir | ⟨r, hr, hne, data, hdata⟩)
    · left
      rcases h.prunes.node l with heq | hgone
      · rw [← heq, hdir]
      · rw [hgone] at hdir
        cases hdir
    · have hfile := h.file ⟨l.area, r⟩
      rw [file_eq_some_iff.2 hdata] at hfile
      split at hfile
      · cases hfile
      · rename_i hstays
        exact .inr ⟨r, hr, hne, hstays, data, file_eq_some_iff.1 hfile.symm⟩

/-- A removal raises anything but that there is no file, exactly at a directory and below a file. -/
private theorem WF.unlink_error_iff (h : d.WF) (hfit : d.Fits l) : (∃ e, d.unlink l = .error e ∧ e ≠ .ENOENT) ↔
    d.node l = some .dir ∨ ∃ r, r <:+ l.path ∧ r ≠ l.path ∧ ∃ data, d.node ⟨l.area, r⟩ = some (.file data) := by
  constructor
  · rintro ⟨e, he, hne⟩
    by_contra hnot
    rw [not_or] at hnot
    refine hne (Removable.unlink ⟨hfit, hnot.1, fun r hr hproper data hfile => ?_⟩ h he)
    exact hnot.2 ⟨r, hr, hproper, data, hfile⟩
  · unfold Disk.unlink
    rintro (hdir | ⟨r, hr, hne, data, hfile⟩)
    · rw [(h.resolve_ok_iff l _).2 hdir]
      exact ⟨_, rfl, by simp⟩
    · rw [h.resolve_below_file hfit hr hne hfile]
      exact ⟨_, rfl, by simp⟩

/-- None of the locations is blocked when its turn comes. -/
def Clear (d : Disk) (ls : List Loc) : Prop :=
  ∀ earlier l later, ls = earlier ++ l :: later → ¬d.Blocks earlier l

private theorem Clear.nil (d : Disk) : d.Clear [] := by
  intro earlier l later h
  simp at h

private theorem Clear.concat (h : d.Clear done) (hl : ¬d.Blocks done l) : d.Clear (done ++ [l]) := by
  intro earlier l' later heq
  rcases List.eq_nil_or_concat later with rfl | ⟨rest, last, rfl⟩
  · obtain ⟨rfl, hlast⟩ := List.append_inj' heq rfl
    obtain rfl := List.head_eq_of_cons_eq hlast
    exact hl
  · refine h earlier l' rest ?_
    have hsplit : done ++ [l] = (earlier ++ l' :: rest) ++ [last] := by
      rw [heq]
      simp
    exact (List.append_inj' hsplit rfl).1

end Disk

namespace Service

variable {user writer pre : String} {rows : List Entry} {s s' : Service} {receipt : Option String}

/-! ### The loop over the files -/

/-- The files at these locations have been removed, and empty directories above them. -/
structure Sweeps (done : List Loc) (s s' : Service) : Prop where
  effect : Effect (.erase done) s s'
  swept : s.world.fs.disk.Swept done s'.world.fs.disk
  rows : s'.rows = s.rows

private theorem Sweeps.nil (s : Service) : Sweeps [] s s := by
  refine ⟨?_, .nil _, rfl⟩
  rw [show Stock.erase [] = id from funext Stock.erase_nil]
  exact .refl s

/-- The program removes these files, in this order, until one is blocked. -/
def SweepsOn (m : ServiceM Unit) (s : Service) (done ls : List Loc) : Prop :=
  ∀ s1, s.world.fs.disk.Clear done → Sweeps done s s1 →
    Ends m (fun _ s2 => s.world.fs.disk.Clear (done ++ ls) ∧ Sweeps (done ++ ls) s s2)
      (fun halt s2 => ∃ earlier l later, ls = earlier ++ l :: later ∧ s.world.fs.disk.Clear (done ++ earlier) ∧
        s.world.fs.disk.Blocks (done ++ earlier) l ∧ (∃ e, halt = .raised (.osError e)) ∧
        Sweeps (done ++ earlier) s s2) s1

private theorem SweepsOn.bind {m m' : ServiceM Unit} {done ls ls' : List Loc} (h : SweepsOn m s done ls)
    (h' : SweepsOn m' s (done ++ ls) ls') : SweepsOn (m >>= fun _ => m') s done (ls ++ ls') := by
  intro s1 hclear hsweeps
  rw [ends_bind]
  refine (h s1 hclear hsweeps).mono (fun _ s2 h2 => ?_) (fun halt s2 h2 => ?_)
  · refine (h' s2 h2.1 h2.2).mono (fun _ s3 h3 => ?_) (fun halt s3 h3 => ?_)
    · rw [← List.append_assoc]
      exact h3
    · obtain ⟨earlier, l, later, rfl, h3⟩ := h3
      rw [List.append_assoc] at h3
      exact ⟨ls ++ earlier, l, later, by simp, h3⟩
  · obtain ⟨earlier, l, later, rfl, h2⟩ := h2
    exact ⟨earlier, l, later ++ ls', by simp, h2⟩

private theorem unlinkMissingOk_sweeps (hwf : s.world.fs.disk.WF) (hcrash : s.crash = none) {done : List Loc} {l : Loc}
    (hfit : s.world.fs.disk.Fits l) (hnot : ∀ l' ∈ done, ¬Disk.Beneath l' l) :
      SweepsOn (unlinkMissingOk l) s done [l] := by
  intro s1 hclear hsweeps
  have hwf1 : s1.world.fs.disk.WF := hsweeps.swept.prunes.wf hwf
  have hblocks := (hsweeps.swept.blocks_iff hnot).trans (hwf1.unlink_error_iff (hsweeps.swept.prunes.fits hfit)).symm
  have hlives : ∀ halt, ¬s1.Dies halt := fun halt hdies => hdies.2 (hsweeps.effect.crash hcrash)
  -- what the call does to the disk; the rest is `unlinkMissingOk_spec`
  have hdisk : Ends (unlinkMissingOk l)
      (fun _ s2 => ¬s.world.fs.disk.Blocks done l ∧ s.world.fs.disk.Swept (done ++ [l]) s2.world.fs.disk ∧
        s2.rows = s1.rows)
      (fun _ s2 => (s1.Dies .crashed ∨ s.world.fs.disk.Blocks done l) ∧ s2 = s1) s1 := by
    unfold unlinkMissingOk
    rw [ends_bind, ends_get]
    cases hunlink : s1.world.fs.disk.unlink l with
    | ok d =>
      obtain ⟨data, hdata, rfl⟩ := hwf1.unlink_ok hunlink
      refine ends_step (fun hd => ⟨.inl hd, rfl⟩) fun c hc => ⟨fun hblocked => ?_, ?_, rfl⟩
      · obtain ⟨e, he, -⟩ := hblocks.1 hblocked
        rw [hunlink] at he
        cases he
      · exact hsweeps.swept.unlink hwf1 l (.inr ⟨rfl, data, hdata⟩)
    | error e =>
      by_cases he : e = .ENOENT
      · subst he
        refine ends_step (fun hd => ⟨.inl hd, rfl⟩) fun c hc => ⟨fun hblocked => ?_, ?_, rfl⟩
        · obtain ⟨e, he, hne⟩ := hblocks.1 hblocked
          rw [hunlink] at he
          exact hne (Except.error.inj he).symm
        · exact hsweeps.swept.unlink hwf1 l (.inl ⟨rfl, hwf1.file_of_unlink_noent hunlink⟩)
      · have hblocked := hblocks.2 ⟨e, hunlink, he⟩
        cases e <;> first | exact absurd rfl he | exact ⟨.inr hblocked, rfl⟩
  refine ((unlinkMissingOk_spec l hwf1).and hdisk).mono (fun _ s2 h2 => ?_) (fun halt s2 h2 => ?_)
  · obtain ⟨heffect, hnotblocked, hswept, hrows⟩ := h2
    refine ⟨hclear.concat hnotblocked, ?_, hswept, hrows.trans hsweeps.rows⟩
    have hboth := hsweeps.effect.trans heffect
    exact ⟨hboth.stock.trans (Stock.erase_erase _ _ _), hboth.prunes, hboth.crash⟩
  · obtain ⟨⟨hinterrupted, -⟩, hhalt, rfl⟩ := h2
    refine ⟨[], l, [], rfl, ?_⟩
    rw [List.append_nil]
    exact ⟨hclear, hhalt.resolve_left (hlives _), (hinterrupted.resolve_left (hlives _)).1, hsweeps⟩

private theorem removeEmptyUpwards_sweeps (hwf : s.world.fs.disk.WF) (hcrash : s.crash = none) {done : List Loc}
    {a : Area} {p : TreePath} (habove : p = [] ∨ ∃ l' ∈ done, Disk.Beneath l' ⟨a, p⟩) :
    SweepsOn (removeEmptyUpwards a p) s done [] := by
  intro s1 hclear hsweeps
  rw [List.append_nil]
  induction p generalizing s1 with
  | nil => exact ⟨hclear, hsweeps⟩
  | cons name rest ih =>
    have hwf1 : s1.world.fs.disk.WF := hsweeps.swept.prunes.wf hwf
    have hlives : ¬s1.Dies .crashed := fun hdies => hdies.2 (hsweeps.effect.crash hcrash)
    obtain ⟨l', hl', harea, hbelow, hne⟩ := habove.resolve_left (by simp)
    unfold removeEmptyUpwards
    rw [ends_bind, ends_get]
    cases hrmdir : s1.world.fs.disk.rmdir ⟨a, name :: rest⟩ with
    | error e => exact ⟨hclear, hsweeps⟩
    | ok d =>
      obtain ⟨hl, hdir, hleaf, rfl⟩ := hwf1.rmdir_ok hrmdir
      dsimp only
      rw [ends_bind]
      refine ends_step (fun hd => absurd hd hlives) fun c hc => ?_
      have hstep := effect_rmdir hwf1 hl hdir hleaf c hc
      refine ih (.inr ⟨l', hl', harea, (List.suffix_cons _ _).trans hbelow, fun heq => ?_⟩) _
        ⟨hsweeps.effect.trans hstep, ?_, hsweeps.rows⟩
      · rw [heq] at hbelow
        exact absurd hbelow.length_le (by simp)
      · exact hsweeps.swept.rmdir hwf1 hl hdir hleaf ⟨l', hl', harea, hbelow, hne⟩

/-- No location comes after one that is strictly below it. -/
def TopDown (ls : List Loc) : Prop := ls.Pairwise fun l' l => ¬Disk.Beneath l' l

private theorem deleteFiles_sweeps (hwf : s.world.fs.disk.WF) (hcrash : s.crash = none) {row : Entry} {done : List Loc}
    (hfit : ∀ l ∈ filesOf user row, s.world.fs.disk.Fits l) (horder : TopDown (done ++ filesOf user row)) :
    SweepsOn (deleteFiles user row) s done (filesOf user row) := by
  have hfiles : filesOf user row = [treeLoc user row.path] ++ ([] ++ [objectLoc user row.objectId]) := rfl
  rw [hfiles] at horder hfit ⊢
  unfold TopDown at horder
  rw [List.pairwise_append] at horder
  obtain ⟨-, -, hbelow⟩ := horder
  refine (unlinkMissingOk_sweeps hwf hcrash (hfit _ (by simp)) fun l' hl' => hbelow l' hl' _ (by simp)).bind
    ((removeEmptyUpwards_sweeps hwf hcrash ?_).bind
      (unlinkMissingOk_sweeps hwf hcrash (hfit _ (by simp)) fun l' hl' => ?_))
  · cases hpath : treePath row.path with
    | nil => exact .inl rfl
    | cons name rest =>
      refine .inr ⟨treeLoc user row.path, by simp, rfl, ?_, ?_⟩
      · show rest <:+ treePath row.path
        rw [hpath]
        exact List.suffix_cons _ _
      · show treePath row.path ≠ rest
        rw [hpath]
        exact fun heq => absurd (congrArg List.length heq) (by simp)
  · rw [List.append_nil] at hl'
    rcases List.mem_append.1 hl' with hl' | hl'
    · exact hbelow l' hl' _ (by simp)
    · rw [List.mem_singleton.1 hl']
      rintro ⟨harea, -⟩
      cases harea

private theorem deleteFiles_forM_sweeps (hwf : s.world.fs.disk.WF) (hcrash : s.crash = none) {done : List Loc}
    (hfit : ∀ l ∈ filesOfAll user rows, s.world.fs.disk.Fits l) (horder : TopDown (done ++ filesOfAll user rows)) :
    SweepsOn (rows.forM (deleteFiles user)) s done (filesOfAll user rows) := by
  induction rows generalizing done with
  | nil =>
    intro s1 hclear hsweeps
    rw [show filesOfAll user [] = [] from rfl, List.append_nil]
    exact ⟨hclear, hsweeps⟩
  | cons row rest ih =>
    have hall : filesOfAll user (row :: rest) = filesOf user row ++ filesOfAll user rest := List.flatMap_cons
    rw [hall] at hfit horder ⊢
    rw [← List.append_assoc] at horder
    have hfirst : TopDown (done ++ filesOf user row) := (List.pairwise_append.1 horder).1
    exact (deleteFiles_sweeps hwf hcrash (fun l hl => hfit l (List.mem_append_left _ hl)) hfirst).bind
      (ih (fun l hl => hfit l (List.mem_append_right _ hl)) horder)

/-! ### The order of the rows -/

/-- A document whose path comes before another one's is not below it. -/
private theorem not_under_of_le {e e' : Entry} (he : Normalized e.path) (he' : Normalized e'.path)
    (hle : e.path ≤ e'.path) :
    ¬Disk.Beneath (treeLoc user e.path) (treeLoc user e'.path) := by
  rintro ⟨-, hsuffix, hne⟩
  have hwithin := (treePath_suffix_iff he he').1 hsuffix
  rw [pathIsWithinPrefix_eq he he', Except.ok.injEq, decide_eq_true_eq, he.posixParts_eq, he'.posixParts_eq,
    rawParts_prefix_iff] at hwithin
  rcases hwithin with heq | hbelow
  · exact hne (by rw [show e.path = e'.path from heq])
  · obtain ⟨rest, hrest⟩ := List.isPrefixOf_iff_prefix.1 hbelow
    refine absurd hle (not_le.2 (String.lt_iff_toList_lt.2 ?_))
    have hlt : e'.path.toList ++ [] < e'.path.toList ++ '/' :: rest := List.append_left_lt (List.nil_lt_cons '/' rest)
    rw [← hrest, List.append_assoc]
    simpa using hlt

/-- The files of the rows come in such an order that the removal of one leaves no directory empty that blocks a later
one. -/
private theorem Allowed.topDown (h : Allowed user writer pre rows s) : TopDown (filesOfAll user rows) := by
  obtain ⟨hnormal, hfilter⟩ := filterM_eq_ok_iff.1 h.rows
  have hsorted : (entryRowsForWriter s.world.catalog user writer).Pairwise fun e e' => e.path ≤ e'.path := by
    have h : (entryRowsForWriter s.world.catalog user writer).Pairwise fun e e' => decide (e.path ≤ e'.path) = true :=
      List.pairwise_mergeSort
        (fun e e' e'' hle hle' => by simpa using le_trans (by simpa using hle) (by simpa using hle'))
        (fun e e' => by simpa using le_total e.path e'.path) _
    exact h.imp fun {e e'} hle => by simpa using hle
  have hrows : rows.Pairwise fun e e' => Normalized e.path ∧ Normalized e'.path ∧ e.path ≤ e'.path := by
    rw [hfilter]
    refine (hsorted.sublist List.filter_sublist).imp_of_mem fun {e e'} he he' hle => ?_
    obtain ⟨b, hb⟩ := hnormal e (List.mem_of_mem_filter he)
    obtain ⟨b', hb'⟩ := hnormal e' (List.mem_of_mem_filter he')
    exact ⟨(pathIsWithinPrefix_ok hb).1, (pathIsWithinPrefix_ok hb').1, hle⟩
  have hobject : ∀ (l : Loc) (objectId : Nat), l.path ≠ [] → ¬Disk.Beneath (objectLoc user objectId) l := by
    rintro l objectId hl ⟨-, hsuffix, hne⟩
    rcases List.suffix_cons_iff.1 hsuffix with heq | hnil
    · exact hne heq.symm
    · exact hl (List.suffix_nil.1 hnil)
  unfold TopDown filesOfAll
  refine List.pairwise_flatMap.2 ⟨fun e he => ?_, hrows.imp fun {e e'} hboth => ?_⟩
  · refine List.pairwise_cons.2 ⟨fun l hl => ?_, List.pairwise_singleton _ _⟩
    rw [List.mem_singleton.1 hl]
    rintro ⟨harea, -⟩
    cases harea
  · obtain ⟨he, he', hle⟩ := hboth
    intro l hl l' hl'
    have hl' : l' = treeLoc user e'.path ∨ l' = objectLoc user e'.objectId := by simpa [filesOf] using hl'
    have hl : l = treeLoc user e.path ∨ l = objectLoc user e.objectId := by simpa [filesOf] using hl
    rcases hl with rfl | rfl
    · rcases hl' with rfl | rfl
      · exact not_under_of_le he he' hle
      · rintro ⟨harea, -⟩
        cases harea
    · rcases hl' with rfl | rfl
      · exact hobject _ _ he'.treePath_ne_nil
      · exact hobject _ _ (by simp [objectLoc])

/-! ### The deletion until it is stopped -/

/-- The filesystem is as before. -/
def SameFs (s s' : Service) : Prop := s'.world.fs = s.world.fs

instance : IsPreorder Service SameFs where
  refl _ := rfl
  trans _ _ _ h h' := h'.trans h

private theorem sameFs_step {u : Service → Service} (hu : ∀ s, (u s).world.fs = s.world.fs) :
    Keeps SameFs (fun _ => True) (step u) := by
  intro s
  refine ends_step (fun _ => rfl) fun c _ => ⟨?_, trivial⟩
  unfold SameFs
  rw [hu]

private theorem sameFs_time : Keeps SameFs (fun _ => True) (onStore now) := by
  intro s
  rw [ends_time]
  exact ⟨rfl, trivial⟩

private theorem sameFs_discardForPrefix (pre : String) (sourceKeys : List String) (rows : List ServiceRow) :
    Keeps SameFs (fun _ => True) (discardForPrefix pre sourceKeys rows) := by
  induction rows with
  | nil => exact .pure trivial
  | cons row rest ih =>
    unfold discardForPrefix
    have hkept : Keeps SameFs (fun _ => True) (orHalt (keptOperations pre sourceKeys row.operations)) := by
      intro s
      rw [ends_orHalt]
      exact ⟨fun _ _ => ⟨rfl, trivial⟩, fun _ _ => rfl⟩
    refine hkept.bind fun kept _ => .ite (fun _ => ih) fun _ => ?_
    have hrest : Keeps SameFs (fun _ => True) (do return (← discardForPrefix pre sourceKeys rest) + 1) :=
      ih.bind (Q := fun _ => True) fun _ _ => .pure trivial
    have hrow : ∀ f : Int → ServiceRow → ServiceRow, Keeps SameFs (fun _ => True) (do
        let time ← onStore now
        stepRow row.submissionId (f time)) := fun f => sameFs_time.bind fun _ _ => sameFs_step fun _ => rfl
    exact .ite (fun _ => (hrow _).bind fun _ _ => hrest) fun _ => (hrow _).bind fun _ _ => hrest

private theorem sameFs_deleteDecisionsIn (scope : Decision → Bool) :
    Keeps SameFs (fun _ => True) (deleteDecisionsIn scope) := by
  have hget : Keeps SameFs (fun _ => True) (get : ServiceM Service) := fun s => ⟨rfl, trivial⟩
  have hstep : Keeps SameFs (fun _ => True) (step (setCatalog (deleteDecisions scope))) := sameFs_step fun _ => rfl
  exact hget.bind fun _ _ => hstep.bind (Q := fun _ => True) fun _ _ => .pure trivial

/-- What a deletion of the prefix has done when it is stopped at a file. -/
structure StoppedAtFile (user writer pre : String) (rows : List Entry) (s s' : Service) : Prop where
  effect : ∃ earlier l later, filesOfAll user rows = earlier ++ l :: later ∧ s.world.fs.disk.Clear earlier ∧
    s.world.fs.disk.Blocks earlier l ∧
      Effect (.erase earlier ∘
        .mapRows (onIds ((queuedOf user writer s.rows).map (·.submissionId)) (keptRow pre (rows.map (·.sourceKey)))) ∘
          .dropDecisions (inDecisionScope user writer pre (rows.map (·.sourceKey)))) s s'
  untouched : (∀ r ∈ queuedOf user writer s.rows, KeepsAll pre (rows.map (·.sourceKey)) r) → s'.rows = s.rows

private theorem deletePrefix_sweeps (hs : s.Sound) (hcrash : s.crash = none) (hallowed : Allowed user writer pre rows s)
    (hvalid : AllValid user writer pre rows s) (hfit : ∀ l ∈ filesOfAll user rows, s.world.fs.disk.Fits l) :
    Ends (deletePrefix user writer pre receipt) (fun _ _ => s.world.fs.disk.Clear (filesOfAll user rows))
      (fun halt s' => (∃ e, halt = .raised (.osError e)) ∧ StoppedAtFile user writer pre rows s s') s := by
  have hlives : ∀ {s1 : Service} {f halt}, Effect f s s1 → ¬s1.Dies halt := fun h hdies => hdies.2 (h.crash hcrash)
  unfold deletePrefix
  rw [ends_bind, ends_orHalt, hallowed.normal]
  refine ⟨fun _ hnormal => ?_, fun _ he => by cases he⟩
  cases hnormal
  rw [ends_bind, ends_get, ends_bind, ends_orHalt, hallowed.authorized]
  refine ⟨fun _ _ => ?_, fun _ he => by cases he⟩
  rw [ends_bind, ends_orHalt, hallowed.rows]
  refine ⟨fun _ hrows => ?_, fun _ he => by cases he⟩
  cases hrows
  dsimp only
  rw [ends_bind]
  refine ((deleteDecisionsIn_spec _ s).and ((sameFs_deleteDecisionsIn _).ends s)).mono (fun decisionCount s1 h1 => ?_)
    fun h s1 h1 => absurd h1.1.1 (hlives (.refl s))
  obtain ⟨⟨h1, hrows1⟩, hfs1⟩ := h1
  have hkeyed1 : Keyed s1.stock := by
    rw [h1.stock]
    exact hs.stock_keyed
  unfold discardQueuedSubmissionsForPrefix
  rw [ends_bind, ends_bind, ends_get, hrows1]
  have hqueued : ∀ r ∈ queuedOf user writer s.rows, r.untimed ∈ s1.stock.rows := by
    rw [← hrows1]
    exact fun r hr => List.mem_map_of_mem (List.mem_filter.1 hr).1
  refine ((discardForPrefix_spec _ _ _ hkeyed1 hqueued (queuedOf_nodup user writer hs.stock_keyed)).and
    ((sameFs_discardForPrefix _ _ _).ends s1)).mono (fun queuedCount s2 h2 => ?_) (fun h s2 h2 => ?_)
  · obtain ⟨h2, hfs2⟩ := h2
    have h12 := h1.trans h2.effect
    have hfs : s2.world.fs = s.world.fs := hfs2.trans hfs1
    have hcrash2 : s2.crash = none := h12.crash hcrash
    rw [← hfs] at hfit
    have hloop := deleteFiles_forM_sweeps (h12.prunes.wf hs.disk) hcrash2 hfit hallowed.topDown s2 (.nil _) (.nil s2)
    unfold deleteEntryRowsAndFiles
    rw [ends_bind, ends_bind]
    refine hloop.mono (fun _ s3 h3 => ?_) (fun halt s3 h3 => ?_)
    · obtain ⟨hclear, h3⟩ := h3
      have hlives3 : ¬s3.Dies .crashed := fun hdies => hdies.2 (h3.effect.crash hcrash2)
      refine ends_step (fun hdies => absurd hdies hlives3) fun c hc => ?_
      rw [ends_bind]
      rw [List.nil_append, hfs] at hclear
      refine (recordDeletion_spec _ _).mono (fun _ _ _ => hclear) fun h s4 h4 => ?_
      exact absurd (hc (h3.effect.crash hcrash2)) h4.1.2
    · obtain ⟨earlier, l, later, hsplit, hclear, hblocks, hhalt, h3⟩ := h3
      rw [List.nil_append] at hclear hblocks h3
      rw [hfs] at hclear hblocks
      refine ⟨hhalt, ⟨earlier, l, later, hsplit, hclear, hblocks, h12.trans h3.effect⟩, fun hkeeps => ?_⟩
      exact h3.rows.trans ((h2.untouched hkeeps).trans hrows1)
  · obtain ⟨⟨done, rest, hsplit, -, hdies | ⟨row, rest', e, rfl, he, -⟩⟩, -⟩ := h2
    · exact absurd hdies (hlives h1)
    · obtain ⟨kept, hok⟩ := hvalid row (by rw [hsplit]; simp)
      rw [he] at hok
      cases hok

/-! ### A refused deletion -/

/-- What a deletion may change is as before. -/
structure Unchanged (s s' : Service) : Prop where
  entries : s'.world.catalog.entries = s.world.catalog.entries
  decisions : s'.world.catalog.decisions = s.world.catalog.decisions
  rows : s'.rows = s.rows
  files : s'.world.fs.disk.file = s.world.fs.disk.file

private theorem Unchanged.refl (s : Service) : Unchanged s s := ⟨rfl, rfl, rfl, rfl⟩

/-- Before the first queued submission with an invalid path there is nothing to delete: no decision, and no operation
of an earlier submission. -/
def NothingBefore (user writer pre : String) (s : Service) : Prop :=
  ∀ rows, Allowed user writer pre rows s → ∀ done row rest e, queuedOf user writer s.rows = done ++ row :: rest →
    (∀ r ∈ done, ∃ kept, keptOperations pre (rows.map (·.sourceKey)) r.operations = .ok kept) →
    keptOperations pre (rows.map (·.sourceKey)) row.operations = .error e →
    (∀ r ∈ s.world.catalog.decisions, inDecisionScope user writer pre (rows.map (·.sourceKey)) r = false) ∧
      ∀ r ∈ done, KeepsAll pre (rows.map (·.sourceKey)) r

/-- Where the queue has no invalid path, there is nothing to delete before the first file that cannot be removed: no
decision, no queued operation, and none of the files that come before it. -/
def NothingBeforeFile (user writer pre : String) (s : Service) : Prop :=
  ∀ rows, Allowed user writer pre rows s → AllValid user writer pre rows s →
    ∀ earlier l later, filesOfAll user rows = earlier ++ l :: later → s.world.fs.disk.Clear earlier →
      s.world.fs.disk.Blocks earlier l →
      (∀ r ∈ s.world.catalog.decisions, inDecisionScope user writer pre (rows.map (·.sourceKey)) r = false) ∧
        (∀ r ∈ queuedOf user writer s.rows, KeepsAll pre (rows.map (·.sourceKey)) r) ∧
        ∀ l' ∈ earlier, s.world.fs.disk.file l' = none

/-- The path of every document fits the filesystem, as it has been placed there. -/
def RowsFit (s : Service) : Prop :=
  ∀ e ∈ s.world.catalog.entries, s.world.fs.disk.Fits (treeLoc e.userId e.path)

private theorem RowsFit.files (h : RowsFit s) (hallowed : Allowed user writer pre rows s) :
    ∀ l ∈ filesOfAll user rows, s.world.fs.disk.Fits l := by
  intro l hl
  obtain ⟨e, he, hscope, hl⟩ := hallowed.mem_filesOfAll.1 hl
  simp only [inEntryScope, Bool.and_eq_true, decide_eq_true_eq] at hscope
  have hcases : l = treeLoc user e.path ∨ l = objectLoc user e.objectId := by simpa [filesOf] using hl
  rcases hcases with rfl | rfl
  · rw [← hscope.1.1]
    exact h e he
  · exact ⟨rfl, fun _ _ => rfl⟩

private theorem rowsFit_of_consistent (h : Consistent s.world) : RowsFit s := by
  intro e he
  exact (removable_of_consistent h he _ (by simp [filesOf])).fits

/-- A queued row that loses an operation is not the row it was. -/
private theorem keepsAll_of_keptRow {keys : List String} {r : ServiceRow} (hqueued : isQueued r = true)
    (h : keptRow pre keys r.untimed = r.untimed) : KeepsAll pre keys r := by
  intro kept hkept
  by_contra hlength
  have hkept' : keptOperations pre keys r.untimed.operations = .ok kept := hkept
  have hlength' : kept.length ≠ r.untimed.operations.length := hlength
  unfold keptRow at h
  rw [hkept'] at h
  dsimp only at h
  rw [if_neg hlength'] at h
  split at h
  · have hstate : SubmissionState.discarded = r.state := congrArg ServiceRow.state h
    rw [isQueued, ← hstate] at hqueued
    cases hqueued
  · have hoperations : kept = r.operations := congrArg ServiceRow.operations h
    exact hlength (congrArg List.length hoperations)

/-- Rows that are as before have lost no operation. -/
private theorem keepsAll_of_rows {ids : List String} {keys : List String}
    (hstock : s'.stock.rows = s.stock.rows.map (onIds ids (keptRow pre keys))) (hsame : s'.rows = s.rows)
    {r : ServiceRow} (hr : r ∈ queuedOf user writer s.rows) (hid : r.submissionId ∈ ids) : KeepsAll pre keys r := by
  obtain ⟨hmem, hstate⟩ := List.mem_filter.1 hr
  simp only [Bool.and_eq_true] at hstate
  refine keepsAll_of_keptRow hstate.2 ?_
  have hrows : s.stock.rows.map (onIds ids (keptRow pre keys)) = s.stock.rows := by
    rw [← hstock]
    show s'.rows.map _ = s.rows.map _
    rw [hsame]
  have hrow := List.map_inj_left.1 (hrows.trans (List.map_id _).symm) r.untimed (List.mem_map_of_mem hmem)
  have hid' : r.untimed.submissionId ∈ ids := hid
  unfold onIds at hrow
  rwa [if_pos hid'] at hrow

/-- A decision that is still there was not in the scope. -/
private theorem outOfScope_of_decisions {scope : Decision → Bool} {decisions : List Decision}
    (h : decisions.filter (fun r => !scope r) = decisions) : ∀ r ∈ decisions, scope r = false := by
  intro r hr
  have hkept := List.filter_eq_self.1 h r hr
  simpa using hkept

private theorem filter_of_outOfScope {scope : Decision → Bool} {decisions : List Decision}
    (h : ∀ r ∈ decisions, scope r = false) : decisions.filter (fun r => !scope r) = decisions := by
  refine List.filter_eq_self.2 fun r hr => ?_
  rw [h r hr]
  rfl

/-- There is one first location that is blocked. -/
private theorem first_blocked_unique {d : Disk} {earlier earlier' later later' : List Loc} {l l' : Loc}
    (h : earlier ++ l :: later = earlier' ++ l' :: later') (hclear : d.Clear earlier) (hl : d.Blocks earlier l)
    (hclear' : d.Clear earlier') (hl' : d.Blocks earlier' l') : earlier = earlier' ∧ l = l' := by
  rcases List.append_eq_append_iff.1 h with ⟨rest, rfl, hrest⟩ | ⟨rest, rfl, hrest⟩
  · cases rest with
    | nil =>
      rw [List.nil_append] at hrest
      exact ⟨(List.append_nil _).symm, List.head_eq_of_cons_eq hrest⟩
    | cons l₁ rest =>
      obtain rfl := List.head_eq_of_cons_eq hrest
      exact absurd hl (hclear' _ _ _ rfl)
  · cases rest with
    | nil =>
      rw [List.nil_append] at hrest
      exact ⟨List.append_nil _, (List.head_eq_of_cons_eq hrest).symm⟩
    | cons l₁ rest =>
      obtain rfl := List.head_eq_of_cons_eq hrest
      exact absurd hl' (hclear _ _ _ rfl)

/-- A deletion that is stopped at a file where nothing was to be deleted before has changed nothing. -/
private theorem StoppedAtFile.unchanged (h : StoppedAtFile user writer pre rows s s')
    (hallowed : Allowed user writer pre rows s) (hvalid : AllValid user writer pre rows s)
    (hnothing : NothingBeforeFile user writer pre s) : Unchanged s s' := by
  obtain ⟨⟨earlier, l, later, hsplit, hclear, hblocks, heffect⟩, huntouched⟩ := h
  obtain ⟨hdecisions, hkeeps, hfiles⟩ := hnothing rows hallowed hvalid earlier l later hsplit hclear hblocks
  refine ⟨congrArg Stock.entries heffect.stock, ?_, huntouched hkeeps, ?_⟩
  · exact (congrArg Stock.decisions heffect.stock).trans (filter_of_outOfScope hdecisions)
  · funext l'
    have hfile : s'.world.fs.disk.file l' = if l' ∈ earlier then none else s.world.fs.disk.file l' :=
      congrArg (fun k => k.file l') heffect.stock
    rw [hfile]
    split
    · exact (hfiles l' ‹_›).symm
    · rfl

/-- A store with a registered prefix and no documents. -/
@[irreducible] def registered : World := runCalls [.register "user" "writer" "d"] (emptyStore (fun _ => 0) 4000)

theorem registered_consistent : Consistent registered := by
  unfold registered
  exact (runCalls_consistent (emptyStore_consistent _ _) (by decide +kernel)).1

theorem registered_rows : entryRowsUnderPrefix registered.catalog "user" "writer" "d" = .ok [] := by
  have hnone : registered.catalog.entries.length = 0 := by decide +kernel
  unfold entryRowsUnderPrefix entryRowsForWriter byPath
  rw [List.length_eq_zero_iff.1 hnone, List.filter_nil, List.mergeSort_nil]
  rfl

/-- A queued submission of the writer. -/
def rowOf (submissionId : String) (operations : List Operation) : ServiceRow :=
  ⟨submissionId, "user", "writer", .queued, operations.length, operations, none, none, 0, 0⟩

/-- The invalid path comes first. -/
def invalidFirst : Service :=
  { serviceOf registered with rows := [rowOf "0" [putText "2" "/x" "y"], rowOf "1" [putText "1" "d/a" "x"]] }

/-- A queue in which the second submission has an absolute path. -/
def halfValid : Service :=
  { serviceOf registered with rows := [rowOf "0" [putText "1" "d/a" "x"], rowOf "1" [putText "2" "/x" "y"]] }

private theorem halfValid_sound :
    halfValid.Sound := ⟨registered_consistent.wf, registered_consistent.distinct, by decide⟩

end Service

end Ctxd

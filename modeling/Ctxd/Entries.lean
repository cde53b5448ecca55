import Ctxd.Journal

/-!
# Placing, renaming and removing the file of a document

What the programs of the tree entries do from a well-formed disk: either they complete and leave an edit of the files
together with its callback (`Completed`), or they raise and leave at most some directories above their target
(`Aborted`).  They leave such directories only if a call faults or the target does not fit.  A rename of a directory is
another matter: only its callback is known, or that it raises (`Halted`).
-/

namespace Ctxd

open Program

namespace Fs

/-- The journal is untouched; uuids may have been drawn. -/
structure Onward (s s' : Fs) : Prop where
  uuids : s.uuids ≤ s'.uuids
  undoStack : s'.undoStack = s.undoStack
  cleanupStack : s'.cleanupStack = s.cleanupStack
  quiet : s.fault = none → s'.fault = none

theorem SameJournal.onward {s s' : Fs} (h : s.SameJournal s') : s.Onward s' :=
  ⟨h.uuids.ge, h.undoStack, h.cleanupStack, h.quiet⟩

theorem Onward.trans {s s' s'' : Fs} (h : s.Onward s') (h' : s'.Onward s'') : s.Onward s'' :=
  ⟨h.uuids.trans h'.uuids, h'.undoStack.trans h.undoStack, h'.cleanupStack.trans h.cleanupStack,
    fun hq => h'.quiet (h.quiet hq)⟩

theorem Onward.draw (s : Fs) : s.Onward { s with uuids := s.uuids + 1 } := ⟨Nat.le_succ _, rfl, rfl, id⟩

end Fs

/-- Why a file cannot be put at `target`. -/
def Blocked (s : Fs) (target : Loc) : Prop :=
  s.fault ≠ none ∨ ¬s.disk.Fits target ∨ (∃ r, r <:+ target.path.tail ∧ s.disk.file ⟨target.area, r⟩ ≠ none) ∨
    s.disk.node target = some .dir

/-- What a program that raises leaves behind: the files of before, and directories at `q` and above. -/
structure Aborted (u : String) (s s' : Fs) (target : Loc) : Prop extends s.Onward s' where
  left : ∃ q, q <:+ target.path.tail ∧ (q = [] ∨ s.fault ≠ none ∨ ¬s.disk.Fits target) ∧
    s'.disk.node ⟨.users u, q⟩ = some .dir ∧ Below s'.uuids {r | r <:+ q} u s.disk s'.disk

/-- What a program leaves behind that raises for another reason. -/
structure Halted (u : String) (s s' : Fs) : Prop extends s.Onward s' where
  left : ∃ q, s'.disk.node ⟨.users u, q⟩ = some .dir ∧ Below s'.uuids {r | r <:+ q} u s.disk s'.disk

private theorem Aborted.halted {u : String} {s s' : Fs} {target : Loc} (h : Aborted u s s' target) : Halted u s s' := by
  obtain ⟨hon, q, -, -, hdir, hbelow⟩ := h
  exact ⟨hon, q, hdir, hbelow⟩

/-- What a program that raises before it changes the tree leaves behind. -/
structure Unharmed (u : String) (s s' : Fs) : Prop extends s.Onward s' where
  below : Below s'.uuids {r | r <:+ []} u s.disk s'.disk

private theorem Unharmed.aborted {u : String} {s s' : Fs} (h : Unharmed u s s') (target : Loc) :
    Aborted u s s' target := by
  exact ⟨h.toOnward, [], List.nil_suffix, .inl rfl, rfl, h.below⟩

/-- What a program that returns leaves behind: an edit, its callback and the clean-up of its backup. -/
structure Completed (u : String) (s s' : Fs) (undo : Undo) (target : Loc) (backup : Option Loc) (made : TreePath)
    (files : Loc → Option ByteArray) : Prop where
  edit : Edit u s.disk s'.disk made files
  uuids : s.uuids ≤ s'.uuids
  fresh : s'.disk.FreshFrom s'.uuids
  undoStack : s'.undoStack = undo :: s.undoStack
  cleanupStack : s'.cleanupStack = s.cleanupStack ++ [.unlinkBackup backup]
  quiet : s.fault = none → s'.fault = none
  saved : BackupOf s'.uuids s.disk target backup

section

variable {n : Nat} {T : Set TreePath} {u : String} {d e : Disk} {s s' : Fs}

/-- Dropping a new undo file keeps the comparison to the disk before. -/
private theorem Below.unlink {l : Option Loc} (h : Below n T u d s.disk)
    (hl : ∀ x, l = some x → x.area = .undo ∧ d.file x = none) :
    Ends (unlinkIfExists l)
      (fun _ s' => s.SameJournal s' ∧ Below n T u d s'.disk ∧
        ∀ l, s.disk.node l = some .dir → s'.disk.node l = some .dir)
      (fun _ s' => s.SameJournal s' ∧ Below n T u d s'.disk ∧
        ∀ l, s.disk.node l = some .dir → s'.disk.node l = some .dir)
      s := by
  cases l with
  | none => exact ⟨.refl s, h, fun _ hl => hl⟩
  | some l =>
    obtain ⟨ha, hfree⟩ := hl l rfl
    refine (unlinkIfExists_edit (u := u) h.wf l).mono (fun _ s' hs' => ⟨hs'.1, ?_, hs'.2.2⟩)
      (fun _ s' hs' => ⟨hs'.1.toSameJournal, ?_⟩)
    · have hedit := hs'.2.1
      refine h.of_edit hedit rfl (fun v p => ?_) (fun p y hy => ?_) (update_undrawn h.fresh.file (.inl rfl))
        (fun l' hl' => ?_)
      · rw [Function.update_of_ne (by rintro rfl; cases ha), h.files]
      · rw [Function.update_of_ne (by rintro rfl; rw [hfree] at hy; cases hy), h.undoFiles p y hy]
      · rcases hedit.dirs l' hl' with hl' | ⟨-, hl'⟩
        · exact h.dirs l' hl'
        · exact .inl (if_pos (List.suffix_nil.1 hl'))
    · rw [hs'.1.disk]
      exact ⟨h, fun _ hl => hl⟩

/-- An edit that keeps the tree files and only adds undo files. -/
theorem Edit.below {made : TreePath} {files : Loc → Option ByteArray} (h : Edit u d e made files)
    (hfresh : e.FreshFrom n) (hfiles : ∀ v p, files ⟨.users v, p⟩ = d.file ⟨.users v, p⟩)
    (hundo : ∀ p x, d.file ⟨.undo, p⟩ = some x → files ⟨.undo, p⟩ = some x) : Below n {r | r <:+ made} u d e :=
  ⟨h.wf, h.pathMax, fun v p => (h.file _).trans (hfiles v p), fun p x hx => (h.file _).trans (hundo p x hx), hfresh,
    h.dirs⟩

/-- The files when a backup of `target` has been made. -/
def backedUp (d : Disk) (target : Loc) (backup : Option Loc) (l : Loc) : Option ByteArray :=
  if backup = some l then d.file target else d.file l

/-- A disk with a new backup has the files of before. -/
private theorem below_backedUp {m : Nat} {made : TreePath} {target : Loc} {backup : Option Loc}
    (h : Edit u d e made (backedUp d target backup)) (hfresh : e.FreshFrom n) (hb : BackupOf m d target backup) :
    Below n {r | r <:+ made} u d e := by
  refine h.below hfresh (fun v p => ?_) (fun p x hx => ?_)
  · rw [backedUp, if_neg]
    intro heq
    cases (hb.free _ heq).1
  · rw [backedUp, if_neg, hx]
    intro heq
    rw [(hb.free _ heq).2] at hx
    cases hx

/-- The files when the temporary name of a new file has replaced `target`. -/
private theorem placed_eq {target tmp : Loc} {backup : Option Loc} {y : ByteArray} (htmp : d.file tmp = none)
    (hne : backup ≠ some tmp) (l : Loc) :
    Function.update (Function.update (Function.update (backedUp d target backup) tmp (some y)) tmp none) target (some y)
      l = placed d target backup y l := by
  unfold placed
  by_cases hl : l = target
  · rw [hl, Function.update_self, if_pos rfl]
  · rw [Function.update_of_ne hl, if_neg hl]
    by_cases hltmp : l = tmp
    · rw [hltmp, Function.update_self, if_neg hne, htmp]
    · rw [Function.update_of_ne hltmp, Function.update_of_ne hltmp]
      rfl

/-- A step that has succeeded enters its callback and the clean-up of its backup. -/
private theorem completed_of_pushed {undo : Undo} {target : Loc} {backup : Option Loc} {made : TreePath}
    {files : Loc → Option ByteArray} (hon : s.Onward s') (hedit : Edit u s.disk s'.disk made files)
    (hfresh : s'.disk.FreshFrom s'.uuids) (hsaved : BackupOf s'.uuids s.disk target backup) :
    Ends (pushUndo undo >>= fun _ => pushCleanup (.unlinkBackup backup))
      (fun _ s'' => Completed u s s'' undo target backup made files) (fun _ _ => False) s' := by
  unfold pushUndo pushCleanup
  rw [ends_bind, ends_modify, ends_modify]
  exact ⟨hedit, hon.uuids, hfresh, congrArg _ hon.undoStack,
    congrArg (· ++ [Cleanup.unlinkBackup backup]) hon.cleanupStack, hon.quiet, hsaved⟩

/-- The directories that a step has emptied are no files. -/
private theorem removeEmptyParents_edit (l : Loc) (h : s.disk.WF) :
    Ends (removeEmptyParents u l) (fun _ s' => s.SameJournal s' ∧ Edit u s.disk s'.disk [] s.disk.file)
      (fun _ _ => False) s := by
  refine (removeEmptyParents_spec u l h).mono (fun _ s' hs' => ⟨hs'.1, ?_⟩) (fun _ _ hf => hf)
  rcases hs'.2 with ⟨-, hprune⟩ | ⟨-, hd⟩
  · exact hprune.edit
  · rw [hd]
    exact .refl h

private theorem backupTreeEntry_spec (h : s.disk.WF) (hf : s.disk.FreshFrom s.uuids) (target : Loc) :
    Ends (backupTreeEntry target)
      (fun backup s' => s.Onward s' ∧ BackupOf s'.uuids s.disk target backup ∧
        (∀ b, backup = some b → b = undoLoc .backup s.uuids) ∧ s'.disk.FreshFrom s'.uuids ∧
        Edit u s.disk s'.disk [] (backedUp s.disk target backup) ∧ (backup = none → s'.disk = s.disk) ∧
        ∀ l, s.disk.node l = some .dir → s'.disk.node l = some .dir)
      (fun _ s' => s.Onward s' ∧ s'.disk = s.disk ∧
        (s.fault ≠ none ∨ ¬s.disk.Fits target ∨ s.disk.node target = some .dir)) s := by
  unfold backupTreeEntry
  rw [ends_bind]
  refine (pathExists_spec h target).mono (fun found s1 hs1 => ?_) (fun _ s1 hs1 => ?_)
  · obtain ⟨hk, rfl⟩ := hs1
    refine Ends.ite (fun hfound => ?_) (fun hfound => ?_)
    · rw [ends_bind, ends_undoPath, ends_bind]
      have hw1 : s1.disk.WF := by rw [hk.disk]; exact h
      have hfree : s.disk.node (undoLoc .backup s1.uuids) = none := hf _ _ hk.uuids.ge
      cases hfile : s.disk.file target with
      | none =>
        have hdir : s.disk.node target = some .dir := by
          rcases Disk.file_eq_none_iff.1 hfile with hn | hn
          · rw [hn] at hfound; cases hfound
          · exact hn
        refine (call_spec _ _).mono (fun _ s2 hs2 => ?_) (fun _ s2 hs2 => ?_)
        · obtain ⟨x, hx, -⟩ := hw1.link_ok hs2.1
          rw [hk.disk, hdir] at hx
          cases hx
        · refine ⟨?_, hs2.1.disk.trans hk.disk, .inr (.inr hdir)⟩
          exact (hk.toSameJournal.onward.trans (.draw s1)).trans hs2.1.toSameJournal.onward
      | some x =>
        refine (call_link (u := u) (s := { s1 with uuids := s1.uuids + 1 }) hw1 (by rw [hk.disk, hfile])
          (by rw [hk.disk, hfree])).mono (fun _ s2 hs2 => ?_) (fun _ s2 hs2 => ?_)
        · obtain ⟨hj2, hedit, hdirs⟩ := hs2
          rw [hk.disk] at hedit hdirs
          have huuids : s2.uuids = s.uuids + 1 := by rw [hj2.uuids, ← hk.uuids]
          rw [ends_pure]
          refine ⟨(hk.toSameJournal.onward.trans (.draw s1)).trans hj2.onward, ⟨⟨_, _, ?_, rfl⟩, hfree, x, hfile⟩, ?_,
            ?_, ?_, by simp, hdirs⟩
          · rw [huuids, hk.uuids]; exact Nat.lt_succ_self _
          · rintro b hb
            cases hb
            rw [hk.uuids]
          · have hf2 : s.disk.FreshFrom s2.uuids := hf.mono (by omega)
            refine hedit.freshFrom hf2 (update_undrawn hf2.file (.inr fun kind m hm heq => ?_))
            have hdrawn := undoLoc_injective heq
            rw [hk.uuids] at hdrawn
            omega
          · refine hedit.congr fun l => ?_
            rw [Function.update_apply, backedUp, hfile]
            simp only [Option.some.injEq, eq_comm]
        · refine ⟨?_, hs2.1.disk.trans hk.disk, .inl fun hq => hs2.2 (hk.quiet hq)⟩
          exact (hk.toSameJournal.onward.trans (.draw s1)).trans hs2.1.toSameJournal.onward
    · have hnone : s.disk.node target = none := by simpa using hfound
      rw [ends_pure]
      refine ⟨hk.toSameJournal.onward, hnone, by simp, ?_, ?_, fun _ => hk.disk, ?_⟩
      · rw [hk.disk, hk.uuids]; exact hf
      · rw [hk.disk]
        exact (Edit.refl h).congr fun l => by simp [backedUp]
      · rw [hk.disk]; exact fun _ hl => hl
  · refine ⟨hs1.1.toSameJournal.onward, hs1.1.disk, ?_⟩
    exact hs1.2.imp id .inl

/-- The handlers drop the undo files of the step and raise again. -/
private theorem discard {α : Type} {x y : Option Loc} {err : StoreError} {Q : α → Fs → Prop}
    (h : Below n T u d s.disk) (hx : ∀ l, x = some l → l.area = .undo ∧ d.file l = none)
    (hy : ∀ l, y = some l → l.area = .undo ∧ d.file l = none) :
    Ends (unlinkIfExists x >>= fun _ => unlinkIfExists y >>= fun _ => throw err) Q
      (fun _ s' => s.SameJournal s' ∧ Below n T u d s'.disk ∧
        ∀ l, s.disk.node l = some .dir → s'.disk.node l = some .dir)
      s := by
  rw [ends_bind]
  refine (h.unlink hx).mono (fun _ s1 hs1 => ?_) (fun _ _ hs1 => hs1)
  obtain ⟨hj1, hbelow1, hdirs1⟩ := hs1
  rw [ends_bind]
  refine (hbelow1.unlink hy).mono (fun _ s2 hs2 => ?_) (fun _ s2 hs2 => ?_) <;>
    exact ⟨hj1.trans hs2.1, hs2.2.1, fun l hl => hs2.2.2 l (hdirs1 l hl)⟩

/-- The backup of a target, seen from the disk before its directories were made. -/
private theorem BackupOf.of_addsDirs {target : Loc} {backup : Option Loc} (h : BackupOf n e target backup)
    (hadd : d.AddsDirs e target.area target.path.tail) : BackupOf n d target backup := by
  cases backup with
  | none =>
    have hn : e.node target = none := h
    rw [hadd.node] at hn
    split at hn
    · cases hn
    · exact hn
  | some b =>
    obtain ⟨hb, hfree, x, hx⟩ := h
    refine ⟨hb, ?_, x, by rw [← hadd.file_eq, hx]⟩
    rw [hadd.node] at hfree
    split at hfree
    · cases hfree
    · exact hfree

/-- `mkdirParents` above a target of the user's tree, as the first thing a program does. -/
private theorem mkdirParents_target (h : s.disk.WF) (hf : s.disk.FreshFrom s.uuids) {target : Loc}
    (ht : target.area = .users u ∨ target.path.tail = []) :
    Ends (mkdirParents target.area target.parent.path)
      (fun _ s' => s.SameJournal s' ∧ s.disk.AddsDirs s'.disk target.area target.path.tail ∧
        Edit u s.disk s'.disk target.path.tail s.disk.file ∧ s'.disk.FreshFrom s.uuids)
      (fun _ s' => Aborted u s s' target ∧ Blocked s target) s := by
  refine (mkdirParents_spec target.area target.path.tail h).mono (fun _ s' hs' => ?_) (fun _ s' hs' => ?_)
  · have hedit : Edit u s.disk s'.disk target.path.tail s.disk.file := hs'.2.edit ht
    exact ⟨hs'.1, hs'.2, hedit, hedit.freshFrom hf hf.file⟩
  · obtain ⟨hj, hblock, q, hq, hadd, hbad⟩ := hs'
    have hfits : ¬s.disk.Fits ⟨target.area, target.path.tail⟩ → ¬s.disk.Fits target :=
      fun hn hfit => hn (Disk.Fits.suffix (p := target.path) hfit (List.tail_suffix _))
    have haq : target.area = .users u ∨ q = [] := by
      rcases ht with ht | ht
      · exact .inl ht
      · rw [ht] at hq
        exact .inr (List.suffix_nil.1 hq)
    have hedit : Edit u s.disk s'.disk q s.disk.file := hadd.edit haq
    refine ⟨⟨hj.onward, q, hq, hbad.imp id (.imp id hfits), ?_, ?_⟩, ?_⟩
    · rcases haq with ha | rfl
      · rw [ha] at hadd
        rw [hadd.node]
        exact if_pos ⟨rfl, List.suffix_refl _⟩
      · rfl
    · refine hedit.below ?_ (fun _ _ => rfl) (fun _ _ hx => hx)
      rw [hj.uuids]
      exact hedit.freshFrom hf hf.file
    · rcases hblock with hb | hb | ⟨r, hr, x, hx⟩
      · exact .inl hb
      · exact .inr (.inl (hfits hb))
      · refine .inr (.inr (.inl ⟨r, hr, ?_⟩))
        rw [Disk.file_eq_some_iff.2 hx]
        simp

/-- A program that raises after the directories above its target have been made. -/
private theorem aborted_of_made {target : Loc} (hon : s.Onward s')
    (ht : target.area = .users u ∨ target.path.tail = [])
    (hparent : s'.disk.node target.parent = some .dir) (hbad : s.fault ≠ none ∨ ¬s.disk.Fits target)
    (hbelow : Below s'.uuids {r | r <:+ target.path.tail} u s.disk s'.disk) : Aborted u s s' target := by
  refine ⟨hon, target.path.tail, List.suffix_refl _, .inr hbad, ?_, hbelow⟩
  rcases ht with ht | ht
  · rwa [Loc.parent, ht] at hparent
  · rw [ht]
    rfl

/-- The backup of a target cannot be made: a call faults, the target does not fit, or it is a directory. -/
private theorem aborted_of_backup {target : Loc} {s1 : Fs} (h : s.disk.WF) (hf : s.disk.FreshFrom s.uuids)
    (ht : target.area = .users u ∨ target.path.tail = []) (hon : s.Onward s') (hd : s'.disk = s1.disk)
    (hadd : s.disk.AddsDirs s1.disk target.area target.path.tail)
    (hbad : s.fault ≠ none ∨ ¬s.disk.Fits target ∨ s.disk.node target = some .dir) :
    Aborted u s s' target ∧ Blocked s target := by
  have hfresh : ∀ made, Edit u s.disk s1.disk made s.disk.file → s'.disk.FreshFrom s'.uuids := by
    intro made hedit
    rw [hd]
    exact (hedit.freshFrom hf hf.file).mono hon.uuids
  have key : ∀ hbad : s.fault ≠ none ∨ ¬s.disk.Fits target, Aborted u s s' target := by
    intro hbad
    have hedit : Edit u s.disk s1.disk target.path.tail s.disk.file := hadd.edit ht
    refine aborted_of_made hon ht ?_ hbad ?_
    · rw [hd, hadd.node]
      exact if_pos ⟨rfl, List.suffix_refl _⟩
    have := hedit.below (n := s'.uuids) (by rw [← hd]; exact hfresh _ hedit) (fun _ _ => rfl) (fun _ _ hx => hx)
    rwa [← hd] at this
  rcases hbad with hb | hb | hdir
  · exact ⟨key (.inl hb), .inl hb⟩
  · exact ⟨key (.inr hb), .inr (.inl hb)⟩
  · -- the target is there, so no directory had to be made
    have habove : ∀ r, r <:+ target.path.tail → s.disk.node ⟨target.area, r⟩ = some .dir := by
      intro r hr
      by_cases e : r = target.path
      · rw [e]; exact hdir
      · exact h.ancestor (p := target.path) (by rw [show s.disk.node ⟨target.area, target.path⟩ = _ from hdir]; rfl)
          (hr.trans (List.tail_suffix _)) e
    have hedit : Edit u s.disk s1.disk [] s.disk.file := hadd.edit_of_dir habove
    refine ⟨Unharmed.aborted ⟨hon, ?_⟩ target, .inr (.inr (.inr hdir))⟩
    · have := hedit.below (n := s'.uuids) (by rw [← hd]; exact hfresh _ hedit) (fun _ _ => rfl) (fun _ _ hx => hx)
      rwa [← hd] at this

/-- The target's directories are there and its backup is made. -/
private structure Prepared (u : String) (s s' : Fs) (target : Loc) (backup : Option Loc) : Prop extends
    s.Onward s' where
  edit : Edit u s.disk s'.disk target.path.tail (backedUp s.disk target backup)
  fresh : s'.disk.FreshFrom s'.uuids
  saved : BackupOf s'.uuids s.disk target backup
  new : ∀ b, backup = some b → ∃ m, s.uuids ≤ m ∧ b = undoLoc .backup m
  parent : s'.disk.node target.parent = some .dir
  notDir : s'.disk.node target ≠ some .dir

private theorem backup_prepared {target : Loc} {s1 s2 : Fs} (h : s.disk.WF) (hf : s.disk.FreshFrom s.uuids)
    (ht : target.area = .users u ∨ target.path.tail = []) (htp : target.path ≠ []) (hon : s.Onward s2)
    (hd : s2.disk = s1.disk) (hadd : s.disk.AddsDirs s1.disk target.area target.path.tail) :
    Ends (backupTreeEntry target) (fun backup s' => s2.uuids ≤ s'.uuids ∧ Prepared u s s' target backup)
      (fun _ s' => Aborted u s s' target ∧ Blocked s target) s2 := by
  have hedit : Edit u s.disk s2.disk target.path.tail s.disk.file := by rw [hd]; exact hadd.edit ht
  have hfresh2 : s2.disk.FreshFrom s2.uuids :=
    (hedit.freshFrom hf hf.file).mono hon.uuids
  have hadd2 : s.disk.AddsDirs s2.disk target.area target.path.tail := by rw [hd]; exact hadd
  have htarget : s2.disk.node target = s.disk.node target := by
    rw [hadd2.node, if_neg]
    rintro ⟨-, hsuf⟩
    exact not_suffix_tail htp hsuf
  refine (backupTreeEntry_spec (u := u) hedit.wf hfresh2 target).mono (fun b s3 hs3 => ?_) (fun _ s3 hs3 => ?_)
  · obtain ⟨hon3, hb, hnew, hfresh, hedit3, -, hkeep⟩ := hs3
    refine ⟨hon3.uuids, hon.trans hon3, (hedit.trans hedit3 List.nil_suffix).congr fun l => ?_, hfresh,
      hb.of_addsDirs hadd2,
      fun b' hb' => ⟨_, hon.uuids, hnew b' hb'⟩, ?_, fun hdir => ?_⟩
    · unfold backedUp
      rw [hedit.file_eq]
    · refine hkeep _ ?_
      rw [hadd2.node, if_pos ⟨rfl, List.suffix_refl _⟩]
    · rcases hedit3.dirs _ hdir with hdir | ⟨-, hdir⟩
      · exact hb.not_dir hdir
      · exact htp (List.suffix_nil.1 hdir)
  · refine aborted_of_backup h hf ht (hon.trans hs3.1) hs3.2.1 hadd2 ?_
    rw [htarget, hedit.fits_iff] at hs3
    exact hs3.2.2.imp (fun hfault hq => hfault (hon.quiet hq)) id

private theorem Prepared.below {target : Loc} {backup : Option Loc} (h : Prepared u s s' target backup) :
    Below s'.uuids {r | r <:+ target.path.tail} u s.disk s'.disk :=
  below_backedUp h.edit h.fresh h.saved

/-- The handler of a program whose last call has failed on a prepared target. -/
private theorem Prepared.discard {target : Loc} {backup : Option Loc} {α : Type} {err : StoreError}
    {Q : α → Fs → Prop} {tmp : Option Loc} {s2 : Fs} (h : Prepared u s s' target backup)
    (ht : target.area = .users u ∨ target.path.tail = [])
    (htmp : ∀ l, tmp = some l → l.area = .undo ∧ s.disk.file l = none) (hon : s.Onward s2)
    (hbelow : Below s2.uuids {r | r <:+ target.path.tail} u s.disk s2.disk)
    (hparent : s2.disk.node target.parent = some .dir) (hbad : s.fault ≠ none ∨ ¬s.disk.Fits target) :
    Ends (unlinkIfExists tmp >>= fun _ => unlinkIfExists backup >>= fun _ => throw err) Q
      (fun _ s' => Aborted u s s' target ∧ Blocked s target) s2 := by
  refine (Ctxd.discard hbelow htmp h.saved.free).mono (fun _ _ hq => hq) (fun _ s3 hs3 => ⟨?_, ?_⟩)
  · refine aborted_of_made (hon.trans hs3.1.onward) ht (hs3.2.2 _ hparent) hbad ?_
    rw [hs3.1.uuids]
    exact hs3.2.1
  · exact hbad.imp id .inl

theorem replaceTreeEntry_spec {user path : String} {object : Loc} {y : ByteArray} (h : s.disk.WF)
    (hf : s.disk.FreshFrom s.uuids) (hobj : s.disk.file object = some y) (hoa : object.area ≠ .undo)
    (htp : (treeLoc user path).path ≠ []) :
    Ends (replaceTreeEntry user path object)
      (fun _ s' => ∃ backup, Completed user s s' (.replaceEntry user (treeLoc user path) backup) (treeLoc user path)
        backup (treeLoc user path).path.tail (placed s.disk (treeLoc user path) backup y))
      (fun _ s' => Aborted user s s' (treeLoc user path) ∧ Blocked s (treeLoc user path)) s := by
  unfold replaceTreeEntry
  simp only
  generalize htdef : treeLoc user path = t at *
  have ht : t.area = .users user ∨ t.path.tail = [] := by rw [← htdef]; exact .inl rfl
  have hundo : ∀ kind m, undoLoc kind m ≠ t := by
    intro kind m heq
    rw [← htdef] at heq
    cases congrArg Loc.area heq
  -- the folders of the target first, then a backup of what is there
  rw [ends_bind]
  refine (mkdirParents_target h hf ht).mono (fun _ s1 hs1 => ?_) (fun _ _ hs1 => hs1)
  obtain ⟨hj1, hadd, -, -⟩ := hs1
  rw [ends_bind, ends_undoPath, ends_bind]
  have hon2 : s.Onward { s1 with uuids := s1.uuids + 1 } := hj1.onward.trans (.draw s1)
  refine (backup_prepared h hf ht htp hon2 rfl hadd).mono (fun b s3 hs3 => ?_) (fun _ _ hs3 => hs3)
  obtain ⟨hlt, hs3⟩ := hs3
  have htmp : ∀ l, some (undoLoc .replace s1.uuids) = some l → l.area = .undo ∧ s.disk.file l = none := by
    rintro l ⟨⟩
    exact ⟨rfl, hf.file _ _ hj1.uuids.ge⟩
  have hbtmp : b ≠ some (undoLoc .replace s1.uuids) := by
    rintro rfl
    obtain ⟨m, hm, e⟩ := hs3.new _ rfl
    cases (undoLoc_inj.1 e).1
  have hfree : s3.disk.node (undoLoc .replace s1.uuids) = none := by
    refine hs3.edit.node_eq_none (by simp) ?_ ?_
    · rw [hf _ _ hj1.uuids.ge]; simp
    · rw [backedUp, if_neg hbtmp]
      exact (htmp _ rfl).2
  have hobj3 : s3.disk.file object = some y := by
    rw [hs3.edit.file, backedUp, if_neg, hobj]
    rintro rfl
    exact hoa hs3.saved.area
  -- the object is linked under a temporary name, which then replaces the target
  rw [ends_bind, ends_tryCatch, ends_bind]
  refine (call_link (u := user) hs3.edit.wf hobj3 hfree).mono (fun _ s4 hs4 => ?_) (fun _ s4 hs4 => ?_)
  · obtain ⟨hj4, hput, hdirs4⟩ := hs4
    have htmp4 : s4.disk.file (undoLoc .replace s1.uuids) = some y := by rw [hput.file, Function.update_self]
    have hall := hs3.edit.trans hput List.nil_suffix
    rw [hs3.edit.file_eq] at hall
    have hfresh4 : s4.disk.FreshFrom s4.uuids := by
      rw [hj4.uuids]
      refine hput.freshFrom hs3.fresh (update_undrawn hs3.fresh.file (.inr fun kind m hm heq => ?_))
      have hdrawn := undoLoc_injective heq
      have hlt' : s1.uuids + 1 ≤ s3.uuids := hlt
      omega
    have hnodir : s4.disk.node t ≠ some .dir := by
      intro hdir
      rcases hput.dirs _ hdir with hdir | ⟨-, hdir⟩
      · exact hs3.notDir hdir
      · exact htp (List.suffix_nil.1 hdir)
    refine (call_replace (u := user) hput.wf htmp4 (hundo _ _) htp (hdirs4 _ hs3.parent) hnodir).mono
      (fun _ s5 hs5 => ?_) (fun e s5 hs5 => ?_)
    · obtain ⟨hj5, hren, -⟩ := hs5
      have hedit := hall.trans hren List.nil_suffix
      rw [hall.file_eq] at hedit
      have hj := hj4.trans hj5
      refine (completed_of_pushed (hs3.toOnward.trans hj.onward) (hedit.congr (placed_eq (htmp _ rfl).2 hbtmp)) ?_
        ?_).mono (fun _ _ hs' => ⟨b, hs'⟩) (fun _ _ hf => hf.elim)
      · rw [hj5.uuids]
        exact hren.freshFrom hfresh4 (update_undrawn (update_undrawn hfresh4.file (.inl rfl))
          (.inr fun _ _ _ => hundo _ _))
      · rw [hj.uuids]
        exact hs3.saved
    -- the replacement has failed: the temporary name and the backup are unlinked again
    · refine hs3.discard ht htmp (hs3.toOnward.trans (hj4.trans hs5.1.toSameJournal).onward) ?_
        (by rw [hs5.1.disk]; exact hdirs4 _ hs3.parent) ?_
      · rw [hs5.1.disk, hs5.1.uuids]
        refine hall.below hfresh4 (fun v p => ?_) (fun p x hx => ?_)
        · rw [Function.update_of_ne (by simp [undoLoc]), ← hs3.edit.file]
          exact hs3.below.files v p
        · rw [Function.update_of_ne, ← hs3.edit.file]
          · exact hs3.below.undoFiles p x hx
          · rintro e
            rw [e, (htmp _ rfl).2] at hx
            cases hx
      · exact hs5.2.imp (fun hfault hq => hfault (hj4.quiet (hs3.quiet hq)))
          fun hlong hfit => hlong ((hall.fits_iff t).2 hfit)
  -- the link has failed: a fault, since the temporary name was free
  · refine hs3.discard ht htmp (hs3.toOnward.trans hs4.1.toSameJournal.onward) ?_
      (by rw [hs4.1.disk]; exact hs3.parent) ?_
    · rw [hs4.1.disk, hs4.1.uuids]
      exact hs3.below
    · exact .inl fun hq => hs4.2 (hs3.quiet hq)

theorem renameTreeFile_spec {source target : Loc} {missingPath : String} (h : s.disk.WF)
    (hf : s.disk.FreshFrom s.uuids) (ht : Slot s.uuids u target) (hs : s.disk.node source ≠ some .dir)
    (hne : source ≠ target) :
    Ends (renameTreeFile u source target missingPath)
      (fun _ s' => ∃ x backup, s.disk.file source = some x ∧ backup ≠ some source ∧
        (target.area = source.area → ¬source.path <:+ target.path.tail) ∧
        Completed u s s' (.renameEntry u source target backup) target backup target.path.tail
          (renamed s.disk source target backup))
      (fun _ s' => Aborted u s s' target ∧ (Blocked s target ∨ s.disk.node source = none)) s := by
  have htp := ht.path_ne_nil
  have unchanged : ∀ s', s.Kept s' → Aborted u s s' target := by
    intro s' hk
    refine Unharmed.aborted ⟨hk.toSameJournal.onward, ?_⟩ target
    rw [hk.disk, hk.uuids]
    exact .refl h hf
  unfold renameTreeFile
  rw [ends_bind]
  refine (pathExists_spec h source).mono (fun found s0 hs0 => ?_) (fun _ s0 hs0 => ⟨unchanged s0 hs0.1, ?_⟩)
  · obtain ⟨hk0, rfl⟩ := hs0
    cases hx : s.disk.file source with
    | none =>
      have hnone := Disk.node_eq_none_of hx hs
      rw [if_neg (by rw [hnone]; simp)]
      exact ⟨unchanged s0 hk0, .inr hnone⟩
    | some x =>
      have hnode := Disk.file_eq_some_iff.1 hx
      rw [if_pos (by rw [hnode]; rfl), ends_bind]
      have hw0 : s0.disk.WF := by rw [hk0.disk]; exact h
      have hf0 : s0.disk.FreshFrom s0.uuids := by rw [hk0.disk, hk0.uuids]; exact hf
      -- looking for the source changes nothing, so what fails after it has failed from `s`
      have hback : ∀ s', Aborted u s0 s' target ∧ Blocked s0 target → Aborted u s s' target ∧
          (Blocked s target ∨ s.disk.node source = none) := by
        intro s' hs'
        obtain ⟨⟨hon, q, hq, hbad, hdir, hbelow⟩, hblock⟩ := hs'
        unfold Blocked at hblock
        rw [hk0.disk] at hbad hbelow hblock
        have hfault : s0.fault ≠ none → s.fault ≠ none := fun hf hq => hf (hk0.quiet hq)
        exact ⟨⟨hk0.toSameJournal.onward.trans hon, q, hq, hbad.imp id (.imp hfault id), hdir, hbelow⟩,
          .inl (hblock.imp hfault id)⟩
      refine (mkdirParents_target hw0 hf0 ht.area).mono (fun _ s1 hs1 => ?_) (fun _ s1 hs1 => hback s1 hs1)
      obtain ⟨hj1, hadd, -, -⟩ := hs1
      rw [ends_bind]
      refine (backup_prepared hw0 hf0 ht.area htp hj1.onward rfl hadd).mono (fun b s3 hs3 => ?_)
        (fun _ s3 hs3 => hback s3 hs3)
      obtain ⟨-, hs3⟩ := hs3
      have hbs : b ≠ some source := by
        intro hb
        have hfree := (hs3.saved.free _ hb).2
        rw [hk0.disk, hx] at hfree
        cases hfree
      have hx3 : s3.disk.file source = some x := by
        rw [hs3.edit.file, backedUp, if_neg hbs, hk0.disk, hx]
      rw [ends_bind, ends_tryCatch]
      refine (call_replace (u := u) hs3.edit.wf hx3 hne htp hs3.parent hs3.notDir).mono (fun _ s4 hs4 => ?_)
        (fun e s4 hs4 => ?_)
      · obtain ⟨hj4, hren, -⟩ := hs4
        rw [ends_bind]
        -- the folders that the source has left empty go too; there is no file in them
        refine (removeEmptyParents_edit (u := u) source.parent hren.wf).mono (fun _ s5 hs5 => ?_)
          (fun _ _ hf => hf.elim)
        obtain ⟨hj5, hprune⟩ := hs5
        have hall := (hs3.edit.trans hren List.nil_suffix).trans hprune List.nil_suffix
        rw [hren.file_eq, hs3.edit.file_eq, hk0.disk] at hall
        have hj := hj4.trans hj5
        have hrenamed : ∀ l, Function.update (Function.update (backedUp s.disk target b) source none) target (some x)
            l = renamed s.disk source target b l := by
          intro l
          unfold renamed
          by_cases e : l = target
          · rw [e, Function.update_self, if_pos rfl, hx]
          · rw [Function.update_of_ne e, if_neg e, Function.update_apply, backedUp]
        have hon : s.Onward s5 := hk0.toSameJournal.onward.trans (hs3.toOnward.trans hj.onward)
        refine (completed_of_pushed hon (hall.congr hrenamed) ?_ ?_).mono
          (fun _ _ hs' => ⟨x, b, rfl, hbs, fun ha hsuf => ?_, hs'⟩) (fun _ _ hf => hf.elim)
        · rw [hj.uuids]
          have hfresh : s4.disk.FreshFrom s3.uuids :=
            hren.freshFrom hs3.fresh (update_undrawn (update_undrawn hs3.fresh.file (.inl rfl))
              (.inr fun _ _ hm => ht.ne_undoLoc (hk0.uuids.ge.trans (hs3.uuids.trans hm))))
          exact hprune.freshFrom hfresh hfresh.file
        · rw [hj.uuids, ← hk0.disk]
          exact hs3.saved
        · refine hadd.noFile _ hsuf x ?_
          rw [hk0.disk, ha]
          exact hnode
      -- the backup is unlinked again before the error is raised
      · show Ends (unlinkIfExists none >>= fun _ => unlinkIfExists b >>= fun _ => throw e) _ _ s4
        refine (hs3.discard ht.area (by simp) (hs3.toOnward.trans hs4.1.toSameJournal.onward) ?_
          (by rw [hs4.1.disk]; exact hs3.parent) ?_).mono (fun _ _ hq => hq) (fun _ s5 hs5 => hback s5 hs5)
        · rw [hs4.1.disk, hs4.1.uuids]
          exact hs3.below
        · exact hs4.2.imp (fun hfault hq => hfault (hs3.quiet hq))
            fun hlong hfit => hlong ((hs3.edit.fits_iff target).2 hfit)
  · rcases hs0.2 with hf | hf
    · exact .inl (.inl hf)
    · refine .inr ?_
      cases hn : s.disk.node source with
      | none => rfl
      | some n => exact absurd (h.fits (by rw [hn]; rfl)) hf

/-- Empty directories are removed without an error, whatever the disk. -/
private theorem removeEmptyParents_total (user : String) (l : Loc) (s : Fs) :
    Ends (removeEmptyParents user l) (fun _ s' => s'.undoStack = s.undoStack) (fun _ _ => False) s := by
  have hup : ∀ (a : Area) (p : TreePath) (s : Fs),
      Ends (removeEmptyUpwards a p) (fun _ s' => s'.undoStack = s.undoStack) (fun _ _ => False) s := by
    intro a p
    induction p with
    | nil => exact fun s => rfl
    | cons name rest ih =>
      intro s
      unfold removeEmptyUpwards
      rw [ends_bind, ends_get]
      split
      · exact rfl
      · rw [ends_bind]
        exact ih _
  unfold removeEmptyParents
  exact Ends.ite (fun _ => hup _ _ s) (fun _ => rfl)

/-- A directory is renamed in the place of a file, or the program raises. -/
theorem renameTreeFile_dir {source target : Loc} {missingPath : String} (h : s.disk.WF)
    (hf : s.disk.FreshFrom s.uuids) (ht : Slot s.uuids u target) (hs : s.disk.node source = some .dir) :
    Ends (renameTreeFile u source target missingPath)
      (fun _ s' => ∃ backup, s'.undoStack = .renameEntry u source target backup :: s.undoStack)
      (fun _ s' => Halted u s s') s := by
  have htp := ht.path_ne_nil
  unfold renameTreeFile
  rw [ends_bind]
  refine (pathExists_spec h source).mono (fun found s0 hs0 => ?_) (fun _ s0 hs0 => ?_)
  · obtain ⟨hk0, rfl⟩ := hs0
    rw [if_pos (by rw [hs]; rfl), ends_bind]
    have hw0 : s0.disk.WF := by rw [hk0.disk]; exact h
    have hf0 : s0.disk.FreshFrom s0.uuids := by rw [hk0.disk, hk0.uuids]; exact hf
    have hback : ∀ s', Halted u s0 s' → Halted u s s' := by
      intro s' hs'
      obtain ⟨hon, q, hdir, hbelow⟩ := hs'
      rw [hk0.disk] at hbelow
      exact ⟨hk0.toSameJournal.onward.trans hon, q, hdir, hbelow⟩
    refine (mkdirParents_target hw0 hf0 ht.area).mono (fun _ s1 hs1 => ?_) (fun _ s1 hs1 => hback s1 hs1.1.halted)
    obtain ⟨hj1, hadd, -, -⟩ := hs1
    rw [ends_bind]
    refine (backup_prepared hw0 hf0 ht.area htp hj1.onward rfl hadd).mono (fun b s3 hs3 => ?_)
      (fun _ s3 hs3 => hback s3 hs3.1.halted)
    obtain ⟨-, hs3⟩ := hs3
    rw [ends_bind, ends_tryCatch]
    refine (call_spec _ s3).mono (fun _ s4 hs4 => ?_) (fun e s4 hs4 => ?_)
    · rw [ends_bind]
      refine (removeEmptyParents_total u source.parent s4).mono (fun _ s5 hs5 => ?_) (fun _ _ hf => hf.elim)
      unfold pushUndo pushCleanup
      rw [ends_bind, ends_modify, ends_modify]
      refine ⟨b, ?_⟩
      show Undo.renameEntry u source target b :: s5.undoStack = _
      rw [hs5, hs4.2.undoStack, hs3.undoStack, hk0.undoStack]
    · -- the backup is unlinked again before the error is raised
      show Ends (unlinkIfExists none >>= fun _ => unlinkIfExists b >>= fun _ => throw e) _ _ s4
      have hbelow : Below s4.uuids {r | r <:+ target.path.tail} u s0.disk s4.disk := by
        rw [hs4.1.disk, hs4.1.uuids]
        exact hs3.below
      refine (discard hbelow (by simp) hs3.saved.free).mono (fun _ _ hq => hq) (fun _ s5 hs5 => ?_)
      have hparent : s5.disk.node target.parent = some .dir := by
        refine hs5.2.2 _ ?_
        rw [hs4.1.disk]
        exact hs3.parent
      refine hback s5 ⟨hs3.toOnward.trans (hs4.1.toSameJournal.onward.trans hs5.1.onward), target.path.tail, ?_, ?_⟩
      · rcases ht.area with ha | ha
        · rwa [Loc.parent, ha] at hparent
        · rw [ha]
          rfl
      · rw [hs5.1.uuids]
        exact hs5.2.1
  · refine ⟨hs0.1.toSameJournal.onward, [], rfl, ?_⟩
    rw [hs0.1.disk, hs0.1.uuids]
    exact .refl h hf

/-- What makes an unlink fail: a fault, a file above the target, a path too long, a folder at the target. -/
private theorem removable_of_unblocked {target : Loc} {backup : Option Loc} (ha : target.area = .users u)
    (htp : target.path ≠ []) (hb : BackupOf n s.disk target backup)
    (hedit : Edit u s.disk e [] (backedUp s.disk target backup)) (hclear : ¬Blocked s target) : e.Removable target := by
  unfold Blocked at hclear
  simp only [not_or, not_not, not_exists, not_and] at hclear
  obtain ⟨-, hfit, habove, hnodir⟩ := hclear
  refine ⟨(hedit.fits_iff target).2 hfit, fun hdir => ?_, fun r hr hne data hfile => ?_⟩
  · rcases hedit.dirs _ hdir with hdir | ⟨-, hdir⟩
    · exact hnodir hdir
    · exact htp (List.suffix_nil.1 hdir)
  · have hproper : r <:+ target.path.tail := by
      cases hp : target.path with
      | nil => exact absurd hp htp
      | cons name rest =>
        rw [hp] at hr hne
        exact (List.suffix_cons_iff.1 hr).resolve_left hne
    have hnone := habove r hproper
    rw [← Disk.file_eq_some_iff, hedit.file, backedUp, if_neg, hnone] at hfile
    · cases hfile
    · intro heq
      have harea := (hb.free _ heq).1
      rw [ha] at harea
      cases harea

theorem removeTreeEntry_spec {user path : String} (h : s.disk.WF) (hf : s.disk.FreshFrom s.uuids)
    (htp : (treeLoc user path).path ≠ []) :
    Ends (removeTreeEntry user path)
      (fun _ s' => (s.Onward s' ∧ s'.disk = s.disk ∧ s.disk.node (treeLoc user path) = none) ∨
        ∃ b, Completed user s s' (.removeEntry (treeLoc user path) (some b)) (treeLoc user path) (some b) []
          (removed s.disk (treeLoc user path) (some b)))
      (fun _ s' => Unharmed user s s' ∧ Blocked s (treeLoc user path)) s := by
  unfold removeTreeEntry
  simp only
  generalize htdef : treeLoc user path = t at *
  have hta : t.area = .users user := by rw [← htdef]; rfl
  rw [ends_bind]
  refine (backupTreeEntry_spec (u := user) h hf t).mono (fun b s1 hs1 => ?_) (fun _ s1 hs1 => ?_)
  · obtain ⟨hon, hb, -, hfresh, hedit, hsame, -⟩ := hs1
    have hbt : s1.disk.file t = s.disk.file t := by
      rw [hedit.file, backedUp, if_neg]
      intro heq
      have harea := (hb.free _ heq).1
      rw [hta] at harea
      cases harea
    rw [ends_bind, ends_tryCatch, ends_bind]
    refine (call_unlink (u := user) hedit.wf t).mono (fun _ s2 hs2 => ?_) (fun e s2 hs2 => ?_)
    · obtain ⟨hj2, hsome, hrem, -⟩ := hs2
      rw [ends_pure, if_pos rfl, ends_bind]
      cases b with
      | none =>
        rw [hbt, Disk.file_of_node_none (show s.disk.node t = none from hb)] at hsome
        exact absurd rfl hsome
      | some b =>
        refine (removeEmptyParents_edit (u := user) t.parent hrem.wf).mono (fun _ s3 hs3 => ?_)
          (fun _ _ hf => hf.elim)
        obtain ⟨hj3, hprune⟩ := hs3
        have hall := (hedit.trans hrem List.nil_suffix).trans hprune List.nil_suffix
        rw [hrem.file_eq, hedit.file_eq] at hall
        have hj := hj2.trans hj3
        refine (completed_of_pushed (hon.trans hj.onward) (hall.congr fun l => ?_) ?_ ?_).mono
          (fun _ _ hs' => .inr ⟨b, hs'⟩) (fun _ _ hf => hf.elim)
        · rw [Function.update_apply]
          rfl
        · rw [hj.uuids]
          have hfresh2 : s2.disk.FreshFrom s1.uuids := hrem.freshFrom hfresh (update_undrawn hfresh.file (.inl rfl))
          exact hprune.freshFrom hfresh2 hfresh2.file
        · rw [hj.uuids]
          exact hb
    · obtain ⟨hk2, ⟨rfl, hnone⟩ | ⟨hne, hbad⟩⟩ := hs2
      -- a missing file is no failure: nothing was there to remove, so there is no backup either
      · rw [if_pos rfl]
        rw [hbt] at hnone
        cases b with
        | some b =>
          obtain ⟨-, -, x, hx⟩ := hb
          rw [hnone] at hx
          cases hx
        | none => exact .inl ⟨hon.trans hk2.toSameJournal.onward, hk2.disk.trans (hsame rfl), hb⟩
      · rw [if_neg hne, ends_throw]
        refine ⟨⟨hon.trans hk2.toSameJournal.onward, ?_⟩, ?_⟩
        · rw [hk2.disk, hk2.uuids]
          exact below_backedUp hedit hfresh hb
        · rcases hbad with hfault | hbad
          · exact .inl fun hq => hfault (hon.quiet hq)
          · by_contra hclear
            exact hbad (removable_of_unblocked hta htp hb hedit hclear)
  · refine ⟨⟨hs1.1, ?_⟩, ?_⟩
    · rw [hs1.2.1]
      exact .refl h (hf.mono hs1.1.uuids)
    · rcases hs1.2.2 with hb | hb | hb
      · exact .inl hb
      · exact .inr (.inl hb)
      · exact .inr (.inr (.inr hb))

end

end Ctxd

import Ctxd.Tree

/-!
# What the calls on tree entries leave alone

The programs that place, rename and remove tree entries, and the callbacks that take this back, make their calls at a
few places only: at those they are started with, in the undo directory, and at directories above these.  A `CallFrame`
is a relation between the state before and the state after that allows all of these calls, for files at the places
`file` and for directories at the places `dir`; a `Frame` also allows what is written to the journal.  Such a relation
then holds across every one of the programs.
-/

namespace Ctxd

open Program

/-- The places of the files that a callback works on. -/
def Undo.Within (file : Loc → Prop) : Undo → Prop
  | .removeObject object => file object
  | .replaceEntry _ target backup => file target ∧ ∀ l ∈ backup, file l
  | .renameEntry _ source target backup => file source ∧ file target ∧ ∀ l ∈ backup, file l
  | .removeEntry target backup => file target ∧ ∀ l ∈ backup, file l

/-- The state after a call that has changed the disk. -/
def Fs.written (s : Fs) (d : Disk) : Fs := { s with disk := d, trace := d :: s.trace }

/-- The calls are allowed. -/
structure CallFrame (R : Fs → Fs → Prop) (dir file : Loc → Prop) : Prop where
  tick : Keeps R (fun _ => True) tick
  uuid4 : Keeps R (fun _ => True) uuid4
  mkdir : ∀ {s : Fs} {d l}, dir l → s.disk.mkdir l = .ok d → R s (s.written d)
  rmdir : ∀ {s : Fs} {d l}, dir l → s.disk.rmdir l = .ok d → R s (s.written d)
  link : ∀ {s : Fs} {d source target}, file target → s.disk.link source target = .ok d → R s (s.written d)
  unlink : ∀ {s : Fs} {d l}, file l → s.disk.unlink l = .ok d → R s (s.written d)
  replace : ∀ {s : Fs} {d source target}, file source → file target → s.disk.replace source target = .ok d →
    R s (s.written d)
  undoLoc : ∀ kind uuid, file (undoLoc kind uuid)
  dirs : ∀ {l}, file l → ∀ p, dir ⟨l.area, p⟩
  userDirs : ∀ user p, dir ⟨.users user, p⟩

/-- The calls are allowed, and the journal is. -/
structure Frame (R : Fs → Fs → Prop) (dir file : Loc → Prop) : Prop extends CallFrame R dir file where
  pushUndo : ∀ {s : Fs} {u : Undo}, u.Within file → (∀ l, u ≠ .removeObject l) →
    R s { s with undoStack := u :: s.undoStack }
  pushCleanup : ∀ {s : Fs} {backup : Option Loc}, (∀ l ∈ backup, file l) →
    R s { s with cleanupStack := s.cleanupStack ++ [.unlinkBackup backup] }

section

variable {R : Fs → Fs → Prop} [IsPreorder Fs R] {dir file : Loc → Prop} {user : String} {l source target : Loc}
  {backup : Option Loc}

namespace CallFrame

/-! ### Calls -/

theorem call (h : CallFrame R dir file) {f : Disk → Except Errno Disk}
    (hf : ∀ {s : Fs} {d}, f s.disk = .ok d → R s (s.written d)) : Keeps R (fun _ => True) (call f) := by
  unfold Ctxd.call
  refine h.tick.bind fun _ _ s => ?_
  rw [ends_bind, ends_get]
  split
  · rename_i d hd
    exact ⟨hf hd, trivial⟩
  · exact refl_of R s

theorem pathExists (h : CallFrame R dir file) (l : Loc) : Keeps R (fun _ => True) (pathExists l) := by
  unfold Ctxd.pathExists
  refine h.tick.bind fun _ _ s => ?_
  rw [ends_bind, ends_get]
  split
  · exact ⟨refl_of R s, trivial⟩
  · exact ⟨refl_of R s, trivial⟩
  · exact ⟨refl_of R s, trivial⟩
  · exact refl_of R s

private theorem isDir (h : CallFrame R dir file) (l : Loc) : Keeps R (fun _ => True) (isDir l) := by
  unfold Ctxd.isDir
  refine h.tick.bind fun _ _ s => ?_
  rw [ends_bind, ends_get]
  split
  · exact ⟨refl_of R s, trivial⟩
  · exact ⟨refl_of R s, trivial⟩
  · exact ⟨refl_of R s, trivial⟩
  · exact ⟨refl_of R s, trivial⟩
  · exact refl_of R s

theorem undoPath (h : CallFrame R dir file) (kind : UndoKind) : Keeps R file (undoPath kind) := by
  unfold Ctxd.undoPath
  exact h.uuid4.bind fun uuid _ => .pure (h.undoLoc kind uuid)

private theorem mkdirExistOk (h : CallFrame R dir file) (hl : dir l) : Keeps R (fun _ => True) (mkdirExistOk l) := by
  unfold Ctxd.mkdirExistOk
  refine (h.call fun hd => h.mkdir hl hd).tryCatch fun e => ?_
  refine .ite (fun _ => .throw) fun _ => (h.isDir l).bind fun found _ => ?_
  exact .ite (fun _ => .pure trivial) fun _ => .throw

private theorem mkdirParents (h : CallFrame R dir file) {a : Area} (ha : ∀ p, dir ⟨a, p⟩) (p : TreePath) :
    Keeps R (fun _ => True) (mkdirParents a p) := by
  induction p with
  | nil => exact .pure trivial
  | cons name rest ih =>
    unfold Ctxd.mkdirParents
    refine (h.call fun hd => h.mkdir (ha _) hd).tryCatch fun e => ?_
    refine .ite (fun _ => ih.bind fun _ _ => h.mkdirExistOk (ha _)) fun _ => (h.isDir _).bind fun found _ => ?_
    exact .ite (fun _ => .pure trivial) fun _ => .throw

theorem unlinkIfExists (h : CallFrame R dir file) (hbackup : ∀ l ∈ backup, file l) :
    Keeps R (fun _ => True) (unlinkIfExists backup) := by
  cases backup with
  | none => exact .pure trivial
  | some l =>
    refine (h.call fun hd => h.unlink (hbackup l rfl) hd).tryCatch fun e => ?_
    exact .ite (fun _ => .pure trivial) fun _ => .throw

theorem unlinkFile (h : CallFrame R dir file) (hl : file l) : Keeps R (fun _ => True) (Ctxd.unlinkIfExists (some l)) :=
  h.unlinkIfExists fun _ hmem => Option.mem_some_iff.1 hmem ▸ hl

private theorem removeEmptyUpwards (h : CallFrame R dir file) {a : Area} (ha : ∀ p, dir ⟨a, p⟩) (p : TreePath) :
    Keeps R (fun _ => True) (removeEmptyUpwards a p) := by
  induction p with
  | nil => exact .pure trivial
  | cons name rest ih =>
    intro s
    unfold Ctxd.removeEmptyUpwards
    rw [ends_bind, ends_get]
    split
    · exact ⟨refl_of R s, trivial⟩
    · rename_i d hd
      have hs : R s (s.written d) := h.rmdir (ha _) hd
      rw [ends_bind]
      refine (ih (s.written d)).mono (fun _ s' hs' => ⟨trans_of R hs hs'.1, trivial⟩) (fun _ s' hs' => ?_)
      exact trans_of R hs hs'

private theorem removeEmptyParents (h : CallFrame R dir file) (user : String) (l : Loc) :
    Keeps R (fun _ => True) (removeEmptyParents user l) := by
  unfold Ctxd.removeEmptyParents
  refine .ite (fun ha => ?_) fun _ => .pure trivial
  rw [ha]
  exact h.removeEmptyUpwards (h.userDirs user) l.path

private theorem backupTreeEntry (h : CallFrame R dir file) (target : Loc) :
    Keeps R (fun backup => ∀ l ∈ backup, file l) (backupTreeEntry target) := by
  unfold Ctxd.backupTreeEntry
  refine (h.pathExists target).bind fun found _ => .ite (fun _ => ?_) fun _ => ?_
  · refine (h.undoPath .backup).bind fun backup hb => ?_
    refine (h.call fun hd => h.link hb hd).bind fun _ _ => .pure fun l hl => ?_
    rw [← Option.mem_some_iff.1 hl]
    exact hb
  · exact .pure (by simp)

/-! ### Callbacks -/

/-- A file is put back. -/
private theorem putBack (h : CallFrame R dir file) (hs : file source) (ht : file target) : Keeps R (fun _ => True) (do
    Ctxd.mkdirParents target.area target.parent.path
    Ctxd.call fun d => d.replace source target) :=
  (h.mkdirParents (h.dirs ht) _).bind fun _ _ => h.call fun hd => h.replace hs ht hd

theorem undo (h : CallFrame R dir file) {u : Undo} (hu : u.Within file) : Keeps R (fun _ => True) u.run := by
  cases u with
  | removeObject object => exact h.unlinkFile hu
  | replaceEntry user target backup =>
    obtain ⟨ht, hb⟩ := hu
    cases backup with
    | none => exact (h.unlinkFile ht).bind fun _ _ => h.removeEmptyParents user _
    | some backup => exact h.putBack (hb backup rfl) ht
  | renameEntry user source target backup =>
    obtain ⟨hs, ht, hb⟩ := hu
    show Keeps R (fun _ => True) (undoRenameTreeEntry user source target backup)
    unfold undoRenameTreeEntry
    have hforth : Keeps R (fun _ => True) (Ctxd.call fun d => d.replace target source) :=
      h.call fun hd => h.replace ht hs hd
    refine (h.mkdirParents (h.dirs hs) _).bind fun _ _ => (h.pathExists target).bind fun found _ => ?_
    cases backup with
    | none =>
      have hrest := h.removeEmptyParents user target.parent
      exact Keeps.ite (fun _ => hforth.bind fun _ _ => hrest) fun _ => hrest
    | some backup =>
      have hrest := h.putBack (hb backup rfl) ht
      exact Keeps.ite (fun _ => hforth.bind fun _ _ => hrest) fun _ => hrest
  | removeEntry target backup =>
    obtain ⟨ht, hb⟩ := hu
    cases backup with
    | none => exact .pure trivial
    | some backup => exact h.putBack (hb backup rfl) ht

theorem runUndos (h : CallFrame R dir file) {stack : List Undo} (hstack : ∀ u ∈ stack, u.Within file) :
    Keeps R (fun _ => True) (runUndos stack) := by
  induction stack with
  | nil => exact .pure trivial
  | cons undo rest ih =>
    have hfirst := h.undo (hstack undo (List.mem_cons_self ..))
    have hrest := ih fun u hu => hstack u (List.mem_cons_of_mem _ hu)
    unfold Ctxd.runUndos
    refine Keeps.bind (P := fun _ => True) (Keeps.tryCatch ?_ fun _ => .pure trivial) fun _ _ => ?_
    · exact hfirst.bind fun _ _ => .pure trivial
    · exact hrest.bind fun _ _ => .pure trivial

end CallFrame

namespace Frame

/-! ### Tree entries -/

/-- What ends every change: the callback that undoes it, and the one that drops its backup. -/
private theorem journal (h : Frame R dir file) {u : Undo} (hu : u.Within file) (hne : ∀ l, u ≠ .removeObject l)
    (hbackup : ∀ l ∈ backup, file l) : Keeps R (fun _ => True) (do
      Ctxd.pushUndo u
      Ctxd.pushCleanup (.unlinkBackup backup)) := by
  have hundo : Keeps R (fun _ => True) (Ctxd.pushUndo u) := fun s => ⟨h.pushUndo hu hne, trivial⟩
  exact hundo.bind fun _ _ s => ⟨h.pushCleanup hbackup, trivial⟩

theorem replaceTreeEntry (h : Frame R dir file) {path : String} (ht : file (treeLoc user path)) (object : Loc) :
    Keeps R (fun _ => True) (replaceTreeEntry user path object) := by
  unfold Ctxd.replaceTreeEntry
  refine (h.mkdirParents (h.dirs ht) _).bind fun _ _ => ?_
  refine (h.undoPath .replace).bind fun tmp htmp => ?_
  refine (h.backupTreeEntry _).bind fun backup hb => ?_
  refine Keeps.bind (P := fun _ => True) (Keeps.tryCatch ?_ fun e => ?_) fun _ _ => ?_
  · refine (h.call fun hd => h.link htmp hd).bind fun _ _ => ?_
    exact h.call fun hd => h.replace htmp ht hd
  · exact (h.unlinkFile htmp).bind fun _ _ => (h.unlinkIfExists hb).bind fun _ _ => .throw
  · exact h.journal (u := .replaceEntry user _ backup) ⟨ht, hb⟩ (by simp) hb

theorem renameTreeFile (h : Frame R dir file) (user : String) (hs : file source) (ht : file target)
    (missingPath : String) : Keeps R (fun _ => True) (renameTreeFile user source target missingPath) := by
  unfold Ctxd.renameTreeFile
  refine (h.pathExists source).bind fun found _ => ?_
  have hrest : Keeps R (fun _ => True) (do
      Ctxd.mkdirParents target.area target.parent.path
      let backup ← Ctxd.backupTreeEntry target
      tryCatch
        (Ctxd.call fun d => d.replace source target)
        (fun e => do
          Ctxd.unlinkIfExists backup
          throw e)
      Ctxd.removeEmptyParents user source.parent
      Ctxd.pushUndo (.renameEntry user source target backup)
      Ctxd.pushCleanup (.unlinkBackup backup)) := by
    refine (h.mkdirParents (h.dirs ht) _).bind fun _ _ => (h.backupTreeEntry _).bind fun backup hb => ?_
    refine Keeps.bind (P := fun _ => True) (Keeps.tryCatch ?_ fun e => ?_) fun _ _ => ?_
    · exact h.call fun hd => h.replace hs ht hd
    · exact (h.unlinkIfExists hb).bind fun _ _ => .throw
    · refine (h.removeEmptyParents user _).bind fun _ _ => ?_
      exact h.journal (u := .renameEntry user source target backup) ⟨hs, ht, hb⟩ (by simp) hb
  exact Keeps.ite (fun _ => hrest) fun _ => Keeps.bind (P := fun _ => True) .throw fun _ _ => hrest

theorem removeTreeEntry (h : Frame R dir file) {path : String} (ht : file (treeLoc user path)) :
    Keeps R (fun _ => True) (removeTreeEntry user path) := by
  unfold Ctxd.removeTreeEntry
  refine (h.backupTreeEntry _).bind fun backup hb => ?_
  refine Keeps.bind (P := fun _ => True) (Keeps.tryCatch ?_ fun e => ?_) fun removed _ => .ite (fun _ => ?_) fun _ => ?_
  · exact (h.call fun hd => h.unlink ht hd).bind fun _ _ => .pure trivial
  · exact .ite (fun _ => (h.unlinkIfExists hb).bind fun _ _ => .pure trivial) fun _ => .throw
  · refine (h.removeEmptyParents user _).bind fun _ _ => ?_
    exact h.journal (u := .removeEntry _ backup) ⟨ht, hb⟩ (by simp) hb
  · exact .pure trivial

end Frame

end

end Ctxd

import Ctxd.Zone
import Mathlib.Data.Set.Basic

/-!
# Undoing a submission

Rolling back does not give the old disk back: directories are made again only where a file is put back, and an aborted
call may have left directories behind.  What comes back are the files.  So two disks are compared by `Below n T u d e`:
`e` has the tree files of `d`, at least its undo files, and no directories but those of `d` and those in `T`, the
directories an aborted call may have left; `n` bounds the uuids in use.

One undo callback takes the disk after a step back to the disk before it up to that comparison, provided that `T`
contains no place where a file has to be put back (`Inverts.replaceEntry`, `Inverts.renameEntry`,
`Inverts.removeEntry`).  Hence the whole stack does (`Reverts`).  A callback that has to put a file back where a
directory is raises (`Blocks`), and then the whole stack has failed (`Jams`).  The callbacks that are run after it do
not bring the file back if no older step has been at its path (`Originals`).
-/

namespace Ctxd

open Program

/-! ### Pruning empty directories -/

/-- `d'` is `d` without some empty directories at `p` and above. -/
structure Disk.Pruned (d d' : Disk) (a : Area) (p : TreePath) : Prop where
  wf : d'.WF
  pathMax : d'.pathMax = d.pathMax
  node : ∀ l, d'.node l = d.node l ∨ (d.node l = some .dir ∧ d'.node l = none ∧ l.area = a ∧ l.path <:+ p)
  /-- The directories outside an upward closed set `K` are all gone if they led to nothing but `p`. -/
  keep : ∀ K : Set TreePath, [] ∈ K → (∀ q ∈ K, ∀ r, r <:+ q → r ∈ K) → d.node ⟨a, p⟩ = some .dir →
    (∀ name rest data, d.node ⟨a, name :: rest⟩ = some (.file data) → rest ∈ K) →
    (∀ q, d.node ⟨a, q⟩ = some .dir → q ∈ K ∨ q <:+ p) → ∀ q, d'.node ⟨a, q⟩ = some .dir → q ∈ K

private theorem Disk.Pruned.file_iff {d d' : Disk} {a : Area} {p : TreePath} (h : d.Pruned d' a p) (l : Loc)
    (data : ByteArray) : d'.node l = some (.file data) ↔ d.node l = some (.file data) := by
  rcases h.node l with e | ⟨e, e', -⟩
  · rw [e]
  · rw [e, e']; simp

private theorem Disk.Pruned.dir {d d' : Disk} {a : Area} {p : TreePath} (h : d.Pruned d' a p) {l : Loc}
    (hl : d'.node l = some .dir) : d.node l = some .dir := by
  rcases h.node l with e | ⟨e, -, -⟩
  · rw [← e]; exact hl
  · exact e

private theorem Disk.Pruned.refl_of_ne {d : Disk} (h : d.WF) {a : Area} {p : TreePath}
    (hp : d.node ⟨a, p⟩ = some .dir → ∀ K : Set TreePath, [] ∈ K → (∀ q ∈ K, ∀ r, r <:+ q → r ∈ K) →
      (∀ name rest data, d.node ⟨a, name :: rest⟩ = some (.file data) → rest ∈ K) →
      (∀ q, d.node ⟨a, q⟩ = some .dir → q ∈ K ∨ q <:+ p) → p ∈ K) : d.Pruned d a p := by
  refine ⟨h, rfl, fun _ => .inl rfl, fun K hnil hK hdir hfile hdirs q hq => ?_⟩
  rcases hdirs q hq with hq | hq
  · exact hq
  · exact hK p (hp hdir K hnil hK hfile hdirs) q hq

theorem Disk.Pruned.edit {u : String} {d d' : Disk} {a : Area} {p : TreePath} (h : d.Pruned d' a p) :
    Edit u d d' [] d.file := by
  refine ⟨h.wf, h.pathMax, fun l => ?_, fun l hl => .inl (h.dir hl)⟩
  refine Option.ext fun data => ?_
  rw [Disk.file_eq_some_iff, Disk.file_eq_some_iff]
  exact h.file_iff l data

private theorem removeEmptyUpwards_spec (a : Area) (p : TreePath) {s : Fs} (h : s.disk.WF) :
    Ends (removeEmptyUpwards a p) (fun _ s' => s.SameJournal s' ∧ s.disk.Pruned s'.disk a p) (fun _ _ => False) s := by
  induction p generalizing s with
  | nil => exact ⟨.refl s, .refl_of_ne h fun _ _ hnil _ _ _ => hnil⟩
  | cons name rest ih =>
    unfold removeEmptyUpwards
    rw [ends_bind, ends_get]
    split
    · rename_i e he
      refine ⟨.refl s, .refl_of_ne h fun hdir K _ hK hfile hdirs => ?_⟩
      -- a directory outside `K` has no child, so the call could not have failed
      by_contra hp
      have hempty : ∀ x, s.disk.node ⟨a, x :: name :: rest⟩ = none := by
        intro x
        cases hn : s.disk.node ⟨a, x :: name :: rest⟩ with
        | none => rfl
        | some n =>
          cases n with
          | file data => exact absurd (hfile x _ data hn) hp
          | dir =>
            rcases hdirs _ hn with hx | hx
            · exact absurd (hK _ hx _ (List.suffix_cons _ _)) hp
            · have := hx.length_le
              simp at this
      rw [h.rmdir_of_empty (l := ⟨a, name :: rest⟩) (by simp) hdir hempty] at he
      cases he
    · rename_i d1 hd1
      obtain ⟨-, hdir, hempty, rfl⟩ := h.rmdir_ok hd1
      have hwf := h.remove (l := ⟨a, name :: rest⟩) (by simp) hempty
      have hnode := s.disk.node_remove (l := ⟨a, name :: rest⟩) (by simp)
      rw [ends_bind]
      show Ends (removeEmptyUpwards a rest) _ _
        { s with disk := s.disk.remove ⟨a, name :: rest⟩, trace := s.disk.remove ⟨a, name :: rest⟩ :: s.trace }
      refine (ih (s := { s with
          disk := s.disk.remove ⟨a, name :: rest⟩, trace := s.disk.remove ⟨a, name :: rest⟩ :: s.trace }) hwf).mono
        (fun _ s' hs' => ?_) (fun _ _ hf => hf)
      obtain ⟨hj, hprune⟩ := hs'
      refine ⟨⟨hj.uuids, hj.undoStack, hj.cleanupStack, hj.quiet⟩, hprune.wf, hprune.pathMax, fun l => ?_, ?_⟩
      · rcases hprune.node l with e | ⟨e, e', ha, hl⟩
        · rw [e, hnode]
          split
          · rename_i hl
            subst hl
            exact .inr ⟨hdir, rfl, rfl, List.suffix_refl _⟩
          · exact .inl rfl
        · rw [hnode] at e
          split at e
          · cases e
          · exact .inr ⟨e, e', ha, hl.trans (List.suffix_cons _ _)⟩
      · intro K hnil hK _ hfile hdirs
        refine hprune.keep K hnil hK ?_ ?_ ?_
        · rw [hnode, if_neg (by simp)]
          exact h.parent a name rest (by rw [hdir]; rfl)
        · intro x r data hx
          rw [hnode] at hx
          split at hx
          · cases hx
          · exact hfile x r data hx
        · intro q hq
          rw [hnode] at hq
          split at hq
          · cases hq
          · rename_i hne
            rcases hdirs q hq with hq | hq
            · exact .inl hq
            · rcases List.suffix_cons_iff.1 hq with rfl | hq
              · exact absurd rfl hne
              · exact .inr hq

theorem removeEmptyParents_spec (user : String) (l : Loc) {s : Fs} (h : s.disk.WF) :
    Ends (removeEmptyParents user l)
      (fun _ s' => s.SameJournal s' ∧
        ((l.area = .users user ∧ s.disk.Pruned s'.disk l.area l.path) ∨ (l.area ≠ .users user ∧ s'.disk = s.disk)))
      (fun _ _ => False) s := by
  unfold removeEmptyParents
  refine Ends.ite (fun ha => ?_) (fun ha => ⟨.refl s, .inr ⟨ha, rfl⟩⟩)
  exact (removeEmptyUpwards_spec _ _ h).mono (fun _ s' hs' => ⟨hs'.1, .inl ⟨ha, hs'.2⟩⟩) (fun _ _ hf => hf)

/-! ### Comparing disks -/

/-- `e` has the tree files of `d`, its undo files, nothing under the uuids from `n` on, and no directories but those of
`d` and those in `T`. -/
structure Below (n : Nat) (T : Set TreePath) (u : String) (d e : Disk) : Prop where
  wf : e.WF
  pathMax : e.pathMax = d.pathMax
  files : ∀ v p, e.file ⟨.users v, p⟩ = d.file ⟨.users v, p⟩
  undoFiles : ∀ p x, d.file ⟨.undo, p⟩ = some x → e.file ⟨.undo, p⟩ = some x
  fresh : e.FreshFrom n
  dirs : ∀ l, e.node l = some .dir → d.node l = some .dir ∨ (l.area = .users u ∧ l.path ∈ T)

/-- Places that may hold the directories an aborted call has left: closed under taking the parent. -/
def Upward (T : Set TreePath) : Prop := [] ∈ T ∧ ∀ q ∈ T, ∀ r, r <:+ q → r ∈ T

/-- No file of the user's tree lies in `T`. -/
def Avoids (T : Set TreePath) (u : String) (d : Disk) : Prop := ∀ p x, d.file ⟨.users u, p⟩ = some x → p ∉ T

/-- The path of a place in the tree of `u`. -/
def Loc.inTree (u : String) (l : Loc) : List TreePath := if l.area = .users u then [l.path] else []

theorem Loc.mem_inTree {u : String} {l : Loc} {p : TreePath} : p ∈ l.inTree u ↔ l = ⟨.users u, p⟩ := by
  obtain ⟨a, q⟩ := l
  unfold Loc.inTree
  by_cases ha : a = .users u
  · simp [ha, eq_comm]
  · simp [ha]

/-- The tree path where the callback puts a file back that is not there any more. -/
def Undo.vacates (u : String) : Undo → List TreePath
  | .renameEntry _ source _ _ => source.inTree u
  | .removeEntry target (some _) => target.inTree u
  | _ => []

/-- The tree path where the step of the callback has placed a file. -/
def Undo.fills (u : String) : Undo → List TreePath
  | .replaceEntry _ target _ | .renameEntry _ _ target _ => target.inTree u
  | _ => []

/-- A directory at `q` is in the way of no callback: before one of them puts a file back at `q` or above, another one
takes a file away below it, and with that file goes the directory. -/
def Clears (u : String) (q : TreePath) : List Undo → Prop
  | [] => True
  | undo :: rest => (∀ p ∈ undo.vacates u, ¬p <:+ q) ∧ ((∃ p ∈ undo.fills u, q <:+ p.tail) ∨ Clears u q rest)

instance (u : String) (q : TreePath) : (stack : List Undo) → Decidable (Clears u q stack)
  | [] => inferInstanceAs (Decidable True)
  | undo :: rest =>
    have := instDecidableClears u q rest
    inferInstanceAs (Decidable ((∀ p ∈ undo.vacates u, ¬p <:+ q) ∧
      ((∃ p ∈ undo.fills u, q <:+ p.tail) ∨ Clears u q rest)))

/-- Every file that a step took away had been there before all steps: no older step took one away or placed one where
it lay. -/
def Originals (u : String) : List Undo → Prop
  | [] => True
  | undo :: rest =>
    (∀ p ∈ undo.vacates u, ∀ older ∈ rest, p ∉ older.fills u ∧ p ∉ older.vacates u) ∧ Originals u rest

/-- The last step that was at `p` took a file away there. -/
def Freed (u : String) (p : TreePath) : List Undo → Prop
  | [] => False
  | undo :: rest => p ∈ undo.vacates u ∨ (p ∉ undo.fills u ∧ Freed u p rest)

/-- A step has renamed what lay at a path whose file was gone: no file, but a directory. -/
def Misplaces (u : String) : List Undo → Prop
  | [] => False
  | undo :: rest => (∃ p ∈ undo.vacates u, Freed u p rest) ∨ Misplaces u rest

instance (u : String) (p : TreePath) : (stack : List Undo) → Decidable (Freed u p stack)
  | [] => inferInstanceAs (Decidable False)
  | undo :: rest =>
    have := instDecidableFreed u p rest
    inferInstanceAs (Decidable (p ∈ undo.vacates u ∨ (p ∉ undo.fills u ∧ Freed u p rest)))

instance (u : String) : (stack : List Undo) → Decidable (Misplaces u stack)
  | [] => inferInstanceAs (Decidable False)
  | undo :: rest =>
    have := instDecidableMisplaces u rest
    inferInstanceAs (Decidable ((∃ p ∈ undo.vacates u, Freed u p rest) ∨ Misplaces u rest))

/-- Run on a disk that compares to `d`, the callback succeeds and leaves a disk that compares to `d0`.  A directory
goes only if it leads to the file that the step has placed. -/
def Inverts (n : Nat) (T : Set TreePath) (u : String) (undo : Undo) (d0 d : Disk) : Prop :=
  ∀ s : Fs, s.fault = none → Below n T u d s.disk →
    Ends undo.run
      (fun _ s' => s.SameJournal s' ∧ Below n T u d0 s'.disk ∧
        ∀ q, s.disk.node ⟨.users u, q⟩ = some .dir →
          (∃ p ∈ undo.fills u, q <:+ p.tail) ∨ s'.disk.node ⟨.users u, q⟩ = some .dir)
      (fun _ _ => False) s

/-- Run on a disk that compares to `d`, the callback raises if a directory is where it puts a file back, and puts none
there. -/
def Blocks (n : Nat) (u : String) (undo : Undo) (d : Disk) : Prop :=
  ∀ p ∈ undo.vacates u, ∀ T (s : Fs), s.fault = none → Below n T u d s.disk →
    s.disk.node ⟨.users u, p⟩ = some .dir →
    Ends undo.run (fun _ _ => False) (fun _ s' => s'.disk.file ⟨.users u, p⟩ = none) s

/-- Run on a disk that compares to `d`, the callbacks succeed and leave a disk that compares to `g`. -/
def Reverts (n : Nat) (T : Set TreePath) (u : String) (stack : List Undo) (d g : Disk) : Prop :=
  ∀ s : Fs, s.fault = none → Below n T u d s.disk →
    Ends (runUndos stack) (fun failed s' => failed = false ∧ s.SameJournal s' ∧ Below n T u g s'.disk)
      (fun _ _ => False) s

/-- A file of `g` in the tree of `u` is missing. -/
def Missing (u : String) (g d : Disk) : Prop :=
  ∃ p, g.file ⟨.users u, p⟩ ≠ none ∧ d.file ⟨.users u, p⟩ = none

/-- Run on a disk that compares to `d` with a directory at `q`, one of the callbacks raises.  If the files that were
taken away are those of `g`, one of them does not come back. -/
def Jams (n : Nat) (q : TreePath) (u : String) (stack : List Undo) (d g : Disk) : Prop :=
  ∀ s : Fs, s.fault = none → Below n {r | r <:+ q} u d s.disk → s.disk.node ⟨.users u, q⟩ = some .dir →
    Ends (runUndos stack) (fun failed s' => failed = true ∧ (Originals u stack → Missing u g s'.disk))
      (fun _ _ => False) s

section

variable {n : Nat} {T : Set TreePath} {u : String} {d d0 e f g : Disk}

theorem Below.refl (h : d.WF) (hn : d.FreshFrom n) : Below n T u d d :=
  ⟨h, rfl, fun _ _ => rfl, fun _ _ h => h, hn, fun _ h => .inl h⟩

private theorem Below.mono {T' : Set TreePath} (h : Below n T u d e) (hT : T ⊆ T') : Below n T' u d e :=
  ⟨h.wf, h.pathMax, h.files, h.undoFiles, h.fresh, fun l hl => (h.dirs l hl).imp id fun ⟨ha, hp⟩ => ⟨ha, hT hp⟩⟩

/-- Directories that are there anyway need no exception. -/
private theorem Below.absorb {q : TreePath} (h : Below n {r | r <:+ q} u d e) (hd : d.WF)
    (hq : d.node ⟨.users u, q⟩ = some .dir) : Below n {r | r <:+ []} u d e := by
  refine ⟨h.wf, h.pathMax, h.files, h.undoFiles, h.fresh, fun l hl => ?_⟩
  rcases h.dirs l hl with hl | ⟨ha, hp⟩
  · exact .inl hl
  · left
    obtain ⟨a, r⟩ := l
    obtain rfl : a = .users u := ha
    by_cases hrq : r = q
    · rw [hrq]
      exact hq
    · exact hd.ancestor (by rw [hq]; rfl) hp hrq

/-- There is no file where a directory is. -/
theorem Below.avoids {q : TreePath} (h : Below n T u d e) (hq : e.node ⟨.users u, q⟩ = some .dir) :
    Avoids {r | r <:+ q} u d := by
  intro p x hx hp
  rw [← h.files] at hx
  have hdir : e.node ⟨.users u, p⟩ = some .dir := by
    by_cases hpq : p = q
    · rw [hpq]
      exact hq
    · exact h.wf.ancestor (by rw [hq]; rfl) hp hpq
  rw [Disk.file_of_node_dir hdir] at hx
  cases hx

theorem upward_suffixes (q : TreePath) : Upward {r | r <:+ q} := ⟨List.nil_suffix, fun _ hq' _ hr => hr.trans hq'⟩

theorem avoids_root : Avoids {r | r <:+ []} u d := by
  intro p x hx hp
  rw [List.suffix_nil.1 hp, Disk.file_of_node_dir rfl] at hx
  cases hx

private theorem Below.fits_iff (h : Below n T u d e) (l : Loc) : e.Fits l ↔ d.Fits l := by
  unfold Disk.Fits Disk.pathTooLong
  rw [h.pathMax]

/-- An edit that gives a disk the files of `g`. -/
theorem Below.of_edit {made : TreePath} {files : Loc → Option ByteArray} (h : Below n T u d e)
    (he : Edit u e f made files) (hm : d.pathMax = g.pathMax)
    (hfiles : ∀ v p, files ⟨.users v, p⟩ = g.file ⟨.users v, p⟩)
    (hundo : ∀ p x, g.file ⟨.undo, p⟩ = some x → files ⟨.undo, p⟩ = some x)
    (hfresh : ∀ kind m, n ≤ m → files (undoLoc kind m) = none)
    (hdirs : ∀ l, f.node l = some .dir → g.node l = some .dir ∨ (l.area = .users u ∧ l.path ∈ T)) :
    Below n T u g f where
  wf := he.wf
  pathMax := (he.pathMax.trans h.pathMax).trans hm
  files v p := (he.file _).trans (hfiles v p)
  undoFiles p x hx := (he.file _).trans (hundo p x hx)
  fresh := he.freshFrom h.fresh hfresh
  dirs := hdirs

private theorem Freed.vacated {p : TreePath} {stack : List Undo} (h : Freed u p stack) :
    ∃ undo ∈ stack, p ∈ undo.vacates u := by
  induction stack with
  | nil => exact h.elim
  | cons undo rest ih =>
    rcases h with hp | ⟨-, hrest⟩
    · exact ⟨undo, List.mem_cons_self .., hp⟩
    · obtain ⟨older, holder, hp⟩ := ih hrest
      exact ⟨older, List.mem_cons_of_mem _ holder, hp⟩

theorem Misplaces.of_suffix {stack stack' : List Undo} (h : Misplaces u stack) (hs : stack <:+ stack') :
    Misplaces u stack' := by
  obtain ⟨steps, rfl⟩ := hs
  induction steps with
  | nil => exact h
  | cons undo rest ih => exact .inr ih

theorem Originals.not_misplaces {stack : List Undo} (h : Originals u stack) : ¬Misplaces u stack := by
  induction stack with
  | nil => exact id
  | cons undo rest ih =>
    rintro (⟨p, hp, hfreed⟩ | hrest)
    · obtain ⟨older, holder, hvacates⟩ := hfreed.vacated
      exact (h.1 p hp older holder).2 hvacates
    · exact ih h.2 hrest

theorem Reverts.nil : Reverts n T u [] d d := fun s _ h => ⟨rfl, .refl s, h⟩

theorem Reverts.cons {undo : Undo} {stack : List Undo} (h : Inverts n T u undo d0 d)
    (hs : Reverts n T u stack d0 g) : Reverts n T u (undo :: stack) d g := by
  intro s hq hb
  unfold runUndos
  rw [ends_bind, ends_tryCatch, ends_bind]
  refine (h s hq hb).mono (fun _ s' hs' => ?_) (fun _ _ hf => hf.elim)
  rw [ends_pure, ends_bind]
  refine (hs s' (hs'.1.quiet hq) hs'.2.1).mono (fun b s'' hs'' => ?_) (fun _ _ hf => hf)
  rw [ends_pure, hs''.1]
  exact ⟨rfl, hs'.1.trans hs''.2.1, hs''.2.2⟩

/-- A directory that is there before the last step needs no exception when it is undone. -/
theorem Reverts.of_absorbed {stack : List Undo} {q : TreePath} (h : Reverts n {r | r <:+ []} u stack d g) (hd : d.WF)
    (hq : d.node ⟨.users u, q⟩ = some .dir) : Reverts n {r | r <:+ q} u stack d g := by
  intro s hquiet hb
  refine (h s hquiet (hb.absorb hd hq)).mono (fun failed s' hs' => ⟨hs'.1, hs'.2.1, hs'.2.2.mono ?_⟩)
    (fun _ _ hf => hf)
  exact fun r hr => hr.trans List.nil_suffix

private theorem Undo.within_all (undo : Undo) : undo.Within fun _ => True := by
  cases undo <;> simp [Undo.Within]

/-- The callbacks are all run, whatever becomes of them. -/
private theorem runUndos_returns (stack : List Undo) (s : Fs) :
    Ends (runUndos stack) (fun _ _ => True) (fun _ _ => False) s := by
  induction stack generalizing s with
  | nil => exact trivial
  | cons undo rest ih =>
    unfold runUndos
    rw [ends_bind, ends_tryCatch, ends_bind]
    have hrest : ∀ failed s', Ends (runUndos rest >>= fun failedLater => pure (failed || failedLater))
        (fun _ _ => True) (fun _ _ => False) s' := by
      intro failed s'
      rw [ends_bind]
      exact (ih s').mono (fun _ _ _ => trivial) (fun _ _ hf => hf)
    cases hrun : undo.run s with
    | ok a s' =>
      unfold Ends
      rw [hrun]
      exact hrest false s'
    | error e s' =>
      unfold Ends
      rw [hrun]
      exact hrest true s'

/-- The callbacks leave the clean-up alone. -/
theorem runUndos_total (stack : List Undo) (s : Fs) :
    Ends (runUndos stack) (fun _ s' => s'.cleanupStack = s.cleanupStack) (fun _ _ => False) s := by
  have hframe := ((sameFiles_frame zone_all).runUndos fun undo (_ : undo ∈ stack) => undo.within_all).ends s
  exact (hframe.and (runUndos_returns stack s)).mono (fun _ _ hs' => hs'.1.cleanupStack) (fun _ _ hf => hf.2)

/-- The first callback raises, and the others do not put the file back either. -/
theorem Jams.here {undo : Undo} {rest : List Undo} {p q : TreePath} (h : Blocks n u undo d)
    (hp : p ∈ undo.vacates u) (hpq : p <:+ q)
    (hkept : Originals u (undo :: rest) → g.file ⟨.users u, p⟩ ≠ none ∧ ∀ older ∈ rest, older.Within (Beside u p)) :
    Jams n q u (undo :: rest) d g := by
  intro s hquiet hb hdir
  have hdirp : s.disk.node ⟨.users u, p⟩ = some .dir := by
    by_cases e : p = q
    · rw [e]
      exact hdir
    · exact hb.wf.ancestor (by rw [hdir]; rfl) hpq e
  unfold runUndos
  rw [ends_bind, ends_tryCatch, ends_bind]
  refine (h p hp _ s hquiet hb hdirp).mono (fun _ _ hf => hf.elim) (fun _ s1 hs1 => ?_)
  rw [ends_pure, ends_bind]
  have hrest : Ends (runUndos rest) (fun _ s' => Originals u (undo :: rest) → Missing u g s'.disk) (fun _ _ => True)
      s1 := by
    by_cases ho : Originals u (undo :: rest)
    · obtain ⟨hg, hwithin⟩ := hkept ho
      refine (((sameFiles_frame (zone_beside u p)).runUndos hwithin).ends s1).mono (fun _ s' hs' _ => ⟨p, hg, ?_⟩)
        (fun _ _ _ => trivial)
      rw [hs'.files _ not_beside, hs1]
    · exact (runUndos_returns rest s1).mono (fun _ _ _ hall => absurd hall ho) (fun _ _ _ => trivial)
  refine (hrest.and (runUndos_returns rest s1)).mono (fun _ s' hs' => ⟨rfl, hs'.1⟩) (fun _ _ hf => hf.2)

/-- The first callback succeeds and leaves the directory where it is. -/
theorem Jams.cons {undo : Undo} {rest : List Undo} {q : TreePath} (h : Inverts n {r | r <:+ q} u undo d0 d)
    (hfills : ∀ p ∈ undo.fills u, ¬q <:+ p.tail) (hrest : Jams n q u rest d0 g) : Jams n q u (undo :: rest) d g := by
  intro s hquiet hb hdir
  unfold runUndos
  rw [ends_bind, ends_tryCatch, ends_bind]
  refine (h s hquiet hb).mono (fun _ s' hs' => ?_) (fun _ _ hf => hf.elim)
  obtain ⟨hj, hb', hkeep⟩ := hs'
  have hdir' : s'.disk.node ⟨.users u, q⟩ = some .dir := by
    refine (hkeep q hdir).resolve_left ?_
    rintro ⟨p, hp, hpq⟩
    exact hfills p hp hpq
  rw [ends_pure, ends_bind]
  refine (hrest s' (hj.quiet hquiet) hb' hdir').mono (fun failed _ hs' => ?_) (fun _ _ hf => hf)
  obtain ⟨rfl, hmissing⟩ := hs'
  exact ⟨rfl, fun ho => hmissing ho.2⟩

/-- Removing the empty directories at `p` and above removes those an edit has made there. -/
private theorem removeEmptyParents_below {s : Fs} {p : TreePath} (hd : d0.WF) (hT : Upward T)
    (h : Below n (T ∪ {r | r <:+ p}) u d0 s.disk) (hp : s.disk.node ⟨.users u, p⟩ = some .dir) :
    Ends (removeEmptyParents u ⟨.users u, p⟩)
      (fun _ s' => s.SameJournal s' ∧ Below n T u d0 s'.disk ∧
        ∀ q, s.disk.node ⟨.users u, q⟩ = some .dir → q <:+ p ∨ s'.disk.node ⟨.users u, q⟩ = some .dir)
      (fun _ _ => False) s := by
  refine (removeEmptyParents_spec u ⟨.users u, p⟩ h.wf).mono (fun _ s' hs' => ⟨hs'.1, ?_⟩) (fun _ _ hf => hf)
  obtain ⟨-, hprune⟩ := hs'.2.resolve_right fun hne => hne.1 rfl
  have hkept : ∀ q, s.disk.node ⟨.users u, q⟩ = some .dir → q <:+ p ∨ s'.disk.node ⟨.users u, q⟩ = some .dir := by
    intro q hq
    rcases hprune.node ⟨.users u, q⟩ with hsame | ⟨-, -, -, hqp⟩
    · right
      rw [hsame]
      exact hq
    · exact .inl hqp
  have hdir : ∀ q, s'.disk.node ⟨.users u, q⟩ = some .dir →
      q ∈ ({q | d0.node ⟨.users u, q⟩ = some .dir} ∪ T : Set TreePath) := by
    refine hprune.keep _ (.inr hT.1) ?_ hp ?_ ?_
    · rintro q (hq | hq) r hr
      · by_cases e : r = q
        · rw [e]; exact .inl hq
        · exact .inl (hd.ancestor (by rw [show d0.node ⟨.users u, q⟩ = _ from hq]; rfl) hr e)
      · exact .inr (hT.2 q hq r hr)
    · intro name rest data hx
      have hx := (h.files u _).symm.trans (Disk.file_eq_some_iff.2 hx)
      exact .inl (hd.dir_above hx (List.suffix_refl _))
    · intro q hq
      rcases h.dirs _ hq with hq | ⟨-, hq | hq⟩
      · exact .inl (.inl hq)
      · exact .inl (.inr hq)
      · exact .inr hq
  have hfile := hprune.edit (u := u) |>.file
  refine ⟨?_, hkept⟩
  refine ⟨hprune.wf, hprune.pathMax.trans h.pathMax, fun v q => (hfile _).trans (h.files v q),
    fun q x hx => (hfile _).trans (h.undoFiles q x hx), ?_, fun l hl => ?_⟩
  · exact hprune.edit (u := u) |>.freshFrom h.fresh h.fresh.file
  · rcases h.dirs l (hprune.dir hl) with hl' | ⟨ha, -⟩
    · exact .inl hl'
    · obtain ⟨a, q⟩ := l
      obtain rfl : a = .users u := ha
      exact (hdir q hl).imp id fun hq => ⟨rfl, hq⟩

end

/-! ### The callbacks undo their steps -/

/-- A place of a document during a submission of `u`: in the user's tree or under a uuid drawn before. -/
def Slot (n : Nat) (u : String) (l : Loc) : Prop :=
  (l.area = .users u ∧ l.path ≠ []) ∨ ∃ kind m, m < n ∧ l = undoLoc kind m

namespace Slot

variable {n : Nat} {u : String} {l : Loc}

theorem mono {n' : Nat} (h : Slot n u l) (hn : n ≤ n') : Slot n' u l :=
  h.imp id fun ⟨kind, m, hm, e⟩ => ⟨kind, m, by omega, e⟩

theorem path_ne_nil (h : Slot n u l) : l.path ≠ [] := by
  rcases h with ⟨-, h⟩ | ⟨kind, m, -, rfl⟩
  · exact h
  · exact undoLoc_path_ne_nil kind m

theorem area (h : Slot n u l) : l.area = .users u ∨ l.path.tail = [] := by
  rcases h with ⟨h, -⟩ | ⟨kind, m, -, rfl⟩
  · exact .inl h
  · exact .inr rfl

theorem ne_undoLoc (h : Slot n u l) {kind : UndoKind} {m : Nat} (hm : n ≤ m) : undoLoc kind m ≠ l := by
  rintro rfl
  rcases h with ⟨h, -⟩ | ⟨kind', m', hm', e⟩
  · cases h
  · have := undoLoc_injective e
    omega

end Slot

/-- What a backup of `target` is on the disk before the step: a new name if there is a file to keep. -/
def BackupOf (n : Nat) (d : Disk) (target : Loc) : Option Loc → Prop
  | none => d.node target = none
  | some backup => (∃ kind m, m < n ∧ backup = undoLoc kind m) ∧ d.node backup = none ∧ ∃ x, d.file target = some x

/-- The files when `y` has been put at `target`. -/
def placed (d : Disk) (target : Loc) (backup : Option Loc) (y : ByteArray) (l : Loc) : Option ByteArray :=
  if l = target then some y else if backup = some l then d.file target else d.file l

/-- The files when the file at `source` has become `target`. -/
def renamed (d : Disk) (source target : Loc) (backup : Option Loc) (l : Loc) : Option ByteArray :=
  if l = target then d.file source else if l = source then none else if backup = some l then d.file target else d.file l

/-- The files when `target` has been removed. -/
def removed (d : Disk) (target : Loc) (backup : Option Loc) (l : Loc) : Option ByteArray :=
  if l = target then none else if backup = some l then d.file target else d.file l

theorem BackupOf.not_dir {n : Nat} {d : Disk} {target : Loc} {backup : Option Loc}
    (h : BackupOf n d target backup) : d.node target ≠ some .dir := by
  cases backup with
  | none => rw [show d.node target = none from h]; simp
  | some b =>
    obtain ⟨-, -, x, hx⟩ := h
    rw [Disk.file_eq_some_iff.1 hx]; simp

theorem BackupOf.area {n : Nat} {d : Disk} {target b : Loc} (h : BackupOf n d target (some b)) : b.area = .undo := by
  obtain ⟨⟨kind, m, -, rfl⟩, -⟩ := h
  rfl

theorem BackupOf.free {n : Nat} {d : Disk} {target : Loc} {backup : Option Loc} (h : BackupOf n d target backup) :
    ∀ l, backup = some l → l.area = .undo ∧ d.file l = none := by
  rintro l rfl
  exact ⟨h.area, Disk.file_of_node_none h.2.1⟩

section

variable {n : Nat} {T : Set TreePath} {u : String} {d d0 : Disk}

/-- Making the directories above a place again. -/
private theorem mkdirParents_back {s : Fs} {l : Loc} (h : s.disk.WF) (hq : s.fault = none) (hl : Slot n u l)
    (hfit : s.disk.Fits l) (habove : ∀ r, r <:+ l.path.tail → s.disk.file ⟨l.area, r⟩ = none) :
    Ends (mkdirParents l.area l.parent.path)
      (fun _ s' => s.SameJournal s' ∧ Edit u s.disk s'.disk l.path.tail s.disk.file ∧
        s'.disk.node l.parent = some .dir ∧ ∀ l', s.disk.node l' = some .dir → s'.disk.node l' = some .dir)
      (fun _ _ => False) s := by
  refine (mkdirParents_of_fits h hq ?_ ?_).mono (fun _ s' hs' => ?_) (fun _ _ hf => hf)
  · exact Disk.Fits.suffix (p := l.path) hfit (List.tail_suffix _)
  · intro r hr data hd
    have := habove r hr
    rw [Disk.file_eq_some_iff.2 hd] at this
    cases this
  · refine ⟨hs'.1, hs'.2.edit hl.area, ?_, fun l' hl' => ?_⟩
    · rw [hs'.2.node]
      exact if_pos ⟨rfl, List.suffix_refl _⟩
    · rw [hs'.2.node]
      split
      · rfl
      · exact hl'

/-- Renaming a file back. -/
private theorem replace_back {s : Fs} {source target : Loc} {x : ByteArray} (h : s.disk.WF) (hq : s.fault = none)
    (hs : s.disk.file source = some x) (hne : source ≠ target) (ht : target.path ≠ [])
    (hp : s.disk.node target.parent = some .dir) (hn : s.disk.node target ≠ some .dir) (hfit : s.disk.Fits target) :
    Ends (call fun d => d.replace source target)
      (fun _ s' => s.SameJournal s' ∧
        Edit u s.disk s'.disk [] (Function.update (Function.update s.disk.file source none) target (some x)) ∧
        ∀ l', s.disk.node l' = some .dir → s'.disk.node l' = some .dir)
      (fun _ _ => False) s := by
  refine (call_replace h hs hne ht hp hn).mono (fun _ _ hs' => hs') (fun _ _ hf => ?_)
  rcases hf.2 with hfault | hlong
  · exact hfault hq
  · exact hlong hfit

private theorem unlink_back {s : Fs} {l : Loc} (h : s.disk.WF) (hq : s.fault = none) (hl : s.disk.Removable l) :
    Ends (unlinkIfExists (some l))
      (fun _ s' => s.SameJournal s' ∧ Edit u s.disk s'.disk [] (Function.update s.disk.file l none) ∧
        ∀ l', s.disk.node l' = some .dir → s'.disk.node l' = some .dir)
      (fun _ _ => False) s := by
  refine (unlinkIfExists_edit h l).mono (fun _ _ hs' => hs') (fun _ _ hf => ?_)
  rcases hf.2 with hfault | hbad
  · exact hfault hq
  · exact hbad hl

theorem not_suffix_tail {l : Loc} (hl : l.path ≠ []) : ¬l.path <:+ l.path.tail := by
  intro h
  have h1 := h.length_le
  have h2 := List.length_pos_iff.2 hl
  rw [List.length_tail] at h1
  omega

/-- The file at a place of a document is the one that is expected there. -/
private theorem Below.file_of_slot {e : Disk} {l : Loc} {x : ByteArray} (h : Below n T u d e) (hl : Slot n u l)
    (hx : d.file l = some x) : e.file l = some x := by
  rcases hl with ⟨ha, -⟩ | ⟨kind, m, -, rfl⟩
  · obtain ⟨a, p⟩ := l
    obtain rfl : a = .users u := ha
    rw [h.files, hx]
  · exact h.undoFiles _ x hx

private theorem BackupOf.slot {target b : Loc} (h : BackupOf n d target (some b)) : Slot n u b :=
  .inr h.1

theorem Inverts.removeObject {object : Loc} {user : String} {objectId : Nat} {y : ByteArray}
    (ho : object = objectLoc user objectId)
    (hedit : Edit u d0 d [] (Function.update d0.file object (some y))) :
    Inverts n T u (.removeObject object) d0 d := by
  subst ho
  have hne : ∀ l : Loc, (∀ v, l.area ≠ .objects v) → l ≠ objectLoc user objectId := by
    rintro l hl rfl
    exact hl user rfl
  have hdirs : ∀ l, d.node l = some .dir → d0.node l = some .dir := by
    intro l hl
    rcases hedit.dirs l hl with hl | ⟨-, hl⟩
    · exact hl
    · exact if_pos (List.suffix_nil.1 hl)
  intro s hq hb
  show Ends (unlinkIfExists (some (objectLoc user objectId))) _ _ s
  have hremovable : s.disk.Removable (objectLoc user objectId) := by
    refine ⟨⟨rfl, fun _ _ => rfl⟩, fun hdir => ?_, fun r hr hproper data hfile => ?_⟩
    · rcases hb.dirs _ hdir with hd | ⟨ha, -⟩
      · have hobject := hedit.file (objectLoc user objectId)
        rw [Function.update_self, Disk.file_of_node_dir hd] at hobject
        cases hobject
      · cases ha
    · have hroot : r = [] := List.suffix_nil.1 ((List.suffix_cons_iff.1 hr).resolve_left hproper)
      rw [hroot] at hfile
      cases hfile
  refine (unlink_back (u := u) hb.wf hq hremovable).mono
    (fun _ s' hs' => ⟨hs'.1, ?_, fun q hq => .inr (hs'.2.2 _ hq)⟩) (fun _ _ hf => hf)
  refine hb.of_edit hs'.2.1 hedit.pathMax (fun v p => ?_) (fun p x hx => ?_) (update_undrawn hb.fresh.file (.inl rfl))
    (fun l hl => ?_)
  · rw [Function.update_of_ne (hne _ (by simp)), hb.files, hedit.file, Function.update_of_ne (hne _ (by simp))]
  · rw [Function.update_of_ne (hne _ (by simp))]
    refine hb.undoFiles p x ?_
    rw [hedit.file, Function.update_of_ne (hne _ (by simp)), hx]
  · rcases hs'.2.1.dirs l hl with hl | ⟨ha, hl⟩
    · exact (hb.dirs l hl).imp (hdirs l) id
    · exact .inl (if_pos (List.suffix_nil.1 hl))

/-- `e` compares to `d` but for the file at `target`, which is missing or another one. -/
private structure BelowBut (n : Nat) (T : Set TreePath) (u : String) (target : Loc) (d e : Disk) : Prop where
  wf : e.WF
  pathMax : e.pathMax = d.pathMax
  files : ∀ v p, (⟨.users v, p⟩ : Loc) ≠ target → e.file ⟨.users v, p⟩ = d.file ⟨.users v, p⟩
  undoFiles : ∀ p x, d.file ⟨.undo, p⟩ = some x → e.file ⟨.undo, p⟩ = some x
  fresh : e.FreshFrom n
  dirs : ∀ l, e.node l = some .dir → d.node l = some .dir ∨ (l.area = .users u ∧ l.path ∈ T)

/-- Putting the backup of a file back. -/
private theorem putBack {s : Fs} {target b : Loc} {x : ByteArray} (hd : d0.WF) (hav : Avoids T u d0)
    (hq : s.fault = none) (ht : target.area = .users u) (hb : BackupOf n d0 target (some b))
    (h : BelowBut n T u target d0 s.disk) (hx : d0.file target = some x) (hbx : s.disk.file b = some x) :
    Ends (mkdirParents target.area target.parent.path >>= fun _ => call fun d => d.replace b target)
      (fun _ s' => s.SameJournal s' ∧ Below n T u d0 s'.disk ∧
        ∀ l, s.disk.node l = some .dir → s'.disk.node l = some .dir) (fun _ _ => False) s := by
  obtain ⟨⟨kind, m, hm, rfl⟩, hfree, -⟩ := hb
  have htp := Disk.path_ne_nil_of_file hx
  have hslot : Slot n u target := .inl ⟨ht, htp⟩
  have hne : undoLoc kind m ≠ target := by rintro rfl; cases ht
  have habove : ∀ r, r <:+ target.path.tail → d0.node ⟨.users u, r⟩ = some .dir := by
    intro r hr
    rw [← ht]
    exact hd.dir_above hx hr
  have hfit : s.disk.Fits target := by
    have := hd.fits (l := target) (by rw [Disk.file_eq_some_iff.1 hx]; rfl)
    unfold Disk.Fits Disk.pathTooLong at this ⊢
    rwa [h.pathMax]
  have hnodir : s.disk.node target ≠ some .dir := by
    intro hdir
    rcases h.dirs _ hdir with hdir | ⟨-, hT⟩
    · rw [Disk.file_of_node_dir hdir] at hx
      cases hx
    · refine hav target.path x ?_ hT
      rw [← ht]
      exact hx
  rw [ends_bind]
  refine (mkdirParents_back h.wf hq hslot hfit fun r hr => ?_).mono (fun _ s1 hs1 => ?_) (fun _ _ hf => hf)
  · rw [ht, h.files, Disk.file_of_node_dir (habove r hr)]
    rintro rfl
    exact not_suffix_tail htp hr
  · obtain ⟨hj1, hedit1, hp1, hdirs1⟩ := hs1
    have hnodir1 : s1.disk.node target ≠ some .dir := by
      intro hdir
      rcases hedit1.dirs _ hdir with hdir | ⟨-, hdir⟩
      · exact hnodir hdir
      · exact not_suffix_tail htp hdir
    refine (replace_back (u := u) hedit1.wf (hj1.quiet hq) (by rw [hedit1.file, hbx]) hne htp hp1 hnodir1
      ((hedit1.fits_iff _).2 hfit)).mono
      (fun _ s2 hs2 => ⟨hj1.trans hs2.1, ?_, fun l hl => hs2.2.2 l (hdirs1 l hl)⟩) (fun _ _ hf => hf)
    have hall := hedit1.trans hs2.2.1 List.nil_suffix
    rw [hedit1.file_eq] at hall
    refine ⟨hall.wf, hall.pathMax.trans h.pathMax, fun v p => ?_, fun p y hy => ?_, ?_, fun l hl => ?_⟩
    · rw [hall.file]
      by_cases e : (⟨.users v, p⟩ : Loc) = target
      · rw [e, Function.update_self, hx]
      · rw [Function.update_of_ne e, Function.update_of_ne (by simp [undoLoc]), h.files v p e]
    · have e1 : (⟨.undo, p⟩ : Loc) ≠ target := by rintro rfl; cases ht
      have e2 : (⟨.undo, p⟩ : Loc) ≠ undoLoc kind m := by
        intro e
        rw [e, Disk.file_of_node_none hfree] at hy
        cases hy
      rw [hall.file, Function.update_of_ne e1, Function.update_of_ne e2]
      exact h.undoFiles p y hy
    · exact hall.freshFrom h.fresh (update_undrawn (update_undrawn h.fresh.file (.inl rfl))
        (.inr fun _ _ hm' => hslot.ne_undoLoc hm'))
    · rcases hall.dirs l hl with hl | ⟨ha, hl⟩
      · exact h.dirs l hl
      · left
        obtain ⟨a, q⟩ := l
        obtain rfl : a = .users u := ha
        exact habove q hl

/-- The backup is put back after a step that has touched no other file. -/
private theorem putBack_of_edit {s : Fs} {target b : Loc} {made : TreePath} {files : Loc → Option ByteArray}
    (hd : d0.WF) (hav : Avoids T u d0) (hq : s.fault = none) (ht : target.area = .users u)
    (hb : BackupOf n d0 target (some b)) (hedit : Edit u d0 d made files) (hmade : made <:+ target.path.tail)
    (hfiles : ∀ l, l ≠ target → files l = if some b = some l then d0.file target else d0.file l)
    (h : Below n T u d s.disk) :
    Ends (mkdirParents target.area target.parent.path >>= fun _ => call fun d => d.replace b target)
      (fun _ s' => s.SameJournal s' ∧ Below n T u d0 s'.disk ∧
        ∀ l, s.disk.node l = some .dir → s'.disk.node l = some .dir) (fun _ _ => False) s := by
  have ⟨_, hfree, x, hx⟩ := hb
  have hbt : b ≠ target := by rintro rfl; rw [Disk.file_of_node_none hfree] at hx; cases hx
  refine putBack hd hav hq ht hb ⟨h.wf, h.pathMax.trans hedit.pathMax, fun v p hne => ?_, fun p y hy => ?_, h.fresh,
    fun l hl => ?_⟩ hx ?_
  · have hne' : b ≠ ⟨.users v, p⟩ := fun e => by have := hb.area; rw [e] at this; cases this
    rw [h.files, hedit.file, hfiles _ hne, if_neg (by simpa using hne')]
  · have hne : (⟨.undo, p⟩ : Loc) ≠ target := by rintro rfl; cases ht
    have hne' : b ≠ ⟨.undo, p⟩ := by rintro rfl; rw [Disk.file_of_node_none hfree] at hy; cases hy
    refine h.undoFiles p y ?_
    rw [hedit.file, hfiles _ hne, if_neg (by simpa using hne'), hy]
  · rcases h.dirs l hl with hl | hl
    · rcases hedit.dirs l hl with hl | ⟨ha, hl⟩
      · exact .inl hl
      · left
        obtain ⟨a, q⟩ := l
        obtain rfl : a = .users u := ha
        rw [← ht]
        exact hd.dir_above hx (hl.trans hmade)
    · exact .inr hl
  · refine h.file_of_slot hb.slot ?_
    rw [hedit.file, hfiles _ hbt, if_pos rfl, hx]

theorem Inverts.removeEntry {target b : Loc} (hd : d0.WF) (hav : Avoids T u d0) (ht : target.area = .users u)
    (hb : BackupOf n d0 target (some b)) (hedit : Edit u d0 d [] (removed d0 target (some b))) :
    Inverts n T u (.removeEntry target (some b)) d0 d := by
  intro s hq h
  refine (putBack_of_edit hd hav hq ht hb hedit List.nil_suffix (fun l hl => ?_) h).mono
    (fun _ s' hs' => ⟨hs'.1, hs'.2.1, fun q hq => .inr (hs'.2.2 _ hq)⟩) (fun _ _ hf => hf)
  rw [removed, if_neg hl]

theorem Inverts.replaceEntry {target : Loc} {backup : Option Loc} {y : ByteArray} (hd : d0.WF) (hT : Upward T)
    (hav : Avoids T u d0) (ht : target.area = .users u) (hb : BackupOf n d0 target backup)
    (hedit : Edit u d0 d target.path.tail (placed d0 target backup y)) :
    Inverts n T u (.replaceEntry u target backup) d0 d := by
  intro s hq h
  cases backup with
  | some b =>
    refine (putBack_of_edit hd hav hq ht hb hedit (List.suffix_refl _) (fun l hl => ?_) h).mono
      (fun _ s' hs' => ⟨hs'.1, hs'.2.1, fun q hq => .inr (hs'.2.2 _ hq)⟩) (fun _ _ hf => hf)
    rw [placed, if_neg hl]
  | none =>
    have hfree : d0.file target = none := Disk.file_of_node_none hb
    have hnone : ∀ l, l ≠ target → d.file l = d0.file l := by
      intro l hl
      rw [hedit.file, placed, if_neg hl, if_neg (by simp)]
    obtain ⟨a, p⟩ := target
    obtain rfl : a = .users u := ht
    have hy : s.disk.file ⟨.users u, p⟩ = some y := by
      rw [h.files, hedit.file, placed, if_pos rfl]
    show Ends (unlinkIfExists (some ⟨.users u, p⟩) >>= fun _ => removeEmptyParents u ⟨.users u, p.tail⟩) _ _ s
    rw [ends_bind]
    refine (unlink_back (u := u) h.wf hq (h.wf.removable_of_file hy)).mono (fun _ s1 hs1 => ?_) (fun _ _ hf => hf)
    obtain ⟨hj1, hedit1, hdirs1⟩ := hs1
    refine (removeEmptyParents_below hd hT ?_ ?_).mono (fun _ s2 hs2 => ⟨hj1.trans hs2.1, hs2.2.1, fun q hdir => ?_⟩)
      (fun _ _ hf => hf)
    rotate_right
    · exact (hs2.2.2 q (hdirs1 _ hdir)).imp (fun hqp => ⟨p, Loc.mem_inTree.2 rfl, hqp⟩) id
    · refine ⟨hedit1.wf, (hedit1.pathMax.trans h.pathMax).trans hedit.pathMax, fun v q => ?_, fun q x hx => ?_, ?_,
        fun l hl => ?_⟩
      · rw [hedit1.file, Function.update_apply]
        split
        · rename_i e
          rw [e, hfree]
        · rename_i e
          rw [h.files, hnone _ e]
      · rw [hedit1.file, Function.update_of_ne (by simp)]
        refine h.undoFiles q x ?_
        rw [hnone _ (by simp), hx]
      · exact hedit1.freshFrom h.fresh (update_undrawn h.fresh.file (.inl rfl))
      · rcases hedit1.dirs l hl with hl | ⟨-, hl⟩
        · rcases h.dirs l hl with hl | ⟨ha, hl⟩
          · rcases hedit.dirs l hl with hl | ⟨ha, hl⟩
            · exact .inl hl
            · exact .inr ⟨ha, .inr hl⟩
          · exact .inr ⟨ha, .inl hl⟩
        · exact .inl (if_pos (List.suffix_nil.1 hl))
    · exact hdirs1 _ (h.wf.dir_above hy (List.suffix_refl _))

/-- The place a file was renamed from is free for it. -/
private theorem source_free {e : Disk} {source target : Loc} {backup : Option Loc} {x : ByteArray} (hd : d0.WF)
    (hav : Avoids T u d0) (hs : Slot n u source) (ht : Slot n u target) (hx : d0.file source = some x)
    (hb : BackupOf n d0 target backup) (hbelow : target.area = source.area → ¬source.path <:+ target.path.tail)
    (hedit : Edit u d0 d target.path.tail (renamed d0 source target backup)) (h : Below n T u d e) :
    e.Fits source ∧ (∀ r, r <:+ source.path.tail → e.file ⟨source.area, r⟩ = none) ∧ e.node source ≠ some .dir := by
  have hsp := hs.path_ne_nil
  refine ⟨?_, fun r hr => ?_, fun hdir => ?_⟩
  · rw [h.fits_iff, hedit.fits_iff]
    exact hd.fits (by rw [Disk.file_eq_some_iff.1 hx]; rfl)
  · have hdir := hd.dir_above hx hr
    rcases hs.area with ha | ha
    · rw [ha] at hdir ⊢
      rw [h.files, hedit.file, renamed, if_neg, if_neg, if_neg, Disk.file_of_node_dir hdir]
      · rintro rfl
        cases hb.area
      · rintro rfl
        exact not_suffix_tail hsp hr
      · intro heq
        rw [heq] at hdir
        exact hb.not_dir hdir
    · rw [ha] at hr
      exact Disk.file_of_node_dir (if_pos (List.suffix_nil.1 hr))
  · rcases h.dirs _ hdir with hdir | ⟨ha, hT⟩
    · rcases hedit.dirs _ hdir with hdir | ⟨ha, hmade⟩
      · rw [Disk.file_of_node_dir hdir] at hx
        cases hx
      · rcases ht.area with hta | hta
        · exact hbelow (hta.trans ha.symm) hmade
        · rw [hta] at hmade
          exact hsp (List.suffix_nil.1 hmade)
    · refine hav source.path x ?_ hT
      rw [← ha]
      exact hx

/-- A disk on which the file has been renamed back. -/
private theorem belowBut_renamed {e f : Disk} {source target : Loc} {backup : Option Loc} {x : ByteArray} (hd : d0.WF)
    (hs : Slot n u source) (hne : source ≠ target) (hx : d0.file source = some x) (hb : BackupOf n d0 target backup)
    (hbu : ∀ b, backup = some b → target.area = .users u)
    (hedit : Edit u d0 d target.path.tail (renamed d0 source target backup)) (h : Below n T u d e)
    (hback : Edit u e f source.path.tail (Function.update (Function.update e.file target none) source (some x))) :
    BelowBut n (T ∪ {r | r <:+ target.path.tail}) u target d0 f ∧ f.file target = none ∧
      ∀ p z, d.file ⟨.undo, p⟩ = some z → (⟨.undo, p⟩ : Loc) ≠ target → f.file ⟨.undo, p⟩ = some z := by
  have hundo : ∀ p z, d.file ⟨.undo, p⟩ = some z → (⟨.undo, p⟩ : Loc) ≠ target → f.file ⟨.undo, p⟩ = some z := by
    intro p z hz hpt
    rw [hback.file]
    by_cases hps : (⟨.undo, p⟩ : Loc) = source
    · rw [hedit.file, renamed, if_neg hpt, if_pos hps] at hz
      cases hz
    · rw [Function.update_of_ne hps, Function.update_of_ne hpt]
      exact h.undoFiles p z hz
  refine ⟨⟨hback.wf, (hback.pathMax.trans h.pathMax).trans hedit.pathMax, fun v p hpt => ?_, fun p z hz => ?_,
    hback.freshFrom h.fresh (update_undrawn (update_undrawn h.fresh.file (.inl rfl))
      (.inr fun _ _ hm => hs.ne_undoLoc hm)), fun l hl => ?_⟩, ?_, hundo⟩
  · rw [hback.file]
    by_cases hps : (⟨.users v, p⟩ : Loc) = source
    · rw [hps, Function.update_self, hx]
    · rw [Function.update_of_ne hps, Function.update_of_ne hpt, h.files, hedit.file, renamed, if_neg hpt, if_neg hps,
        if_neg]
      rintro rfl
      cases hb.area
  · by_cases hps : (⟨.undo, p⟩ : Loc) = source
    · rw [hback.file, hps, Function.update_self, ← hx, ← hps, hz]
    · have hpt : (⟨.undo, p⟩ : Loc) ≠ target := by
        rintro rfl
        cases backup with
        | none => rw [Disk.file_of_node_none hb] at hz; cases hz
        | some b => cases hbu b rfl
      refine hundo p z ?_ hpt
      rw [hedit.file, renamed, if_neg hpt, if_neg hps, if_neg, hz]
      rintro rfl
      rw [Disk.file_of_node_none hb.2.1] at hz
      cases hz
  · rcases hback.dirs l hl with hl | ⟨ha, hl⟩
    · rcases h.dirs l hl with hl | ⟨ha, hl⟩
      · rcases hedit.dirs l hl with hl | ⟨ha, hl⟩
        · exact .inl hl
        · exact .inr ⟨ha, .inr hl⟩
      · exact .inr ⟨ha, .inl hl⟩
    · left
      rcases hs.area with hsa | hsa
      · obtain ⟨a, q⟩ := l
        rw [show a = source.area from ha.trans hsa.symm]
        exact hd.dir_above hx hl
      · rw [hsa] at hl
        exact if_pos (List.suffix_nil.1 hl)
  · rw [hback.file, Function.update_of_ne hne.symm, Function.update_self]

/-- The first half of undoing a rename: the file is back at `source`, `target` is missing, and the directories that
were made for `target` may still be there. -/
private theorem renameBack {s : Fs} {source target : Loc} {backup : Option Loc} {x : ByteArray} (hd : d0.WF)
    (hav : Avoids T u d0) (hq : s.fault = none) (hs : Slot n u source) (ht : Slot n u target) (hne : source ≠ target)
    (hx : d0.file source = some x) (hb : BackupOf n d0 target backup)
    (hbu : ∀ b, backup = some b → target.area = .users u)
    (hbelow : target.area = source.area → ¬source.path <:+ target.path.tail)
    (hedit : Edit u d0 d target.path.tail (renamed d0 source target backup)) (h : Below n T u d s.disk) :
    Ends (mkdirParents source.area source.parent.path)
      (fun _ => Ends (pathExists target)
        (fun found s2 => found = true ∧ Ends (call fun d => d.replace target source)
          (fun _ s' => s.SameJournal s' ∧ BelowBut n (T ∪ {r | r <:+ target.path.tail}) u target d0 s'.disk ∧
            s'.disk.file target = none ∧
            (∀ p z, d.file ⟨.undo, p⟩ = some z → (⟨.undo, p⟩ : Loc) ≠ target → s'.disk.file ⟨.undo, p⟩ = some z) ∧
            s'.disk.node target.parent = some .dir ∧ ∀ l, s.disk.node l = some .dir → s'.disk.node l = some .dir)
          (fun _ _ => False) s2)
        (fun _ _ => False))
      (fun _ _ => False) s := by
  have hsp := hs.path_ne_nil
  -- the file is at the target, and the place it came from is free
  have hat : s.disk.file target = some x := h.file_of_slot ht (by rw [hedit.file, renamed, if_pos rfl, hx])
  obtain ⟨hfit, habove, hnodir⟩ := source_free hd hav hs ht hx hb hbelow hedit h
  -- the folders of the source may have been pruned, so they are made again
  refine (mkdirParents_back h.wf hq hs hfit habove).mono (fun _ s1 hs1 => ?_) (fun _ _ hf => hf)
  obtain ⟨hj1, hedit1, hp1, hdirs1⟩ := hs1
  have hat1 : s1.disk.file target = some x := by rw [hedit1.file, hat]
  have hnode1 := Disk.file_eq_some_iff.1 hat1
  refine (pathExists_spec hedit1.wf target).mono (fun b s2 hs2 => ?_) (fun _ s2 hs2 => ?_)
  · obtain ⟨hk2, rfl⟩ := hs2
    refine ⟨by rw [hnode1]; rfl, ?_⟩
    have hnodir1 : s2.disk.node source ≠ some .dir := by
      rw [hk2.disk]
      intro hdir
      rcases hedit1.dirs _ hdir with hdir | ⟨-, hdir⟩
      · exact hnodir hdir
      · exact not_suffix_tail hsp hdir
    refine (replace_back (u := u) (by rw [hk2.disk]; exact hedit1.wf) (hk2.quiet (hj1.quiet hq))
      (by rw [hk2.disk, hat1]) hne.symm hsp (by rw [hk2.disk]; exact hp1) hnodir1
      (by rw [hk2.disk]; exact (hedit1.fits_iff _).2 hfit)).mono (fun _ s3 hs3 => ?_) (fun _ _ hf => hf)
    obtain ⟨hj3, hedit3, hdirs3⟩ := hs3
    rw [hk2.disk] at hedit3 hdirs3
    have hall := hedit1.trans hedit3 List.nil_suffix
    rw [hedit1.file_eq] at hall
    obtain ⟨hbut, hgone, hundo⟩ := belowBut_renamed hd hs hne hx hb hbu hedit h hall
    exact ⟨(hj1.trans hk2.toSameJournal).trans hj3, hbut, hgone, hundo,
      hdirs3 _ (hedit1.wf.dir_above hat1 (List.suffix_refl _)), fun l hl => hdirs3 l (hdirs1 l hl)⟩
  · rcases hs2.2 with hf | hf
    · exact hf (hj1.quiet hq)
    · exact hf (hedit1.wf.fits (by rw [hnode1]; rfl))

theorem Inverts.renameEntry {source target : Loc} {backup : Option Loc} {x : ByteArray} (hd : d0.WF) (hT : Upward T)
    (hav : Avoids T u d0) (hs : Slot n u source) (ht : Slot n u target) (hne : source ≠ target)
    (hx : d0.file source = some x) (hb : BackupOf n d0 target backup) (hbs : backup ≠ some source)
    (hbu : ∀ b, backup = some b → target.area = .users u)
    (hbelow : target.area = source.area → ¬source.path <:+ target.path.tail)
    (hedit : Edit u d0 d target.path.tail (renamed d0 source target backup)) :
    Inverts n T u (.renameEntry u source target backup) d0 d := by
  intro s hq h
  have hback := renameBack hd hav hq hs ht hne hx hb hbu hbelow hedit h
  unfold Undo.run undoRenameTreeEntry
  rw [ends_bind]
  refine hback.mono (fun _ s1 hs1 => ?_) (fun _ _ hf => hf)
  rw [ends_bind]
  refine hs1.mono (fun found s2 hs2 => ?_) (fun _ _ hf => hf)
  obtain ⟨rfl, hs2⟩ := hs2
  simp only [if_true, ends_bind]
  refine hs2.mono (fun _ s3 hs3 => ?_) (fun _ _ hf => hf)
  obtain ⟨hj, hbut, hgone, hundo, hpar, hdirs⟩ := hs3
  cases backup with
  | none =>
    have hfree : d0.file target = none := Disk.file_of_node_none hb
    have hbelow' : Below n (T ∪ {r | r <:+ target.path.tail}) u d0 s3.disk := by
      refine ⟨hbut.wf, hbut.pathMax, fun v p => ?_, hbut.undoFiles, hbut.fresh, hbut.dirs⟩
      by_cases e : (⟨.users v, p⟩ : Loc) = target
      · rw [e, hgone, hfree]
      · exact hbut.files v p e
    rcases ht with ⟨ha, -⟩ | ⟨kind, m, -, rfl⟩
    · show Ends (removeEmptyParents u target.parent) _ _ s3
      have hp : target.parent = ⟨.users u, target.path.tail⟩ := by rw [Loc.parent, ha]
      rw [hp] at hpar ⊢
      refine (removeEmptyParents_below hd hT hbelow' hpar).mono
        (fun _ s4 hs4 => ⟨hj.trans hs4.1, hs4.2.1, fun q hdir => ?_⟩) (fun _ _ hf => hf)
      exact (hs4.2.2 q (hdirs _ hdir)).imp
        (fun hqp => ⟨target.path, Loc.mem_inTree.2 (by rw [← ha]), hqp⟩) id
    · refine ⟨hj, ?_, fun q hdir => .inr (hdirs _ hdir)⟩
      refine ⟨hbelow'.wf, hbelow'.pathMax, hbelow'.files, hbelow'.undoFiles, hbelow'.fresh, fun l hl => ?_⟩
      rcases hbelow'.dirs l hl with hl | ⟨ha, hl | hl⟩
      · exact .inl hl
      · exact .inr ⟨ha, hl⟩
      · exact .inl (if_pos (List.suffix_nil.1 hl))
  | some b =>
    have hta := hbu b rfl
    obtain ⟨-, -, z, hz⟩ := id hb
    have hbt : b ≠ target := fun e => by have := hb.area; rw [e, hta] at this; cases this
    have hbs' : b ≠ source := fun e => hbs (by rw [e])
    refine (putBack hd hav (hj.quiet hq) hta hb ⟨hbut.wf, hbut.pathMax, hbut.files, hbut.undoFiles, hbut.fresh,
      fun l hl => ?_⟩ hz ?_).mono
      (fun _ s4 hs4 => ⟨hj.trans hs4.1, hs4.2.1, fun q hdir => .inr (hs4.2.2 _ (hdirs _ hdir))⟩) (fun _ _ hf => hf)
    · rcases hbut.dirs l hl with hl | ⟨ha, hl | hl⟩
      · exact .inl hl
      · exact .inr ⟨ha, hl⟩
      · left
        obtain ⟨a, q⟩ := l
        rw [show a = target.area from ha.trans hta.symm]
        exact hd.dir_above hz hl
    · obtain ⟨a, p⟩ := b
      obtain rfl : a = .undo := hb.area
      refine hundo p z ?_ hbt
      rw [hedit.file, renamed, if_neg hbt, if_neg hbs', if_pos rfl, hz]

/-! ### A directory in the way -/

/-- A file cannot be put back where a directory is. -/
private theorem replace_blocked {s : Fs} {source target : Loc} {x : ByteArray} (h : s.disk.WF)
    (hx : s.disk.file source = some x) (hdir : s.disk.node target = some .dir) :
    Ends (call fun d => d.replace source target) (fun _ _ => False) (fun _ s' => s'.disk.file target = none) s := by
  refine (call_spec _ s).mono (fun _ s' hs' => ?_) (fun _ s' hs' => ?_)
  rotate_left
  · rw [hs'.1.disk, Disk.file_of_node_dir hdir]
  have hne : source ≠ target := by
    rintro rfl
    rw [Disk.file_of_node_dir hdir] at hx
    cases hx
  obtain ⟨-, -, hnodir, -⟩ := h.replace_ok (Disk.file_eq_some_iff.1 hx) hne hs'.1
  exact hnodir hdir

theorem Blocks.removeEntry {target b : Loc} (hb : BackupOf n d0 target (some b))
    (hedit : Edit u d0 d [] (removed d0 target (some b))) : Blocks n u (.removeEntry target (some b)) d := by
  intro p hp T s hq h hdir
  obtain rfl := Loc.mem_inTree.1 hp
  obtain ⟨-, -, x, hx⟩ := id hb
  have hbt : b ≠ ⟨.users u, p⟩ := by
    rintro rfl
    cases hb.area
  -- the backup is there
  have hbx : s.disk.file b = some x := by
    refine h.file_of_slot hb.slot ?_
    rw [hedit.file, removed, if_neg hbt, if_pos rfl, hx]
  show Ends (mkdirParents _ _ >>= fun _ => call fun d => d.replace b _) _ _ s
  rw [ends_bind]
  refine (mkdirParents_spec _ _ h.wf).mono (fun _ s1 hs1 => ?_) (fun _ s1 hs1 => ?_)
  rotate_left
  · obtain ⟨-, -, _, -, hadds, -⟩ := hs1
    rw [hadds.file_eq, Disk.file_of_node_dir hdir]
  refine replace_blocked hs1.2.wf (x := x) ?_ ?_
  · rw [hs1.2.file_eq, hbx]
  · rw [hs1.2.node]
    split
    · rfl
    · exact hdir

theorem Blocks.renameEntry {source target : Loc} {backup : Option Loc} {x : ByteArray} (ht : Slot n u target)
    (hx : d0.file source = some x) (hedit : Edit u d0 d target.path.tail (renamed d0 source target backup)) :
    Blocks n u (.renameEntry u source target backup) d := by
  intro p hp T s hq h hdir
  obtain rfl := Loc.mem_inTree.1 hp
  -- the file is at the target
  have hat : s.disk.file target = some x := h.file_of_slot ht (by rw [hedit.file, renamed, if_pos rfl, hx])
  unfold Undo.run undoRenameTreeEntry
  rw [ends_bind]
  have hnone := Disk.file_of_node_dir hdir
  refine (mkdirParents_spec _ _ h.wf).mono (fun _ s1 hs1 => ?_) (fun _ s1 hs1 => ?_)
  rotate_left
  · obtain ⟨-, -, _, -, hadds, -⟩ := hs1
    rw [hadds.file_eq, hnone]
  have hat1 : s1.disk.file target = some x := by rw [hs1.2.file_eq, hat]
  rw [ends_bind]
  refine (pathExists_spec hs1.2.wf target).mono (fun found s2 hs2 => ?_) (fun _ s2 hs2 => ?_)
  rotate_left
  · rw [hs2.1.disk, hs1.2.file_eq, hnone]
  obtain ⟨hk, rfl⟩ := hs2
  rw [Disk.file_eq_some_iff.1 hat1]
  simp only [Option.isSome_some, if_true, ends_bind]
  refine (replace_blocked (x := x) (by rw [hk.disk]; exact hs1.2.wf) (by rw [hk.disk, hat1]) ?_).mono
    (fun _ _ hf => hf.elim) (fun _ _ hs' => hs')
  rw [hk.disk, hs1.2.node]
  split
  · rfl
  · exact hdir

end

end Ctxd

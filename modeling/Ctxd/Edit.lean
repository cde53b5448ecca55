import Ctxd.Calls
import Mathlib.Logic.Function.Basic
import Std.Data.String.ToNat

/-!
# What the calls do to the files

The correctness of a submission is about files; directories only come into it when they are in the way.  `Edit` states
what a program has done to a disk on that level: which files there are now, and which directories may be new.  Edits
compose (`Edit.trans`), and each call of the store is one.
-/

namespace Ctxd

open Program

namespace Disk

/-- The data of the file at a location, if there is one. -/
def file (d : Disk) (l : Loc) : Option ByteArray :=
  match d.node l with
  | some (.file data) => some data
  | _ => none

variable {d : Disk} {l : Loc}

theorem file_eq_some_iff {data : ByteArray} : d.file l = some data ↔ d.node l = some (.file data) := by
  unfold file
  split
  · rename_i x hx
    rw [hx]; simp
  · rename_i hx
    simp only [reduceCtorEq, false_iff]
    exact fun h => hx data h

theorem file_eq_none_iff : d.file l = none ↔ d.node l = none ∨ d.node l = some .dir := by
  unfold file
  split
  · rename_i x hx
    rw [hx]; simp
  · rename_i hx
    simp only [true_iff]
    rcases hn : d.node l with _ | n
    · exact .inl rfl
    · cases n with
      | dir => exact .inr rfl
      | file data => exact absurd hn (hx data)

theorem node_eq_none_of (hf : d.file l = none) (hd : d.node l ≠ some .dir) : d.node l = none :=
  (file_eq_none_iff.1 hf).resolve_right hd

theorem file_of_node_none (h : d.node l = none) : d.file l = none := file_eq_none_iff.2 (.inl h)

theorem file_of_node_dir (h : d.node l = some .dir) : d.file l = none := file_eq_none_iff.2 (.inr h)

private theorem file_put (hl : l.path ≠ []) (data : ByteArray) :
    (d.put l (.file data)).file = Function.update d.file l (some data) := by
  funext l'
  rw [Function.update_apply]
  unfold file
  rw [node_put d hl]
  by_cases h : l' = l <;> simp [h]

theorem file_remove (hl : l.path ≠ []) : (d.remove l).file = Function.update d.file l none := by
  funext l'
  rw [Function.update_apply]
  unfold file
  rw [node_remove d hl]
  by_cases h : l' = l <;> simp [h]

theorem path_ne_nil_of_file {data : ByteArray} (h : d.file l = some data) : l.path ≠ [] := by
  intro e
  rw [file_eq_some_iff, node, if_pos e] at h
  cases h

/-- The directories above a file, and no files. -/
theorem WF.dir_above (h : d.WF) {a : Area} {p q : TreePath} {data : ByteArray} (hp : d.file ⟨a, p⟩ = some data)
    (hq : q <:+ p.tail) : d.node ⟨a, q⟩ = some .dir := by
  have hne : p ≠ [] := path_ne_nil_of_file hp
  refine h.ancestor (p := p) (by rw [file_eq_some_iff.1 hp]; rfl) (hq.trans (List.tail_suffix p)) ?_
  rintro rfl
  have := hq.length_le
  cases q with
  | nil => exact hne rfl
  | cons x q => simp at this

/-- A file at the location can be removed if there is one, and nothing is in the way if there is none. -/
structure Removable (d : Disk) (l : Loc) : Prop where
  fits : d.Fits l
  notDir : d.node l ≠ some .dir
  above : ∀ r, r <:+ l.path → r ≠ l.path → ∀ data, d.node ⟨l.area, r⟩ ≠ some (.file data)

/-- Removing a file at such a location ends well or finds no file. -/
theorem Removable.unlink (hl : d.Removable l) (h : d.WF) {e : Errno} (he : d.unlink l = .error e) : e = .ENOENT := by
  unfold Disk.unlink at he
  split at he
  · rename_i e' hresolve
    cases he
    rcases resolve_error_cases hresolve with rfl | rfl | ⟨-, hlong⟩
    · rfl
    · obtain ⟨r, hr, data, hfile⟩ := h.resolve_enotdir hresolve
      by_cases hne : r = l.path
      · rw [hne] at hfile
        rw [(h.resolve_ok_iff l _).2 hfile] at hresolve
        cases hresolve
      · exact absurd hfile (hl.above r hr hne data)
    · exact absurd hl.fits hlong
  · rename_i hresolve
    exact absurd ((h.resolve_ok_iff l _).1 hresolve) hl.notDir
  · cases he

theorem WF.removable_of_file (h : d.WF) {data : ByteArray} (hl : d.file l = some data) : d.Removable l := by
  have hnode := file_eq_some_iff.1 hl
  refine ⟨h.fits (by rw [hnode]; rfl), by rw [hnode]; simp, fun r hr hne other hother => ?_⟩
  rw [h.ancestor (p := l.path) (by rw [hnode]; rfl) hr hne] at hother
  cases hother

/-- When there is nothing to remove, there is no file. -/
theorem WF.file_of_unlink_noent (h : d.WF) (he : d.unlink l = .error .ENOENT) : d.file l = none := by
  cases hfile : d.file l with
  | none => rfl
  | some data =>
    rw [h.unlink_of_file (file_eq_some_iff.1 hfile)] at he
    cases he

end Disk

/-! ### Edits -/

/-- `e` is `d` with the files `files`; no directory is new but those at `made` and above it in the tree of `u`. -/
structure Edit (u : String) (d e : Disk) (made : TreePath) (files : Loc → Option ByteArray) : Prop where
  wf : e.WF
  pathMax : e.pathMax = d.pathMax
  file : ∀ l, e.file l = files l
  dirs : ∀ l, e.node l = some .dir → d.node l = some .dir ∨ (l.area = .users u ∧ l.path <:+ made)

namespace Edit

variable {u : String} {d e f : Disk} {made : TreePath} {files files' : Loc → Option ByteArray}

theorem refl (h : d.WF) : Edit u d d [] d.file := ⟨h, rfl, fun _ => rfl, fun _ h => .inl h⟩

/-- Two edits, the second of which makes no directory outside `made`. -/
theorem trans {made' : TreePath} (h : Edit u d e made files) (h' : Edit u e f made' files') (hm : made' <:+ made) :
    Edit u d f made files' where
  wf := h'.wf
  pathMax := h'.pathMax.trans h.pathMax
  file := h'.file
  dirs l hl := by
    rcases h'.dirs l hl with hl | ⟨ha, hl⟩
    · exact h.dirs l hl
    · exact .inr ⟨ha, hl.trans hm⟩

theorem congr (h : Edit u d e made files) (hf : ∀ l, files l = files' l) : Edit u d e made files' :=
  ⟨h.wf, h.pathMax, fun l => (h.file l).trans (hf l), h.dirs⟩

theorem file_eq (h : Edit u d e made files) : e.file = files := funext h.file

theorem fits_iff (h : Edit u d e made files) (l : Loc) : e.Fits l ↔ d.Fits l := by
  unfold Disk.Fits Disk.pathTooLong
  rw [h.pathMax]

/-- Outside the tree of `u` no directory is new. -/
theorem node_eq_none (h : Edit u d e made files) {l : Loc} (ha : l.area ≠ .users u) (hd : d.node l ≠ some .dir)
    (hf : files l = none) : e.node l = none := by
  refine Disk.node_eq_none_of (by rw [h.file, hf]) fun hl => ?_
  rcases h.dirs l hl with hl | hl
  · exact hd hl
  · exact ha hl.1

end Edit

theorem Disk.AddsDirs.file_eq {d e : Disk} {a : Area} {q : TreePath} (h : d.AddsDirs e a q) : e.file = d.file := by
  funext l
  obtain ⟨la, lp⟩ := l
  by_cases hl : la = a ∧ lp <:+ q
  · have hdir : e.node ⟨la, lp⟩ = some .dir := by rw [h.node, if_pos hl]
    rw [file_of_node_dir hdir]
    obtain ⟨rfl, hlp⟩ := hl
    cases hd : d.file ⟨la, lp⟩ with
    | none => rfl
    | some data => exact absurd (file_eq_some_iff.1 hd) (h.noFile lp hlp data)
  · unfold file
    rw [h.node, if_neg hl]

theorem Disk.AddsDirs.edit {u : String} {d e : Disk} {a : Area} {q : TreePath} (h : d.AddsDirs e a q)
    (ha : a = .users u ∨ q = []) : Edit u d e q d.file := by
  refine ⟨h.wf, h.pathMax, fun l => by rw [h.file_eq], fun l hl => ?_⟩
  rw [h.node] at hl
  split at hl
  · rename_i hq
    rcases ha with rfl | rfl
    · exact .inr hq
    · left
      rw [List.suffix_nil] at hq
      exact if_pos hq.2
  · exact .inl hl

/-- A directory that is already there is not made. -/
theorem Disk.AddsDirs.edit_of_dir {u : String} {d e : Disk} {a : Area} {q : TreePath} (h : d.AddsDirs e a q)
    (hq : ∀ r, r <:+ q → d.node ⟨a, r⟩ = some .dir) : Edit u d e [] d.file := by
  refine ⟨h.wf, h.pathMax, fun l => by rw [h.file_eq], fun l hl => ?_⟩
  rw [h.node] at hl
  split at hl
  · rename_i hl'
    obtain ⟨la, lp⟩ := l
    obtain ⟨rfl, hlp⟩ := hl'
    exact .inl (hq lp hlp)
  · exact .inl hl

/-! ### The edits of the calls -/

section Calls

variable {u : String} {d e : Disk}

theorem Edit.put_file (h : d.WF) {l : Loc} {x : ByteArray} (hl : l.path ≠ []) (hp : d.node l.parent = some .dir)
    (hfit : d.Fits l) (hn : d.node l ≠ some .dir) :
    Edit u d (d.put l (.file x)) [] (Function.update d.file l (some x)) := by
  have hleaf : ∀ name, d.node ⟨l.area, name :: l.path⟩ = none := by
    cases hf : d.file l with
    | none => exact h.none_leaf (Disk.node_eq_none_of hf hn)
    | some x => exact h.file_leaf (Disk.file_eq_some_iff.1 hf)
  refine ⟨h.put hl hp hfit (.inr hleaf), rfl, fun l' => by rw [Disk.file_put hl], fun l' hl' => ?_⟩
  rw [Disk.node_put d hl] at hl'
  split at hl'
  · cases hl'
  · exact .inl hl'

private theorem Edit.remove (h : d.WF) {l : Loc} {data : ByteArray} (hf : d.file l = some data) :
    Edit u d (d.remove l) [] (Function.update d.file l none) := by
  have hl := Disk.path_ne_nil_of_file hf
  refine ⟨h.remove hl (h.file_leaf (Disk.file_eq_some_iff.1 hf)), rfl, fun l' => by rw [Disk.file_remove hl],
    fun l' hl' => ?_⟩
  rw [Disk.node_remove d hl] at hl'
  split at hl'
  · cases hl'
  · exact .inl hl'

private theorem Edit.rename (h : d.WF) {source target : Loc} {data : ByteArray} (hs : d.file source = some data)
    (hne : source ≠ target) (ht : target.path ≠ []) (hp : d.node target.parent = some .dir)
    (hn : d.node target ≠ some .dir) (hfit : d.Fits target) :
    Edit u d ((d.remove source).put target (.file data)) []
      (Function.update (Function.update d.file source none) target (some data)) := by
  have hs' := Disk.path_ne_nil_of_file hs
  obtain ⟨hwf, hnode⟩ := h.renamed (Disk.file_eq_some_iff.1 hs) hne ht hp hn hfit
  refine ⟨hwf, rfl, fun l => by rw [Disk.file_put ht, Disk.file_remove hs'], fun l hl => ?_⟩
  rw [hnode] at hl
  split at hl
  · cases hl
  · split at hl
    · cases hl
    · exact .inl hl

/-- A call whose result is known: it can only fail by a fault of its own. -/
private theorem call_known {f : Disk → Except Errno Disk} {s : Fs} {d : Disk} (hf : f s.disk = .ok d) :
    Ends (call f) (fun _ s' => s.SameJournal s' ∧ s'.disk = d) (fun _ s' => s.Kept s' ∧ s.fault ≠ none) s := by
  refine (call_spec f s).mono (fun _ s' hs' => ?_) (fun e s' hs' => ?_)
  · rw [hf] at hs'
    exact ⟨hs'.2, (Except.ok.inj hs'.1).symm⟩
  · rcases hs'.2 with ⟨_, hfault⟩ | ⟨er, her, _⟩
    · exact ⟨hs'.1, hfault⟩
    · rw [hf] at her; cases her

private theorem Disk.WF.link_of_file (h : d.WF) {source target : Loc} {data : ByteArray}
    (hs : d.file source = some data) (hp : d.node target.parent = some .dir) (ht : d.node target = none)
    (hfit : d.Fits target) : d.link source target = .ok (d.put target (.file data)) := by
  unfold link
  rw [(h.resolve_ok_iff _ _).2 (file_eq_some_iff.1 hs), h.resolve_noent hp ht hfit]

/-- A file is renamed to a place that is ready for it: only a fault and a target that does not fit are in the way. -/
theorem call_replace {s : Fs} (h : s.disk.WF) {source target : Loc} {data : ByteArray}
    (hs : s.disk.file source = some data) (hne : source ≠ target) (ht : target.path ≠ [])
    (hp : s.disk.node target.parent = some .dir) (hn : s.disk.node target ≠ some .dir) :
    Ends (call fun d => d.replace source target)
      (fun _ s' => s.SameJournal s' ∧
        Edit u s.disk s'.disk [] (Function.update (Function.update s.disk.file source none) target (some data)) ∧
        ∀ l, s.disk.node l = some .dir → s'.disk.node l = some .dir)
      (fun _ s' => s.Kept s' ∧ (s.fault ≠ none ∨ ¬s.disk.Fits target)) s := by
  have hs' := Disk.file_eq_some_iff.1 hs
  refine (call_spec _ s).mono (fun _ s' hcall => ?_) (fun e s' hcall => ⟨hcall.1, ?_⟩)
  · obtain ⟨-, -, -, hfit, hd⟩ := h.replace_ok hs' hne hcall.1
    rw [hd]
    refine ⟨hcall.2, Edit.rename h hs hne ht hp hn hfit, fun l hl => ?_⟩
    rw [(h.renamed hs' hne ht hp hn hfit).2, if_neg, if_neg, hl]
    · rintro rfl
      rw [hl] at hs'
      cases hs'
    · rintro rfl
      exact hn hl
  · rcases hcall.2 with ⟨-, hfault⟩ | ⟨er, her, -⟩
    · exact .inl hfault
    · refine .inr fun hfit => ?_
      rw [h.replace_of_file hs' hne hp hn hfit] at her
      cases her

/-- A file is removed, or there is none, or something is in the way. -/
theorem call_unlink {s : Fs} (h : s.disk.WF) (target : Loc) :
    Ends (call fun d => d.unlink target)
      (fun _ s' => s.SameJournal s' ∧ s.disk.file target ≠ none ∧
        Edit u s.disk s'.disk [] (Function.update s.disk.file target none) ∧
        ∀ l, s.disk.node l = some .dir → s'.disk.node l = some .dir)
      (fun e s' => s.Kept s' ∧ (e = .osError .ENOENT ∧ s.disk.file target = none ∨
        e ≠ .osError .ENOENT ∧ (s.fault ≠ none ∨ ¬s.disk.Removable target))) s := by
  refine (call_spec _ s).mono (fun _ s' hcall => ?_) (fun e s' hcall => ⟨hcall.1, ?_⟩)
  · obtain ⟨data, hfile, hd⟩ := h.unlink_ok hcall.1
    have hsome := Disk.file_eq_some_iff.2 hfile
    rw [hd]
    refine ⟨hcall.2, by rw [hsome]; simp, Edit.remove h hsome, fun l hl => ?_⟩
    rw [Disk.node_remove _ (Disk.path_ne_nil_of_file hsome), if_neg, hl]
    rintro rfl
    rw [hl] at hfile
    cases hfile
  · rcases hcall.2 with ⟨rfl, hfault⟩ | ⟨er, her, rfl⟩
    · exact .inr ⟨by simp, .inl hfault⟩
    · by_cases he : er = .ENOENT
      · rw [he] at her ⊢
        exact .inl ⟨rfl, h.file_of_unlink_noent her⟩
      · exact .inr ⟨fun heq => he (by injection heq), .inr fun hl => he (hl.unlink h her)⟩

/-- Unlinking a file that may be missing. -/
theorem unlinkIfExists_edit {s : Fs} (h : s.disk.WF) (target : Loc) :
    Ends (unlinkIfExists (some target))
      (fun _ s' => s.SameJournal s' ∧ Edit u s.disk s'.disk [] (Function.update s.disk.file target none) ∧
        ∀ l, s.disk.node l = some .dir → s'.disk.node l = some .dir)
      (fun _ s' => s.Kept s' ∧ (s.fault ≠ none ∨ ¬s.disk.Removable target)) s := by
  unfold unlinkIfExists
  rw [ends_tryCatch]
  refine (call_unlink (u := u) h target).mono (fun _ _ hcall => ⟨hcall.1, hcall.2.2⟩) (fun e s' hcall => ?_)
  obtain ⟨hkept, ⟨rfl, hnone⟩ | ⟨hne, hbad⟩⟩ := hcall
  · refine ⟨hkept.toSameJournal, ?_, fun l hl => by rw [hkept.disk, hl]⟩
    rw [hkept.disk]
    refine (Edit.refl h).congr fun l => ?_
    rw [Function.update_apply]
    split
    · rename_i heq
      rw [heq, hnone]
    · rfl
  · rw [if_neg hne]
    exact ⟨hkept, hbad⟩

end Calls

/-! ### Undo files -/

private theorem UndoKind.text_injective {k k' : UndoKind} {m m' : Nat}
    (h : k.text ++ "-" ++ uuidText m = k'.text ++ "-" ++ uuidText m') : k = k' ∧ m = m' := by
  have hh := congrArg String.toList h
  cases k <;> cases k' <;>
    simp only [text, uuidText, String.toList_append] at hh <;>
    first
    | exact ⟨rfl, Nat.repr_injective (String.toList_injective (List.append_cancel_left hh))⟩
    | (exfalso; revert hh; simp)

theorem undoLoc_inj {k k' : UndoKind} {m m' : Nat} : undoLoc k m = undoLoc k' m' ↔ k = k' ∧ m = m' := by
  constructor
  · intro h
    unfold undoLoc at h
    simp only [Loc.mk.injEq, List.cons.injEq, and_true, true_and] at h
    exact UndoKind.text_injective h
  · rintro ⟨rfl, rfl⟩
    rfl

theorem undoLoc_injective {k k' : UndoKind} {m m' : Nat} (h : undoLoc k m = undoLoc k' m') : m = m' :=
  (undoLoc_inj.1 h).2

@[simp] theorem undoLoc_area (k : UndoKind) (m : Nat) : (undoLoc k m).area = .undo := rfl

@[simp] theorem undoLoc_tail (k : UndoKind) (m : Nat) : (undoLoc k m).path.tail = [] := rfl

theorem undoLoc_path_ne_nil (k : UndoKind) (m : Nat) : (undoLoc k m).path ≠ [] := by simp [undoLoc]

/-- Nothing is stored under a uuid that has not been drawn yet. -/
def Disk.FreshFrom (d : Disk) (n : Nat) : Prop := ∀ kind m, n ≤ m → d.node (undoLoc kind m) = none

theorem Disk.FreshFrom.mono {d : Disk} {n n' : Nat} (h : d.FreshFrom n) (hn : n ≤ n') : d.FreshFrom n' :=
  fun kind m hm => h kind m (hn.trans hm)

theorem Disk.fits_undoLoc (d : Disk) (k : UndoKind) (m : Nat) : d.Fits (undoLoc k m) := ⟨rfl, fun _ _ => rfl⟩

private theorem Disk.parent_undoLoc (d : Disk) (k : UndoKind) (m : Nat) : d.node (undoLoc k m).parent = some .dir := rfl

/-- An edit that puts files only under uuids drawn before keeps the others fresh. -/
theorem Edit.freshFrom {u : String} {d e : Disk} {made : TreePath} {files : Loc → Option ByteArray} {n : Nat}
    (h : Edit u d e made files) (hd : d.FreshFrom n) (hf : ∀ kind m, n ≤ m → files (undoLoc kind m) = none) :
    e.FreshFrom n :=
  fun kind m hm => h.node_eq_none (by simp) (by rw [hd kind m hm]; simp) (hf kind m hm)

theorem Disk.FreshFrom.file {d : Disk} {n : Nat} (h : d.FreshFrom n) (kind : UndoKind) (m : Nat) (hm : n ≤ m) :
    d.file (undoLoc kind m) = none :=
  Disk.file_of_node_none (h kind m hm)

/-- A file that is taken away, or put at a name that is drawn or is none of an undo file. -/
theorem update_undrawn {files : Loc → Option ByteArray} {n : Nat} {l : Loc} {x : Option ByteArray}
    (h : ∀ kind m, n ≤ m → files (undoLoc kind m) = none) (hl : x = none ∨ ∀ kind m, n ≤ m → undoLoc kind m ≠ l) :
    ∀ kind m, n ≤ m → Function.update files l x (undoLoc kind m) = none := by
  intro kind m hm
  rw [Function.update_apply]
  split
  · rename_i heq
    exact hl.resolve_right fun hne => hne kind m hm heq
  · exact h kind m hm

/-- A file gets a second name, one for undo files that is free. -/
theorem call_link {s : Fs} (h : s.disk.WF) {u : String} {source : Loc} {data : ByteArray}
    (hs : s.disk.file source = some data) {kind : UndoKind} {m : Nat} (hfree : s.disk.node (undoLoc kind m) = none) :
    Ends (call fun d => d.link source (undoLoc kind m))
      (fun _ s' => s.SameJournal s' ∧
        Edit u s.disk s'.disk [] (Function.update s.disk.file (undoLoc kind m) (some data)) ∧
        ∀ l, s.disk.node l = some .dir → s'.disk.node l = some .dir)
      (fun _ s' => s.Kept s' ∧ s.fault ≠ none) s := by
  refine (call_known (h.link_of_file hs (Disk.parent_undoLoc _ _ _) hfree (Disk.fits_undoLoc _ _ _))).mono
    (fun _ s' hcall => ⟨hcall.1, ?_, fun l hl => ?_⟩) (fun _ _ hcall => hcall)
  · rw [hcall.2]
    exact Edit.put_file h (undoLoc_path_ne_nil _ _) (Disk.parent_undoLoc _ _ _) (Disk.fits_undoLoc _ _ _)
      (by rw [hfree]; simp)
  · rw [hcall.2, Disk.node_put _ (undoLoc_path_ne_nil _ _), if_neg, hl]
    rintro rfl
    rw [hfree] at hl
    cases hl

end Ctxd

import Ctxd.Edit
import Ctxd.FileFrame

/-!
# Files that stay as they are

A call on files changes what lies at its places and, when it renames a directory, what lies below them; directories
are made and removed anywhere.  So whatever is done with the files of a set of places that has with each place all
places below it, the other files are as before.
-/

namespace Ctxd

open Program

/-- With a place it has those below it, and it has all places outside the trees of the users. -/
structure Zone (file : Loc → Prop) : Prop where
  below : ∀ {l l' : Loc}, file l → l'.area = l.area → l.path <:+ l'.path → file l'
  undo : ∀ p, file ⟨.undo, p⟩
  objects : ∀ user p, file ⟨.objects user, p⟩

namespace Disk

variable {d d' : Disk} {l source target : Loc} {file : Loc → Prop}

/-! ### What a path walk finds -/

private theorem node_of_walk {a : Area} {p : TreePath} {n : Node} (h : d.walk a p = .ok n) :
    d.node ⟨a, p⟩ = some n := by
  cases p with
  | nil =>
    cases h
    rfl
  | cons name rest =>
    unfold walk at h
    split at h
    · cases h
    · cases h
    · split at h
      · cases h
      · split at h
        · cases h
        · rename_i hnode
          cases h
          rw [node_of_ne_nil d (List.cons_ne_nil name rest)]
          exact hnode

private theorem node_of_resolve {n : Node} (h : d.resolve l = .ok n) : d.node l = some n := by
  unfold resolve at h
  split at h
  · cases h
  · exact node_of_walk h

/-- What is missing in a directory that is there. -/
private theorem node_of_noent (hparent : d.resolve l.parent = .ok .dir) (h : d.resolve l = .error .ENOENT) :
    d.node l = none := by
  obtain ⟨a, p⟩ := l
  unfold resolve at hparent h
  split at h
  · cases h
  split at hparent
  · cases hparent
  cases p with
  | nil => cases h
  | cons name rest =>
    have hwalk : d.walk a rest = .ok .dir := hparent
    rw [node_of_ne_nil d (List.cons_ne_nil name rest)]
    dsimp only at h
    unfold walk at h
    rw [hwalk] at h
    dsimp only at h
    split at h
    · cases h
    · split at h
      · rename_i hnode
        exact hnode
      · cases h

/-! ### The files after a call -/

/-- The files at other places are as before. -/
def SameOutside (file : Loc → Prop) (d d' : Disk) : Prop := ∀ l, ¬file l → d'.file l = d.file l

private theorem file_congr (h : d'.node l = d.node l) : d'.file l = d.file l := by
  unfold Disk.file
  rw [h]

private theorem node_put_of_ne (d : Disk) {l' : Loc} (h : l' ≠ l) (n : Node) : (d.put l n).node l' = d.node l' := by
  unfold node put
  rw [Dict.get?_set_of_ne h]

private theorem node_remove_of_ne (d : Disk) {l' : Loc} (h : l' ≠ l) : (d.remove l).node l' = d.node l' := by
  unfold node remove
  rw [Dict.get?_pop, if_neg h]

theorem sameOutside_put (d : Disk) (hl : file l) (n : Node) : d.SameOutside file (d.put l n) := by
  intro l' hl'
  have hne : l' ≠ l := fun heq => hl' (heq ▸ hl)
  exact file_congr (d.node_put_of_ne hne n)

private theorem sameOutside_remove (d : Disk) (hl : file l) : d.SameOutside file (d.remove l) := by
  intro l' hl'
  have hne : l' ≠ l := fun heq => hl' (heq ▸ hl)
  exact file_congr (d.node_remove_of_ne hne)

theorem SameOutside.trans {d'' : Disk} (h : d.SameOutside file d') (h' : d'.SameOutside file d'') :
    d.SameOutside file d'' := fun l hl => (h' l hl).trans (h l hl)

/-- A directory is made where nothing was. -/
theorem sameOutside_mkdir (h : d.mkdir l = .ok d') : d.SameOutside file d' := by
  unfold mkdir at h
  split at h
  · cases h
  · cases h
  · rename_i hparent
    split at h
    · cases h
    · rename_i hmissing
      cases h
      have hnone := node_of_noent hparent hmissing
      have hpath : l.path ≠ [] := by
        intro hnil
        unfold node at hnone
        rw [if_pos hnil] at hnone
        cases hnone
      intro l' _
      by_cases heq : l' = l
      · subst heq
        rw [file_of_node_none hnone]
        apply file_of_node_dir
        rw [node_put d hpath, if_pos rfl]
      · exact file_congr (d.node_put_of_ne heq _)
    · cases h

/-- A directory is removed, and no file. -/
theorem sameOutside_rmdir (h : d.rmdir l = .ok d') : d.SameOutside file d' := by
  unfold rmdir at h
  split at h
  · cases h
  · cases h
  · rename_i hdir
    split at h
    · cases h
    · rename_i hfull
      cases h
      have hpath : l.path ≠ [] := by
        intro hnil
        simp [hnil] at hfull
      intro l' _
      by_cases heq : l' = l
      · subst heq
        rw [file_of_node_dir (node_of_resolve hdir)]
        apply file_of_node_none
        rw [node_remove d hpath, if_pos rfl]
      · exact file_congr (d.node_remove_of_ne heq)

theorem sameOutside_link (h : d.link source target = .ok d') (ht : file target) : d.SameOutside file d' := by
  unfold link at h
  split at h
  · cases h
  · cases h
  · split at h
    · cases h
    · cases h
      exact d.sameOutside_put ht _
    · cases h

theorem sameOutside_unlink (h : d.unlink l = .ok d') (hl : file l) : d.SameOutside file d' := by
  unfold unlink at h
  split at h
  · cases h
  · cases h
  · cases h
    exact d.sameOutside_remove hl

/-- A directory of the zone is moved to a place in the zone. -/
private theorem sameOutside_moveTree (d : Disk) (hz : Zone file) (hs : file source) (ht : file target) :
    d.SameOutside file (d.moveTree source target) := by
  intro l hl
  have hkey : ∀ k, rebase source target k = l ↔ k = l := by
    intro k
    unfold rebase
    split
    · rename_i hbelow
      constructor
      · rintro rfl
        exact (hl (hz.below ht rfl (List.suffix_append _ _))).elim
      · rintro rfl
        exact absurd (hz.below hs hbelow.1 hbelow.2) hl
    · rfl
  refine Eq.trans (file_congr ?_) (d.sameOutside_remove ht l hl)
  unfold node
  split
  · rfl
  · exact Dict.get?_map_key hkey (d.nodes.pop target)

theorem sameOutside_replace (h : d.replace source target = .ok d') (hz : Zone file) (hs : file source)
    (ht : file target) : d.SameOutside file d' := by
  have hfile : ∀ data, d.SameOutside file ((d.remove source).put target (.file data)) := fun data =>
    (d.sameOutside_remove hs).trans (sameOutside_put _ ht _)
  unfold replace at h
  split at h
  · cases h
  · split at h
    · cases h
    · cases h
    · split at h
      · split at h
        · cases h
          exact fun _ _ => rfl
        · split at h
          · cases h
            exact hfile _
          · cases h
          · split at h <;> cases h
            exact d.sameOutside_moveTree hz hs ht
      · split at h
        · cases h
          exact fun _ _ => rfl
        · split at h
          · cases h
            exact hfile _
          · cases h
          · split at h <;> cases h
            exact d.sameOutside_moveTree hz hs ht
      · cases h
      · split at h
        · cases h
        · split at h
          · cases h
            exact fun _ _ => rfl
          · split at h
            · cases h
            · split at h <;> cases h
              exact d.sameOutside_moveTree hz hs ht

end Disk

/-! ### Programs -/

/-- The files outside the zone are as before, and the clean-up is. -/
structure Fs.SameFiles (file : Loc → Prop) (s s' : Fs) : Prop where
  files : s.disk.SameOutside file s'.disk
  cleanupStack : s'.cleanupStack = s.cleanupStack

section

variable {file : Loc → Prop}

instance : IsPreorder Fs (Fs.SameFiles file) where
  refl _ := ⟨fun _ _ => rfl, rfl⟩
  trans _ _ _ h h' := ⟨h.files.trans h'.files, h'.cleanupStack.trans h.cleanupStack⟩

private theorem sameFiles_tick : Keeps (Fs.SameFiles file) (fun _ => True) tick := by
  intro s
  unfold tick
  rw [ends_bind, ends_get]
  split
  · exact ⟨refl_of (Fs.SameFiles file) s, trivial⟩
  · exact ⟨fun _ _ => rfl, rfl⟩
  · exact ⟨⟨fun _ _ => rfl, rfl⟩, trivial⟩

/-- Callbacks that work in a zone change no other file. -/
theorem sameFiles_frame (hz : Zone file) : CallFrame (Fs.SameFiles file) (fun _ => True) file where
  tick := sameFiles_tick
  uuid4 := fun _ => ⟨⟨fun _ _ => rfl, rfl⟩, trivial⟩
  mkdir _ hd := ⟨Disk.sameOutside_mkdir hd, rfl⟩
  rmdir _ hd := ⟨Disk.sameOutside_rmdir hd, rfl⟩
  link ht hd := ⟨Disk.sameOutside_link hd ht, rfl⟩
  unlink hl hd := ⟨Disk.sameOutside_unlink hd hl, rfl⟩
  replace hs ht hd := ⟨Disk.sameOutside_replace hd hz hs ht, rfl⟩
  undoLoc _ _ := hz.undo _
  dirs _ _ := trivial
  userDirs _ _ := trivial

theorem zone_all : Zone fun _ => True where
  below _ _ _ := trivial
  undo _ := trivial
  objects _ _ := trivial

/-- Everything but the trees of the users. -/
def OffTree (l : Loc) : Prop := ∀ v, l.area ≠ .users v

theorem zone_offTree : Zone OffTree where
  below h ha _ v := by
    rw [ha]
    exact h v
  undo _ _ hv := by cases hv
  objects _ _ _ hv := by cases hv

/-- Everything but the place `p` in the tree of `u` and what leads to it. -/
def Beside (u : String) (p : TreePath) (l : Loc) : Prop := l.area = .users u → ¬l.path <:+ p

theorem zone_beside (u : String) (p : TreePath) : Zone (Beside u p) where
  below h ha hl hu hp := h (ha.symm.trans hu) (hl.trans hp)
  undo _ hu := by cases hu
  objects _ _ hu := by cases hu

theorem not_beside {u : String} {p : TreePath} : ¬Beside u p ⟨.users u, p⟩ := fun h => h rfl (List.suffix_refl p)

end

end Ctxd

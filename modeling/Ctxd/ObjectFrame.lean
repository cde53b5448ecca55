import Ctxd.Lib.Blobs
import Ctxd.SubmitFrame

/-!
# What leaves the objects alone

The contents of documents are kept as files in the object directories.  Only a put writes one, and only the callbacks
`removeObject` of the journal take one away.  Everything else that a submission does to the disk, its undo callbacks
included, works on the trees of the users and on the undo directory (`Fs.Spares`), and moves and decisions name the
same objects in the rows (`World.Spares`).
-/

namespace Ctxd

open Program

/-! ### The object directories of a disk -/

def Area.Outside (a : Area) : Prop := ∀ v, a ≠ .objects v

def Loc.Outside (l : Loc) : Prop := l.area.Outside

private theorem Area.outside_users (user : String) : (Area.users user).Outside := fun _ => by simp

theorem Loc.outside_treeLoc (user path : String) : (treeLoc user path).Outside := Area.outside_users user

private theorem Loc.outside_undoLoc (kind : UndoKind) (uuid : Nat) : (undoLoc kind uuid).Outside := by
  intro v
  simp [undoLoc]

namespace Disk

/-- What lies at a place in an object directory. -/
def objects (d : Disk) (l : Loc) : Option Node :=
  match l.area with
  | .objects _ => d.nodes.get? l
  | _ => none

variable {d d' : Disk} {l source target : Loc}

theorem objects_eq (d : Disk) {v : String} (h : l.area = .objects v) : d.objects l = d.nodes.get? l := by
  simp only [objects, h]

private theorem objects_ext (h : ∀ l v, l.area = .objects v → d'.nodes.get? l = d.nodes.get? l) :
    d'.objects = d.objects := by
  funext l
  unfold objects
  split
  · rename_i v hv
    exact h l v hv
  · rfl

private theorem objects_put (d : Disk) (h : l.Outside) (n : Node) : (d.put l n).objects = d.objects := by
  refine objects_ext fun l' v hv => ?_
  have hne : l' ≠ l := fun e => h v (e ▸ hv)
  exact Dict.get?_set_of_ne hne n

private theorem objects_remove (d : Disk) (h : l.Outside) : (d.remove l).objects = d.objects := by
  refine objects_ext fun l' v hv => ?_
  have hne : l' ≠ l := fun e => h v (e ▸ hv)
  show (d.nodes.pop l).get? l' = _
  rw [Dict.get?_pop, if_neg hne]

private theorem rebase_eq_iff {v : String} (hs : source.Outside) (ht : target.Outside) (hl : l.area = .objects v)
    (k : Loc) :
    rebase source target k = l ↔ k = l := by
  unfold rebase
  split
  · rename_i h
    constructor
    · intro e
      exact absurd ((congrArg Loc.area e).trans hl) (ht v)
    · intro e
      exact absurd (h.1.symm.trans (e ▸ hl)) (hs v)
  · rfl

/-- A directory that is moved outside the object directories. -/
private theorem objects_moveTree (d : Disk) (hs : source.Outside) (ht : target.Outside) :
    (d.moveTree source target).objects = d.objects := by
  refine (objects_ext fun l v hv => ?_).trans (d.objects_remove ht)
  exact Dict.get?_map_key (rebase_eq_iff hs ht hv) (d.nodes.pop target)

/-! ### Calls outside the object directories -/

private theorem objects_mkdir (h : d.mkdir l = .ok d') (hl : l.Outside) : d'.objects = d.objects := by
  unfold mkdir at h
  split at h
  · cases h
  · cases h
  · split at h
    · cases h
    · cases h
      exact d.objects_put hl _
    · cases h

private theorem objects_link (h : d.link source target = .ok d') (ht : target.Outside) : d'.objects = d.objects := by
  unfold link at h
  split at h
  · cases h
  · cases h
  · split at h
    · cases h
    · cases h
      exact d.objects_put ht _
    · cases h

private theorem objects_unlink (h : d.unlink l = .ok d') (hl : l.Outside) : d'.objects = d.objects := by
  unfold unlink at h
  split at h
  · cases h
  · cases h
  · cases h
    exact d.objects_remove hl

private theorem objects_rmdir (h : d.rmdir l = .ok d') (hl : l.Outside) : d'.objects = d.objects := by
  unfold rmdir at h
  split at h
  · cases h
  · cases h
  · split at h
    · cases h
    · cases h
      exact d.objects_remove hl

private theorem objects_replace (h : d.replace source target = .ok d') (hs : source.Outside) (ht : target.Outside) :
    d'.objects = d.objects := by
  have hfile : ∀ data, ((d.remove source).put target (.file data)).objects = d.objects := fun data =>
    (objects_put _ ht _).trans (d.objects_remove hs)
  unfold replace at h
  split at h
  · cases h
  · split at h
    · cases h
    · cases h
    · split at h
      · split at h
        · cases h
          rfl
        · split at h
          · cases h
            exact hfile _
          · cases h
          · split at h <;> cases h
            exact d.objects_moveTree hs ht
      · split at h
        · cases h
          rfl
        · split at h
          · cases h
            exact hfile _
          · cases h
          · split at h <;> cases h
            exact d.objects_moveTree hs ht
      · cases h
      · split at h
        · cases h
        · split at h
          · cases h
            rfl
          · split at h
            · cases h
            · split at h <;> cases h
              exact d.objects_moveTree hs ht

end Disk

/-! ### The journal -/

/-- A callback that restores tree files has nothing to do with the object directories. -/
def Undo.Outside : Undo → Prop
  | .removeObject _ => True
  | .replaceEntry _ target backup => target.Outside ∧ ∀ l ∈ backup, l.Outside
  | .renameEntry _ source target backup => source.Outside ∧ target.Outside ∧ ∀ l ∈ backup, l.Outside
  | .removeEntry target backup => target.Outside ∧ ∀ l ∈ backup, l.Outside

def Cleanup.Outside : Cleanup → Prop
  | .unlinkBackup backup => ∀ l ∈ backup, l.Outside
  | .removeObject _ => True

structure Fs.Outside (s : Fs) : Prop where
  undo : ∀ u ∈ s.undoStack, u.Outside
  cleanup : ∀ c ∈ s.cleanupStack, c.Outside

/-- The objects that a rollback removes. -/
def Fs.made (s : Fs) : Set Loc := {l | Undo.removeObject l ∈ s.undoStack}

/-- The objects that the cleanup removes. -/
def Fs.dropped (s : Fs) : Set Loc := {l | Cleanup.removeObject l ∈ s.cleanupStack}

/-- The objects are as before, and the journal will remove the same ones. -/
structure Fs.Spares (s s' : Fs) : Prop where
  objects : s'.disk.objects = s.disk.objects
  uuids : s.uuids ≤ s'.uuids
  made : s'.made = s.made
  dropped : s'.dropped = s.dropped
  outside : s.Outside → s'.Outside
  quiet : s.fault = none → s'.fault = none

instance : IsPreorder Fs Fs.Spares where
  refl _ := ⟨rfl, le_rfl, rfl, rfl, id, id⟩
  trans _ _ _ h h' := ⟨h'.objects.trans h.objects, h.uuids.trans h'.uuids, h'.made.trans h.made,
    h'.dropped.trans h.dropped, fun ho => h'.outside (h.outside ho), fun hq => h'.quiet (h.quiet hq)⟩

private theorem Fs.Spares.of_disk {s : Fs} {d : Disk} (h : d.objects = s.disk.objects) : s.Spares (s.written d) :=
  ⟨h, le_rfl, rfl, rfl, fun h => ⟨h.undo, h.cleanup⟩, id⟩

theorem Undo.Outside.within {u : Undo} (hu : u.Outside) (hne : ∀ l, u ≠ .removeObject l) : u.Within Loc.Outside := by
  cases u with
  | removeObject l => exact absurd rfl (hne l)
  | replaceEntry user target backup => exact hu
  | renameEntry user source target backup => exact hu
  | removeEntry target backup => exact hu

private theorem Undo.Within.outside {u : Undo} (hu : u.Within Loc.Outside) : u.Outside := by
  cases u with
  | removeObject l => trivial
  | replaceEntry user target backup => exact hu
  | renameEntry user source target backup => exact hu
  | removeEntry target backup => exact hu

private theorem spares_tick : Keeps Fs.Spares (fun _ => True) tick := by
  intro s
  unfold tick
  rw [ends_bind, ends_get]
  split
  · exact ⟨refl_of Fs.Spares s, trivial⟩
  · rename_i hf
    rw [ends_bind, ends_set, ends_throw]
    exact ⟨rfl, le_rfl, rfl, rfl, fun h => ⟨h.undo, h.cleanup⟩, fun _ => rfl⟩
  · rename_i n hf
    rw [ends_set]
    refine ⟨⟨rfl, le_rfl, rfl, rfl, fun h => ⟨h.undo, h.cleanup⟩, fun hq => ?_⟩, trivial⟩
    rw [hf] at hq
    cases hq

private theorem spares_uuid4 : Keeps Fs.Spares (fun _ => True) uuid4 := by
  intro s
  rw [ends_uuid4]
  exact ⟨⟨rfl, Nat.le_succ _, rfl, rfl, fun h => ⟨h.undo, h.cleanup⟩, id⟩, trivial⟩

private theorem spares_pushUndo {s : Fs} {u : Undo} (hu : u.Outside) (hne : ∀ l, u ≠ .removeObject l) :
    s.Spares { s with undoStack := u :: s.undoStack } := by
  refine ⟨rfl, le_rfl, Set.ext fun l => ?_, rfl, fun h => ⟨fun x hx => ?_, h.cleanup⟩, id⟩
  · show Undo.removeObject l ∈ u :: s.undoStack ↔ Undo.removeObject l ∈ s.undoStack
    rw [List.mem_cons, or_iff_right fun e => hne l e.symm]
  · rcases List.mem_cons.1 hx with rfl | hx
    · exact hu
    · exact h.undo x hx

private theorem spares_pushCleanup {s : Fs} {backup : Option Loc} (h : ∀ l ∈ backup, l.Outside) :
    s.Spares { s with cleanupStack := s.cleanupStack ++ [.unlinkBackup backup] } := by
  refine ⟨rfl, le_rfl, rfl, Set.ext fun l => ?_, fun ho => ⟨ho.undo, fun x hx => ?_⟩, id⟩
  · show Cleanup.removeObject l ∈ s.cleanupStack ++ [Cleanup.unlinkBackup backup] ↔ _
    rw [List.mem_append, List.mem_singleton]
    exact or_iff_left (by simp)
  · rcases List.mem_append.1 hx with hx | hx
    · exact ho.cleanup x hx
    · rw [List.mem_singleton.1 hx]
      exact h

/-- The calls on tree entries leave the objects alone. -/
theorem spares_frame : Frame Fs.Spares Loc.Outside Loc.Outside where
  tick := spares_tick
  uuid4 := spares_uuid4
  mkdir hl hd := .of_disk (Disk.objects_mkdir hd hl)
  rmdir hl hd := .of_disk (Disk.objects_rmdir hd hl)
  link ht hd := .of_disk (Disk.objects_link hd ht)
  unlink hl hd := .of_disk (Disk.objects_unlink hd hl)
  replace hs ht hd := .of_disk (Disk.objects_replace hd hs ht)
  pushUndo hu hne := spares_pushUndo hu.outside hne
  pushCleanup hbackup := spares_pushCleanup hbackup
  undoLoc := Loc.outside_undoLoc
  dirs hl _ := hl
  userDirs user _ := Area.outside_users user

/-! ### Rows -/

/-- What a row says of its object. -/
def Entry.holding (e : Entry) :
    Blobs.Row SourceId Loc String := ⟨e.source, objectLoc e.userId e.objectId, e.contentHash⟩

def Catalog.holdings (c : Catalog) : Set (Blobs.Row SourceId Loc String) := {r | ∃ e ∈ c.entries, e.holding = r}

/-- The same objects, named by the rows as before. -/
structure World.Spares (w w' : World) : Prop where
  fs : w.fs.Spares w'.fs
  holdings : w'.catalog.holdings = w.catalog.holdings

instance : IsPreorder World World.Spares where
  refl w := ⟨refl_of Fs.Spares w.fs, rfl⟩
  trans _ _ _ h h' := ⟨trans_of Fs.Spares h.fs h'.fs, h'.holdings.trans h.holdings⟩

private theorem Catalog.holdings_updateEntry {c c' : Catalog} {user writer sourceKey path : String} {f : Entry → Entry}
    (hf : ∀ e, (f e).holding = e.holding) (h : c.updateEntry user writer sourceKey path f = .ok c') :
    c'.holdings = c.holdings := by
  unfold Catalog.updateEntry at h
  split at h
  · cases h
  · cases h
    have hkeep : ∀ e : Entry, (if e.isSource user writer sourceKey then { f e with path := path } else e).holding =
        e.holding := by
      intro e
      split
      · exact hf e
      · rfl
    ext r
    constructor
    · rintro ⟨e, he, hr⟩
      obtain ⟨e0, he0, rfl⟩ := List.mem_map.1 he
      exact ⟨e0, he0, (hkeep e0).symm.trans hr⟩
    · rintro ⟨e0, he0, hr⟩
      exact ⟨_, List.mem_map_of_mem he0, (hkeep e0).trans hr⟩

theorem Catalog.holdings_congr {c c' : Catalog} (h : c'.entries = c.entries) : c'.holdings = c.holdings := by
  unfold Catalog.holdings
  rw [h]

def Catalog.SameHoldings (c c' : Catalog) : Prop := c'.holdings = c.holdings

instance : IsPreorder Catalog Catalog.SameHoldings where
  refl _ := rfl
  trans _ _ _ h h' := Eq.trans h' h

/-- Moves and decisions leave what the rows say of their objects. -/
private theorem holdings_rows (user writer : String) : MoveRows user writer Catalog.SameHoldings where
  updateEntry hf hc := by
    refine Catalog.holdings_updateEntry (fun e => ?_) hc
    obtain ⟨version, time, heq⟩ := hf e
    rw [heq]
    rfl
  upsertDecision c _ _ _ := Catalog.holdings_congr (upsertDecision_entries c _).1

private theorem World.Spares.of_across {w w' : World} (h : World.Across Fs.Spares Catalog.SameHoldings w w') :
    w.Spares w' :=
  ⟨h.fs, h.catalog⟩

section

variable {user writer : String}

theorem keeps_onDisk {α : Type} {P : α → Prop} {m : FsM α} (h : Keeps Fs.Spares P m) :
    Keeps World.Spares P (onDisk m) := by
  intro w
  rw [ends_onDisk]
  exact (h w.fs).mono (fun _ _ hs => ⟨⟨hs.1, rfl⟩, hs.2⟩) (fun _ _ hs => ⟨hs, rfl⟩)

theorem keeps_moveBatch (operations : List MoveOperation) :
    Keeps World.Spares (fun _ => True) (moveBatch user writer operations) := by
  intro w
  have houtside : ∀ path, (treeLoc user path).Outside := Loc.outside_treeLoc user
  exact (spares_frame.moveBatch (holdings_rows user writer) (fun _ _ _ _ => houtside _) fun _ _ => houtside _).mono
    (fun _ _ hw => ⟨.of_across hw, trivial⟩) fun _ _ hw => .of_across hw

theorem keeps_decisionOperation (operation : DecisionOperation) :
    Keeps World.Spares (fun _ => True) (decisionOperation user writer operation) := by
  intro w
  exact ((holdings_rows user writer).decisionOperation (R := Fs.Spares) operation w).mono
    (fun _ _ hw => ⟨.of_across hw.1, trivial⟩) fun _ _ hw => .of_across hw

end

end Ctxd

import Ctxd.FileFrame
import Ctxd.Operations

/-!
# What a put, a delete and a decision leave alone

These operations work on tree entries through the programs of a `Frame`, on the files of objects, and on rows through
the statements of their writer.  So a relation on disks that allows the first two (`OperationFrame`) and one on catalogs
that allows the last (`WriterRows`) hold across each of them, however it ends, provided that the files it meets are in
their places.  One such relation says that the journal only grows (`putOperation_grows`).
-/

namespace Ctxd

open Program

/-- A relation on disks and one on catalogs. -/
structure World.Across (R : Fs → Fs → Prop) (C : Catalog → Catalog → Prop) (w w' : World) : Prop where
  fs : R w.fs w'.fs
  catalog : C w.catalog w'.catalog

instance {R : Fs → Fs → Prop} {C : Catalog → Catalog → Prop} [IsPreorder Fs R] [IsPreorder Catalog C] :
    IsPreorder World (World.Across R C) where
  refl w := ⟨refl_of R w.fs, refl_of C w.catalog⟩
  trans _ _ _ h h' := ⟨trans_of R h.fs h'.fs, trans_of C h.catalog h'.catalog⟩

/-- The statements of moves and decisions. -/
structure MoveRows (user writer : String) (C : Catalog → Catalog → Prop) : Prop where
  updateEntry : ∀ {c c' : Catalog} {sourceKey path : String} {f : Entry → Entry},
    (∀ e, ∃ version time, f e = { e with sourceVersion := version, updatedAt := time }) →
    c.updateEntry user writer sourceKey path f = .ok c' → C c c'
  upsertDecision : ∀ (c : Catalog) {row : Decision}, row.userId = user → row.writerId = writer →
    C c (c.upsertDecision row)

/-- All statements of a submission. -/
structure WriterRows (user writer : String) (C : Catalog → Catalog → Prop) : Prop extends MoveRows user writer C where
  upsertEntry : ∀ {c c' : Catalog} {row : Entry}, row.userId = user → row.writerId = writer →
    c.upsertEntry row = .ok c' → C c c'
  deleteEntry : ∀ (c : Catalog) (sourceKey : String), C c (c.deleteEntry user writer sourceKey)
  submissions : ∀ (c : Catalog) (rows : List SubmissionRow), C c { c with submissions := rows }

/-- What an operation does to the disk besides changing tree entries. -/
structure OperationFrame (R : Fs → Fs → Prop) (dir file : Loc → Prop) : Prop extends Frame R dir file where
  objectLoc : ∀ user objectId, file (objectLoc user objectId)
  putFile : ∀ {s : Fs} {l} (data : ByteArray), file l → R s (s.written (s.disk.put l (.file data)))
  pushObject : ∀ {s : Fs} {l}, file l → R s { s with undoStack := .removeObject l :: s.undoStack }
  dropObject : ∀ {s : Fs} {l}, file l → R s { s with cleanupStack := s.cleanupStack ++ [.removeObject l] }

section

variable {R : Fs → Fs → Prop} {C : Catalog → Catalog → Prop} [IsPreorder Fs R] [IsPreorder Catalog C]
  {dir file : Loc → Prop} {user writer : String}

/-! ### Access to the parts of the store -/

omit [IsPreorder Fs R] in
theorem across_onDisk {α : Type} {P : α → Prop} {m : FsM α} (h : Keeps R P m) :
    Keeps (World.Across R C) P (onDisk m) := by
  intro w
  rw [ends_onDisk]
  exact (h w.fs).mono (fun _ _ hs => ⟨⟨hs.1, refl_of C w.catalog⟩, hs.2⟩) (fun _ _ hs => ⟨hs, refl_of C w.catalog⟩)

theorem across_now : Keeps (World.Across R C) (fun _ => True) now :=
  fun w => ⟨⟨refl_of R w.fs, refl_of C w.catalog⟩, trivial⟩

theorem across_raising {α : Type} {x : Except StoreError α} :
    Keeps (World.Across R C) (fun _ => True) (orRaise x : StoreM α) := .orRaise fun _ => trivial

theorem across_execute {statement : Catalog → Except StoreError Catalog}
    (h : ∀ c c', statement c = .ok c' → C c c') : Keeps (World.Across R C) (fun _ => True) (execute statement) := by
  intro w
  rw [ends_execute]
  exact ⟨fun c' hc => ⟨⟨refl_of R w.fs, h _ _ hc⟩, trivial⟩, fun _ _ => refl_of (World.Across R C) w⟩

omit [IsPreorder Fs R] in
theorem across_transaction {α : Type} {P : α → Prop} {body : StoreM α} (h : Keeps (World.Across R C) P body) :
    Keeps (World.Across R C) P (transaction body) := by
  intro w
  rw [ends_transaction]
  exact (h w).mono (fun _ _ hw => hw) fun _ _ hw => ⟨hw.fs, refl_of C w.catalog⟩

/-- The files of the writer's documents are in their places. -/
def World.Places (w : World) (user writer : String) (file : Loc → Prop) : Prop :=
  ∀ e ∈ w.catalog.entries, e.userId = user → e.writerId = writer → file (treeLoc user e.path)

theorem World.Places.row {w : World} (h : w.Places user writer file) {sourceKey : String} {e : Entry}
    (he : w.catalog.row (user, writer, sourceKey) = some e) : file (treeLoc user e.path) := by
  obtain ⟨hmem, hsource⟩ := Catalog.mem_of_row he
  exact h e hmem (congrArg Prod.fst hsource) (congrArg (fun i => i.2.1) hsource)

/-! ### Decisions, puts and deletes -/

theorem MoveRows.decisionOperation (hC : MoveRows user writer C) (operation : DecisionOperation) :
    Keeps (World.Across R C) (fun _ => True) (decisionOperation user writer operation) := by
  have hrow : ∀ row : Int → Decision, (∀ time, (row time).userId = user ∧ (row time).writerId = writer) →
      Keeps (World.Across R C) (fun _ => True)
        (now >>= fun time => execute fun c => .ok (c.upsertDecision (row time))) := by
    refine fun row hrow => across_now.bind fun time _ => across_execute fun c c' hc => ?_
    cases hc
    exact hC.upsertDecision c (hrow time).1 (hrow time).2
  have hcatalog : Keeps (World.Across R C) (fun _ => True) catalog := fun w => ⟨refl_of (World.Across R C) w, trivial⟩
  unfold Ctxd.decisionOperation
  refine hcatalog.bind fun c _ => ?_
  cases operation.path with
  | none => exact Keeps.bind (P := fun _ => True) (.pure trivial) fun _ _ => hrow _ fun _ => ⟨rfl, rfl⟩
  | some path =>
    refine Keeps.ite (fun _ => Keeps.bind (P := fun _ => True) (.pure trivial) fun _ _ => hrow _ fun _ => ⟨rfl, rfl⟩)
      fun _ => ?_
    refine across_raising.bind fun path' _ => across_raising.bind fun _ _ => ?_
    exact Keeps.bind (P := fun _ => True) (.pure trivial) fun _ _ => hrow _ fun _ => ⟨rfl, rfl⟩

namespace OperationFrame

private theorem writeFrom (h : OperationFrame R dir file) {l : Loc} (hl : file l) (written : ByteArray)
    (rest : List UInt8) :
    Keeps R (fun _ => True) (writeFrom l written rest) := by
  induction rest generalizing written with
  | nil => exact .pure trivial
  | cons byte rest ih =>
    unfold Ctxd.writeFrom
    refine (h.call fun hd => ?_).bind fun _ _ => ih (written.push byte)
    cases hd
    exact h.putFile _ hl

private theorem writeBytes (h : OperationFrame R dir file) {l : Loc} (hl : file l) (data : ByteArray) :
    Keeps R (fun _ => True) (writeBytes l data) := by
  unfold Ctxd.writeBytes
  refine (h.call fun hd => ?_).bind fun _ _ => h.writeFrom hl _ _
  unfold Disk.create at hd
  split at hd
  · cases hd
  · cases hd
    exact h.putFile _ hl
  · cases hd
    exact h.putFile _ hl
  · cases hd

/-- A new object with its tree entry. -/
private theorem placeObject (h : OperationFrame R dir file) {path : String} (ht : file (treeLoc user path))
    (data : ByteArray)
    {α : Type} {P : α → Prop} {next : Nat → StoreM α} (hnext : ∀ objectId, Keeps (World.Across R C) P (next objectId)) :
    Keeps (World.Across R C) P (do
      let objectId ← onDisk uuid4
      onDisk (Ctxd.writeBytes (Ctxd.objectLoc user objectId) data)
      onDisk (Ctxd.pushUndo (.removeObject (Ctxd.objectLoc user objectId)))
      onDisk (replaceTreeEntry user path (Ctxd.objectLoc user objectId))
      next objectId) := by
  refine (across_onDisk h.uuid4).bind fun objectId _ => ?_
  have hl := h.objectLoc user objectId
  have hpush : Keeps R (fun _ => True) (Ctxd.pushUndo (.removeObject (Ctxd.objectLoc user objectId))) :=
    fun s => ⟨h.pushObject hl, trivial⟩
  refine (across_onDisk (h.writeBytes hl data)).bind fun _ _ => (across_onDisk hpush).bind fun _ _ => ?_
  exact (across_onDisk (h.replaceTreeEntry ht _)).bind fun _ _ => hnext objectId

theorem putOperation (h : OperationFrame R dir file) (hC : WriterRows user writer C) {op : PutOperation}
    {w : World} (hrows : w.Places user writer file) (hop : file (treeLoc user op.path)) :
    Ends (putOperation user writer op) (fun _ w' => World.Across R C w w') (fun _ w' => World.Across R C w w') w := by
  have hrow : ∀ row : Entry, row.userId = user → row.writerId = writer →
      Keeps (World.Across R C) (fun _ => True) (execute fun c => c.upsertEntry row) :=
    fun row hu hw => across_execute fun _ _ hc => hC.upsertEntry hu hw hc
  unfold Ctxd.putOperation
  rw [ends_bind, ends_orRaise]
  refine ⟨fun path hpath => ?_, fun _ _ => refl_of (World.Across R C) w⟩
  obtain rfl := normalizePath_eq hpath
  rw [ends_bind, ends_catalog]
  refine Keeps.ends (P := fun _ => True) ?_ w
  refine across_raising.bind fun _ _ => across_raising.bind fun text _ => across_now.bind fun time _ => ?_
  dsimp only
  cases hentry : w.catalog.entryBySourceKey user writer op.sourceKey with
  | none =>
    simp only [pure_bind]
    exact h.placeObject hop _ fun _ => hrow _ rfl rfl
  | some entry =>
    rw [Catalog.entryBySourceKey_eq_row] at hentry
    have hold := hrows.row hentry
    by_cases hhash : entry.contentHash = contentHash text.toUTF8
    · by_cases hmoved : entry.path ≠ op.path
      · simp only [if_pos hhash, if_pos hmoved, pure_bind]
        exact (across_onDisk (h.renameTreeFile user hold hop _)).bind fun _ _ => hrow _ rfl rfl
      · simp only [if_pos hhash, if_neg hmoved, pure_bind]
        exact hrow _ rfl rfl
    · have hdrop : Keeps R (fun _ => True) (Ctxd.pushCleanup (.removeObject (Ctxd.objectLoc user entry.objectId))) :=
        fun s => ⟨h.dropObject (h.objectLoc user _), trivial⟩
      simp only [if_neg hhash, pure_bind]
      by_cases hmoved : entry.path ≠ op.path
      · simp only [if_pos hmoved]
        refine h.placeObject hop _ fun _ => (across_onDisk (h.removeTreeEntry hold)).bind fun _ _ => ?_
        exact (across_onDisk hdrop).bind fun _ _ => hrow _ rfl rfl
      · simp only [if_neg hmoved]
        exact h.placeObject hop _ fun _ => (across_onDisk hdrop).bind fun _ _ => hrow _ rfl rfl

theorem deleteOperation (h : OperationFrame R dir file) (hC : WriterRows user writer C) (op : DeleteOperation)
    {w : World} (hrows : w.Places user writer file) :
    Ends (deleteOperation user writer op) (fun _ w' => World.Across R C w w') (fun _ w' => World.Across R C w w')
      w := by
  unfold Ctxd.deleteOperation
  rw [ends_bind, ends_catalog]
  cases hentry : w.catalog.entryBySourceKey user writer op.sourceKey with
  | none => exact refl_of (World.Across R C) w
  | some existing =>
    rw [Catalog.entryBySourceKey_eq_row] at hentry
    refine Keeps.ends (P := fun _ => True) (across_raising.bind fun _ _ => ?_) w
    refine (across_onDisk (h.removeTreeEntry (hrows.row hentry))).bind fun _ _ => across_execute fun c c' hc => ?_
    cases hc
    exact hC.deleteEntry c _

end OperationFrame

end

/-! ### The journal grows -/

/-- The callbacks of before are still there. -/
def Fs.Grows (s s' : Fs) : Prop := s.undoStack <:+ s'.undoStack

instance : IsPreorder Fs Fs.Grows where
  refl s := List.suffix_refl s.undoStack
  trans _ _ _ h h' := List.IsSuffix.trans h h'

private theorem grows_tick : Keeps Fs.Grows (fun _ => True) tick := by
  intro s
  unfold tick
  rw [ends_bind, ends_get]
  split
  · exact ⟨List.suffix_refl _, trivial⟩
  · exact List.suffix_refl _
  · exact ⟨List.suffix_refl _, trivial⟩

private theorem grows_frame : OperationFrame Fs.Grows (fun _ => True) (fun _ => True) where
  tick := grows_tick
  uuid4 := fun _ => ⟨List.suffix_refl _, trivial⟩
  mkdir _ _ := List.suffix_refl _
  rmdir _ _ := List.suffix_refl _
  link _ _ := List.suffix_refl _
  unlink _ _ := List.suffix_refl _
  replace _ _ _ := List.suffix_refl _
  pushUndo _ _ := List.suffix_cons _ _
  pushCleanup _ := List.suffix_refl _
  undoLoc _ _ := trivial
  dirs _ _ := trivial
  userDirs _ _ := trivial
  objectLoc _ _ := trivial
  putFile _ _ := List.suffix_refl _
  pushObject _ := List.suffix_cons _ _
  dropObject _ := List.suffix_refl _

def Catalog.Any (_ _ : Catalog) : Prop := True

instance : IsPreorder Catalog Catalog.Any where
  refl _ := trivial
  trans _ _ _ _ _ := trivial

private theorem any_rows (user writer : String) : WriterRows user writer Catalog.Any where
  updateEntry _ _ := trivial
  upsertDecision _ _ _ _ := trivial
  upsertEntry _ _ _ := trivial
  deleteEntry _ _ := trivial
  submissions _ _ := trivial

variable {user writer : String}

theorem putOperation_grows (op : PutOperation) (w : World) :
    Ends (putOperation user writer op) (fun _ w' => w.fs.undoStack <:+ w'.fs.undoStack)
      (fun _ w' => w.fs.undoStack <:+ w'.fs.undoStack) w :=
  (grows_frame.putOperation (any_rows user writer) (fun _ _ _ _ => trivial) trivial).mono (fun _ _ hw' => hw'.fs)
    (fun _ _ hw' => hw'.fs)

theorem decisionOperation_grows (op : DecisionOperation) (w : World) :
    Ends (decisionOperation user writer op) (fun _ w' => w.fs.undoStack <:+ w'.fs.undoStack)
      (fun _ w' => w.fs.undoStack <:+ w'.fs.undoStack) w :=
  (((any_rows user writer).toMoveRows.decisionOperation (R := Fs.Grows) op).ends w).mono (fun _ _ hw' => hw'.fs)
    (fun _ _ hw' => hw'.fs)

end Ctxd

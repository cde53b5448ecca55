import Ctxd.OperationFrame
import Ctxd.Placing

/-!
# What a submission leaves alone

A submission works on tree entries through the programs of a `Frame`, on the files of objects, and on rows through the
statements of its writer.  So a relation on disks that allows the first two (`SubmitFrame`) and one on catalogs that
allows the last (`WriterRows`) hold across a submission, however it ends, provided that the files it meets are in their
places: those of the writer's rows, and those at the paths of its operations (`SubmitFrame.submit`).
-/

namespace Ctxd

open Program

/-- The places of the files that a cleanup works on. -/
def Cleanup.Within (file : Loc → Prop) : Cleanup → Prop
  | .unlinkBackup backup => ∀ l ∈ backup, file l
  | .removeObject object => file object

/-- The journal works on such files only. -/
structure Fs.Journaled (file : Loc → Prop) (s : Fs) : Prop where
  undo : ∀ u ∈ s.undoStack, u.Within file
  cleanup : ∀ c ∈ s.cleanupStack, c.Within file

/-- What a submission does to the disk besides its operations. -/
structure SubmitFrame (R : Fs → Fs → Prop) (dir file : Loc → Prop) : Prop extends OperationFrame R dir file where
  reset : ∀ s : Fs, R s { s with undoStack := [], cleanupStack := [] }
  quiet : ∀ s : Fs, R s { s with fault := none }
  journaled : ∀ {s s' : Fs}, R s s' → s.Journaled file → s'.Journaled file

section

variable {R : Fs → Fs → Prop} {C : Catalog → Catalog → Prop} [IsPreorder Fs R] [IsPreorder Catalog C]
  {dir file : Loc → Prop} {user writer : String}

/-! ### Moves -/

private theorem Frame.breakMoveCycles (h : Frame R dir file) {destinations : Dict String String}
    (cycles : List (List String)) (locations : Dict String Loc) (temps : Dict String TempLocation)
    (hl : ∀ path l, locations.get? path = some l → file l)
    (ht : ∀ path t, temps.get? path = some t → file t.file) :
    Keeps (World.Across R C) (fun temps' => ∀ path t, temps'.get? path = some t → file t.file)
      (breakMoveCycles user destinations cycles locations temps) := by
  induction cycles generalizing locations temps with
  | nil => exact .pure ht
  | cons cycle rest ih =>
    unfold Ctxd.breakMoveCycles
    refine across_raising.bind fun sourcePath _ => ?_
    intro w
    rw [ends_bind, ends_orRaise]
    refine ⟨fun source hsource => ?_, fun _ _ => refl_of (World.Across R C) w⟩
    have hs : file source := hl _ _ (lookupKey_ok hsource)
    have hsome : Keeps (World.Across R C) (fun temps' => ∀ path t, temps'.get? path = some t → file t.file) (do
        let temp ← onDisk (Ctxd.undoPath .cycle)
        let uuid ← onDisk Ctxd.uuid4
        let tempLogicalPath := "_ctxfs_cycle/" ++ uuidText uuid
        onDisk (Ctxd.renameTreeFile user source temp sourcePath)
        Ctxd.breakMoveCycles user destinations rest (locations.set sourcePath temp)
          (temps.set sourcePath ⟨temp, tempLogicalPath⟩)) := by
      refine (across_onDisk (h.undoPath .cycle)).bind fun temp htemp => ?_
      refine (across_onDisk h.uuid4).bind fun uuid _ => ?_
      refine (across_onDisk (h.renameTreeFile user hs htemp sourcePath)).bind fun _ _ => ?_
      refine ih _ _ (fun path l hget => ?_) (fun path t hget => ?_)
      · rw [Dict.get?_set] at hget
        split at hget
        · rw [← Option.some.inj hget]
          exact htemp
        · exact hl path l hget
      · rw [Dict.get?_set] at hget
        split at hget
        · rw [← Option.some.inj hget]
          exact htemp
        · exact ht path t hget
    exact ((across_onDisk (h.pathExists source)).bind fun found _ => .ite (fun _ => hsome) fun _ => ih _ _ hl ht) w

private theorem Frame.moveEntry (h : Frame R dir file) (hC : MoveRows user writer C) {temps : Dict String TempLocation}
    (ht : ∀ path t, temps.get? path = some t → file t.file) {plan : PlannedMove}
    (hold : file (treeLoc user plan.entry.path)) (hnew : file (treeLoc user plan.destination)) :
    Keeps (World.Across R C) (fun _ => True) (moveEntry user writer temps plan) := by
  have hs : file (((temps.get? plan.entry.path).map TempLocation.file).getD (treeLoc user plan.entry.path)) := by
    cases hget : temps.get? plan.entry.path with
    | none => exact hold
    | some t => exact ht _ t hget
  have hrow : Keeps (World.Across R C) (fun _ => True) (do
      let time ← now
      execute fun c => c.updateEntry user writer plan.operation.sourceKey plan.destination fun e =>
        { e with sourceVersion := plan.operation.sourceVersion, updatedAt := time }) :=
    across_now.bind fun time _ => across_execute fun _ _ hc => hC.updateEntry (fun _ => ⟨_, _, rfl⟩) hc
  unfold Ctxd.moveEntry
  refine .ite (fun _ => ?_) fun _ => hrow
  refine (across_onDisk (h.pathExists _)).bind fun found _ => .ite (fun _ => ?_) fun _ => hrow
  exact (across_onDisk (h.renameTreeFile user hs hnew _)).bind fun _ _ => hrow

theorem Frame.moveBatch (h : Frame R dir file) (hC : MoveRows user writer C) {operations : List MoveOperation}
    {w : World} (hrows : w.Places user writer file) (hops : ∀ op ∈ operations, file (treeLoc user op.path)) :
    Ends (moveBatch user writer operations) (fun _ w' => World.Across R C w w') (fun _ w' => World.Across R C w w')
      w := by
  unfold Ctxd.moveBatch
  rw [ends_bind, ends_catalog, ends_bind, ends_orRaise]
  refine ⟨fun plans hplans => ?_, fun _ _ => refl_of (World.Across R C) w⟩
  obtain ⟨hoperations, hplanned⟩ := planMoves_ok hplans
  have hold : ∀ plan ∈ plans, file (treeLoc user plan.entry.path) := fun plan hplan =>
    hrows.row (hplanned plan hplan).row
  have hnew : ∀ plan ∈ plans, file (treeLoc user plan.destination) := by
    intro plan hplan
    rw [(hplanned plan hplan).destination]
    exact hops _ (hoperations ▸ List.mem_map_of_mem hplan)
  refine Keeps.ends (P := fun _ => True) ?_ w
  refine (h.breakMoveCycles _ _ _ (fun path l hget => ?_) (fun path t hget => by cases hget)).bind fun temps ht => ?_
  · rcases Dict.get?_foldl_set hget with hnone | ⟨plan, hplan, -, rfl⟩
    · cases hnone
    · exact hold plan hplan
  · refine (Keeps.forM fun item _ => ?_).bind fun _ _ => Keeps.forM fun plan hplan =>
      h.moveEntry hC ht (hold plan hplan) (hnew plan hplan)
    unfold parkEntry
    refine across_raising.bind fun sourceKey _ => across_now.bind fun time _ => ?_
    exact across_execute fun _ _ hc => hC.updateEntry (fun e => ⟨e.sourceVersion, time, rfl⟩) hc

/-! ### Submissions -/

namespace SubmitFrame

variable {A : Placement}

private theorem runStep (h : SubmitFrame R dir file) (hC : WriterRows user writer C)
    (hA : ∀ sourceKey path, A.entry (user, writer, sourceKey) path → file (treeLoc user path)) {step : Step}
    (hstep : ∀ op ∈ Placement.stepOperations step, A.Allows user writer op) {w : World} (hw : A.Clear w.catalog) :
    Ends (runStep user writer step) (fun _ w' => World.Across R C w w') (fun _ w' => World.Across R C w w') w := by
  have hrows : w.Places user writer file := by
    rintro e he rfl rfl
    exact hA e.sourceKey e.path ((hw.entries e he).resolve_right id)
  cases step with
  | put op => exact h.putOperation hC hrows (hA _ _ (hstep (.put op) (List.mem_singleton.2 rfl)))
  | moves ops =>
    have hmoves : ∀ op ∈ ops, file (treeLoc user op.path) :=
      fun op hop => hA _ _ (hstep (.move op) (List.mem_map_of_mem hop))
    exact h.moveBatch hC.toMoveRows hrows hmoves
  | delete op => exact h.deleteOperation hC op hrows
  | decision op => exact (hC.decisionOperation op).ends w

/-- The operations of a submission one after the other: what holds at the start of each is that the rows are in their
places. -/
private theorem applySubmission (h : SubmitFrame R dir file) (hC : WriterRows user writer C)
    (hA : ∀ sourceKey path, A.entry (user, writer, sourceKey) path → file (treeLoc user path))
    {operations : List Operation} (submissionId : Nat) {w : World} (hw : A.Clear w.catalog)
    (hops : A.AllowsChecked user writer operations w.catalog.writerPrefixes) :
    Ends (applySubmission user writer operations submissionId) (fun _ w' => World.Across R C w w')
      (fun _ w' => World.Across R C w w') w := by
  refine ends_applySubmission (fun _ _ => refl_of (World.Across R C) w) fun ordered hok => ?_
  have hsteps : Ends ((groupSteps ordered).forM (Ctxd.runStep user writer))
      (fun _ w' => A.Clear w'.catalog ∧ World.Across R C w w') (fun _ w' => World.Across R C w w') w := by
    refine Ends.forM_inv (fun step hstep w1 hw1 => ?_) ⟨hw, refl_of (World.Across R C) w⟩
    have hallowed : ∀ op ∈ Placement.stepOperations step, A.Allows user writer op :=
      fun op hop => hops _ _ rfl hok op (Placement.mem_of_groupSteps hstep hop)
    refine ((h.runStep hC hA hallowed hw1.1).and (Placement.runStep_lands hallowed w1 hw1.1)).mono
      (fun _ w2 hw2 => ?_) fun _ w2 hw2 => ?_
    · exact ⟨hw2.2.1, trans_of (World.Across R C) hw1.2 hw2.1⟩
    · exact trans_of (World.Across R C) hw1.2 hw2.1
  rw [ends_bind]
  refine hsteps.mono (fun _ w1 hw1 => ?_) fun _ w1 hw1 => ⟨hw1.fs, refl_of C w.catalog⟩
  rw [ends_bind, ends_now, ends_execute]
  refine ⟨fun c hc => ?_, fun _ _ => ⟨hw1.2.fs, refl_of C w.catalog⟩⟩
  cases hc
  exact ⟨hw1.2.fs, trans_of C hw1.2.catalog (hC.submissions _ _)⟩

private theorem rollbackFilesystem (h : SubmitFrame R dir file) {s : Fs} (hs : s.Journaled file) :
    Ends rollbackFilesystem (fun _ s' => R s s') (fun _ s' => R s s') s := by
  unfold Ctxd.rollbackFilesystem
  rw [ends_bind, ends_modify, ends_bind, ends_get]
  refine ((h.runUndos hs.undo).ends _).mono (fun _ s' hs' => ?_) fun _ s' hs' => ?_
  · exact trans_of R (h.quiet s) hs'
  · exact trans_of R (h.quiet s) hs'

private theorem cleanupFilesystem (h : SubmitFrame R dir file) {s : Fs} (hs : s.Journaled file) :
    Ends cleanupFilesystem (fun _ s' => R s s') (fun _ s' => R s s') s := by
  have hrun : ∀ cleanup ∈ s.cleanupStack, Keeps R (fun _ => True) (tryCatch cleanup.run fun _ => pure ()) := by
    intro cleanup hmem
    refine Keeps.tryCatch ?_ fun _ => .pure trivial
    cases cleanup with
    | unlinkBackup backup => exact h.unlinkIfExists (hs.cleanup _ hmem)
    | removeObject object => exact h.unlinkFile (hs.cleanup _ hmem)
  unfold Ctxd.cleanupFilesystem
  rw [ends_bind, ends_modify, ends_bind, ends_get]
  refine ((Keeps.forM hrun).ends _).mono (fun _ s' hs' => ?_) fun _ s' hs' => ?_
  · exact trans_of R (h.quiet s) hs'
  · exact trans_of R (h.quiet s) hs'

private theorem abandonSubmission (h : SubmitFrame R dir file) (hC : WriterRows user writer C) (submissionId : Nat)
    (e : StoreError) {w : World} (hw : w.fs.Journaled file) :
    Ends (abandonSubmission submissionId e) (fun _ w' => World.Across R C w w') (fun _ w' => World.Across R C w w')
      w := by
  unfold Ctxd.abandonSubmission
  rw [ends_bind, ends_onDisk]
  refine (h.rollbackFilesystem hw).mono (fun failed s1 hs1 => ?_) fun _ s1 hs1 => ⟨hs1, refl_of C w.catalog⟩
  rw [ends_bind, ends_now, ends_bind, ends_transaction, ends_execute]
  refine ⟨fun c hc => ?_, fun _ _ => ⟨hs1, refl_of C w.catalog⟩⟩
  cases hc
  rw [ends_bind, ends_onDisk]
  refine (h.cleanupFilesystem (h.journaled hs1 hw)).mono (fun _ s2 hs2 => ?_) fun _ s2 hs2 => ?_
  · exact ⟨trans_of R hs1 hs2, hC.submissions _ _⟩
  · exact ⟨trans_of R hs1 hs2, hC.submissions _ _⟩

private theorem readSubmission (submissionId : Nat) :
    Keeps (World.Across R C) (fun _ => True) (submission submissionId) := by
  intro w
  unfold submission
  rw [ends_bind, ends_catalog]
  split
  · exact refl_of (World.Across R C) w
  · exact ⟨refl_of (World.Across R C) w, trivial⟩

/-- However a submission ends, what its relations say holds across it. -/
theorem submit (h : SubmitFrame R dir file) (hC : WriterRows user writer C)
    (hA : ∀ sourceKey path, A.entry (user, writer, sourceKey) path → file (treeLoc user path))
    {operations : List Operation} {w : World} (hw : A.Clear w.catalog)
    (hops : A.AllowsChecked user writer operations w.catalog.writerPrefixes) :
    Ends (Ctxd.submit user writer operations) (fun _ w' => World.Across R C w w')
      (fun _ w' => World.Across R C w w') w := by
  unfold Ctxd.submit recordSubmission
  rw [ends_bind, ends_bind, ends_onDisk]
  refine (h.uuid4 w.fs).mono (fun submissionId s1 hs1 => ?_) fun _ s1 hs1 => ⟨hs1, refl_of C w.catalog⟩
  rw [ends_bind, ends_now, ends_bind, ends_transaction, ends_execute]
  refine ⟨fun c hc => ?_, fun _ _ => ⟨hs1.1, refl_of C w.catalog⟩⟩
  rw [ends_pure, ends_bind, ends_onDisk, ends_modify, ends_bind, ends_tryCatch]
  have hrecorded := Catalog.insertSubmission_ok hc
  have hclear : A.Clear c := hrecorded ▸ Placement.ClearBut.of_eq hw rfl rfl
  have hops' : A.AllowsChecked user writer operations c.writerPrefixes := by
    rw [hrecorded]
    exact hops
  have hstart : World.Across R C w
      { w with
        catalog := c, ticks := w.ticks + 1, fs := { s1 with undoStack := [], cleanupStack := [] } } := by
    refine ⟨trans_of R hs1.1 (h.reset s1), ?_⟩
    rw [hrecorded]
    exact hC.submissions _ _
  have hempty : ({ s1 with undoStack := [], cleanupStack := [] } : Fs).Journaled file :=
    ⟨fun _ hu => absurd hu List.not_mem_nil, fun _ hc => absurd hc List.not_mem_nil⟩
  have hend : ∀ w1 : World, World.Across R C w w1 → w1.fs.Journaled file →
      Ends (do onDisk Ctxd.cleanupFilesystem; submission submissionId) (fun _ w' => World.Across R C w w')
        (fun _ w' => World.Across R C w w') w1 := by
    intro w1 hw1 hj
    rw [ends_bind, ends_onDisk]
    refine (h.cleanupFilesystem hj).mono (fun _ s2 hs2 => ?_) fun _ s2 hs2 => ⟨trans_of R hw1.fs hs2, hw1.catalog⟩
    have hclean : World.Across R C w { w1 with fs := s2 } := ⟨trans_of R hw1.fs hs2, hw1.catalog⟩
    refine ((readSubmission (R := R) (C := C) submissionId).ends _).mono (fun _ w2 hw2 => ?_) fun _ w2 hw2 => ?_
    · exact trans_of (World.Across R C) hclean hw2
    · exact trans_of (World.Across R C) hclean hw2
  refine (h.applySubmission hC hA submissionId hclear hops').mono (fun _ w1 hw1 => ?_) fun e w1 hw1 => ?_
  · exact hend w1 (trans_of (World.Across R C) hstart hw1) (h.journaled hw1.fs hempty)
  · have hacross := trans_of (World.Across R C) hstart hw1
    have hjournaled := h.journaled hw1.fs hempty
    refine (h.abandonSubmission hC submissionId e hjournaled).mono (fun _ w2 hw2 => ?_) fun _ w2 hw2 => ?_
    · exact hend w2 (trans_of (World.Across R C) hacross hw2) (h.journaled hw2.fs hjournaled)
    · exact trans_of (World.Across R C) hacross hw2

end SubmitFrame

/-! ### Rows alone -/

def Fs.Any (_ _ : Fs) : Prop := True

instance : IsPreorder Fs Fs.Any where
  refl _ := trivial
  trans _ _ _ _ _ := trivial

private theorem any_frame : SubmitFrame Fs.Any (fun _ => True) (fun _ => True) where
  tick := fun s => by unfold Ends; split <;> simp [Fs.Any]
  uuid4 := fun _ => ⟨trivial, trivial⟩
  mkdir _ _ := trivial
  rmdir _ _ := trivial
  link _ _ := trivial
  unlink _ _ := trivial
  replace _ _ _ := trivial
  pushUndo _ _ := trivial
  pushCleanup _ := trivial
  undoLoc _ _ := trivial
  dirs _ _ := trivial
  userDirs _ _ := trivial
  objectLoc _ _ := trivial
  putFile _ _ := trivial
  pushObject _ := trivial
  dropObject _ := trivial
  reset _ := trivial
  quiet _ := trivial
  journaled _ _ := ⟨fun u _ => by cases u <;> simp [Undo.Within], fun c _ => by cases c <;> simp [Cleanup.Within]⟩

/-- What holds across the statements of a writer holds across its submissions, wherever its documents are. -/
theorem WriterRows.submit (hC : WriterRows user writer C) (operations : List Operation) :
    Keeps (fun w w' => C w.catalog w'.catalog) (fun _ => True) (submit user writer operations) := by
  intro w
  have hclear : (⟨fun _ _ => True, fun _ _ => True⟩ : Placement).Clear w.catalog :=
    ⟨fun _ _ => .inl trivial, fun _ _ _ _ => trivial⟩
  refine (any_frame.submit hC (fun _ _ _ => trivial) hclear fun c ordered _ _ op _ => ?_).mono
    (fun _ _ hw => ⟨hw.catalog, trivial⟩) fun _ _ hw => hw.catalog
  cases op <;> simp [Placement.Allows]

end

end Ctxd

import Ctxd.SubmitFrame
import Ctxd.Zone

/-!
# Submissions in a zone

A submission whose documents are in a zone leaves the files outside it as they were, and so do its callbacks.
-/

namespace Ctxd

open Program

/-- The files outside the zone are as before, and the journal has not left it. -/
structure Fs.Confined (file : Loc → Prop) (s s' : Fs) : Prop where
  files : s.disk.SameOutside file s'.disk
  journaled : s.Journaled file → s'.Journaled file

section

variable {file : Loc → Prop} {s : Fs}

instance : IsPreorder Fs (Fs.Confined file) where
  refl _ := ⟨fun _ _ => rfl, id⟩
  trans _ _ _ h h' := ⟨h.files.trans h'.files, fun hj => h'.journaled (h.journaled hj)⟩

private theorem Fs.Confined.of_disk {d : Disk} (h : s.disk.SameOutside file d) : s.Confined file (s.written d) :=
  ⟨h, fun hj => ⟨hj.undo, hj.cleanup⟩⟩

private theorem confined_tick : Keeps (Fs.Confined file) (fun _ => True) tick := by
  intro s
  unfold tick
  rw [ends_bind, ends_get]
  split
  · exact ⟨refl_of (Fs.Confined file) s, trivial⟩
  · exact ⟨fun _ _ => rfl, fun hj => ⟨hj.undo, hj.cleanup⟩⟩
  · exact ⟨⟨fun _ _ => rfl, fun hj => ⟨hj.undo, hj.cleanup⟩⟩, trivial⟩

private theorem confined_pushUndo {u : Undo} (hu : u.Within file) :
    s.Confined file { s with undoStack := u :: s.undoStack } := by
  refine ⟨fun _ _ => rfl, fun hj => ⟨fun x hx => ?_, hj.cleanup⟩⟩
  rcases List.mem_cons.1 hx with rfl | hx
  · exact hu
  · exact hj.undo x hx

private theorem confined_pushCleanup {c : Cleanup} (hc : c.Within file) :
    s.Confined file { s with cleanupStack := s.cleanupStack ++ [c] } := by
  refine ⟨fun _ _ => rfl, fun hj => ⟨hj.undo, fun x hx => ?_⟩⟩
  rcases List.mem_append.1 hx with hx | hx
  · exact hj.cleanup x hx
  · exact List.mem_singleton.1 hx ▸ hc

/-- A submission whose files are in a zone leaves all other files alone. -/
theorem confined_frame (hz : Zone file) : SubmitFrame (Fs.Confined file) (fun _ => True) file where
  tick := confined_tick
  uuid4 := fun _ => ⟨⟨fun _ _ => rfl, fun hj => ⟨hj.undo, hj.cleanup⟩⟩, trivial⟩
  mkdir _ hd := .of_disk (Disk.sameOutside_mkdir hd)
  rmdir _ hd := .of_disk (Disk.sameOutside_rmdir hd)
  link ht hd := .of_disk (Disk.sameOutside_link hd ht)
  unlink hl hd := .of_disk (Disk.sameOutside_unlink hd hl)
  replace hs ht hd := .of_disk (Disk.sameOutside_replace hd hz hs ht)
  pushUndo hu _ := confined_pushUndo hu
  pushCleanup hbackup := confined_pushCleanup hbackup
  undoLoc _ _ := hz.undo _
  dirs _ _ := trivial
  userDirs _ _ := trivial
  objectLoc _ _ := hz.objects _ _
  putFile _ hl := .of_disk (Disk.sameOutside_put _ hl _)
  pushObject hl := confined_pushUndo hl
  dropObject hl := confined_pushCleanup hl
  reset _ := ⟨fun _ _ => rfl, fun _ => ⟨fun _ hu => absurd hu List.not_mem_nil, fun _ hc => absurd hc List.not_mem_nil⟩⟩
  quiet _ := ⟨fun _ _ => rfl, fun hj => ⟨hj.undo, hj.cleanup⟩⟩
  journaled h hj := h.journaled hj

end

end Ctxd

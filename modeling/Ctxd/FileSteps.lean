import Ctxd.Moves
import Ctxd.Order

/-!
# The file steps of a submission

What the operations of a submission do to the tree can be read off the catalog: each takes the file away from one path
or gives one to another (`FileStep`).  A rollback can fail only if a file was to be placed strictly below a path from
which an earlier step had taken a file away, since the directory made there keeps that file from coming back
(`FileStep.Frees`).
-/

namespace Ctxd

open Program

/-- The path of each document. -/
abbrev Paths := SourceId → Option String

def Catalog.paths (c : Catalog) : Paths := fun i => (c.row i).map (·.path)

/-- The path whose file goes and the path that gets one. -/
structure FileStep where
  vacates : Option String
  fills : Option String
  deriving DecidableEq

namespace FileStep

/-- The second step places a file strictly below the path that the first one frees. -/
def Frees (s s' : FileStep) : Prop := ∃ v ∈ s.vacates, ∃ t ∈ s'.fills, treePath v <:+ (treePath t).tail

instance (s s' : FileStep) : Decidable (s.Frees s') := by
  unfold Frees
  infer_instance

end FileStep

section

variable (user writer : String)

def deletePath (paths : Paths) (op : DeleteOperation) : Paths :=
  Function.update paths (user, writer, op.sourceKey) none

def movePath (paths : Paths) (op : MoveOperation) : Paths :=
  Function.update paths (user, writer, op.sourceKey) ((paths (user, writer, op.sourceKey)).map fun _ => op.path)

def putPath (paths : Paths) (op : PutOperation) : Paths :=
  Function.update paths (user, writer, op.sourceKey) (some op.path)

def deleteSteps (paths : Paths) : List DeleteOperation → List FileStep
  | [] => []
  | op :: rest => ⟨paths (user, writer, op.sourceKey), none⟩ :: deleteSteps (deletePath user writer paths op) rest

def moveStep (p : PlannedMove) : FileStep :=
  if p.entry.path ≠ p.destination then ⟨some p.entry.path, some p.destination⟩ else ⟨none, none⟩

def moveSteps (plans : List PlannedMove) : List FileStep :=
  ((moveCycles (destinationsOf plans)).map fun cycle => ⟨(destinationsOf plans).get? (cycle.headD ""), none⟩) ++
    plans.map moveStep

def putSteps (paths : Paths) : List PutOperation → List FileStep
  | [] => []
  | op :: rest =>
    ⟨(paths (user, writer, op.sourceKey)).filter (· ≠ op.path), some op.path⟩ ::
      putSteps (putPath user writer paths op) rest

/-- The file steps of the ordered operations, when the moves are planned as `plans`. -/
def fileSteps (paths : Paths) (ordered : List Operation) (plans : List PlannedMove) : List FileStep :=
  let paths1 := (Catalog.deletesOf ordered).foldl (deletePath user writer) paths
  let paths2 := (Catalog.movesOf ordered).foldl (movePath user writer) paths1
  deleteSteps user writer paths (Catalog.deletesOf ordered) ++ moveSteps plans ++
    putSteps user writer paths2 (Catalog.putsOf ordered)

end

/-! ### What the steps have freed -/

/-- The tree paths that the steps free. -/
def freed (steps : List FileStep) : Set TreePath := {r | ∃ s ∈ steps, ∃ v ∈ s.vacates, r = treePath v}

theorem freed_append (steps steps' : List FileStep) : freed (steps ++ steps') = freed steps ∪ freed steps' := by
  ext r
  simp only [freed, List.mem_append, Set.mem_ofPred_eq, Set.mem_union]
  constructor
  · rintro ⟨s, hs | hs, h⟩
    · exact .inl ⟨s, hs, h⟩
    · exact .inr ⟨s, hs, h⟩
  · rintro (⟨s, hs, h⟩ | ⟨s, hs, h⟩)
    · exact ⟨s, .inl hs, h⟩
    · exact ⟨s, .inr hs, h⟩

/-- A call may fault, a path may not fit, or a document is moved to the place it has. -/
def Risky (user : String) (s : Fs) (lost : Set SourceId) (steps : List FileStep) : Prop :=
  s.fault ≠ none ∨ (∃ step ∈ steps, ∃ t ∈ step.fills, ¬s.disk.Fits (treeLoc user t)) ∨ lost.Nonempty

/-- No step places a file strictly below a path that an earlier step has freed. -/
def Unnested (steps : List FileStep) : Prop := steps.Pairwise fun s s' => ¬s.Frees s'

theorem Risky.back {user : String} {w : World} {s : Fs} {lost : Set SourceId} {steps : List FileStep}
    (h : Risky user s lost steps) (hf : Forward w s) : Risky user w.fs lost steps := by
  rcases h with h | ⟨step, hs, t, ht, hfit⟩ | h
  · exact .inl fun hq => h (hf.quiet hq)
  · refine .inr (.inl ⟨step, hs, t, ht, ?_⟩)
    unfold Disk.Fits Disk.pathTooLong at hfit ⊢
    rwa [← hf.pathMax]
  · exact .inr (.inr h)

/-- A step of an unnested list can be undone. -/
theorem safe_of_unnested {user t : String} {s : Fs} {V : Set TreePath} {lost : Set SourceId} {pre post : List FileStep}
    {step : FileStep} (h : Risky user s lost (pre ++ step :: post) → Unnested (pre ++ step :: post))
    (ht : step.fills = some t) (hV : V ⊆ freed pre) : Safe s V lost (treeLoc user t) := by
  intro hbad r hr hrV
  have hrisk : Risky user s lost (pre ++ step :: post) := by
    rcases hbad with hf | hf | hl
    · exact .inl hf
    · exact .inr (.inl ⟨step, by simp, t, ht, hf⟩)
    · exact .inr (.inr hl)
  obtain ⟨step', hs', v, hv, rfl⟩ := hV hrV
  have hpair := (List.pairwise_append.1 (h hrisk)).2.2 step' hs' step (by simp)
  exact hpair ⟨v, hv, t, ht, hr⟩

end Ctxd

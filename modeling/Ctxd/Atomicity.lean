import Ctxd.Runs

/-!
# Submissions that raise

A submission that raises leaves rows and tree files as they were, whatever it was that raised, if in that moment no
directory is where the rollback has to put a file back (`RollsBack`).  Such directories are left behind when a document
goes to a path strictly below one that the same submission has freed and the step fails after they have been made: the
rollback cannot put the freed file back.
-/

namespace Ctxd

open Program

/-- The exception a program ends with, if it raises. -/
def raised {α : Type} (m : StoreM α) (w : World) : Option StoreError :=
  match m w with
  | .ok _ _ => none
  | .error e _ => some e

private theorem eq_error_of_raised {α : Type} {m : StoreM α} {w : World} {e : StoreError} (h : raised m w = some e) :
    m w = .error e (finalState m w) := by
  unfold raised at h
  unfold finalState
  split at h <;> rename_i heq
  · cases h
  · cases h
    rw [heq]

/-- Two documents `d/a` and `d/b`. -/
@[irreducible] def twoDocuments : World :=
  runCalls [.register "user" "writer" "d", .submit "user" "writer" [putText "1" "d/a" "x", putText "2" "d/b" "y"] none]
    (emptyStore (fun _ => 0) 4000)

private theorem twoDocuments_consistent : Consistent twoDocuments := by
  unfold twoDocuments
  exact (runCalls_consistent (emptyStore_consistent _ _) (by decide +kernel)).1

/-- The two documents, before a call that meets a fault. -/
def faultyTwoDocuments (fault : Nat) : World :=
  { twoDocuments with fs := { twoDocuments.fs with fault := some fault } }

private theorem faultyTwoDocuments_consistent (fault : Nat) : Consistent (faultyTwoDocuments fault) :=
  twoDocuments_consistent.of_entries rfl rfl rfl

/-- A delete, and a put below the freed path. -/
def obstructed : List Operation := [.delete ⟨"1", "1"⟩, putText "3" "d/a/c" "z"]

end Ctxd

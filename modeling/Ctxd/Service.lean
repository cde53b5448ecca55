import Ctxd.Migrations
import Ctxd.Operations

/-!
# `CtxfsService`

The service stands over the store: submissions are accepted into a table, an applier submits them to the store one by
one, and a deletion takes a prefix or a writer out of the tables and the tree.

The operations of a row are kept as a list, since the JSON text they are stored as loses nothing.  `uuid4` draws from
any sequence of texts, and the wall clock is that of the store.  A deletion consists of steps, each of them a committed
transaction or the removal of one file or directory, and the process may die before any of them.
-/

namespace Ctxd

open Program

/-- What the `error` column of a submission tells. -/
inductive ServiceError
  | raised (e : StoreError)
  | partiallyDiscarded
  | discarded
  deriving DecidableEq, Repr

/-- A row of `service_submissions`. -/
structure ServiceRow where
  submissionId : String
  userId : String
  writerId : String
  state : SubmissionState
  operationCount : Nat
  operations : List Operation
  appliedSubmissionId : Option Nat
  error : Option ServiceError
  createdAt : Int
  updatedAt : Int
  deriving DecidableEq, Repr

/-- What `submit` and `apply_next` return. -/
structure ServiceSubmission where
  submissionId : String
  state : SubmissionState
  operationCount : Nat
  error : Option StoreError
  deriving DecidableEq, Repr

/-- What a deletion returns; it is also kept as a row of `deletion_records`. -/
structure DeletionResult where
  scope : String
  userId : String
  writerId : Option String
  prefixPath : Option String
  receipt : Option String
  entryCount : Nat
  decisionCount : Nat
  queuedSubmissionCount : Nat
  writerRegistrationCount : Nat
  deriving DecidableEq, Repr

structure Service where
  world : World
  /-- The table `service_submissions`, in the order of its rows. -/
  rows : List ServiceRow
  deletions : List (String × DeletionResult × Int)
  draw : Nat → String
  drawn : Nat
  /-- The number of steps until the process dies, if it does. -/
  crash : Option Nat

/-- How a call of the service ends when it does not return. -/
inductive ServiceHalt
  | raised (e : StoreError)
  | crashed
  deriving DecidableEq, Repr

abbrev ServiceM := EStateM ServiceHalt Service

namespace Service

/-! ### Access to the parts of the service -/

def onStore {α : Type} (m : StoreM α) : ServiceM α :=
  focus Service.world (fun s w => { s with world := w }) .raised m

def uuid4 : ServiceM String := do
  let s ← get
  set { s with drawn := s.drawn + 1 }
  pure (s.draw s.drawn)

def orHalt {α : Type} (x : Except StoreError α) : ServiceM α := onStore (orRaise x)

def setRows (rows : List ServiceRow) : ServiceM Unit := modify fun s => { s with rows := rows }

/-- `UPDATE service_submissions SET ... WHERE submission_id = ?`. -/
def updateRow (submissionId : String) (f : ServiceRow → ServiceRow) : ServiceM Unit :=
  modify fun s => { s with rows := s.rows.map fun r => if r.submissionId = submissionId then f r else r }

/-! ### `CtxfsWriteService` and `CtxfsApplier` -/

/-- `CtxfsWriteService.submit`. -/
def submit (user writer : String) (operations : List Operation) : ServiceM ServiceSubmission := do
  let submissionId ← uuid4
  let time ← onStore now
  let s ← get
  if s.rows.any fun r => r.submissionId = submissionId then throw (.raised .integrityError)
  setRows (s.rows ++ [⟨submissionId, user, writer, .queued, operations.length, operations, none, none, time, time⟩])
  return ⟨submissionId, .queued, operations.length, none⟩

def isQueued (r : ServiceRow) : Bool := r.state = .queued

/-- The order of `ORDER BY created_at, submission_id`. -/
def before (r r' : ServiceRow) : Bool :=
  r.createdAt < r'.createdAt || r.createdAt = r'.createdAt && r.submissionId < r'.submissionId

/-- The first row of a `SELECT` in that order. -/
def firstRow : List ServiceRow → Option ServiceRow
  | [] => none
  | r :: rest =>
    match firstRow rest with
    | none => some r
    | some first => if before first r then some first else some r

def markApplied (row : ServiceRow) (applied : Submission) : ServiceM ServiceSubmission := do
  let time ← onStore now
  updateRow row.submissionId fun r =>
    { r with state := .applied, appliedSubmissionId := some applied.submissionId, error := none, updatedAt := time }
  return ⟨row.submissionId, .applied, row.operationCount, none⟩

def markFailed (row : ServiceRow) (e : StoreError) : ServiceM ServiceSubmission := do
  let time ← onStore now
  updateRow row.submissionId fun r => { r with state := .failed, error := some (.raised e), updatedAt := time }
  return ⟨row.submissionId, .failed, row.operationCount, some e⟩

/-- The store's answer to the operations of a row; `except Exception` catches everything that is raised. -/
def attempt (row : ServiceRow) (fault : Option Nat) : ServiceM (Except StoreError Submission) := do
  onStore (modify fun w => { w with fs := { w.fs with fault := fault } })
  tryCatch (do return .ok (← onStore (Ctxd.submit row.userId row.writerId row.operations))) fun halt =>
    match halt with
    | .raised e => return .error e
    | .crashed => throw .crashed

/-- `apply_next`; `fault` is the call of the filesystem that faults, if one does. -/
def applyNext (fault : Option Nat) : ServiceM (Option ServiceSubmission) := do
  let s ← get
  match firstRow (s.rows.filter isQueued) with
  | none => return none
  | some row =>
    match ← attempt row fault with
    | .ok applied => return some (← markApplied row applied)
    | .error e => return some (← markFailed row e)

/-- The loop of `drain`; a round takes a row out of the queue, so there are no more rounds than queued rows. -/
def drainLoop (limit : Option Int) (fault : Nat → Option Nat) :
    Nat → List ServiceSubmission → ServiceM (List ServiceSubmission)
  | 0, applied => return applied
  | rounds + 1, applied => do
    if limit.all fun n => (applied.length : Int) < n then
      match ← applyNext (fault applied.length) with
      | none => return applied
      | some submission => drainLoop limit fault rounds (applied ++ [submission])
    else return applied

def drain (limit : Option Int) (fault : Nat → Option Nat) : ServiceM (List ServiceSubmission) := do
  if limit.any (· ≤ 0) then throw (.raised (.valueError "limit must be positive"))
  let s ← get
  drainLoop limit fault ((s.rows.filter isQueued).length + 1) []

/-! ### Steps of a deletion -/

/-- A committed transaction, or the removal of a file or a directory. -/
def step (f : Service → Service) : ServiceM Unit := do
  let s ← get
  match s.crash with
  | some 0 => throw .crashed
  | some (n + 1) => set (f { s with crash := some n })
  | none => set (f s)

def setCatalog (f : Catalog → Catalog) (s : Service) : Service :=
  { s with world := { s.world with catalog := f s.world.catalog } }

def setDisk (d : Disk) (s : Service) :
    Service := { s with world := { s.world with fs := { s.world.fs with disk := d } } }

/-- `path.unlink(missing_ok=True)`. -/
def unlinkMissingOk (l : Loc) : ServiceM Unit := do
  let s ← get
  match s.world.fs.disk.unlink l with
  | .ok d => step (setDisk d)
  | .error .ENOENT => step id
  | .error e => throw (.raised (.osError e))

/-- `_remove_empty_parents` below the root of an area. -/
def removeEmptyUpwards (a : Area) : TreePath → ServiceM Unit
  | [] => return ()
  | name :: rest => do
    let s ← get
    match s.world.fs.disk.rmdir ⟨a, name :: rest⟩ with
    | .error _ => return ()
    | .ok d => do
      step (setDisk d)
      removeEmptyUpwards a rest

/-! ### `CtxfsManagementService` -/

/-- A statement that selects rows in the order of their paths. -/
def byPath (rows : List Entry) : List Entry := rows.mergeSort fun e e' => e.path ≤ e'.path

def entryRowsForWriter (c : Catalog) (user writer : String) : List Entry :=
  byPath (c.entries.filter fun e => e.userId = user && e.writerId = writer)

def entryRowsUnderPrefix (c : Catalog) (user writer pre : String) : Except StoreError (List Entry) :=
  (entryRowsForWriter c user writer).filterM fun e => pathIsWithinPrefix e.path pre

/-- The files of a row are removed, and the directories that they leave empty. -/
def deleteFiles (user : String) (row : Entry) : ServiceM Unit := do
  unlinkMissingOk (treeLoc user row.path)
  removeEmptyUpwards (.users user) (treePath row.path).tail
  unlinkMissingOk (objectLoc user row.objectId)

def deleteRows (user : String) (rows : List Entry) (c : Catalog) : Catalog :=
  rows.foldl (fun c row => c.deleteEntry user row.writerId row.sourceKey) c

def deleteEntryRowsAndFiles (user : String) (rows : List Entry) : ServiceM Unit := do
  rows.forM (deleteFiles user)
  step (setCatalog (deleteRows user rows))

/-- `path IS NOT NULL AND (path = ? OR path LIKE ?)`. -/
def likePrefix (pre : String) : Option String → Bool
  | none => false
  | some path => path = pre || Migrations.like (pre.toList ++ "/%".toList) path.toList

/-- The decisions that `_delete_decisions_for_prefix` deletes. -/
def inDecisionScope (user writer pre : String) (sourceKeys : List String) (r : Decision) : Bool :=
  r.userId = user && r.writerId = writer && (likePrefix pre r.path || sourceKeys.contains r.sourceKey)

def deleteDecisions (scope : Decision → Bool) (c : Catalog) : Catalog :=
  { c with decisions := c.decisions.filter fun r => !scope r }

/-- A `DELETE FROM decisions` with its `rowcount`. -/
def deleteDecisionsIn (scope : Decision → Bool) : ServiceM Nat := do
  let s ← get
  step (setCatalog (deleteDecisions scope))
  return (s.world.catalog.decisions.filter scope).length

/-- `_operation_targets_prefix`. -/
def operationTargetsPrefix (pre : String) (sourceKeys : List String) : Operation → Except StoreError Bool
  | .put op => pathIsWithinPrefix op.path pre
  | .move op => do
    if ← pathIsWithinPrefix op.path pre then return true
    return sourceKeys.contains op.sourceKey
  | .delete op => .ok (sourceKeys.contains op.sourceKey)
  | .decision op =>
    match op.path with
    | some path => pathIsWithinPrefix path pre
    | none => .ok false

/-- The operations that stay in the queue. -/
def keptOperations (pre : String) (sourceKeys : List String) (operations : List Operation) :
    Except StoreError (List Operation) :=
  operations.filterM fun op => do return !(← operationTargetsPrefix pre sourceKeys op)

def queuedOf (user writer : String) (rows : List ServiceRow) : List ServiceRow :=
  rows.filter fun r => r.userId = user && r.writerId = writer && isQueued r

def stepRow (submissionId : String) (f : ServiceRow → ServiceRow) : ServiceM Unit :=
  step fun s => { s with rows := s.rows.map fun r => if r.submissionId = submissionId then f r else r }

def replaceOperations (submissionId : String) (operations : List Operation) : ServiceM Unit := do
  let time ← onStore now
  stepRow submissionId fun r => { r with
    operationCount := operations.length, operations := operations, error := some .partiallyDiscarded,
      updatedAt := time }

def discardSubmission (submissionId : String) : ServiceM Unit := do
  let time ← onStore now
  stepRow submissionId fun r => { r with state := .discarded, error := some .discarded, updatedAt := time }

/-- The loop of `_discard_queued_submissions_for_prefix`; it counts the rows that it changes. -/
def discardForPrefix (pre : String) (sourceKeys : List String) : List ServiceRow → ServiceM Nat
  | [] => return 0
  | row :: rest => do
    let kept ← orHalt (keptOperations pre sourceKeys row.operations)
    if kept.length = row.operations.length then discardForPrefix pre sourceKeys rest
    else do
      if kept = [] then discardSubmission row.submissionId else replaceOperations row.submissionId kept
      return (← discardForPrefix pre sourceKeys rest) + 1

def discardQueuedSubmissionsForPrefix (user writer pre : String) (sourceKeys : List String) : ServiceM Nat := do
  let s ← get
  discardForPrefix pre sourceKeys (queuedOf user writer s.rows)

def discardQueuedSubmissionsForWriter (user writer : String) : ServiceM Nat := do
  let s ← get
  (queuedOf user writer s.rows).forM fun row => discardSubmission row.submissionId
  return (queuedOf user writer s.rows).length

def recordDeletion (result : DeletionResult) : ServiceM Unit := do
  let deletionId ← uuid4
  let time ← onStore now
  step fun s => { s with deletions := s.deletions ++ [(deletionId, result, time)] }

def deletePrefix (user writer pre : String) (receipt : Option String) : ServiceM DeletionResult := do
  let normalized ← orHalt (normalizePath pre)
  let s ← get
  orHalt (s.world.catalog.requireAuthorizedPath user writer normalized)
  let rows ← orHalt (entryRowsUnderPrefix s.world.catalog user writer normalized)
  let sourceKeys := rows.map (·.sourceKey)
  let decisionCount ← deleteDecisionsIn (inDecisionScope user writer normalized sourceKeys)
  let queuedCount ← discardQueuedSubmissionsForPrefix user writer normalized sourceKeys
  deleteEntryRowsAndFiles user rows
  let result := ⟨"prefix", user, some writer, some normalized, receipt, rows.length, decisionCount, queuedCount, 0⟩
  recordDeletion result
  return result

def isOfWriter (user writer : String) (r : WriterPrefix) : Bool := r.userId = user && r.writerId = writer

def deleteIntegration (user writer : String) (receipt : Option String) : ServiceM DeletionResult := do
  let s ← get
  let prefixes := (s.world.catalog.writerPrefixesOf user writer).mergeSort fun p q => p ≤ q
  let rows := entryRowsForWriter s.world.catalog user writer
  let decisionCount ← deleteDecisionsIn fun r => r.userId = user && r.writerId = writer
  let queuedCount ← discardQueuedSubmissionsForWriter user writer
  deleteEntryRowsAndFiles user rows
  let s ← get
  step (setCatalog fun c => { c with writerPrefixes := c.writerPrefixes.filter fun r => !isOfWriter user writer r })
  let registrations := (s.world.catalog.writerPrefixes.filter (isOfWriter user writer)).length
  let result :=
    ⟨"integration", user, some writer, if prefixes = [] then none else some (",".intercalate prefixes), receipt,
      rows.length, decisionCount, queuedCount, registrations⟩
  recordDeletion result
  return result

/-! ### How the parts end -/

section

variable {α : Type} {s : Service} {E : ServiceHalt → Service → Prop}

@[simp] theorem ends_onStore {m : StoreM α} {Q : α → Service → Prop} :
    Ends (onStore m) Q E s ↔
      Ends m (fun a w => Q a { s with world := w }) (fun e w => E (.raised e) { s with world := w }) s.world :=
  ends_focus

@[simp] theorem ends_orHalt {x : Except StoreError α} {Q : α → Service → Prop} :
    Ends (orHalt x) Q E s ↔ (∀ a, x = .ok a → Q a s) ∧ (∀ e, x = .error e → E (.raised e) s) := by
  unfold orHalt
  rw [ends_onStore, ends_orRaise]

/-- The service after the clock has been read. -/
def ticked (s : Service) : Service := { s with world := { s.world with ticks := s.world.ticks + 1 } }

def time (s : Service) : Int := s.world.clock s.world.ticks

@[simp] theorem ends_time {Q : Int → Service → Prop} : Ends (onStore now) Q E s ↔ Q s.time s.ticked := by
  rw [ends_onStore, ends_now]
  rfl

@[simp] theorem ends_draw {Q : String → Service → Prop} :
    Ends Service.uuid4 Q E s ↔ Q (s.draw s.drawn) { s with drawn := s.drawn + 1 } := Iff.rfl

theorem ends_attempt {row : ServiceRow} {fault : Option Nat} {Q : Except StoreError Submission → Service → Prop} :
    Ends (attempt row fault) Q E s ↔
      Ends (Ctxd.submit row.userId row.writerId row.operations)
      (fun submission w => Q (.ok submission) { s with world := w })
        (fun e w => Q (.error e) { s with world := w }) { s.world with fs := { s.world.fs with fault := fault } } := by
  unfold attempt
  rw [ends_bind, ends_onStore, ends_modify, ends_tryCatch, ends_bind, ends_onStore]
  simp only [ends_pure]

end

end Service

end Ctxd

import Ctxd.Catalog
import Ctxd.Tree

/-!
# `CtxfsStore.submit`

A submission runs its operations inside one transaction of the catalog while it changes the tree call by call.  When
an operation raises, the transaction is rolled back, the undo callbacks run, newest first, and the exception is raised
again; the callbacks that drop backups and superseded objects run in either case.
-/

namespace Ctxd

open Program

/-- A store: its catalog, its disk with the journal of the running submission, and the wall clock, which may show any
time at each reading. -/
structure World where
  catalog : Catalog
  fs : Fs
  clock : Nat → Int
  ticks : Nat

abbrev StoreM := EStateM StoreError World

/-! ### Access to the parts of the store -/

def onDisk {α : Type} (m : FsM α) : StoreM α := focus World.fs (fun w fs => { w with fs := fs }) id m

def now : StoreM Int := do
  let w ← get
  set { w with ticks := w.ticks + 1 }
  pure (w.clock w.ticks)

def catalog : StoreM Catalog := do
  let w ← get
  pure w.catalog

def setCatalog (c : Catalog) : StoreM Unit := modify fun w => { w with catalog := c }

/-- A statement that changes rows. -/
def execute (statement : Catalog → Except StoreError Catalog) : StoreM Unit := do
  let c ← catalog
  let c' ← orRaise (statement c)
  setCatalog c'

/-- `with self.connection:` commits when the body returns and rolls the rows back when it raises. -/
def transaction {α : Type} (body : StoreM α) : StoreM α := do
  let c ← catalog
  tryCatch body fun e => do
    setCatalog c
    throw e

/-! ### Puts, deletes and decisions -/

def putOperation (user writer : String) (operation : PutOperation) : StoreM Unit := do
  let path ← orRaise (normalizePath operation.path)
  let c ← catalog
  orRaise (c.requireAuthorizedPath user writer path)
  let text ← orRaise (normalizeText operation.text)
  let data := text.toUTF8
  let hash := contentHash data
  let time ← now
  let existing := c.entryBySourceKey user writer operation.sourceKey
  let objectId ← match existing with
    | some entry =>
      if entry.contentHash = hash then do
        if entry.path ≠ path then onDisk (renameTreeEntry user entry.path path)
        pure entry.objectId
      else do
        let objectId ← onDisk uuid4
        onDisk (writeBytes (objectLoc user objectId) data)
        onDisk (pushUndo (.removeObject (objectLoc user objectId)))
        onDisk (replaceTreeEntry user path (objectLoc user objectId))
        if entry.path ≠ path then onDisk (removeTreeEntry user entry.path)
        onDisk (pushCleanup (.removeObject (objectLoc user entry.objectId)))
        pure objectId
    | none => do
      let objectId ← onDisk uuid4
      onDisk (writeBytes (objectLoc user objectId) data)
      onDisk (pushUndo (.removeObject (objectLoc user objectId)))
      onDisk (replaceTreeEntry user path (objectLoc user objectId))
      pure objectId
  execute fun c => c.upsertEntry
    { userId := user, writerId := writer, path := path, sourceKey := operation.sourceKey,
      sourceVersion := operation.sourceVersion, docClass := operation.docClass, fileFormat := operation.fileFormat,
      contentHash := hash, sizeBytes := data.size, lineCount := lineCount text, objectId := objectId,
      provenance := operation.provenance, createdAt := (existing.map (·.createdAt)).getD time, updatedAt := time }

def deleteOperation (user writer : String) (operation : DeleteOperation) : StoreM Unit := do
  let c ← catalog
  match c.entryBySourceKey user writer operation.sourceKey with
  | none => pure ()
  | some existing => do
    orRaise (c.requireAuthorizedPath user writer existing.path)
    onDisk (removeTreeEntry user existing.path)
    execute fun c => .ok (c.deleteEntry user writer operation.sourceKey)

def decisionOperation (user writer : String) (operation : DecisionOperation) : StoreM Unit := do
  let c ← catalog
  let path ← match operation.path with
    | none => pure none
    | some path => if path = "" then pure none else do
      let path ← orRaise (normalizePath path)
      orRaise (c.requireAuthorizedPath user writer path)
      pure (some path)
  let time ← now
  let createdAt := (c.decisionCreatedAt user writer operation.sourceKey).getD time
  execute fun c => .ok (c.upsertDecision
    { userId := user, writerId := writer, sourceKey := operation.sourceKey,
      sourceVersion := operation.sourceVersion, path := path, state := operation.state,
      failureCode := operation.failureCode, failureMessage := operation.failureMessage,
      retryAfterSeconds := operation.retryAfterSeconds, createdAt := createdAt, updatedAt := time })

/-! ### Moves -/

def hashMismatch (sourceKey found expected : String) : StoreError :=
  .contentHashMismatch s!"source {sourceKey} has {found}, expected {expected}"

def validatedMoveEntry (c : Catalog) (user writer : String) (operation : MoveOperation) : Except StoreError Entry := do
  let path ← normalizePath operation.path
  c.requireAuthorizedPath user writer path
  match c.entryBySourceKey user writer operation.sourceKey with
  | none => throw (Catalog.unknownSource operation.sourceKey)
  | some existing => do
    c.requireAuthorizedPath user writer existing.path
    if existing.contentHash ≠ operation.expectedContentHash then
      throw (hashMismatch operation.sourceKey existing.contentHash operation.expectedContentHash)
    return existing

/-- A move with the entry of its source and its normalised destination. -/
structure PlannedMove where
  operation : MoveOperation
  entry : Entry
  destination : String

def planMoves (c : Catalog) (user writer : String) : List MoveOperation → Except StoreError (List PlannedMove)
  | [] => .ok []
  | operation :: rest => do
    let entry ← validatedMoveEntry c user writer operation
    let destination ← normalizePath operation.path
    let plans ← planMoves c user writer rest
    return ⟨operation, entry, destination⟩ :: plans

/-- A dictionary lookup that raises `KeyError`. -/
def lookupKey {ν : Type} (d : Dict String ν) (key : String) : Except StoreError ν :=
  match d.get? key with
  | some v => .ok v
  | none => .error (.keyError key)

/-- A temporary place for a document on a cycle: the file in the undo directory and the row's path meanwhile. -/
structure TempLocation where
  file : Loc
  logicalPath : String

/-- `_break_move_cycles`. -/
def breakMoveCycles (user : String) (destinations : Dict String String) : List (List String) → Dict String Loc →
    Dict String TempLocation → StoreM (Dict String TempLocation)
  | [], _, temps => pure temps
  | cycle :: rest, locations, temps => do
    let sourcePath ← orRaise (lookupKey destinations (cycle.headD ""))
    let source ← orRaise (lookupKey locations sourcePath)
    if ← onDisk (pathExists source) then
      let temp ← onDisk (undoPath .cycle)
      let uuid ← onDisk uuid4
      let tempLogicalPath := "_ctxfs_cycle/" ++ uuidText uuid
      onDisk (renameTreeFile user source temp sourcePath)
      breakMoveCycles user destinations rest (locations.set sourcePath temp)
        (temps.set sourcePath ⟨temp, tempLogicalPath⟩)
    else breakMoveCycles user destinations rest locations temps

/-- Gives the row of a document in a temporary place its temporary path. -/
def parkEntry (user writer : String) (sourceKeyByPath : Dict String String) (item : String × TempLocation) :
    StoreM Unit := do
  let sourceKey ← orRaise (lookupKey sourceKeyByPath item.1)
  let time ← now
  execute fun c => c.updateEntry user writer sourceKey item.2.logicalPath fun e => { e with updatedAt := time }

/-- One round of the last loop of `_move_batch`. -/
def moveEntry (user writer : String) (temps : Dict String TempLocation) (plan : PlannedMove) : StoreM Unit := do
  if plan.entry.path ≠ plan.destination then
    let source := ((temps.get? plan.entry.path).map TempLocation.file).getD (treeLoc user plan.entry.path)
    if ← onDisk (pathExists source) then
      onDisk (renameTreeFile user source (treeLoc user plan.destination) plan.entry.path)
  let time ← now
  execute fun c => c.updateEntry user writer plan.operation.sourceKey plan.destination fun e =>
    { e with sourceVersion := plan.operation.sourceVersion, updatedAt := time }

def moveBatch (user writer : String) (operations : List MoveOperation) : StoreM Unit := do
  let c ← catalog
  let plans ← orRaise (planMoves c user writer operations)
  let currentLocations := plans.foldl (fun (d : Dict String Loc) p => d.set p.entry.path (treeLoc user p.entry.path)) []
  let destinations := plans.foldl (fun (d : Dict String String) p => d.set p.entry.path p.destination) []
  let sourceKeyByPath := plans.foldl (fun (d : Dict String String) p => d.set p.entry.path p.operation.sourceKey) []
  let temps ← breakMoveCycles user destinations (moveCycles destinations) currentLocations []
  temps.forM (parkEntry user writer sourceKeyByPath)
  plans.forM (moveEntry user writer temps)

/-! ### Submissions -/

/-- A step of the loop of `submit`: a run of consecutive moves is one batch. -/
inductive Step
  | put (op : PutOperation)
  | moves (ops : List MoveOperation)
  | delete (op : DeleteOperation)
  | decision (op : DecisionOperation)

def groupSteps : List Operation → List Step
  | [] => []
  | .move op :: rest =>
    match groupSteps rest with
    | .moves ops :: steps => .moves (op :: ops) :: steps
    | steps => .moves [op] :: steps
  | .put op :: rest => .put op :: groupSteps rest
  | .delete op :: rest => .delete op :: groupSteps rest
  | .decision op :: rest => .decision op :: groupSteps rest

def runStep (user writer : String) : Step → StoreM Unit
  | .put op => putOperation user writer op
  | .moves ops => moveBatch user writer ops
  | .delete op => deleteOperation user writer op
  | .decision op => decisionOperation user writer op

def submission (submissionId : Nat) : StoreM Submission := do
  let c ← catalog
  match c.submissions.find? fun r => r.submissionId = submissionId with
  | none => throw (.keyError (uuidText submissionId))
  | some row => pure ⟨row.submissionId, row.state, row.operationCount, row.error⟩

def recordSubmission (user writer : String) (operationCount : Nat) : StoreM Nat := do
  let submissionId ← onDisk uuid4
  let time ← now
  transaction (execute fun c =>
    c.insertSubmission ⟨submissionId, user, writer, .queued, operationCount, none, time, time⟩)
  pure submissionId

/-- The checks and the operations of a submission, inside its `try` block. -/
def applySubmission (user writer : String) (operations : List Operation) (submissionId : Nat) : StoreM Unit := do
  orRaise (Catalog.rejectDuplicateMoveSources operations)
  let c ← catalog
  let ordered ← orRaise (c.orderedOperations user writer operations)
  orRaise (c.preflightSubmission user writer ordered)
  transaction do
    (groupSteps ordered).forM (runStep user writer)
    let time ← now
    execute fun c => .ok (c.updateSubmission submissionId fun r => { r with state := .applied, updatedAt := time })

/-- The `except` block: the exception that leaves `submit` after the rollback. -/
def abandonSubmission (submissionId : Nat) (e : StoreError) : StoreM Unit := do
  let failed ← onDisk rollbackFilesystem
  let time ← now
  transaction (execute fun c => .ok (c.updateSubmission submissionId fun r =>
    { r with state := .failed, error := some e, updatedAt := time }))
  onDisk cleanupFilesystem
  throw (if failed then .rollbackFailed else e)

def submit (user writer : String) (operations : List Operation) : StoreM Submission := do
  let submissionId ← recordSubmission user writer operations.length
  onDisk (modify fun s => { s with undoStack := [], cleanupStack := [] })
  tryCatch (applySubmission user writer operations submissionId) (abandonSubmission submissionId)
  onDisk cleanupFilesystem
  submission submissionId

def registerPrefix (user writer pre : String) : StoreM Unit := do
  let normalized ← orRaise (normalizePath pre)
  let time ← now
  transaction do
    let c ← catalog
    let others := c.writerPrefixes.filter fun r => r.userId = user && r.writerId ≠ writer
    others.forM fun row => do
      if ← orRaise (prefixesOverlap normalized row.prefixPath) then
        let owner := row.writerId
        let existing := row.prefixPath
        throw (.prefixAuthorization
          s!"writer {writer} prefix {normalized} overlaps writer {owner} prefix {existing}")
    execute fun c => .ok (c.insertPrefix ⟨user, writer, normalized, time⟩)

/-! ### Reading a document back -/

def requireEntry (user path : String) (w : World) : Except StoreError Entry := do
  let normalized ← normalizePath path
  match w.catalog.entries.find? fun e => e.userId = user && e.path = normalized with
  | none => throw (.fileNotFound normalized)
  | some entry =>
    match w.fs.disk.resolve (treeLoc user entry.path) with
    | .ok _ => return entry
    | .error .ENOENT | .error .ENOTDIR => throw (.fileNotFound normalized)
    | .error e => throw (.osError e)

/-- The bytes `read` returns when no limit cuts them. -/
def readData (user path : String) (w : World) : Except StoreError ByteArray := do
  let entry ← requireEntry user path w
  match w.fs.disk.resolve (treeLoc user entry.path) with
  | .ok (.file data) =>
    let found := contentHash data
    let expected := entry.contentHash
    let place := entry.path
    if found = expected then return data
    else throw (.contentHashMismatch s!"entry {place} has {found}, expected {expected}")
  | .ok .dir => throw (.osError .EISDIR)
  | .error e => throw (.osError e)

end Ctxd

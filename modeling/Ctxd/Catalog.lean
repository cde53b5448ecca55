import Ctxd.Lib.Dict
import Ctxd.Path

/-!
# Catalog statements and the checks before a submission

The SQL statements of `CtxfsStore` on lists of rows, each with the uniqueness constraints of its table, and the checks
that `submit` makes before it touches the tree: no source is moved twice, deletes run before moves before puts, a move
runs after the move that frees its destination, every path is authorised, and no path is occupied.
-/

namespace Ctxd

/-- What identifies a document: its writer and the writer's key for it. -/
abbrev SourceIdentity := String × String

def Entry.identity (e : Entry) : SourceIdentity := (e.writerId, e.sourceKey)

/-- `WHERE user_id = ? AND writer_id = ? AND source_key = ?`. -/
def Entry.isSource (e : Entry) (user writer sourceKey : String) : Bool :=
  e.userId = user && e.writerId = writer && e.sourceKey = sourceKey

namespace Catalog

variable (c : Catalog)

/-! ### Statements -/

def entryBySourceKey (user writer sourceKey : String) : Option Entry :=
  c.entries.find? fun e => e.isSource user writer sourceKey

/-- A row of another source holds the path, so writing it breaks `PRIMARY KEY(user_id, path)`. -/
def pathTaken (user writer sourceKey path : String) : Bool :=
  c.entries.any fun e => e.userId = user && e.path = path && !e.isSource user writer sourceKey

/-- `INSERT INTO entries ... ON CONFLICT(user_id, writer_id, source_key) DO UPDATE SET ...`; the creation time of an
existing row stays. -/
def upsertEntry (row : Entry) : Except StoreError Catalog :=
  if c.pathTaken row.userId row.writerId row.sourceKey row.path then .error .integrityError
  else if (c.entries.any fun e => e.isSource row.userId row.writerId row.sourceKey) then
    .ok { c with
      entries := c.entries.map fun e =>
        if e.isSource row.userId row.writerId row.sourceKey then { row with createdAt := e.createdAt } else e }
  else .ok { c with entries := c.entries ++ [row] }

/-- `UPDATE entries SET path = ?, ... WHERE user_id = ? AND writer_id = ? AND source_key = ?`. -/
def updateEntry (user writer sourceKey path : String) (f : Entry → Entry) : Except StoreError Catalog :=
  if (c.entries.any fun e => e.isSource user writer sourceKey) && c.pathTaken user writer sourceKey path then
    .error .integrityError
  else .ok { c with
    entries := c.entries.map fun e => if e.isSource user writer sourceKey then { f e with path := path } else e }

def deleteEntry (user writer sourceKey : String) : Catalog :=
  { c with entries := c.entries.filter fun e => !e.isSource user writer sourceKey }

def decisionCreatedAt (user writer sourceKey : String) : Option Int :=
  (c.decisions.find? fun r => r.userId = user && r.writerId = writer && r.sourceKey = sourceKey).map (·.createdAt)

/-- `INSERT INTO decisions ... ON CONFLICT(user_id, writer_id, source_key) DO UPDATE SET ...`. -/
def upsertDecision (row : Decision) : Catalog :=
  let same := fun r : Decision =>
    r.userId = row.userId && r.writerId = row.writerId && r.sourceKey = row.sourceKey
  if c.decisions.any same then
    { c with decisions := c.decisions.map fun r => if same r then { row with createdAt := r.createdAt } else r }
  else { c with decisions := c.decisions ++ [row] }

def insertSubmission (row : SubmissionRow) : Except StoreError Catalog :=
  if (c.submissions.any fun r => r.submissionId = row.submissionId) then .error .integrityError
  else .ok { c with submissions := c.submissions ++ [row] }

theorem insertSubmission_ok {c c' : Catalog} {row : SubmissionRow} (h : c.insertSubmission row = .ok c') :
    c' = { c with submissions := c.submissions ++ [row] } := by
  unfold insertSubmission at h
  split at h
  · cases h
  · cases h
    rfl

theorem insertSubmission_free {c c' : Catalog} {row : SubmissionRow} (h : c.insertSubmission row = .ok c') :
    ∀ r ∈ c.submissions, r.submissionId ≠ row.submissionId := by
  unfold insertSubmission at h
  split at h
  · cases h
  · rename_i hany
    intro r hr hid
    exact hany (List.any_eq_true.2 ⟨r, hr, by simpa using hid⟩)

theorem insertSubmission_error {c : Catalog} {row : SubmissionRow} {e : StoreError}
    (h : c.insertSubmission row = .error e) : ∃ r ∈ c.submissions, r.submissionId = row.submissionId := by
  unfold insertSubmission at h
  split at h
  · rename_i hany
    obtain ⟨r, hr, hid⟩ := List.any_eq_true.1 hany
    exact ⟨r, hr, by simpa using hid⟩
  · cases h

def updateSubmission (submissionId : Nat) (f : SubmissionRow → SubmissionRow) : Catalog :=
  { c with submissions := c.submissions.map fun r => if r.submissionId = submissionId then f r else r }

/-- `INSERT OR IGNORE INTO writer_prefixes`. -/
def insertPrefix (row : WriterPrefix) : Catalog :=
  if (c.writerPrefixes.any fun r =>
      r.userId = row.userId && r.writerId = row.writerId && r.prefixPath = row.prefixPath) then c
  else { c with writerPrefixes := c.writerPrefixes ++ [row] }

/-! ### Checks -/

def unauthorizedPath (writer path : String) : StoreError :=
  .prefixAuthorization s!"writer {writer} is not authorized for path {path}"

def unknownSource (sourceKey : String) : StoreError := .keyError s!"unknown source_key: {sourceKey}"

def occupiedPath (path : String) (occupant : SourceIdentity) : StoreError :=
  let (writer, sourceKey) := occupant
  .fileExists s!"path {path} is already occupied by writer {writer} source_key {sourceKey}"

/-- `any(_path_is_within_prefix(path, prefix) for prefix in prefixes)`. -/
def withinAny (path : String) : List String → Except StoreError Bool
  | [] => .ok false
  | pre :: rest => do
    if ← pathIsWithinPrefix path pre then return true
    withinAny path rest

def writerPrefixesOf (user writer : String) : List String :=
  (c.writerPrefixes.filter fun r => r.userId = user && r.writerId = writer).map (·.prefixPath)

def requireAuthorizedPath (user writer path : String) : Except StoreError Unit := do
  if ← withinAny path (c.writerPrefixesOf user writer) then return ()
  throw (unauthorizedPath writer path)

/-- `_source_path_maps`: the two directions of the catalog's assignment of paths to sources. -/
structure PathMaps where
  pathsBySource : Dict SourceIdentity String
  sourcesByPath : Dict String SourceIdentity

def sourcePathMaps (user : String) : PathMaps :=
  (c.entries.filter fun e => e.userId = user).foldl (fun maps e =>
    ⟨maps.pathsBySource.set e.identity e.path, maps.sourcesByPath.set e.path e.identity⟩) ⟨[], []⟩

def requireUnoccupiedPath (path : String) (identity : SourceIdentity) (sourcesByPath : Dict String SourceIdentity) :
    Except StoreError Unit :=
  match sourcesByPath.get? path with
  | none => .ok ()
  | some occupant => if occupant = identity then .ok () else .error (occupiedPath path occupant)

/-- One operation of `_preflight_submission`: the check and its effect on the path maps. -/
def preflightOperation (user writer : String) (moving : List SourceIdentity) (maps : PathMaps) :
    Operation → Except StoreError PathMaps
  | .put op => do
    let path ← normalizePath op.path
    c.requireAuthorizedPath user writer path
    let identity := (writer, op.sourceKey)
    requireUnoccupiedPath path identity maps.sourcesByPath
    let sourcesByPath := match maps.pathsBySource.get? identity with
      | some oldPath => if oldPath ≠ path then maps.sourcesByPath.pop oldPath else maps.sourcesByPath
      | none => maps.sourcesByPath
    return ⟨maps.pathsBySource.set identity path, sourcesByPath.set path identity⟩
  | .move op => do
    let path ← normalizePath op.path
    c.requireAuthorizedPath user writer path
    let identity := (writer, op.sourceKey)
    match maps.pathsBySource.get? identity with
    | none => throw (unknownSource op.sourceKey)
    | some oldPath => do
      c.requireAuthorizedPath user writer oldPath
      match maps.sourcesByPath.get? path with
      | some occupant =>
        if occupant ≠ identity ∧ occupant ∉ moving then requireUnoccupiedPath path identity maps.sourcesByPath
      | none => pure ()
      if oldPath ≠ path then
        return ⟨maps.pathsBySource.set identity path, (maps.sourcesByPath.pop oldPath).set path identity⟩
      else return maps
  | .delete op => do
    let identity := (writer, op.sourceKey)
    match maps.pathsBySource.get? identity with
    | none => return maps
    | some oldPath => do
      c.requireAuthorizedPath user writer oldPath
      return ⟨maps.pathsBySource.pop identity, maps.sourcesByPath.pop oldPath⟩
  | .decision op => do
    match op.path with
    | none => return maps
    | some path => do
      c.requireAuthorizedPath user writer (← normalizePath path)
      return maps

def movesOf (operations : List Operation) : List MoveOperation :=
  operations.filterMap fun | .move op => some op | _ => none

def putsOf (operations : List Operation) : List PutOperation :=
  operations.filterMap fun | .put op => some op | _ => none

def deletesOf (operations : List Operation) : List DeleteOperation :=
  operations.filterMap fun | .delete op => some op | _ => none

def decisionsOf (operations : List Operation) : List DecisionOperation :=
  operations.filterMap fun | .decision op => some op | _ => none

def preflightSubmission (user writer : String) (operations : List Operation) : Except StoreError Unit := do
  let moving := (movesOf operations).map fun op => (writer, op.sourceKey)
  let _ ← operations.foldlM (c.preflightOperation user writer moving) (c.sourcePathMaps user)

def duplicateMove : StoreError := .valueError "duplicate move source_key in submission"

def rejectDuplicates : List String → List MoveOperation → Except StoreError Unit
  | _, [] => .ok ()
  | seen, op :: rest =>
    if op.sourceKey ∈ seen then .error duplicateMove else rejectDuplicates (op.sourceKey :: seen) rest

def rejectDuplicateMoveSources (operations : List Operation) : Except StoreError Unit :=
  rejectDuplicates [] (movesOf operations)

/-- The inner `visit` of `_ordered_operations`.  `seen` holds the sources marked temporary or permanent, which `visit`
treats alike; the recursion goes no deeper than there are moves, since each level marks one more source. -/
def visitMove (moveBySourcePath : Dict String MoveOperation) : Nat → MoveOperation →
    List String × List MoveOperation → Except StoreError (List String × List MoveOperation)
  | 0, _, state => .ok state
  | depth + 1, move, (seen, ordered) =>
    if move.sourceKey ∈ seen then .ok (seen, ordered)
    else do
      let destination ← normalizePath move.path
      let (seen, ordered) ← match moveBySourcePath.get? destination with
        | some dependency =>
          if dependency.sourceKey ≠ move.sourceKey then
            visitMove moveBySourcePath depth dependency (move.sourceKey :: seen, ordered)
          else .ok (move.sourceKey :: seen, ordered)
        | none => .ok (move.sourceKey :: seen, ordered)
      return (seen, ordered ++ [move])

def moveBySourcePath (user writer : String) (moves : List MoveOperation) : Dict String MoveOperation :=
  let pathsBySource := (c.sourcePathMaps user).pathsBySource
  moves.foldl (fun d move => match pathsBySource.get? (writer, move.sourceKey) with
    | some sourcePath => d.set sourcePath move
    | none => d) []

def orderedMoves (user writer : String) (moves : List MoveOperation) : Except StoreError (List MoveOperation) :=
  if moves.length < 2 then .ok moves
  else do
    let (_, ordered) ← moves.foldlM (fun state move =>
      visitMove (c.moveBySourcePath user writer moves) moves.length move state) ([], [])
    return ordered

/-- `_ordered_operations`: deletes, then the moves in dependency order, then puts, then decisions. -/
def orderedOperations (user writer : String) (operations : List Operation) : Except StoreError (List Operation) := do
  let moves ← c.orderedMoves user writer (movesOf operations)
  return (deletesOf operations).map .delete ++ moves.map .move ++ (putsOf operations).map .put ++
    (decisionsOf operations).map .decision

end Catalog

/-! ### Cycles of moves -/

/-- The `while path in destinations` loop of `_move_cycles` from one start: the stack it leaves and the cycle it
found, if any.  Every round puts one more path on the stack, so there are no more rounds than paths. -/
def followMoves (destinations : Dict String String) (seen : List String) :
    Nat → String → List String → List String × Option (List String)
  | 0, _, stack => (stack, none)
  | rounds + 1, path, stack =>
    match destinations.get? path with
    | none => (stack, none)
    | some next =>
      if path ∈ stack then (stack, some (stack.drop (stack.idxOf path)))
      else if path ∈ seen then (stack, none)
      else followMoves destinations seen rounds next (stack ++ [path])

/-- `_move_cycles`. -/
def moveCycles (destinations : Dict String String) : List (List String) :=
  (destinations.keys.foldl (fun (state : List (List String) × List String) start =>
    let (cycles, seen) := state
    if start ∈ seen then (cycles, seen)
    else
      let (stack, cycle) := followMoves destinations seen (destinations.length + 1) start []
      (cycles ++ cycle.toList, seen ++ stack)) ([], [])).1

example : moveCycles [("a", "b"), ("b", "a"), ("c", "c"), ("d", "e"), ("e", "x")] = [["a", "b"], ["c"]] := by decide

end Ctxd

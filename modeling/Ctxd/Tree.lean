import Ctxd.Disk

/-!
# Tree entries and their undo journal

The filesystem half of `CtxfsStore`: placing, renaming and removing the file of a document.  Each completed change
pushes a callback that undoes it and a callback that drops its backup; `rollbackFilesystem` and `cleanupFilesystem`
run them.  Python's closures are data here (`Undo`, `Cleanup`).

`fault` is the number of filesystem calls until one raises an I/O error of its own (`none`: no call does).  Only the
calls of the forward execution count: the undo calls and the `rmdir` of `removeEmptyParents`, whose errors the code
swallows, do not.  `trace` keeps the disks the calls have left behind, newest first: a crash leaves one of them.
-/

namespace Ctxd

open Program

inductive Undo
  | removeObject (object : Loc)
  | replaceEntry (user : String) (target : Loc) (backup : Option Loc)
  | renameEntry (user : String) (source target : Loc) (backup : Option Loc)
  | removeEntry (target : Loc) (backup : Option Loc)
  deriving DecidableEq, Repr

inductive Cleanup
  | unlinkBackup (backup : Option Loc)
  | removeObject (object : Loc)
  deriving DecidableEq, Repr

structure Fs where
  disk : Disk
  /-- The number of uuids drawn so far; the next `uuid4()` is this number. -/
  uuids : Nat
  /-- Newest first. -/
  undoStack : List Undo
  /-- Oldest first. -/
  cleanupStack : List Cleanup
  fault : Option Nat
  trace : List Disk

abbrev FsM := EStateM StoreError Fs

/-! ### Calls -/

def tick : FsM Unit := do
  let s ← get
  match s.fault with
  | none => pure ()
  | some 0 => do set { s with fault := none }; throw (.osError .ioFault)
  | some (n + 1) => set { s with fault := some n }

def writeDisk (d : Disk) : FsM Unit := modify fun s => { s with disk := d, trace := d :: s.trace }

/-- A call that changes the disk or raises. -/
def call (f : Disk → Except Errno Disk) : FsM Unit := do
  tick
  let s ← get
  match f s.disk with
  | .ok d => writeDisk d
  | .error e => throw (.osError e)

/-- The bytes that are written to an open file behind those it has; at each of them a write can fail. -/
def writeFrom (l : Loc) (written : ByteArray) : List UInt8 → FsM Unit
  | [] => pure ()
  | byte :: rest => do
    call fun d => .ok (d.put l (.file (written.push byte)))
    writeFrom l (written.push byte) rest

/-- `Path.write_bytes`: when it raises, the file may be there with a part of the data. -/
def writeBytes (l : Loc) (data : ByteArray) : FsM Unit := do
  call fun d => d.create l
  writeFrom l .empty data.data.toList

/-- `Path.exists()`: a missing or misplaced node is absent, any other error is raised. -/
def pathExists (l : Loc) : FsM Bool := do
  tick
  let s ← get
  match s.disk.resolve l with
  | .ok _ => pure true
  | .error .ENOENT | .error .ENOTDIR => pure false
  | .error e => throw (.osError e)

/-- `Path.is_dir()`. -/
def isDir (l : Loc) : FsM Bool := do
  tick
  let s ← get
  match s.disk.resolve l with
  | .ok .dir => pure true
  | .ok (.file _) | .error .ENOENT | .error .ENOTDIR => pure false
  | .error e => throw (.osError e)

def uuid4 : FsM Nat := do
  let s ← get
  set { s with uuids := s.uuids + 1 }
  pure s.uuids

/-- `Path.mkdir(exist_ok=True)`. -/
def mkdirExistOk (l : Loc) : FsM Unit :=
  tryCatch (call fun d => d.mkdir l) fun e => do
    if e = .osError .ENOENT then throw e
    else unless ← isDir l do throw e

/-- `Path.mkdir(parents=True, exist_ok=True)`. -/
def mkdirParents (a : Area) : TreePath → FsM Unit
  | [] => pure ()
  | name :: rest =>
    tryCatch (call fun d => d.mkdir ⟨a, name :: rest⟩) fun e => do
      if e = .osError .ENOENT then
        mkdirParents a rest
        mkdirExistOk ⟨a, name :: rest⟩
      else
        unless ← isDir ⟨a, name :: rest⟩ do throw e

/-- `_unlink_if_exists`. -/
def unlinkIfExists : Option Loc → FsM Unit
  | none => pure ()
  | some l => tryCatch (call fun d => d.unlink l) fun e =>
      if e = .osError .ENOENT then pure () else throw e

/-- The directories `path`, `path.parent`, ... up to the root of the area, removed while they are empty. -/
def removeEmptyUpwards (a : Area) : TreePath → FsM Unit
  | [] => pure ()
  | name :: rest => do
    let s ← get
    match s.disk.rmdir ⟨a, name :: rest⟩ with
    | .error _ => pure ()
    | .ok d => do
      writeDisk d
      removeEmptyUpwards a rest

/-- `_remove_empty_parents(path, self._user_root(user_id))`. -/
def removeEmptyParents (user : String) (l : Loc) : FsM Unit :=
  if l.area = .users user then removeEmptyUpwards l.area l.path else pure ()

/-! ### Names -/

inductive UndoKind
  | replace | backup | cycle
  deriving DecidableEq, Repr

def UndoKind.text : UndoKind → String
  | .replace => "replace"
  | .backup => "backup"
  | .cycle => "cycle"

/-- The text of a uuid.  Only that distinct uuids have distinct texts without a slash matters. -/
def uuidText (uuid : Nat) : String := uuid.repr

def undoLoc (kind : UndoKind) (uuid : Nat) : Loc := ⟨.undo, [kind.text ++ "-" ++ uuidText uuid]⟩

def undoPath (kind : UndoKind) : FsM Loc := do
  let uuid ← uuid4
  pure (undoLoc kind uuid)

def treeLoc (user path : String) : Loc := ⟨.users user, treePath path⟩

def objectLoc (user : String) (objectId : Nat) : Loc := ⟨.objects user, [uuidText objectId]⟩

/-! ### Tree entries -/

def pushUndo (u : Undo) : FsM Unit := modify fun s => { s with undoStack := u :: s.undoStack }

def pushCleanup (c : Cleanup) : FsM Unit := modify fun s => { s with cleanupStack := s.cleanupStack ++ [c] }

def backupTreeEntry (target : Loc) : FsM (Option Loc) := do
  if ← pathExists target then
    let backup ← undoPath .backup
    call fun d => d.link target backup
    pure (some backup)
  else
    pure none

def replaceTreeEntry (user path : String) (object : Loc) : FsM Unit := do
  let target := treeLoc user path
  mkdirParents target.area target.parent.path
  let tmp ← undoPath .replace
  let backup ← backupTreeEntry target
  tryCatch
    (do
      call fun d => d.link object tmp
      call fun d => d.replace tmp target)
    (fun e => do
      unlinkIfExists (some tmp)
      unlinkIfExists backup
      throw e)
  pushUndo (.replaceEntry user target backup)
  pushCleanup (.unlinkBackup backup)

def renameTreeFile (user : String) (source target : Loc) (missingPath : String) : FsM Unit := do
  unless ← pathExists source do throw (.fileNotFound missingPath)
  mkdirParents target.area target.parent.path
  let backup ← backupTreeEntry target
  tryCatch
    (call fun d => d.replace source target)
    (fun e => do
      unlinkIfExists backup
      throw e)
  removeEmptyParents user source.parent
  pushUndo (.renameEntry user source target backup)
  pushCleanup (.unlinkBackup backup)

def renameTreeEntry (user oldPath newPath : String) : FsM Unit :=
  renameTreeFile user (treeLoc user oldPath) (treeLoc user newPath) oldPath

def removeTreeEntry (user path : String) : FsM Unit := do
  let target := treeLoc user path
  let backup ← backupTreeEntry target
  let removed ← tryCatch
    (do
      call fun d => d.unlink target
      pure true)
    (fun e => do
      if e = .osError .ENOENT then
        unlinkIfExists backup
        pure false
      else throw e)
  if removed then
    removeEmptyParents user target.parent
    pushUndo (.removeEntry target backup)
    pushCleanup (.unlinkBackup backup)

/-! ### Undoing -/

/-- `_remove_object_entry`; the object directory of the user is where the removal of empty parents stops. -/
def removeObjectEntry (object : Loc) : FsM Unit := unlinkIfExists (some object)

def undoReplaceTreeEntry (user : String) (target : Loc) : Option Loc → FsM Unit
  | none => do
    unlinkIfExists (some target)
    removeEmptyParents user target.parent
  | some backup => do
    mkdirParents target.area target.parent.path
    call fun d => d.replace backup target

def undoRenameTreeEntry (user : String) (source target : Loc) (backup : Option Loc) : FsM Unit := do
  mkdirParents source.area source.parent.path
  if ← pathExists target then
    call fun d => d.replace target source
  match backup with
  | none => removeEmptyParents user target.parent
  | some backup => do
    mkdirParents target.area target.parent.path
    call fun d => d.replace backup target

def undoRemoveTreeEntry (target : Loc) : Option Loc → FsM Unit
  | none => pure ()
  | some backup => do
    mkdirParents target.area target.parent.path
    call fun d => d.replace backup target

def Undo.run : Undo → FsM Unit
  | .removeObject object => removeObjectEntry object
  | .replaceEntry user target backup => undoReplaceTreeEntry user target backup
  | .renameEntry user source target backup => undoRenameTreeEntry user source target backup
  | .removeEntry target backup => undoRemoveTreeEntry target backup

def Cleanup.run : Cleanup → FsM Unit
  | .unlinkBackup backup => unlinkIfExists backup
  | .removeObject object => removeObjectEntry object

/-- Runs the undo callbacks, newest first, and returns whether one of them raised. -/
def runUndos : List Undo → FsM Bool
  | [] => pure false
  | undo :: rest => do
    let failed ← tryCatch (do undo.run; pure false) (fun _ => pure true)
    let failedLater ← runUndos rest
    pure (failed || failedLater)

/-- `_rollback_filesystem`.  From here on no call faults of its own accord. -/
def rollbackFilesystem : FsM Bool := do
  modify fun s => { s with fault := none }
  let s ← get
  runUndos s.undoStack

/-- `_cleanup_filesystem`: an error is logged and forgotten. -/
def cleanupFilesystem : FsM Unit := do
  modify fun s => { s with fault := none }
  let s ← get
  s.cleanupStack.forM fun cleanup => tryCatch cleanup.run fun _ => pure ()

end Ctxd

import Mathlib.Data.Rat.Init
import Mathlib.Tactic.DeriveFintype

/-!
# Operations, rows and exceptions

The data that `CtxfsStore` reads and writes: the four kinds of operations a writer submits, the rows of the catalog,
and the exceptions a submission can end with.  User, writer and source identifiers are strings; an object and a
submission are named by the uuid that was drawn for them.
-/

namespace Ctxd

/-- The `OSError`s a filesystem call of the store can end with. -/
inductive Errno
  | ENOENT | EEXIST | ENOTDIR | EISDIR | EPERM | ENAMETOOLONG | ENOTEMPTY | EINVAL | ioFault
  deriving DecidableEq, Repr

/-- The exceptions of `CtxfsStore`, with the message where the store writes it itself. -/
inductive StoreError
  | valueError (message : String)
  | prefixAuthorization (message : String)
  | contentHashMismatch (message : String)
  | keyError (message : String)
  | fileExists (message : String)
  | fileNotFound (missing : String)
  | osError (errno : Errno)
  | integrityError
  | rollbackFailed
  deriving DecidableEq, Repr

inductive DocClass
  | append | editable | immutable
  deriving DecidableEq, Repr

inductive DecisionState
  | uploadRequired | stored | absent | skipped | retryableFailure | terminalFailure
  deriving DecidableEq, Repr

inductive SubmissionState
  | queued | applied | failed | discarded
  deriving DecidableEq, Repr

structure Provenance where
  producer : String
  producerVersion : String
  confidence : Option Rat
  warnings : List String
  deriving DecidableEq, Repr

structure PutOperation where
  path : String
  sourceKey : String
  sourceVersion : String
  docClass : DocClass
  fileFormat : String
  text : String
  provenance : Provenance
  deriving DecidableEq, Repr

structure MoveOperation where
  sourceKey : String
  path : String
  sourceVersion : String
  expectedContentHash : String
  deriving DecidableEq, Repr

structure DeleteOperation where
  sourceKey : String
  sourceVersion : String
  deriving DecidableEq, Repr

structure DecisionOperation where
  sourceKey : String
  sourceVersion : String
  state : DecisionState
  path : Option String
  failureCode : Option String
  failureMessage : Option String
  retryAfterSeconds : Option Nat
  deriving DecidableEq, Repr

inductive Operation
  | put (op : PutOperation)
  | move (op : MoveOperation)
  | delete (op : DeleteOperation)
  | decision (op : DecisionOperation)
  deriving DecidableEq, Repr

/-- A row of `entries`. -/
structure Entry where
  userId : String
  writerId : String
  path : String
  sourceKey : String
  sourceVersion : String
  docClass : DocClass
  fileFormat : String
  contentHash : String
  sizeBytes : Nat
  lineCount : Nat
  objectId : Nat
  provenance : Provenance
  createdAt : Int
  updatedAt : Int
  deriving DecidableEq, Repr

/-- A row of `decisions`. -/
structure Decision where
  userId : String
  writerId : String
  sourceKey : String
  sourceVersion : String
  path : Option String
  state : DecisionState
  failureCode : Option String
  failureMessage : Option String
  retryAfterSeconds : Option Nat
  createdAt : Int
  updatedAt : Int
  deriving DecidableEq, Repr

/-- A row of `writer_prefixes`. -/
structure WriterPrefix where
  userId : String
  writerId : String
  prefixPath : String
  createdAt : Int
  deriving DecidableEq, Repr

/-- A row of `submissions`; `error` keeps the exception whose text the column holds. -/
structure SubmissionRow where
  submissionId : Nat
  userId : String
  writerId : String
  state : SubmissionState
  operationCount : Nat
  error : Option StoreError
  createdAt : Int
  updatedAt : Int
  deriving DecidableEq, Repr

/-- What `submit` returns. -/
structure Submission where
  submissionId : Nat
  state : SubmissionState
  operationCount : Nat
  error : Option StoreError
  deriving DecidableEq, Repr

/-- The tables of `catalog.sqlite3` a submission works on. -/
structure Catalog where
  entries : List Entry
  decisions : List Decision
  writerPrefixes : List WriterPrefix
  submissions : List SubmissionRow
  deriving DecidableEq, Repr

end Ctxd

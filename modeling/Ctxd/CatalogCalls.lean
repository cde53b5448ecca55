import Ctxd.Lib.Sessions
import Ctxd.Machines

/-!
# `register_machine` and `register_folder`, statement by statement

A call looks for a row with its registration id and replays it.  If there is none, it inserts a row, with one key after
the other until no key of the table is broken, and after every failed insertion it looks again for a row with its id.
Only the insertion and the adoption of a row by an enrolment key write, so a call reads outside a transaction first.

The two methods have their statements in common (`Registering`); they differ in the table, in the checks before, and in
what they ask of a row that is there.  `uuid4` gives every round of every call another text.  `SQLite` holds at most
`maxRows` rows in a table.
-/

namespace Ctxd

inductive FolderState
  | healthy | degraded | missing | disabled | unknown
  deriving DecidableEq, Repr

/-- What the server shows of a folder. -/
structure TrackedFolder where
  folderId : String
  machineId : String
  folderKey : String
  name : String
  description : Option String
  state : FolderState
  localRegistrationId : String
  registeredAt : Int
  deriving DecidableEq, Repr

/-- A row of `tracked_folders`. -/
structure FolderRow extends TrackedFolder where
  userId : String
  registrationName : String
  registrationDescription : Option String
  deriving DecidableEq, Repr

structure FolderRegistrationRequest where
  localRegistrationId : String
  name : String
  description : Option String
  deriving DecidableEq, Repr

structure CatalogTables where
  machines : List MachineRow
  folders : List FolderRow
  deriving DecidableEq, Repr

inductive RegistrationError
  | raised (e : LifecycleError)
  /-- The database is full. -/
  | full
  /-- A row is `None`. -/
  | typeError
  deriving DecidableEq, Repr

inductive Record
  | machine (m : Machine)
  | folder (f : TrackedFolder)
  deriving DecidableEq, Repr

abbrev Outcome := Except RegistrationError Record

def maxRows : Nat := 2 ^ 64

/-! ### Tables -/

/-- The columns that keep the rows of a table apart: no two rows of one owner share an id, a key or a registration. -/
structure Columns (R Ω : Type) where
  owner : R → Ω
  id : R → String
  key : R → String
  registration : R → String

namespace Columns

variable {R Ω : Type} [DecidableEq Ω] (c : Columns R Ω)

/-- The new row breaks a key of the table. -/
def clash (new r : R) : Bool :=
  c.owner r = c.owner new && (c.id r = c.id new || c.key r = c.key new || c.registration r = c.registration new)

def byId (rows : List R) (owner : Ω) (id : String) : Option R := rows.find? fun r => c.owner r = owner && c.id r = id

def byRegistration (rows : List R) (owner : Ω) (registration : String) : Option R :=
  rows.find? fun r => c.owner r = owner && c.registration r = registration

end Columns

/-! ### Statements of a call -/

/-- How far a call has come: the statement it makes next. -/
inductive CallStage
  /-- The `SELECT` of what the row belongs to. -/
  | called
  | searching
  | inserting (suffix : Nat)
  /-- The insertion broke a key of the table. -/
  | refused (suffix : Nat)
  | adopting (id : String)
  | adopted (id : String)
  | inserted (id : String)
  | returning (record : Record)
  | raising (e : RegistrationError)
  deriving DecidableEq, Repr

abbrev CallStatement := Sessions.Statement CatalogTables CallStage Outcome

/-- What one registration gives to the statements that all have in common. -/
structure Registering (R Ω : Type) where
  columns : Columns R Ω
  rows : CatalogTables → List R
  setRows : CatalogTables → List R → CatalogTables
  guard : CatalogTables → Except RegistrationError Unit
  owner : Ω
  registration : String
  base : List Char
  /-- The row to insert, with its id and key. -/
  row : String → String → R
  /-- The call takes rows that are vacant. -/
  adopts : Bool
  vacant : R → Bool
  adopt : R → R
  /-- What is checked of a row that is there. -/
  verdict : R → Except RegistrationError Record
  record : R → Record
  unknown : String → RegistrationError

namespace Registering

variable {R Ω : Type} [DecidableEq Ω] (q : Registering R Ω)

def judge (r : R) : CallStage :=
  match q.verdict r with
  | .ok record => .returning record
  | .error e => .raising e

/-- A row with the registration id has been found. -/
def settle (r : R) : CallStage := if q.adopts && q.vacant r then .adopting (q.columns.id r) else q.judge r

def insert (draw : Nat → String) (suffix : Nat) (t : CatalogTables) : CatalogTables × CallStage :=
  if maxRows ≤ (q.rows t).length then (t, .raising .full)
  else
    let new := q.row (draw suffix) (Machines.suffixedKey q.base suffix)
    if (q.rows t).any (q.columns.clash new) then (t, .refused suffix)
    else (q.setRows t (q.rows t ++ [new]), .inserted (draw suffix))

/-- `UPDATE ... WHERE user_id = ? AND machine_id = ? AND enrollment_key_id IS NULL`. -/
def adoptRow (id : String) (r : R) : R :=
  if q.columns.owner r = q.owner && q.columns.id r = id && q.vacant r then q.adopt r else r

/-- The next statement; `draw` gives the uuids of the rounds. -/
def act (draw : Nat → String) : CallStage → CallStatement
  | .called => .read fun t =>
    match q.guard t with
    | .ok () => .searching
    | .error e => .raising e
  | .searching => .read fun t =>
    match q.columns.byRegistration (q.rows t) q.owner q.registration with
    | some r => q.settle r
    | none => .inserting 1
  | .inserting suffix => .write (q.insert draw suffix)
  | .refused suffix => .read fun t =>
    match q.columns.byRegistration (q.rows t) q.owner q.registration with
    | some r => q.settle r
    | none => .inserting (suffix + 1)
  | .adopting id => .write fun t => (q.setRows t ((q.rows t).map (q.adoptRow id)), .adopted id)
  | .adopted id => .read fun t =>
    match q.columns.byId (q.rows t) q.owner id with
    | some r => q.judge r
    | none => .raising .typeError
  | .inserted id => .read fun t =>
    match q.columns.byId (q.rows t) q.owner id with
    | some r => .returning (q.record r)
    | none => .raising (q.unknown id)
  | .returning record => .commit (.ok record)
  | .raising e => .rollback (.error e)

end Registering

/-! ### `register_machine` -/

def registrationTime (now : Int) : Except StoreError Int := do
  Auth.require (0 < now) "registered_at must be positive"
  return now

def machineColumns : Columns MachineRow String where
  owner r := r.userId
  id r := r.machineId
  key r := r.machineKey
  registration r := r.localRegistrationId

def machineRow (user : String) (q : Machines.Requested) (enrollmentKeyId : Option String) (registeredAt : Int)
    (machineId machineKey : String) : MachineRow :=
  { machineId := machineId, machineKey := machineKey, name := q.name, description := q.description, state := .unknown,
    platform := q.platform, ctxdVersion := q.ctxdVersion, credentialKeyId := none, registeredAt := registeredAt,
    userId := user, localRegistrationId := q.registrationId, registrationName := q.name,
    registrationDescription := q.description, registrationPlatform := q.platform,
    registrationCtxdVersion := q.ctxdVersion, enrollmentKeyId := enrollmentKeyId }

/-- The row has to belong to the enrolment key, if one asks, and is replayed. -/
def machineVerdict (q : Machines.Requested) (enrollmentKeyId : Option String) (r : MachineRow) : Outcome :=
  if enrollmentKeyId.isSome ∧ r.enrollmentKeyId ≠ enrollmentKeyId then
    .error (.raised (.catalogConflict "local_registration_id belongs to another enrollment"))
  else ((Machines.replayMachine r q).map .machine).mapError .raised

def registeringMachine (nfkd : String → String) (user : String) (request : MachineRegistrationRequest)
    (enrollmentKeyId : Option String) (enrollmentRecovered : Bool) (now : Int) :
    Except StoreError (Registering MachineRow String) := do
  let q ← Machines.requested request
  let registeredAt ← registrationTime now
  return {
    columns := machineColumns
    rows := CatalogTables.machines
    setRows := fun t rows => { t with machines := rows }
    guard := fun _ => .ok ()
    owner := user
    registration := q.registrationId
    base := Machines.catalogKey nfkd q.name "machine"
    row := machineRow user q enrollmentKeyId registeredAt
    adopts := enrollmentKeyId.isSome && enrollmentRecovered
    vacant := fun r => r.enrollmentKeyId.isNone
    adopt := fun r => { r with enrollmentKeyId := enrollmentKeyId }
    verdict := machineVerdict q enrollmentKeyId
    record := fun r => .machine r.toMachine
    unknown := fun machineId => .raised (.raised (.keyError s!"unknown machine_id: {machineId}")) }

/-! ### `register_folder` -/

structure RequestedFolder where
  registrationId : String
  name : String
  description : Option String
  deriving DecidableEq, Repr

def requestedFolder (request : FolderRegistrationRequest) : Except StoreError RequestedFolder := do
  let registrationId ← Machines.catalogText request.localRegistrationId "local_registration_id" 128
  let cleanName ← Machines.catalogText request.name "name" 128
  let cleanDescription ← Machines.optionalDescription request.description
  return ⟨registrationId, cleanName, cleanDescription⟩

def folderColumns : Columns FolderRow (String × String) where
  owner r := (r.userId, r.machineId)
  id r := r.folderId
  key r := r.folderKey
  registration r := r.localRegistrationId

def folderRow (user machineId : String) (q : RequestedFolder) (registeredAt : Int) (folderId folderKey : String) :
    FolderRow :=
  { folderId := folderId, machineId := machineId, folderKey := folderKey, name := q.name, description := q.description,
    state := .unknown, localRegistrationId := q.registrationId, registeredAt := registeredAt, userId := user,
    registrationName := q.name, registrationDescription := q.description }

def replayFolder (r : FolderRow) (q : RequestedFolder) : Except LifecycleError TrackedFolder :=
  if (r.registrationName, r.registrationDescription) ≠ (q.name, q.description) then
    .error (.catalogConflict "local_registration_id is already registered with different folder metadata")
  else .ok r.toTrackedFolder

def registeringFolder (nfkd : String → String) (user machineId : String) (request : FolderRegistrationRequest)
    (now : Int) : Except StoreError (Registering FolderRow (String × String)) := do
  let q ← requestedFolder request
  let registeredAt ← registrationTime now
  return {
    columns := folderColumns
    rows := CatalogTables.folders
    setRows := fun t rows => { t with folders := rows }
    guard := fun t => ((Machines.machine t.machines user machineId).map fun _ => ()).mapError .raised
    owner := (user, machineId)
    registration := q.registrationId
    base := Machines.catalogKey nfkd q.name "folder"
    row := folderRow user machineId q registeredAt
    adopts := false
    vacant := fun _ => false
    adopt := id
    verdict := fun r => ((replayFolder r q).map .folder).mapError .raised
    record := fun r => .folder r.toTrackedFolder
    unknown := fun folderId => .raised (.raised (.keyError s!"unknown folder_id: {folderId}")) }

/-! ### Calls -/

inductive CatalogCall
  | machine (user : String) (request : MachineRegistrationRequest) (enrollmentKeyId : Option String)
      (enrollmentRecovered : Bool) (now : Int)
  | folder (user machineId : String) (request : FolderRegistrationRequest) (now : Int)

namespace CatalogCall

/-- A call whose texts are not valid raises before its first statement. -/
def act (nfkd : String → String) (draw : Nat → String) (c : CatalogCall) (stage : CallStage) : CallStatement :=
  match c with
  | .machine user request enrollmentKeyId enrollmentRecovered now =>
    match registeringMachine nfkd user request enrollmentKeyId enrollmentRecovered now with
    | .ok q => q.act draw stage
    | .error e => .rollback (.error (.raised (.raised e)))
  | .folder user machineId request now =>
    match registeringFolder nfkd user machineId request now with
    | .ok q => q.act draw stage
    | .error e => .rollback (.error (.raised (.raised e)))

/-- The machine of a folder is looked up before anything else. -/
def start : CatalogCall → CallStage
  | .machine .. => .searching
  | .folder .. => .called

end CatalogCall

section

variable {ι : Type} [DecidableEq ι]

/-- Calls, each on a connection of its own. -/
def catalogAct (nfkd : String → String) (draw : ι × Nat ↪ String) (calls : ι → CatalogCall) (i : ι) :
    CallStage → CallStatement :=
  (calls i).act nfkd fun round => draw (i, round)

abbrev CatalogState (ι : Type) := Sessions.State ι CatalogTables CallStage Outcome

/-- No call has begun, and nothing is registered. -/
def catalogStart (calls : ι → CatalogCall) : CatalogState ι := ⟨⟨[], []⟩, none, fun i => .running (calls i).start⟩

/-- The state after some statements of the calls. -/
def catalogRun (nfkd : String → String) (draw : ι × Nat ↪ String) (calls : ι → CatalogCall)
    (events : List (Sessions.Event ι)) : CatalogState ι :=
  (catalogStart calls).run (catalogAct nfkd draw calls) events

end

end Ctxd

import Ctxd.GrepCursor
import Ctxd.Installation
import Ctxd.Lib.SharedFile
import Mathlib.Data.List.Sort

/-!
# Commands on one `config.json`

`add_folder`, `remove_folder` and `save_ctxfs_endpoint` load the whole file, change their keys of it and replace it.
`load_or_create_machine_identity` and `configure_machine` do so inside `installation_identity_lock`, and keep a proof of
the identity beside the credentials.  Each command loads what the last one has replaced, or the update of one is lost
(`config_updates_hold`).

A configuration is the dict that the file holds, whatever the order of its keys.
-/

namespace Ctxd

open SharedFile (Program)

/-- What a command raises: a value that is not of its type raises `attribute`, a folder that is not valid `validation`,
and a file that is not UTF-8 `unicodeDecode`. -/
inductive ConfigError
  | identity (e : IdentityError)
  | unicodeDecode
  | attribute
  | validation
  deriving DecidableEq, Repr

abbrev ConfigError.value (message : String) : ConfigError := .identity (.value message)

structure FolderConfig where
  name : String
  path : String
  pre : String
  deriving DecidableEq, Repr

inductive ConfigOutcome
  | folder (folder : FolderConfig)
  | saved
  | machine (identity : LocalMachineIdentity)
  deriving DecidableEq, Repr

abbrev Config := String → Option Json

/-- `config.json`: `unreadable` raises when it is opened, `undecodable` is not UTF-8, `malformed` is not JSON, and
`foreign` is not a dict. -/
inductive ConfigFile
  | absent
  | unreadable
  | undecodable
  | malformed
  | foreign
  | config (c : Config)

/-- A result, or what was raised. -/
abbrev ConfigResult := Except ConfigError ConfigOutcome

/-- The proof beside the credentials, as `load_installation_proof` finds it. -/
abbrev StoredProof := Except ConfigError (Option String)

abbrev ConfigProgram (R : Type) := Program ConfigFile StoredProof R

/-! ### The file -/

/-- `load_config`: a file that is not JSON is taken for an empty one, and no key can be looked up in what is no dict.
The error of a file that is not UTF-8 is not caught. -/
def loadConfig : ConfigFile → Except ConfigError Config
  | .absent | .unreadable | .malformed => .ok fun _ => none
  | .undecodable => .error .unicodeDecode
  | .foreign => .error .attribute
  | .config c => .ok c

def loadConfigStrict : ConfigFile → Except ConfigError Config
  | .absent => .ok fun _ => none
  | .unreadable => .error (.value "Stored ctxd configuration could not be read.")
  | .undecodable => .error .unicodeDecode
  | .malformed => .error (.value "Stored ctxd configuration is invalid.")
  | .foreign => .error (.value "Stored ctxd configuration is invalid.")
  | .config c => .ok c

/-- `config[key] = value`. -/
def Config.set (c : Config) (key : String) (value : Json) : Config := Function.update c key (some value)

def Config.pop (c : Config) (key : String) : Config := Function.update c key none

/-! ### Folders -/

def invalidFolder {α : Type} : Except ConfigError α := .error .validation

/-- `FolderConfig.model_validate`: no other key, and a prefix that is not empty. -/
def FolderConfig.validate (fields : Dict String Json) : Except ConfigError FolderConfig :=
  if fields.any fun field => field.1 ≠ "name" && field.1 ≠ "path" && field.1 ≠ "prefix" then invalidFolder
  else
    match fields.get? "name", fields.get? "path", fields.get? "prefix" with
    | some (.str name), some (.str path), some (.str pre) => if pre = "" then invalidFolder else .ok ⟨name, path, pre⟩
    | _, _, _ => invalidFolder

def FolderConfig.dump (folder : FolderConfig) : Json :=
  .obj [("name", .str folder.name), ("path", .str folder.path), ("prefix", .str folder.pre)]

def addFolderItem (folders : Dict String FolderConfig) (item : String × Json) :
    Except ConfigError (Dict String FolderConfig) :=
  match item.2 with
  | .obj fields => do
    let folder ← FolderConfig.validate fields
    return folders.set folder.name folder
  | _ => .ok folders

def foldersFromConfig (c : Config) : Except ConfigError (Dict String FolderConfig) :=
  match c "folders" with
  | some (.obj items) => items.foldlM addFolderItem []
  | _ => .ok []

/-- `config["folders"]`, in the order in which `save_config` writes it. -/
def foldersValue (folders : Dict String FolderConfig) : Json :=
  .obj ((folders.map fun item => (item.1, item.2.dump)).insertionSort fun item item' => item.1 ≤ item'.1)

/-- What `Path(path).expanduser().resolve()` finds. -/
structure FolderPath where
  text : String
  name : String
  there : Bool
  isDir : Bool

def validateFolderName (name : String) : Except ConfigError Unit :=
  if name = "" then .error (.value "Folder name is required.")
  else if name = "." || name = ".." then .error (.value "Folder name cannot be `.` or `..`.")
  else if name.toList.any fun c => c = '/' || c =
    '\\' then .error (.value "Folder name cannot contain path separators.")
  else if name = "local-files" then .error (.value s!"Folder name `{name}` is reserved.")
  else .ok ()

/-- The checks before the file is loaded. -/
def checkFolder (folder : FolderPath) (name : Option String) : Except ConfigError String := do
  let folderName := (name.filter (· ≠ "")).getD folder.name
  validateFolderName folderName
  if !folder.there then throw (.value s!"Folder path `{folder.text}` does not exist.")
  if !folder.isDir then throw (.value s!"Folder path `{folder.text}` is not a directory.")
  return folderName

/-- Loads the file, and replaces it by what the update makes of it. -/
def updateConfig (update : Config → Except ConfigError (Config × ConfigOutcome)) : ConfigProgram ConfigResult :=
  .load fun file =>
    match loadConfig file >>= update with
    | .ok (c, outcome) => .save (.config c) (.done (.ok outcome))
    | .error e => .done (.error e)

def insertFolder (folder : FolderConfig) (c : Config) : Except ConfigError (Config × ConfigOutcome) := do
  let folders ← foldersFromConfig c
  if folders.contains folder.name then throw (.value s!"Folder `{folder.name}` already exists.")
  return (Config.set c "folders" (foldersValue (folders.set folder.name folder)), .folder folder)

def popFolder (name : String) (c : Config) : Except ConfigError (Config × ConfigOutcome) := do
  let folders ← foldersFromConfig c
  match folders.get? name with
  | none => .error (.value s!"Folder `{name}` does not exist.")
  | some removed => return (Config.set c "folders" (foldersValue (folders.pop name)), .folder removed)

/-- `add_folder`; `uuid` is the uuid that it draws. -/
def addFolder (folder : FolderPath) (name : Option String) (uuid : String) : ConfigProgram ConfigResult :=
  match checkFolder folder name with
  | .error e => .done (.error e)
  | .ok folderName => updateConfig (insertFolder ⟨folderName, folder.text, s!"local-files/{uuid}"⟩)

def removeFolder (name : String) : ConfigProgram ConfigResult := updateConfig (popFolder name)

/-! ### The endpoint -/

def setEndpoint (endpoint : String) (c : Config) : Except ConfigError (Config × ConfigOutcome) :=
  .ok (Config.set (Config.pop c "ctxfs_socket") "ctxfs_url" (.str endpoint), .saved)

/-- `save_ctxfs_endpoint`, for what `normalize_ctxfs_endpoint` makes of an endpoint. -/
def saveCtxfsEndpoint (normalize : String → Except ConfigError String) (endpoint : String) :
    ConfigProgram ConfigResult :=
  match normalize endpoint with
  | .error e => .done (.error e)
  | .ok normalized => updateConfig (setEndpoint normalized)

/-! ### The identity of the machine -/

def invalidMachine {α : Type} : Except ConfigError α := .error (.value "Stored machine configuration is invalid.")

/-- `==` with the number one. -/
def equalsOne : Json → Bool
  | .int n => n = 1
  | .bool b => b
  | .float text => text = "1.0"
  | _ => false

/-- `str(uuid.UUID(raw[key]))`. -/
def uuidField (fields : Dict String Json) (key : String) : Except ConfigError String :=
  match fields.get? key with
  | none | some .null => invalidMachine
  | some (.str text) =>
    match Installation.uuidText text with
    | some id => .ok id
    | none => invalidMachine
  | some _ => .error .attribute

/-- `_parse_identity`. -/
def parseMachine : Json → Except ConfigError LocalMachineIdentity
  | .obj fields => do
    if !((Dict.get? fields "schema_version").any equalsOne) then invalidMachine
    let installationId ← uuidField fields "installation_id"
    let localRegistrationId ← uuidField fields "local_registration_id"
    let name ← match Dict.get? fields "name" with
      | some (.str name) =>
        match Installation.validateText name "machine name" 128 with
        | .ok clean => .ok clean
        | .error _ => invalidMachine
      | _ => invalidMachine
    let description ← match Dict.get? fields "description" with
      | none | some .null => .ok none
      | some (.str description) =>
        match Installation.validateDescription (some description) with
        | .ok clean => .ok clean
        | .error _ => invalidMachine
      | some _ => invalidMachine
    return ⟨1, installationId, localRegistrationId, name, description⟩
  | _ => invalidMachine

def identityDict (identity : LocalMachineIdentity) : Json :=
  .obj [("description", identity.description.elim .null .str), ("installation_id", .str identity.installationId),
    ("local_registration_id", .str identity.localRegistrationId), ("name", .str identity.name),
    ("schema_version", .int identity.schemaVersion)]

/-- The identity for a `config["machine"]` and a proof, and whether it is new. -/
def settleIdentity (ids : Installation.Identifiers) (defaultName : String) (raw : Option Json) (proof : Option String) :
    Except ConfigError (LocalMachineIdentity × Bool) :=
  match raw with
  | none | some .null => do
    let identity ← (Installation.newIdentity ids defaultName none).mapError .identity
    return (identity, true)
  | some raw => do
    let identity ← parseMachine raw
    if proof = some identity.installationId then return (identity, false)
    let moved ← (Installation.newIdentity ids identity.name identity.description).mapError .identity
    return (moved, true)

/-- The file and the proof have been loaded. -/
def settleProof (ids : Installation.Identifiers) (defaultName : String) (c : Config) (proof : StoredProof) :
    ConfigProgram (Except ConfigError LocalMachineIdentity) :=
  match proof >>= settleIdentity ids defaultName (c "machine") with
  | .error e => .done (.error e)
  | .ok (identity, false) => .done (.ok identity)
  | .ok (identity, true) =>
    .save (.config (Config.set c "machine" (identityDict identity)))
      (.saveSide (.ok (some identity.installationId)) (.done (.ok identity)))

/-- The file has been loaded. -/
def settleLoaded (ids : Installation.Identifiers) (defaultName : String) (file : ConfigFile) :
    ConfigProgram (Except ConfigError LocalMachineIdentity) :=
  match loadConfigStrict file with
  | .error e => .done (.error e)
  | .ok c => .loadSide (settleProof ids defaultName c)

/-- `_load_or_create_machine_identity_unlocked`. -/
def loadOrCreateUnlocked (ids : Installation.Identifiers) (defaultName : String) :
    ConfigProgram (Except ConfigError LocalMachineIdentity) := .load (settleLoaded ids defaultName)

/-- `with installation_identity_lock(...)`. -/
def withIdentityLock {R : Type} (body : ConfigProgram R) : ConfigProgram R :=
  .acquire (body.bind fun result => .release (.done result))

def loadOrCreateMachineIdentity (ids : Installation.Identifiers) (defaultName : String) : ConfigProgram ConfigResult :=
  withIdentityLock ((loadOrCreateUnlocked ids defaultName).bind fun result => .done (result.map .machine))

/-- The identity with a new name or description; `description` is `none` where it is left out. -/
def renameIdentity (identity : LocalMachineIdentity) (name : Option String) (description : Option (Option String)) :
    Except ConfigError LocalMachineIdentity := do
  let newName ← match name with
    | none => .ok identity.name
    | some name => (Installation.validateText name "machine name" 128).mapError .identity
  let newDescription ← match description with
    | none => .ok identity.description
    | some description => (Installation.validateDescription description).mapError .identity
  return { identity with name := newName, description := newDescription }

/-- What `configure_machine` does with the identity, or an error. -/
def configured (name : Option String) (description : Option (Option String)) :
    Except ConfigError LocalMachineIdentity → ConfigProgram ConfigResult
  | .error e => .done (.error e)
  | .ok identity =>
    match renameIdentity identity name description with
    | .error e => .done (.error e)
    | .ok updated => .load fun file =>
      match loadConfigStrict file with
      | .error e => .done (.error e)
      | .ok c => .save (.config (Config.set c "machine" (identityDict updated))) (.done (.ok (.machine updated)))

def configureMachine (ids : Installation.Identifiers) (defaultName : String) (name : Option String)
    (description : Option (Option String)) : ConfigProgram ConfigResult :=
  if name = none ∧ description = none then
    .done (.error (.value "Specify --name, --description, or --clear-description."))
  else withIdentityLock ((loadOrCreateUnlocked ids defaultName).bind (configured name description))

end Ctxd

import Ctxd.Lib.Program
import Ctxd.Machines
import Ctxd.Text

/-!
# The coordinator of machine credentials

`MachineCredentialCoordinator` changes two databases: the catalog, where each statement block commits by itself, and
the credential store, where a call is one transaction that commits last.  A call can stop in between: it raises, or
its process dies after one of its commits to the catalog.  Then the catalog keeps what was committed and the
transaction is undone.

A call holds the write lock of the credential store from its first statement on, so calls follow one another.
-/

namespace Ctxd

open Program

/-- The tables of the two databases a call works on; `dies` counts the commits to the catalog after which the process
dies. -/
structure Databases where
  machines : List MachineRow
  credentials : List Credential
  enrollmentUses : List EnrollmentUse
  dies : Option Nat
  deriving DecidableEq

abbrev LifecycleM := EStateM LifecycleError Databases

structure MachineRegistrationResult where
  machine : Machine
  keyId : String
  recovered : Bool
  deriving DecidableEq, Repr

namespace Coordinator

variable {α : Type}

/-! ### Two databases -/

/-- `with credentials.immediate_transaction():`. -/
def immediateTransaction (body : LifecycleM α) : LifecycleM α := fun s =>
  match body s with
  | .ok a s' => .ok a s'
  | .error e s' => .error e { s' with credentials := s.credentials, enrollmentUses := s.enrollmentUses }

/-- `with self.connection:` of the catalog: the block commits, unless it raises. -/
def committing (block : List MachineRow → Except LifecycleError (α × List MachineRow)) : LifecycleM α := fun s =>
  match block s.machines with
  | .error e => .error e s
  | .ok (a, machines) =>
    match s.dies with
    | some 0 => .error .died { s with machines := machines }
    | some (n + 1) => .ok a { s with machines := machines, dies := some n }
    | none => .ok a { s with machines := machines }

def reading (query : List MachineRow → Except LifecycleError α) : LifecycleM α := fun s =>
  match query s.machines with
  | .error e => .error e s
  | .ok a => .ok a s

def onCredentials (statement : List Credential → Except LifecycleError (α × List Credential)) : LifecycleM α :=
  fun s => match statement s.credentials with
    | .error e => .error e s
    | .ok (a, credentials) => .ok a { s with credentials := credentials }

def onUses (statement : List EnrollmentUse → Except LifecycleError (α × List EnrollmentUse)) : LifecycleM α :=
  fun s => match statement s.enrollmentUses with
    | .error e => .error e s
    | .ok (a, uses) => .ok a { s with enrollmentUses := uses }

def revokeMachineKey (now : Int) (keyId machineId : String) (replacedBy : Option String) : LifecycleM Unit :=
  onCredentials fun cs => (Credentials.revokeMachineKey cs now keyId machineId replacedBy).map ((), ·)

def credential (keyId : String) : LifecycleM Credential := fun s =>
  match Credentials.get s.credentials keyId with
  | .error e => .error e s
  | .ok c => .ok c s

def machineCredentials (machineId : String) : LifecycleM (List Credential) := do
  return Credentials.machineCredentials (← get).credentials machineId

/-- Revokes the active keys of a machine, except the one that is kept. -/
def revokeOthers (now : Int) (machineId : String) (kept : Option String) (credentials : List Credential) :
    LifecycleM PUnit :=
  credentials.forM fun c => do
    if some c.keyId ≠ kept && c.active now then revokeMachineKey now c.keyId machineId none

/-! ### Requests -/

/-- A character of a JSON string, in ASCII. -/
def jsonChar (c : Char) : List Char :=
  let unit := fun n : Nat => ['\\', 'u', hexDigit (n / 4096), hexDigit (n / 256 % 16), hexDigit (n / 16 % 16),
    hexDigit (n % 16)]
  if c = '"' then ['\\', '"']
  else if c = '\\' then ['\\', '\\']
  else if c = '\n' then ['\\', 'n']
  else if c = '\r' then ['\\', 'r']
  else if c = '\t' then ['\\', 't']
  else if c.toNat = 8 then ['\\', 'b']
  else if c.toNat = 12 then ['\\', 'f']
  else if c.toNat < 32 || (127 ≤ c.toNat && c.toNat < 0x10000) then unit c.toNat
  else if c.toNat < 127 then [c]
  else
    let n := c.toNat - 0x10000
    unit (0xD800 + n / 1024) ++ unit (0xDC00 + n % 1024)

def jsonString (text : String) : String := String.ofList ('"' :: text.toList.flatMap jsonChar ++ ['"'])

def jsonOptional : Option String → String
  | none => "null"
  | some text => jsonString text

def requestFingerprint (request : MachineRegistrationRequest) : String :=
  let encoded := "\x7b" ++ String.intercalate ","
    ["\"ctxd_version\":" ++ jsonOptional (request.ctxdVersion.map Strip.strip),
     "\"description\":" ++ jsonOptional (request.description.map Strip.strip),
     "\"local_registration_id\":" ++ jsonString (Strip.strip request.localRegistrationId),
     "\"name\":" ++ jsonString (Strip.strip request.name),
     "\"platform\":" ++ jsonOptional (request.platform.map Strip.strip)] ++ "\x7d"
  sha256Hex encoded.toUTF8

/-! ### Authority -/

/-- `assert principal.key_id is not None`. -/
def enrollmentKey (principal : Principal) : LifecycleM String :=
  match principal.keyId with
  | some key => pure key
  | none => throw .assertion

def requireCurrent (user : String) (principal : Principal) (machineId : String) (allowCleared : Bool) :
    LifecycleM Machine := do
  let machine ← reading fun ms => Machines.machine ms user machineId
  if .admin ∈ principal.scopes then return machine
  let bindingMatches := machine.credentialKeyId = principal.keyId ∨ (allowCleared ∧ machine.credentialKeyId = none)
  if principal.machineId ≠ some machineId ∨ principal.keyId = none ∨ ¬bindingMatches then throw .notCurrent
  return machine

def requireMachineCredential (now : Int) (c : Credential) (machine : Machine) : LifecycleM Unit :=
  if c.active now = false ∨ c.machineId ≠ some machine.machineId ∨ c.scopes ≠ {.submit, .statusWrite} ∨
      c.prefixes ≠ [s!"machines/{machine.machineKey}"] then
    throw (.value "invalid replacement machine credential")
  else pure ()

/-! ### The four calls -/

variable (nfkd : String → String) (user : String) (draw : Draw) (principal : Principal)

/-- An administrator uses up no enrolment key. -/
def consumeEnrollment (request : MachineRegistrationRequest) : LifecycleM Bool :=
  if .admin ∈ principal.scopes then pure false
  else do
    let key ← enrollmentKey principal
    onUses fun uses => Credentials.consumeEnrollment uses draw.now key (Strip.strip request.localRegistrationId)
      (requestFingerprint request)

def bindEnrollmentUse (machineId : String) : LifecycleM Unit :=
  if .admin ∈ principal.scopes then pure ()
  else do
    let key ← enrollmentKey principal
    onUses fun uses => (Credentials.bindEnrollmentUse uses key machineId).map ((), ·)

/-- Revokes the key that was bound, if it was stored. -/
def retirePrevious (now : Int) (machineId : String) (previousKey : Option String) (credentials : List Credential)
    (successor : String) : LifecycleM Unit :=
  match previousKey with
  | none => pure ()
  | some previous =>
    if credentials.any fun c => c.keyId = previous then revokeMachineKey now previous machineId (some successor)
    else pure ()

/-- Whether the registration was there already, under the same authority. -/
def isRecovery (existingRegistration : Option (Machine × Option String)) (consumed : Bool) : Bool :=
  match existingRegistration with
  | some existing => if .admin ∈ principal.scopes then consumed else existing.2 = principal.keyId
  | none => consumed

def register (request : MachineRegistrationRequest) : LifecycleM MachineRegistrationResult :=
  if .admin ∉ principal.scopes ∧ .enroll ∉ principal.scopes then
    throw (.permission "enrollment authority required")
  else immediateTransaction do
    let consumed ← consumeEnrollment draw principal request
    let existingRegistration ← reading fun ms =>
      Machines.machineForRegistration ms user request.localRegistrationId
    let machine ← committing fun ms => Machines.registerMachine ms nfkd user request
      (if .admin ∈ principal.scopes then none else principal.keyId) consumed draw
    let credentials ← machineCredentials machine.machineId
    bindEnrollmentUse principal machine.machineId
    revokeOthers draw.now machine.machineId machine.credentialKeyId credentials
    let issued ← onCredentials fun cs => Credentials.issueMachine cs draw machine.machineId machine.machineKey none
    let bound ← committing fun ms =>
      Machines.bindMachineCredential ms user machine.machineId machine.credentialKeyId issued.keyId
    retirePrevious draw.now machine.machineId machine.credentialKeyId credentials issued.keyId
    return ⟨bound, issued.keyId, isRecovery principal existingRegistration consumed⟩

def prepareRotation (machineId : String) : LifecycleM String :=
  immediateTransaction do
    let machine ← requireCurrent user principal machineId false
    let credentials ← machineCredentials machineId
    revokeOthers draw.now machineId machine.credentialKeyId credentials
    let issued ← onCredentials fun cs =>
      Credentials.issueMachine cs draw machine.machineId machine.machineKey machine.credentialKeyId
    return issued.keyId

def invalidRetry : LifecycleError := .value "invalid rotation confirmation retry"

def confirmRotation (machineId replacementKeyId : String) : LifecycleM Machine :=
  immediateTransaction do
    let machine ← requireCurrent user principal machineId false
    if machine.credentialKeyId = some replacementKeyId then
      -- the binding moved in a call whose transaction was undone: the former key may still be active
      let replacement ← credential replacementKeyId
      requireMachineCredential draw.now replacement machine
      match replacement.rotationFrom with
      | none => throw invalidRetry
      | some predecessorKeyId =>
        if .admin ∉ principal.scopes ∧ principal.keyId ≠ some replacementKeyId then throw invalidRetry
        let predecessor ← credential predecessorKeyId
        if predecessor.machineId ≠ some machineId ∨
            (predecessor.active draw.now ∧ predecessor.replacedBy ≠ none) ∨
            (¬predecessor.active draw.now ∧ predecessor.replacedBy ≠ some replacementKeyId) then
          throw invalidRetry
        if predecessor.active draw.now then
          revokeMachineKey draw.now predecessor.keyId machineId (some replacementKeyId)
        return machine
    else
      let replacement ← credential replacementKeyId
      requireMachineCredential draw.now replacement machine
      match machine.credentialKeyId with
      | none => throw .assertion
      | some oldKey =>
        if replacement.rotationFrom ≠ some oldKey then
          throw (.value "replacement credential was not prepared for current key")
        let bound ← committing fun ms =>
          Machines.bindMachineCredential ms user machineId (some oldKey) replacementKeyId
        revokeMachineKey draw.now oldKey machineId (some replacementKeyId)
        return bound

def revoke (machineId : String) : LifecycleM Machine :=
  immediateTransaction do
    let machine ← requireCurrent user principal machineId true
    match machine.credentialKeyId with
    | none =>
      -- a binding was cleared in a call whose transaction was undone
      let credentials ← machineCredentials machineId
      credentials.forM fun c => do
        if c.active draw.now then revokeMachineKey draw.now c.keyId machineId none
      return machine
    | some keyId =>
      revokeMachineKey draw.now keyId machineId none
      committing fun ms => Machines.clearMachineCredential ms user machineId keyId

end Coordinator

end Ctxd

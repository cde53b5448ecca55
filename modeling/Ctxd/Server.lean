import Ctxd.Enrollment

/-!
# The server in front of the coordinator

Before a request reaches its handler the server admits its principal: a machine's key passes only while the catalog
binds its machine to it, or, once the binding is cleared, for the request that revokes the machine's keys.  The
handlers of one machine then ask for that machine's key or for an administrator.
-/

namespace Ctxd

namespace Server

variable (machines : List MachineRow) (user : String)

/-- `_machine_credential_is_admissible`. -/
def machineCredentialIsAdmissible (principal : Principal) (method path : String) : Bool :=
  match principal.machineId with
  | none => false
  | some machineId =>
    if principal.keyId = none then false
    else match Machines.machine machines user machineId with
      | .error _ => false
      | .ok machine =>
        if machine.credentialKeyId = principal.keyId then true
        else
          let revokePath := s!"/api/ctxfs/machines/{machineId}/credential"
          machine.credentialKeyId = none && method = "DELETE" && path = revokePath

/-- The check of `authenticate_request` that follows the verification of the token. -/
def admits (principal : Principal) (method path : String) : Bool :=
  principal.machineId = none || machineCredentialIsAdmissible machines user principal method path

def requireCurrentMachine (principal : Principal) (machineId : String) : Bool :=
  .admin ∈ principal.scopes || principal.machineId = some machineId

/-- A principal whose request to confirm a rotation reaches the coordinator. -/
def admitsConfirmation (principal : Principal) (machineId : String) : Bool :=
  admits machines user principal "POST" s!"/api/ctxfs/machines/{machineId}/credentials/confirm" &&
    requireCurrentMachine principal machineId

end Server

end Ctxd

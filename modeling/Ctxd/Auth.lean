import Ctxd.Path
import Ctxd.Lib.Program
import Ctxd.Lib.Strip
import Mathlib.Data.Finset.Basic
import Mathlib.Data.Finset.Card

/-!
# Principals and what they may do

A principal is what the server knows of a caller: the scopes of its key, the prefixes it may write below, and the
machine the key was issued for.  `validateGrants` is the check that every grant passes before a principal can be
built, so that a principal with the enrolment scope has no other scope, no prefix and no machine, and a machine's
principal has exactly one prefix.  `authorize` decides a capability.
-/

namespace Ctxd

inductive Scope
  | status | statusWrite | read | submit | enroll | admin
  deriving DecidableEq, Repr

inductive PrincipalKind
  | apiKey | localSocket
  deriving DecidableEq, Repr

inductive DenialReason
  | unauthenticated | missingScope | prefixRequired | prefixNotGranted
  deriving DecidableEq, Repr

namespace Auth

/-- `if condition: raise ValueError(message)`. -/
def require (condition : Bool) (message : String) : Except StoreError Unit :=
  if condition then .ok () else .error (.valueError message)

def requireIdentifier (value field : String) : Except StoreError Unit :=
  require (value ≠ "" && Strip.strip value = value) s!"{field} must be a non-empty, trimmed string"

def normalizePath (path : String) : Except StoreError String :=
  if path = "" || path.toList.head? = some '/' || path.toList.getLast? = some '/' || hasControlCharacter path ||
      startsWithDrive path then
    .error (.valueError "paths must be normalized relative ctxfs paths")
  else if (rawParts path).any isDots then .error (.valueError "paths must be normalized relative paths")
  else .ok (joinParts (rawParts path))

def normalizePrefix (pre : String) : Except StoreError String := do
  let normalized ← normalizePath pre
  require (normalized ≠ "") "prefix grants cannot be empty"
  return normalized

def within (path pre : String) : Bool := path = pre || startsBelow path pre

/-- The scopes of a machine's key. -/
def machineScopes : Finset Scope := {.submit, .statusWrite}

def validateGrants (scopes : Finset Scope) (prefixes : List String) (machineId : Option String) :
    Except StoreError (List String) := do
  let normalized ← prefixes.mapM normalizePrefix
  require normalized.Nodup "prefix grants must be unique"
  require (normalized = [] || .submit ∈ scopes) "prefix grants require the submit scope"
  require (.admin ∉ scopes || scopes.card = 1) "admin is an all-capability scope and must stand alone"
  require (.enroll ∉ scopes || scopes.card = 1) "enroll scope must stand alone"
  require (.enroll ∉ scopes || normalized = []) "enroll scope cannot have prefix grants"
  require (.statusWrite ∉ scopes || machineId.isSome) "status:write scope requires a machine binding"
  require (machineId.isNone || (scopes = machineScopes && normalized.length = 1))
    "machine credentials require submit and status:write with one prefix"
  return normalized

/-- The checks of a principal, which end with its normalised prefixes. -/
def validatePrincipal (principalId : String) (kind : PrincipalKind) (scopes : Finset Scope) (keyId : Option String)
    (prefixes : List String) (machineId : Option String) : Except StoreError (List String) := do
  requireIdentifier principalId "principal_id"
  require (kind ≠ .apiKey || (keyId.getD "") ≠ "") "API-key principals require a key_id"
  require (kind ≠ .localSocket || keyId.isNone) "local-socket principals cannot have a key_id"
  match keyId with
  | some key => requireIdentifier key "key_id"
  | none => pure ()
  match machineId with
  | some machine => requireIdentifier machine "machine_id"
  | none => pure ()
  validateGrants scopes prefixes machineId

end Auth

/-- An authenticated identity, with prefixes as its checks have left them. -/
structure Principal where
  principalId : String
  kind : PrincipalKind
  scopes : Finset Scope
  keyId : Option String
  prefixes : List String
  machineId : Option String
  valid : Auth.validatePrincipal principalId kind scopes keyId prefixes machineId = .ok prefixes

/-- What a credential allows. -/
structure CredentialGrant where
  principalId : String
  keyId : String
  scopes : Finset Scope
  prefixes : List String
  machineId : Option String
  deriving DecidableEq

structure AuthorizationDecision where
  allowed : Bool
  requiredScope : Scope
  principalId : Option String
  keyId : Option String
  denialReason : Option DenialReason
  deriving DecidableEq, Repr

namespace Auth

/-- `CredentialGrant(...)`, whose checks normalise the prefixes. -/
def credentialGrant (principalId keyId : String) (scopes : Finset Scope) (prefixes : List String)
    (machineId : Option String) : Except StoreError CredentialGrant := do
  requireIdentifier principalId "principal_id"
  requireIdentifier keyId "key_id"
  match machineId with
  | some machine => requireIdentifier machine "machine_id"
  | none => pure ()
  let normalized ← validateGrants scopes prefixes machineId
  return ⟨principalId, keyId, scopes, normalized, machineId⟩

def allow (principal : Principal) (scope : Scope) : AuthorizationDecision :=
  ⟨true, scope, some principal.principalId, principal.keyId, none⟩

def deny (scope : Scope) (reason : DenialReason) (principal : Option Principal) : AuthorizationDecision :=
  ⟨false, scope, principal.map (·.principalId), principal.bind (·.keyId), some reason⟩

def authorize (principal : Option Principal) (requiredScope : Scope) (path : Option String) :
    Except StoreError AuthorizationDecision :=
  match principal with
  | none => .ok (deny requiredScope .unauthenticated none)
  | some p =>
    if .admin ∈ p.scopes then .ok (allow p requiredScope)
    else if requiredScope ∉ p.scopes then .ok (deny requiredScope .missingScope (some p))
    else if requiredScope ≠ .submit then .ok (allow p requiredScope)
    else match path with
      | none => .ok (deny requiredScope .prefixRequired (some p))
      | some path => do
        let normalizedPath ← normalizePath path
        if p.prefixes.any fun pre => within normalizedPath pre then return allow p requiredScope
        return deny requiredScope .prefixNotGranted (some p)

/-! ### What the checks give -/

theorem require_ok {condition : Bool} {message : String} {u : Unit} :
    require condition message = .ok u ↔ condition = true := by
  unfold require
  split <;> simp_all

theorem require_of {condition : Bool} {message : String} (h : condition = true) : require condition message = .ok () :=
  require_ok.2 h

/-- The two services check paths alike. -/
theorem normalizePath_ok {path q : String} (h : normalizePath path = .ok q) : q = path ∧ Normalized path := by
  unfold normalizePath at h
  split at h
  · cases h
  rename_i hfirst
  split at h
  · cases h
  rename_i hdots
  cases h
  rw [Bool.not_eq_true] at hfirst hdots
  simp only [Bool.or_eq_false_iff] at hfirst
  obtain ⟨⟨⟨⟨hne, hslash⟩, -⟩, hcontrol⟩, hdrive⟩ := hfirst
  exact ⟨joinParts_rawParts path, .of_checks (by simp only [hne, hslash, hcontrol]; rfl) hdrive hdots⟩

/-- A word below the machines. -/
private theorem normalizePath_machines {key : String} (hne : key ≠ "")
    (hw : ∀ c ∈ key.toList, Strip.isWordChar c = true) :
    normalizePath ("machines/" ++ key) = .ok ("machines/" ++ key) := by
  have hmachines : ("machines/" : String) = "machines" ++ "/" := rfl
  have hparts : rawParts ("machines/" ++ key) = ["machines", key] := by
    rw [hmachines, rawParts_append, rawParts_of_forall fun c hc => (Strip.toNat_of_isWordChar (hw c hc)).2.2.1,
      rawParts_of_forall (by simp)]
    rfl
  have hchars : ("machines/" ++ key).toList = "machines/".toList ++ key.toList := String.toList_append
  have hlist : key.toList ≠ [] := by simpa using hne
  have hlast : ("machines/" ++ key).toList.getLast? ≠ some '/' := by
    rw [hchars, List.getLast?_append_of_ne_nil _ hlist]
    intro hslash
    exact (Strip.toNat_of_isWordChar (hw _ (List.mem_of_getLast? hslash))).2.2.1 rfl
  have hcontrol : hasControlCharacter ("machines/" ++ key) = false := by
    unfold hasControlCharacter
    rw [List.any_eq_false, hchars]
    intro c hc
    have hrange : 45 ≤ c.toNat ∧ c.toNat ≤ 122 := by
      have hplain : ∀ c ∈ "machines/".toList, 45 ≤ c.toNat ∧ c.toNat ≤ 122 := by simp
      rcases List.mem_append.1 hc with hc | hc
      · exact hplain c hc
      · exact ⟨(Strip.toNat_of_isWordChar (hw c hc)).1, (Strip.toNat_of_isWordChar (hw c hc)).2.1⟩
    simp only [Bool.or_eq_true, decide_eq_true_eq, beq_iff_eq]
    omega
  have hdrive : startsWithDrive ("machines/" ++ key) = false := by
    unfold startsWithDrive
    rw [hchars]
    rfl
  have hdots : isDots key = false := by
    unfold isDots
    have hdot : ∀ s : String, '.' ∈ s.toList → key ≠ s := by
      rintro s hs rfl
      exact (Strip.toNat_of_isWordChar (hw _ hs)).2.2.2 rfl
    simp [hne, hdot "." (by decide), hdot ".." (by decide)]
  have hnonempty : "machines/" ++ key ≠ "" := by simp
  have hhead : ("machines/" ++ key).toList.head? ≠ some '/' := by
    rw [hchars]
    exact fun h => absurd (Option.some.inj h) (by decide)
  have hfirst : ("machines/" ++ key = "" || ("machines/" ++ key).toList.head? = some '/' ||
      ("machines/" ++ key).toList.getLast? = some '/' || hasControlCharacter ("machines/" ++ key) ||
      startsWithDrive ("machines/" ++ key)) = false := by
    rw [hcontrol, hdrive, decide_eq_false hnonempty, decide_eq_false hhead, decide_eq_false hlast]
    rfl
  have hparts' : (rawParts ("machines/" ++ key)).any isDots = false := by
    rw [hparts, List.any_cons, List.any_cons, hdots]
    decide
  unfold normalizePath
  rw [if_neg (by rw [hfirst]; simp), if_neg (by rw [hparts']; simp), joinParts_rawParts]

private theorem requireIdentifier_of_words {value : String} (field : String) (hne : value ≠ "")
    (hw : ∀ c ∈ value.toList, Strip.isWordChar c = true) : requireIdentifier value field = .ok () := by
  unfold requireIdentifier
  rw [require_ok, Strip.strip_of_noSpace fun c hc => Strip.isSpace_of_isWordChar (hw c hc)]
  simp [hne]

/-- The grant of a machine's key. -/
theorem credentialGrant_machine {keyId machineId machineKey : String} (hk : keyId ≠ "")
    (hkw : ∀ c ∈ keyId.toList, Strip.isWordChar c = true) (hm : machineId ≠ "")
    (hmw : ∀ c ∈ machineId.toList, Strip.isWordChar c = true) (hn : machineKey ≠ "")
    (hnw : ∀ c ∈ machineKey.toList, Strip.isWordChar c = true) :
    credentialGrant keyId keyId machineScopes ["machines/" ++ machineKey] (some machineId) =
      .ok ⟨keyId, keyId, machineScopes, ["machines/" ++ machineKey], some machineId⟩ := by
  have hgrants : validateGrants machineScopes ["machines/" ++ machineKey] (some machineId) =
      .ok ["machines/" ++ machineKey] := by
    have hprefix : normalizePrefix ("machines/" ++ machineKey) = .ok ("machines/" ++ machineKey) := by
      unfold normalizePrefix
      rw [normalizePath_machines hn hnw]
      have hne : "machines/" ++ machineKey ≠ "" := by simp
      simp [require, hne, bind, Except.bind, pure, Except.pure]
    unfold validateGrants
    simp [List.mapM_cons, hprefix, require, machineScopes, bind, Except.bind, pure, Except.pure]
  unfold credentialGrant
  rw [requireIdentifier_of_words _ hk hkw, requireIdentifier_of_words _ hk hkw, hgrants]
  simp only [requireIdentifier_of_words _ hm hmw]
  rfl

theorem validateGrants_ok {scopes : Finset Scope} {prefixes normalized : List String} {machineId : Option String}
    (h : validateGrants scopes prefixes machineId = .ok normalized) :
    (.admin ∈ scopes → scopes.card = 1) ∧ (.enroll ∈ scopes → scopes.card = 1) ∧
      (machineId.isSome → scopes = machineScopes) := by
  unfold validateGrants at h
  simp only [Program.bind_eq_ok, require_ok] at h
  obtain ⟨normalized', -, _, -, _, -, _, hadmin, _, henroll, _, -, _, -, _, hmachine, -⟩ := h
  simp only [Bool.or_eq_true, decide_eq_true_eq, Bool.and_eq_true] at hadmin henroll hmachine
  refine ⟨fun h => hadmin.resolve_left (not_not.2 h), fun h => henroll.resolve_left (not_not.2 h), fun h => ?_⟩
  refine (hmachine.resolve_left ?_).1
  rw [Option.isNone_iff_eq_none]
  rintro rfl
  cases h

theorem validatePrincipal_ok {principalId : String} {kind : PrincipalKind} {scopes : Finset Scope}
    {keyId machineId : Option String} {prefixes normalized : List String}
    (h : validatePrincipal principalId kind scopes keyId prefixes machineId = .ok normalized) :
    validateGrants scopes prefixes machineId = .ok normalized := by
  unfold validatePrincipal at h
  simp only [Program.bind_eq_ok] at h
  obtain ⟨_, -, _, -, _, -, h⟩ := h
  cases keyId with
  | none =>
    cases machineId with
    | none => exact h
    | some machine =>
      obtain ⟨_, -, h⟩ := Program.bind_eq_ok.1 h
      exact h
  | some key =>
    obtain ⟨_, -, h⟩ := Program.bind_eq_ok.1 h
    cases machineId with
    | none => exact h
    | some machine =>
      obtain ⟨_, -, h⟩ := Program.bind_eq_ok.1 h
      exact h

end Auth

/-- An enrolment key can do nothing else, and belongs to no machine. -/
theorem Principal.enrolls_alone (p : Principal) (h : .enroll ∈ p.scopes) : .admin ∉ p.scopes ∧ p.machineId = none := by
  obtain ⟨-, henroll, hmachine⟩ := Auth.validateGrants_ok (Auth.validatePrincipal_ok p.valid)
  obtain ⟨scope, hone⟩ := Finset.card_eq_one.1 (henroll h)
  rw [hone, Finset.mem_singleton] at h
  subst h
  refine ⟨by rw [hone]; decide, ?_⟩
  by_contra hne
  have hscopes := hmachine (Option.isSome_iff_ne_none.2 hne)
  rw [hone] at hscopes
  revert hscopes
  decide

end Ctxd

import Ctxd.Auth
import Ctxd.Lib.Rotation
import Mathlib.Data.List.Sort

/-!
# Credentials

The tables of `credentials.sqlite3` and the statements `CredentialStore` runs on them.  A key is issued for a service
(`create`, `rotate`, `revoke`) or for a machine (`issueMachine`, `revokeMachineKey`); an enrolment key is recorded in
`enrollment_uses` with the request it was used for.  Tokens are not part of the model: what a key opens is decided by
its row alone.

A call reads the clock once and draws at most one key id and one uuid.
-/

namespace Ctxd

/-- The exceptions of the lifecycle of keys; `died` stands for a process that stops. -/
inductive LifecycleError
  | raised (error : StoreError)
  | permission (message : String)
  | notCurrent
  | enrollmentConsumed
  | coordinated (message : String)
  | catalogConflict (message : String)
  | bindingConflict
  | assertion
  | died
  deriving DecidableEq, Repr

abbrev LifecycleError.value (message : String) : LifecycleError := .raised (.valueError message)

/-- The message of a check, raised as an exception of the lifecycle. -/
def lift {α : Type} : Except StoreError α → Except LifecycleError α
  | .ok a => .ok a
  | .error e => .error (.raised e)

structure Credential where
  keyId : String
  name : String
  scopes : Finset Scope
  prefixes : List String
  createdAt : Int
  expiresAt : Option Int
  revokedAt : Option Int
  replacedBy : Option String
  machineId : Option String
  rotationFrom : Option String
  deriving DecidableEq

structure EnrollmentUse where
  enrollmentKeyId : String
  localRegistrationId : String
  requestFingerprint : String
  machineId : Option String
  createdAt : Int
  deriving DecidableEq, Repr

def Credential.active (c : Credential) (now : Int) : Bool :=
  c.revokedAt.isNone && c.expiresAt.all fun expiry => now < expiry

namespace Credentials

def maxNameLength : Nat := 128

/-- `KEY_ID_PATTERN`. -/
def validKeyId (keyId : String) : Bool :=
  keyId.toList.length = 16 && keyId.toList.all fun c => c.isAlphanum || c = '_' || c = '-'

/-- The text of a uuid. -/
def isUuid (text : String) : Bool := text.toList.length = 36 && text.toList.all fun c => c.isAlphanum || c = '-'

theorem isUuid_zero : isUuid "00000000-0000-4000-8000-000000000000" = true := by decide +kernel

end Credentials

/-- What a call draws: a key id, `secrets.token_urlsafe(12)` drawn until it does not start with a dash, a uuid, and the
time, which is after the epoch. -/
structure Draw where
  key : String
  uuid : String
  now : Int
  key_valid : Credentials.validKeyId key = true
  uuid_valid : Credentials.isUuid uuid = true
  now_pos : 0 < now

namespace Credentials

def validateKeyId (keyId : String) : Except LifecycleError Unit :=
  lift (Auth.require (validKeyId keyId) "invalid credential key ID")

variable (credentials : List Credential)

/-! ### Reading -/

def get (keyId : String) : Except LifecycleError Credential := do
  validateKeyId keyId
  match credentials.find? fun c => c.keyId = keyId with
  | none => throw (.value s!"unknown credential: {keyId}")
  | some c => return c

/-- `ORDER BY created_at, key_id`. -/
def inOrder (c d : Credential) : Prop := c.createdAt < d.createdAt ∨ c.createdAt = d.createdAt ∧ c.keyId ≤ d.keyId

instance : DecidableRel inOrder := fun _ _ => instDecidableOr

def machineCredentials (machineId : String) : List Credential :=
  (credentials.filter fun c => c.machineId = some machineId).insertionSort inOrder

/-! ### Issuing -/

def prepare (draw : Draw) (name : String) (scopes : Finset Scope) (prefixes : List String) (expiresAt : Option Int)
    (machineId rotationFrom : Option String) : Except LifecycleError Credential := do
  let cleanName := Strip.strip name
  lift (Auth.require (cleanName ≠ "") "credential name must be non-empty")
  lift (Auth.require (cleanName.length ≤ maxNameLength)
    s!"credential name must be at most {maxNameLength} characters")
  lift (Auth.require (!hasControlCharacter cleanName) "credential name cannot contain control characters")
  lift (Auth.require (scopes ≠ ∅) "credential must have at least one scope")
  let grant ← lift (Auth.credentialGrant draw.key draw.key scopes prefixes machineId)
  lift (Auth.require (expiresAt.all fun expiry => draw.now < expiry)
    "credential expiry must be a finite time in the future")
  return { keyId := draw.key, name := cleanName, scopes := grant.scopes, prefixes := grant.prefixes,
           createdAt := draw.now, expiresAt := expiresAt, revokedAt := none, replacedBy := none,
           machineId := machineId, rotationFrom := rotationFrom }

/-- `INSERT INTO credentials`, under `PRIMARY KEY(key_id)`. -/
def insert (c : Credential) : Except LifecycleError (List Credential) :=
  if credentials.any fun d => d.keyId = c.keyId then .error (.raised .integrityError) else .ok (credentials ++ [c])

def create (draw : Draw) (name : String) (scopes : Finset Scope) (prefixes : List String) (expiresAt : Option Int) :
    Except LifecycleError (Credential × List Credential) := do
  let issued ← prepare draw name scopes prefixes expiresAt none none
  return (issued, ← insert credentials issued)

def issueMachine (draw : Draw) (machineId machineKey : String) (rotationFrom : Option String) :
    Except LifecycleError (Credential × List Credential) := do
  let issued ← prepare draw s!"machine:{machineId}" {.submit, .statusWrite} [s!"machines/{machineKey}"] none
    (some machineId) rotationFrom
  return (issued, ← insert credentials issued)

/-! ### Revoking -/

/-- `SET revoked_at = COALESCE(revoked_at, ?), replaced_by = COALESCE(replaced_by, ?)`. -/
def revokeRow (now : Int) (replacedBy : Option String) (c : Credential) : Credential :=
  { c with revokedAt := c.revokedAt.orElse fun _ => some now, replacedBy := c.replacedBy.orElse fun _ => replacedBy }

def isMachineKey (keyId machineId : String) (c : Credential) : Bool := c.keyId = keyId && c.machineId = some machineId

/-- Revokes the rows that satisfy `p`. -/
def revokeWhere (now : Int) (replacedBy : Option String) (p : Credential → Bool) : List Credential :=
  credentials.map fun c => if p c then revokeRow now replacedBy c else c

def revokeMachineKey (now : Int) (keyId machineId : String) (replacedBy : Option String) :
    Except LifecycleError (List Credential) := do
  if credentials.countP (isMachineKey keyId machineId) ≠ 1 then throw (.value "unknown machine credential")
  let revoked := revokeWhere credentials now replacedBy (isMachineKey keyId machineId)
  let _ ← get revoked keyId
  return revoked

def revoke (now : Int) (keyId : String) : Except LifecycleError (List Credential) := do
  validateKeyId keyId
  let old ← get credentials keyId
  if old.machineId ≠ none then throw (.coordinated "machine credentials require coordinated revocation")
  if credentials.countP (fun c => c.keyId = keyId) ≠ 1 then throw (.value s!"unknown credential: {keyId}")
  return revokeWhere credentials now none fun c => c.keyId = keyId

def rotate (draw : Draw) (keyId : String) : Except LifecycleError (Credential × List Credential) := do
  let old ← get credentials keyId
  if old.machineId ≠ none then throw (.coordinated "machine credentials require coordinated rotation")
  if old.revokedAt ≠ none then throw (.value "cannot rotate a revoked credential")
  let issued ← prepare draw old.name old.scopes old.prefixes old.expiresAt none none
  let inserted ← insert credentials issued
  let replaced := fun c : Credential => c.keyId = keyId && c.revokedAt.isNone
  if inserted.countP replaced ≠ 1 then throw (.value "credential was revoked during rotation")
  return (issued, inserted.map fun c =>
    if replaced c then { c with revokedAt := some draw.now, replacedBy := some issued.keyId } else c)

/-! ### Enrolment -/

/-- Records the use of an enrolment key, or recognises a use for the same request. -/
def consumeEnrollment (uses : List EnrollmentUse) (now : Int) (keyId localRegistrationId requestFingerprint : String) :
    Except LifecycleError (Bool × List EnrollmentUse) :=
  match uses.find? fun u => u.enrollmentKeyId = keyId with
  | none => .ok (false, uses ++ [⟨keyId, localRegistrationId, requestFingerprint, none, now⟩])
  | some u =>
    if u.localRegistrationId ≠ localRegistrationId ∨ u.requestFingerprint ≠ requestFingerprint then
      .error .enrollmentConsumed
    else .ok (true, uses)

/-- The row of the key that has no other machine. -/
def isUseFor (keyId machineId : String) (u : EnrollmentUse) : Bool :=
  u.enrollmentKeyId = keyId && u.machineId.all (· = machineId)

def bindEnrollmentUse (uses : List EnrollmentUse) (keyId machineId : String) :
    Except LifecycleError (List EnrollmentUse) :=
  if uses.countP (isUseFor keyId machineId) ≠ 1 then .error .enrollmentConsumed
  else .ok (uses.map fun u =>
    if isUseFor keyId machineId u then { u with machineId := u.machineId.orElse fun _ => some machineId } else u)

/-! ### Well-formed tables -/

variable {credentials}

/-- Key ids are valid and distinct; a machine's key does not expire, and is replaced only when it is revoked. -/
structure WF (credentials : List Credential) : Prop where
  distinct : (credentials.map (·.keyId)).Nodup
  valid : ∀ c ∈ credentials, validKeyId c.keyId = true
  unexpiring : ∀ c ∈ credentials, c.machineId.isSome → c.expiresAt = none
  unreplaced : ∀ c ∈ credentials, c.machineId.isSome → c.revokedAt = none → c.replacedBy = none

theorem WF.eq_of_keyId (h : WF credentials) {c d : Credential} (hc : c ∈ credentials) (hd : d ∈ credentials)
    (hk : c.keyId = d.keyId) : c = d :=
  List.inj_on_of_nodup_map h.distinct hc hd hk

theorem WF.active_iff (h : WF credentials) {c : Credential} (hc : c ∈ credentials) (hm : c.machineId.isSome)
    (now : Int) : c.active now = true ↔ c.revokedAt = none := by
  unfold Credential.active
  simp [h.unexpiring c hc hm]

@[simp] theorem revokeRow_keyId (now : Int) (successor : Option String) (c : Credential) :
    (revokeRow now successor c).keyId = c.keyId := rfl

@[simp] theorem revokeRow_machineId (now : Int) (successor : Option String) (c : Credential) :
    (revokeRow now successor c).machineId = c.machineId := rfl

@[simp] theorem revokeRow_rotationFrom (now : Int) (successor : Option String) (c : Credential) :
    (revokeRow now successor c).rotationFrom = c.rotationFrom := rfl

theorem revokeRow_revokedAt (now : Int) (successor : Option String) (c : Credential) :
    (revokeRow now successor c).revokedAt ≠ none := by
  unfold revokeRow
  cases c.revokedAt <;> simp

/-- `COALESCE` keeps what is there. -/
theorem revokeRow_eq_self {now : Int} {successor : Option String} {c : Credential} (hr : c.revokedAt ≠ none)
    (hs : c.replacedBy ≠ none ∨ successor = none) : revokeRow now successor c = c := by
  obtain ⟨keyId, name, scopes, prefixes, createdAt, expiresAt, revokedAt, replacedBy, machineId, rotationFrom⟩ := c
  unfold revokeRow
  cases revokedAt with
  | none => exact absurd rfl hr
  | some t =>
    cases replacedBy with
    | none =>
      obtain rfl := hs.resolve_left (by simp)
      rfl
    | some k => rfl

section revokeWhere

variable {now : Int} {successor : Option String} {p : Credential → Bool}

theorem mem_revokeWhere {c : Credential} : c ∈ revokeWhere credentials now successor p ↔
    ∃ d ∈ credentials, (if p d then revokeRow now successor d else d) = c := by
  simp [revokeWhere]

/-- Nothing is written to rows that are revoked already, for the same successor. -/
theorem revokeWhere_eq_self (h : ∀ c ∈ credentials, p c = true → revokeRow now successor c = c) :
    revokeWhere credentials now successor p = credentials := by
  unfold revokeWhere
  refine (List.map_congr_left fun c hc => ?_).trans (List.map_id _)
  split
  · exact h c hc ‹_›
  · rfl

theorem map_keyId_revokeWhere : (revokeWhere credentials now successor p).map (·.keyId) = credentials.map
    (·.keyId) := by
  unfold revokeWhere
  rw [List.map_map]
  refine List.map_congr_left fun c _ => ?_
  simp only [Function.comp_apply]
  split <;> rfl

theorem WF.revokeWhere (h : WF credentials) : WF (revokeWhere credentials now successor p) := by
  refine ⟨by rw [map_keyId_revokeWhere]; exact h.distinct, fun c hc => ?_, fun c hc hm => ?_, fun c hc hm hr => ?_⟩ <;>
    obtain ⟨d, hd, hcd⟩ := mem_revokeWhere.1 hc
  · split at hcd <;> subst hcd <;> exact h.valid d hd
  · split at hcd <;> subst hcd <;> exact h.unexpiring d hd hm
  · split at hcd <;> subst hcd
    · exact absurd hr (revokeRow_revokedAt now successor d)
    · exact h.unreplaced d hd hm hr

end revokeWhere

private theorem WF.countP_isMachineKey (h : WF credentials) {c : Credential} (hc : c ∈ credentials) {machineId : String}
    (hm : c.machineId = some machineId) : credentials.countP (isMachineKey c.keyId machineId) = 1 := by
  have hcount : (credentials.map (·.keyId)).count c.keyId = 1 :=
    List.count_eq_one_of_mem h.distinct (List.mem_map.2 ⟨c, hc, rfl⟩)
  rw [List.count_eq_countP, List.countP_map] at hcount
  rw [← hcount]
  refine List.countP_congr fun d hd => ?_
  simp only [isMachineKey, Function.comp_apply, beq_iff_eq, Bool.and_eq_true, decide_eq_true_eq]
  constructor
  · exact fun hk => hk.1
  · intro hk
    rw [h.eq_of_keyId hd hc hk]
    exact ⟨rfl, hm⟩

theorem get_ok {keyId : String} {c : Credential} (h : get credentials keyId = .ok c) :
    c ∈ credentials ∧ c.keyId = keyId := by
  unfold get validateKeyId at h
  cases hv : Auth.require (validKeyId keyId) "invalid credential key ID" with
  | error e => rw [hv] at h; cases h
  | ok u =>
    rw [hv] at h
    cases hf : credentials.find? (fun c => decide (c.keyId = keyId)) with
    | none => simp only [lift, hf] at h; cases h
    | some d =>
      simp only [lift, hf] at h
      cases h
      exact ⟨List.mem_of_find?_eq_some hf, by simpa using List.find?_some hf⟩

theorem ne_died_of_get_error {keyId : String} {e : LifecycleError} (h : get credentials keyId = .error e) :
    e ≠ .died := by
  rintro rfl
  unfold get validateKeyId Auth.require at h
  split at h
  · cases hf : credentials.find? (fun c => decide (c.keyId = keyId)) with
    | none => simp only [lift, hf] at h; cases h
    | some d => simp only [lift, hf] at h; cases h
  · cases h

theorem WF.get_of_mem (h : WF credentials) {c : Credential} (hc : c ∈ credentials) :
    get credentials c.keyId = .ok c := by
  unfold get validateKeyId Auth.require
  rw [if_pos (h.valid c hc)]
  have hfind : credentials.find? (fun d => decide (d.keyId = c.keyId)) = some c := by
    cases hf : credentials.find? (fun d => decide (d.keyId = c.keyId)) with
    | none => simpa using List.find?_eq_none.1 hf c hc
    | some d =>
      rw [h.eq_of_keyId (List.mem_of_find?_eq_some hf) hc (by simpa using List.find?_some hf)]
  simp only [lift, hfind]
  rfl

theorem WF.revokeMachineKey_of_mem (h : WF credentials) {c : Credential} (hc : c ∈ credentials) {machineId : String}
    (hm : c.machineId = some machineId) (now : Int) (successor : Option String) :
    revokeMachineKey credentials now c.keyId machineId successor =
      .ok (Credentials.revokeWhere credentials now successor (isMachineKey c.keyId machineId)) := by
  unfold revokeMachineKey
  rw [if_neg (by rw [h.countP_isMachineKey hc hm]; simp)]
  have hmem : revokeRow now successor c ∈ Credentials.revokeWhere credentials now successor
    (isMachineKey c.keyId machineId) :=
    mem_revokeWhere.2 ⟨c, hc, by simp [isMachineKey, hm]⟩
  have hget := h.revokeWhere.get_of_mem hmem
  rw [revokeRow_keyId] at hget
  simp only [hget]
  rfl

theorem revokeMachineKey_of_forall {keyId machineId : String}
    (h : ∀ c ∈ credentials, isMachineKey keyId machineId c = false) (now : Int) (successor : Option String) :
    revokeMachineKey credentials now keyId machineId successor = .error (.value "unknown machine credential") := by
  unfold revokeMachineKey
  have hcount : credentials.countP (isMachineKey keyId machineId) = 0 := by
    rw [List.countP_eq_zero]
    exact fun c hc => by simp [h c hc]
  rw [if_pos (by rw [hcount]; simp)]
  rfl

theorem mem_machineCredentials {c : Credential} {machineId : String} :
    c ∈ machineCredentials credentials machineId ↔ c ∈ credentials ∧ c.machineId = some machineId := by
  unfold machineCredentials
  rw [List.mem_insertionSort]
  simp

/-! ### Keys of a machine -/

/-- The keys of a machine that open something. -/
def live (credentials : List Credential) (machineId : String) : Set String :=
  {k | ∃ c ∈ credentials, c.keyId = k ∧ c.machineId = some machineId ∧ c.revokedAt = none}

/-- The binding a key of the machine was prepared from. -/
def origin (credentials : List Credential) (machineId keyId : String) : Option String :=
  (credentials.find? (isMachineKey keyId machineId)).bind (·.rotationFrom)

theorem live_revokeWhere {now : Int} {successor : Option String} {p : Credential → Bool} {machineId k : String} :
    k ∈ live (revokeWhere credentials now successor p) machineId ↔
      ∃ c ∈ credentials, c.keyId = k ∧ c.machineId = some machineId ∧ c.revokedAt = none ∧ p c = false := by
  constructor
  · rintro ⟨c, hc, hk, hm, hr⟩
    obtain ⟨d, hd, hcd⟩ := mem_revokeWhere.1 hc
    split at hcd <;> subst hcd
    · exact absurd hr (revokeRow_revokedAt now successor d)
    · exact ⟨d, hd, hk, hm, hr, by simp_all⟩
  · rintro ⟨c, hc, hk, hm, hr, hp⟩
    exact ⟨c, mem_revokeWhere.2 ⟨c, hc, by simp [hp]⟩, hk, hm, hr⟩

theorem live_append_of_ne {c : Credential} {machineId : String} (h : c.machineId ≠ some machineId) :
    live (credentials ++ [c]) machineId = live credentials machineId := by
  ext k
  unfold live
  simp only [List.mem_append, List.mem_singleton, Set.mem_ofPred_eq]
  constructor
  · rintro ⟨d, hd | rfl, hk, hm, hr⟩
    · exact ⟨d, hd, hk, hm, hr⟩
    · exact absurd hm h
  · rintro ⟨d, hd, hk, hm, hr⟩
    exact ⟨d, .inl hd, hk, hm, hr⟩

theorem live_append_self {c : Credential} {machineId : String} (h : c.machineId = some machineId)
    (hr : c.revokedAt = none) : live (credentials ++ [c]) machineId = live credentials machineId ∪ {c.keyId} := by
  ext k
  unfold live
  simp only [List.mem_append, List.mem_singleton, Set.mem_union, Set.mem_ofPred_eq, Set.mem_singleton_iff]
  constructor
  · rintro ⟨d, hd | rfl, hk, hm, hr'⟩
    · exact .inl ⟨d, hd, hk, hm, hr'⟩
    · exact .inr hk.symm
  · rintro (⟨d, hd, hk, hm, hr'⟩ | hk)
    · exact ⟨d, .inl hd, hk, hm, hr'⟩
    · exact ⟨c, .inr rfl, hk.symm, h, hr⟩

theorem origin_revokeWhere {now : Int} {successor : Option String} {p : Credential → Bool} (machineId : String) :
    origin (revokeWhere credentials now successor p) machineId = origin credentials machineId := by
  funext k
  unfold origin revokeWhere
  rw [List.find?_map]
  have hcomp : (isMachineKey k machineId ∘ fun c => if p c then revokeRow now successor c else c) =
      isMachineKey k machineId := by
    funext c
    simp only [Function.comp_apply]
    split <;> rfl
  rw [hcomp]
  cases credentials.find? (isMachineKey k machineId) with
  | none => rfl
  | some c =>
    simp only [Option.map_some, Option.bind_some]
    split <;> rfl

theorem origin_append_of_ne {c : Credential} {machineId : String} (h : c.machineId ≠ some machineId) :
    origin (credentials ++ [c]) machineId = origin credentials machineId := by
  funext k
  unfold origin
  rw [List.find?_append]
  have hnone : [c].find? (isMachineKey k machineId) = none := by simp [isMachineKey, h]
  rw [hnone, Option.or_none]

/-- A row for a key that has none. -/
theorem origin_append_self {c : Credential} {machineId : String} (h : c.machineId = some machineId)
    (hfresh : ∀ d ∈ credentials, d.keyId ≠ c.keyId) :
    origin (credentials ++ [c]) machineId =
      Rotation.Holder.record (origin credentials machineId) c.keyId c.rotationFrom := by
  funext k
  unfold origin
  rw [List.find?_append]
  by_cases hk : k = c.keyId
  · subst hk
    have hnone : credentials.find? (isMachineKey c.keyId machineId) = none := by
      rw [List.find?_eq_none]
      exact fun d hd => by simp [isMachineKey, hfresh d hd]
    rw [hnone, Rotation.record_self]
    simp [isMachineKey, h]
  · have hnone : [c].find? (isMachineKey k machineId) = none := by simp [isMachineKey, Ne.symm hk]
    rw [hnone, Option.or_none, Rotation.record_of_ne _ hk]

private theorem WF.append (h : WF credentials) {c : Credential} (hfresh : ∀ d ∈ credentials, d.keyId ≠ c.keyId)
    (hvalid : validKeyId c.keyId = true) (hexp : c.machineId.isSome → c.expiresAt = none)
    (hrep : c.machineId.isSome → c.revokedAt = none → c.replacedBy = none) : WF (credentials ++ [c]) := by
  refine ⟨?_, fun d hd => ?_, fun d hd => ?_, fun d hd => ?_⟩
  · rw [List.map_append, List.nodup_append]
    refine ⟨h.distinct, by simp, ?_⟩
    rintro k hk k' hk' rfl
    obtain ⟨d, hd, rfl⟩ := List.mem_map.1 hk
    rw [List.map_singleton, List.mem_singleton] at hk'
    exact hfresh d hd hk'
  all_goals
    rcases List.mem_append.1 hd with hd | hd
    · first | exact h.valid d hd | exact h.unexpiring d hd | exact h.unreplaced d hd
    · rw [List.mem_singleton] at hd
      subst hd
      assumption

/-! ### Issuing succeeds -/

/-- Letters, digits, `-` and `_`, and at least one of them. -/
def IsWord (s : String) : Prop := s ≠ "" ∧ ∀ c ∈ s.toList, Strip.isWordChar c = true

theorem isWord_of_validKeyId {keyId : String} (h : validKeyId keyId = true) : IsWord keyId := by
  unfold validKeyId at h
  simp only [Bool.and_eq_true, decide_eq_true_eq, List.all_eq_true] at h
  refine ⟨?_, fun c hc => ?_⟩
  · rintro rfl
    simp at h
  · have := h.2 c hc
    simp only [Strip.isWordChar, Bool.or_eq_true, decide_eq_true_eq] at this ⊢
    tauto

theorem isWord_of_isUuid {text : String} (h : isUuid text = true) : IsWord text := by
  unfold isUuid at h
  simp only [Bool.and_eq_true, decide_eq_true_eq, List.all_eq_true] at h
  refine ⟨?_, fun c hc => ?_⟩
  · rintro rfl
    simp at h
  · have := h.2 c hc
    simp only [Strip.isWordChar, Bool.or_eq_true, decide_eq_true_eq] at this ⊢
    tauto

/-- The row of a key issued for a machine. -/
def machineCredential (draw : Draw) (machineId machineKey : String) (rotationFrom : Option String) : Credential :=
  { keyId := draw.key, name := "machine:" ++ machineId, scopes := Auth.machineScopes,
    prefixes := ["machines/" ++ machineKey], createdAt := draw.now, expiresAt := none, revokedAt := none,
    replacedBy := none, machineId := some machineId, rotationFrom := rotationFrom }

theorem issueMachine_eq {draw : Draw} {machineId machineKey : String} (rotationFrom : Option String)
    (hm : isUuid machineId = true) (hk : IsWord machineKey) (hfresh : ∀ d ∈ credentials, d.keyId ≠ draw.key) :
    issueMachine credentials draw machineId machineKey rotationFrom =
      .ok (machineCredential draw machineId machineKey rotationFrom,
        credentials ++ [machineCredential draw machineId machineKey rotationFrom]) := by
  have hkey := isWord_of_validKeyId draw.key_valid
  have hmid := isWord_of_isUuid hm
  have hname : ("machine:" ++ machineId).toList = "machine:".toList ++ machineId.toList := String.toList_append
  have hchars : ∀ c ∈ ("machine:" ++ machineId).toList, 45 ≤ c.toNat ∧ c.toNat ≤ 122 ∧ Strip.isSpace c = false := by
    intro c hc
    rw [hname] at hc
    have hplain : ∀ c ∈ "machine:".toList, 45 ≤ c.toNat ∧ c.toNat ≤ 122 ∧ Strip.isSpace c = false := by
      simp [Strip.isSpace]
    rcases List.mem_append.1 hc with hc | hc
    · exact hplain c hc
    · have hw := hmid.2 c hc
      exact ⟨(Strip.toNat_of_isWordChar hw).1, (Strip.toNat_of_isWordChar hw).2.1, Strip.isSpace_of_isWordChar hw⟩
  have hstrip : Strip.strip ("machine:" ++ machineId) = "machine:" ++ machineId :=
    Strip.strip_of_noSpace fun c hc => (hchars c hc).2.2
  have hlength : ("machine:" ++ machineId).length ≤ maxNameLength := by
    unfold isUuid at hm
    simp only [Bool.and_eq_true, decide_eq_true_eq] at hm
    rw [← String.length_toList, hname, List.length_append, hm.1]
    decide
  have hcontrol : hasControlCharacter ("machine:" ++ machineId) = false := by
    unfold hasControlCharacter
    rw [List.any_eq_false]
    intro c hc
    have := hchars c hc
    simp only [Bool.or_eq_true, decide_eq_true_eq, beq_iff_eq]
    omega
  have hgrant := Auth.credentialGrant_machine hkey.1 hkey.2 hmid.1 hmid.2 hk.1 hk.2
  have hprepare : prepare draw s!"machine:{machineId}" {.submit, .statusWrite} [s!"machines/{machineKey}"] none
      (some machineId) rotationFrom = .ok (machineCredential draw machineId machineKey rotationFrom) := by
    have hnonempty : "machine:" ++ machineId ≠ "" := by simp
    have htexts : s!"machine:{machineId}" = "machine:" ++ machineId ∧ s!"machines/{machineKey}" =
      "machines/" ++ machineKey :=
      ⟨rfl, rfl⟩
    rw [htexts.1, htexts.2]
    unfold prepare
    simp only [hstrip]
    rw [show ({.submit, .statusWrite} : Finset Scope) = Auth.machineScopes from rfl, hgrant]
    rw [Auth.require_of (decide_eq_true hnonempty), Auth.require_of (decide_eq_true hlength),
      Auth.require_of (by simp [hcontrol]), Auth.require_of (by decide)]
    rfl
  unfold issueMachine
  rw [hprepare]
  have hinsert : insert credentials (machineCredential draw machineId machineKey rotationFrom) =
      .ok (credentials ++ [machineCredential draw machineId machineKey rotationFrom]) := by
    unfold insert
    rw [if_neg]
    rw [Bool.not_eq_true, List.any_eq_false]
    exact fun d hd => by simpa using (show d.keyId ≠ (machineCredential draw machineId machineKey _).keyId from
      hfresh d hd)
  simp only [bind, Except.bind, hinsert, pure, Except.pure]

/-! ### A new key in place of the others -/

/-- All keys of the machine but the new one are revoked, and no other key has changed. -/
structure Reissued (credentials credentials' : List Credential) (machineId keyId : String) : Prop where
  wf : WF credentials'
  live_self : live credentials' machineId = {keyId}
  live_other : ∀ other, other ≠ machineId → live credentials' other = live credentials other
  origin_self : origin credentials' machineId = Rotation.Holder.record (origin credentials machineId) keyId none
  origin_other : ∀ other, other ≠ machineId → origin credentials' other = origin credentials other
  rows : ∀ c' ∈ credentials', (c'.keyId = keyId ∧ c'.machineId = some machineId) ∨
    ∃ c ∈ credentials, c.keyId = c'.keyId ∧ c.machineId = c'.machineId
  stored : ∃ c ∈ credentials', c.keyId = keyId ∧ c.machineId = some machineId

theorem WF.append_machineCredential (h : WF credentials) {draw : Draw} {machineId machineKey : String}
    {rotationFrom : Option String} (hfresh : ∀ d ∈ credentials, d.keyId ≠ draw.key) :
    WF (credentials ++ [machineCredential draw machineId machineKey rotationFrom]) :=
  h.append hfresh draw.key_valid (fun _ => rfl) fun _ _ => rfl

/-- The rows of a reissue: the keys that were not bound are revoked, the new key is added, the bound key is revoked
for it. -/
def reissue (credentials : List Credential) (draw : Draw) (machineId machineKey : String) (previous : Option String) :
    List Credential :=
  revokeWhere (revokeWhere credentials draw.now none (fun c =>
    c.machineId = some machineId && some c.keyId ≠ previous && c.active draw.now) ++
      [machineCredential draw machineId machineKey none]) draw.now (some draw.key) fun c =>
        c.machineId = some machineId && some c.keyId = previous

theorem WF.reissued (h : WF credentials) {draw : Draw} {machineId machineKey : String} {previous : Option String}
    (hfresh : ∀ d ∈ credentials, d.keyId ≠ draw.key) (hprev : previous ≠ some draw.key) :
    Reissued credentials (reissue credentials draw machineId machineKey previous) machineId draw.key := by
  have hkeys : ∀ d ∈ Credentials.revokeWhere credentials draw.now none (fun c =>
      c.machineId = some machineId && some c.keyId ≠ previous && c.active draw.now), d.keyId ≠ draw.key := by
    intro d hd
    obtain ⟨d', hd', hdd⟩ := mem_revokeWhere.1 hd
    split at hdd <;> subst hdd <;> exact hfresh d' hd'
  have hmem : ∀ c ∈ reissue credentials draw machineId machineKey previous,
      (c.keyId = draw.key ∧ c.machineId = some machineId) ∨
        ∃ d ∈ credentials, d.keyId = c.keyId ∧ d.machineId = c.machineId := by
    intro c hc
    obtain ⟨d, hd, hcd⟩ := mem_revokeWhere.1 hc
    have hsame : c.keyId = d.keyId ∧ c.machineId = d.machineId := by
      split at hcd <;> subst hcd <;> exact ⟨rfl, rfl⟩
    rw [hsame.1, hsame.2]
    rcases List.mem_append.1 hd with hd | hd
    · obtain ⟨d', hd', hdd⟩ := mem_revokeWhere.1 hd
      split at hdd <;> subst hdd <;> exact .inr ⟨d', hd', rfl, rfl⟩
    · rw [List.mem_singleton] at hd
      subst hd
      exact .inl ⟨rfl, rfl⟩
  refine ⟨?_, ?_, fun other hne => ?_, ?_, fun other hne => ?_, hmem, ?_⟩
  · exact (h.revokeWhere.append_machineCredential hkeys).revokeWhere
  · ext k
    unfold reissue
    rw [live_revokeWhere, Set.mem_singleton_iff]
    constructor
    · rintro ⟨c, hc, hk, hm, hr, hp⟩
      rcases List.mem_append.1 hc with hc | hc
      · -- a row that is still live would have been revoked before
        exfalso
        obtain ⟨d, hd, hdk, hdm, hdr, hdp⟩ := live_revokeWhere.1 ⟨c, hc, hk, hm, hr⟩
        have hact := (h.active_iff hd (by rw [hdm]; rfl) draw.now).2 hdr
        simp only [hdm, hact, decide_true, Bool.true_and, Bool.and_true, decide_eq_false_iff_not, ne_eq,
          not_not] at hdp
        simp only [hm, decide_true, Bool.true_and, decide_eq_false_iff_not] at hp
        exact hp (by rw [hk, ← hdk, hdp])
      · rw [List.mem_singleton] at hc
        subst hc
        exact hk.symm
    · rintro rfl
      refine ⟨machineCredential draw machineId machineKey none, by simp, rfl, rfl, rfl, ?_⟩
      simp [machineCredential, hprev.symm]
  · ext k
    unfold reissue
    rw [live_revokeWhere]
    constructor
    · rintro ⟨c, hc, hk, hm, hr, -⟩
      rcases List.mem_append.1 hc with hc | hc
      · obtain ⟨d, hd, hdk, hdm, hdr, -⟩ := live_revokeWhere.1 ⟨c, hc, hk, hm, hr⟩
        exact ⟨d, hd, hdk, hdm, hdr⟩
      · rw [List.mem_singleton] at hc
        subst hc
        exact absurd (Option.some.inj hm).symm hne
    · rintro ⟨c, hc, hk, hm, hr⟩
      have hnot : c.machineId ≠ some machineId := by
        rw [hm]
        simpa using hne
      refine ⟨c, List.mem_append_left _ (mem_revokeWhere.2 ⟨c, hc, by simp [hnot]⟩), hk, hm, hr, by simp [hnot]⟩
  · unfold reissue
    rw [origin_revokeWhere, origin_append_self rfl hkeys, origin_revokeWhere]
    rfl
  · unfold reissue
    rw [origin_revokeWhere, origin_append_of_ne (by simpa [machineCredential] using hne.symm), origin_revokeWhere]
  · refine ⟨machineCredential draw machineId machineKey none, mem_revokeWhere.2 ⟨_, by simp, if_neg ?_⟩, rfl, rfl⟩
    simp [machineCredential, hprev.symm]

end Credentials

end Ctxd

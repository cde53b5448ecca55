import Ctxd.Enrollment
import Ctxd.Lib.Dict
import Mathlib.Logic.Relation

/-!
# The installation that registers

The client's side of a registration.  Before it sends a request an installation stores it, as pending; a later attempt
at the same endpoint, by the same installation, repeats what is stored.  The identity of the installation stays while
the proof beside its credentials names it, also when it is renamed.
-/

namespace Ctxd

/-- `config["machine"]`. -/
structure LocalMachineIdentity where
  schemaVersion : Nat
  installationId : String
  localRegistrationId : String
  name : String
  description : Option String
  deriving DecidableEq, Repr

inductive RegistrationState
  | pending
  | registered (machine : Machine) (keyId : String)
  deriving DecidableEq, Repr

structure MachineRegistration where
  state : RegistrationState
  installationId : String
  request : MachineRegistrationRequest
  deriving DecidableEq, Repr

/-- The files of an installation; registrations are kept by endpoint. -/
structure Installation where
  machine : Option LocalMachineIdentity
  proof : Option String
  registrations : Dict String MachineRegistration

inductive IdentityError
  | value (message : String)
  | auth (message : String)
  | protocol (message : String)
  deriving DecidableEq, Repr

namespace Installation

/-! ### Identifiers and texts -/

def isLowerHex (c : Char) : Bool := c.isDigit || (97 ≤ c.toNat && c.toNat ≤ 102)

def dashedDigits (digits : List Char) : List Char :=
  digits.take 8 ++ '-' :: (digits.drop 8).take 4 ++ '-' :: (digits.drop 12).take 4 ++ '-' :: (digits.drop 16).take 4 ++
    '-' :: digits.drop 20

/-- A text that `str(uuid.UUID(text))` gives back. -/
def canonicalUuid (text : String) : Bool :=
  let digits := text.toList.filter (· ≠ '-')
  digits.length = 32 && digits.all isLowerHex && text.toList = dashedDigits digits

/-- `str(uuid.UUID(text))`. -/
def uuidText (text : String) : Option String :=
  if canonicalUuid text then some text
  else
    let hex := ((text.replace "urn:" "").replace "uuid:" "").toList
    let digits := ((Strip.stripBy (fun c => c = '\x7b' || c = '\x7d') hex).filter (· ≠ '-')).map Char.toLower
    if digits.length = 32 && digits.all isLowerHex then some (String.ofList (dashedDigits digits)) else none

def validateText (value label : String) (maximum : Nat) : Except IdentityError String :=
  let clean := Strip.strip value
  if clean = "" then .error (.value s!"{label} must be non-empty")
  else if clean.length > maximum || hasControlCharacter clean then .error (.value s!"{label} is invalid")
  else .ok clean

def validateOptionalText (value : Option String) (label : String) (maximum : Nat) :
    Except IdentityError (Option String) :=
  match value with
  | none => .ok none
  | some text => some <$> validateText text label maximum

def validateDescription (value : Option String) : Except IdentityError (Option String) :=
  match value with
  | none => .ok none
  | some text =>
    if text.length > 1024 || hasControlCharacter text then .error (.value "machine description is invalid")
    else .ok (some text)

/-! ### The identity -/

/-- `str(uuid.uuid4())`, twice. -/
structure Identifiers where
  installationId : String
  localRegistrationId : String
  installation_canonical : canonicalUuid installationId = true
  registration_canonical : canonicalUuid localRegistrationId = true

def newIdentity (ids : Identifiers) (name : String) (description : Option String) :
    Except IdentityError LocalMachineIdentity := do
  let cleanName ← validateText name "machine name" 128
  let cleanDescription ← validateDescription description
  return ⟨1, ids.installationId, ids.localRegistrationId, cleanName, cleanDescription⟩

def parseIdentity (raw : LocalMachineIdentity) : Except IdentityError LocalMachineIdentity :=
  let invalid := IdentityError.value "Stored machine configuration is invalid."
  if raw.schemaVersion ≠ 1 then .error invalid
  else
    match uuidText raw.installationId, uuidText raw.localRegistrationId, validateText raw.name "machine name" 128,
      validateDescription raw.description with
    | some installationId, some localRegistrationId, .ok name, .ok description =>
      .ok ⟨1, installationId, localRegistrationId, name, description⟩
    | _, _, _, _ => .error invalid

variable (c : Installation)

def loadInstallationProof : Except IdentityError (Option String) :=
  match c.proof with
  | none => .ok none
  | some proof =>
    match uuidText proof with
    | none => .error (.auth "Stored ctxd installation proof is invalid.")
    | some id => .ok (some id)

def keepIdentity (identity : LocalMachineIdentity) : Installation :=
  { c with machine := some identity, proof := some identity.installationId }

def loadOrCreateMachineIdentity (ids : Identifiers) (defaultName : String) :
    Except IdentityError (LocalMachineIdentity × Installation) := do
  let proof ← c.loadInstallationProof
  match c.machine with
  | none =>
    let identity ← newIdentity ids defaultName none
    return (identity, c.keepIdentity identity)
  | some raw =>
    let identity ← parseIdentity raw
    if proof = some identity.installationId then return (identity, c)
    let moved ← newIdentity ids identity.name identity.description
    return (moved, c.keepIdentity moved)

/-- A description that is left out stays; `some none` clears it. -/
def configureMachine (ids : Identifiers) (defaultName : String) (name : Option String)
    (description : Option (Option String)) : Except IdentityError (LocalMachineIdentity × Installation) := do
  if name = none ∧ description = none then
    throw (.value "Specify --name, --description, or --clear-description.")
  let (identity, c) ← c.loadOrCreateMachineIdentity ids defaultName
  let newName ← match name with
    | none => pure identity.name
    | some name => validateText name "machine name" 128
  let newDescription ← match description with
    | none => pure identity.description
    | some description => validateDescription description
  let updated := { identity with name := newName, description := newDescription }
  return (updated, { c with machine := some updated })

/-! ### Registrations -/

def registrationRequest (identity : LocalMachineIdentity) (platform sdkVersion : String) : MachineRegistrationRequest :=
  let platformValue := Strip.strip platform
  { localRegistrationId := identity.localRegistrationId, name := identity.name, description := identity.description,
    platform := if platformValue = "" then none else some platformValue, ctxdVersion := some sdkVersion }

def invalidRegistration : IdentityError := .auth "Stored ctxd machine registration is invalid."

def parseStoredRequest (raw : MachineRegistrationRequest) : Except IdentityError MachineRegistrationRequest :=
  match validateText raw.localRegistrationId "local registration ID" 128, validateText raw.name "machine name" 128,
    validateDescription raw.description, validateOptionalText raw.platform "platform" 128,
    validateOptionalText raw.ctxdVersion "ctxd version" 128 with
  | .ok localRegistrationId, .ok name, .ok description, .ok platform, .ok ctxdVersion =>
    .ok ⟨localRegistrationId, name, description, platform, ctxdVersion⟩
  | _, _, _, _, _ => .error invalidRegistration

def requiredText (value : String) (maximum : Nat) : Bool :=
  Strip.strip value ≠ "" && value.length ≤ maximum && !hasControlCharacter value

def optionalText (value : Option String) (maximum : Nat) (allowEmpty : Bool) : Bool :=
  value.all fun text => text.length ≤ maximum && (allowEmpty || Strip.strip text ≠ "") && !hasControlCharacter text

def validRequest (request : MachineRegistrationRequest) : Bool :=
  canonicalUuid request.localRegistrationId && requiredText request.name 128 &&
    optionalText request.description 1024 true && optionalText request.platform 128 false &&
    optionalText request.ctxdVersion 128 false

def validState : RegistrationState → Bool
  | .pending => true
  | .registered machine keyId =>
    requiredText machine.machineId 128 && requiredText machine.machineKey 128 && requiredText machine.name 128 &&
      optionalText machine.description 1024 true && optionalText machine.platform 128 false &&
      optionalText machine.ctxdVersion 128 false && optionalText machine.credentialKeyId 128 false &&
      0 < machine.registeredAt && requiredText keyId 128 && machine.credentialKeyId = some keyId

/-- `_validate_machine_registration`, for what is read and for what is written. -/
def validateMachineRegistration (registration : MachineRegistration) : Except IdentityError MachineRegistration :=
  if canonicalUuid registration.installationId && validRequest registration.request &&
      validState registration.state then .ok registration
  else .error invalidRegistration

def loadRegistration (endpoint : String) : Except IdentityError (Option MachineRegistration) :=
  match c.registrations.get? endpoint with
  | none => .ok none
  | some registration => some <$> validateMachineRegistration registration

def withRegistration (endpoint : String) (registration : MachineRegistration) : Installation :=
  { c with registrations := c.registrations.set endpoint registration }

def saveRegistration (endpoint : String) (registration : MachineRegistration) : Except IdentityError Installation := do
  let valid ← validateMachineRegistration registration
  return c.withRegistration endpoint valid

/-- `register_machine` up to the request it sends. -/
def beginRegistration (ids : Identifiers) (defaultName platform sdkVersion endpoint : String) :
    Except IdentityError (LocalMachineIdentity × MachineRegistrationRequest × Installation) := do
  let (identity, c) ← c.loadOrCreateMachineIdentity ids defaultName
  let stored ← c.loadRegistration endpoint
  match stored.filter fun r => r.installationId = identity.installationId with
  | some registration =>
    let request ← parseStoredRequest registration.request
    if request.localRegistrationId ≠ identity.localRegistrationId then throw invalidRegistration
    return (identity, request, c)
  | none =>
    let request := registrationRequest identity platform sdkVersion
    let c ← c.saveRegistration endpoint ⟨.pending, identity.installationId, request⟩
    return (identity, request, c)

/-- `register_machine` from the response on. -/
def completeRegistration (identity : LocalMachineIdentity) (request : MachineRegistrationRequest) (endpoint : String)
    (result : MachineRegistrationResult) : Except IdentityError Installation := do
  if result.machine.credentialKeyId ≠ some result.keyId then
    throw (.protocol "ctxfs registration response credential binding did not match")
  c.saveRegistration endpoint ⟨.registered result.machine result.keyId, identity.installationId, request⟩

/-! ### Runs -/

/-- What may happen to the files of an installation; a command that fails leaves them as they are. -/
inductive Step : Installation → Installation → Prop
  | look (c c' : Installation) (ids : Identifiers) (defaultName : String) (identity : LocalMachineIdentity)
    (h : c.loadOrCreateMachineIdentity ids defaultName = .ok (identity, c')) : Step c c'
  | configure (c c' : Installation) (ids : Identifiers) (defaultName : String) (name : Option String)
    (description : Option (Option String)) (identity : LocalMachineIdentity)
    (h : c.configureMachine ids defaultName name description = .ok (identity, c')) : Step c c'
  /-- The request was sent, and no response came. -/
  | lost (c c' : Installation) (ids : Identifiers) (defaultName platform sdkVersion endpoint : String)
    (identity : LocalMachineIdentity) (request : MachineRegistrationRequest)
    (h : c.beginRegistration ids defaultName platform sdkVersion endpoint = .ok (identity, request, c')) : Step c c'
  | registered (c c1 c' : Installation) (ids : Identifiers) (defaultName platform sdkVersion endpoint : String)
    (identity : LocalMachineIdentity) (request : MachineRegistrationRequest) (result : MachineRegistrationResult)
    (h : c.beginRegistration ids defaultName platform sdkVersion endpoint = .ok (identity, request, c1))
    (h' : c1.completeRegistration identity request endpoint result = .ok c') : Step c c'

/-! ### A request is repeated -/

section

variable {c c' : Installation} {ids : Identifiers} {defaultName platform sdkVersion endpoint : String}
  {identity : LocalMachineIdentity} {request : MachineRegistrationRequest}

private theorem validateText_ok {value label clean : String} {maximum : Nat}
    (h : validateText value label maximum = .ok clean) :
    clean = Strip.strip value ∧ ∀ label, validateText clean label maximum = .ok clean := by
  unfold validateText at h ⊢
  dsimp only at h ⊢
  split at h
  · cases h
  · rename_i hne
    split at h
    · cases h
    · rename_i hvalid
      cases h
      refine ⟨rfl, fun label => ?_⟩
      rw [Strip.strip_strip, if_neg hne, if_neg hvalid]

private theorem validateDescription_ok {value clean : Option String} (h : validateDescription value = .ok clean) :
    clean = value ∧ validateDescription clean = .ok clean := by
  have hclean : clean = value := by
    unfold validateDescription at h
    cases value with
    | none => cases h; rfl
    | some text =>
      dsimp only at h
      split at h
      · cases h
      · cases h; rfl
  exact ⟨hclean, by rw [hclean, h, hclean]⟩

private theorem validateOptionalText_ok {value clean : Option String} {label : String} {maximum : Nat}
    (h : validateOptionalText value label maximum = .ok clean) : clean = value.map Strip.strip := by
  unfold validateOptionalText at h
  cases value with
  | none => cases h; rfl
  | some text =>
    dsimp only at h
    cases htext : validateText text label maximum with
    | error e => rw [htext] at h; cases h
    | ok text' =>
      rw [htext] at h
      cases h
      exact congrArg some (validateText_ok htext).1

private theorem uuidText_of_canonical {text : String} (h : canonicalUuid text = true) : uuidText text = some text := by
  unfold uuidText
  rw [if_pos h]

private theorem filter_dashedDigits {digits : List Char} (h : digits.all isLowerHex = true) :
    (dashedDigits digits).filter (· ≠ '-') = digits := by
  have hkeep : ∀ l : List Char, l ⊆ digits → l.filter (· ≠ '-') = l := by
    intro l hl
    refine List.filter_eq_self.2 fun c hc => ?_
    have hhex := List.all_eq_true.1 h c (hl hc)
    simp only [ne_eq, decide_not, Bool.not_eq_true', decide_eq_false_iff_not]
    rintro rfl
    revert hhex
    decide
  have hjoin : ∀ n, (digits.drop n).take 4 ++ digits.drop (n + 4) = digits.drop n := by
    intro n
    rw [← List.drop_drop]
    exact List.take_append_drop 4 _
  have hsub : ∀ n, (digits.drop n).take 4 ⊆ digits := fun n _ hc =>
    List.drop_subset _ _ (List.take_subset _ _ hc)
  unfold dashedDigits
  simp only [List.filter_append, List.filter_cons, ne_eq, not_true_eq_false, decide_false, Bool.false_eq_true, if_false]
  have h8 := hkeep _ (hsub 8)
  have h12 := hkeep _ (hsub 12)
  have h16 := hkeep _ (hsub 16)
  have hhead := hkeep _ (List.take_subset 8 digits)
  have htail := hkeep _ (List.drop_subset 20 digits)
  simp only [ne_eq] at h8 h12 h16 hhead htail
  rw [h8, h12, h16, hhead, htail]
  simp only [List.append_assoc]
  rw [hjoin 16, hjoin 12, hjoin 8]
  exact List.take_append_drop 8 digits

/-- What `uuid.UUID` reads is written in the canonical spelling. -/
private theorem canonical_of_uuidText {text id : String} (h : uuidText text = some id) : canonicalUuid id = true := by
  unfold uuidText at h
  split at h
  · rename_i hcanonical
    cases h
    exact hcanonical
  · dsimp only at h
    generalize hd : List.map Char.toLower _ = digits at h
    split at h
    · rename_i hcond
      cases h
      simp only [Bool.and_eq_true, decide_eq_true_eq] at hcond
      unfold canonicalUuid
      rw [String.toList_ofList, filter_dashedDigits hcond.2]
      simp only [hcond.1, hcond.2, decide_true, Bool.and_self]
    · cases h

private theorem parseIdentity_of_ok {raw : LocalMachineIdentity}
    {installationId localRegistrationId name label : String}
    {description : Option String} (hi : canonicalUuid installationId = true)
    (hl : canonicalUuid localRegistrationId = true) {value : String} (hn : validateText value label 128 = .ok name)
    {text : Option String} (hd : validateDescription text = .ok description)
    (h : raw = ⟨1, installationId, localRegistrationId, name, description⟩) : parseIdentity raw = .ok raw := by
  subst h
  unfold parseIdentity
  simp only [uuidText_of_canonical hi, uuidText_of_canonical hl, (validateText_ok hn).2 "machine name",
    (validateDescription_ok hd).2]
  rfl

private theorem parseIdentity_ok {raw : LocalMachineIdentity} (h : parseIdentity raw = .ok identity) :
    identity.schemaVersion = 1 ∧ canonicalUuid identity.installationId = true ∧
      canonicalUuid identity.localRegistrationId =
        true ∧ (∃ value, validateText value "machine name" 128 = .ok identity.name) ∧
      ∃ text, validateDescription text = .ok identity.description := by
  unfold parseIdentity at h
  dsimp only at h
  split at h
  · cases h
  · split at h
    · rename_i hi hl hn hd
      cases h
      exact ⟨rfl, canonical_of_uuidText hi, canonical_of_uuidText hl, ⟨_, hn⟩, ⟨_, hd⟩⟩
    · cases h

private theorem newIdentity_ok {name : String} {description : Option String}
    (h : newIdentity ids name description = .ok identity) :
    canonicalUuid identity.installationId = true ∧ parseIdentity identity = .ok identity := by
  unfold newIdentity at h
  cases hn : validateText name "machine name" 128 with
  | error e => rw [hn] at h; cases h
  | ok cleanName =>
    cases hd : validateDescription description with
    | error e => rw [hn, hd] at h; cases h
    | ok cleanDescription =>
      rw [hn, hd] at h
      cases h
      exact ⟨ids.installation_canonical,
        parseIdentity_of_ok ids.installation_canonical ids.registration_canonical hn hd rfl⟩

/-- Two requests that the catalog cannot tell apart. -/
structure SameRequest (q q' : MachineRegistrationRequest) : Prop where
  registration : Strip.strip q.localRegistrationId = Strip.strip q'.localRegistrationId
  name : Strip.strip q.name = Strip.strip q'.name
  description : q.description = q'.description
  platform : q.platform.map Strip.strip = q'.platform.map Strip.strip
  version : q.ctxdVersion.map Strip.strip = q'.ctxdVersion.map Strip.strip

private theorem SameRequest.refl (q : MachineRegistrationRequest) : SameRequest q q := ⟨rfl, rfl, rfl, rfl, rfl⟩

private theorem SameRequest.trans {q q' q'' : MachineRegistrationRequest} (h : SameRequest q q')
    (h' : SameRequest q' q'') :
    SameRequest q q'' :=
  ⟨h.registration.trans h'.registration, h.name.trans h'.name, h.description.trans h'.description,
    h.platform.trans h'.platform, h.version.trans h'.version⟩

private theorem SameRequest.symm {q q' : MachineRegistrationRequest} (h : SameRequest q q') : SameRequest q' q :=
  ⟨h.registration.symm, h.name.symm, h.description.symm, h.platform.symm, h.version.symm⟩

private theorem map_strip_strip (text : Option String) :
    (text.map Strip.strip).map Strip.strip = text.map Strip.strip := by
  cases text with
  | none => rfl
  | some text => exact congrArg some (Strip.strip_strip text)

private theorem parseStoredRequest_ok {raw : MachineRegistrationRequest} (h : parseStoredRequest raw = .ok request) :
    SameRequest raw request := by
  unfold parseStoredRequest at h
  split at h
  · rename_i hid hname hdescription hplatform hversion
    obtain rfl := Except.ok.inj h
    have hregistration := (validateText_ok hid).1
    have hclean := (validateText_ok hname).1
    have hplain := validateOptionalText_ok hplatform
    have htext := validateOptionalText_ok hversion
    subst hregistration hclean hplain htext
    exact ⟨(Strip.strip_strip _).symm, (Strip.strip_strip _).symm, (validateDescription_ok hdescription).1.symm,
      (map_strip_strip _).symm, (map_strip_strip _).symm⟩
  · cases h

/-- The identity of an installation whose proof names it. -/
structure Settled (c : Installation) (identity : LocalMachineIdentity) : Prop where
  machine : ∃ raw, c.machine = some raw ∧ parseIdentity raw = .ok identity
  proof : c.loadInstallationProof = .ok (some identity.installationId)

private theorem Settled.load (h : Settled c identity) (ids : Identifiers) (defaultName : String) :
    c.loadOrCreateMachineIdentity ids defaultName = .ok (identity, c) := by
  obtain ⟨raw, hraw, hparse⟩ := h.machine
  unfold loadOrCreateMachineIdentity
  rw [h.proof, hraw]
  simp only [hparse, bind, Except.bind, if_true]
  rfl

private theorem Settled.withRegistration (h : Settled c identity) (endpoint : String) (r : MachineRegistration) :
    Settled (c.withRegistration endpoint r) identity :=
  ⟨h.machine, h.proof⟩

private theorem settled_keepIdentity (h : canonicalUuid identity.installationId = true)
    (h' : parseIdentity identity = .ok identity) : Settled (c.keepIdentity identity) identity := by
  refine ⟨⟨identity, rfl, h'⟩, ?_⟩
  unfold loadInstallationProof keepIdentity
  simp only [uuidText_of_canonical h]

private theorem settled_of_load (h : c.loadOrCreateMachineIdentity ids defaultName = .ok (identity, c')) :
    Settled c' identity ∧ c'.registrations = c.registrations := by
  unfold loadOrCreateMachineIdentity at h
  cases hproof : c.loadInstallationProof with
  | error e => rw [hproof] at h; cases h
  | ok proof =>
    rw [hproof] at h
    cases hraw : c.machine with
    | none =>
      rw [hraw] at h
      simp only [bind, Except.bind, pure, Except.pure] at h
      cases hnew : newIdentity ids defaultName none with
      | error e => rw [hnew] at h; cases h
      | ok new =>
        rw [hnew] at h
        cases h
        exact ⟨settled_keepIdentity (newIdentity_ok hnew).1 (newIdentity_ok hnew).2, rfl⟩
    | some raw =>
      rw [hraw] at h
      simp only [bind, Except.bind, pure, Except.pure] at h
      cases hparse : parseIdentity raw with
      | error e => rw [hparse] at h; cases h
      | ok parsed =>
        rw [hparse] at h
        dsimp only at h
        split at h
        · rename_i hsame
          cases h
          exact ⟨⟨⟨raw, hraw, hparse⟩, hproof.trans (by rw [hsame])⟩, rfl⟩
        · cases hnew : newIdentity ids parsed.name parsed.description with
          | error e => rw [hnew] at h; cases h
          | ok new =>
            rw [hnew] at h
            cases h
            exact ⟨settled_keepIdentity (newIdentity_ok hnew).1 (newIdentity_ok hnew).2, rfl⟩

/-- The installation has stored the request for the endpoint, under the identity it has. -/
def Holds (c : Installation) (endpoint : String) (q : MachineRegistrationRequest) : Prop :=
  ∃ identity, Settled c identity ∧ ∃ stored, c.registrations.get? endpoint = some stored ∧
    stored.installationId = identity.installationId ∧ SameRequest stored.request q

private theorem validateMachineRegistration_ok {r valid : MachineRegistration}
    (h : validateMachineRegistration r = .ok valid) : valid = r := by
  unfold validateMachineRegistration at h
  split at h
  · cases h
    rfl
  · cases h

private theorem saveRegistration_ok {r : MachineRegistration} (h : c.saveRegistration endpoint r = .ok c') :
    c' = c.withRegistration endpoint r := by
  unfold saveRegistration at h
  cases hv : validateMachineRegistration r with
  | error e => rw [hv] at h; cases h
  | ok valid =>
    rw [hv] at h
    cases h
    rw [validateMachineRegistration_ok hv]

private theorem loadRegistration_ok {stored : Option MachineRegistration}
    (h : c.loadRegistration endpoint = .ok stored) :
    stored = c.registrations.get? endpoint := by
  unfold loadRegistration at h
  cases hr : c.registrations.get? endpoint with
  | none =>
    rw [hr] at h
    cases h
    rfl
  | some r =>
    rw [hr] at h
    dsimp only at h
    cases hv : validateMachineRegistration r with
    | error e => rw [hv] at h; cases h
    | ok valid =>
      rw [hv] at h
      cases h
      rw [validateMachineRegistration_ok hv]

/-- A request is sent from what is stored, or it is stored before it is sent. -/
private theorem beginRegistration_ok
    (h : c.beginRegistration ids defaultName platform sdkVersion endpoint = .ok (identity, request, c')) :
    ∃ c1, c.loadOrCreateMachineIdentity ids defaultName = .ok (identity, c1) ∧
      ((∃ stored, c1.registrations.get? endpoint = some stored ∧ stored.installationId = identity.installationId ∧
          SameRequest stored.request request ∧ c' = c1) ∨
        ((∀ stored, c1.registrations.get? endpoint = some stored → stored.installationId ≠ identity.installationId) ∧
          c' = c1.withRegistration endpoint ⟨.pending, identity.installationId, request⟩)) := by
  unfold beginRegistration at h
  cases hload : c.loadOrCreateMachineIdentity ids defaultName with
  | error e => rw [hload] at h; cases h
  | ok p =>
    obtain ⟨loaded, c1⟩ := p
    rw [hload] at h
    simp only [bind, Except.bind, pure, Except.pure] at h
    cases hstored : c1.loadRegistration endpoint with
    | error e => rw [hstored] at h; cases h
    | ok stored =>
      rw [hstored] at h
      have hget := loadRegistration_ok hstored
      dsimp only at h
      cases hfilter : stored.filter fun r => r.installationId = loaded.installationId with
      | some registration =>
        rw [hfilter] at h
        dsimp only at h
        obtain ⟨hsome, hid⟩ := Option.filter_eq_some_iff.1 hfilter
        cases hparse : parseStoredRequest registration.request with
        | error e => rw [hparse] at h; cases h
        | ok parsed =>
          rw [hparse] at h
          dsimp only at h
          split at h
          · cases h
          · cases h
            exact ⟨_, rfl, .inl ⟨registration, hget.symm.trans hsome, of_decide_eq_true hid,
              parseStoredRequest_ok hparse,
              rfl⟩⟩
      | none =>
        rw [hfilter] at h
        dsimp only at h
        cases hsave : c1.saveRegistration endpoint
            ⟨.pending, loaded.installationId, registrationRequest loaded platform sdkVersion⟩ with
        | error e => rw [hsave] at h; cases h
        | ok c2 =>
          rw [hsave] at h
          cases h
          refine ⟨_, rfl, .inr ⟨fun stored' hs hid => ?_, saveRegistration_ok hsave⟩⟩
          rw [hget, hs] at hfilter
          simp [Option.filter, hid] at hfilter

private theorem holds_of_begin
    (h : c.beginRegistration ids defaultName platform sdkVersion endpoint = .ok (identity, request, c')) :
    Settled c' identity ∧ Holds c' endpoint request := by
  obtain ⟨c1, hload, ⟨stored, hget, hid, hsame, rfl⟩ | ⟨-, rfl⟩⟩ := beginRegistration_ok h
  · obtain ⟨hsettled, -⟩ := settled_of_load hload
    exact ⟨hsettled, identity, hsettled, stored, hget, hid, hsame⟩
  · obtain ⟨hsettled, -⟩ := settled_of_load hload
    have hsettled' := hsettled.withRegistration endpoint ⟨.pending, identity.installationId, request⟩
    exact ⟨hsettled', identity, hsettled', _, Dict.get?_set_self _ _ _, rfl, .refl _⟩

/-- An installation that holds a request sends it again, at its endpoint, and holds it on. -/
private theorem Holds.begin {endpoint' : String} {q : MachineRegistrationRequest} (hold : Holds c endpoint q)
    (h : c.beginRegistration ids defaultName platform sdkVersion endpoint' = .ok (identity, request, c')) :
    Holds c' endpoint q ∧ (endpoint' = endpoint → SameRequest q request) := by
  obtain ⟨identity', hsettled, stored, hget, hid, hsame⟩ := hold
  obtain ⟨c1, hload, hcase⟩ := beginRegistration_ok h
  rw [hsettled.load] at hload
  obtain ⟨rfl, rfl⟩ : identity' = identity ∧ c = c1 := by simpa using hload
  rcases hcase with ⟨stored', hget', -, hsame', rfl⟩ | ⟨hnone, rfl⟩
  · refine ⟨⟨identity', hsettled, stored, hget, hid, hsame⟩, fun he => ?_⟩
    subst he
    rw [hget] at hget'
    cases hget'
    exact hsame.symm.trans hsame'
  · have hne : endpoint' ≠ endpoint := by
      rintro rfl
      exact hnone stored hget hid
    refine ⟨⟨identity', hsettled.withRegistration _ _, stored, ?_, hid, hsame⟩, fun he => absurd he hne⟩
    exact (Dict.get?_set_of_ne hne.symm _).trans hget

private theorem Holds.complete {endpoint' : String} {q : MachineRegistrationRequest}
    {result : MachineRegistrationResult}
    (hold : Holds c endpoint q) (hsettled : Settled c identity) (hsame : endpoint' = endpoint → SameRequest q request)
    (h : c.completeRegistration identity request endpoint' result = .ok c') : Holds c' endpoint q := by
  unfold completeRegistration at h
  simp only [bind, Except.bind] at h
  split at h
  · cases h
  · rw [saveRegistration_ok h]
    by_cases he : endpoint' = endpoint
    · subst he
      exact ⟨identity, hsettled.withRegistration _ _, _, Dict.get?_set_self _ _ _, rfl, (hsame rfl).symm⟩
    · obtain ⟨identity', hsettled', stored, hget, hid, hq⟩ := hold
      exact ⟨identity', hsettled'.withRegistration _ _, stored, (Dict.get?_set_of_ne (Ne.symm he) _).trans hget,
        hid, hq⟩

private theorem Holds.configure {q : MachineRegistrationRequest} {name : Option String}
    {description : Option (Option String)}
    (hold : Holds c endpoint q) (h : c.configureMachine ids defaultName name description = .ok (identity, c')) :
    Holds c' endpoint q := by
  obtain ⟨old, hsettled, stored, hget, hid, hsame⟩ := hold
  unfold configureMachine at h
  simp only [bind, Except.bind, pure, Except.pure] at h
  split at h
  · cases h
  rw [hsettled.load] at h
  dsimp only at h
  obtain ⟨raw, hraw, hparse⟩ := hsettled.machine
  obtain ⟨hversion, hi, hl, ⟨value, hvalue⟩, ⟨text, htext⟩⟩ := parseIdentity_ok hparse
  -- the identity that is saved has been checked text by text, and keeps its identifiers
  have hkept : ∀ newName newDescription, (∃ value, validateText value "machine name" 128 = .ok newName) →
      (∃ text, validateDescription text = .ok newDescription) →
      Holds { c with machine := some { old with name := newName, description := newDescription } } endpoint q := by
    rintro newName newDescription ⟨value, hvalue⟩ ⟨text, htext⟩
    have hnew : parseIdentity { old with name := newName, description := newDescription } =
        .ok { old with name := newName, description := newDescription } :=
      parseIdentity_of_ok hi hl hvalue htext (by rw [← hversion])
    exact ⟨_, ⟨⟨_, rfl, hnew⟩, hsettled.proof⟩, stored, hget, hid, hsame⟩
  cases hname : name with
  | none =>
    rw [hname] at h
    dsimp only at h
    cases hdescription : description with
    | none =>
      rw [hdescription] at h
      cases h
      exact hkept _ _ ⟨value, hvalue⟩ ⟨text, htext⟩
    | some newText =>
      rw [hdescription] at h
      dsimp only at h
      cases hd : validateDescription newText with
      | error e => rw [hd] at h; cases h
      | ok newDescription =>
        rw [hd] at h
        cases h
        exact hkept _ _ ⟨value, hvalue⟩ ⟨newText, hd⟩
  | some newValue =>
    rw [hname] at h
    dsimp only at h
    cases hn : validateText newValue "machine name" 128 with
    | error e => rw [hn] at h; cases h
    | ok newName =>
      rw [hn] at h
      dsimp only at h
      cases hdescription : description with
      | none =>
        rw [hdescription] at h
        cases h
        exact hkept _ _ ⟨newValue, hn⟩ ⟨text, htext⟩
      | some newText =>
        rw [hdescription] at h
        dsimp only at h
        cases hd : validateDescription newText with
        | error e => rw [hd] at h; cases h
        | ok newDescription =>
          rw [hd] at h
          cases h
          exact hkept _ _ ⟨newValue, hn⟩ ⟨newText, hd⟩

private theorem Holds.step {q : MachineRegistrationRequest} (hold : Holds c endpoint q) (h : Step c c') :
    Holds c' endpoint q := by
  cases h with
  | look _ ids defaultName identity h =>
    obtain ⟨identity', hsettled, hrest⟩ := hold
    rw [hsettled.load] at h
    obtain ⟨-, rfl⟩ : identity' = identity ∧ c = c' := by simpa using h
    exact ⟨identity', hsettled, hrest⟩
  | configure _ ids defaultName name description identity h => exact hold.configure h
  | lost _ ids defaultName platform sdkVersion endpoint' identity request h => exact (hold.begin h).1
  | registered c1 _ ids defaultName platform sdkVersion endpoint' identity request result h h' =>
    obtain ⟨hold1, hsame⟩ := hold.begin h
    exact hold1.complete (holds_of_begin h).1 hsame h'

/-- A later attempt at the same endpoint sends the request that was sent first. -/
private theorem resends {c0 c1 c2 : Installation} {ids' : Identifiers} {defaultName' platform' sdkVersion' : String}
    {identity' : LocalMachineIdentity} {request' : MachineRegistrationRequest}
    (h : c.beginRegistration ids defaultName platform sdkVersion endpoint = .ok (identity, request, c0))
    (hsteps : Relation.ReflTransGen Step c0 c1)
    (h' : c1.beginRegistration ids' defaultName' platform' sdkVersion' endpoint = .ok (identity', request', c2)) :
    SameRequest request request' := by
  have hold : Holds c1 endpoint request := by
    clear h'
    induction hsteps with
    | refl => exact (holds_of_begin h).2
    | tail _ hstep ih => exact ih.step hstep
  exact (hold.begin h').2 rfl

/-- A request that is made again: the same one, or what an installation sends later at the same endpoint. -/
inductive Repeats : MachineRegistrationRequest → MachineRegistrationRequest → Prop
  | same (request : MachineRegistrationRequest) : Repeats request request
  | resent (c c0 c1 c2 : Installation) (ids ids' : Identifiers)
    (defaultName defaultName' platform platform' sdkVersion sdkVersion' endpoint : String)
    (identity identity' : LocalMachineIdentity) (request request' : MachineRegistrationRequest)
    (h : c.beginRegistration ids defaultName platform sdkVersion endpoint = .ok (identity, request, c0))
    (hsteps : Relation.ReflTransGen Step c0 c1)
    (h' : c1.beginRegistration ids' defaultName' platform' sdkVersion' endpoint = .ok (identity', request', c2)) :
    Repeats request request'

theorem Repeats.sameRequest {q q' : MachineRegistrationRequest} (h : Repeats q q') : SameRequest q q' := by
  cases h with
  | same => exact .refl q
  | resent c c0 c1 c2 ids ids' defaultName defaultName' platform platform' sdkVersion sdkVersion' endpoint identity
      identity' _ _ h hsteps h' => exact resends h hsteps h'

theorem SameRequest.fingerprint {q q' : MachineRegistrationRequest} (h : SameRequest q q') :
    Coordinator.requestFingerprint q = Coordinator.requestFingerprint q' := by
  unfold Coordinator.requestFingerprint
  rw [h.registration, h.name, h.description, h.platform, h.version]

theorem SameRequest.requested {q q' : MachineRegistrationRequest} (h : SameRequest q q') :
    Machines.requested q = Machines.requested q' := by
  have htext : ∀ (field : String) (maximum : Nat) {value value' : String}, Strip.strip value = Strip.strip value' →
      Machines.catalogText value field maximum = Machines.catalogText value' field maximum := by
    intro field maximum value value' hs
    unfold Machines.catalogText
    rw [hs]
  have hoption : ∀ (field : String) (maximum : Nat) {value value' : Option String},
      value.map Strip.strip = value'.map Strip.strip →
      Machines.optionalCatalogText value field maximum = Machines.optionalCatalogText value' field maximum := by
    intro field maximum value value' hs
    cases value <;> cases value' <;> simp only [Option.map_none, Option.map_some, reduceCtorEq, Option.some.injEq] at hs
    · rfl
    · unfold Machines.optionalCatalogText
      simp only
      rw [htext field maximum hs]
  unfold Machines.requested
  rw [htext "local_registration_id" 128 h.registration, htext "name" 128 h.name, h.description,
    hoption "platform" 128 h.platform, hoption "ctxd_version" 128 h.version]

end

end Installation

end Ctxd

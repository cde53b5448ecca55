import Ctxd.Credentials

/-!
# Registered machines

The `machines` table and the statements of `CtxfsStore` on it.  A registration is replayed when its id is already
there: it has to carry the same metadata, and, when an enrolment key asks, to belong to that key.

`unicodedata.normalize("NFKD", ..)` is a parameter of `catalogKey`, which keeps ASCII letters and digits only.
-/

namespace Ctxd

inductive MachineState
  | healthy | degraded | offline | disabled | unknown
  deriving DecidableEq, Repr

/-- What the server shows of a machine. -/
structure Machine where
  machineId : String
  machineKey : String
  name : String
  description : Option String
  state : MachineState
  platform : Option String
  ctxdVersion : Option String
  credentialKeyId : Option String
  registeredAt : Int
  deriving DecidableEq, Repr

/-- A row of `machines`. -/
structure MachineRow extends Machine where
  userId : String
  localRegistrationId : String
  registrationName : String
  registrationDescription : Option String
  registrationPlatform : Option String
  registrationCtxdVersion : Option String
  enrollmentKeyId : Option String
  deriving DecidableEq, Repr

structure MachineRegistrationRequest where
  localRegistrationId : String
  name : String
  description : Option String
  platform : Option String
  ctxdVersion : Option String
  deriving DecidableEq, Repr

namespace Machines

/-! ### Texts of a registration -/

def catalogText (value field : String) (maximum : Nat) : Except StoreError String := do
  let clean := Strip.strip value
  Auth.require (clean ≠ "") s!"{field} must be non-empty"
  Auth.require (clean.length ≤ maximum) s!"{field} must be at most {maximum} characters"
  Auth.require (!hasControlCharacter clean) s!"{field} cannot contain control characters"
  return clean

def optionalCatalogText (value : Option String) (field : String) (maximum : Nat) : Except StoreError (Option String) :=
  match value with
  | none => .ok none
  | some text => some <$> catalogText text field maximum

def optionalDescription (value : Option String) : Except StoreError (Option String) :=
  match value with
  | none => .ok none
  | some text => do
    Auth.require (!hasControlCharacter text) "description cannot contain control characters"
    let clean := Strip.strip text
    Auth.require (clean.length ≤ 1024) "description must be at most 1024 characters"
    return some clean

/-- The texts of a request as the catalog keeps them. -/
structure Requested where
  registrationId : String
  name : String
  description : Option String
  platform : Option String
  ctxdVersion : Option String
  deriving DecidableEq, Repr

def requested (request : MachineRegistrationRequest) : Except StoreError Requested := do
  let registrationId ← catalogText request.localRegistrationId "local_registration_id" 128
  let cleanName ← catalogText request.name "name" 128
  let cleanDescription ← optionalDescription request.description
  let cleanPlatform ← optionalCatalogText request.platform "platform" 128
  let cleanVersion ← optionalCatalogText request.ctxdVersion "ctxd_version" 128
  return ⟨registrationId, cleanName, cleanDescription, cleanPlatform, cleanVersion⟩

/-! ### Keys of machines -/

/-- `text[:stop]`, where a negative `stop` counts from the end. -/
def sliceTo (text : List Char) (stop : Int) : List Char :=
  text.take (if stop < 0 then text.length - stop.natAbs else stop.toNat)

def isKeyChar (c : Char) : Bool := c.isLower || c.isDigit

/-- `re.sub(r"[^a-z0-9]+", "-", text)`; `gap` tells that the run before was replaced already. -/
def dashed (gap : Bool) : List Char → List Char
  | [] => []
  | c :: cs => if isKeyChar c then c :: dashed false cs else if gap then dashed true cs else '-' :: dashed true cs

def catalogKey (nfkd : String → String) (name fallback : String) : List Char :=
  let asciiName := (nfkd name).toList.filter fun c => c.toNat < 128
  let normalized := Strip.stripBy (· = '-') (dashed false (asciiName.map Char.toLower))
  (sliceTo (if normalized = [] then fallback.toList else normalized) 63).rdropWhile (· = '-')

def suffixedKey (base : List Char) (suffix : Nat) : String :=
  if suffix = 1 then String.ofList base
  else
    let ending := '-' :: (Nat.repr suffix).toList
    String.ofList ((sliceTo base (63 - ending.length)).rdropWhile (· = '-') ++ ending)

/-! ### Statements -/

variable (machines : List MachineRow)

def row? (user machineId : String) : Option MachineRow :=
  machines.find? fun r => r.userId = user && r.machineId = machineId

def registration? (user registrationId : String) : Option MachineRow :=
  machines.find? fun r => r.userId = user && r.localRegistrationId = registrationId

def machine (user machineId : String) : Except LifecycleError Machine :=
  match row? machines user machineId with
  | none => .error (.raised (.keyError s!"unknown machine_id: {machineId}"))
  | some r => .ok r.toMachine

def machineForRegistration (user localRegistrationId : String) :
    Except LifecycleError (Option (Machine × Option String)) := do
  let registrationId ← lift (catalogText localRegistrationId "local_registration_id" 128)
  return (registration? machines user registrationId).map fun r => (r.toMachine, r.enrollmentKeyId)

def replayMachine (r : MachineRow) (q : Requested) : Except LifecycleError Machine :=
  if (r.registrationName, r.registrationDescription, r.registrationPlatform, r.registrationCtxdVersion) ≠
      (q.name, q.description, q.platform, q.ctxdVersion) then
    .error (.catalogConflict "local_registration_id is already registered with different machine metadata")
  else .ok r.toMachine

/-- The new row breaks a key of the table: `(user_id, machine_id)`, `(user_id, machine_key)` or
`(user_id, local_registration_id)`. -/
def clashes (new r : MachineRow) : Bool :=
  r.userId = new.userId && (r.machineId = new.machineId || r.machineKey = new.machineKey ||
    r.localRegistrationId = new.localRegistrationId)

/-- The rounds of an insertion, which try one key after the other; one uuid stands for the draws of all rounds, as only
that of the last is kept. -/
def insertionRound (new : String → MachineRow) (base : List Char) : Nat → Nat → Option MachineRow
  | 0, _ => none
  | fuel + 1, suffix =>
    let r := new (suffixedKey base suffix)
    if machines.any (clashes r) then insertionRound new base fuel (suffix + 1) else some r

def newRow (user : String) (q : Requested) (enrollmentKeyId : Option String) (draw : Draw) (machineKey : String) :
    MachineRow :=
  { machineId := draw.uuid, machineKey := machineKey, name := q.name, description := q.description, state := .unknown,
    platform := q.platform, ctxdVersion := q.ctxdVersion, credentialKeyId := none, registeredAt := draw.now,
    userId := user, localRegistrationId := q.registrationId, registrationName := q.name,
    registrationDescription := q.description, registrationPlatform := q.platform,
    registrationCtxdVersion := q.ctxdVersion, enrollmentKeyId := enrollmentKeyId }

/-- An enrolment key that has used this request before takes a registration without one; the row is read again. -/
def adopt (user : String) (enrollmentKeyId : Option String) (enrollmentRecovered : Bool) (existing : MachineRow) :
    MachineRow × List MachineRow :=
  if enrollmentKeyId.isSome && existing.enrollmentKeyId.isNone && enrollmentRecovered then
    let adopted := machines.map fun r =>
      if r.userId = user && r.machineId = existing.machineId && r.enrollmentKeyId.isNone then
        { r with enrollmentKeyId := enrollmentKeyId }
      else r
    ((row? adopted user existing.machineId).getD existing, adopted)
  else (existing, machines)

def registerMachine (nfkd : String → String) (user : String) (request : MachineRegistrationRequest)
    (enrollmentKeyId : Option String) (enrollmentRecovered : Bool) (draw : Draw) :
    Except LifecycleError (Machine × List MachineRow) := do
  let q ← lift (requested request)
  match registration? machines user q.registrationId with
  | some existing =>
    let (existing, adopted) := adopt machines user enrollmentKeyId enrollmentRecovered existing
    if enrollmentKeyId.isSome ∧ existing.enrollmentKeyId ≠ enrollmentKeyId then
      throw (.catalogConflict "local_registration_id belongs to another enrollment")
    let replayed ← replayMachine existing q
    return (replayed, adopted)
  | none =>
    let base := catalogKey nfkd q.name "machine"
    -- one more round than there are rows, and one as the first two suffixes may name the same key
    match insertionRound machines (newRow user q enrollmentKeyId draw) base (machines.length + 2) 1 with
    | none => throw .assertion
    | some r => return (r.toMachine, machines ++ [r])

def isBound (user machineId : String) (expectedKeyId : Option String) (r : MachineRow) : Bool :=
  r.userId = user && r.machineId = machineId && r.credentialKeyId = expectedKeyId

def setBinding (user machineId : String) (keyId : Option String) : List MachineRow :=
  machines.map fun r => if r.userId = user && r.machineId = machineId then { r with credentialKeyId := keyId } else r

/-- Under the index that keeps the bound keys of a user apart. -/
def bindMachineCredential (user machineId : String) (expectedKeyId : Option String) (newKeyId : String) :
    Except LifecycleError (Machine × List MachineRow) := do
  lift (Auth.require (newKeyId ≠ "" && Strip.strip newKeyId = newKeyId)
    "new_key_id must be a non-empty, trimmed string")
  let before ← machine machines user machineId
  if before.credentialKeyId ≠ expectedKeyId then throw .bindingConflict
  if machines.any fun r => r.userId = user && r.credentialKeyId = some newKeyId && r.machineId ≠ machineId then
    throw (.raised .integrityError)
  if machines.countP (isBound user machineId expectedKeyId) ≠ 1 then throw .bindingConflict
  let bound := setBinding machines user machineId (some newKeyId)
  return (← machine bound user machineId, bound)

def clearMachineCredential (user machineId expectedKeyId : String) :
    Except LifecycleError (Machine × List MachineRow) := do
  lift (Auth.require (expectedKeyId ≠ "" && Strip.strip expectedKeyId = expectedKeyId)
    "expected_key_id must be a non-empty, trimmed string")
  let before ← machine machines user machineId
  match before.credentialKeyId with
  | none => return (before, machines)
  | some keyId =>
    if keyId ≠ expectedKeyId then throw .bindingConflict
    if machines.countP (isBound user machineId (some expectedKeyId)) ≠ 1 then throw .bindingConflict
    let cleared := setBinding machines user machineId none
    return (← machine cleared user machineId, cleared)

/-! ### Keys of machines are words -/

theorem isWordChar_of_isKeyChar {c : Char} (h : isKeyChar c = true) : Strip.isWordChar c = true := by
  have halnum : c.isAlphanum = ((c.isUpper || c.isLower) || c.isDigit) := rfl
  simp only [isKeyChar, Strip.isWordChar, halnum, Bool.or_eq_true] at h ⊢
  tauto

private theorem isWordChar_of_mem_dashed {gap : Bool} {cs : List Char} {c : Char} (h : c ∈ dashed gap cs) :
    Strip.isWordChar c = true := by
  induction cs generalizing gap with
  | nil => cases h
  | cons d cs ih =>
    unfold dashed at h
    split at h
    · rcases List.mem_cons.1 h with rfl | h
      · exact isWordChar_of_isKeyChar ‹_›
      · exact ih h
    · split at h
      · exact ih h
      · rcases List.mem_cons.1 h with rfl | h
        · decide
        · exact ih h

private theorem isWordChar_of_mem_slice {cs : List Char} {stop : Int} {c : Char}
    (h : c ∈ (sliceTo cs stop).rdropWhile (· = '-')) (hw : ∀ c ∈ cs, Strip.isWordChar c = true) :
    Strip.isWordChar c = true :=
  hw c (List.mem_of_mem_take ((List.rdropWhile_prefix _ _).subset h))

private theorem isWordChar_of_mem_catalogKey {nfkd : String → String} {name : String} {c : Char}
    (h : c ∈ catalogKey nfkd name "machine") : Strip.isWordChar c = true := by
  unfold catalogKey at h
  refine isWordChar_of_mem_slice h fun c hc => ?_
  split at hc
  · have hplain : ∀ c ∈ "machine".toList, Strip.isWordChar c = true := by simp [Strip.isWordChar]
    exact hplain c hc
  · have hsub : c ∈ List.dropWhile (· = '-') _ := (List.rdropWhile_prefix _ _).subset hc
    exact isWordChar_of_mem_dashed ((List.dropWhile_suffix _).subset hsub)

/-- The key does not start with a dash, so that something is left when dashes are dropped at its end. -/
private theorem catalogKey_ne_nil (nfkd : String → String) (name : String) : catalogKey nfkd name "machine" ≠ [] := by
  have hkeep : ∀ (c : Char) (cs : List Char), c ≠ '-' → (sliceTo (c :: cs) 63).rdropWhile (· = '-') ≠ [] := by
    intro c cs hc hnil
    rw [List.rdropWhile_eq_nil_iff] at hnil
    have := hnil c (by simp [sliceTo])
    simp [hc] at this
  unfold catalogKey
  dsimp only
  split
  · exact hkeep 'm' _ (by decide)
  · rename_i hne
    generalize hl : Strip.stripBy _ _ = l at hne ⊢
    cases l with
    | nil => exact absurd rfl hne
    | cons c cs =>
      refine hkeep c cs fun hc => ?_
      have hhead := Strip.head?_stripBy (by rw [hl]; rfl)
      simp [hc] at hhead

private theorem isWord_suffixedKey {base : List Char} (hne : base ≠ []) (hw : ∀ c ∈ base, Strip.isWordChar c = true)
    (suffix : Nat) : Credentials.IsWord (suffixedKey base suffix) := by
  unfold suffixedKey
  split
  · refine ⟨?_, fun c hc => hw c (by simpa using hc)⟩
    simpa using hne
  · refine ⟨by simp, fun c hc => ?_⟩
    rw [String.toList_ofList] at hc
    rcases List.mem_append.1 hc with hc | hc
    · exact isWordChar_of_mem_slice hc hw
    · rcases List.mem_cons.1 hc with rfl | hc
      · decide
      · rw [Nat.toList_repr] at hc
        have := Nat.isDigit_of_mem_toDigits (by decide) (by decide) hc
        simp [Strip.isWordChar, Char.isAlphanum, this]

/-! ### Well-formed tables -/

variable {machines}

/-- A table of one user's machines: ids, registrations and bound keys are apart. -/
structure WF (user : String) (machines : List MachineRow) : Prop where
  users : ∀ r ∈ machines, r.userId = user
  ids : (machines.map (·.machineId)).Nodup
  registrations : (machines.map (·.localRegistrationId)).Nodup
  uuids : ∀ r ∈ machines, Credentials.isUuid r.machineId = true
  words : ∀ r ∈ machines, Credentials.IsWord r.machineKey
  keys : ∀ r ∈ machines, ∀ k, r.credentialKeyId = some k → Credentials.validKeyId k = true

theorem WF.nil (user : String) : WF user [] :=
  ⟨fun _ h => (nomatch h), List.nodup_nil, List.nodup_nil, fun _ h => (nomatch h), fun _ h => (nomatch h),
    fun _ h => (nomatch h)⟩

/-- The key a machine is bound to. -/
def boundKey (machines : List MachineRow) (user machineId : String) : Option String :=
  (row? machines user machineId).bind (·.credentialKeyId)

section

variable {user machineId : String}

theorem mem_of_row? {r : MachineRow} (h : row? machines user machineId = some r) :
    r ∈ machines ∧ r.userId = user ∧ r.machineId = machineId := by
  have := List.find?_some h
  simp only [Bool.and_eq_true, decide_eq_true_eq] at this
  exact ⟨List.mem_of_find?_eq_some h, this⟩

theorem WF.eq_of_machineId (h : WF user machines) {r r' : MachineRow} (hr : r ∈ machines) (hr' : r' ∈ machines)
    (hid : r.machineId = r'.machineId) : r = r' :=
  List.inj_on_of_nodup_map h.ids hr hr' hid

theorem WF.row?_of_mem (h : WF user machines) {r : MachineRow} (hr : r ∈ machines) :
    row? machines user r.machineId = some r := by
  unfold row?
  cases hf : machines.find? fun r' => r'.userId = user && r'.machineId = r.machineId with
  | none => simpa [h.users r hr] using List.find?_eq_none.1 hf r hr
  | some r' => rw [h.eq_of_machineId (mem_of_row? hf).1 hr (mem_of_row? hf).2.2]

theorem WF.registration?_of_mem (h : WF user machines) {r : MachineRow} (hr : r ∈ machines) :
    registration? machines user r.localRegistrationId = some r := by
  unfold registration?
  cases hf : machines.find? fun r' => r'.userId = user && r'.localRegistrationId = r.localRegistrationId with
  | none => simpa [h.users r hr] using List.find?_eq_none.1 hf r hr
  | some r' =>
    have hid := List.find?_some hf
    simp only [Bool.and_eq_true, decide_eq_true_eq] at hid
    rw [List.inj_on_of_nodup_map h.registrations (List.mem_of_find?_eq_some hf) hr hid.2]

theorem mem_of_registration? {registrationId : String} {r : MachineRow}
    (h : registration? machines user registrationId = some r) :
    r ∈ machines ∧ r.userId = user ∧ r.localRegistrationId = registrationId := by
  have := List.find?_some h
  simp only [Bool.and_eq_true, decide_eq_true_eq] at this
  exact ⟨List.mem_of_find?_eq_some h, this⟩

/-! ### Binding -/

private theorem row?_setBinding (keyId : Option String) (other : String) :
    row? (setBinding machines user machineId keyId) user other = (row? machines user other).map fun r =>
      if r.userId = user && r.machineId = machineId then { r with credentialKeyId := keyId } else r := by
  unfold row? setBinding
  rw [List.find?_map]
  congr 1
  refine congrArg (List.find? · machines) (funext fun r => ?_)
  simp only [Function.comp_apply]
  split <;> rfl

theorem boundKey_setBinding_self (h : (row? machines user machineId).isSome) (keyId : Option String) :
    boundKey (setBinding machines user machineId keyId) user machineId = keyId := by
  obtain ⟨r, hr⟩ := Option.isSome_iff_exists.1 h
  unfold boundKey
  rw [row?_setBinding, hr, Option.map_some, Option.bind_some, if_pos (by simp [(mem_of_row? hr).2])]

theorem boundKey_setBinding_of_ne {other : String} (hne : other ≠ machineId) (keyId : Option String) :
    boundKey (setBinding machines user machineId keyId) user other = boundKey machines user other := by
  unfold boundKey
  rw [row?_setBinding]
  cases hr : row? machines user other with
  | none => rfl
  | some r =>
    rw [Option.map_some, Option.bind_some, Option.bind_some, if_neg]
    rw [(mem_of_row? hr).2.2]
    simp [hne]

theorem WF.setBinding (h : WF user machines) {keyId : Option String}
    (hk : ∀ k, keyId = some k → Credentials.validKeyId k = true) :
      WF user (Machines.setBinding machines user machineId keyId) := by
  have hmap : ∀ {β : Type} (f : MachineRow → β), (∀ r : MachineRow, f { r with credentialKeyId := keyId } = f r) →
      (Machines.setBinding machines user machineId keyId).map f = machines.map f := by
    intro β f hf
    unfold Machines.setBinding
    rw [List.map_map]
    refine List.map_congr_left fun r _ => ?_
    simp only [Function.comp_apply]
    split
    · exact hf r
    · rfl
  have hmem : ∀ r ∈ Machines.setBinding machines user machineId keyId, ∃ r' ∈ machines,
      r = r' ∨ r = { r' with credentialKeyId := keyId } := by
    intro r hr
    obtain ⟨r', hr', rfl⟩ := List.mem_map.1 hr
    refine ⟨r', hr', ?_⟩
    split
    · exact .inr rfl
    · exact .inl rfl
  refine ⟨fun r hr => ?_, ?_, ?_, fun r hr => ?_, fun r hr => ?_, fun r hr k hb => ?_⟩
  · obtain ⟨r', hr', heq | heq⟩ := hmem r hr <;> rw [heq] <;> exact h.users r' hr'
  · rw [hmap _ fun _ => rfl]; exact h.ids
  · rw [hmap _ fun _ => rfl]; exact h.registrations
  · obtain ⟨r', hr', heq | heq⟩ := hmem r hr <;> rw [heq] <;> exact h.uuids r' hr'
  · obtain ⟨r', hr', heq | heq⟩ := hmem r hr <;> rw [heq] <;> exact h.words r' hr'
  · obtain ⟨r', hr', heq | heq⟩ := hmem r hr <;> rw [heq] at hb
    · exact h.keys r' hr' k hb
    · exact hk k hb

private theorem WF.countP_isBound (h : WF user machines) {r : MachineRow} (hr : r ∈ machines) :
    machines.countP (isBound user r.machineId r.credentialKeyId) = 1 := by
  have hcount : (machines.map (·.machineId)).count r.machineId = 1 :=
    List.count_eq_one_of_mem h.ids (List.mem_map.2 ⟨r, hr, rfl⟩)
  rw [List.count_eq_countP, List.countP_map] at hcount
  rw [← hcount]
  refine List.countP_congr fun r' hr' => ?_
  simp only [isBound, Function.comp_apply, beq_iff_eq, Bool.and_eq_true, decide_eq_true_eq]
  constructor
  · exact fun hb => hb.1.2
  · intro hid
    rw [h.eq_of_machineId hr' hr hid]
    exact ⟨⟨h.users r hr, rfl⟩, rfl⟩

theorem WF.machine_of_mem (h : WF user machines) {r : MachineRow} (hr : r ∈ machines) :
    machine machines user r.machineId = .ok r.toMachine := by
  unfold machine
  rw [h.row?_of_mem hr]

private theorem machine_setBinding (h : WF user machines) {r : MachineRow} (hr : r ∈ machines) (keyId : Option String) :
    machine (setBinding machines user r.machineId keyId) user r.machineId =
      .ok { r.toMachine with credentialKeyId := keyId } := by
  unfold machine
  rw [row?_setBinding, h.row?_of_mem hr, Option.map_some, if_pos (by simp [h.users r hr])]

private theorem require_trimmed {keyId field : String} (h : Credentials.validKeyId keyId = true) :
    lift (Auth.require (keyId ≠ "" && Strip.strip keyId = keyId) field) = .ok () := by
  have hw := Credentials.isWord_of_validKeyId h
  have hstrip : Strip.strip keyId = keyId :=
    Strip.strip_of_noSpace fun c hc => Strip.isSpace_of_isWordChar (hw.2 c hc)
  rw [Auth.require_of (by simp [hw.1, hstrip])]
  rfl

theorem WF.bindMachineCredential_eq (h : WF user machines) {r : MachineRow} (hr : r ∈ machines) {keyId : String}
    (hk : Credentials.validKeyId keyId = true)
    (hapart : ∀ r' ∈ machines, r'.credentialKeyId = some keyId → r'.machineId = r.machineId) :
    bindMachineCredential machines user r.machineId r.credentialKeyId keyId =
      .ok ({ r.toMachine with credentialKeyId := some keyId },
        Machines.setBinding machines user r.machineId (some keyId)) := by
  have hfree : (machines.any fun r' => r'.userId = user && r'.credentialKeyId = some keyId &&
      r'.machineId ≠ r.machineId) = false := by
    rw [List.any_eq_false]
    intro r' hr' hc
    simp only [Bool.and_eq_true, decide_eq_true_eq] at hc
    exact hc.2 (hapart r' hr' hc.1.2)
  unfold bindMachineCredential
  rw [require_trimmed hk, h.machine_of_mem hr]
  simp only [Bind.bind, Except.bind, hfree, h.countP_isBound hr, ne_eq, not_true_eq_false, if_false,
    Bool.false_eq_true, machine_setBinding h hr]
  rfl

theorem WF.clearMachineCredential_eq (h : WF user machines) {r : MachineRow} (hr : r ∈ machines) {keyId : String}
    (hb : r.credentialKeyId = some keyId) :
    clearMachineCredential machines user r.machineId keyId =
      .ok ({ r.toMachine with credentialKeyId := none }, Machines.setBinding machines user r.machineId none) := by
  have hcount := h.countP_isBound hr
  rw [hb] at hcount
  unfold clearMachineCredential
  rw [require_trimmed (h.keys r hr keyId hb), h.machine_of_mem hr]
  simp only [Bind.bind, Except.bind, hb, hcount, ne_eq, not_true_eq_false, if_false, machine_setBinding h hr]
  rfl

/-! ### Registering -/

theorem requested_ok {request : MachineRegistrationRequest} {q : Requested} (h : requested request = .ok q) :
    q.registrationId = Strip.strip request.localRegistrationId ∧
      catalogText request.localRegistrationId "local_registration_id" 128 = .ok q.registrationId := by
  unfold requested at h
  cases hid : catalogText request.localRegistrationId "local_registration_id" 128 with
  | error e => rw [hid] at h; cases h
  | ok registrationId =>
    rw [hid] at h
    have hstrip : registrationId = Strip.strip request.localRegistrationId := by
      unfold catalogText at hid
      simp only [Bind.bind, Except.bind] at hid
      split at hid
      · cases hid
      split at hid
      · cases hid
      split at hid
      · cases hid
      cases hid
      rfl
    have hsame : q.registrationId = registrationId := by
      simp only [Bind.bind, Except.bind] at h
      split at h
      · cases h
      split at h
      · cases h
      split at h
      · cases h
      split at h
      · cases h
      cases h
      rfl
    exact ⟨hsame.trans hstrip, by rw [hsame]⟩

theorem requested_error {request : MachineRegistrationRequest} {e : StoreError}
    (h : catalogText request.localRegistrationId "local_registration_id" 128 = .error e) :
    requested request = .error e := by
  unfold requested
  rw [h]
  rfl

/-- The row carries the metadata of the request. -/
def Replays (r : MachineRow) (q : Requested) : Prop :=
  r.registrationName = q.name ∧ r.registrationDescription = q.description ∧ r.registrationPlatform = q.platform ∧
    r.registrationCtxdVersion = q.ctxdVersion

theorem replayMachine_ok {r : MachineRow} {q : Requested} {m : Machine} :
    replayMachine r q = .ok m ↔ Replays r q ∧ m = r.toMachine := by
  unfold replayMachine Replays
  split
  · rename_i hne
    simp only [ne_eq, Prod.mk.injEq] at hne
    constructor
    · exact fun h => (nomatch h)
    · exact fun h => absurd h.1 hne
  · rename_i heq
    simp only [ne_eq, Prod.mk.injEq, not_not] at heq
    constructor
    · rintro h
      cases h
      exact ⟨heq, rfl⟩
    · rintro ⟨-, rfl⟩
      rfl

private theorem insertionRound_some {new : String → MachineRow} {base : List Char} {fuel suffix : Nat} {r : MachineRow}
    (h : insertionRound machines new base fuel suffix = some r) :
    (∃ n, r = new (suffixedKey base n)) ∧ machines.any (clashes r) = false := by
  induction fuel generalizing suffix with
  | zero => cases h
  | succ fuel ih =>
    unfold insertionRound at h
    simp only at h
    split at h
    · exact ih h
    · cases h
      rename_i hfree
      exact ⟨⟨suffix, rfl⟩, by rwa [Bool.not_eq_true] at hfree⟩

variable {nfkd : String → String} {request : MachineRegistrationRequest} {enrollmentKeyId : Option String}
  {recovered : Bool} {draw : Draw} {m : Machine} {machines' : List MachineRow}

/-- What a registration does to the catalog, when a key that has been used before finds the machine it made: it finds
the row, or adds one. -/
theorem registerMachine_ok
    (h : registerMachine machines nfkd user request enrollmentKeyId recovered draw = .ok (m, machines'))
    (hrec : ∀ q r, requested request = .ok q → registration? machines user q.registrationId = some r →
      recovered = true → r.enrollmentKeyId ≠ none) :
    ∃ q, requested request = .ok q ∧
      ((∃ r, registration? machines user q.registrationId = some r ∧ m = r.toMachine ∧ machines' = machines ∧
          (enrollmentKeyId.isSome → r.enrollmentKeyId = enrollmentKeyId) ∧ Replays r q) ∨
        (registration? machines user q.registrationId = none ∧ ∃ machineKey, Credentials.IsWord machineKey ∧
          m = (newRow user q enrollmentKeyId draw machineKey).toMachine ∧
          machines' = machines ++ [newRow user q enrollmentKeyId draw machineKey] ∧
          machines.any (clashes (newRow user q enrollmentKeyId draw machineKey)) = false)) := by
  unfold registerMachine at h
  cases hq : requested request with
  | error e => rw [hq] at h; cases h
  | ok q =>
    rw [hq] at h
    refine ⟨q, rfl, ?_⟩
    cases hr : registration? machines user q.registrationId with
    | some r =>
      left
      have hkept : adopt machines user enrollmentKeyId recovered r = (r, machines) := by
        unfold adopt
        rw [if_neg]
        intro hc
        simp only [Bool.and_eq_true, Option.isNone_iff_eq_none] at hc
        exact hrec q r hq hr hc.2 hc.1.2
      simp only [lift, Bind.bind, Except.bind, hr, hkept] at h
      split at h
      · cases h
      rename_i hkey
      cases hm : replayMachine r q with
      | error e => rw [hm] at h; cases h
      | ok m' =>
        rw [hm] at h
        cases h
        obtain ⟨hrep, rfl⟩ := replayMachine_ok.1 hm
        refine ⟨r, rfl, rfl, rfl, fun hs => ?_, hrep⟩
        by_contra hne
        exact hkey ⟨hs, hne⟩
    | none =>
      right
      simp only [lift, Bind.bind, Except.bind, hr] at h
      cases hi : insertionRound machines (newRow user q enrollmentKeyId draw) (catalogKey nfkd q.name "machine")
          (machines.length + 2) 1 with
      | none => rw [hi] at h; cases h
      | some r =>
        rw [hi] at h
        cases h
        obtain ⟨⟨n, rfl⟩, hfree⟩ := insertionRound_some hi
        exact ⟨rfl, _, isWord_suffixedKey (catalogKey_ne_nil nfkd q.name) (fun c => isWordChar_of_mem_catalogKey) n,
          rfl, rfl, hfree⟩

/-- How a registration is refused. -/
theorem registerMachine_error {e : LifecycleError}
    (h : registerMachine machines nfkd user request enrollmentKeyId recovered draw = .error e)
    (hrec : ∀ q r, requested request = .ok q → registration? machines user q.registrationId = some r →
      recovered = true → r.enrollmentKeyId ≠ none) :
    e ≠ .died ∧ ((∃ e', requested request = .error e') ∨ ∃ q, requested request = .ok q ∧
      ((∃ r, registration? machines user q.registrationId = some r ∧
          (enrollmentKeyId.isSome ∧ r.enrollmentKeyId ≠ enrollmentKeyId ∨ ¬Replays r q)) ∨
        registration? machines user q.registrationId = none)) := by
  unfold registerMachine at h
  cases hq : requested request with
  | error e' =>
    rw [hq] at h
    cases h
    exact ⟨by simp, .inl ⟨e', rfl⟩⟩
  | ok q =>
    rw [hq] at h
    cases hr : registration? machines user q.registrationId with
    | some r =>
      have hkept : adopt machines user enrollmentKeyId recovered r = (r, machines) := by
        unfold adopt
        rw [if_neg]
        intro hc
        simp only [Bool.and_eq_true, Option.isNone_iff_eq_none] at hc
        exact hrec q r hq hr hc.2 hc.1.2
      simp only [lift, Bind.bind, Except.bind, hr, hkept] at h
      split at h
      · cases h
        exact ⟨by simp, .inr ⟨q, rfl, .inl ⟨r, hr, .inl ‹_›⟩⟩⟩
      · by_cases hrep : Replays r q
        · rw [replayMachine_ok.2 ⟨hrep, rfl⟩] at h
          cases h
        · refine ⟨?_, .inr ⟨q, rfl, .inl ⟨r, hr, .inr hrep⟩⟩⟩
          rintro rfl
          unfold replayMachine at h
          split at h
          · rename_i hm
            split at hm
            · cases hm
              cases h
            · cases hm
          · cases h
    | none =>
      refine ⟨?_, .inr ⟨q, rfl, .inr hr⟩⟩
      rintro rfl
      simp only [lift, Bind.bind, Except.bind, hr] at h
      split at h <;> cases h

theorem WF.append (h : WF user machines) {q : Requested} {machineKey : String}
    (hw : Credentials.IsWord machineKey)
    (hfree : machines.any (clashes (newRow user q enrollmentKeyId draw machineKey)) = false) :
    WF user (machines ++ [newRow user q enrollmentKeyId draw machineKey]) := by
  have hapart : ∀ r ∈ machines, r.machineId ≠ draw.uuid ∧ r.localRegistrationId ≠ q.registrationId := by
    intro r hr
    have hclash := List.any_eq_false.1 hfree r hr
    simp only [clashes, newRow, h.users r hr, decide_true, Bool.true_and, Bool.or_eq_true, not_or] at hclash
    exact ⟨fun hid => hclash.1.1 (decide_eq_true hid), fun hid => hclash.2 (decide_eq_true hid)⟩
  have hnodup : ∀ (f : MachineRow → String), (machines.map f).Nodup →
      (∀ r ∈ machines, f r ≠ f (newRow user q enrollmentKeyId draw machineKey)) →
      ((machines ++ [newRow user q enrollmentKeyId draw machineKey]).map f).Nodup := by
    intro f hf hne
    rw [List.map_append, List.nodup_append]
    refine ⟨hf, by simp, ?_⟩
    rintro x hx y hy rfl
    obtain ⟨r, hr, rfl⟩ := List.mem_map.1 hx
    rw [List.map_singleton, List.mem_singleton] at hy
    exact hne r hr hy
  have hmem : ∀ r ∈ machines ++ [newRow user q enrollmentKeyId draw machineKey], r ∈ machines ∨
      r = newRow user q enrollmentKeyId draw machineKey := by
    intro r hr
    simpa using hr
  refine ⟨fun r hr => ?_, hnodup _ h.ids fun r hr => (hapart r hr).1,
    hnodup _ h.registrations fun r hr => (hapart r hr).2, fun r hr => ?_, fun r hr => ?_, fun r hr k hk => ?_⟩ <;>
    rcases hmem r hr with hr | rfl
  · exact h.users r hr
  · rfl
  · exact h.uuids r hr
  · exact draw.uuid_valid
  · exact h.words r hr
  · exact hw
  · exact h.keys r hr k hk
  · cases hk

/-- A new machine is bound to no key. -/
theorem boundKey_append {q : Requested} {machineKey other : String} :
    boundKey (machines ++ [newRow user q enrollmentKeyId draw machineKey]) user other =
      boundKey machines user other := by
  unfold boundKey row?
  rw [List.find?_append]
  cases hf : machines.find? fun r => r.userId = user && r.machineId = other with
  | some r => rfl
  | none =>
    by_cases ho : draw.uuid = other <;> simp [newRow, ho]

end

end Machines

end Ctxd

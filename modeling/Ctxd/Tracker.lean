import Ctxd.Lib.Json

/-!
# The health of the tracker

The tracker keeps a record of its last attempts and hands it to `_save_health` after each one.  `_valid_health` couples
the fields of the record by what the last attempt came to.  Whatever clock and outcomes `run_forever` meets, the records
it makes of a valid one are valid, and the last success stays, or moves on to the present attempt
(`run_forever_valid`).
-/

namespace Ctxd

open JsonText (Text Value textOf)

namespace Tracker

def healthFileVersion : Int := 1

def safeSyncErrorMessage : String := "Synchronization failed; retry or run a foreground sync."

/-- The fields of a health record. -/
structure Health where
  version : Value
  lastAttempt : Value
  lastSuccess : Value
  lastResult : Value
  lastErrorCategory : Value
  lastErrorMessage : Value
  complete : Value
  foldersScanned : Value
  operations : Value

def emptyHealth : Health := ⟨.int healthFileVersion, .null, .null, .null, .null, .null, .null, .null, .null⟩

/-- What Python raises while it checks a record. -/
inductive PyError
  | typeError
  | recursionError
  deriving DecidableEq

/-! ### The validator -/

def isLetter (c : Nat) : Bool := (65 ≤ c && c ≤ 90) || (97 ≤ c && c ≤ 122) || c = 95

/-- `re.fullmatch(r"[A-Za-z_][A-Za-z0-9_]*", text)`. -/
def isIdentifier : Text → Bool
  | [] => false
  | c :: cs => isLetter c && cs.all fun d => isLetter d || (48 ≤ d && d ≤ 57)

def isNull : Value → Bool
  | .null => true
  | _ => false

def isText (s : String) : Value → Bool
  | .str t => t = textOf s
  | _ => false

def isBool (b : Bool) : Value → Bool
  | .bool b' => b = b'
  | _ => false

/-- `value in {None, "success", "incomplete", "failed"}`: a list or a dict has no hash. -/
def isResult : Value → Except PyError Bool
  | .list _ | .object _ => .error .typeError
  | v => .ok (isNull v || isText "success" v || isText "incomplete" v || isText "failed" v)

/-- A field that counts: `None`, or an integer that is not negative. -/
def isCount : Value → Bool
  | .null => true
  | .int n => 0 ≤ n
  | _ => false

def isFlag : Value → Bool
  | .null | .bool _ => true
  | _ => false

def isCategory : Value → Bool
  | .null => true
  | .str t => t.length ≤ 64 && isIdentifier t
  | _ => false

/-- `last_success is not None and (last_attempt is None or last_success > last_attempt)`. -/
def isLater : Value → Value → Bool
  | .int _, .null => true
  | .int success, .int attempt => attempt < success
  | _, _ => false

def isSame : Value → Value → Bool
  | .int success, .int attempt => success = attempt
  | .null, .null => true
  | _, _ => false

/-- How the fields go together, once each has its type. -/
def fieldsAgree (h : Health) : Bool :=
  if isLater h.lastSuccess h.lastAttempt then false
  else if isNull h.lastResult then
    [h.lastAttempt, h.lastSuccess, h.lastErrorCategory, h.lastErrorMessage, h.complete, h.foldersScanned,
      h.operations].all isNull
  else if isNull h.lastAttempt then false
  else if isText "success" h.lastResult then
    isSame h.lastSuccess h.lastAttempt && isBool true h.complete && !isNull h.foldersScanned && !isNull h.operations &&
      isNull h.lastErrorCategory && isNull h.lastErrorMessage
  else if isText "incomplete" h.lastResult then
    isBool false h.complete && !isNull h.foldersScanned && !isNull h.operations && isNull h.lastErrorCategory &&
      isNull h.lastErrorMessage
  else
    isNull h.complete && isNull h.foldersScanned && isNull h.operations && !isNull h.lastErrorCategory &&
      isText safeSyncErrorMessage h.lastErrorMessage

/-- The checks of `_valid_health` that follow the one of the keys. -/
def validFields (h : Health) : Except PyError Bool := do
  if !(← isResult h.lastResult) then return false
  if !([h.lastAttempt, h.lastSuccess, h.foldersScanned, h.operations].all isCount) then return false
  if !isFlag h.complete then return false
  if !isCategory h.lastErrorCategory then return false
  if !(isNull h.lastErrorMessage || isText safeSyncErrorMessage h.lastErrorMessage) then return false
  return fieldsAgree h

def healthKeys : List Text :=
  ["version", "last_attempt", "last_success", "last_result", "last_error_category", "last_error_message", "complete",
    "folders_scanned", "operations"].map textOf

/-- The fields of a dict that has exactly the keys of a record. -/
def fieldsOf (payload : Dict Text Value) : Option Health :=
  if payload.keys.all (· ∈ healthKeys) then do
    return ⟨← payload.get? (textOf "version"), ← payload.get? (textOf "last_attempt"),
      ← payload.get? (textOf "last_success"), ← payload.get? (textOf "last_result"),
      ← payload.get? (textOf "last_error_category"), ← payload.get? (textOf "last_error_message"),
      ← payload.get? (textOf "complete"), ← payload.get? (textOf "folders_scanned"), ←
        payload.get? (textOf "operations")⟩
  else none

/-- `payload.get("version")` is the integer of the present version. -/
def hasVersion (payload : Dict Text Value) : Bool :=
  match payload.get? (textOf "version") with
  | some (.int n) => n = healthFileVersion
  | _ => false

/-- `_valid_health`. -/
def validHealth : Value → Except PyError Bool
  | .object payload =>
    if hasVersion payload then
      match fieldsOf payload with
      | some h => validFields h
      | none => .ok false
    else .ok false
  | _ => .ok false

/-- The dict of a record. -/
def Health.items (h : Health) : Dict Text Value :=
  healthKeys.zip [h.version, h.lastAttempt, h.lastSuccess, h.lastResult, h.lastErrorCategory, h.lastErrorMessage,
    h.complete, h.foldersScanned, h.operations]

theorem fieldsOf_items (h : Health) : fieldsOf h.items = some h := by
  obtain ⟨⟩ := h
  rfl

/-- A record that passes the validator. -/
def Health.Valid (h : Health) : Prop := validHealth (.object h.items) = .ok true

/-! ### The loop -/

/-- What `sync_once` comes to: its result, or an exception of a type with some name. -/
inductive SyncOutcome
  | returned (complete : Bool) (folders operations : Nat)
  | raised (typeName : String)

structure Iteration where
  clock : Rat
  outcome : SyncOutcome

def safeErrorCategory (typeName : String) : Text :=
  let category := (textOf typeName).take 64
  if isIdentifier category then category else textOf "SyncError"

/-- `int(clock())`, and not before the last success. -/
def attemptedAt (h : Health) (clock : Rat) : Int :=
  let attempted := clock.num.tdiv clock.den
  match h.lastSuccess with
  | .int success => max attempted success
  | _ => attempted

/-- One turn of the loop of `run_forever`: the record it hands to `_save_health`. -/
def iterate (h : Health) (it : Iteration) : Health :=
  let attempted := Value.int (attemptedAt h it.clock)
  match it.outcome with
  | .raised typeName =>
    { h with
      lastAttempt := attempted
      lastResult := .str (textOf "failed")
      lastErrorCategory := .str (safeErrorCategory typeName)
      lastErrorMessage := .str (textOf safeSyncErrorMessage)
      complete := .null
      foldersScanned := .null
      operations := .null }
  | .returned complete folders operations =>
    { h with
      lastAttempt := attempted
      lastSuccess := if complete then attempted else h.lastSuccess
      lastResult := .str (textOf (if complete then "success" else "incomplete"))
      lastErrorCategory := .null
      lastErrorMessage := .null
      complete := .bool complete
      foldersScanned := .int folders
      operations := .int operations }

/-- The record after so many turns. -/
def healthAfter (h : Health) (iterations : Nat → Iteration) : Nat → Health
  | 0 => h
  | n + 1 => iterate (healthAfter h iterations n) (iterations n)

/-! ### What the validator asks -/

theorem validFields_iff (h : Health) : validFields h = .ok true ↔
    isResult h.lastResult = .ok true ∧
      (∀ v ∈ [h.lastAttempt, h.lastSuccess, h.foldersScanned, h.operations], isCount v = true) ∧ isFlag h.complete =
        true ∧
      isCategory h.lastErrorCategory = true ∧
      (isNull h.lastErrorMessage || isText safeSyncErrorMessage h.lastErrorMessage) = true ∧ fieldsAgree h = true := by
  unfold validFields
  cases hresult : isResult h.lastResult with
  | error e => simp [bind, Except.bind]
  | ok known =>
    rw [← List.all_eq_true]
    cases known
    · simp [bind, Except.bind, pure, Except.pure]
    cases [h.lastAttempt, h.lastSuccess, h.foldersScanned, h.operations].all isCount
    · simp [bind, Except.bind, pure, Except.pure]
    cases isFlag h.complete
    · simp [bind, Except.bind, pure, Except.pure]
    cases isCategory h.lastErrorCategory
    · simp [bind, Except.bind, pure, Except.pure]
    cases isNull h.lastErrorMessage || isText safeSyncErrorMessage h.lastErrorMessage <;>
      simp [bind, Except.bind, pure, Except.pure]

theorem Health.valid_iff (h : Health) : h.Valid ↔ h.version = .int healthFileVersion ∧ validFields h = .ok true := by
  have hversion : Dict.get? h.items (textOf "version") = some h.version := rfl
  unfold Health.Valid validHealth hasVersion
  simp only [hversion, fieldsOf_items]
  cases hv : h.version with
  | int n => by_cases hn : n = healthFileVersion <;> simp [hn]
  | _ => simp

/-- The times of a valid record. -/
private theorem Health.Valid.success {h : Health} (hvalid : h.Valid) : h.lastSuccess = .null ∨
    ∃ success attempt, h.lastSuccess = .int success ∧ h.lastAttempt = .int attempt ∧ 0 ≤ success ∧
      success ≤ attempt := by
  obtain ⟨-, hcounts, -, -, -, hagree⟩ := (validFields_iff h).1 ((Health.valid_iff h).1 hvalid).2
  have hsuccess := hcounts h.lastSuccess (by simp)
  have hattempt := hcounts h.lastAttempt (by simp)
  have hlater : isLater h.lastSuccess h.lastAttempt = false := by
    by_contra hlater
    rw [Bool.not_eq_false] at hlater
    unfold fieldsAgree at hagree
    rw [if_pos hlater] at hagree
    cases hagree
  cases hs : h.lastSuccess with
  | null => exact .inl rfl
  | int success =>
    right
    rw [hs] at hsuccess hlater
    cases ha : h.lastAttempt with
    | null =>
      rw [ha] at hlater
      cases hlater
    | int attempt =>
      rw [ha] at hlater
      simp only [isCount, isLater, decide_eq_true_eq, decide_eq_false_iff_not, Int.not_lt] at hsuccess hlater
      exact ⟨success, attempt, rfl, rfl, hsuccess, hlater⟩
    | _ =>
      rw [ha] at hattempt
      cases hattempt
  | _ =>
    rw [hs] at hsuccess
    cases hsuccess

/-! ### Turns of the loop -/

private theorem attemptedAt_nonneg (h : Health) {clock : Rat} (hclock : 0 ≤ clock) : 0 ≤ attemptedAt h clock := by
  have hpos : 0 ≤ clock.num.tdiv clock.den := Int.tdiv_nonneg (Rat.num_nonneg.2 hclock) (Int.natCast_nonneg _)
  unfold attemptedAt
  dsimp only
  split
  · exact Int.le_trans hpos (Int.le_max_left _ _)
  · exact hpos

private theorem le_attemptedAt {h : Health} {success : Int} (hs : h.lastSuccess = .int success) (clock : Rat) :
    success ≤ attemptedAt h clock := by
  unfold attemptedAt
  rw [hs]
  exact Int.le_max_right _ _

/-- No attempt is before the last success. -/
private theorem Health.Valid.not_later {h : Health} (hvalid : h.Valid) (clock : Rat) :
    isLater h.lastSuccess (.int (attemptedAt h clock)) = false := by
  rcases hvalid.success with hnone | ⟨success, attempt, hs, -, -, -⟩
  · rw [hnone]
    rfl
  · have hle := le_attemptedAt hs clock
    rw [hs]
    simpa [isLater] using hle

private theorem isCategory_safeErrorCategory (typeName : String) :
    isCategory (.str (safeErrorCategory typeName)) = true := by
  unfold safeErrorCategory
  dsimp only
  by_cases hname : isIdentifier ((textOf typeName).take 64) = true
  · rw [if_pos hname, isCategory, hname, Bool.and_true, decide_eq_true_iff, List.length_take]
    exact Nat.min_le_left ..
  · rw [if_neg hname]
    decide

/-- A turn makes a valid record of a valid one. -/
theorem iterate_valid {h : Health} (hvalid : h.Valid) {it : Iteration} (hclock : 0 ≤ it.clock) :
    (iterate h it).Valid := by
  obtain ⟨hversion, hfields⟩ := (Health.valid_iff h).1 hvalid
  obtain ⟨-, hcounts, -, -, -, -⟩ := (validFields_iff h).1 hfields
  have hattempt : isCount (.int (attemptedAt h it.clock)) = true := by
    simpa [isCount] using attemptedAt_nonneg h hclock
  have hsuccess : isCount h.lastSuccess = true := hcounts _ (by simp)
  have hlater := hvalid.not_later it.clock
  have hlater' : isLater (.int (attemptedAt h it.clock)) (.int (attemptedAt h it.clock)) = false := by simp [isLater]
  rw [Health.valid_iff, validFields_iff]
  unfold iterate
  cases it.outcome with
  | raised typeName =>
    have hincomplete : isText "incomplete" (.str (textOf "failed")) = false := by decide
    have hfailed : isText "success" (.str (textOf "failed")) = false := by decide
    have hmessage : isText safeSyncErrorMessage (.str (textOf safeSyncErrorMessage)) = true := by simp [isText]
    dsimp only
    refine ⟨hversion, rfl, ?_, rfl, isCategory_safeErrorCategory typeName, by simp [hmessage], ?_⟩
    · simp only [List.forall_mem_cons]
      exact ⟨hattempt, hsuccess, rfl, rfl, by simp⟩
    · simp [fieldsAgree, hlater, isNull, hincomplete, hfailed, hmessage]
  | returned complete folders operations =>
    have hfolders : isCount (.int folders) = true := by simp [isCount]
    have hoperations : isCount (.int operations) = true := by simp [isCount]
    dsimp only
    cases complete with
    | true =>
      have hsuccessful : isText "success" (.str (textOf "success")) = true := by simp [isText]
      refine ⟨hversion, rfl, ?_, rfl, rfl, rfl, ?_⟩
      · simp only [List.forall_mem_cons]
        exact ⟨hattempt, hattempt, hfolders, hoperations, by simp⟩
      · simp [fieldsAgree, hlater', isNull, isBool, isSame, hsuccessful]
    | false =>
      have hpartial : isText "success" (.str (textOf "incomplete")) = false := by decide
      have hincomplete : isText "incomplete" (.str (textOf "incomplete")) = true := by simp [isText]
      refine ⟨hversion, rfl, ?_, rfl, rfl, rfl, ?_⟩
      · simp only [List.forall_mem_cons]
        exact ⟨hattempt, hsuccess, hfolders, hoperations, by simp⟩
      · simp [fieldsAgree, hlater, isNull, isBool, hpartial, hincomplete]

theorem emptyHealth_valid : emptyHealth.Valid := by
  rw [Health.valid_iff, validFields_iff]
  refine ⟨rfl, rfl, ?_, rfl, rfl, rfl, rfl⟩
  decide

private theorem healthAfter_valid {h : Health} (hvalid : h.Valid) {iterations : Nat → Iteration}
    (hclock : ∀ n, 0 ≤ (iterations n).clock) (n : Nat) : (healthAfter h iterations n).Valid := by
  induction n with
  | zero => exact hvalid
  | succ n ih => exact iterate_valid ih (hclock n)

/-- The last success stays or becomes the present attempt. -/
theorem iterate_success {h : Health} {success : Int} (hs : h.lastSuccess = .int success) (it : Iteration) :
    ∃ later, (iterate h it).lastSuccess = .int later ∧ success ≤ later := by
  unfold iterate
  cases it.outcome with
  | raised typeName => exact ⟨success, hs, Int.le_refl _⟩
  | returned complete folders operations =>
    cases complete with
    | true => exact ⟨_, rfl, le_attemptedAt hs it.clock⟩
    | false => exact ⟨success, hs, Int.le_refl _⟩

/-- Every record that `run_forever` hands to `_save_health` is valid, and its last success never goes back and is never
after its last attempt. -/
theorem run_forever_valid {h : Health} (hinitial : h = emptyHealth ∨ validHealth (.object h.items) = .ok true)
    {iterations : Nat → Iteration} (hclock : ∀ n, 0 ≤ (iterations n).clock) (n : Nat) :
    validHealth (.object (healthAfter h iterations (n + 1)).items) = .ok true ∧
      (∀ success, (healthAfter h iterations n).lastSuccess = .int success →
        ∃ later, (healthAfter h iterations (n + 1)).lastSuccess = .int later ∧ success ≤ later) ∧
      ∀ success, (healthAfter h iterations n).lastSuccess = .int success →
        ∃ attempt, (healthAfter h iterations n).lastAttempt = .int attempt ∧ success ≤ attempt := by
  have hvalid : h.Valid := by
    rcases hinitial with rfl | hvalid
    · exact emptyHealth_valid
    · exact hvalid
  refine ⟨healthAfter_valid hvalid hclock (n + 1), fun success hs => iterate_success hs _, fun success hs => ?_⟩
  rcases (healthAfter_valid hvalid hclock n).success with hnone | ⟨success', attempt, hs', ha, -, hle⟩
  · rw [hnone] at hs
    cases hs
  · rw [hs'] at hs
    cases hs
    exact ⟨attempt, ha, hle⟩

/-- The clock goes back after a success, and the next turn fails. -/
def sampleIterations (n : Nat) : Iteration :=
  if n = 0 then ⟨9 / 2, .returned true 1 2⟩ else ⟨3, .raised "Connect-Error"⟩

theorem run_forever_valid_sample :
    validHealth (.object (healthAfter emptyHealth sampleIterations 2).items) = .ok true ∧
      (∀ success, (healthAfter emptyHealth sampleIterations 1).lastSuccess = .int success →
        ∃ later, (healthAfter emptyHealth sampleIterations 2).lastSuccess = .int later ∧ success ≤ later) ∧
      ∀ success, (healthAfter emptyHealth sampleIterations 1).lastSuccess = .int success →
        ∃ attempt, (healthAfter emptyHealth sampleIterations 1).lastAttempt = .int attempt ∧ success ≤ attempt := by
  refine run_forever_valid (.inl rfl) (fun n => ?_) 1
  unfold sampleIterations
  split <;> decide +kernel

end Tracker

end Ctxd

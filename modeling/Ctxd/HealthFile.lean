import Ctxd.GrepVerified
import Ctxd.Lib.JsonDepth
import Ctxd.Tracker

/-!
# The health file

`load_tracker_health` takes every file that cannot be read for no record at all, and a record that does not pass the
validator too.  Two files stop it: one whose lists or objects are nested deeper than the interpreter goes, and one whose
last result is a list or an object, which has no hash for the membership test (`load_tracker_health_iff`).
-/

namespace Ctxd

open JsonText (Value textOf)

namespace Tracker

/-- Too few bytes for a number that `json.loads` refuses for its digits. -/
def maxHealthFileBytes : Nat := 4096

/-- The record that a text holds, if it is one. -/
def parseHealth (limit : Nat) (text : List Char) : Except PyError (Option Value) :=
  match JsonText.loads limit text with
  | .error .decode => .ok none
  | .error .recursion => .error .recursionError
  | .ok payload => do
    if !(← validHealth payload) then return none
    return some payload

/-- `load_tracker_health` of a file with some bytes, or of none that can be opened; `limit` is how deep the interpreter
can go. -/
def loadTrackerHealth (limit : Nat) (content : Option (List UInt8)) : Except PyError (Option Value) :=
  match content with
  | none => .ok none
  | some raw =>
    if raw.length > maxHealthFileBytes then .ok none
    else match decodeStrict raw with
      | none => .ok none
      | some text => parseHealth limit (replaceLineEnds text.toList)

/-- A value that is not hashable. -/
def Unhashable : Value → Prop
  | .list _ | .object _ => True
  | _ => False

/-- A dict with the version and the keys of a record, whose last result is not hashable. -/
def Damaging (payload : Value) : Prop :=
  ∃ items h, payload = .object items ∧ hasVersion items = true ∧ fieldsOf items = some h ∧ Unhashable h.lastResult

private theorem isResult_error_iff (v : Value) : (∃ e, isResult v = .error e) ↔ Unhashable v := by
  cases v <;> simp [isResult, Unhashable]

private theorem validFields_error_iff (h : Health) : (∃ e, validFields h = .error e) ↔ Unhashable h.lastResult := by
  rw [← isResult_error_iff]
  unfold validFields
  cases isResult h.lastResult with
  | error e => simp [bind, Except.bind]
  | ok known =>
    -- nothing is raised once the last result has been looked up
    simp only [reduceCtorEq, exists_false, iff_false, bind, Except.bind, pure, Except.pure]
    rintro ⟨e, he⟩
    repeat' split at he
    all_goals cases he

private theorem validHealth_error_iff (payload : Value) : (∃ e, validHealth payload = .error e) ↔ Damaging payload := by
  unfold validHealth Damaging
  cases payload with
  | object items =>
    dsimp only
    by_cases hversion : hasVersion items = true
    · rw [if_pos hversion]
      cases hfields : fieldsOf items with
      | none => simp [hfields]
      | some h =>
        rw [validFields_error_iff]
        constructor
        · exact fun hlist => ⟨items, h, rfl, hversion, hfields, hlist⟩
        · rintro ⟨items', h', heq, -, hfields', hlist⟩
          cases heq
          rw [hfields] at hfields'
          cases hfields'
          exact hlist
    · rw [if_neg hversion]
      constructor
      · rintro ⟨e, he⟩
        cases he
      · rintro ⟨items', h', heq, hversion', -⟩
        cases heq
        exact absurd hversion' hversion
  | _ => simp

private theorem parseHealth_iff (limit : Nat) (text : List Char) :
    (∃ result, parseHealth limit text = .ok result ∧ ∀ payload, result = some payload → validHealth payload =
      .ok true) ↔
      JsonText.nesting text ≤ limit ∧ ∀ payload, JsonText.parse text = some payload → ¬Damaging payload := by
  unfold parseHealth
  by_cases hdeep : limit < JsonText.nesting text
  · rw [(JsonText.loads_recursion_iff limit text).2 hdeep]
    refine ⟨fun h => ?_, fun h => absurd h.1 (by omega)⟩
    obtain ⟨result, hresult, -⟩ := h
    cases hresult
  have hshallow : JsonText.nesting text ≤ limit := by omega
  have hread := JsonText.loads_ok_iff hshallow
  cases hloads : JsonText.loads limit text with
  | error e =>
    have hdecode : e ≠ .recursion := by
      rintro rfl
      exact hdeep ((JsonText.loads_recursion_iff limit text).1 hloads)
    have hnone : ∀ payload, JsonText.parse text ≠ some payload := by
      intro payload hpayload
      rw [(hread payload).2 hpayload] at hloads
      cases hloads
    cases e with
    | decode => simpa [hnone] using hdeep
    | recursion => exact absurd rfl hdecode
  | ok payload =>
    rw [(hread payload).1 hloads]
    have hle : JsonText.nesting text ≤ limit := by omega
    simp only [hle, Option.some.injEq, forall_eq', true_and]
    rw [← validHealth_error_iff]
    cases hvalid : validHealth payload with
    | error e => simp [bind, Except.bind]
    | ok valid => cases valid <;> simp [bind, Except.bind, pure, Except.pure, hvalid]

/-- The reader returns `None` or a valid record, unless the text is nested deeper than the interpreter can go or its
last result is a list or an object. -/
theorem load_tracker_health_iff (limit : Nat) (content : Option (List UInt8)) :
    (∃ result, loadTrackerHealth limit content = .ok result ∧
      ∀ payload, result = some payload → validHealth payload = .ok true) ↔
      ∀ raw text, content = some raw → raw.length ≤ maxHealthFileBytes → decodeStrict raw = some text →
        JsonText.nesting (replaceLineEnds text.toList) ≤ limit ∧
          ∀ payload, JsonText.parse (replaceLineEnds text.toList) = some payload → ¬Damaging payload := by
  unfold loadTrackerHealth
  cases content with
  | none => simp
  | some raw =>
    dsimp only
    by_cases hsize : raw.length > maxHealthFileBytes
    · rw [if_pos hsize]
      refine ⟨fun _ raw' text hraw hle => ?_, fun _ => ⟨none, rfl, fun payload h => by cases h⟩⟩
      cases hraw
      omega
    rw [if_neg hsize]
    cases htext : decodeStrict raw with
    | none =>
      refine ⟨fun _ raw' text hraw _ hdecode => ?_, fun _ => ⟨none, rfl, fun payload h => by cases h⟩⟩
      cases hraw
      rw [htext] at hdecode
      cases hdecode
    | some text =>
      dsimp only
      rw [parseHealth_iff]
      constructor
      · intro h raw' text' hraw _ hdecode
        cases hraw
        rw [htext] at hdecode
        cases hdecode
        exact h
      · exact fun h => h raw text rfl (by omega) htext

/-- A record whose last result is a list. -/
def damagedFile : List Char :=
  ("\x7b\"version\":1,\"last_attempt\":null,\"last_success\":null,\"last_result\":[],\"last_error_category\":null," ++
    "\"last_error_message\":null,\"complete\":null,\"folders_scanned\":null,\"operations\":null\x7d").toList

theorem damagedFile_stops :
    ¬∀ (limit : Nat) (content : Option (List UInt8)), ∃ result, loadTrackerHealth limit content = .ok result ∧
      ∀ payload, result = some payload → validHealth payload = .ok true := by
  intro h
  obtain ⟨result, hresult, -⟩ := h 1000 (some (Utf8.encode damagedFile))
  unfold loadTrackerHealth at hresult
  dsimp only at hresult
  rw [if_neg (by decide +kernel), decodeStrict_encode] at hresult
  dsimp only at hresult
  rw [String.toList_ofList] at hresult
  have hraises : (match parseHealth 1000 (replaceLineEnds damagedFile) with
      | .ok _ => none
      | .error e => some e) = some .typeError := by
    decide +kernel
  rw [hresult] at hraises
  cases hraises

end Tracker

end Ctxd

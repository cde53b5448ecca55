import Mathlib.Data.List.Basic
import Mathlib.Tactic.Common
import Ctxd.Lib.Dict

/-!
# Reading JSON

A scanner reads one value from the front of a text and leaves the rest, which is shorter, so the loops over the items
of a list or an object end.  A list or an object inside `limit` others is refused: the scanner calls itself for each
level.  Texts are lists of code points, as an escape may stand for a lone surrogate; a key that is repeated has its
last value.
-/

namespace JsonText

/-- The code points of a text. -/
abbrev Text := List Nat

def textOf (s : String) : Text := s.toList.map Char.toNat

inductive Value
  | null
  | bool (b : Bool)
  | int (n : Int)
  | float (digits : List Char)
  | str (s : Text)
  | list (items : List Value)
  | object (items : List (Text × Value))

inductive Error
  | decode
  | recursion
  deriving DecidableEq

/-- What is left of a text when something was read from its front. -/
abbrev Rest (cs : List Char) := {rest : List Char // rest.length < cs.length}

def Rest.within {cs ds : List Char} (rest : Rest cs) (h : cs.length ≤ ds.length) : Rest ds :=
  ⟨rest.1, Nat.lt_of_lt_of_le rest.2 h⟩

abbrev Scanner (α : Type) := (cs : List Char) → Except Error (α × Rest cs)

def isSpace (c : Char) : Bool := c = ' ' || c = '\t' || c = '\n' || c = '\r'

def skipSpace (cs : List Char) : List Char := cs.dropWhile isSpace

theorem length_skipSpace_le (cs : List Char) : (skipSpace cs).length ≤ cs.length := by
  induction cs with
  | nil => simp [skipSpace]
  | cons c cs ih =>
    unfold skipSpace at ih ⊢
    rw [List.dropWhile_cons]
    split
    · simp only [List.length_cons]
      omega
    · exact Nat.le_refl _

/-! ### Strings -/

def hexValue (c : Char) : Option Nat :=
  if '0' ≤ c && c ≤ '9' then some (c.toNat - 48)
  else if 'a' ≤ c && c ≤ 'f' then some (c.toNat - 87)
  else if 'A' ≤ c && c ≤ 'F' then some (c.toNat - 55)
  else none

def hexUnit (a b c d : Char) : Option Nat := do
  return (← hexValue a) * 4096 + (← hexValue b) * 256 + (← hexValue c) * 16 + (← hexValue d)

/-- The character that an escape other than `\u` stands for. -/
def escaped (c : Char) : Option Nat :=
  if c = '"' || c = '\\' || c = '/' then some c.toNat
  else if c = 'b' then some 8
  else if c = 'f' then some 12
  else if c = 'n' then some 10
  else if c = 'r' then some 13
  else if c = 't' then some 9
  else none

/-- Two escapes for the halves of a surrogate pair stand for one character. -/
def joinSurrogates : Text → Text
  | high :: low :: rest =>
    if 0xD800 ≤ high && high ≤ 0xDBFF && 0xDC00 ≤ low && low ≤ 0xDFFF then
      (0x10000 + (high - 0xD800) * 0x400 + (low - 0xDC00)) :: joinSurrogates rest
    else high :: joinSurrogates (low :: rest)
  | text => text

/-- The units of a string behind its opening quote; control characters must be escaped. -/
def scanUnits : Scanner Text
  | [] => .error .decode
  | '"' :: cs => .ok ([], ⟨cs, Nat.lt_succ_self _⟩)
  | '\\' :: 'u' :: a :: b :: c :: d :: cs =>
    match hexUnit a b c d with
    | none => .error .decode
    | some unit => do
      let (units, rest) ← scanUnits cs
      return (unit :: units, rest.within (by simp only [List.length_cons]; omega))
  | '\\' :: c :: cs =>
    match escaped c with
    | none => .error .decode
    | some unit => do
      let (units, rest) ← scanUnits cs
      return (unit :: units, rest.within (by simp only [List.length_cons]; omega))
  | c :: cs =>
    if c = '\\' || c.toNat < 0x20 then .error .decode
    else do
      let (units, rest) ← scanUnits cs
      return (c.toNat :: units, rest.within (Nat.le_succ _))

/-! ### Numbers and constants -/

def isDigit (c : Char) : Bool := '0' ≤ c && c ≤ '9'

/-- The fraction at the front: a point and at least one digit. -/
def fraction : List Char → List Char
  | '.' :: cs => if (cs.takeWhile isDigit).isEmpty then [] else '.' :: cs.takeWhile isDigit
  | _ => []

def sign : List Char → List Char
  | '+' :: _ => ['+']
  | '-' :: _ => ['-']
  | _ => []

/-- The exponent at the front: a letter, a sign if there is one, and at least one digit. -/
def exponent : List Char → List Char
  | c :: cs =>
    let digits := (cs.drop (sign cs).length).takeWhile isDigit
    if (c = 'e' || c = 'E') && !digits.isEmpty then c :: sign cs ++ digits else []
  | [] => []

def natOf (digits : List Char) : Nat := digits.foldl (fun n c => 10 * n + (c.toNat - 48)) 0

/-- A number without its sign, with any number of digits (Python refuses an integer of more than 4300). -/
def scanNumber (negative : Bool) : Scanner Value
  | [] => .error .decode
  | c :: cs =>
    if isDigit c then
      let whole := if c = '0' then [] else cs.takeWhile isDigit
      let part := fraction (cs.drop whole.length)
      let power := exponent (cs.drop (whole.length + part.length))
      let value := if part.isEmpty && power.isEmpty then
          .int (if negative then -natOf (c :: whole) else natOf (c :: whole))
        else .float ((if negative then ['-'] else []) ++ c :: whole ++ part ++ power)
      .ok (value, ⟨cs.drop (whole.length + part.length + power.length), by
        simp only [List.length_drop, List.length_cons]; omega⟩)
    else .error .decode

def constants : List (String × Value) :=
  [("null", .null), ("true", .bool true), ("false", .bool false), ("NaN", .float "NaN".toList),
    ("Infinity", .float "Infinity".toList), ("-Infinity", .float "-Infinity".toList)]

def scanConstant (cs : List Char) : Option (Value × Rest cs) :=
  constants.findSome? fun (word, value) =>
    if h : word.toList.isPrefixOf cs ∧ word.toList ≠ [] then
      some (value, ⟨cs.drop word.toList.length, by
        have hpos := List.length_pos_iff.2 h.2
        have hle := (List.isPrefixOf_iff_prefix.1 h.1).length_le
        rw [List.length_drop]
        omega⟩)
    else none

/-! ### Lists and objects -/

theorem length_skipSpace_lt {cs ds more : List Char} {c : Char} (h : skipSpace ds = c :: more)
    (hds : ds.length ≤ cs.length) : more.length < cs.length := by
  have hle := length_skipSpace_le ds
  rw [h, List.length_cons] at hle
  omega

/-- What follows some space and one character. -/
def skipOne {cs ds more : List Char} {c : Char} (h : skipSpace ds = c :: more) (hds : ds.length ≤ cs.length) :
    Rest cs :=
  ⟨skipSpace more, Nat.lt_of_le_of_lt (length_skipSpace_le more) (length_skipSpace_lt h hds)⟩

section

variable (scan : Scanner Value)

/-- The items of a list, from the first one on. -/
def scanItems (cs : List Char) : Except Error (List Value × Rest cs) := do
  let (v, r) ← scan cs
  match h : skipSpace r.1 with
  | ']' :: more => return ([v], ⟨more, length_skipSpace_lt h (Nat.le_of_lt r.2)⟩)
  | ',' :: more =>
    let next : Rest cs := skipOne h (Nat.le_of_lt r.2)
    let (vs, rest) ← scanItems next.1
    return (v :: vs, rest.within (Nat.le_of_lt next.2))
  | _ => throw .decode
termination_by cs.length
decreasing_by exact next.2

def scanKey : Scanner Text
  | '"' :: cs => do
    let (units, rest) ← scanUnits cs
    return (joinSurrogates units, rest.within (Nat.le_succ _))
  | _ => .error .decode

/-- The items of an object, from the first key on. -/
def scanMembers (cs : List Char) : Except Error (List (Text × Value) × Rest cs) := do
  let (key, r) ← scanKey cs
  match h : skipSpace r.1 with
  | ':' :: more =>
    let colon : Rest cs := skipOne h (Nat.le_of_lt r.2)
    let (v, r') ← scan colon.1
    let r' := r'.within (Nat.le_of_lt colon.2)
    match h' : skipSpace r'.1 with
    | '}' :: more => return ([(key, v)], ⟨more, length_skipSpace_lt h' (Nat.le_of_lt r'.2)⟩)
    | ',' :: more =>
      let next : Rest cs := skipOne h' (Nat.le_of_lt r'.2)
      let (vs, rest) ← scanMembers next.1
      return ((key, v) :: vs, rest.within (Nat.le_of_lt next.2))
    | _ => throw .decode
  | _ => throw .decode
termination_by cs.length
decreasing_by exact next.2

def scanList : Scanner Value := fun cs =>
  match h : skipSpace cs with
  | ']' :: more => .ok (.list [], ⟨more, length_skipSpace_lt h (Nat.le_refl _)⟩)
  | next => do
    let (vs, rest) ← scanItems scan next
    return (.list vs, rest.within (h ▸ length_skipSpace_le cs))

def scanObject : Scanner Value := fun cs =>
  match h : skipSpace cs with
  | '}' :: more => .ok (.object [], ⟨more, length_skipSpace_lt h (Nat.le_refl _)⟩)
  | next => do
    let (vs, rest) ← scanMembers scan next
    return (.object (vs.foldl (fun d kv => Dict.set d kv.1 kv.2) []), rest.within (h ▸ length_skipSpace_le cs))

end

/-! ### Values -/

/-- A value, by its first character; `nested` reads the values inside a list or an object. -/
def scanWith (nested : Option (Scanner Value)) : Scanner Value
  | [] => .error .decode
  | c :: cs =>
    if c = '"' then do
      let (key, rest) ← scanKey (c :: cs)
      return (.str key, rest)
    else if c = '[' || c = '{' then
      match nested with
      | none => .error .recursion
      | some scan => do
        let (v, rest) ← if c = '[' then scanList scan cs else scanObject scan cs
        return (v, rest.within (Nat.le_succ _))
    else match scanConstant (c :: cs) with
      | some found => .ok found
      | none =>
        if c = '-' then do
          let (v, rest) ← scanNumber true cs
          return (v, rest.within (Nat.le_succ _))
        else scanNumber false (c :: cs)

/-- The scanner of values with at most so many levels. -/
def scanValue : Nat → Scanner Value
  | 0 => scanWith none
  | limit + 1 => scanWith (some (scanValue limit))

/-- `json.loads(text)` of an interpreter that can go so many levels deep. -/
def loads (limit : Nat) (text : List Char) : Except Error Value :=
  if text.head? = some (Char.ofNat 0xFEFF) then .error .decode
  else do
    let (v, rest) ← scanValue limit (skipSpace text)
    if (skipSpace rest.1).isEmpty then return v else throw .decode

end JsonText

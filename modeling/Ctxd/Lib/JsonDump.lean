import Mathlib.Data.List.Chain
import Mathlib.Data.List.Sort
import Ctxd.Lib.Json

/-!
# Writing JSON

`dumps` writes a value as `json.dumps` does: in ASCII, with an escape or a surrogate pair for every other character, on
one line or with an indentation for each level, and with the keys as they come or in order.  What is written is read
back as it was, up to the order of the keys (`loads_dumps`): texts keep their characters unless two of them are the
halves of a surrogate pair, and the levels must not be more than the reader can go.
-/

namespace JsonText

/-! ### Texts -/

/-- The units of a code point in UTF-16. -/
def units (c : Nat) : Text :=
  if c < 0x10000 then [c] else [0xD800 + (c - 0x10000) / 0x400, 0xDC00 + (c - 0x10000) % 0x400]

def escapeUnit (unit : Nat) : List Char :=
  ['\\', 'u', Nat.digitChar (unit / 4096), Nat.digitChar (unit / 256 % 16), Nat.digitChar (unit / 16 % 16),
    Nat.digitChar (unit % 16)]

/-- The letter behind the backslash in a short escape. -/
def escapeLetter (c : Nat) : Option Char :=
  if c = 34 then some '"'
  else if c = 92 then some '\\'
  else if c = 8 then some 'b'
  else if c = 9 then some 't'
  else if c = 10 then some 'n'
  else if c = 12 then some 'f'
  else if c = 13 then some 'r'
  else none

/-- A character in a string literal of `json.dumps`, which writes ASCII only. -/
def escape (c : Nat) : List Char :=
  match escapeLetter c with
  | some letter => ['\\', letter]
  | none => if 32 ≤ c ∧ c ≤ 126 then [Char.ofNat c] else (units c).flatMap escapeUnit

def quote (t : Text) : List Char := '"' :: t.flatMap escape ++ ['"']

/-! ### Values -/

/-- How a value is laid out: by the arguments `indent`, `separators` and `sort_keys`. -/
structure Layout where
  indent : Option Nat
  itemSeparator : List Char
  keySeparator : List Char
  sortKeys : Bool

/-- A separator is a comma or a colon with white space behind it. -/
structure Layout.Proper (layout : Layout) : Prop where
  item : ∃ spaces, layout.itemSeparator = ',' :: spaces ∧ ∀ c ∈ spaces, isSpace c = true
  key : ∃ spaces, layout.keySeparator = ':' :: spaces ∧ ∀ c ∈ spaces, isSpace c = true

/-- The start of a new line of some level, if there are several lines. -/
def Layout.newline (layout : Layout) (level : Nat) : List Char :=
  match layout.indent with
  | none => []
  | some width => '\n' :: List.replicate (width * level) ' '

/-- The items of a list or an object between their brackets. -/
def Layout.enclose (layout : Layout) (level : Nat) (first last : Char) (items : List (List Char)) : List Char :=
  if items = [] then [first, last]
  else first :: layout.newline (level + 1) ++ (layout.itemSeparator ++ layout.newline (level + 1)).intercalate items ++
    layout.newline level ++ [last]

mutual

/-- A value on some level. -/
def write (layout : Layout) (level : Nat) : Value → List Char
  | .null => "null".toList
  | .bool b => if b then "true".toList else "false".toList
  | .int n => (if n < 0 then ['-'] else []) ++ Nat.toDigits 10 n.natAbs
  | .float digits => digits
  | .str s => quote s
  | .list vs => layout.enclose level '[' ']' (writeItems layout level vs)
  | .object ms => layout.enclose level '\x7b' '\x7d' (writeMembers layout level ms)

def writeItems (layout : Layout) (level : Nat) : List Value → List (List Char)
  | [] => []
  | v :: vs => write layout (level + 1) v :: writeItems layout level vs

def writeMembers (layout : Layout) (level : Nat) : List (Text × Value) → List (List Char)
  | [] => []
  | (key, v) :: ms =>
    (quote key ++ layout.keySeparator ++ write layout (level + 1) v) :: writeMembers layout level ms

end

def inKeyOrder (m m' : Text × Value) : Prop := m.1 ≤ m'.1

instance : DecidableRel inKeyOrder := fun m m' => inferInstanceAs (Decidable (m.1 ≤ m'.1))

mutual

/-- The value with the keys of its objects in order. -/
def Value.sorted : Value → Value
  | .list vs => .list (sortedItems vs)
  | .object ms => .object ((sortedMembers ms).insertionSort inKeyOrder)
  | v => v

def sortedItems : List Value → List Value
  | [] => []
  | v :: vs => v.sorted :: sortedItems vs

def sortedMembers : List (Text × Value) → List (Text × Value)
  | [] => []
  | (key, v) :: ms => (key, v.sorted) :: sortedMembers ms

end

def Layout.arrange (layout : Layout) (v : Value) : Value := if layout.sortKeys then v.sorted else v

/-- `json.dumps(v)`; of a float only its text is kept. -/
def dumps (layout : Layout) (v : Value) : List Char := write layout 0 (layout.arrange v)

/-! ### What is read back -/

def isHigh (c : Nat) : Prop := 0xD800 ≤ c ∧ c ≤ 0xDBFF

def isLow (c : Nat) : Prop := 0xDC00 ≤ c ∧ c ≤ 0xDFFF

/-- The code points of a text are those of Unicode, and no two of them are the halves of a surrogate pair. -/
structure Joined (t : Text) : Prop where
  range : ∀ c ∈ t, c < 0x110000
  apart : t.IsChain fun high low => ¬(isHigh high ∧ isLow low)

/-- A value with at most so many levels that has no float, no repeated key, and only texts that are read back. -/
inductive Writable : Nat → Value → Prop
  | null {limit : Nat} : Writable limit .null
  | bool {limit : Nat} (b : Bool) : Writable limit (.bool b)
  | int {limit : Nat} (n : Int) : Writable limit (.int n)
  | str {limit : Nat} {t : Text} (h : Joined t) : Writable limit (.str t)
  | list {limit : Nat} {vs : List Value} (h : ∀ v ∈ vs, Writable limit v) : Writable (limit + 1) (.list vs)
  | object {limit : Nat} {ms : List (Text × Value)} (hkeys : (ms.map Prod.fst).Nodup) (hjoined : ∀ m ∈ ms, Joined m.1)
      (h : ∀ m ∈ ms, Writable limit m.2) : Writable (limit + 1) (.object ms)

theorem Writable.mono {limit limit' : Nat} {v : Value} (h : Writable limit v) (hle : limit ≤ limit') :
    Writable limit' v := by
  induction h generalizing limit' with
  | null => exact .null
  | bool b => exact .bool b
  | int n => exact .int n
  | str h => exact .str h
  | list h ih =>
    obtain ⟨n, rfl⟩ : ∃ n, limit' = n + 1 := ⟨limit' - 1, by omega⟩
    exact .list fun v hv => ih v hv (by omega)
  | object hkeys hjoined h ih =>
    obtain ⟨n, rfl⟩ : ∃ n, limit' = n + 1 := ⟨limit' - 1, by omega⟩
    exact .object hkeys hjoined fun m hm => ih m hm (by omega)

/-- A scanner reads something from the front of a text and leaves the rest. -/
def Reads {α : Type} (scan : Scanner α) (cs : List Char) (a : α) (rest : List Char) : Prop :=
  ∃ h, scan cs = .ok (a, ⟨rest, h⟩)

/-! ### Reading a text -/

private theorem hexValue_digitChar {n : Nat} (h : n < 16) : hexValue (Nat.digitChar n) = some n := by
  have hall : ∀ m : Fin 16, hexValue (Nat.digitChar m) = some m.1 := by decide
  exact hall ⟨n, h⟩

private theorem hexUnit_digits {unit : Nat} (h : unit < 0x10000) :
    hexUnit (Nat.digitChar (unit / 4096)) (Nat.digitChar (unit / 256 % 16)) (Nat.digitChar (unit / 16 % 16))
      (Nat.digitChar (unit % 16)) = some unit := by
  have hvalue : unit / 4096 * 4096 + unit / 256 % 16 * 256 + unit / 16 % 16 * 16 + unit % 16 = unit := by omega
  unfold hexUnit
  rw [hexValue_digitChar (by omega), hexValue_digitChar (by omega), hexValue_digitChar (by omega),
    hexValue_digitChar (by omega)]
  exact congrArg some hvalue

section

variable {cs rest : List Char} {us : Text}

private theorem Reads.escapeUnit (h : Reads scanUnits cs us rest) (unit : Nat) (hunit : unit < 0x10000) :
    Reads scanUnits (escapeUnit unit ++ cs) (unit :: us) rest := by
  obtain ⟨hlt, h⟩ := h
  refine ⟨Nat.lt_of_lt_of_le hlt (by simp), ?_⟩
  show scanUnits ('\\' :: 'u' :: _ :: _ :: _ :: _ :: cs) = _
  rw [scanUnits, hexUnit_digits hunit, h]
  rfl

private theorem Reads.escaped (h : Reads scanUnits cs us rest) {c : Char} {unit : Nat} (hc : c ≠ 'u')
    (hunit : escaped c = some unit) : Reads scanUnits ('\\' :: c :: cs) (unit :: us) rest := by
  obtain ⟨hlt, h⟩ := h
  refine ⟨Nat.lt_of_lt_of_le hlt (by simp only [List.length_cons]; omega), ?_⟩
  rw [scanUnits]
  · rw [hunit, h]
    rfl
  · rintro _ _ _ _ _ hu -
    exact hc hu

private theorem Reads.plain (h : Reads scanUnits cs us rest) {c : Char} (hquote : c ≠ '"') (hslash : c ≠ '\\')
    (hc : 0x20 ≤ c.toNat) : Reads scanUnits (c :: cs) (c.toNat :: us) rest := by
  obtain ⟨hlt, h⟩ := h
  refine ⟨Nat.lt_of_lt_of_le hlt (Nat.le_succ _), ?_⟩
  rw [scanUnits]
  · rw [h]
    have hplain : ¬((decide (c = '\\') || decide (c.toNat < 32)) = true) := by
      simp [hslash, Nat.not_lt.2 hc]
    rw [if_neg hplain]
    rfl
  · exact hquote
  · rintro _ _ _ _ _ hu -
    exact hslash hu
  · rintro _ _ hu -
    exact hslash hu

private theorem escapeLetter_spec {c : Nat} {letter : Char} (h : escapeLetter c = some letter) :
    letter ≠ 'u' ∧ escaped letter = some c ∧ c < 0x10000 := by
  unfold escapeLetter at h
  split_ifs at h <;> cases h <;> subst c <;> decide

/-- Each escape is read as the units of the character that it is for. -/
private theorem Reads.escape (h : Reads scanUnits cs us rest) {c : Nat} (hc : c < 0x110000) :
    Reads scanUnits (escape c ++ cs) (units c ++ us) rest := by
  unfold JsonText.escape
  cases hletter : escapeLetter c with
  | some letter =>
    obtain ⟨hu, hunit, hsmall⟩ := escapeLetter_spec hletter
    have hunits : units c = [c] := if_pos hsmall
    rw [hunits]
    exact h.escaped hu hunit
  | none =>
    dsimp only
    by_cases hplain : 32 ≤ c ∧ c ≤ 126
    · have hunits : units c = [c] := if_pos (by omega)
      have hnat : (Char.ofNat c).toNat = c := by
        rw [Char.ofNat, dif_pos (Or.inl (by omega))]
        rfl
      rw [if_pos hplain, hunits]
      have hquote : Char.ofNat c ≠ '"' := by
        intro heq
        rw [← hnat, heq] at hletter
        cases hletter
      have hslash : Char.ofNat c ≠ '\\' := by
        intro heq
        rw [← hnat, heq] at hletter
        cases hletter
      have hread := h.plain hquote hslash (by omega)
      rwa [hnat] at hread
    rw [if_neg hplain]
    unfold units
    split
    · simpa using h.escapeUnit c (by omega)
    · have hlow := h.escapeUnit (0xDC00 + (c - 0x10000) % 0x400) (by omega)
      simpa using hlow.escapeUnit (0xD800 + (c - 0x10000) / 0x400) (by omega)

private theorem reads_escapes (t : Text) (ht : ∀ c ∈ t, c < 0x110000) (rest : List Char) :
    Reads scanUnits (t.flatMap escape ++ '"' :: rest) (t.flatMap units) rest := by
  induction t with
  | nil =>
    refine ⟨Nat.lt_succ_self _, ?_⟩
    show scanUnits ('"' :: rest) = _
    rw [scanUnits]
    rfl
  | cons c t ih =>
    rw [List.flatMap_cons, List.flatMap_cons, List.append_assoc]
    exact (ih fun d hd => ht d (List.mem_cons_of_mem _ hd)).escape (ht c (List.mem_cons_self ..))

end

private theorem joinSurrogates_cons {c : Nat} {us : Text} (h : ∀ d, us.head? = some d → ¬(isHigh c ∧ isLow d)) :
    joinSurrogates (c :: us) = c :: joinSurrogates us := by
  cases us with
  | nil => simp [joinSurrogates]
  | cons d us =>
    have hpair := h d rfl
    unfold isHigh isLow at hpair
    rw [joinSurrogates, if_neg]
    simp only [Bool.and_eq_true, decide_eq_true_eq]
    omega

private theorem joinSurrogates_pair {high low : Nat} (hhigh : isHigh high) (hlow : isLow low) (us : Text) :
    joinSurrogates (high :: low :: us) =
      (0x10000 + (high - 0xD800) * 0x400 + (low - 0xDC00)) :: joinSurrogates us := by
  unfold isHigh at hhigh
  unfold isLow at hlow
  rw [joinSurrogates, if_pos]
  simp only [Bool.and_eq_true, decide_eq_true_eq]
  omega

/-- The units of a text are joined to its characters. -/
theorem joinSurrogates_units {t : Text} (h : Joined t) : joinSurrogates (t.flatMap units) = t := by
  obtain ⟨hrange, hapart⟩ := h
  induction t with
  | nil => rfl
  | cons c t ih =>
    have hrest := ih (fun d hd => hrange d (List.mem_cons_of_mem _ hd)) hapart.tail
    have hc := hrange c (List.mem_cons_self ..)
    rw [List.flatMap_cons]
    by_cases hsmall : c < 0x10000
    · have hunits : units c = [c] := if_pos hsmall
      rw [hunits, List.singleton_append, joinSurrogates_cons, hrest]
      intro d hd hpair
      cases t with
      | nil => cases hd
      | cons e t =>
        -- the first unit of a character outside the plane is a high one
        rw [List.flatMap_cons] at hd
        unfold units at hd
        split at hd
        · obtain rfl : e = d := by simpa using hd
          rw [List.isChain_cons_cons] at hapart
          exact hapart.1 hpair
        · have hlow := hpair.2
          have he := hrange e (by simp)
          simp only [List.cons_append, List.head?_cons, Option.some.injEq] at hd
          unfold isLow at hlow
          omega
    · have hunits : units c = [0xD800 + (c - 0x10000) / 0x400, 0xDC00 + (c - 0x10000) % 0x400] := if_neg hsmall
      rw [hunits]
      have hhigh : isHigh (0xD800 + (c - 0x10000) / 0x400) := by
        unfold isHigh
        omega
      have hlow : isLow (0xDC00 + (c - 0x10000) % 0x400) := by
        unfold isLow
        omega
      have hpair := joinSurrogates_pair hhigh hlow (t.flatMap units)
      have hvalue : 0x10000 + (0xD800 + (c - 0x10000) / 0x400 - 0xD800) * 0x400 +
          (0xDC00 + (c - 0x10000) % 0x400 - 0xDC00) = c := by omega
      rw [hvalue, hrest] at hpair
      exact hpair

/-- A text is read from its literal. -/
theorem reads_quote {t : Text} (h : Joined t) (rest : List Char) : Reads scanKey (quote t ++ rest) t rest := by
  obtain ⟨hlt, hunits⟩ := reads_escapes t h.range rest
  have hquote : quote t ++ rest = '"' :: (t.flatMap escape ++ '"' :: rest) := by simp [quote]
  rw [hquote]
  refine ⟨Nat.lt_succ_of_lt hlt, ?_⟩
  rw [scanKey, hunits]
  show Except.ok _ = _
  rw [joinSurrogates_units h]
  rfl

/-! ### Reading a number -/

private theorem head_toDigits {n : Nat} (hn : n ≠ 0) : (Nat.toDigits 10 n).head? ≠ some '0' := by
  induction n using Nat.strongRecOn with
  | ind n ih =>
    by_cases hlt : n < 10
    · rw [Nat.toDigits_of_lt_base hlt]
      have hall : ∀ m : Fin 10, m.1 ≠ 0 → Nat.digitChar m ≠ '0' := by decide
      simpa using hall ⟨n, hlt⟩ hn
    · rw [Nat.toDigits_of_base_le (by decide) (by omega), List.head?_append]
      have hdiv := ih (n / 10) (by omega) (by omega)
      cases hhead : (Nat.toDigits 10 (n / 10)).head? with
      | none => simp [Nat.toDigits_ne_nil] at hhead
      | some c => simpa [hhead] using hdiv

private theorem isDigit_of_mem {n : Nat} {c : Char} (h : c ∈ Nat.toDigits 10 n) : isDigit c = true := by
  have hdigit := Nat.isDigit_of_mem_toDigits (by decide) (by decide) h
  simpa [Char.isDigit, isDigit, Char.le_def] using hdigit

/-- What may follow a number: no digit, no point and no letter of an exponent. -/
def Delimited (rest : List Char) : Prop := ∀ c, rest.head? = some c → isDigit c = false ∧ c ≠ '.' ∧ c ≠ 'e' ∧ c ≠ 'E'

section

variable {rest : List Char}

private theorem Delimited.takeWhile (h : Delimited rest) : rest.takeWhile isDigit = [] := by
  cases rest with
  | nil => rfl
  | cons c cs => rw [List.takeWhile_cons, if_neg (by simp [(h c rfl).1])]

private theorem Delimited.fraction (h : Delimited rest) : fraction rest = [] := by
  cases rest with
  | nil => rfl
  | cons c cs =>
    unfold JsonText.fraction
    split
    · rename_i heq
      cases heq
      exact absurd rfl (h '.' rfl).2.1
    · rfl

private theorem Delimited.exponent (h : Delimited rest) : exponent rest = [] := by
  cases rest with
  | nil => rfl
  | cons c cs =>
    obtain ⟨-, -, he, hE⟩ := h c rfl
    simp [JsonText.exponent, he, hE]

private theorem takeWhile_digits {ds : List Char} (hds : ∀ c ∈ ds, isDigit c = true) (h : Delimited rest) :
    (ds ++ rest).takeWhile isDigit = ds := by
  rw [List.takeWhile_append_of_pos hds, h.takeWhile, List.append_nil]

private theorem natOf_toDigits (n : Nat) : natOf (Nat.toDigits 10 n) = n := Nat.ofDigitChars_ten_toDigits

theorem reads_number (negative : Bool) (n : Nat) (h : Delimited rest) :
    Reads (scanNumber negative) (Nat.toDigits 10 n ++ rest) (.int (if negative then -n else n)) rest := by
  cases hdigits : Nat.toDigits 10 n with
  | nil => exact absurd hdigits Nat.toDigits_ne_nil
  | cons c ds =>
    have hall : ∀ d ∈ c :: ds, isDigit d = true := fun d hd => isDigit_of_mem (hdigits ▸ hd)
    have hvalue : natOf (c :: ds) = n := hdigits ▸ natOf_toDigits n
    -- only the digits of zero start with a zero
    have hwhole : (if c = '0' then [] else (ds ++ rest).takeWhile isDigit) = ds := by
      split
      · rename_i hzero
        by_cases hn : n = 0
        · rw [hn, Nat.toDigits_zero] at hdigits
          exact (List.cons.inj hdigits).2
        · have hhead := head_toDigits hn
          rw [hdigits, hzero] at hhead
          exact absurd rfl hhead
      · exact takeWhile_digits (fun d hd => hall d (List.mem_cons_of_mem _ hd)) h
    refine ⟨by simp only [List.cons_append, List.length_cons, List.length_append]; omega, ?_⟩
    show scanNumber negative (c :: (ds ++ rest)) = _
    rw [scanNumber, if_pos (hall c (List.mem_cons_self ..))]
    simp only [hwhole, List.drop_left, h.fraction, h.exponent, List.length_nil, Nat.add_zero, hvalue, List.isEmpty_nil,
      Bool.and_self, if_true]

end

/-! ### Reading a constant -/

/-- No constant starts as the text does. -/
private theorem scanConstant_eq_none {cs : List Char} (h : ∀ word ∈ constants, ¬word.1.toList.isPrefixOf cs = true) :
    scanConstant cs = none := by
  unfold scanConstant
  rw [List.findSome?_eq_none_iff]
  intro word hword
  exact dif_neg fun hfound => h word hword hfound.1

private theorem scanConstant_digit {c : Char} (hc : isDigit c = true) (cs : List Char) :
    scanConstant (c :: cs) = none := by
  refine scanConstant_eq_none fun word hword hfirst => ?_
  simp only [constants, List.mem_cons, List.not_mem_nil, or_false] at hword
  rcases hword with rfl | rfl | rfl | rfl | rfl | rfl <;> simp at hfirst <;> rw [← hfirst.1] at hc <;> cases hc

private theorem scanConstant_negative {c : Char} (hc : isDigit c = true) (cs : List Char) :
    scanConstant ('-' :: c :: cs) = none := by
  refine scanConstant_eq_none fun word hword hfirst => ?_
  simp only [constants, List.mem_cons, List.not_mem_nil, or_false] at hword
  rcases hword with rfl | rfl | rfl | rfl | rfl | rfl <;> simp at hfirst
  rw [← hfirst.1] at hc
  cases hc

/-! ### Reading a list or an object -/

section

variable {scan : Scanner Value} {cs rest more : List Char}

private theorem Reads.lastItem {v : Value} (h : Reads scan cs v more) (hmore : skipSpace more = ']' :: rest) :
    Reads (scanItems scan) cs [v] rest := by
  obtain ⟨hlt, h⟩ := h
  refine ⟨length_skipSpace_lt hmore (Nat.le_of_lt hlt), ?_⟩
  rw [scanItems, h]
  dsimp only [bind, Except.bind]
  split
  · rename_i heq
    rw [hmore] at heq
    cases heq
    rfl
  · rename_i heq
    rw [hmore] at heq
    cases heq
  · rename_i hlast _
    exact absurd hmore (hlast _)

private theorem Reads.nextItem {v : Value} {vs : List Value} {after : List Char} (h : Reads scan cs v more)
    (hmore : skipSpace more = ',' :: after) (hvs : Reads (scanItems scan) (skipSpace after) vs rest) :
    Reads (scanItems scan) cs (v :: vs) rest := by
  obtain ⟨hlt, h⟩ := h
  obtain ⟨hltvs, hvs⟩ := hvs
  have hafter := length_skipSpace_lt hmore (Nat.le_of_lt hlt)
  refine ⟨Nat.lt_trans hltvs (Nat.lt_of_le_of_lt (length_skipSpace_le after) hafter), ?_⟩
  rw [scanItems, h]
  dsimp only [bind, Except.bind]
  split
  · rename_i heq
    rw [hmore] at heq
    cases heq
  · rename_i heq
    rw [hmore] at heq
    cases heq
    unfold skipOne
    dsimp only
    rw [hvs]
    rfl
  · rename_i hnext
    exact absurd hmore (hnext _)

private theorem Reads.lastMember {key : Text} {v : Value} {behind after : List Char}
    (hkey : Reads scanKey cs key behind)
    (hcolon : skipSpace behind = ':' :: after) (h : Reads scan (skipSpace after) v more)
    (hmore : skipSpace more = '\x7d' :: rest) : Reads (scanMembers scan) cs [(key, v)] rest := by
  obtain ⟨hltkey, hkey⟩ := hkey
  obtain ⟨hlt, h⟩ := h
  have hafter := length_skipSpace_lt hcolon (Nat.le_of_lt hltkey)
  have hspace := length_skipSpace_le after
  refine ⟨length_skipSpace_lt hmore (by omega), ?_⟩
  rw [scanMembers, hkey]
  dsimp only [bind, Except.bind]
  split
  · rename_i heq
    rw [hcolon] at heq
    cases heq
    unfold skipOne
    dsimp only
    rw [h]
    dsimp only [Rest.within]
    split
    · rename_i heq
      rw [hmore] at heq
      cases heq
      rfl
    · rename_i heq
      rw [hmore] at heq
      cases heq
    · rename_i hlast _
      exact absurd hmore (hlast _)
  · rename_i hnone
    exact absurd hcolon (hnone _)

private theorem Reads.nextMember {key : Text} {v : Value} {ms : List (Text × Value)} {behind after next : List Char}
    (hkey : Reads scanKey cs key behind) (hcolon : skipSpace behind = ':' :: after)
    (h : Reads scan (skipSpace after) v more) (hmore : skipSpace more = ',' :: next)
    (hms : Reads (scanMembers scan) (skipSpace next) ms rest) :
    Reads (scanMembers scan) cs ((key, v) :: ms) rest := by
  obtain ⟨hltkey, hkey⟩ := hkey
  obtain ⟨hlt, h⟩ := h
  obtain ⟨hltms, hms⟩ := hms
  have hafter := length_skipSpace_lt hcolon (Nat.le_of_lt hltkey)
  have hspace := length_skipSpace_le after
  have hnext := length_skipSpace_lt hmore (Nat.le_of_lt hlt)
  have hspace' := length_skipSpace_le next
  refine ⟨by omega, ?_⟩
  rw [scanMembers, hkey]
  dsimp only [bind, Except.bind]
  split
  · rename_i heq
    rw [hcolon] at heq
    cases heq
    unfold skipOne
    dsimp only
    rw [h]
    dsimp only [Rest.within]
    split
    · rename_i heq
      rw [hmore] at heq
      cases heq
    · rename_i heq
      rw [hmore] at heq
      cases heq
      rw [hms]
      rfl
    · rename_i hlast
      exact absurd hmore (hlast _)
  · rename_i hnone
    exact absurd hcolon (hnone _)

private theorem Reads.list {vs : List Value} (h : Reads (scanItems scan) (skipSpace cs) vs rest)
    (hfirst : (skipSpace cs).head? ≠ some ']') : Reads (scanList scan) cs (.list vs) rest := by
  obtain ⟨hlt, h⟩ := h
  refine ⟨Nat.lt_of_lt_of_le hlt (length_skipSpace_le cs), ?_⟩
  unfold scanList
  split
  · rename_i heq
    rw [heq] at hfirst
    exact absurd rfl hfirst
  · rw [h]
    rfl

private theorem Reads.object {ms : List (Text × Value)} (h : Reads (scanMembers scan) (skipSpace cs) ms rest)
    (hfirst : (skipSpace cs).head? ≠ some '\x7d') (hkeys : (ms.map Prod.fst).Nodup) :
    Reads (scanObject scan) cs (.object ms) rest := by
  have hitems : ms.foldl (fun d kv => Dict.set d kv.1 kv.2) [] = ms := Dict.foldl_set_append ms [] hkeys
  obtain ⟨hlt, h⟩ := h
  refine ⟨Nat.lt_of_lt_of_le hlt (length_skipSpace_le cs), ?_⟩
  unfold scanObject
  split
  · rename_i heq
    rw [heq] at hfirst
    exact absurd rfl hfirst
  · rw [h]
    show Except.ok (Value.object (ms.foldl _ []), _) = _
    rw [hitems]
    rfl

end

/-! ### Reading a value -/

section

variable {layout : Layout} {level : Nat} {rest : List Char}

private theorem skipSpace_append {spaces : List Char} (h : ∀ c ∈ spaces, isSpace c = true) (cs : List Char) :
    skipSpace (spaces ++ cs) = skipSpace cs := by
  unfold skipSpace
  rw [List.dropWhile_append_of_pos h]

private theorem skipSpace_cons {c : Char} (h : isSpace c = false) (cs : List Char) : skipSpace (c :: cs) = c :: cs := by
  unfold skipSpace
  rw [List.dropWhile_cons, if_neg (by simp [h])]

private theorem isSpace_of_mem_newline {c : Char} (h : c ∈ layout.newline level) : isSpace c = true := by
  unfold Layout.newline at h
  split at h
  · cases h
  · rcases List.mem_cons.1 h with rfl | h
    · rfl
    · rw [List.eq_of_mem_replicate h]
      rfl

private theorem skipSpace_newline (cs : List Char) : skipSpace (layout.newline level ++ cs) = skipSpace cs :=
  skipSpace_append (fun _ hc => isSpace_of_mem_newline hc) cs

private theorem writeItems_eq_map (vs : List Value) :
    writeItems layout level vs = vs.map (write layout (level + 1)) := by
  induction vs with
  | nil => simp [writeItems]
  | cons v vs ih => simp [writeItems, ih]

/-- A key and its value. -/
def writeMember (layout : Layout) (level : Nat) (m : Text × Value) : List Char :=
  quote m.1 ++ layout.keySeparator ++ write layout level m.2

private theorem writeMembers_eq_map (ms : List (Text × Value)) :
    writeMembers layout level ms = ms.map (writeMember layout (level + 1)) := by
  induction ms with
  | nil => simp [writeMembers]
  | cons m ms ih => simp [writeMembers, ih, writeMember]

/-- A text starts with neither white space, nor a bracket that closes something, nor a mark of the byte order. -/
def Starts (cs : List Char) : Prop :=
  ∃ c more, cs = c :: more ∧ isSpace c = false ∧ c ≠ ']' ∧ c ≠ '\x7d' ∧ c ≠ Char.ofNat 0xFEFF

private theorem Starts.append {cs : List Char} (h : Starts cs) (more : List Char) : Starts (cs ++ more) := by
  obtain ⟨c, ds, rfl, hc⟩ := h
  exact ⟨c, ds ++ more, rfl, hc⟩

private theorem Starts.skipSpace {cs : List Char} (h : Starts cs) : skipSpace cs = cs := by
  obtain ⟨c, ds, rfl, hc, -⟩ := h
  exact skipSpace_cons hc ds

private theorem Starts.head?_ne {cs : List Char} (h : Starts cs) :
    cs.head? ≠ some ']' ∧ cs.head? ≠ some '\x7d' ∧ cs.head? ≠ some (Char.ofNat 0xFEFF) := by
  obtain ⟨c, ds, rfl, -, hlist, hobject, hmark⟩ := h
  refine ⟨fun heq => hlist ?_, fun heq => hobject ?_, fun heq => hmark ?_⟩
  · exact Option.some.inj heq
  · exact Option.some.inj heq
  · exact Option.some.inj heq

private theorem starts_digits (n : Nat) : Starts (Nat.toDigits 10 n) := by
  cases hdigits : Nat.toDigits 10 n with
  | nil => exact absurd hdigits Nat.toDigits_ne_nil
  | cons c ds =>
    have hc : isDigit c = true := isDigit_of_mem (hdigits ▸ List.mem_cons_self ..)
    refine ⟨c, ds, rfl, ?_, ?_, ?_, ?_⟩
    · by_contra hspace
      simp only [isSpace, Bool.or_eq_true, decide_eq_true_eq, Bool.not_eq_false] at hspace
      rcases hspace with ((rfl | rfl) | rfl) | rfl <;> cases hc
    · rintro rfl
      cases hc
    · rintro rfl
      cases hc
    · rintro rfl
      cases hc

private theorem starts_write {limit : Nat} {v : Value} (h : Writable limit v) (layout : Layout) (level : Nat) :
    Starts (write layout level v) := by
  cases h with
  | null => exact ⟨'n', "ull".toList, by simp [write], by decide, by decide, by decide, by decide⟩
  | bool b =>
    cases b with
    | false => exact ⟨'f', "alse".toList, by simp [write], by decide, by decide, by decide, by decide⟩
    | true => exact ⟨'t', "rue".toList, by simp [write], by decide, by decide, by decide, by decide⟩
  | int n =>
    unfold write
    split
    · exact ⟨'-', _, rfl, by decide, by decide, by decide, by decide⟩
    · exact starts_digits n.natAbs
  | str h =>
    unfold write quote
    exact ⟨'"', _, rfl, by decide, by decide, by decide, by decide⟩
  | list h =>
    unfold write Layout.enclose
    split
    · exact ⟨'[', _, rfl, by decide, by decide, by decide, by decide⟩
    · exact ⟨'[', _, rfl, by decide, by decide, by decide, by decide⟩
  | object hkeys hjoined h =>
    unfold write Layout.enclose
    split
    · exact ⟨'\x7b', _, rfl, by decide, by decide, by decide, by decide⟩
    · exact ⟨'\x7b', _, rfl, by decide, by decide, by decide, by decide⟩

private theorem starts_writeMember (layout : Layout) (level : Nat) (m : Text × Value) :
    Starts (writeMember layout level m) := by
  unfold writeMember quote
  exact ⟨'"', _, rfl, by decide, by decide, by decide, by decide⟩

/-- What follows the items of a list or an object is no part of a number. -/
private theorem delimited_of_skipSpace {cs more : List Char} {c : Char} (h : skipSpace cs = c :: more)
    (hc : isDigit c = false ∧ c ≠ '.' ∧ c ≠ 'e' ∧ c ≠ 'E') : Delimited cs := by
  cases cs with
  | nil => cases h
  | cons d ds =>
    rintro _ ⟨⟩
    by_cases hspace : isSpace d = true
    · simp only [isSpace, Bool.or_eq_true, decide_eq_true_eq] at hspace
      rcases hspace with ((rfl | rfl) | rfl) | rfl <;> decide
    · rw [skipSpace_cons (by simpa using hspace)] at h
      obtain ⟨rfl, -⟩ := List.cons.inj h
      exact hc

private theorem Layout.Proper.skipSpace_item (hlayout : layout.Proper) (level : Nat) {cs : List Char}
    (hcs : Starts cs) :
    ∃ after, skipSpace (layout.itemSeparator ++ layout.newline level ++ cs) = ',' :: after ∧ skipSpace after = cs := by
  obtain ⟨spaces, hseparator, hspaces⟩ := hlayout.item
  refine ⟨spaces ++ (layout.newline level ++ cs), ?_, ?_⟩
  · rw [hseparator, List.append_assoc, List.cons_append]
    exact skipSpace_cons (by decide) _
  · rw [skipSpace_append hspaces, skipSpace_newline, hcs.skipSpace]

private theorem Layout.Proper.skipSpace_key (hlayout : layout.Proper) {cs : List Char} (hcs : Starts cs) :
    ∃ after, skipSpace (layout.keySeparator ++ cs) = ':' :: after ∧ skipSpace after = cs := by
  obtain ⟨spaces, hseparator, hspaces⟩ := hlayout.key
  refine ⟨spaces ++ cs, ?_, ?_⟩
  · rw [hseparator, List.cons_append]
    exact skipSpace_cons (by decide) _
  · rw [skipSpace_append hspaces, hcs.skipSpace]

private theorem Starts.intercalate {first : List Char} (h : Starts first) (separator : List Char)
    (more : List (List Char)) :
    Starts (separator.intercalate (first :: more)) := by
  cases more with
  | nil =>
    rw [List.intercalate_singleton]
    exact h
  | cons next more =>
    rw [List.intercalate_cons_cons, List.append_assoc]
    exact h.append _

/-- The items of a list are read up to the bracket behind them. -/
private theorem reads_items {scan : Scanner Value} (hlayout : layout.Proper) {first : Value} {vs : List Value}
    (hstarts : ∀ v ∈ first :: vs, Starts (write layout level v))
    (hscan : ∀ v ∈ first :: vs, ∀ cs, Delimited cs → Reads scan (write layout level v ++ cs) v cs)
    {last : List Char} (hlast : skipSpace last = ']' :: rest) :
    Reads (scanItems scan) ((layout.itemSeparator ++ layout.newline level).intercalate
      ((first :: vs).map (write layout level)) ++ last) (first :: vs) rest := by
  induction vs generalizing first with
  | nil =>
    rw [List.map_singleton, List.intercalate_singleton]
    exact (hscan first (List.mem_cons_self ..) last (delimited_of_skipSpace hlast (by decide))).lastItem hlast
  | cons v vs ih =>
    have hrest := ih (fun w hw => hstarts w (List.mem_cons_of_mem _ hw)) fun w hw => hscan w (List.mem_cons_of_mem _ hw)
    have hv := hstarts v (List.mem_cons_of_mem _ (List.mem_cons_self ..))
    obtain ⟨after, hcomma, hafter⟩ := hlayout.skipSpace_item level ((hv.intercalate
      (layout.itemSeparator ++ layout.newline level) (vs.map (write layout level))).append last)
    rw [List.map_cons, List.map_cons, List.intercalate_cons_cons, List.append_assoc, List.append_assoc]
    refine (hscan first (List.mem_cons_self ..) _ (delimited_of_skipSpace hcomma (by decide))).nextItem hcomma ?_
    rw [hafter]
    exact hrest

private theorem reads_members {scan : Scanner Value} (hlayout : layout.Proper) {first : Text × Value}
    {ms : List (Text × Value)} (hjoined : ∀ m ∈ first :: ms, Joined m.1)
    (hstarts : ∀ m ∈ first :: ms, Starts (write layout level m.2))
    (hscan : ∀ m ∈ first :: ms, ∀ cs, Delimited cs → Reads scan (write layout level m.2 ++ cs) m.2 cs)
    {last : List Char} (hlast : skipSpace last = '\x7d' :: rest) :
    Reads (scanMembers scan) ((layout.itemSeparator ++ layout.newline level).intercalate
      ((first :: ms).map (writeMember layout level)) ++ last) (first :: ms) rest := by
  -- a member is read with whatever stands behind it
  have hmember : ∀ m ∈ first :: ms, ∀ cs, Delimited cs → ∃ behind after,
      Reads scanKey (writeMember layout level m ++ cs) m.1 behind ∧ skipSpace behind = ':' :: after ∧
        Reads scan (skipSpace after) m.2 cs := by
    intro m hm cs hcs
    obtain ⟨after, hcolon, hafter⟩ := hlayout.skipSpace_key ((hstarts m hm).append cs)
    refine ⟨_, after, ?_, hcolon, ?_⟩
    · unfold writeMember
      rw [List.append_assoc, List.append_assoc]
      exact reads_quote (hjoined m hm) _
    · rw [hafter]
      exact hscan m hm cs hcs
  clear hstarts hjoined hscan
  induction ms generalizing first with
  | nil =>
    obtain ⟨behind, after, hkey, hcolon, hvalue⟩ :=
      hmember first (List.mem_cons_self ..) last (delimited_of_skipSpace hlast (by decide))
    rw [List.map_singleton, List.intercalate_singleton]
    exact hkey.lastMember hcolon hvalue hlast
  | cons m ms ih =>
    have hrest := ih fun w hw => hmember w (List.mem_cons_of_mem _ hw)
    have hm := starts_writeMember layout level m
    obtain ⟨next, hcomma, hnext⟩ := hlayout.skipSpace_item level ((hm.intercalate
      (layout.itemSeparator ++ layout.newline level) (ms.map (writeMember layout level))).append last)
    obtain ⟨behind, after, hkey, hcolon, hvalue⟩ :=
      hmember first (List.mem_cons_self ..) _ (delimited_of_skipSpace hcomma (by decide))
    rw [List.map_cons, List.map_cons, List.intercalate_cons_cons, List.append_assoc, List.append_assoc]
    refine hkey.nextMember hcolon hvalue hcomma ?_
    rw [hnext]
    exact hrest

private theorem Layout.enclose_append (layout : Layout) (level : Nat) (first last : Char) (item : List Char)
    (items : List (List Char)) (rest : List Char) :
    layout.enclose level first last (item :: items) ++ rest = first :: (layout.newline (level + 1) ++
      ((layout.itemSeparator ++ layout.newline (level + 1)).intercalate (item :: items) ++
        (layout.newline level ++ last :: rest))) := by
  unfold Layout.enclose
  rw [if_neg (List.cons_ne_nil _ _)]
  simp only [List.cons_append, List.append_assoc, List.nil_append]

end

/-- The scanner for the values inside a list or an object. -/
def nestedScan : Nat → Option (Scanner Value)
  | 0 => none
  | limit + 1 => some (scanValue limit)

private theorem scanValue_eq (limit : Nat) : scanValue limit = scanWith (nestedScan limit) := by
  cases limit with
  | zero => rfl
  | succ limit => rfl

section

variable {layout : Layout} {level limit : Nat} {rest : List Char}

private theorem reads_null (nested : Option (Scanner Value)) :
    Reads (scanWith nested) ("null".toList ++ rest) .null rest := by
  refine ⟨by simp [Nat.add_assoc], ?_⟩
  simp [scanWith, scanConstant, constants]

private theorem reads_bool (nested : Option (Scanner Value)) (b : Bool) :
    Reads (scanWith nested) ((if b then "true".toList else "false".toList) ++ rest) (.bool b) rest := by
  cases b with
  | false =>
    refine ⟨by simp [Nat.add_assoc], ?_⟩
    simp [scanWith, scanConstant, constants]
  | true =>
    refine ⟨by simp [Nat.add_assoc], ?_⟩
    simp [scanWith, scanConstant, constants]

private theorem reads_int (nested : Option (Scanner Value)) (n : Int) (hrest : Delimited rest) :
    Reads (scanWith nested) ((if n < 0 then ['-'] else []) ++ Nat.toDigits 10 n.natAbs ++ rest) (.int n) rest := by
  have hnumber := reads_number (decide (n < 0)) n.natAbs hrest
  cases hdigits : Nat.toDigits 10 n.natAbs with
  | nil => exact absurd hdigits Nat.toDigits_ne_nil
  | cons c ds =>
    have hc : isDigit c = true := isDigit_of_mem (hdigits ▸ List.mem_cons_self ..)
    rw [hdigits, List.cons_append] at hnumber
    obtain ⟨hlt, hnumber⟩ := hnumber
    have hsymbol : c ≠ '"' ∧ c ≠ '[' ∧ c ≠ '\x7b' ∧ c ≠ '-' := by
      refine ⟨?_, ?_, ?_, ?_⟩ <;> rintro rfl <;> cases hc
    by_cases hn : n < 0
    · have hvalue : (-(n.natAbs : Int)) = n := by omega
      simp only [hn, decide_true, if_true, hvalue] at hnumber
      rw [if_pos hn]
      show Reads (scanWith nested) ('-' :: c :: (ds ++ rest)) _ _
      refine ⟨Nat.lt_succ_of_lt hlt, ?_⟩
      unfold scanWith
      dsimp only
      rw [if_neg (by decide), if_neg (by decide), scanConstant_negative hc]
      dsimp only
      rw [if_pos rfl, hnumber]
      rfl
    · have hvalue : (n.natAbs : Int) = n := by omega
      simp only [hn, decide_false, hvalue, Bool.false_eq_true, if_false] at hnumber
      rw [if_neg hn]
      show Reads (scanWith nested) (c :: (ds ++ rest)) _ _
      refine ⟨hlt, ?_⟩
      unfold scanWith
      dsimp only
      rw [if_neg hsymbol.1, if_neg (by simp [hsymbol.2.1, hsymbol.2.2.1]), scanConstant_digit hc]
      dsimp only
      rw [if_neg hsymbol.2.2.2]
      exact hnumber

private theorem Reads.text {cs : List Char} {t : Text} {ds : List Char} (h : Reads scanKey cs t rest)
    (hcs : cs = '"' :: ds) (nested : Option (Scanner Value)) : Reads (scanWith nested) cs (.str t) rest := by
  obtain ⟨hlt, h⟩ := h
  subst hcs
  refine ⟨hlt, ?_⟩
  unfold scanWith
  simp only [if_true]
  rw [h]
  rfl

private theorem Reads.bracket {scan : Scanner Value} {cs : List Char} {v : Value}
    (h : Reads (scanList scan) cs v rest) :
    Reads (scanWith (some scan)) ('[' :: cs) v rest := by
  obtain ⟨hlt, h⟩ := h
  refine ⟨Nat.lt_succ_of_lt hlt, ?_⟩
  rw [scanWith, if_neg (by decide), if_pos (by decide)]
  dsimp only
  rw [if_pos rfl, h]
  rfl

private theorem Reads.brace {scan : Scanner Value} {cs : List Char} {v : Value}
    (h : Reads (scanObject scan) cs v rest) :
    Reads (scanWith (some scan)) ('\x7b' :: cs) v rest := by
  obtain ⟨hlt, h⟩ := h
  refine ⟨Nat.lt_succ_of_lt hlt, ?_⟩
  rw [scanWith, if_neg (by decide), if_pos (by decide)]
  dsimp only
  rw [if_neg (by decide), h]
  rfl

private theorem reads_noItem {scan : Scanner Value} : Reads (scanList scan) (']' :: rest) (.list []) rest := by
  refine ⟨Nat.lt_succ_self _, ?_⟩
  have hspace : skipSpace (']' :: rest) = ']' :: rest := skipSpace_cons (by decide) rest
  unfold scanList
  split
  · rename_i heq
    rw [hspace] at heq
    cases heq
    rfl
  · rename_i hnone
    exact absurd hspace (hnone rest)

private theorem reads_noMember {scan : Scanner Value} : Reads (scanObject scan) ('\x7d' :: rest) (.object []) rest := by
  refine ⟨Nat.lt_succ_self _, ?_⟩
  have hspace : skipSpace ('\x7d' :: rest) = '\x7d' :: rest := skipSpace_cons (by decide) rest
  unfold scanObject
  split
  · rename_i heq
    rw [hspace] at heq
    cases heq
    rfl
  · rename_i hnone
    exact absurd hspace (hnone rest)

/-- A value is read with whatever stands behind it. -/
theorem reads_write {v : Value} (hlayout : layout.Proper) (h : Writable limit v) (level : Nat) {rest : List Char}
    (hrest : Delimited rest) : Reads (scanValue limit) (write layout level v ++ rest) v rest := by
  induction h generalizing level rest with
  | null =>
    rw [scanValue_eq, write]
    exact reads_null _
  | bool b =>
    rw [scanValue_eq, write]
    exact reads_bool _ b
  | int n =>
    rw [scanValue_eq, write]
    exact reads_int _ n hrest
  | str h =>
    rw [scanValue_eq, write]
    exact (reads_quote h rest).text rfl _
  | @list limit vs h ih =>
    rw [write, writeItems_eq_map]
    cases vs with
    | nil => exact reads_noItem.bracket
    | cons first vs =>
      have hstarts : ∀ v ∈ first :: vs, Starts (write layout (level + 1) v) := fun v hv =>
        starts_write (h v hv) layout _
      have hlast : skipSpace (layout.newline level ++ ']' :: rest) = ']' :: rest := by
        rw [skipSpace_newline]
        exact skipSpace_cons (by decide) rest
      have hitems := reads_items hlayout hstarts (fun v hv cs hcs => ih v hv (level + 1) hcs) hlast
      have hfirst := ((hstarts first (List.mem_cons_self ..)).intercalate
        (layout.itemSeparator ++ layout.newline (level + 1)) (vs.map (write layout (level + 1)))).append
        (layout.newline level ++ ']' :: rest)
      rw [List.map_cons, Layout.enclose_append]
      refine (Reads.list ?_ ?_).bracket
      · rw [skipSpace_newline, hfirst.skipSpace]
        exact hitems
      · rw [skipSpace_newline, hfirst.skipSpace]
        exact hfirst.head?_ne.1
  | @object limit ms hkeys hjoined h ih =>
    rw [write, writeMembers_eq_map]
    cases ms with
    | nil => exact reads_noMember.brace
    | cons first ms =>
      have hlast : skipSpace (layout.newline level ++ '\x7d' :: rest) = '\x7d' :: rest := by
        rw [skipSpace_newline]
        exact skipSpace_cons (by decide) rest
      have hmembers := reads_members hlayout hjoined (fun m hm => starts_write (h m hm) layout (level + 1))
        (fun m hm cs hcs => ih m hm (level + 1) hcs) hlast
      have hfirst := ((starts_writeMember layout (level + 1) first).intercalate
        (layout.itemSeparator ++ layout.newline (level + 1)) (ms.map (writeMember layout (level + 1)))).append
        (layout.newline level ++ '\x7d' :: rest)
      rw [List.map_cons, Layout.enclose_append]
      refine (Reads.object ?_ ?_ hkeys).brace
      · rw [skipSpace_newline, hfirst.skipSpace]
        exact hmembers
      · rw [skipSpace_newline, hfirst.skipSpace]
        exact hfirst.head?_ne.2.1

end

/-! ### Sorted keys -/

private theorem sortedItems_eq_map (vs : List Value) : sortedItems vs = vs.map Value.sorted := by
  induction vs with
  | nil => simp [sortedItems]
  | cons v vs ih => simp [sortedItems, ih]

theorem sortedMembers_eq_map (ms : List (Text × Value)) :
    sortedMembers ms = ms.map fun m => (m.1, m.2.sorted) := by
  induction ms with
  | nil => simp [sortedMembers]
  | cons m ms ih => simp [sortedMembers, ih]

theorem Writable.sorted {limit : Nat} {v : Value} (h : Writable limit v) : Writable limit v.sorted := by
  induction h with
  | null => exact .null
  | bool b => exact .bool b
  | int n => exact .int n
  | str h => exact .str h
  | list h ih =>
    rw [Value.sorted, sortedItems_eq_map]
    exact .list (by simpa using ih)
  | @object limit ms hkeys hjoined h ih =>
    rw [Value.sorted, sortedMembers_eq_map]
    have hperm := (ms.map fun m => (m.1, m.2.sorted)).perm_insertionSort inKeyOrder
    have hmem : ∀ m, m ∈ (ms.map fun m => (m.1, m.2.sorted)).insertionSort inKeyOrder ↔
        ∃ m' ∈ ms, (m'.1, m'.2.sorted) = m := fun m => by rw [hperm.mem_iff, List.mem_map]
    refine .object ?_ (fun m hm => ?_) fun m hm => ?_
    · rw [(hperm.map Prod.fst).nodup_iff, List.map_map]
      exact hkeys
    · obtain ⟨m', hm', rfl⟩ := (hmem m).1 hm
      exact hjoined m' hm'
    · obtain ⟨m', hm', rfl⟩ := (hmem m).1 hm
      exact ih m' hm'

theorem loads_of_reads {limit : Nat} {text rest : List Char} {v : Value}
    (h : Reads (scanValue limit) (skipSpace text) v rest)
    (hmark : text.head? ≠ some (Char.ofNat 0xFEFF)) (hrest : skipSpace rest = []) : loads limit text = .ok v := by
  obtain ⟨hlt, h⟩ := h
  unfold loads
  rw [if_neg hmark, h]
  show (if (skipSpace rest).isEmpty then _ else _) = _
  rw [hrest]
  rfl

/-- What is written is read back, with the keys in the order in which they are written. -/
theorem loads_dumps {layout : Layout} (hlayout : layout.Proper) {limit : Nat} {v : Value} (h : Writable limit v)
    (spaces : List Char) (hspaces : ∀ c ∈ spaces, isSpace c = true) :
    loads limit (dumps layout v ++ spaces) = .ok (layout.arrange v) := by
  have harrange : Writable limit (layout.arrange v) := by
    unfold Layout.arrange
    split
    · exact h.sorted
    · exact h
  have hend : Delimited spaces := by
    intro c hc
    have hspace := hspaces c (List.mem_of_head? hc)
    simp only [isSpace, Bool.or_eq_true, decide_eq_true_eq] at hspace
    rcases hspace with ((rfl | rfl) | rfl) | rfl <;> decide
  have hstarts := (starts_write harrange layout 0).append spaces
  have hread := reads_write hlayout harrange 0 hend
  unfold dumps
  rw [← hstarts.skipSpace] at hread
  refine loads_of_reads hread hstarts.head?_ne.2.2 ?_
  rw [← List.append_nil spaces, skipSpace_append hspaces]
  rfl

/-! ### What is written is printable -/

def Printable (c : Char) : Prop := 32 ≤ c.toNat ∧ c.toNat ≤ 126

instance (c : Char) : Decidable (Printable c) := inferInstanceAs (Decidable (_ ∧ _))

private theorem printable_digitChar {n : Nat} (h : n < 16) : Printable (Nat.digitChar n) := by
  have hall : ∀ m : Fin 16, Printable (Nat.digitChar m) := by decide
  exact hall ⟨n, h⟩

private theorem printable_escapeUnit {unit : Nat} (h : unit < 0x10000) : ∀ c ∈ escapeUnit unit, Printable c := by
  intro c hc
  simp only [escapeUnit, List.mem_cons, List.not_mem_nil, or_false] at hc
  rcases hc with rfl | rfl | rfl | rfl | rfl | rfl
  · decide
  · decide
  · exact printable_digitChar (by omega)
  · exact printable_digitChar (by omega)
  · exact printable_digitChar (by omega)
  · exact printable_digitChar (by omega)

private theorem printable_escapeLetter {c : Nat} {letter : Char} (h : escapeLetter c = some letter) :
    Printable letter := by
  unfold escapeLetter at h
  split_ifs at h <;> cases h <;> decide

private theorem printable_escape {c : Nat} (hc : c < 0x110000) : ∀ d ∈ escape c, Printable d := by
  intro d hd
  unfold escape at hd
  cases hletter : escapeLetter c with
  | some letter =>
    simp only [hletter, List.mem_cons, List.not_mem_nil, or_false] at hd
    rcases hd with rfl | rfl
    · decide
    · exact printable_escapeLetter hletter
  | none =>
    rw [hletter] at hd
    dsimp only at hd
    split at hd
    · rename_i hplain
      have hnat : (Char.ofNat c).toNat = c := by
        rw [Char.ofNat, dif_pos (Or.inl (by omega))]
        rfl
      rw [List.mem_singleton] at hd
      rw [hd, Printable, hnat]
      exact hplain
    · obtain ⟨unit, hunit, hd⟩ := List.mem_flatMap.1 hd
      refine printable_escapeUnit ?_ d hd
      unfold units at hunit
      split at hunit
      · rw [List.mem_singleton] at hunit
        omega
      · simp only [List.mem_cons, List.not_mem_nil, or_false] at hunit
        omega

private theorem printable_quote {t : Text} (h : Joined t) : ∀ c ∈ quote t, Printable c := by
  intro c hc
  unfold quote at hc
  rcases List.mem_append.1 hc with hc | hc
  · rcases List.mem_cons.1 hc with rfl | hc
    · decide
    · obtain ⟨d, hd, hc⟩ := List.mem_flatMap.1 hc
      exact printable_escape (h.range d hd) c hc
  · rw [List.mem_singleton.1 hc]
    decide

private theorem printable_of_isDigit {c : Char} (h : isDigit c = true) : Printable c := by
  simp only [isDigit, Bool.and_eq_true, decide_eq_true_eq, Char.le_def] at h
  obtain ⟨hle, hge⟩ := h
  have hle' : 48 ≤ c.toNat := hle
  have hge' : c.toNat ≤ 57 := hge
  exact ⟨by omega, by omega⟩

private theorem mem_intercalate {separator : List Char} {items : List (List Char)} {c : Char}
    (h : c ∈ separator.intercalate items) : c ∈ separator ∨ ∃ item ∈ items, c ∈ item := by
  induction items with
  | nil => cases h
  | cons item items ih =>
    cases items with
    | nil =>
      rw [List.intercalate_singleton] at h
      exact .inr ⟨item, List.mem_cons_self .., h⟩
    | cons next items =>
      rw [List.intercalate_cons_cons] at h
      rcases List.mem_append.1 h with h | h
      · rcases List.mem_append.1 h with h | h
        · exact .inr ⟨item, List.mem_cons_self .., h⟩
        · exact .inl h
      · rcases ih h with h | ⟨other, hother, h⟩
        · exact .inl h
        · exact .inr ⟨other, List.mem_cons_of_mem _ hother, h⟩

section

variable {layout : Layout} {P : Char → Prop}

/-- Every character of the layout and every printable one. -/
structure Layout.Covers (layout : Layout) (P : Char → Prop) : Prop where
  printable : ∀ c, Printable c → P c
  item : ∀ c ∈ layout.itemSeparator, P c
  key : ∀ c ∈ layout.keySeparator, P c
  newline : ∀ level, ∀ c ∈ layout.newline level, P c

private theorem Layout.Covers.enclose (hP : layout.Covers P) {first last : Char} (hfirst : P first) (hlast : P last)
    {items : List (List Char)} (hitems : ∀ item ∈ items, ∀ c ∈ item, P c) (level : Nat) :
    ∀ c ∈ layout.enclose level first last items, P c := by
  cases items with
  | nil => simpa [Layout.enclose] using And.intro hfirst hlast
  | cons item items =>
    intro c hc
    rw [← List.append_nil (layout.enclose _ _ _ _), Layout.enclose_append] at hc
    simp only [List.mem_cons, List.mem_append, List.not_mem_nil, or_false] at hc
    rcases hc with rfl | hc | hc | hc | rfl
    · exact hfirst
    · exact hP.newline _ c hc
    · rcases mem_intercalate hc with hc | ⟨other, hother, hc⟩
      · rcases List.mem_append.1 hc with hc | hc
        · exact hP.item c hc
        · exact hP.newline _ c hc
      · exact hitems other hother c hc
    · exact hP.newline _ c hc
    · exact hlast

theorem Layout.Covers.write (hP : layout.Covers P) {limit : Nat} {v : Value} (h : Writable limit v) (level : Nat) :
    ∀ c ∈ write layout level v, P c := by
  induction h generalizing level with
  | null =>
    rw [JsonText.write]
    exact fun c hc => hP.printable c (by simp at hc; rcases hc with rfl | rfl | rfl <;> decide)
  | bool b =>
    rw [JsonText.write]
    intro c hc
    refine hP.printable c ?_
    cases b with
    | false =>
      simp at hc
      rcases hc with rfl | rfl | rfl | rfl | rfl <;> decide
    | true =>
      simp at hc
      rcases hc with rfl | rfl | rfl | rfl <;> decide
  | int n =>
    rw [JsonText.write]
    intro c hc
    refine hP.printable c ?_
    rcases List.mem_append.1 hc with hc | hc
    · split at hc
      · rw [List.mem_singleton.1 hc]
        decide
      · cases hc
    · exact printable_of_isDigit (isDigit_of_mem hc)
  | str h =>
    rw [JsonText.write]
    exact fun c hc => hP.printable c (printable_quote h c hc)
  | @list limit vs h ih =>
    rw [JsonText.write, writeItems_eq_map]
    refine hP.enclose (hP.printable _ (by decide)) (hP.printable _ (by decide)) (fun item hitem => ?_) level
    obtain ⟨v, hv, rfl⟩ := List.mem_map.1 hitem
    exact ih v hv (level + 1)
  | @object limit ms hkeys hjoined h ih =>
    rw [JsonText.write, writeMembers_eq_map]
    refine hP.enclose (hP.printable _ (by decide)) (hP.printable _ (by decide)) (fun item hitem => ?_) level
    obtain ⟨m, hm, rfl⟩ := List.mem_map.1 hitem
    intro c hc
    rcases List.mem_append.1 hc with hc | hc
    · rcases List.mem_append.1 hc with hc | hc
      · exact hP.printable c (printable_quote (hjoined m hm) c hc)
      · exact hP.key c hc
    · exact ih m hm (level + 1) c hc

/-- Every character that is written is printable, or one of the layout. -/
theorem Layout.Covers.dumps (hP : layout.Covers P) {limit : Nat} {v : Value} (h : Writable limit v) :
    ∀ c ∈ dumps layout v, P c := by
  unfold JsonText.dumps Layout.arrange
  split
  · exact hP.write h.sorted 0
  · exact hP.write h 0

end

/-- A string has no surrogates. -/
theorem joined_textOf (s : String) : Joined (textOf s) := by
  have hvalid : ∀ c ∈ textOf s, c < 0x110000 ∧ ¬isHigh c := by
    intro c hc
    obtain ⟨d, -, rfl⟩ := List.mem_map.1 hc
    have hd : d.toNat < 0xD800 ∨ 0xDFFF < d.toNat ∧ d.toNat < 0x110000 := d.valid
    unfold isHigh
    omega
  refine ⟨fun c hc => (hvalid c hc).1, ?_⟩
  have hapart : (textOf s).Pairwise fun high low => ¬(isHigh high ∧ isLow low) :=
    List.pairwise_of_forall_mem_list fun high hhigh _ _ hpair => (hvalid high hhigh).2 hpair.1
  exact hapart.isChain

theorem textOf_injective : Function.Injective textOf := by
  intro s s' h
  have hchars := List.map_injective_iff.2 (fun c d hcd => Char.toNat_inj.1 hcd) h
  exact String.toList_injective hchars

end JsonText

import Ctxd.Lib.Dict
import Ctxd.Text

/-!
# Grep cursors

A page of a search that is not the last one carries a cursor, the text of a JSON object in base64.  A text is taken
here as its length and the value `json.loads` finds in it, since base64 and `json.dumps` lose nothing; the length is
that of the text which `_encode_grep_cursor` builds.  A cursor that is encoded can be decoded exactly when the path in
it passes the path policy by itself (`decodeGrepCursor_encodeGrepCursor`).
-/

namespace Ctxd

/-! ### JSON -/

/-- What `json.loads` returns; of a float only its text is kept. -/
inductive Json
  | null
  | bool (value : Bool)
  | int (value : Int)
  | float (text : String)
  | str (value : String)
  | arr (items : List Json)
  | obj (items : List (String × Json))

/-- A hexadecimal digit group of a `\u` escape. -/
def unicodeEscape (n : Nat) : String :=
  String.ofList ['\\', 'u', hexDigit (n / 4096 % 16), hexDigit (n / 256 % 16), hexDigit (n / 16 % 16),
    hexDigit (n % 16)]

/-- A character in a string literal of `json.dumps`, which writes ASCII only. -/
def jsonCharacter (c : Char) : String :=
  if c = '"' then "\\\""
  else if c = '\\' then "\\\\"
  else if c = '\n' then "\\n"
  else if c = '\r' then "\\r"
  else if c = '\t' then "\\t"
  else if c.toNat = 8 then "\\b"
  else if c.toNat = 12 then "\\f"
  else if 32 ≤ c.toNat && c.toNat ≤ 126 then c.toString
  else if c.toNat < 0x10000 then unicodeEscape c.toNat
  else unicodeEscape (0xD800 + (c.toNat - 0x10000) / 1024) ++ unicodeEscape (0xDC00 + (c.toNat - 0x10000) % 1024)

def jsonString (s : String) : String := "\"" ++ String.join (s.toList.map jsonCharacter) ++ "\""

mutual

/-- `json.dumps(value, separators=(",", ":"))`. -/
def Json.dumps : Json → String
  | .null => "null"
  | .bool true => "true"
  | .bool false => "false"
  | .int n => toString n
  | .float text => text
  | .str s => jsonString s
  | .arr items => "[" ++ dumpsItems items ++ "]"
  | .obj items => "\x7b" ++ dumpsMembers items ++ "\x7d"

def dumpsItems : List Json → String
  | [] => ""
  | [v] => v.dumps
  | v :: rest => v.dumps ++ "," ++ dumpsItems rest

def dumpsMembers : List (String × Json) → String
  | [] => ""
  | [(k, v)] => jsonString k ++ ":" ++ v.dumps
  | (k, v) :: rest => jsonString k ++ ":" ++ v.dumps ++ "," ++ dumpsMembers rest

end

/-! ### Texts of cursors -/

/-- What a search raises. -/
inductive GrepError
  | valueError (message : String)
  | runtimeError (message : String)
  | osError (errno : Errno)
  deriving DecidableEq, Repr

/-- `GREP_MAX_CURSOR_BYTES`. -/
def grepMaxCursorBytes : Nat := 4096

/-- A cursor as text: its length, and what base64 and `json.loads` make of it. -/
structure CursorText where
  length : Nat
  value : Option Json

/-- The length of the base64 text of some bytes without its padding. -/
def base64Length (bytes : Nat) : Nat := (4 * bytes + 2) / 3

/-- `[0-9a-f]`. -/
def isHexLower (c : Char) : Bool := c ∈ "0123456789abcdef".toList

/-- `re.compile(r"sha256:[0-9a-f]{64}\Z").fullmatch(value)`. -/
def isContentHash (value : String) : Bool :=
  value.toList.take 7 = "sha256:".toList && (value.toList.drop 7).length = 64 && (value.toList.drop 7).all isHexLower

/-- The zeros of the decimal digits that `\d` matches. -/
def decimalZeros : List Nat :=
  [0x30, 0x660, 0x6F0, 0x7C0, 0x966, 0x9E6, 0xA66, 0xAE6, 0xB66, 0xBE6, 0xC66, 0xCE6, 0xD66, 0xDE6, 0xE50, 0xED0,
   0xF20, 0x1040, 0x1090, 0x17E0, 0x1810, 0x1946, 0x19D0, 0x1A80, 0x1A90, 0x1B50, 0x1BB0, 0x1C40, 0x1C50, 0xA620,
   0xA8D0, 0xA900, 0xA9D0, 0xA9F0, 0xAA50, 0xABF0, 0xFF10, 0x104A0, 0x10D30, 0x11066, 0x110F0, 0x11136, 0x111D0,
   0x112F0, 0x11450, 0x114D0, 0x11650, 0x116C0, 0x11730, 0x118E0, 0x11950, 0x11C50, 0x11D50, 0x11DA0, 0x16A60,
   0x16AC0, 0x16B50, 0x1D7CE, 0x1D7D8, 0x1D7E2, 0x1D7EC, 0x1D7F6, 0x1E140, 0x1E2F0, 0x1E950, 0x1FBF0]

def isDecimal (c : Char) : Bool := decimalZeros.any fun first => first ≤ c.toNat && c.toNat < first + 10

/-- `\d+`. -/
def isDecimals (part : List Char) : Bool := part ≠ [] && part.all isDecimal

/-- `-?\d+`. -/
def isSignedDecimals : List Char → Bool
  | '-' :: digits => isDecimals digits
  | digits => isDecimals digits

def splitColon : List Char → List (List Char)
  | [] => [[]]
  | c :: cs =>
    if c = ':' then [] :: splitColon cs
    else match splitColon cs with
      | [] => [[c]]
      | p :: ps => (c :: p) :: ps

/-- `re.compile(r"stat:\d+:\d+:\d+:-?\d+:-?\d+\Z").fullmatch(value)`. -/
def isPathIdentity (value : String) : Bool :=
  match splitColon value.toList with
  | [stat, dev, ino, size, mtime, ctime] =>
    stat = "stat".toList && isDecimals dev && isDecimals ino && isDecimals size && isSignedDecimals mtime &&
      isSignedDecimals ctime
  | _ => false

inductive GrepMode
  | afterMatch | legacyAfterMatch | fileStart | searchStart
  deriving DecidableEq, Repr

def GrepMode.text : GrepMode → String
  | .afterMatch => "after_match"
  | .legacyAfterMatch => "legacy_after_match"
  | .fileStart => "file_start"
  | .searchStart => "search_start"

def GrepMode.ofText (text : String) : Option GrepMode :=
  [GrepMode.afterMatch, .legacyAfterMatch, .fileStart, .searchStart].find? fun mode => mode.text = text

/-- A line and the bounds of a match in it. -/
abbrev GrepPosition := Nat × Nat × Nat

structure GrepCursor where
  prefixHash : String
  patternHash : String
  path : String
  contentHash : Option String
  mode : GrepMode
  anchor : Option GrepPosition
  catalogMismatch : Bool
  version : Nat
  deriving DecidableEq, Repr

def GrepCursor.value (cursor : GrepCursor) : Json :=
  .obj
    [("a", match cursor.anchor with
        | some (line, start, stop) => .arr [.int line, .int start, .int stop]
        | none => .null),
      ("c", .bool cursor.catalogMismatch),
      ("h", match cursor.contentHash with
        | some hash => .str hash
        | none => .null),
      ("m", .str cursor.mode.text),
      ("p", .str cursor.prefixHash),
      ("q", .str cursor.patternHash),
      ("r", .str cursor.path),
      ("v", .int 3)]

def GrepCursor.text (cursor : GrepCursor) : CursorText :=
  ⟨base64Length cursor.value.dumps.utf8ByteSize, some cursor.value⟩

def encodeGrepCursor (cursor : GrepCursor) : Except GrepError CursorText :=
  if grepMaxCursorBytes < cursor.text.length then .error (.valueError "ctxfs grep cursor is too large")
  else .ok cursor.text

/-- A part of an anchor: an integer that is not negative. -/
def Json.natural : Json → Option Nat
  | .int n => if n < 0 then none else some n.toNat
  | _ => none

def Json.anchor : Json → Option GrepPosition
  | .arr [line, start, stop] => do
    let line ← line.natural
    let start ← start.natural
    let stop ← stop.natural
    guard (1 ≤ line)
    return (line, start, stop)
  | _ => none

def Json.string : Json → Option String
  | .str s => some s
  | _ => none

/-- `None` or a string. -/
def Json.optionalString : Json → Option (Option String)
  | .null => some none
  | .str s => some (some s)
  | _ => none

def Json.version : Json → Option Nat
  | .int 2 => some 2
  | .int 3 => some 3
  | _ => none

/-- Whether the payload has a `c` exactly when its version is 3. -/
def carriedMismatch (version : Nat) (payload : Dict String Json) : Option Bool :=
  match version, payload.get? "c" with
  | 3, some (.bool mismatch) => some mismatch
  | 2, none => some false
  | _, _ => none

/-- The anchor of the modes that have one, and `None` for the others. -/
def anchorOf (mode : GrepMode) (hash : Option String) (value : Json) : Option (Option GrepPosition) :=
  match mode with
  | .afterMatch | .legacyAfterMatch => do
    guard ((hash.map isContentHash).getD false)
    let anchor ← value.anchor
    return some anchor
  | .fileStart | .searchStart =>
    match value with
    | .null => some none
    | _ => none

/-- The checks of a cursor's object; every one of them fails with the same message. -/
def cursorOfPayload (payload : Dict String Json) : Option GrepCursor := do
  let version ← (← payload.get? "v").version
  let mismatch ← carriedMismatch version payload
  guard (payload.keys.all fun key => key ∈ ["v", "p", "q", "r", "h", "m", "a", "c"])
  let prefixHash ← (← payload.get? "p").string
  let patternHash ← (← payload.get? "q").string
  let path ← (← payload.get? "r").string
  let modeText ← (← payload.get? "m").string
  let hash ← (← payload.get? "h").optionalString
  guard (isContentHash prefixHash && isContentHash patternHash)
  let mode ← GrepMode.ofText modeText
  let anchor ← anchorOf mode hash (← payload.get? "a")
  guard (mode ≠ .searchStart || (path = "" && hash = none))
  guard (mode ≠ .fileStart || (hash.map fun h => isContentHash h || isPathIdentity h).getD false)
  guard (path = "" || Normalized path)
  return ⟨prefixHash, patternHash, path, hash, mode, anchor, mismatch, version⟩

def invalidCursor : GrepError := .valueError "invalid ctxfs grep cursor"

def decodeGrepCursor (text : CursorText) : Except GrepError GrepCursor :=
  if text.length = 0 || grepMaxCursorBytes < text.length then .error invalidCursor
  else match text.value with
    | some (.obj payload) =>
      match cursorOfPayload payload with
      | some cursor => .ok cursor
      | none => .error invalidCursor
    | _ => .error invalidCursor

/-! ### Decoding what was encoded -/

private theorem hexDigit_mem {n : Nat} (h : n < 16) : isHexLower (hexDigit n) = true := by
  interval_cases n <;> decide

/-- A content hash has the form that the decoder wants. -/
theorem isContentHash_contentHash (data : ByteArray) : isContentHash (contentHash data) = true := by
  have hlist : (contentHash data).toList = "sha256:".toList ++ (Sha256.digest data.data.toList).flatMap hexByte := by
    simp [contentHash, sha256Hex]
  have hlength : ((Sha256.digest data.data.toList).flatMap hexByte).length = 64 := by
    simp [Sha256.digest, Sha256.wordBytes, hexByte]
  have hall : ((Sha256.digest data.data.toList).flatMap hexByte).all isHexLower = true := by
    rw [List.all_eq_true]
    intro c hc
    obtain ⟨n, hn, rfl⟩ := exists_of_mem_flatMap_hexByte hc
    exact hexDigit_mem hn
  have htake : (contentHash data).toList.take 7 = "sha256:".toList := by
    rw [hlist]
    rfl
  have hdrop : (contentHash data).toList.drop 7 = (Sha256.digest data.data.toList).flatMap hexByte := by
    rw [hlist]
    rfl
  unfold isContentHash
  rw [htake, hdrop, hlength, hall]
  simp

/-- The fields fit the mode. -/
def GrepCursor.FitsMode (c : GrepCursor) : Prop :=
  match c.mode with
  | .afterMatch | .legacyAfterMatch =>
    (c.contentHash.map isContentHash).getD false = true ∧ ∃ line start stop, c.anchor = some (line, start, stop) ∧
      1 ≤ line
  | .fileStart => (c.contentHash.map fun h => isContentHash h || isPathIdentity h).getD false = true ∧ c.anchor = none
  | .searchStart => c.path = "" ∧ c.contentHash = none ∧ c.anchor = none

/-- What the decoder asks of a cursor besides its path. -/
structure GrepCursor.WellFormed (c : GrepCursor) : Prop where
  prefixHash : isContentHash c.prefixHash = true
  patternHash : isContentHash c.patternHash = true
  fits : c.FitsMode

/-- A path as a cursor holds it: empty, or one that passes the path policy by itself. -/
def CursorPath (path : String) : Prop := path = "" ∨ Normalized path

instance (path : String) : Decidable (CursorPath path) := by
  unfold CursorPath
  infer_instance

private theorem GrepMode.ofText_text (mode : GrepMode) : GrepMode.ofText mode.text = some mode := by
  cases mode <;> rfl

@[simp] theorem Json.natural_int (n : Nat) : (Json.int n).natural = some n := by
  have hn : ¬(n : Int) < 0 := by omega
  unfold Json.natural
  simp only [hn, if_false, Int.toNat_natCast]

private theorem GrepCursor.anchorOf_value {c : GrepCursor} (h : c.WellFormed) :
    anchorOf c.mode c.contentHash (match c.anchor with
      | some (line, start, stop) => .arr [.int line, .int start, .int stop]
      | none => .null) = some c.anchor := by
  have hfits := h.fits
  unfold FitsMode at hfits
  cases hmode : c.mode with
  | afterMatch | legacyAfterMatch =>
    simp only [hmode] at hfits
    obtain ⟨hhash, line, start, stop, hanchor, hline⟩ := hfits
    simp [anchorOf, hanchor, hhash, Json.anchor, guard, hline]
  | fileStart =>
    simp only [hmode] at hfits
    simp [anchorOf, hfits.2]
  | searchStart =>
    simp only [hmode] at hfits
    simp [anchorOf, hfits.2.2]

private theorem GrepCursor.cursorOfPayload_value {c : GrepCursor} (h : c.WellFormed) {payload : Dict String Json}
    (hvalue : c.value = .obj payload) :
    cursorOfPayload payload = if CursorPath c.path then some { c with version := 3 } else none := by
  have hanchor := anchorOf_value h
  have hfits := h.fits
  unfold value at hvalue
  cases hvalue
  have hhash : Json.optionalString (match c.contentHash with
      | some hash => .str hash
      | none => .null) = some c.contentHash := by
    cases c.contentHash <;> rfl
  have hsearch : c.mode ≠ .searchStart ∨ c.path = "" ∧ c.contentHash = none := by
    by_cases hmode : c.mode = .searchStart
    · simp only [FitsMode, hmode] at hfits
      exact .inr ⟨hfits.1, hfits.2.1⟩
    · exact .inl hmode
  have hfile : c.mode ≠ .fileStart ∨
      (c.contentHash.map fun h => isContentHash h || isPathIdentity h).getD false = true := by
    by_cases hmode : c.mode = .fileStart
    · simp only [FitsMode, hmode] at hfits
      exact .inr hfits.1
    · exact .inl hmode
  unfold cursorOfPayload
  by_cases hpath : c.path = "" ∨ Normalized c.path
  · simp [Dict.get?, Json.version, carriedMismatch, Json.string, hhash, hanchor, Dict.keys, guard, h.prefixHash,
      h.patternHash, GrepMode.ofText_text, hsearch, hfile, CursorPath, hpath]
  · simp [Dict.get?, Json.version, carriedMismatch, Json.string, hhash, Dict.keys, guard, GrepMode.ofText_text,
      hsearch, hfile, CursorPath, hpath]

private theorem GrepCursor.text_length_ne (c : GrepCursor) : c.text.length ≠ 0 := by
  have hbrace : "\x7b".utf8ByteSize = 1 := rfl
  have hsize : 0 < c.value.dumps.utf8ByteSize := by
    unfold value Json.dumps
    rw [String.utf8ByteSize_append, String.utf8ByteSize_append, hbrace]
    omega
  show (4 * c.value.dumps.utf8ByteSize + 2) / 3 ≠ 0
  omega

/-- What the decoder makes of an encoded cursor. -/
theorem decodeGrepCursor_encodeGrepCursor {c : GrepCursor} (h : c.WellFormed) {text : CursorText}
    (hencode : encodeGrepCursor c = .ok text) :
    decodeGrepCursor text = if CursorPath c.path then .ok { c with version := 3 } else .error invalidCursor := by
  unfold encodeGrepCursor at hencode
  split at hencode
  · cases hencode
  rename_i hlength
  cases hencode
  have hbounds : (c.text.length = 0 || decide (grepMaxCursorBytes < c.text.length)) = false := by
    simp [c.text_length_ne, hlength]
  have hpayload := GrepCursor.cursorOfPayload_value h rfl
  unfold decodeGrepCursor
  rw [if_neg (by simp [hbounds])]
  show (match cursorOfPayload _ with
    | some cursor => Except.ok cursor
    | none => Except.error invalidCursor) = _
  rw [hpayload]
  by_cases hpath : CursorPath c.path
  · rw [if_pos hpath, if_pos hpath]
  · rw [if_neg hpath, if_neg hpath]

/-- What the decoder accepts. -/
structure GrepCursor.Accepted (c : GrepCursor) : Prop extends c.WellFormed where
  path : CursorPath c.path
  version : c.version = 3 ∨ c.version = 2 ∧ c.catalogMismatch = false

private theorem line_of_anchor {value : Json} {line start stop : Nat} (h : value.anchor = some (line, start, stop)) :
    1 ≤ line := by
  unfold Json.anchor at h
  split at h
  · obtain ⟨line', -, h⟩ := Option.bind_eq_some_iff.1 h
    obtain ⟨start', -, h⟩ := Option.bind_eq_some_iff.1 h
    obtain ⟨stop', -, h⟩ := Option.bind_eq_some_iff.1 h
    obtain ⟨_, hline, h⟩ := Option.bind_eq_some_iff.1 h
    cases h
    exact (Option.guard_eq_some' _).1 hline
  · cases h

private theorem carriedMismatch_some {version : Nat} {payload : Dict String Json} {mismatch : Bool}
    (h : carriedMismatch version payload = some mismatch) : version = 3 ∨ version = 2 ∧ mismatch = false := by
  unfold carriedMismatch at h
  split at h
  · exact .inl rfl
  · cases h
    exact .inr ⟨rfl, rfl⟩
  · cases h

private theorem fits_of_anchorOf {c : GrepCursor} {value : Json}
    (hanchor : anchorOf c.mode c.contentHash value = some c.anchor)
    (hsearch : c.mode ≠ .searchStart ∨ c.path = "" ∧ c.contentHash = none)
    (hfile : c.mode ≠ .fileStart ∨
      (c.contentHash.map fun h => isContentHash h || isPathIdentity h).getD false = true) : c.FitsMode := by
  unfold GrepCursor.FitsMode
  unfold anchorOf at hanchor
  cases hmode : c.mode with
  | afterMatch | legacyAfterMatch =>
    simp only [hmode] at hanchor ⊢
    obtain ⟨_, hhash, hanchor⟩ := Option.bind_eq_some_iff.1 hanchor
    obtain ⟨anchor, hvalue, hanchor⟩ := Option.bind_eq_some_iff.1 hanchor
    refine ⟨(Option.guard_eq_some' _).1 hhash, ?_⟩
    obtain ⟨line, start, stop⟩ := anchor
    refine ⟨line, start, stop, (Option.some.inj hanchor).symm, ?_⟩
    exact line_of_anchor hvalue
  | fileStart =>
    simp only [hmode, ne_eq, not_true_eq_false, false_or] at hanchor hfile ⊢
    refine ⟨hfile, ?_⟩
    split at hanchor
    · exact (Option.some.inj hanchor).symm
    · cases hanchor
  | searchStart =>
    simp only [hmode, ne_eq, not_true_eq_false, false_or] at hanchor hsearch ⊢
    refine ⟨hsearch.1, hsearch.2, ?_⟩
    split at hanchor
    · exact (Option.some.inj hanchor).symm
    · cases hanchor

private theorem accepted_of_cursorOfPayload {payload : Dict String Json} {c : GrepCursor}
    (h : cursorOfPayload payload = some c) : c.Accepted := by
  unfold cursorOfPayload at h
  obtain ⟨v, -, h⟩ := Option.bind_eq_some_iff.1 h
  obtain ⟨version, hversion, h⟩ := Option.bind_eq_some_iff.1 h
  obtain ⟨mismatch, hmismatch, h⟩ := Option.bind_eq_some_iff.1 h
  obtain ⟨_, -, h⟩ := Option.bind_eq_some_iff.1 h
  obtain ⟨p, -, h⟩ := Option.bind_eq_some_iff.1 h
  obtain ⟨prefixHash, -, h⟩ := Option.bind_eq_some_iff.1 h
  obtain ⟨q, -, h⟩ := Option.bind_eq_some_iff.1 h
  obtain ⟨patternHash, -, h⟩ := Option.bind_eq_some_iff.1 h
  obtain ⟨r, -, h⟩ := Option.bind_eq_some_iff.1 h
  obtain ⟨path, -, h⟩ := Option.bind_eq_some_iff.1 h
  obtain ⟨m, -, h⟩ := Option.bind_eq_some_iff.1 h
  obtain ⟨modeText, -, h⟩ := Option.bind_eq_some_iff.1 h
  obtain ⟨hv, -, h⟩ := Option.bind_eq_some_iff.1 h
  obtain ⟨hash, -, h⟩ := Option.bind_eq_some_iff.1 h
  obtain ⟨_, hhashes, h⟩ := Option.bind_eq_some_iff.1 h
  obtain ⟨mode, -, h⟩ := Option.bind_eq_some_iff.1 h
  obtain ⟨a, -, h⟩ := Option.bind_eq_some_iff.1 h
  obtain ⟨anchor, hanchor, h⟩ := Option.bind_eq_some_iff.1 h
  obtain ⟨_, hsearch, h⟩ := Option.bind_eq_some_iff.1 h
  obtain ⟨_, hfile, h⟩ := Option.bind_eq_some_iff.1 h
  obtain ⟨_, hpath, h⟩ := Option.bind_eq_some_iff.1 h
  replace hhashes := (Option.guard_eq_some' _).1 hhashes
  replace hsearch := (Option.guard_eq_some' _).1 hsearch
  replace hfile := (Option.guard_eq_some' _).1 hfile
  replace hpath := (Option.guard_eq_some' _).1 hpath
  cases h
  simp only [Bool.and_eq_true, Bool.or_eq_true, decide_eq_true_eq, ne_eq] at hhashes hsearch hfile hpath
  refine ⟨⟨hhashes.1, hhashes.2, fits_of_anchorOf hanchor hsearch hfile⟩, hpath, ?_⟩
  exact carriedMismatch_some hmismatch

theorem accepted_of_decode {text : CursorText} {c : GrepCursor} (h : decodeGrepCursor text = .ok c) : c.Accepted := by
  unfold decodeGrepCursor at h
  split at h
  · cases h
  split at h
  · split at h
    · rename_i hpayload
      cases h
      exact accepted_of_cursorOfPayload hpayload
    · cases h
  · cases h

end Ctxd

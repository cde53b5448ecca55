import Ctxd.GrepCursor
import Ctxd.Lib.Utf8
import Ctxd.Store
import Mathlib.Data.PNat.Basic
import Mathlib.Data.Prod.Lex
import Mathlib.Data.String.Basic

/-!
# Verified matches

ripgrep prints one record for each line with a match.  A match is shown only when the bytes of the file confirm it at
the offset and the line that the record names, and when the row of the catalog, if there is one, has the hash of these
bytes.
-/

namespace Ctxd

/-! ### Bytes -/

/-- `raw.decode("utf-8", "replace")`: every longest part of a sequence that cannot go on becomes one U+FFFD. -/
def decodeReplace (raw : List UInt8) : List Char := Utf8.decode raw

/-- `raw.decode("utf-8")`. -/
def decodeStrict (raw : List UInt8) : Option String := String.fromUTF8? ⟨raw.toArray⟩

def isSpaceByte (c : Char) : Bool := c.toNat = 32 || (9 ≤ c.toNat && c.toNat ≤ 13)

def hexValue (c : Char) : Option Nat :=
  if '0' ≤ c ∧ c ≤ '9' then some (c.toNat - 48)
  else if 'a' ≤ c ∧ c ≤ 'f' then some (c.toNat - 87)
  else if 'A' ≤ c ∧ c ≤ 'F' then some (c.toNat - 55)
  else none

/-- `bytes.fromhex`. -/
def fromHex : List Char → Option (List UInt8)
  | [] => some []
  | [c] => if isSpaceByte c then some [] else none
  | c :: d :: rest =>
    if isSpaceByte c then fromHex (d :: rest)
    else do
      let high ← hexValue c
      let low ← hexValue d
      let more ← fromHex rest
      return UInt8.ofNat (high * 16 + low) :: more

/-! ### Names of tree files -/

def logicalComponentName (value : String) : Option String :=
  if "p-".toList.isPrefixOf value.toList then (fromHex (value.toList.drop 2)).bind decodeStrict else none

/-- `_logical_tree_path` of a place below the root of the user. -/
def logicalTreePath (path : TreePath) : Option String := do
  let parts ← path.reverse.mapM logicalComponentName
  return joinParts parts

private theorem hexValue_hexDigit {n : Nat} (h : n < 16) :
    hexValue (hexDigit n) = some n ∧ isSpaceByte (hexDigit n) = false := by
  interval_cases n <;> decide

private theorem fromHex_hexBytes (raw : List UInt8) : fromHex (raw.flatMap hexByte) = some raw := by
  induction raw with
  | nil => rfl
  | cons b raw ih =>
    have hb := b.toNat_lt
    obtain ⟨hhigh, hspace⟩ := hexValue_hexDigit (n := b.toNat / 16) (by omega)
    obtain ⟨hlow, -⟩ := hexValue_hexDigit (n := b.toNat % 16) (by omega)
    have hvalue : UInt8.ofNat (b.toNat / 16 * 16 + b.toNat % 16) = b := by
      rw [Nat.div_add_mod']
      simp
    have hcons : fromHex (hexDigit (b.toNat / 16) :: hexDigit (b.toNat % 16) :: raw.flatMap hexByte) =
        some (UInt8.ofNat (b.toNat / 16 * 16 + b.toNat % 16) :: raw) := by
      rw [fromHex, hspace, hhigh, hlow, ih]
      rfl
    rw [hvalue] at hcons
    rw [List.flatMap_cons, hexByte]
    exact hcons

/-- A component is read back from its name. -/
theorem logicalComponentName_treeComponentName (part : String) :
    logicalComponentName (treeComponentName part) = some part := by
  have hlist : (treeComponentName part).toList = 'p' :: '-' :: part.toUTF8.data.toList.flatMap hexByte := by
    simp [treeComponentName, hexBytes]
  have hutf : String.fromUTF8? part.toUTF8 = some part := by
    unfold String.fromUTF8?
    rw [dif_pos (by simpa using part.isValidUTF8)]
    rfl
  have hstart : "p-".toList.isPrefixOf ('p' :: '-' :: part.toUTF8.data.toList.flatMap hexByte) = true := rfl
  unfold logicalComponentName
  rw [hlist, if_pos hstart]
  show (fromHex (part.toUTF8.data.toList.flatMap hexByte)).bind decodeStrict = some part
  rw [fromHex_hexBytes, Option.bind_some, decodeStrict]
  simpa using hutf

private theorem mapM_logicalComponentName (parts : List String) :
    (parts.map treeComponentName).mapM logicalComponentName = some parts := by
  induction parts with
  | nil => rfl
  | cons part parts ih =>
    rw [List.map_cons, List.mapM_cons, logicalComponentName_treeComponentName, ih]
    rfl

/-- A path is read back from its place in the tree. -/
theorem logicalTreePath_treePath {path : String} (h : Normalized path) :
    logicalTreePath (treePath path) = some path := by
  unfold logicalTreePath treePath
  rw [List.reverse_reverse, mapM_logicalComponentName, h.posixParts_eq]
  simp [joinParts_rawParts]

/-- `os.fspath` of a tree file, without the root that all of them share. -/
def treeText (path : TreePath) : String := joinParts path.reverse

/-! ### Matches -/

structure GrepMatch where
  path : String
  lineNumber : Nat
  line : String
  matchStart : Nat
  matchEnd : Nat
  contentHash : String
  deriving DecidableEq, Repr

def GrepMatch.position (m : GrepMatch) : GrepPosition := (m.lineNumber, m.matchStart, m.matchEnd)

/-- Tuples of Python are compared component by component. -/
def GrepPosition.order (p : GrepPosition) : ℕ ×ₗ ℕ ×ₗ ℕ := toLex (p.1, toLex p.2)

/-- The place of a match in the order of the catalog. -/
def GrepMatch.key (m : GrepMatch) : String ×ₗ ℕ ×ₗ ℕ ×ₗ ℕ := toLex (m.path, GrepPosition.order m.position)

/-! ### Files -/

/-- A store at rest, with the device, inode, size and times of its files as `_path_identity_from_stat` writes them. -/
structure GrepStore where
  world : World
  userId : String
  statIdentity : Loc → String

structure GrepFileSnapshot where
  logicalPath : String
  treePath : TreePath
  data : List UInt8
  contentHash : String
  pathIdentity : String
  catalogMismatch : Bool
  verified : Bool
  deriving DecidableEq

def GrepStore.rowHash (store : GrepStore) (path : String) : Option String :=
  (store.world.catalog.entries.find? fun e => e.userId = store.userId && e.path = path).map (·.contentHash)

/-- What `_snapshot_grep_file` returns after an `OSError`.  The `TimeoutError` of its deadline is one. -/
def unreadableFile (logicalPath : String) (treePath : TreePath) : GrepFileSnapshot :=
  ⟨logicalPath, treePath, [], "sha256:" ++ String.ofList (List.replicate 64 '0'), "stat:0:0:0:0:0", true, false⟩

/-- The file does not change while it is read, so its stats before and after agree. -/
def snapshotGrepFile (store : GrepStore) (logicalPath : String) (treePath : TreePath) : GrepFileSnapshot :=
  let loc : Loc := ⟨.users store.userId, treePath⟩
  match store.world.fs.disk.resolve loc with
  | .ok (.file data) =>
    let hash := contentHash data
    let row := store.rowHash logicalPath
    ⟨logicalPath, treePath, data.data.toList, hash, store.statIdentity loc, row ≠ some hash, row = none || row =
      some hash⟩
  | _ => unreadableFile logicalPath treePath

/-! ### Records of ripgrep -/

/-- The `data` of a match event; a field is missing when its value has the wrong form. -/
structure RgMatchData where
  lineNumber : Option Nat
  absoluteOffset : Option Nat
  lines : Option (List UInt8)
  submatch : Option (Option Nat × Option Nat)
  deriving DecidableEq

inductive RgEventType
  | began | matched | ended
  deriving DecidableEq

/-- A line of ripgrep's output: one that is too long, one that is not JSON, an event of another type, an event without
a path, or an event for a file, whose place is missing when it is not below the root of the user. -/
inductive RgRecord
  | oversized
  | malformed
  | other
  | invalid
  | event (type : RgEventType) (path : Option TreePath) (data : RgMatchData)
  deriving DecidableEq

def grepFailed : GrepError := .runtimeError "ctxfs grep failed"

def invalidJson : GrepError := .runtimeError "ctxfs grep returned invalid JSON"

def unexpectedPath : GrepError := .runtimeError "ctxfs grep returned an unexpected path"

def staleCursor : GrepError := .valueError "ctxfs grep cursor is stale"

/-! ### Line numbers -/

structure RgLineNumberState where
  offset : Nat
  lfCount : Nat
  nulCount : Nat
  deriving DecidableEq

def RgLineNumberState.fresh : RgLineNumberState := ⟨0, 0, 0⟩

/-- The loop of `_advance_rg_line_number_state`, which counts in chunks. -/
def RgLineNumberState.advanceIn (chunkBytes : ℕ+) (state : RgLineNumberState) (data : List UInt8) (offset : Nat) :
    RgLineNumberState :=
  if state.offset < offset then
    let stop := min (state.offset + chunkBytes) offset
    let part := (data.drop state.offset).take (stop - state.offset)
    advanceIn chunkBytes ⟨stop, state.lfCount + part.count 10, state.nulCount + part.count 0⟩ data offset
  else state
termination_by offset - state.offset
decreasing_by
  have := chunkBytes.pos
  omega

/-- `_advance_rg_line_number_state`, in one piece. -/
def RgLineNumberState.advance (state : RgLineNumberState) (data : List UInt8) (offset : Nat) : RgLineNumberState :=
  let part := (data.drop state.offset).take (offset - state.offset)
  ⟨max state.offset offset, state.lfCount + part.count 10, state.nulCount + part.count 0⟩

/-- `_rg_line_number_matches`, with a way to advance the state. -/
def rgLineNumberMatchesBy (advance : RgLineNumberState → List UInt8 → Nat → RgLineNumberState) (data : List UInt8)
    (absoluteOffset lineNumber : Nat) (state : RgLineNumberState) : Bool × RgLineNumberState :=
  if absoluteOffset < state.offset || data.length < absoluteOffset then (false, state)
  else if absoluteOffset ≠ 0 && !(data.getD (absoluteOffset - 1) 1 ∈ [10, 0]) then (false, state)
  else
    let state := advance state data absoluteOffset
    let lfLineNumber := state.lfCount + 1
    (lineNumber = lfLineNumber || lineNumber = lfLineNumber + state.nulCount, state)

def rgLineNumberMatches (data : List UInt8) (absoluteOffset lineNumber : Nat) (state : RgLineNumberState) :
    Bool × RgLineNumberState :=
  rgLineNumberMatchesBy RgLineNumberState.advance data absoluteOffset lineNumber state

/-- `data.startswith(part, offset)`. -/
def startsAt (data : List UInt8) (offset : Nat) (part : List UInt8) : Bool := part.isPrefixOf (data.drop offset)

def rgVerifiedLineLength (data : List UInt8) (absoluteOffset : Nat) (rawLine : List UInt8) : Option Nat :=
  if startsAt data absoluteOffset rawLine then some rawLine.length
  else if rawLine.getLast? = some 10 && startsAt data absoluteOffset rawLine.dropLast &&
      data.getD (absoluteOffset + rawLine.length - 1) 1 = 0 then
    some (rawLine.length - 1)
  else none

def stripLineEnd (text : List Char) : List Char :=
  (text.reverse.dropWhile fun c => c = '\r' || c = '\n').reverse

/-- `_verified_grep_match`, with the check of a line number; the match is missing when the bytes of the file do not
confirm it. -/
def verifiedGrepMatchBy (lineNumberMatches : List UInt8 → Nat → Nat → RgLineNumberState → Bool × RgLineNumberState)
    (data : RgMatchData) (snapshot : GrepFileSnapshot) (state : RgLineNumberState) :
    Except GrepError (Option GrepMatch × RgLineNumberState) :=
  match data.lineNumber, data.lines, data.submatch with
  | some lineNumber, some rawLine, some (start, stop) =>
    if lineNumber = 0 then .error invalidJson
    else match data.absoluteOffset with
    | none => .ok (none, state)
    | some absoluteOffset =>
      if snapshot.data.length < absoluteOffset || snapshot.data.length - absoluteOffset < rawLine.length then
        .ok (none, state)
      else match rgVerifiedLineLength snapshot.data absoluteOffset rawLine with
        | none => .ok (none, state)
        | some verifiedLineLength =>
          let (correct, state) := lineNumberMatches snapshot.data absoluteOffset lineNumber state
          if !correct then .ok (none, state)
          else match start, stop with
            | some start, some stop =>
              if start ≤ stop && stop ≤ rawLine.length then
                if verifiedLineLength < stop then .ok (none, state)
                else .ok (some
                  { path := snapshot.logicalPath,
                    lineNumber := lineNumber,
                    line := String.ofList (stripLineEnd (decodeReplace rawLine)),
                    matchStart := (decodeReplace (rawLine.take start)).length,
                    matchEnd := (decodeReplace (rawLine.take stop)).length,
                    contentHash := snapshot.contentHash }, state)
              else .error invalidJson
            | _, _ => .error invalidJson
  | _, _, _ => .error invalidJson

def verifiedGrepMatch (data : RgMatchData) (snapshot : GrepFileSnapshot) (state : RgLineNumberState) :
    Except GrepError (Option GrepMatch × RgLineNumberState) :=
  verifiedGrepMatchBy rgLineNumberMatches data snapshot state

end Ctxd

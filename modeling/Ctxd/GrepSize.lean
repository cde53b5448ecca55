import Ctxd.GrepNext

/-!
# Which matches can be paged past

A cursor holds the path of its match below the prefix, and it may not be longer than 4096 characters of base64.  JSON
writes a character that is not ASCII as an escape of six or twelve bytes, so a path that the tree can store may be too
long for a cursor (`long_path_too_large`).  How much room a path takes is said by `jsonWidth`, and a match can be paged
past if and only if there is room for its path and its position (`encode_match_iff`).
-/

namespace Ctxd

/-! ### The size of a text in JSON -/

/-- The bytes that a character takes in a string literal of `json.dumps`. -/
def charWidth (c : Char) : Nat :=
  if c = '"' ∨ c = '\\' ∨ c.toNat ∈ [8, 9, 10, 12, 13] then 2
  else if 32 ≤ c.toNat ∧ c.toNat ≤ 126 then 1
  else if c.toNat < 0x10000 then 6
  else 12

def jsonWidth (text : String) : Nat := (text.toList.map charWidth).sum

private theorem utf8ByteSize_unicodeEscape (n : Nat) : (unicodeEscape n).utf8ByteSize = 6 := by
  have hdigit : ∀ m, (hexDigit (m % 16)).utf8Size = 1 := fun m => utf8Size_hexDigit (Nat.mod_lt m (by decide))
  unfold unicodeEscape
  rw [utf8ByteSize_ofList]
  simp only [List.map_cons, List.map_nil, List.sum_cons, List.sum_nil, hdigit]
  rfl

private theorem utf8Size_of_toNat_le {c : Char} (h : c.toNat ≤ 126) : c.utf8Size = 1 := by
  have hval : c.val ≤ 127 := by
    rw [UInt32.le_iff_toNat_le]
    exact Nat.le_trans h (by decide)
  unfold Char.utf8Size
  exact if_pos hval

private theorem utf8ByteSize_jsonCharacter (c : Char) : (jsonCharacter c).utf8ByteSize = charWidth c := by
  unfold jsonCharacter
  by_cases hescaped : c = '"' ∨ c = '\\' ∨ c.toNat ∈ [8, 9, 10, 12, 13]
  · have hwidth : charWidth c = 2 := if_pos hescaped
    rw [hwidth]
    have hof : ∀ d : Char, c.toNat = d.toNat → c = d := fun d h => Char.toNat_inj.1 h
    simp only [List.mem_cons, List.not_mem_nil, or_false] at hescaped
    rcases hescaped with rfl | rfl | h | h | h | h | h
    · rfl
    · rfl
    · have h' := hof (Char.ofNat 8) h
      subst h'
      rfl
    · obtain rfl := hof '\t' h
      rfl
    · obtain rfl := hof '\n' h
      rfl
    · obtain rfl := hof (Char.ofNat 12) h
      rfl
    · obtain rfl := hof '\r' h
      rfl
  · have hwidth : charWidth c = if 32 ≤ c.toNat ∧ c.toNat ≤ 126 then 1 else if c.toNat < 0x10000 then 6 else 12 :=
      if_neg hescaped
    simp only [List.mem_cons, List.not_mem_nil, or_false, not_or] at hescaped
    obtain ⟨hquote, hbackslash, h8, h9, h10, h12, h13⟩ := hescaped
    have hn : c ≠ '\n' := fun h => h10 (by rw [h]; rfl)
    have hr : c ≠ '\r' := fun h => h13 (by rw [h]; rfl)
    have ht : c ≠ '\t' := fun h => h9 (by rw [h]; rfl)
    rw [hwidth, if_neg hquote, if_neg hbackslash, if_neg hn, if_neg hr, if_neg ht, if_neg h8, if_neg h12]
    by_cases hplain : 32 ≤ c.toNat ∧ c.toNat ≤ 126
    · rw [if_pos hplain, if_pos (by simpa using hplain)]
      have hsize := utf8Size_of_toNat_le hplain.2
      show (String.singleton c).utf8ByteSize = 1
      rw [String.utf8ByteSize_singleton, hsize]
    · rw [if_neg hplain, if_neg (by simpa using hplain)]
      split
      · exact utf8ByteSize_unicodeEscape _
      · rw [String.utf8ByteSize_append, utf8ByteSize_unicodeEscape, utf8ByteSize_unicodeEscape]

private theorem utf8ByteSize_jsonString (text : String) : (jsonString text).utf8ByteSize = 2 + jsonWidth text := by
  have hjoin : ∀ cs : List Char, (String.join (cs.map jsonCharacter)).utf8ByteSize = (cs.map charWidth).sum := by
    intro cs
    induction cs with
    | nil => rfl
    | cons c cs ih =>
      rw [List.map_cons, List.map_cons, List.sum_cons, ← ih, ← utf8ByteSize_jsonCharacter, ← String.utf8ByteSize_append]
      simp
  have hquote : "\"".utf8ByteSize = 1 := rfl
  unfold jsonString jsonWidth
  rw [String.utf8ByteSize_append, String.utf8ByteSize_append, hjoin, hquote]
  omega

/-- A character that is not a control character takes no more than three times its bytes in UTF-8. -/
private theorem charWidth_le {c : Char} (h : 32 ≤ c.toNat ∧ c.toNat ≠ 127) : charWidth c ≤ 3 * c.utf8Size := by
  have hsize : c.utf8Size =
      if c.toNat ≤ 127 then 1 else if c.toNat ≤ 0x7FF then 2 else if c.toNat ≤ 0xFFFF then 3 else 4 := by
    unfold Char.utf8Size
    simp only [UInt32.le_iff_toNat_le]
    rfl
  unfold charWidth
  rw [hsize]
  split_ifs <;> omega

private theorem jsonWidth_le {text : String} (h : hasControlCharacter text = false) :
    jsonWidth text ≤ 3 * text.utf8ByteSize := by
  unfold hasControlCharacter at h
  rw [List.any_eq_false] at h
  have hsum : ∀ cs : List Char, (∀ c ∈ cs, 32 ≤ c.toNat ∧ c.toNat ≠ 127) →
      (cs.map charWidth).sum ≤ 3 * (cs.map Char.utf8Size).sum := by
    intro cs
    induction cs with
    | nil => intro _; exact Nat.zero_le _
    | cons c cs ih =>
      intro hcs
      have hhead := charWidth_le (hcs c (by simp))
      have htail := ih fun d hd => hcs d (List.mem_cons_of_mem _ hd)
      rw [List.map_cons, List.map_cons, List.sum_cons, List.sum_cons]
      omega
  have hsize := utf8ByteSize_ofList text.toList
  rw [String.ofList_toList] at hsize
  rw [hsize]
  refine hsum text.toList fun c hc => ?_
  have hc := h c hc
  simp only [Bool.or_eq_true, decide_eq_true_eq, beq_iff_eq, not_or] at hc
  omega

/-! ### The size of a cursor -/

private theorem charWidth_of_isHexLower {c : Char} (h : isHexLower c = true) : charWidth c = 1 := by
  unfold isHexLower at h
  simp at h
  rcases h with rfl | rfl | rfl | rfl | rfl | rfl | rfl | rfl | rfl | rfl | rfl | rfl | rfl | rfl | rfl | rfl <;> rfl

private theorem jsonWidth_contentHash {text : String} (h : isContentHash text = true) : jsonWidth text = 71 := by
  unfold isContentHash at h
  simp only [Bool.and_eq_true, decide_eq_true_eq] at h
  obtain ⟨⟨htake, hlength⟩, hall⟩ := h
  unfold jsonWidth
  rw [← List.take_append_drop 7 text.toList, htake, List.map_append, List.sum_append,
    List.map_congr_left fun c hc => charWidth_of_isHexLower (List.all_eq_true.1 hall c hc), List.map_const', hlength]
  rfl

/-- The digits of a number. -/
def digitCount (n : Nat) : Nat := (toString n).utf8ByteSize

/-- The bytes of a cursor for a match besides its path. -/
def cursorFrame (mode : GrepMode) (mismatch : Bool) (position : GrepPosition) : Nat :=
  269 + mode.text.utf8ByteSize + (if mismatch then 4 else 5) + digitCount position.1 + digitCount position.2.1 +
    digitCount position.2.2

private theorem jsonWidth_mode (mode : GrepMode) : jsonWidth mode.text = mode.text.utf8ByteSize := by
  cases mode <;> decide

private theorem Json.size_bool (b : Bool) : (Json.bool b).dumps.utf8ByteSize = if b then 4 else 5 := by
  cases b
  · rw [dumps]; rfl
  · rw [dumps]; rfl

private theorem Json.size_str (text : String) : (Json.str text).dumps.utf8ByteSize = 2 + jsonWidth text := by
  rw [dumps, utf8ByteSize_jsonString]

private theorem Json.size_nat (n : Nat) : (Json.int n).dumps.utf8ByteSize = digitCount n := by
  rw [dumps]
  rfl

/-- The members of an object, with the comma that follows them. -/
private theorem size_dumpsMembers_cons (key : String) (value : Json) (rest : List (String × Json)) (h : rest ≠ []) :
    (dumpsMembers ((key, value) :: rest)).utf8ByteSize =
      jsonWidth key + value.dumps.utf8ByteSize + 4 + (dumpsMembers rest).utf8ByteSize := by
  have hcolon : ":".utf8ByteSize = 1 := rfl
  have hcomma : ",".utf8ByteSize = 1 := rfl
  cases rest with
  | nil => exact absurd rfl h
  | cons member rest =>
    rw [dumpsMembers]
    · simp only [String.utf8ByteSize_append, utf8ByteSize_jsonString, hcolon, hcomma]
      omega
    · exact List.cons_ne_nil _ _

private theorem size_anchor (line start stop : Nat) :
    (Json.arr [.int line, .int start, .int stop]).dumps.utf8ByteSize =
      4 + digitCount line + digitCount start + digitCount stop := by
  have hbracket : "[".utf8ByteSize = 1 ∧ "]".utf8ByteSize = 1 ∧ ",".utf8ByteSize = 1 := ⟨rfl, rfl, rfl⟩
  simp only [Json.dumps, dumpsItems, String.utf8ByteSize_append, hbracket]
  have hline := Json.size_nat line
  have hstart := Json.size_nat start
  have hstop := Json.size_nat stop
  simp only [Json.dumps] at hline hstart hstop
  omega

theorem utf8ByteSize_value {c : GrepCursor} {hash : String} {line start stop : Nat}
    (hprefixHash : isContentHash c.prefixHash = true)
    (hpattern : isContentHash c.patternHash = true) (hcontent : c.contentHash = some hash)
    (hhash : isContentHash hash = true) (hanchor : c.anchor = some (line, start, stop)) :
    c.value.dumps.utf8ByteSize = cursorFrame c.mode c.catalogMismatch (line, start, stop) + jsonWidth c.path := by
  have hbraces : "\x7b".utf8ByteSize = 1 ∧ "\x7d".utf8ByteSize = 1 := ⟨rfl, rfl⟩
  have hkeys : jsonWidth "a" = 1 ∧ jsonWidth "c" = 1 ∧ jsonWidth "h" = 1 ∧ jsonWidth "m" = 1 ∧ jsonWidth "p" = 1 ∧
      jsonWidth "q" = 1 ∧ jsonWidth "r" = 1 := by decide
  have hlast : (dumpsMembers [("v", .int 3)]).utf8ByteSize = 5 := by
    rw [dumpsMembers, Json.dumps]
    rfl
  unfold GrepCursor.value
  rw [hcontent, hanchor, Json.dumps]
  simp only [String.utf8ByteSize_append, size_dumpsMembers_cons, ne_eq, reduceCtorEq, not_false_eq_true, hlast,
    size_anchor, Json.size_bool, Json.size_str, jsonWidth_contentHash hprefixHash, jsonWidth_contentHash hpattern,
    jsonWidth_contentHash hhash, jsonWidth_mode, hbraces, hkeys]
  unfold cursorFrame
  dsimp only
  omega
/-! ### Matches that can be paged past -/

/-- `put` accepts the path, and the tree has room for its names. -/
structure Storable (path : String) : Prop where
  normal : Normalized path
  names : ∀ name ∈ treePath path, name.utf8ByteSize ≤ nameMax
  length : ((treePath path).map fun name => name.utf8ByteSize + 1).sum ≤ 4095

/-- What is left of a path below a prefix. -/
theorem relative_of_within {pre path : String} (h : pre = "" ∨ pathIsWithinPrefix path pre = .ok true) :
    ∃ relative, grepRelativePath pre path = .ok relative ∧ ∀ c ∈ relative.toList, c ∈ path.toList := by
  unfold grepRelativePath
  by_cases hempty : pre = ""
  · rw [if_pos hempty]
    exact ⟨path, rfl, fun _ hc => hc⟩
  rw [if_neg hempty]
  by_cases hsame : path = pre
  · rw [if_pos hsame]
    exact ⟨"", rfl, fun c hc => by cases hc⟩
  rw [if_neg hsame]
  have hwithin := h.resolve_left hempty
  have hbelow : startsBelow path pre = true := by
    obtain ⟨hpath, hpre⟩ := pathIsWithinPrefix_ok hwithin
    have hpath : normalizePath path = .ok path := hpath
    have hpre : normalizePath pre = .ok pre := hpre
    unfold pathIsWithinPrefix at hwithin
    rw [hpath, hpre] at hwithin
    have hor := Except.ok.inj hwithin
    rw [decide_eq_false hsame] at hor
    exact hor
  rw [if_pos hbelow]
  refine ⟨_, rfl, fun c hc => ?_⟩
  rw [String.toList_ofList] at hc
  exact List.mem_of_mem_drop hc

/-- A match can be paged past if and only if the cursor has room for its path and its position, and it has room for a
path of a third of the bytes. -/
theorem encode_match_iff {store : GrepStore} {pre : String} {m : GrepMatch} (pattern : String) (mismatch : Bool)
    (mode : GrepMode) (hshown : store.Shows pre m) (hstorable : Storable m.path)
    (hwithin : pre = "" ∨ pathIsWithinPrefix m.path pre = .ok true) :
    ∃ relative c, grepRelativePath pre m.path = .ok relative ∧
      grepCursorForMatch pre (hashText pattern) m mismatch mode = .ok c ∧
      encodeGrepCursor c =
        (if cursorFrame mode mismatch m.position + jsonWidth relative ≤ 3072 then .ok c.text
          else .error (.valueError "ctxfs grep cursor is too large")) ∧
      (cursorFrame mode mismatch m.position + 3 * relative.utf8ByteSize ≤ 3072 → encodeGrepCursor c = .ok c.text) := by
  obtain ⟨relative, hrelative, hsubset⟩ := relative_of_within hwithin
  obtain ⟨-, logicalPath, tree, data, state, state', hverify⟩ := hshown
  have hhash : isContentHash m.contentHash = true := by
    obtain ⟨_, _, _, _, _, -, -, -, -, -, -, -, -, hm⟩ := verifiedGrepMatch_some hverify
    rw [hm]
    exact isContentHash_snapshot _ _ _
  have hcontrol : hasControlCharacter relative = false := by
    have hpath := (normalized_iff.1 hstorable.normal).1
    unfold hasControlCharacter at hpath ⊢
    rw [List.any_eq_false] at hpath ⊢
    exact fun c hc => hpath c (hsubset c hc)
  have hbuilt : grepCursorForMatch pre (hashText pattern) m mismatch mode =
      .ok ⟨hashText pre, hashText pattern, relative, some m.contentHash, mode, some m.position, mismatch, 3⟩ := by
    unfold grepCursorForMatch
    rw [hrelative]
    rfl
  refine ⟨relative, _, hrelative, hbuilt, ?_⟩
  generalize hc : (⟨hashText pre, hashText pattern, relative, some m.contentHash, mode, some m.position, mismatch, 3⟩ :
    GrepCursor) = c
  have hsize : c.value.dumps.utf8ByteSize = cursorFrame mode mismatch m.position + jsonWidth relative := by
    subst hc
    exact utf8ByteSize_value (isContentHash_contentHash _) (isContentHash_contentHash _) rfl hhash rfl
  have hencode : encodeGrepCursor c =
      if cursorFrame mode mismatch m.position + jsonWidth relative ≤ 3072 then .ok c.text
      else .error (.valueError "ctxfs grep cursor is too large") := by
    have hlength : c.text.length = (4 * (cursorFrame mode mismatch m.position + jsonWidth relative) + 2) / 3 := by
      rw [← hsize]
      rfl
    unfold encodeGrepCursor grepMaxCursorBytes
    rw [hlength]
    by_cases hroom : cursorFrame mode mismatch m.position + jsonWidth relative ≤ 3072
    · rw [if_pos hroom, if_neg (by omega)]
    · rw [if_neg hroom, if_pos (by omega)]
  refine ⟨hencode, fun hroom => ?_⟩
  have hwidth := jsonWidth_le hcontrol
  rw [hencode, if_pos (by omega)]

/-! ### A path that is too long for a cursor -/

/-- A component of 31 characters of four bytes. -/
def longPart : String := String.ofList (List.replicate 31 (Char.ofNat 0x1F600))

/-- A path of `n + 1` such components. -/
def longPath : Nat → String
  | 0 => longPart
  | n + 1 => longPart ++ "/" ++ longPath n

private theorem utf8ByteSize_longPart : longPart.utf8ByteSize = 124 := by
  unfold longPart
  rw [utf8ByteSize_ofList, List.map_replicate]
  decide

private theorem mem_longPart {c : Char} (h : c ∈ longPart.toList) : c = Char.ofNat 0x1F600 := by
  unfold longPart at h
  rw [String.toList_ofList] at h
  exact List.eq_of_mem_replicate h

private theorem mem_longPath {n : Nat} {c : Char} (h : c ∈ (longPath n).toList) : c = Char.ofNat 0x1F600 ∨ c = '/' := by
  induction n with
  | zero => exact .inl (mem_longPart h)
  | succ n ih =>
    unfold longPath at h
    rw [String.toList_append, String.toList_append, List.mem_append, List.mem_append] at h
    rcases h with (h | h) | h
    · exact .inl (mem_longPart h)
    · exact .inr (List.mem_singleton.1 h)
    · exact ih h

private theorem rawParts_longPath (n : Nat) : rawParts (longPath n) = List.replicate (n + 1) longPart := by
  have hpart : rawParts longPart = [longPart] := rawParts_of_forall fun c hc => by rw [mem_longPart hc]; decide
  induction n with
  | zero => exact hpart
  | succ n ih =>
    unfold longPath
    rw [rawParts_append, hpart, ih]
    rfl

private theorem jsonWidth_append (s t : String) : jsonWidth (s ++ t) = jsonWidth s + jsonWidth t := by
  unfold jsonWidth
  rw [String.toList_append, List.map_append, List.sum_append]

private theorem jsonWidth_longPath (n : Nat) : jsonWidth (longPath n) = 372 + 373 * n := by
  have hpart : jsonWidth longPart = 372 := by
    unfold jsonWidth longPart
    rw [String.toList_ofList, List.map_replicate]
    decide
  have hslash : jsonWidth "/" = 1 := by decide
  induction n with
  | zero => exact hpart
  | succ n ih =>
    unfold longPath
    rw [jsonWidth_append, jsonWidth_append, hpart, hslash, ih]
    omega

private theorem longPath_normalized (n : Nat) : Normalized (longPath n) := by
  rw [normalized_iff]
  refine ⟨?_, ?_, ?_⟩
  · unfold hasControlCharacter
    rw [List.any_eq_false]
    intro c hc
    rcases mem_longPath hc with rfl | rfl <;> decide
  · unfold startsWithDrive
    split
    · rename_i heq
      have hcolon : ':' ∈ (longPath n).toList := by
        rw [heq]
        simp
      rcases mem_longPath hcolon with h | h <;> exact absurd h (by decide)
    · rfl
  · have hdots : isDots longPart = false := by
      have hsize := utf8ByteSize_longPart
      unfold isDots
      simp only [Bool.or_eq_false_iff, decide_eq_false_iff_not]
      refine ⟨⟨?_, ?_⟩, ?_⟩ <;> intro h <;> rw [h] at hsize <;> exact absurd hsize (by decide)
    rw [rawParts_longPath, List.any_replicate, hdots]
    simp

private theorem treePath_longPath (n : Nat) :
    treePath (longPath n) = List.replicate (n + 1) (treeComponentName longPart) := by
  unfold treePath
  rw [(longPath_normalized n).posixParts_eq, rawParts_longPath, List.map_replicate, List.reverse_replicate]

private theorem utf8ByteSize_longName : (treeComponentName longPart).utf8ByteSize = 250 := by
  rw [utf8ByteSize_treeComponentName, utf8ByteSize_longPart]

private theorem length_treePath_longPath (n : Nat) :
    ((treePath (longPath n)).map fun name => name.utf8ByteSize + 1).sum = (n + 1) * 251 := by
  rw [treePath_longPath, List.map_replicate, utf8ByteSize_longName, List.sum_replicate_nat]

private theorem longPath_storable {n : Nat} (h : n < 16) : Storable (longPath n) := by
  refine ⟨longPath_normalized n, fun name hmem => ?_, ?_⟩
  · rw [treePath_longPath] at hmem
    rw [List.eq_of_mem_replicate hmem, utf8ByteSize_longName]
    decide
  · rw [length_treePath_longPath]
    omega

/-! ### A store with one document -/

/-- The directories above a place, and the place itself as one. -/
def directoriesTo (user : String) : TreePath → Dict Loc Node
  | [] => []
  | name :: rest => (⟨.users user, name :: rest⟩, .dir) :: directoriesTo user rest

/-- A disk with one file. -/
def oneFile (user : String) (path : TreePath) (data : ByteArray) (pathMax : Nat) : Disk :=
  ⟨(⟨.users user, path⟩, .file data) :: directoriesTo user path.tail, pathMax⟩

private theorem get?_directoriesTo {user : String} {p q : TreePath} (h : p <:+ q) (hne : p ≠ []) :
    (directoriesTo user q).get? ⟨.users user, p⟩ = some .dir := by
  induction q with
  | nil => exact absurd (List.suffix_nil.1 h) hne
  | cons name rest ih =>
    unfold directoriesTo Dict.get?
    rcases List.suffix_cons_iff.1 h with rfl | h
    · exact if_pos rfl
    · have hlonger : name :: rest ≠ p := by
        intro heq
        have hlength := h.length_le
        rw [← heq, List.length_cons] at hlength
        omega
      rw [if_neg fun heq => hlonger (Loc.mk.inj heq).2]
      exact ih h

private theorem oneFile_resolve {user : String} {path : TreePath} {data : ByteArray} {pathMax : Nat} (hne : path ≠ [])
    (hnames : ∀ name ∈ path, name.utf8ByteSize ≤ nameMax)
    (hlength : (path.map fun name => name.utf8ByteSize + 1).sum ≤ pathMax) :
    (oneFile user path data pathMax).resolve ⟨.users user, path⟩ = .ok (.file data) := by
  have hshort : ∀ name ∈ path, (Area.users user).nameTooLong name = false := fun name hname =>
    decide_eq_false (Nat.not_lt.2 (hnames name hname))
  have hwalk : ∀ p : TreePath, p <:+ path.tail → (oneFile user path data pathMax).walk (.users user) p = .ok .dir := by
    intro p
    induction p with
    | nil => exact fun _ => rfl
    | cons name rest ih =>
      intro hp
      have hrest := ih ((List.suffix_cons name rest).trans hp)
      have hmem : name ∈ path := List.mem_of_mem_tail (hp.subset (List.mem_cons_self ..))
      have hother : path ≠ name :: rest := by
        intro heq
        have hle := hp.length_le
        rw [heq] at hle
        simp at hle
      have hget : (oneFile user path data pathMax).nodes.get? ⟨.users user, name :: rest⟩ = some .dir := by
        unfold oneFile
        dsimp only
        unfold Dict.get?
        rw [if_neg fun heq => hother (Loc.mk.inj heq).2]
        exact get?_directoriesTo hp (List.cons_ne_nil _ _)
      unfold Disk.walk
      rw [hrest, hshort name hmem, hget]
      rfl
  have hfits : (oneFile user path data pathMax).pathTooLong ⟨.users user, path⟩ = false :=
    decide_eq_false (Nat.not_lt.2 hlength)
  unfold Disk.resolve
  rw [hfits]
  cases path with
  | nil => exact absurd rfl hne
  | cons name rest =>
    have hget : (oneFile user (name :: rest) data pathMax).nodes.get? ⟨.users user, name :: rest⟩ =
      some (.file data) := by
      unfold oneFile
      dsimp only
      unfold Dict.get?
      exact if_pos rfl
    show (oneFile user (name :: rest) data pathMax).walk (.users user) (name :: rest) = _
    unfold Disk.walk
    rw [hwalk rest List.suffix_rfl, hshort name (List.mem_cons_self ..), hget]
    rfl

/-- The bytes of `needle` and the end of the line. -/
def needleBytes : List UInt8 := [110, 101, 101, 100, 108, 101, 10]

/-- A store whose only file is a document with the line `needle`. -/
def needleStore (path : String) : GrepStore :=
  { world :=
      { catalog := ⟨[], [], [], []⟩,
        fs := ⟨oneFile "user" (treePath path) ⟨needleBytes.toArray⟩ 4000, 0, [], [], none, []⟩,
        clock := fun _ => 0, ticks := 0 },
    userId := "user", statIdentity := fun _ => "stat:1:2:7:3:4" }

def needleMatch (path : String) : GrepMatch := ⟨path, 1, "needle", 0, 6, contentHash ⟨needleBytes.toArray⟩⟩

private theorem needleStore_shows {path : String} (pre : String) (h : Storable path)
    (hlength : ((treePath path).map fun name => name.utf8ByteSize + 1).sum ≤ 4000) :
    (needleStore path).Shows pre (needleMatch path) := by
  have hresolve : (needleStore path).world.fs.disk.resolve ⟨.users (needleStore path).userId, treePath path⟩ =
      .ok (.file ⟨needleBytes.toArray⟩) := oneFile_resolve h.normal.treePath_ne_nil h.names hlength
  have hsnapshot : snapshotGrepFile (needleStore path) path (treePath path) =
      ⟨path, treePath path, needleBytes, contentHash ⟨needleBytes.toArray⟩, "stat:1:2:7:3:4", true, true⟩ := by
    unfold snapshotGrepFile
    dsimp only
    rw [hresolve]
    rfl
  refine ⟨.inr h.normal, path, treePath path, ⟨some 1, some 0, some needleBytes, some (some 0, some 6)⟩, .fresh,
    ⟨0, 0, 0⟩, ?_⟩
  rw [hsnapshot]
  rfl

/-- A match in `notes/a` can be paged past. -/
theorem encode_match_short :
    ∃ c, grepCursorForMatch "notes" (hashText "needle") (needleMatch "notes/a") false .afterMatch = .ok c ∧
      encodeGrepCursor c = .ok c.text := by
  have hstorable : Storable "notes/a" := ⟨by decide, by decide, by decide⟩
  obtain ⟨relative, c, hrelative, hbuilt, -, hroom⟩ := encode_match_iff "needle" false .afterMatch
    (needleStore_shows "notes" hstorable (by decide)) hstorable (.inr (by decide))
  have hpath : relative = "a" := Except.ok.inj (hrelative.symm.trans rfl)
  refine ⟨c, hbuilt, hroom ?_⟩
  rw [hpath]
  decide

/-- The tree can store a path of eight long components, but a match there cannot be paged past. -/
theorem long_path_too_large :
    Storable (longPath 7) ∧ (needleStore (longPath 7)).Shows "" (needleMatch (longPath 7)) ∧
      ∃ c, grepCursorForMatch "" (hashText "needle") (needleMatch (longPath 7)) false .afterMatch = .ok c ∧
        encodeGrepCursor c = .error (.valueError "ctxfs grep cursor is too large") := by
  have hstorable := longPath_storable (n := 7) (by decide)
  have hlength : ((treePath (longPath 7)).map fun name => name.utf8ByteSize + 1).sum ≤ 4000 := by
    rw [length_treePath_longPath]
    decide
  have hshown := needleStore_shows "" hstorable hlength
  obtain ⟨relative, c, hrelative, hbuilt, hencode, -⟩ :=
    encode_match_iff "needle" false .afterMatch hshown hstorable (.inl rfl)
  refine ⟨hstorable, hshown, c, hbuilt, ?_⟩
  have hpath : relative = longPath 7 := Except.ok.inj (hrelative.symm.trans (if_pos rfl))
  have hframe : cursorFrame .afterMatch false (needleMatch (longPath 7)).position = 288 := by decide
  rw [hencode, hpath, jsonWidth_longPath, hframe]
  rfl

end Ctxd

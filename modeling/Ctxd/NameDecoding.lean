import Ctxd.GrepVerified
import Ctxd.ListingSources

/-!
# Names that no component has

The names that the store gives to tree files are read back (`logicalComponentName_treeComponentName`), but more names
than these are read: `bytes.fromhex` takes digits of either case and skips blanks between pairs of digits, and nothing
looks at the component that comes of it.  A name is read as it should exactly when what it spells is spelled in small
digits, without blanks, and may be a component (`decodesCanonically_iff`).
-/

namespace Ctxd

/-! ### What a name spells -/

/-- What `bytes.fromhex` reads: pairs of digits, with blanks between the pairs. -/
inductive HexText : List Char → List UInt8 → Prop
  | nil : HexText [] []
  | blank {c : Char} {digits : List Char} {raw : List UInt8} (hc : isSpaceByte c = true) (h : HexText digits raw) :
      HexText (c :: digits) raw
  | pair {c d : Char} {high low : Nat} {digits : List Char} {raw : List UInt8} (hc : hexValue c = some high)
      (hd : hexValue d = some low) (h : HexText digits raw) :
      HexText (c :: d :: digits) (UInt8.ofNat (high * 16 + low) :: raw)

/-- A name is `p-` and the digits of some text. -/
def Spells (name : String) (raw : List UInt8) : Prop :=
  ∃ digits text, name.toList = 'p' :: '-' :: digits ∧ HexText digits raw ∧ raw = Utf8.encode text

def isSmallDigit (c : Char) : Bool := ('0' ≤ c && c ≤ '9') || ('a' ≤ c && c ≤ 'f')

/-- A name spells its bytes in small digits without blanks, and the bytes are those of a component. -/
structure SpellsComponent (name : String) (raw : List UInt8) : Prop where
  digits : ∀ c ∈ name.toList.drop 2, isSmallDigit c = true
  ne_nil : raw ≠ []
  dot : raw ≠ [0x2E]
  dots : raw ≠ [0x2E, 0x2E]
  bytes : ∀ b ∈ raw, b.toNat ≠ 0x2F ∧ 32 ≤ b.toNat ∧ b.toNat ≠ 127

private theorem hexValue_cases {c : Char} {n : Nat} (h : hexValue c = some n) :
    n < 16 ∧ isSpaceByte c = false ∧ (isSmallDigit c = true ↔ hexDigit n = c) := by
  have hself : Char.ofNat c.toNat = c := Char.ofNat_toNat c
  have hrange : (48 ≤ c.toNat ∧ c.toNat ≤ 57) ∨ (97 ≤ c.toNat ∧ c.toNat ≤ 102) ∨ (65 ≤ c.toNat ∧ c.toNat ≤ 70) := by
    unfold hexValue at h
    split at h
    · rename_i hc
      exact .inl hc
    split at h
    · rename_i hc
      exact .inr (.inl hc)
    split at h
    · rename_i hc
      exact .inr (.inr hc)
    · cases h
  generalize c.toNat = k at hself hrange
  subst hself
  rcases hrange with ⟨h1, h2⟩ | ⟨h1, h2⟩ | ⟨h1, h2⟩
  all_goals
    interval_cases k <;>
    · obtain rfl : _ = n := Option.some.inj h
      decide

private theorem fromHex_iff {digits : List Char} {raw : List UInt8} :
    fromHex digits = some raw ↔ HexText digits raw := by
  constructor
  · intro h
    fun_induction fromHex digits generalizing raw with
    | case1 =>
      cases h
      exact .nil
    | case2 c hc =>
      cases h
      exact .blank hc .nil
    | case3 c hc => cases h
    | case4 c d rest hc ih => exact .blank hc (ih h)
    | case5 c d rest hc ih =>
      simp only [bind, Option.bind_eq_some_iff, pure, Option.some.injEq] at h
      obtain ⟨high, hhigh, low, hlow, more, hmore, rfl⟩ := h
      exact .pair hhigh hlow (ih hmore)
  · intro h
    induction h with
    | nil => rfl
    | @blank c digits raw hc _ ih =>
      cases digits with
      | nil =>
        cases ih
        rw [fromHex, if_pos hc]
      | cons d rest => rw [fromHex, if_pos hc, ih]
    | pair hc hd _ ih =>
      rw [fromHex, (hexValue_cases hc).2.1, hc, hd, ih]
      rfl

private theorem logicalComponentName_iff {name v : String} :
    logicalComponentName name = some v ↔
      ∃ digits, name.toList = 'p' :: '-' :: digits ∧ HexText digits (Utf8.encode v.toList) := by
  unfold logicalComponentName
  constructor
  · intro h
    split at h
    swap
    · cases h
    rename_i hstart
    obtain ⟨digits, hdigits⟩ := List.isPrefixOf_iff_prefix.1 hstart
    have hname : name.toList = 'p' :: '-' :: digits := hdigits.symm
    rw [hname] at h
    obtain ⟨raw, hraw, hv⟩ := Option.bind_eq_some_iff.1 h
    refine ⟨digits, hname, ?_⟩
    rw [← encode_of_decodeStrict hv]
    exact fromHex_iff.1 hraw
  · rintro ⟨digits, hname, hhex⟩
    have hstart : "p-".toList.isPrefixOf ('p' :: '-' :: digits) = true := rfl
    rw [hname, if_pos hstart]
    show (fromHex digits).bind decodeStrict = some v
    rw [fromHex_iff.2 hhex, Option.bind_some, decodeStrict_encode, String.ofList_toList]

/-- A name is read exactly when it spells a text. -/
private theorem spells_iff {name : String} {raw : List UInt8} :
    Spells name raw ↔ ∃ v, logicalComponentName name = some v ∧ raw = Utf8.encode v.toList := by
  constructor
  · rintro ⟨digits, text, hname, hhex, rfl⟩
    refine ⟨String.ofList text, logicalComponentName_iff.2 ⟨digits, hname, ?_⟩, by simp⟩
    simpa using hhex
  · rintro ⟨v, hv, rfl⟩
    obtain ⟨digits, hname, hhex⟩ := logicalComponentName_iff.1 hv
    exact ⟨digits, v.toList, hname, hhex, rfl⟩

/-! ### Names of components -/

private theorem isSpaceByte_of_small {c : Char} (h : isSmallDigit c = true) : isSpaceByte c = false := by
  have hrange : (48 ≤ c.toNat ∧ c.toNat ≤ 57) ∨ (97 ≤ c.toNat ∧ c.toNat ≤ 102) := by
    simp only [isSmallDigit, Bool.or_eq_true, Bool.and_eq_true, decide_eq_true_eq] at h
    exact h
  simp only [isSpaceByte, Bool.or_eq_false_iff, Bool.and_eq_false_iff, decide_eq_false_iff_not]
  omega

private theorem isSmallDigit_hexDigit {n : Nat} (h : n < 16) : isSmallDigit (hexDigit n) = true := by
  interval_cases n <;> decide

/-- Digits are the ones that their bytes are written in when they are small and there are no blanks. -/
private theorem HexText.written_iff {digits : List Char} {raw : List UInt8} (h : HexText digits raw) :
    raw.flatMap hexByte = digits ↔ ∀ c ∈ digits, isSmallDigit c = true := by
  constructor
  · rintro rfl c hc
    obtain ⟨n, hn, rfl⟩ := exists_of_mem_flatMap_hexByte hc
    exact isSmallDigit_hexDigit hn
  · intro hsmall
    induction h with
    | nil => rfl
    | @blank c digits raw hc _ ih =>
      rw [isSpaceByte_of_small (hsmall c (List.mem_cons_self ..))] at hc
      cases hc
    | @pair c d high low digits raw hc hd _ ih =>
      obtain ⟨hhigh, -, hc'⟩ := hexValue_cases hc
      obtain ⟨hlow, -, hd'⟩ := hexValue_cases hd
      have hrest := ih fun x hx => hsmall x (List.mem_cons_of_mem _ (List.mem_cons_of_mem _ hx))
      have hbyte : (UInt8.ofNat (high * 16 + low)).toNat = high * 16 + low := by
        rw [UInt8.toNat_ofNat']
        omega
      have hdivision : (high * 16 + low) / 16 = high := by omega
      have hremainder : (high * 16 + low) % 16 = low := by omega
      rw [List.flatMap_cons, hexByte, hbyte, hdivision, hremainder, hrest,
        hc'.1 (hsmall c (List.mem_cons_self ..)), hd'.1 (hsmall d (List.mem_cons_of_mem _ (List.mem_cons_self ..)))]
      rfl

private theorem toList_treeComponentName (part : String) :
    (treeComponentName part).toList = 'p' :: '-' :: (Utf8.encode part.toList).flatMap hexByte := by
  rw [← Utf8.bytes_eq_encode]
  simp [treeComponentName, hexBytes]

/-- A valid single component of a path. -/
structure ValidComponent (v : String) : Prop where
  ne_empty : v ≠ ""
  slash : '/' ∉ v.toList
  dot : v ≠ "."
  dots : v ≠ ".."
  control : hasControlCharacter v = false

/-- A component, by its bytes. -/
private theorem validComponent_iff (v : String) :
    ValidComponent v ↔
      Utf8.encode v.toList ≠ [] ∧ Utf8.encode v.toList ≠ [0x2E] ∧ Utf8.encode v.toList ≠ [0x2E, 0x2E] ∧
        ∀ b ∈ Utf8.encode v.toList, b.toNat ≠ 0x2F ∧ 32 ≤ b.toNat ∧ b.toNat ≠ 127 := by
  have htext : ∀ w : String, Utf8.encode v.toList = Utf8.encode w.toList ↔ v = w := fun w =>
    ⟨fun h => String.toList_inj.1 (Utf8.encode_injective h), fun h => by rw [h]⟩
  have hempty := htext ""
  have hdot := htext "."
  have hdots := htext ".."
  have hchars : (∀ c ∈ v.toList, c.toNat ≠ 0x2F ∧ 32 ≤ c.toNat ∧ c.toNat ≠ 127) ↔
      '/' ∉ v.toList ∧ hasControlCharacter v = false := by
    unfold hasControlCharacter
    rw [List.any_eq_false]
    constructor
    · intro h
      refine ⟨fun hslash => (h '/' hslash).1 rfl, fun c hc => ?_⟩
      have hcontrol := (h c hc).2
      simp only [Bool.or_eq_true, decide_eq_true_eq, beq_iff_eq]
      omega
    · rintro ⟨hslash, hcontrol⟩ c hc
      have hnot := hcontrol c hc
      simp only [Bool.or_eq_true, decide_eq_true_eq, beq_iff_eq] at hnot
      refine ⟨fun hnat => hslash ?_, by omega, by omega⟩
      rwa [← Char.toNat_inj.1 (hnat.trans (show 0x2F = '/'.toNat from rfl))]
  rw [Utf8.forall_encode_iff (P := fun n => n ≠ 0x2F ∧ 32 ≤ n ∧ n ≠ 127) (by intro n hn; omega), hchars]
  have hbytes : Utf8.encode "".toList = [] ∧ Utf8.encode ".".toList = [0x2E] ∧ Utf8.encode "..".toList =
    [0x2E, 0x2E] := by
    decide
  rw [hbytes.1] at hempty
  rw [hbytes.2.1] at hdot
  rw [hbytes.2.2] at hdots
  rw [Ne, Ne, Ne, hempty, hdot, hdots]
  exact ⟨fun h => ⟨h.ne_empty, h.dot, h.dots, h.slash, h.control⟩,
    fun ⟨h1, h2, h3, h4, h5⟩ => ⟨h1, h4, h2, h3, h5⟩⟩

/-- A name that is read is the one the store gives to what is read, and this is a component. -/
def DecodesCanonically (name : String) : Prop :=
  ∀ v, logicalComponentName name = some v → treeComponentName v = name ∧ ValidComponent v

theorem decodesCanonically_iff (name : String) :
    DecodesCanonically name ↔ ∀ raw, Spells name raw → SpellsComponent name raw := by
  have hone : ∀ v, logicalComponentName name = some v →
      (treeComponentName v = name ∧ ValidComponent v ↔ SpellsComponent name (Utf8.encode v.toList)) := by
    intro v hv
    obtain ⟨digits, hname, hhex⟩ := logicalComponentName_iff.1 hv
    have hwritten : treeComponentName v = name ↔ ∀ c ∈ name.toList.drop 2, isSmallDigit c = true := by
      rw [← String.toList_inj, toList_treeComponentName, hname, List.cons_inj_right, List.cons_inj_right,
        hhex.written_iff]
      rfl
    rw [hwritten, validComponent_iff]
    exact ⟨fun ⟨h1, h2, h3, h4, h5⟩ => ⟨h1, h2, h3, h4, h5⟩, fun h => ⟨h.digits, h.ne_nil, h.dot, h.dots, h.bytes⟩⟩
  constructor
  · intro h raw hraw
    obtain ⟨v, hv, rfl⟩ := spells_iff.1 hraw
    exact (hone v hv).1 (h v hv)
  · intro h v hv
    exact (hone v hv).2 (h _ (spells_iff.2 ⟨v, hv, rfl⟩))

/-! ### Paths of files -/

/-- The bytes of a text that begins with a drive letter. -/
def BeginsWithDrive (raw : List UInt8) : Prop :=
  ∃ letter rest, raw = letter :: 0x3A :: rest ∧
    (65 ≤ letter.toNat ∧ letter.toNat ≤ 90 ∨ 97 ≤ letter.toNat ∧ letter.toNat ≤ 122)

private theorem startsWithDrive_toList (v : String) :
    startsWithDrive v = true ↔ ∃ letter tail, v.toList = letter :: ':' :: tail ∧ letter.isAlpha = true := by
  unfold startsWithDrive
  constructor
  · intro h
    split at h
    · rename_i letter tail hchars
      exact ⟨letter, tail, hchars, h⟩
    · cases h
  · rintro ⟨letter, tail, hchars, hletter⟩
    rw [hchars]
    exact hletter

private theorem isAlpha_iff (c : Char) :
    c.isAlpha = true ↔ 65 ≤ c.toNat ∧ c.toNat ≤ 90 ∨ 97 ≤ c.toNat ∧ c.toNat ≤ 122 := by
  have halpha : c.isAlpha = (decide ('A'.val ≤ c.val ∧ c.val ≤ 'Z'.val) ||
      (decide ('a'.val ≤ c.val) && decide (c.val ≤ 'z'.val))) := rfl
  simp only [halpha, Bool.or_eq_true, Bool.and_eq_true, decide_eq_true_eq]
  rfl

private theorem startsWithDrive_iff (v : String) :
    startsWithDrive v = true ↔ BeginsWithDrive (Utf8.encode v.toList) := by
  rw [startsWithDrive_toList]
  constructor
  · rintro ⟨letter, tail, hchars, hletter⟩
    rw [isAlpha_iff] at hletter
    refine ⟨UInt8.ofNat letter.toNat, Utf8.encode tail, ?_, ?_⟩
    · rw [hchars, Utf8.encode_cons_ascii (by omega), Utf8.encode_cons_ascii (by decide)]
      rfl
    · rw [UInt8.toNat_ofNat']
      omega
  · rintro ⟨letter, rest, hbytes, hletter⟩
    obtain ⟨c, more, hchars, hc, hmore⟩ := Utf8.encode_eq_cons_ascii hbytes (by omega)
    obtain ⟨d, tail, rfl, hd, -⟩ := Utf8.encode_eq_cons_ascii hmore (by decide)
    obtain rfl : d = ':' := Char.toNat_inj.1 hd
    refine ⟨c, tail, hchars, ?_⟩
    rw [isAlpha_iff, hc]
    exact hletter

/-- A path begins with a drive letter when its first component does. -/
private theorem startsWithDrive_joinParts {part : String} (hne : part ≠ "") (parts : List String) :
    startsWithDrive (joinParts (part :: parts)) = startsWithDrive part := by
  have hjoin : ∃ more, (joinParts (part :: parts)).toList = part.toList ++ more ∧ ∀ c ∈ more.head?, c = '/' := by
    cases parts with
    | nil => exact ⟨[], by simp [joinParts, joinSlash], by simp⟩
    | cons next parts =>
      refine ⟨'/' :: joinSlash ((next :: parts).map String.toList), by simp [joinParts, joinSlash], by simp⟩
  obtain ⟨more, hmore, hhead⟩ := hjoin
  rw [Bool.eq_iff_iff, startsWithDrive_toList, startsWithDrive_toList, hmore]
  cases hchars : part.toList with
  | nil => exact absurd (String.toList_eq_nil_iff.1 hchars) hne
  | cons c chars =>
    cases chars with
    | cons d chars => simp
    | nil =>
      cases more with
      | nil => rfl
      | cons d more =>
        obtain rfl : d = '/' := hhead d rfl
        simp

private theorem hasControlCharacter_joinParts {parts : List String}
    (h : ∀ part ∈ parts, hasControlCharacter part = false) :
    hasControlCharacter (joinParts parts) = false := by
  induction parts with
  | nil => rfl
  | cons part parts ih =>
    have hpart := h part (List.mem_cons_self ..)
    have hrest := ih fun p hp => h p (List.mem_cons_of_mem _ hp)
    have hsingle : joinParts [part] = part := by simp [joinParts, joinSlash]
    by_cases hparts : parts = []
    · rw [hparts, hsingle]
      exact hpart
    · rw [← List.singleton_append, joinParts_append (by simp) hparts, hsingle]
      unfold hasControlCharacter at hpart hrest ⊢
      rw [String.toList_append, String.toList_append, List.any_append, List.any_append, hpart, hrest]
      decide

private theorem mapM_logicalComponentName_isSome (names : List String) :
    (names.mapM logicalComponentName).isSome ↔ ∀ name ∈ names, ∃ raw, Spells name raw := by
  induction names with
  | nil => simp
  | cons name names ih =>
    have hfirst : (∃ raw, Spells name raw) ↔ (logicalComponentName name).isSome := by
      rw [Option.isSome_iff_exists]
      constructor
      · rintro ⟨raw, hraw⟩
        obtain ⟨v, hv, -⟩ := spells_iff.1 hraw
        exact ⟨v, hv⟩
      · rintro ⟨v, hv⟩
        exact ⟨_, spells_iff.2 ⟨v, hv, rfl⟩⟩
    rw [List.forall_mem_cons, hfirst, ← ih, List.mapM_cons]
    cases logicalComponentName name with
    | none => simp
    | some v => cases names.mapM logicalComponentName <;> simp

theorem logicalTreePath_isSome (path : TreePath) :
    (logicalTreePath path).isSome ↔ ∀ name ∈ path, ∃ raw, Spells name raw := by
  have hreverse := mapM_logicalComponentName_isSome path.reverse
  simp only [List.mem_reverse] at hreverse
  rw [← hreverse]
  unfold logicalTreePath
  cases path.reverse.mapM logicalComponentName <;> rfl

/-- Names that are read as they should are those of some components. -/
private theorem mapM_canonical {names parts : List String} (hnames : ∀ name ∈ names, DecodesCanonically name)
    (h : names.mapM logicalComponentName = some parts) :
    parts.map treeComponentName = names ∧ ∀ part ∈ parts, ValidComponent part := by
  induction names generalizing parts with
  | nil =>
    cases h
    exact ⟨rfl, fun part hpart => by cases hpart⟩
  | cons name names ih =>
    rw [List.mapM_cons] at h
    simp only [bind, Option.bind_eq_some_iff, pure, Option.some.injEq] at h
    obtain ⟨part, hpart, rest, hrest, rfl⟩ := h
    obtain ⟨hname, hvalid⟩ := hnames name (List.mem_cons_self ..) part hpart
    obtain ⟨hmap, hall⟩ := ih (fun n hn => hnames n (List.mem_cons_of_mem _ hn)) hrest
    exact ⟨by rw [List.map_cons, hname, hmap], List.forall_mem_cons.2 ⟨hvalid, hall⟩⟩

/-- Components make a path, but for a drive letter at its begin. -/
private theorem normalized_joinParts {part : String} {parts : List String} (h : ∀ p ∈ part :: parts, ValidComponent p) :
    posixParts (joinParts (part :: parts)) = part :: parts ∧
      (Normalized (joinParts (part :: parts)) ↔ startsWithDrive part = false) := by
  have hraw : rawParts (joinParts (part :: parts)) = part :: parts :=
    rawParts_joinParts (by simp) fun p hp => (h p hp).slash
  have hdots : (rawParts (joinParts (part :: parts))).any isDots = false := by
    rw [hraw, List.any_eq_false]
    intro p hp
    simp [isDots, (h p hp).ne_empty, (h p hp).dot, (h p hp).dots]
  refine ⟨by rw [posixParts_eq_rawParts hdots, hraw], ?_⟩
  rw [normalized_iff, startsWithDrive_joinParts (h part (List.mem_cons_self ..)).ne_empty]
  exact ⟨fun hn => hn.2.1,
    fun hdrive => ⟨hasControlCharacter_joinParts fun p hp => (h p hp).control, hdrive, hdots⟩⟩

/-- A file whose names are read as they should has the place of its path, and this is a path but for a drive letter. -/
theorem logicalTreePath_canonical {path : TreePath} {p : String} (hnames : ∀ name ∈ path, DecodesCanonically name)
    (hne : path ≠ []) (h : logicalTreePath path = some p) :
    treePath p = path ∧
      (Normalized p ↔ ∀ name ∈ path.getLast?, ∀ raw, Spells name raw → ¬BeginsWithDrive raw) := by
  simp only [logicalTreePath, bind, Option.bind_eq_some_iff, pure, Option.some.injEq] at h
  obtain ⟨parts, hparts, rfl⟩ := h
  obtain ⟨hmap, hvalid⟩ := mapM_canonical (fun name hname => hnames name (List.mem_reverse.1 hname)) hparts
  cases parts with
  | nil => exact absurd (List.reverse_eq_nil_iff.1 hmap.symm) hne
  | cons part parts =>
    obtain ⟨hposix, hnormal⟩ := normalized_joinParts hvalid
    refine ⟨by rw [treePath, hposix, hmap, List.reverse_reverse], ?_⟩
    have hlast : path.getLast? = some (treeComponentName part) := by
      rw [← List.head?_reverse, ← hmap]
      rfl
    rw [hnormal, hlast, ← Bool.not_eq_true, startsWithDrive_iff]
    constructor
    · intro hdrive name hname raw hraw
      obtain rfl : treeComponentName part = name := Option.some.inj hname
      obtain ⟨v, hv, rfl⟩ := spells_iff.1 hraw
      rw [logicalComponentName_treeComponentName] at hv
      rwa [← Option.some.inj hv]
    · intro hall
      exact hall _ rfl _ (spells_iff.2 ⟨part, logicalComponentName_treeComponentName part, rfl⟩)

end Ctxd

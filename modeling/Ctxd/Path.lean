import Ctxd.Models
import Mathlib.Data.List.Infix
import Mathlib.Tactic.IntervalCases

/-!
# The path policy and the names of tree files

`normalizePath` is the check every path of an operation and every prefix passes; it returns its argument unchanged.
A normalised path is the join of its components, so two normalised paths with the same components are equal
(`parts_injective`), and `pathIsWithinPrefix` compares components although it is written on strings
(`pathIsWithinPrefix_iff`).

A document is stored under its user's root at one directory level for each component, each named by
`treeComponentName`.  Tree paths are written leaf first: the parent of `c :: rest` is `rest`, and `rest` is an
ancestor of `p` when it is a suffix of it.
-/

namespace Ctxd

/-! ### Splitting and joining -/

/-- `s.split("/")` on characters. -/
def splitSlash : List Char → List (List Char)
  | [] => [[]]
  | c :: cs =>
    if c = '/' then [] :: splitSlash cs
    else match splitSlash cs with
      | [] => [[c]]
      | p :: ps => (c :: p) :: ps

/-- `"/".join(parts)` on characters. -/
def joinSlash : List (List Char) → List Char
  | [] => []
  | [p] => p
  | p :: ps => p ++ '/' :: joinSlash ps

def rawParts (path : String) : List String := (splitSlash path.toList).map String.ofList

def joinParts (parts : List String) : String := String.ofList (joinSlash (parts.map String.toList))

/-- `PurePosixPath(path).parts` of a relative path: empty and `.` components are dropped. -/
def posixParts (path : String) : List String := (rawParts path).filter fun p => p ≠ "" ∧ p ≠ "."

/-! ### The checks -/

def hasControlCharacter (value : String) : Bool :=
  value.toList.any fun c => c.toNat < 32 || c.toNat == 127

/-- `path.startswith(tuple(f"{letter}:" for letter in _ASCII_LETTERS))`. -/
def startsWithDrive (path : String) : Bool :=
  match path.toList with
  | letter :: ':' :: _ => letter.isAlpha
  | _ => false

def isDots (part : String) : Bool := part = "" || part = "." || part = ".."

def invalidPath (path : String) : StoreError := .valueError s!"invalid ctxfs path: {path}"

def normalizePath (path : String) : Except StoreError String :=
  if path = "" || path.toList.head? = some '/' || hasControlCharacter path then .error (invalidPath path)
  else if startsWithDrive path then .error (invalidPath path)
  else if (rawParts path).any isDots then .error (invalidPath path)
  else
    let parts := posixParts path
    if parts = [] || parts.any (fun part => isDots part || hasControlCharacter part) then .error (invalidPath path)
    else .ok (joinParts parts)

/-- `path.startswith(f"{prefix}/")`. -/
def startsBelow (path pre : String) : Bool := (pre.toList ++ ['/']).isPrefixOf path.toList

def pathIsWithinPrefix (path pre : String) : Except StoreError Bool := do
  let normalizedPath ← normalizePath path
  let normalizedPrefix ← normalizePath pre
  return normalizedPath = normalizedPrefix || startsBelow normalizedPath normalizedPrefix

def prefixesOverlap (left right : String) : Except StoreError Bool := do
  if ← pathIsWithinPrefix left right then return true
  pathIsWithinPrefix right left

/-! ### Tree paths -/

def hexDigit (n : Nat) :
    Char := ['0', '1', '2', '3', '4', '5', '6', '7', '8', '9', 'a', 'b', 'c', 'd', 'e', 'f'].getD n '0'

def hexByte (b : UInt8) : List Char := [hexDigit (b.toNat / 16), hexDigit (b.toNat % 16)]

/-- `data.hex()`. -/
def hexBytes (data : ByteArray) : String := String.ofList (data.data.toList.flatMap hexByte)

def treeComponentName (value : String) : String := "p-" ++ hexBytes value.toUTF8

/-- The names from a node up to the directory below which it is stored. -/
abbrev TreePath := List String

/-- The place of a document under its user's root. -/
def treePath (path : String) : TreePath := ((posixParts path).map treeComponentName).reverse

/-! ### Splitting is the inverse of joining -/

theorem splitSlash_ne_nil (cs : List Char) : splitSlash cs ≠ [] := by
  cases cs with
  | nil => simp [splitSlash]
  | cons c cs =>
    unfold splitSlash
    split
    · simp
    · split <;> simp

private theorem joinSlash_cons {p : List Char} {ps : List (List Char)} (h : ps ≠ []) :
    joinSlash (p :: ps) = p ++ '/' :: joinSlash ps := by
  cases ps with
  | nil => exact absurd rfl h
  | cons q qs => rfl

private theorem joinSlash_splitSlash (cs : List Char) : joinSlash (splitSlash cs) = cs := by
  induction cs with
  | nil => rfl
  | cons c cs ih =>
    unfold splitSlash
    split
    · rename_i h
      rw [joinSlash_cons (splitSlash_ne_nil cs), ih, h]
      rfl
    · split
      · rename_i h
        exact absurd h (splitSlash_ne_nil cs)
      · rename_i p ps h
        rw [h] at ih
        cases ps with
        | nil => simpa [joinSlash] using ih
        | cons q qs =>
          rw [joinSlash_cons (by simp)] at ih ⊢
          rw [← ih]
          rfl

private theorem splitSlash_append (cs ds : List Char) :
    splitSlash (cs ++ '/' :: ds) = splitSlash cs ++ splitSlash ds := by
  induction cs with
  | nil => simp [splitSlash]
  | cons c cs ih =>
    simp only [List.cons_append, splitSlash, ih]
    split
    · rfl
    · cases h : splitSlash cs with
      | nil => exact absurd h (splitSlash_ne_nil cs)
      | cons p ps => rfl

private theorem joinSlash_append {ps qs : List (List Char)} (hp : ps ≠ []) (hq : qs ≠ []) :
    joinSlash (ps ++ qs) = joinSlash ps ++ '/' :: joinSlash qs := by
  induction ps with
  | nil => exact absurd rfl hp
  | cons p ps ih =>
    cases ps with
    | nil => exact joinSlash_cons hq
    | cons p' ps =>
      have e : joinSlash ((p :: p' :: ps) ++ qs) = p ++ '/' :: joinSlash ((p' :: ps) ++ qs) := rfl
      have e' : joinSlash (p :: p' :: ps) = p ++ '/' :: joinSlash (p' :: ps) := rfl
      rw [e, e', ih (by simp), List.append_assoc, List.cons_append]

theorem map_toList_rawParts (path : String) : (rawParts path).map String.toList = splitSlash path.toList := by
  simp [rawParts, Function.comp_def]

theorem joinParts_rawParts (path : String) : joinParts (rawParts path) = path := by
  rw [joinParts, map_toList_rawParts, joinSlash_splitSlash, String.ofList_toList]

theorem rawParts_append (p q : String) : rawParts (p ++ "/" ++ q) = rawParts p ++ rawParts q := by
  have hlist : (p ++ "/" ++ q).toList = p.toList ++ '/' :: q.toList := by simp
  rw [rawParts, hlist, splitSlash_append, List.map_append]
  rfl

theorem rawParts_of_forall {s : String} (h : ∀ c ∈ s.toList, c ≠ '/') : rawParts s = [s] := by
  have hsplit : ∀ cs : List Char, (∀ c ∈ cs, c ≠ '/') → splitSlash cs = [cs] := by
    intro cs
    induction cs with
    | nil => exact fun _ => rfl
    | cons c cs ih =>
      intro hcs
      have htail := ih fun d hd => hcs d (List.mem_cons_of_mem _ hd)
      simp [splitSlash, htail, hcs c (by simp)]
  rw [rawParts, hsplit _ h]
  simp

/-! ### Normalised paths -/

/-- A path that `normalizePath` accepts. -/
def Normalized (path : String) : Prop := normalizePath path = .ok path

instance (path : String) : Decidable (Normalized path) := by
  unfold Normalized
  infer_instance

theorem posixParts_eq_rawParts {path : String} (h : (rawParts path).any isDots = false) :
    posixParts path = rawParts path := by
  unfold posixParts
  rw [List.filter_eq_self]
  intro p hp
  have := List.any_eq_false.1 h p hp
  simp only [isDots, Bool.or_eq_true, decide_eq_true_eq, not_or] at this
  simp [this.1.1, this.1.2]

/-- `normalizePath` returns its argument. -/
theorem normalizePath_eq {path q : String} (h : normalizePath path = .ok q) : q = path := by
  unfold normalizePath at h
  split at h
  · cases h
  split at h
  · cases h
  split at h
  · cases h
  rename_i hd
  rw [Bool.not_eq_true] at hd
  simp only [posixParts_eq_rawParts hd] at h
  split at h
  · cases h
  cases h
  exact joinParts_rawParts path

theorem normalizePath_error {path : String} {e : StoreError} (h : normalizePath path = .error e) :
    e = invalidPath path := by
  unfold normalizePath at h
  split at h
  · exact (Except.error.inj h).symm
  split at h
  · exact (Except.error.inj h).symm
  split at h
  · exact (Except.error.inj h).symm
  dsimp only at h
  split at h
  · exact (Except.error.inj h).symm
  · cases h

theorem Normalized.of_ok {path q : String} (h : normalizePath path = .ok q) : Normalized path := by
  have := normalizePath_eq h
  subst this
  exact h

theorem Normalized.posixParts_eq {path : String} (h : Normalized path) : posixParts path = rawParts path := by
  unfold Normalized normalizePath at h
  split at h
  · cases h
  split at h
  · cases h
  split at h
  · cases h
  rename_i hd
  exact posixParts_eq_rawParts (by simpa using hd)

theorem mem_of_mem_splitSlash {cs p : List Char} (hp : p ∈ splitSlash cs) : ∀ c ∈ p, c ∈ cs := by
  induction cs generalizing p with
  | nil => simp_all [splitSlash]
  | cons d cs ih =>
    intro c hc
    unfold splitSlash at hp
    split at hp
    · rcases List.mem_cons.1 hp with rfl | hp
      · cases hc
      · exact List.mem_cons_of_mem _ (ih hp c hc)
    · cases hs : splitSlash cs with
      | nil => exact absurd hs (splitSlash_ne_nil cs)
      | cons q qs =>
        rw [hs] at hp ih
        rcases List.mem_cons.1 hp with rfl | hp
        · rcases List.mem_cons.1 hc with rfl | hc
          · simp
          · exact List.mem_cons_of_mem _ (ih (by simp) c hc)
        · exact List.mem_cons_of_mem _ (ih (List.mem_cons_of_mem _ hp) c hc)

private theorem hasControlCharacter_of_part {path part : String} (h : hasControlCharacter path = false)
    (hp : part ∈ rawParts path) : hasControlCharacter part = false := by
  obtain ⟨cs, hcs, rfl⟩ := List.mem_map.1 hp
  unfold hasControlCharacter at h ⊢
  rw [List.any_eq_false] at h ⊢
  intro c hc
  rw [String.toList_ofList] at hc
  exact h c (mem_of_mem_splitSlash hcs c hc)

/-- The first checks are enough. -/
theorem Normalized.of_checks {path : String}
    (hfirst : (path = "" || path.toList.head? = some '/' || hasControlCharacter path) = false)
    (hdrive : startsWithDrive path = false) (hdots : (rawParts path).any isDots = false) : Normalized path := by
  have hparts := posixParts_eq_rawParts hdots
  have hne : rawParts path ≠ [] := by simp [rawParts, splitSlash_ne_nil]
  have hcontrol : hasControlCharacter path = false := by
    simp only [Bool.or_eq_false_iff] at hfirst
    exact hfirst.2
  have hlast : (rawParts path).any (fun part => isDots part || hasControlCharacter part) = false := by
    rw [List.any_eq_false] at hdots ⊢
    intro part hpart
    simp [hdots part hpart, hasControlCharacter_of_part hcontrol hpart]
  unfold Normalized normalizePath
  rw [if_neg (by simp only [hfirst]; simp), if_neg (by simp [hdrive]), if_neg (by simp [hdots])]
  simp only [hparts]
  rw [if_neg (by simp only [hlast]; simpa using hne), joinParts_rawParts]

private theorem rawParts_head_slash {path : String} (h : (rawParts path).any isDots = false) :
    path ≠ "" ∧ path.toList.head? ≠ some '/' := by
  have hempty : "" ∉ rawParts path := fun hmem => by
    have := List.any_eq_false.1 h "" hmem
    simp [isDots] at this
  refine ⟨fun hpath => hempty (by simp [hpath, rawParts, splitSlash]), fun hslash => hempty ?_⟩
  cases hchars : path.toList with
  | nil => simp [hchars] at hslash
  | cons c cs =>
    obtain rfl : c = '/' := by simpa [hchars] using hslash
    simp [rawParts, hchars, splitSlash]

/-- The checks of the path policy. -/
theorem normalized_iff {path : String} :
    Normalized path ↔
      hasControlCharacter path = false ∧ startsWithDrive path = false ∧ (rawParts path).any isDots = false := by
  constructor
  · intro h
    unfold Normalized normalizePath at h
    split at h
    · cases h
    rename_i hfirst
    split at h
    · cases h
    rename_i hdrive
    split at h
    · cases h
    rename_i hdots
    simp only [Bool.or_eq_true, not_or, Bool.not_eq_true] at hfirst hdrive hdots
    exact ⟨hfirst.2, hdrive, hdots⟩
  · rintro ⟨hcontrol, hdrive, hdots⟩
    obtain ⟨hempty, hslash⟩ := rawParts_head_slash hdots
    exact .of_checks (by simp [hempty, hslash, hcontrol]) hdrive hdots

/-- A path below a normalised one passes the policy by itself, but for a drive letter at its begin. -/
theorem normalized_below_iff {pre : String} (rest : String) (hpre : Normalized pre) :
    Normalized rest ↔ Normalized (pre ++ "/" ++ rest) ∧ startsWithDrive rest = false := by
  obtain ⟨hcontrol, hdrive, hdots⟩ := normalized_iff.1 hpre
  have hcontrols : hasControlCharacter (pre ++ "/" ++ rest) = hasControlCharacter rest := by
    unfold hasControlCharacter at hcontrol ⊢
    simp [hcontrol]
  have hdrives : startsWithDrive (pre ++ "/" ++ rest) = false := by
    obtain ⟨hempty, -⟩ := rawParts_head_slash hdots
    unfold startsWithDrive at hdrive ⊢
    cases hchars : pre.toList with
    | nil => exact absurd (String.toList_eq_nil_iff.1 hchars) hempty
    | cons c cs =>
      cases cs with
      | nil => simp [hchars]
      | cons d cs =>
        have htext : (pre ++ "/" ++ rest).toList = c :: d :: (cs ++ '/' :: rest.toList) := by simp [hchars]
        rw [hchars] at hdrive
        rw [htext]
        by_cases hd : d = ':'
        · subst hd
          exact hdrive
        · split
          · rename_i heq
            exact absurd (List.cons.inj (List.cons.inj heq).2).1 hd
          · rfl
  have hparts : (rawParts (pre ++ "/" ++ rest)).any isDots = (rawParts rest).any isDots := by
    rw [rawParts_append, List.any_append, hdots, Bool.false_or]
  rw [normalized_iff, normalized_iff, hcontrols, hdrives, hparts]
  tauto

/-- A normalised path is determined by its components. -/
theorem parts_injective {p q : String} (hp : Normalized p) (hq : Normalized q) (h : posixParts p = posixParts q) :
    p = q := by
  rw [hp.posixParts_eq, hq.posixParts_eq] at h
  rw [← joinParts_rawParts p, ← joinParts_rawParts q, h]

theorem Normalized.posixParts_ne_nil {path : String} (h : Normalized path) : posixParts path ≠ [] := by
  rw [h.posixParts_eq]
  simp [rawParts, splitSlash_ne_nil]

theorem rawParts_prefix_iff (p q : String) :
    rawParts q <+: rawParts p ↔ p = q ∨ startsBelow p q = true := by
  unfold startsBelow
  rw [List.isPrefixOf_iff_prefix]
  constructor
  · rintro ⟨rest, h⟩
    have e : splitSlash p.toList = splitSlash q.toList ++ rest.map String.toList := by
      rw [← map_toList_rawParts, ← h, List.map_append, map_toList_rawParts]
    have hp := joinSlash_splitSlash p.toList
    rw [e] at hp
    cases rest with
    | nil =>
      left
      rw [List.map_nil, List.append_nil, joinSlash_splitSlash] at hp
      exact (String.toList_inj.1 hp).symm
    | cons r rs =>
      right
      rw [joinSlash_append (splitSlash_ne_nil _) (by simp), joinSlash_splitSlash] at hp
      exact ⟨joinSlash ((r :: rs).map String.toList), by rw [← hp]; simp⟩
  · rintro (rfl | ⟨rest, h⟩)
    · exact List.prefix_refl _
    · refine ⟨(splitSlash rest).map String.ofList, ?_⟩
      rw [List.append_assoc] at h
      rw [rawParts, rawParts, ← h, List.singleton_append, splitSlash_append, List.map_append]

private theorem slash_not_mem_splitSlash {cs p : List Char} (hp : p ∈ splitSlash cs) : '/' ∉ p := by
  induction cs generalizing p with
  | nil => simp_all [splitSlash]
  | cons d cs ih =>
    unfold splitSlash at hp
    split at hp
    · rcases List.mem_cons.1 hp with rfl | hp
      · simp
      · exact ih hp
    · rename_i hd
      cases hs : splitSlash cs with
      | nil => exact absurd hs (splitSlash_ne_nil cs)
      | cons q qs =>
        rw [hs] at hp ih
        rcases List.mem_cons.1 hp with rfl | hp
        · have hq := ih (p := q) (by simp)
          simp [Ne.symm hd, hq]
        · exact ih (List.mem_cons_of_mem _ hp)

private theorem slash_not_mem_part {path part : String} (h : part ∈ rawParts path) : '/' ∉ part.toList := by
  obtain ⟨cs, hcs, rfl⟩ := List.mem_map.1 h
  rw [String.toList_ofList]
  exact slash_not_mem_splitSlash hcs

theorem joinParts_append {ps qs : List String} (hp : ps ≠ []) (hq : qs ≠ []) :
    joinParts (ps ++ qs) = joinParts ps ++ "/" ++ joinParts qs := by
  unfold joinParts
  rw [List.map_append, joinSlash_append (by simpa using hp) (by simpa using hq)]
  apply String.toList_inj.1
  simp

theorem rawParts_joinParts {parts : List String} (hne : parts ≠ []) (h : ∀ part ∈ parts, '/' ∉ part.toList) :
    rawParts (joinParts parts) = parts := by
  induction parts with
  | nil => exact absurd rfl hne
  | cons part parts ih =>
    have hpart : rawParts part = [part] := rawParts_of_forall fun c hc => by
      rintro rfl
      exact h part (by simp) hc
    have hsingle : joinParts [part] = part := by simp [joinParts, joinSlash]
    by_cases hrest : parts = []
    · rw [hrest, hsingle, hpart]
    · rw [← List.singleton_append, joinParts_append (by simp) hrest, hsingle, rawParts_append, hpart,
        ih hrest fun p hp => h p (List.mem_cons_of_mem _ hp)]

/-- The directories above a document have normalised paths. -/
theorem Normalized.above {path : String} (h : Normalized path) {parts : List String} (hne : parts ≠ [])
    (hpre : parts <+: posixParts path) : Normalized (joinParts parts) ∧ posixParts (joinParts parts) = parts := by
  rw [h.posixParts_eq] at hpre
  obtain ⟨hcontrol, hdrive, hdots⟩ := normalized_iff.1 h
  have hraw : rawParts (joinParts parts) = parts :=
    rawParts_joinParts hne fun part hpart => slash_not_mem_part (hpre.subset hpart)
  have hdots' : (rawParts (joinParts parts)).any isDots = false := by
    rw [hraw]
    rw [List.any_eq_false] at hdots ⊢
    exact fun part hpart => hdots part (hpre.subset hpart)
  obtain ⟨more, hmore⟩ : (joinParts parts).toList <+: path.toList := by
    have hprefix : rawParts (joinParts parts) <+: rawParts path := by rwa [hraw]
    rcases (rawParts_prefix_iff _ _).1 hprefix with rfl | hbelow
    · exact List.prefix_refl _
    · exact (List.prefix_append _ _).trans (List.isPrefixOf_iff_prefix.1 hbelow)
  have hcontrol' : hasControlCharacter (joinParts parts) = false := by
    unfold hasControlCharacter at hcontrol ⊢
    rw [← hmore, List.any_append, Bool.or_eq_false_iff] at hcontrol
    exact hcontrol.1
  have hdrive' : startsWithDrive (joinParts parts) = false := by
    unfold startsWithDrive at hdrive ⊢
    rw [← hmore] at hdrive
    split
    · rename_i heq
      rw [heq] at hdrive
      exact hdrive
    · rfl
  have hnormal := normalized_iff.2 ⟨hcontrol', hdrive', hdots'⟩
  exact ⟨hnormal, by rw [hnormal.posixParts_eq, hraw]⟩

/-- On normalised paths the string comparison compares components. -/
theorem pathIsWithinPrefix_eq {p q : String} (hp : Normalized p) (hq : Normalized q) :
    pathIsWithinPrefix p q = .ok (decide (posixParts q <+: posixParts p)) := by
  have e : pathIsWithinPrefix p q = .ok (decide (p = q) || startsBelow p q) := by
    unfold Normalized at hp hq
    unfold pathIsWithinPrefix
    rw [hp, hq]
    rfl
  rw [e, hp.posixParts_eq, hq.posixParts_eq]
  congr 1
  rw [Bool.eq_iff_iff, decide_eq_true_iff, rawParts_prefix_iff]
  simp

theorem pathIsWithinPrefix_ok {p q : String} {b : Bool} (h : pathIsWithinPrefix p q = .ok b) :
    Normalized p ∧ Normalized q := by
  unfold pathIsWithinPrefix at h
  cases hp : normalizePath p with
  | error e => rw [hp] at h; cases h
  | ok p' =>
    cases hq : normalizePath q with
    | error e => rw [hp, hq] at h; cases h
    | ok q' => exact ⟨.of_ok hp, .of_ok hq⟩

/-! ### Tree paths determine the path -/

private theorem hexDigit_injective {m n : Nat} (hm : m < 16) (hn : n < 16) (h : hexDigit m = hexDigit n) : m = n := by
  interval_cases m <;> interval_cases n <;> first | rfl | (exact absurd h (by decide))

private theorem hexByte_injective {a b : UInt8} (h : hexByte a = hexByte b) : a = b := by
  have ha := a.toNat_lt
  have hb := b.toNat_lt
  simp only [hexByte, List.cons.injEq, and_true] at h
  have h1 := hexDigit_injective (by omega) (by omega) h.1
  have h2 := hexDigit_injective (by omega) (by omega) h.2
  exact UInt8.toNat_inj.1 (by omega)

/-- All that is written for bytes are digits. -/
theorem exists_of_mem_flatMap_hexByte {c : Char} {bytes : List UInt8} (h : c ∈ bytes.flatMap hexByte) :
    ∃ n < 16, c = hexDigit n := by
  obtain ⟨b, -, hb⟩ := List.mem_flatMap.1 h
  have hlt := b.toNat_lt
  have hhigh : b.toNat / 16 < 16 := by omega
  have hlow : b.toNat % 16 < 16 := by omega
  rcases List.mem_cons.1 hb with rfl | hb
  · exact ⟨_, hhigh, rfl⟩
  · exact ⟨_, hlow, List.mem_singleton.1 hb⟩

private theorem flatMap_hexByte_injective {xs ys : List UInt8} (h : xs.flatMap hexByte = ys.flatMap hexByte) :
    xs = ys := by
  induction xs generalizing ys with
  | nil =>
    cases ys with
    | nil => rfl
    | cons y ys => simp [hexByte] at h
  | cons x xs ih =>
    cases ys with
    | nil => simp [hexByte] at h
    | cons y ys =>
      rw [List.flatMap_cons, List.flatMap_cons] at h
      obtain ⟨h1, h2⟩ := List.append_inj h (by simp [hexByte])
      rw [hexByte_injective h1, ih h2]

theorem treeComponentName_injective {a b : String} (h : treeComponentName a = treeComponentName b) : a = b := by
  unfold treeComponentName at h
  have h1 := String.toList_inj.2 h
  rw [String.toList_append, String.toList_append, List.append_cancel_left_eq, hexBytes, hexBytes,
    String.toList_ofList, String.toList_ofList] at h1
  have h2 := flatMap_hexByte_injective h1
  have h3 : a.toByteArray = b.toByteArray := ByteArray.ext (Array.toList_inj.1 h2)
  exact String.toByteArray_inj.1 h3

theorem utf8ByteSize_ofList (cs : List Char) : (String.ofList cs).utf8ByteSize = (cs.map Char.utf8Size).sum := by
  have hsize : (String.ofList cs).utf8ByteSize = cs.utf8Encode.size := by
    rw [← String.size_toByteArray, String.toByteArray_ofList]
  rw [hsize, List.utf8Encode, List.size_toByteArray, List.length_flatMap]
  congr 1
  exact List.map_congr_left fun c _ => String.length_utf8EncodeChar c

theorem utf8Size_hexDigit {n : Nat} (h : n < 16) : (hexDigit n).utf8Size = 1 := by
  interval_cases n <;> rfl

/-- The name of a component in the tree. -/
theorem utf8ByteSize_treeComponentName (value : String) :
    (treeComponentName value).utf8ByteSize = 2 + 2 * value.utf8ByteSize := by
  have hbyte : ∀ b : UInt8, ((hexByte b).map Char.utf8Size).sum = 2 := by
    intro b
    have hb := b.toNat_lt
    simp only [hexByte, List.map_cons, List.map_nil, List.sum_cons, List.sum_nil]
    have hhigh : b.toNat / 16 < 16 := by omega
    have hlow : b.toNat % 16 < 16 := by omega
    rw [utf8Size_hexDigit hhigh, utf8Size_hexDigit hlow]
    rfl
  have hbytes : ∀ bytes : List UInt8, ((bytes.flatMap hexByte).map Char.utf8Size).sum = 2 * bytes.length := by
    intro bytes
    induction bytes with
    | nil => rfl
    | cons b bytes ih =>
      rw [List.flatMap_cons, List.map_append, List.sum_append, hbyte, ih, List.length_cons]
      omega
  have hhex : (hexBytes value.toUTF8).utf8ByteSize = 2 * value.utf8ByteSize := by
    unfold hexBytes
    rw [utf8ByteSize_ofList, hbytes]
    rfl
  unfold treeComponentName
  rw [String.utf8ByteSize_append, hhex]
  rfl

/-- Distinct documents have distinct places in the tree. -/
theorem treePath_injective {p q : String} (hp : Normalized p) (hq : Normalized q) (h : treePath p = treePath q) :
    p = q := by
  refine parts_injective hp hq ?_
  have := List.reverse_injective h
  exact List.map_injective_iff.2 (fun _ _ => treeComponentName_injective) this

theorem Normalized.treePath_ne_nil {path : String} (h : Normalized path) : treePath path ≠ [] := by
  simp [treePath, h.posixParts_ne_nil]

/-- A path lies within a prefix exactly when its place lies below the prefix's place. -/
theorem treePath_suffix_iff {p q : String} (hp : Normalized p) (hq : Normalized q) :
    treePath q <:+ treePath p ↔ pathIsWithinPrefix p q = .ok true := by
  rw [pathIsWithinPrefix_eq hp hq, treePath, treePath, List.reverse_suffix,
    List.prefix_map_iff_of_injective fun _ _ => treeComponentName_injective]
  simp

example : treePath "notes/a.md" = ["p-612e6d64", "p-6e6f746573"] := by decide

end Ctxd

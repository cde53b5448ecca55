import Ctxd.Listings

/-!
# Character classes of glob patterns

`_validate_glob_pattern` looks for an unclosed class with a scan over the whole pattern; `fnmatch` reads the components
one at a time, and takes a `]` directly after `[` or `[!` for a member.  What the scan rejects has an unclosed class.
What it accepts has none exactly when no class spans a slash and no class ends before it has a member
(`glob_classes_iff`).
-/

namespace Ctxd

/-! ### The grammar of `fnmatch` -/

/-- Where the `]` of a class is looked for: behind a `!` and a `]` that is a member. -/
def classStart (cs : List Char) : Nat :=
  let j := if cs.head? = some '!' then 1 else 0
  if cs[j]? = some ']' then j + 1 else j

/-- The length of the class that begins behind a `[`, with its `]`: the loop over `j` in `fnmatch.translate`. -/
def classEnd (cs : List Char) : Option Nat :=
  ((cs.drop (classStart cs)).findIdx? (· = ']')).map (classStart cs + · + 1)

inductive GlobToken
  | star
  | question
  | set (stuff : List Char)
  | literal (c : Char)
  deriving DecidableEq, Repr

/-- `fnmatch.translate`, up to the regular expressions of the tokens; the first `skip` characters belong to a class that
has been read. -/
def translate (skip : Nat) : List Char → List GlobToken
  | [] => []
  | c :: cs =>
    if 0 < skip then translate (skip - 1) cs
    else if c = '*' then if cs.head? = some '*' then translate 0 cs else .star :: translate 0 cs
    else if c = '?' then .question :: translate 0 cs
    else if c = '[' then
      match classEnd cs with
      | none => .literal '[' :: translate 0 cs
      | some n => .set (cs.take (n - 1)) :: translate n cs
    else .literal c :: translate 0 cs

/-- What follows each `[` that is not already inside a class. -/
def openings (skip : Nat) : List Char → List (List Char)
  | [] => []
  | c :: cs =>
    if 0 < skip then openings (skip - 1) cs
    else if c = '[' then cs :: openings ((classEnd cs).getD 0) cs
    else openings 0 cs

/-- Every class of a component is closed in the component. -/
def Closed (part : List Char) : Prop := ∀ rest ∈ openings 0 part, (classEnd rest).isSome

/-- A class that the scan of the validator has closed before it has a member. -/
def Memberless (rest : List Char) : Prop := ∃ r, (rest = ']' :: r ∨ rest = '!' :: ']' :: r) ∧ ']' ∉ r

/-- An unclosed class is what `fnmatch` matches as a literal bracket. -/
private theorem literal_mem_translate_iff (skip : Nat) (cs : List Char) :
    .literal '[' ∈ translate skip cs ↔ ∃ rest ∈ openings skip cs, classEnd rest = none := by
  induction cs generalizing skip with
  | nil => simp [translate, openings]
  | cons c cs ih =>
    unfold translate openings
    by_cases hskip : 0 < skip
    · rw [if_pos hskip, if_pos hskip]
      exact ih _
    rw [if_neg hskip, if_neg hskip]
    by_cases hopen : c = '['
    · subst hopen
      rw [if_neg (by decide), if_neg (by decide), if_pos rfl, if_pos rfl]
      cases hend : classEnd cs with
      | none => simp [hend]
      | some n => simp [hend, ih]
    · rw [if_neg hopen, if_neg hopen]
      by_cases hstar : c = '*'
      · rw [if_pos hstar]
        split <;> simp [ih]
      · rw [if_neg hstar]
        by_cases hquestion : c = '?'
        · simp [hquestion, ih]
        · have hne : '[' ≠ c := fun h => hopen h.symm
          simp [hquestion, hne, ih]

/-! ### One class -/

private theorem classEnd_eq_none_iff (cs : List Char) : classEnd cs = none ↔ ']' ∉ cs ∨ Memberless cs := by
  have hsearch : classEnd cs = none ↔ ']' ∉ cs.drop (classStart cs) := by
    unfold classEnd
    rw [Option.map_eq_none_iff, List.findIdx?_eq_none_iff]
    exact ⟨fun h hmem => by simpa using h _ hmem, fun h x hx => by simpa using fun hc : x = ']' => h (hc ▸ hx)⟩
  rw [hsearch]
  cases cs with
  | nil => simp
  | cons c r =>
    by_cases hbang : c = '!'
    · subst hbang
      cases r with
      | nil => simp [classStart]
      | cons d r =>
        by_cases hmember : d = ']'
        · subst hmember
          simp [classStart, Memberless]
        · simp [classStart, Memberless, hmember]
    · by_cases hmember : c = ']'
      · subst hmember
        simp [classStart, Memberless]
      · simp [classStart, Memberless, hbang, hmember]

/-- The last character of a class is its bracket. -/
private theorem classEnd_getElem {cs : List Char} {n : Nat} (h : classEnd cs = some n) :
    0 < n ∧ cs[n - 1]? = some ']' := by
  obtain ⟨k, hk, rfl⟩ := Option.map_eq_some_iff.1 h
  refine ⟨by omega, ?_⟩
  have hfound := List.of_findIdx?_eq_some hk
  rw [List.getElem?_drop] at hfound
  rw [Nat.add_sub_cancel]
  split at hfound
  · rename_i c hc
    rw [hc]
    simpa using hfound
  · cases hfound

/-! ### The scan of the validator -/

/-- A bracket that no `]` follows is left open. -/
private theorem unclosedClass_of_last (inClass : Bool) {before rest : List Char} (h : ']' ∉ rest) :
    unclosedClass inClass (before ++ '[' :: rest) = true := by
  have hrest : ∀ cs : List Char, ']' ∉ cs → unclosedClass true cs = true := by
    intro cs hcs
    induction cs with
    | nil => rfl
    | cons c cs ih =>
      rw [List.mem_cons, not_or] at hcs
      have hne : ¬c = ']' := fun hc => hcs.1 hc.symm
      simp [unclosedClass, hne, ih hcs.2]
  induction before generalizing inClass with
  | nil => simp [unclosedClass, hrest rest h]
  | cons c before ih =>
    rw [List.cons_append, unclosedClass, ih, ih, ih]
    simp

/-- What is left open has a last bracket that no `]` follows. -/
private theorem last_of_unclosedClass {cs : List Char} (h : unclosedClass false cs = true) :
    ∃ before rest, cs = before ++ '[' :: rest ∧ ']' ∉ rest := by
  have hscan : ∀ (cs : List Char) (inClass : Bool), unclosedClass inClass cs = true →
      (∃ before rest, cs = before ++ '[' :: rest ∧ ']' ∉ rest) ∨ inClass = true ∧ ']' ∉ cs := by
    intro cs
    induction cs with
    | nil => exact fun inClass h => .inr ⟨h, List.not_mem_nil⟩
    | cons c cs ih =>
      intro inClass h
      unfold unclosedClass at h
      by_cases hopen : c = '['
      · rw [if_pos hopen] at h
        left
        rcases ih true h with ⟨before, rest, rfl, hrest⟩ | ⟨-, hrest⟩
        · exact ⟨c :: before, rest, rfl, hrest⟩
        · exact ⟨[], cs, by rw [hopen]; rfl, hrest⟩
      rw [if_neg hopen] at h
      by_cases hclose : c = ']'
      · rw [if_pos hclose] at h
        rcases ih false h with ⟨before, rest, rfl, hrest⟩ | ⟨hfalse, -⟩
        · exact .inl ⟨c :: before, rest, rfl, hrest⟩
        · cases hfalse
      rw [if_neg hclose] at h
      rcases ih inClass h with ⟨before, rest, rfl, hrest⟩ | ⟨hin, hrest⟩
      · exact .inl ⟨c :: before, rest, rfl, hrest⟩
      · refine .inr ⟨hin, ?_⟩
        rw [List.mem_cons, not_or]
        exact ⟨fun hc => hclose hc.symm, hrest⟩
  exact (hscan cs false h).resolve_right fun ⟨hfalse, _⟩ => by cases hfalse

/-! ### One component -/

/-- What an opening leaves is the end of the component. -/
private theorem suffix_of_opening {skip : Nat} {cs rest : List Char} (h : rest ∈ openings skip cs) :
    ∃ before, cs = before ++ '[' :: rest := by
  induction cs generalizing skip with
  | nil => cases h
  | cons c cs ih =>
    unfold openings at h
    by_cases hskip : 0 < skip
    · rw [if_pos hskip] at h
      obtain ⟨before, rfl⟩ := ih h
      exact ⟨c :: before, rfl⟩
    rw [if_neg hskip] at h
    by_cases hopen : c = '['
    · rw [if_pos hopen] at h
      rcases List.mem_cons.1 h with rfl | h
      · exact ⟨[], by rw [hopen]; rfl⟩
      · obtain ⟨before, rfl⟩ := ih h
        exact ⟨c :: before, rfl⟩
    · rw [if_neg hopen] at h
      obtain ⟨before, rfl⟩ := ih h
      exact ⟨c :: before, rfl⟩

/-- A bracket that no `]` follows is not inside a class, or a bracket before it opens none either. -/
private theorem opening_of_last {skip : Nat} {before rest : List Char} (hskip : skip ≤ before.length) (h : ']' ∉ rest) :
    ∃ rest' ∈ openings skip (before ++ '[' :: rest), ']' ∉ rest' := by
  induction before generalizing skip with
  | nil =>
    refine ⟨rest, ?_, h⟩
    rw [List.nil_append, openings, if_neg (by simpa using hskip), if_pos rfl]
    exact List.mem_cons_self ..
  | cons c before ih =>
    rw [List.length_cons] at hskip
    rw [List.cons_append, openings]
    by_cases hin : 0 < skip
    · rw [if_pos hin]
      exact ih (by omega)
    rw [if_neg hin]
    by_cases hopen : c = '['
    · rw [if_pos hopen]
      have hlength : (classEnd (before ++ '[' :: rest)).getD 0 ≤ before.length := by
        cases hend : classEnd (before ++ '[' :: rest) with
        | none => exact Nat.zero_le _
        | some n =>
          -- the class ends with a `]`, which only the part before the last bracket has
          obtain ⟨hpos, hlast⟩ := classEnd_getElem hend
          by_contra hlong
          have hle : before.length ≤ n - 1 := by
            simp only [Option.getD_some] at hlong
            omega
          rw [List.getElem?_append_right hle] at hlast
          have hmem := List.mem_of_getElem? hlast
          simp [h] at hmem
      obtain ⟨rest', hrest', hnone⟩ := ih hlength
      exact ⟨rest', List.mem_cons_of_mem _ hrest', hnone⟩
    · rw [if_neg hopen]
      exact ih (Nat.zero_le _)

/-- The classes of a component are closed exactly when the scan of the component alone closes them and each has a
member. -/
private theorem closed_iff (part : List Char) :
    Closed part ↔ unclosedClass false part = false ∧ ∀ rest ∈ openings 0 part, ¬Memberless rest := by
  constructor
  · intro h
    have hsome : ∀ rest ∈ openings 0 part, classEnd rest ≠ none := fun rest hrest => by
      rw [← Option.isSome_iff_ne_none]
      exact h rest hrest
    refine ⟨?_, fun rest hrest hless => hsome rest hrest ((classEnd_eq_none_iff rest).2 (.inr hless))⟩
    rw [← Bool.not_eq_true]
    intro hopen
    obtain ⟨before, rest, rfl, hlast⟩ := last_of_unclosedClass hopen
    obtain ⟨rest', hrest', hnone⟩ := opening_of_last (Nat.zero_le before.length) hlast
    exact hsome rest' hrest' ((classEnd_eq_none_iff rest').2 (.inl hnone))
  · rintro ⟨hscan, hmembers⟩ rest hrest
    rw [Option.isSome_iff_ne_none]
    intro hnone
    rcases (classEnd_eq_none_iff rest).1 hnone with hlast | hless
    · obtain ⟨before, rfl⟩ := suffix_of_opening hrest
      rw [unclosedClass_of_last false hlast] at hscan
      cases hscan
    · exact hmembers rest hrest hless

/-! ### The pattern -/

/-- The component that a character is in. -/
private theorem mem_splitSlash_around {c : Char} (hc : c ≠ '/') (before rest : List Char) :
    ∃ b r, b ++ c :: r ∈ splitSlash (before ++ c :: rest) ∧ ∀ x ∈ r, x ∈ rest := by
  induction before with
  | nil =>
    rw [List.nil_append, splitSlash, if_neg hc]
    cases hsplit : splitSlash rest with
    | nil => exact absurd hsplit (splitSlash_ne_nil rest)
    | cons p ps =>
      refine ⟨[], p, List.mem_cons_self .., fun x hx => mem_of_mem_splitSlash ?_ x hx⟩
      rw [hsplit]
      exact List.mem_cons_self ..
  | cons d before ih =>
    obtain ⟨b, r, hmem, hsub⟩ := ih
    rw [List.cons_append, splitSlash]
    by_cases hslash : d = '/'
    · rw [if_pos hslash]
      exact ⟨b, r, List.mem_cons_of_mem _ hmem, hsub⟩
    · rw [if_neg hslash]
      cases hsplit : splitSlash (before ++ c :: rest) with
      | nil => exact absurd hsplit (splitSlash_ne_nil _)
      | cons p ps =>
        rw [hsplit] at hmem
        rcases List.mem_cons.1 hmem with rfl | hmem
        · exact ⟨d :: b, r, List.mem_cons_self .., hsub⟩
        · exact ⟨b, r, List.mem_cons_of_mem _ hmem, hsub⟩

/-- A pattern that the scan rejects has an unclosed class. -/
private theorem not_closed_of_unclosedClass {pattern : String} (h : unclosedClass false pattern.toList = true) :
    ∃ part ∈ rawParts pattern, ¬Closed part.toList := by
  obtain ⟨before, rest, hpattern, hlast⟩ := last_of_unclosedClass h
  obtain ⟨b, r, hmem, hsub⟩ := mem_splitSlash_around (c := '[') (by decide) before rest
  rw [← hpattern, ← map_toList_rawParts] at hmem
  obtain ⟨part, hpart, htext⟩ := List.mem_map.1 hmem
  refine ⟨part, hpart, fun hclosed => ?_⟩
  rw [htext] at hclosed
  obtain ⟨rest', hrest', hnone⟩ := opening_of_last (Nat.zero_le b.length) fun hr : ']' ∈ r => hlast (hsub _ hr)
  have hsome := hclosed rest' hrest'
  rw [(classEnd_eq_none_iff rest').2 (.inl hnone)] at hsome
  cases hsome

private theorem Closed.no_literal {part : List Char} (h : Closed part) : .literal '[' ∉ translate 0 part := by
  rw [literal_mem_translate_iff]
  rintro ⟨rest, hrest, hnone⟩
  have hsome := h rest hrest
  rw [hnone] at hsome
  cases hsome

/-- The validator reads a pattern as the matcher does exactly when the scan of each component alone closes the classes,
and no class of an accepted pattern is closed before it has a member. -/
theorem glob_classes_iff (pattern : String) :
    ((∀ parts, validateGlobPattern pattern = .ok parts → ∀ part ∈ parts,
        Closed part.toList ∧ .literal '[' ∉ translate 0 part.toList) ∧
      (unclosedClass false pattern.toList = true → ∃ part ∈ rawParts pattern, ¬Closed part.toList)) ↔
      ∀ parts, validateGlobPattern pattern = .ok parts → ∀ part ∈ parts,
        unclosedClass false part.toList = false ∧ ∀ rest ∈ openings 0 part.toList, ¬Memberless rest := by
  constructor
  · exact fun h parts hparts part hpart => (closed_iff part.toList).1 (h.1 parts hparts part hpart).1
  · refine fun h => ⟨fun parts hparts part hpart => ?_, not_closed_of_unclosedClass⟩
    have hclosed := (closed_iff part.toList).2 (h parts hparts part hpart)
    exact ⟨hclosed, hclosed.no_literal⟩

/-- The bracket of `[]` is matched as a literal. -/
theorem empty_class_accepted :
    ¬∀ pattern parts, validateGlobPattern pattern = .ok parts → ∀ part ∈ parts,
      Closed part.toList ∧ .literal '[' ∉ translate 0 part.toList := by
  intro h
  have haccepted : validateGlobPattern "[]" = .ok ["[]"] := by decide +kernel
  exact (h "[]" ["[]"] haccepted "[]" (List.mem_cons_self ..)).2 (by decide +kernel)

end Ctxd

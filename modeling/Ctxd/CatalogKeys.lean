import Ctxd.Machines
import Ctxd.Registrations

/-!
# Keys of machines and folders

A key is one path component of at most 63 characters.  The keys that a name is given one after the other differ from
the second on: what stands after the last dash of such a key is its number.
-/

namespace Ctxd

namespace Machines

/-- Small letters, digits and dashes, and not too many of them. -/
structure KeyText (cs : List Char) : Prop where
  ne_nil : cs ≠ []
  length_le : cs.length ≤ 63
  chars : ∀ c ∈ cs, isKeyChar c = true ∨ c = '-'

/-- A path component of at most 63 characters. -/
structure ValidKey (key : String) : Prop where
  length_pos : 1 ≤ key.length
  length_le : key.length ≤ 63
  normalized : Normalized key
  component : posixParts key = [key]

/-! ### The texts of keys -/

private theorem mem_dashed {gap : Bool} {cs : List Char} {c : Char} (h : c ∈ dashed gap cs) :
    isKeyChar c = true ∨ c = '-' := by
  induction cs generalizing gap with
  | nil => cases h
  | cons d cs ih =>
    unfold dashed at h
    split at h
    · rename_i hkey
      rcases List.mem_cons.1 h with rfl | h
      · exact .inl hkey
      · exact ih h
    · split at h
      · exact ih h
      · rcases List.mem_cons.1 h with rfl | h
        · exact .inr rfl
        · exact ih h

/-- A cut text that does not begin with a dash is a key. -/
private theorem keyText_slice {cs : List Char} (hchars : ∀ c ∈ cs, isKeyChar c = true ∨ c = '-')
    (hhead : ∃ c, cs.head? = some c ∧ c ≠ '-') : KeyText ((sliceTo cs 63).rdropWhile (· = '-')) := by
  have hslice : sliceTo cs 63 = cs.take 63 := rfl
  have hpre : (cs.take 63).rdropWhile (· = '-') <+: cs.take 63 := List.rdropWhile_prefix _ _
  rw [hslice]
  refine ⟨?_, ?_, fun c hc => hchars c (List.mem_of_mem_take (hpre.subset hc))⟩
  · obtain ⟨c, hc, hne⟩ := hhead
    intro hnil
    rw [List.rdropWhile_eq_nil_iff] at hnil
    cases cs with
    | nil => cases hc
    | cons d cs =>
      cases hc
      have hdash := hnil c (by simp)
      exact hne (of_decide_eq_true hdash)
  · have hlength := hpre.length_le
    rw [List.length_take] at hlength
    omega

theorem keyText_catalogKey (nfkd : String → String) (name : String) {fallback : String}
    (hfallback : ∀ c ∈ fallback.toList, isKeyChar c = true) (hne : fallback ≠ "") :
    KeyText (catalogKey nfkd name fallback) := by
  unfold catalogKey
  dsimp only
  generalize hnormalized : Strip.stripBy _ _ = normalized
  by_cases hnil : normalized = []
  · rw [if_pos hnil]
    refine keyText_slice (fun c hc => .inl (hfallback c hc)) ?_
    cases hlist : fallback.toList with
    | nil => exact absurd (String.toList_eq_nil_iff.1 hlist) hne
    | cons c cs =>
      refine ⟨c, rfl, ?_⟩
      rintro rfl
      have hdash := hfallback '-' (by rw [hlist]; exact List.mem_cons_self ..)
      cases hdash
  · rw [if_neg hnil]
    refine keyText_slice (fun c hc => ?_) ?_
    · rw [← hnormalized] at hc
      have hsub : c ∈ List.dropWhile (· = '-') _ := (List.rdropWhile_prefix _ _).subset hc
      exact mem_dashed ((List.dropWhile_suffix _).subset hsub)
    · cases hlist : normalized with
      | nil => exact absurd hlist hnil
      | cons c cs =>
        have hhead := Strip.head?_stripBy (by rw [hnormalized, hlist]; rfl)
        exact ⟨c, rfl, of_decide_eq_false hhead⟩

private theorem isKeyChar_of_mem_repr {n : Nat} {c : Char} (h : c ∈ (Nat.repr n).toList) : isKeyChar c = true := by
  rw [Nat.toList_repr] at h
  have hdigit := Nat.isDigit_of_mem_toDigits (by decide) (by decide) h
  unfold isKeyChar
  rw [hdigit, Bool.or_true]

/-- The number of a key has room in it. -/
theorem keyText_suffixedKey {base : List Char} (hbase : KeyText base) {n : Nat} (hn : n < 10 ^ 62) :
    KeyText (suffixedKey base n).toList := by
  unfold suffixedKey
  split
  · rw [String.toList_ofList]
    exact hbase
  · rw [String.toList_ofList]
    have hdigits : (Nat.repr n).length ≤ 62 := (Nat.length_repr_le_iff (by omega)).2 hn
    have hcut : sliceTo base (63 - (('-' :: (Nat.repr n).toList).length : Int)) =
        base.take (62 - (Nat.repr n).length) := by
      unfold sliceTo
      rw [List.length_cons, String.length_toList, if_neg (by omega)]
      congr 1
      omega
    rw [hcut]
    have hpre := List.rdropWhile_prefix (· = '-') (base.take (62 - (Nat.repr n).length))
    refine ⟨by simp, ?_, fun c hc => ?_⟩
    · have hlength := hpre.length_le
      rw [List.length_take] at hlength
      rw [List.length_append, List.length_cons, String.length_toList]
      omega
    · rcases List.mem_append.1 hc with hc | hc
      · exact hbase.chars c (List.mem_of_mem_take (hpre.subset hc))
      · rcases List.mem_cons.1 hc with rfl | hc
        · exact .inr rfl
        · exact .inl (isKeyChar_of_mem_repr hc)

/-! ### Keys differ -/

/-- What stands after the last dash. -/
private theorem eq_of_append_dash {l l' a b : List Char} (ha : '-' ∉ a) (hb : '-' ∉ b)
    (h : l ++ '-' :: a = l' ++ '-' :: b) :
    a = b := by
  have hlast : ∀ {m c : List Char}, '-' ∉ c → (m ++ '-' :: c).reverse.takeWhile (· ≠ '-') = c.reverse := by
    intro m c hc
    have hall : ∀ d ∈ c.reverse, (decide (d ≠ '-')) = true := by
      intro d hd
      refine decide_eq_true ?_
      rintro rfl
      exact hc (List.mem_reverse.1 hd)
    rw [List.reverse_append, List.reverse_cons, List.append_assoc, List.takeWhile_append_of_pos hall]
    simp
  have hboth := hlast (m := l) ha
  rw [h, hlast hb] at hboth
  exact (List.reverse_injective hboth).symm

theorem suffixedKey_injective {base : List Char} {n m : Nat} (hn : 2 ≤ n) (hm : 2 ≤ m)
    (h : suffixedKey base n = suffixedKey base m) : n = m := by
  unfold suffixedKey at h
  rw [if_neg (by omega), if_neg (by omega)] at h
  have hdash : ∀ k, '-' ∉ (Nat.repr k).toList := by
    intro k hk
    cases isKeyChar_of_mem_repr hk
  have hdigits := eq_of_append_dash (hdash n) (hdash m) (String.ofList_injective h)
  exact Nat.repr_injective (String.toList_injective hdigits)

/-! ### Keys are components -/

private theorem KeyText.toNat {cs : List Char} (h : KeyText cs) {c : Char} (hc : c ∈ cs) :
    45 ≤ c.toNat ∧ c.toNat ≤ 122 ∧ c ≠ '/' ∧ c ≠ '.' ∧ c ≠ ':' := by
  have hword : Strip.isWordChar c = true := by
    rcases h.chars c hc with hkey | rfl
    · exact isWordChar_of_isKeyChar hkey
    · decide
  obtain ⟨hlow, hhigh, hslash, hdot⟩ := Strip.toNat_of_isWordChar hword
  refine ⟨hlow, hhigh, hslash, hdot, ?_⟩
  rintro rfl
  cases hword

private theorem KeyText.rawParts {key : String} (h : KeyText key.toList) : rawParts key = [key] :=
  rawParts_of_forall fun _ hc => (h.toNat hc).2.2.1

theorem KeyText.validKey {key : String} (h : KeyText key.toList) : ValidKey key := by
  have hne : key ≠ "" := fun heq => h.ne_nil (String.toList_eq_nil_iff.2 heq)
  have hdots : isDots key = false := by
    have hdot : ∀ s : String, '.' ∈ s.toList → key ≠ s := by
      rintro s hs rfl
      exact (h.toNat hs).2.2.2.1 rfl
    unfold isDots
    simp [hne, hdot "." (by decide), hdot ".." (by decide)]
  have hnormalized : Normalized key := by
    refine normalized_iff.2 ⟨?_, ?_, ?_⟩
    · unfold hasControlCharacter
      rw [List.any_eq_false]
      intro c hc
      obtain ⟨hlow, hhigh, -⟩ := h.toNat hc
      simp only [Bool.or_eq_true, decide_eq_true_eq, beq_iff_eq]
      omega
    · unfold startsWithDrive
      split
      · rename_i c rest hlist
        exact absurd rfl (h.toNat (by rw [hlist]; simp)).2.2.2.2
      · rfl
    · rw [h.rawParts]
      simp [hdots]
  refine ⟨?_, ?_, hnormalized, hnormalized.posixParts_eq.trans h.rawParts⟩
  · have hlength := List.length_pos_iff.2 h.ne_nil
    rwa [String.length_toList] at hlength
  · have hlength := h.length_le
    rwa [String.length_toList] at hlength

/-- Machines with different keys have prefixes apart. -/
theorem prefixesOverlap_machines {key key' : String} (h : ValidKey key) (h' : ValidKey key') (hne : key ≠ key') :
    prefixesOverlap ("machines/" ++ key) ("machines/" ++ key') = .ok false := by
  have hmachines : Normalized "machines" := by decide +kernel
  have hbelow : ∀ k : String, "machines/" ++ k = "machines" ++ "/" ++ k := fun _ => rfl
  have hparts : ∀ {k : String}, ValidKey k →
      Normalized ("machines/" ++ k) ∧ posixParts ("machines/" ++ k) = ["machines", k] := by
    intro k hk
    have hnormal : Normalized ("machines/" ++ k) := by
      rw [hbelow]
      exact ((normalized_below_iff k hmachines).1 hk.normalized).1
    refine ⟨hnormal, ?_⟩
    have hkparts : Ctxd.rawParts k = [k] := hk.normalized.posixParts_eq.symm.trans hk.component
    rw [hnormal.posixParts_eq, hbelow, rawParts_append, hkparts, rawParts_of_forall (by simp)]
    rfl
  obtain ⟨hnormal, hp⟩ := hparts h
  obtain ⟨hnormal', hp'⟩ := hparts h'
  rw [prefixesOverlap_eq hnormal hnormal', decide_eq_false]
  unfold Overlapping
  rw [hp, hp']
  simp [hne, Ne.symm hne]

end Machines

end Ctxd

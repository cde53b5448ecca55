import Mathlib.Data.List.DropRight

/-!
# Stripping

`stripBy p` drops the characters at both ends that satisfy `p`; `strip` drops white space.  Both are idempotent.
-/

namespace Strip

variable {α : Type}

def stripBy (p : α → Bool) (l : List α) : List α := (l.dropWhile p).rdropWhile p

theorem head?_stripBy {p : α → Bool} {l : List α} {a : α} (h : (stripBy p l).head? = some a) : p a = false := by
  have hpre : stripBy p l <+: l.dropWhile p := List.rdropWhile_prefix p _
  obtain ⟨t, ht⟩ := hpre
  cases hs : stripBy p l with
  | nil => simp [hs] at h
  | cons b r =>
    rw [hs] at h ht
    obtain rfl : b = a := by simpa using h
    have hhead : (l.dropWhile p).head? = some b := by rw [← ht]; rfl
    have := List.head?_dropWhile_not p l
    rw [hhead] at this
    simpa using this

theorem stripBy_of_head {p : α → Bool} {l : List α} (h : ∀ a, l.head? = some a → p a = false)
    (h' : ∀ hl : l ≠ [], ¬p (l.getLast hl)) : stripBy p l = l := by
  unfold stripBy
  have hdrop : l.dropWhile p = l := by
    cases l with
    | nil => rfl
    | cons a l => simp [List.dropWhile, h a rfl]
  rw [hdrop]
  exact List.rdropWhile_eq_self_iff.2 h'

@[simp] theorem stripBy_stripBy (p : α → Bool) (l : List α) : stripBy p (stripBy p l) = stripBy p l := by
  refine stripBy_of_head (fun a ha => head?_stripBy ha) fun hl => ?_
  exact List.rdropWhile_last_not _ _ hl

/-- The white space of `str.strip`. -/
def isSpace (c : Char) : Bool :=
  c.toNat ∈ [0x09, 0x0A, 0x0B, 0x0C, 0x0D, 0x1C, 0x1D, 0x1E, 0x1F, 0x20, 0x85, 0xA0, 0x1680, 0x2028, 0x2029, 0x202F,
    0x205F, 0x3000] || (0x2000 ≤ c.toNat && c.toNat ≤ 0x200A)

def strip (s : String) : String := String.ofList (stripBy isSpace s.toList)

@[simp] theorem strip_strip (s : String) : strip (strip s) = strip s := by
  simp [strip]

theorem strip_of_noSpace {s : String} (h : ∀ c ∈ s.toList, isSpace c = false) : strip s = s := by
  unfold strip
  rw [stripBy_of_head (fun a ha => h a (List.mem_of_head? ha)) fun hl => ?_]
  · exact String.ofList_toList
  · simp [h _ (List.getLast_mem hl)]

/-- ASCII letters and digits, `-` and `_`. -/
def isWordChar (c : Char) : Bool := c.isAlphanum || c = '-' || c = '_'

theorem toNat_of_isWordChar {c : Char} (h : isWordChar c = true) :
    45 ≤ c.toNat ∧ c.toNat ≤ 122 ∧ c ≠ '/' ∧ c ≠ '.' := by
  have hne : ∀ d : Char, isWordChar d = false → c ≠ d := by
    rintro d hd rfl
    rw [h] at hd
    cases hd
  have halnum : c.isAlphanum = ((decide ('A'.val ≤ c.val ∧ c.val ≤ 'Z'.val) ||
      (decide ('a'.val ≤ c.val) && decide (c.val ≤ 'z'.val))) ||
        (decide ('0'.val ≤ c.val) && decide (c.val ≤ '9'.val))) := rfl
  refine ⟨?_, ?_, hne '/' (by decide), hne '.' (by decide)⟩ <;>
  · simp only [isWordChar, halnum, Bool.or_eq_true, Bool.and_eq_true, decide_eq_true_eq, UInt32.le_iff_toNat_le] at h
    have hval : c.val.toNat = c.toNat := rfl
    rcases h with (((h | h) | h) | rfl) | rfl
    · simp at h; omega
    · simp at h; omega
    · simp at h; omega
    · decide
    · decide

theorem isSpace_of_isWordChar {c : Char} (h : isWordChar c = true) : isSpace c = false := by
  obtain ⟨hlow, hhigh, -⟩ := toNat_of_isWordChar h
  unfold isSpace
  simp only [List.mem_cons, List.not_mem_nil, or_false, Bool.or_eq_false_iff, decide_eq_false_iff_not,
    Bool.and_eq_false_iff]
  omega

end Strip

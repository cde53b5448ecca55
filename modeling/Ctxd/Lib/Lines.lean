import Mathlib.Data.List.Basic
import Mathlib.Data.List.Induction
import Mathlib.Data.List.TakeWhile
import Mathlib.Tactic.Common

/-!
# Lines by their number

The lines of a list end with a separator and are numbered from 1.  What stands before a line is lines itself: it is
empty or ends with a separator, and the number of the line is one more than the separators in it (`lineAt_append`,
`exists_of_lineAt`).
-/

namespace Lines

variable {α : Type} {sep : α}

/-- Whole lines, each with its separator. -/
def Whole (sep : α) (front : List α) : Prop := front = [] ∨ front.getLast? = some sep

private theorem Whole.cons {b : α} {front : List α} (h : Whole sep front) (hb : front = [] → b = sep) :
    Whole sep (b :: front) := by
  rcases h with rfl | hlast
  · exact .inr (by simp [hb rfl])
  · have hne : front ≠ [] := by
      rintro rfl
      simp at hlast
    refine .inr ?_
    obtain ⟨c, front, rfl⟩ := List.exists_cons_of_ne_nil hne
    simpa using hlast

variable [DecidableEq α]

/-- The line with a number, without its separator. -/
def lineAt (sep : α) : List α → Nat → Option (List α)
  | _, 0 => none
  | data, 1 => some (data.takeWhile (· ≠ sep))
  | [], _ + 2 => none
  | b :: rest, n + 2 => if b = sep then lineAt sep rest (n + 1) else lineAt sep rest (n + 2)

/-- The line that follows whole lines. -/
theorem lineAt_append {front : List α} (h : Whole sep front) (rest : List α) :
    lineAt sep (front ++ rest) (front.count sep + 1) = some (rest.takeWhile (· ≠ sep)) := by
  induction front with
  | nil => simp [lineAt]
  | cons b front ih =>
    by_cases hfront : front = []
    · subst hfront
      have hb : b = sep := by simpa [Whole] using h
      simp [hb, lineAt]
    · have hlast : front.getLast? = some sep := by
        obtain ⟨c, front, rfl⟩ := List.exists_cons_of_ne_nil hfront
        simpa [Whole] using h
      have hcount : 0 < front.count sep := List.count_pos_iff.2 (List.mem_of_getLast? hlast)
      obtain ⟨n, hn⟩ : ∃ n, front.count sep = n + 1 := ⟨front.count sep - 1, by omega⟩
      have hrest := ih (.inr hlast)
      rw [hn] at hrest
      by_cases hb : b = sep
      · simp [hb, hn, lineAt, hrest]
      · simp [hb, hn, lineAt, hrest]

/-- What stands before the first separator belongs to the first line. -/
theorem lineAt_append_of_not_mem {front : List α} (h : sep ∉ front) (rest : List α) (n : Nat) :
    lineAt sep (front ++ rest) n = if n = 1 then (lineAt sep rest n).map (front ++ ·) else lineAt sep rest n := by
  induction front with
  | nil => simp
  | cons b front ih =>
    simp only [List.mem_cons, not_or] at h
    have hb : b ≠ sep := fun hb => h.1 hb.symm
    have hfront := ih h.2
    rcases n with _ | _ | n
    · simp [lineAt]
    · simp only [Nat.zero_add, if_true, lineAt, Option.map_some, Option.some.injEq] at hfront ⊢
      rw [List.cons_append, List.takeWhile_cons_of_pos (by simpa using hb), hfront]
      rfl
    · simpa [lineAt, hb] using hfront

theorem lineAt_cons_sep (rest : List α) (n : Nat) : lineAt sep (sep :: rest) (n + 2) = lineAt sep rest (n + 1) := by
  simp [lineAt]

/-- Where a line stands. -/
theorem exists_of_lineAt {data line : List α} {n : Nat} (h : lineAt sep data n = some line) :
    ∃ front rest, data = front ++ line ++ rest ∧ Whole sep front ∧ n = front.count sep + 1 ∧ sep ∉ line ∧
      (rest = [] ∨ ∃ more, rest = sep :: more) := by
  fun_induction lineAt sep data n with
  | case1 => cases h
  | case2 data =>
    cases h
    refine ⟨[], data.dropWhile (· ≠ sep), by simp, .inl rfl, by simp, fun hmem => ?_, ?_⟩
    · simpa using List.mem_takeWhile_imp hmem
    · cases hrest : data.dropWhile (· ≠ sep) with
      | nil => exact .inl rfl
      | cons b more =>
        have hb := List.head?_dropWhile_not (fun b => decide (b ≠ sep)) data
        rw [hrest] at hb
        exact .inr ⟨more, by simpa using hb⟩
  | case3 => cases h
  | case4 rest n ih =>
    obtain ⟨front, rest', rfl, hfront, hn, hline, hrest⟩ := ih h
    exact ⟨sep :: front, rest', by simp, hfront.cons fun _ => rfl, by simp [hn], hline, hrest⟩
  | case5 b rest n hb ih =>
    obtain ⟨front, rest', rfl, hfront, hn, hline, hrest⟩ := ih h
    refine ⟨b :: front, rest', by simp, hfront.cons ?_, by simp [hb, hn], hline, hrest⟩
    rintro rfl
    simp at hn

/-- Every list is whole lines with the begin of a line behind them. -/
theorem exists_whole (sep : α) (data : List α) : ∃ front part, data = front ++ part ∧ Whole sep front ∧ sep ∉ part := by
  induction data using List.reverseRecOn with
  | nil => exact ⟨[], [], rfl, .inl rfl, by simp⟩
  | append_singleton data b ih =>
    by_cases hb : b = sep
    · exact ⟨data ++ [b], [], by simp, .inr (by simp [hb]), by simp⟩
    · obtain ⟨front, part, rfl, hfront, hpart⟩ := ih
      refine ⟨front, part ++ [b], by simp, hfront, ?_⟩
      simp only [List.mem_append, List.mem_singleton, not_or]
      exact ⟨hpart, fun h => hb h.symm⟩

/-- Every element but a separator stands in some line. -/
theorem exists_lineAt {data : List α} {a : α} (h : a ∈ data) (ha : a ≠ sep) :
    ∃ n line, lineAt sep data n = some line ∧ a ∈ line := by
  obtain ⟨before, after, rfl⟩ := List.append_of_mem h
  obtain ⟨front, part, rfl, hfront, hpart⟩ := exists_whole sep before
  have hline := lineAt_append hfront (part ++ a :: after)
  rw [← List.append_assoc] at hline
  refine ⟨_, _, hline, ?_⟩
  have hopen : ∀ b ∈ part, decide (b ≠ sep) = true := by
    intro b hb
    have hne : b ≠ sep := by
      rintro rfl
      exact hpart hb
    simpa using hne
  rw [List.takeWhile_append_of_pos hopen]
  simp [ha]

end Lines

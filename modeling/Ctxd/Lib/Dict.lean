import Mathlib.Data.List.Basic
import Mathlib.Data.List.Nodup

/-!
# Insertion-ordered dictionaries

A dictionary is the list of its items in insertion order.  Setting a key that is already there replaces its value in
place; popping a key removes it.  Every fact needed about a dictionary is a fact about `get?`.
-/

/-- A dictionary as the list of its items, oldest first. -/
abbrev Dict (κ ν : Type) := List (κ × ν)

namespace Dict

variable {κ ν : Type} [DecidableEq κ]

def get? : Dict κ ν → κ → Option ν
  | [], _ => none
  | (k, v) :: d, x => if k = x then some v else get? d x

def contains (d : Dict κ ν) (x : κ) : Bool := (d.get? x).isSome

def set : Dict κ ν → κ → ν → Dict κ ν
  | [], x, w => [(x, w)]
  | (k, v) :: d, x, w => if k = x then (k, w) :: d else (k, v) :: set d x w

def pop : Dict κ ν → κ → Dict κ ν
  | [], _ => []
  | (k, v) :: d, x => if k = x then pop d x else (k, v) :: pop d x

def setDefault (d : Dict κ ν) (x : κ) (w : ν) : Dict κ ν := if d.contains x then d else d.set x w

def keys (d : Dict κ ν) : List κ := d.map Prod.fst

@[simp] theorem get?_nil (x : κ) : get? ([] : Dict κ ν) x = none := rfl

@[simp] theorem get?_set_self (d : Dict κ ν) (x : κ) (w : ν) : (d.set x w).get? x = some w := by
  induction d with
  | nil => simp [set, get?]
  | cons kv d ih =>
    obtain ⟨k, v⟩ := kv
    unfold set
    split <;> simp_all [get?]

theorem get?_set_of_ne {d : Dict κ ν} {x y : κ} (h : y ≠ x) (w : ν) : (d.set x w).get? y = d.get? y := by
  induction d with
  | nil => simp [set, get?, h.symm]
  | cons kv d ih =>
    obtain ⟨k, v⟩ := kv
    unfold set
    split
    · subst_vars; simp [get?, h.symm]
    · simp [get?, ih]

theorem get?_set (d : Dict κ ν) (x y : κ) (w : ν) :
    (d.set x w).get? y = if y = x then some w else d.get? y := by
  split
  · subst_vars; simp
  · exact get?_set_of_ne ‹_› w

@[simp] theorem set_set (d : Dict κ ν) (x : κ) (v w : ν) : (d.set x v).set x w = d.set x w := by
  induction d with
  | nil => simp [set]
  | cons kv d ih =>
    obtain ⟨k, u⟩ := kv
    by_cases hk : k = x
    · simp [set, hk]
    · simp [set, hk, ih]

theorem get?_pop (d : Dict κ ν) (x y : κ) : (d.pop x).get? y = if y = x then none else d.get? y := by
  induction d with
  | nil => simp [pop]
  | cons kv d ih =>
    obtain ⟨k, v⟩ := kv
    unfold pop
    by_cases hk : k = x
    · rw [if_pos hk, ih]
      by_cases hy : y = x
      · simp [hy]
      · simp [hy, get?, hk, Ne.symm hy]
    · rw [if_neg hk]
      by_cases hy : y = x
      · subst hy; simp [get?, ih, hk]
      · simp [get?, ih, hy]

/-- Renaming keys does not touch a key that no other is renamed to. -/
theorem get?_map_key {f : κ → κ} {x : κ} (hf : ∀ k, f k = x ↔ k = x) (d : Dict κ ν) :
    get? (d.map fun item => (f item.1, item.2)) x = d.get? x := by
  induction d with
  | nil => rfl
  | cons kv d ih =>
    obtain ⟨k, v⟩ := kv
    rw [List.map_cons, get?, get?, ih]
    exact if_congr (hf k) rfl rfl

theorem mem_of_get?_eq_some {d : Dict κ ν} {x : κ} {w : ν} (h : d.get? x = some w) : (x, w) ∈ d := by
  induction d with
  | nil => simp at h
  | cons kv d ih =>
    obtain ⟨k, v⟩ := kv
    unfold get? at h
    split at h
    · simp_all
    · exact List.mem_cons_of_mem _ (ih h)

theorem get?_isSome_iff {d : Dict κ ν} {x : κ} : (d.get? x).isSome ↔ x ∈ d.keys := by
  induction d with
  | nil => simp [keys]
  | cons kv d ih =>
    obtain ⟨k, v⟩ := kv
    unfold get?
    split
    · simp [keys, *]
    · rw [ih]; simp [keys, Ne.symm ‹¬k = x›]

theorem get?_eq_none_iff {d : Dict κ ν} {x : κ} : d.get? x = none ↔ x ∉ d.keys := by
  rw [← get?_isSome_iff, Option.not_isSome_iff_eq_none]

theorem get?_of_mem {d : Dict κ ν} (hd : d.keys.Nodup) {x : κ} {w : ν} (h : (x, w) ∈ d) : d.get? x = some w := by
  induction d with
  | nil => cases h
  | cons kv d ih =>
    obtain ⟨k, v⟩ := kv
    rw [keys, List.map_cons, List.nodup_cons] at hd
    rcases List.mem_cons.1 h with h | h
    · simp_all [get?]
    · have hk : k ≠ x := by
        rintro rfl
        exact hd.1 (List.mem_map.2 ⟨_, h, rfl⟩)
      simp only [get?, hk, if_false]
      exact ih hd.2 h

/-- A dictionary filled from a list. -/
theorem get?_foldl_set {α : Type} {k : α → κ} {v : α → ν} {xs : List α} {x : κ} {w : ν} {d : Dict κ ν}
    (h : (xs.foldl (fun (d : Dict κ ν) a => d.set (k a) (v a)) d).get? x = some w) :
    d.get? x = some w ∨ ∃ a ∈ xs, k a = x ∧ v a = w := by
  induction xs generalizing d with
  | nil => exact .inl h
  | cons a xs ih =>
    rcases ih h with h | ⟨b, hb, hk, hv⟩
    · rw [get?_set] at h
      split at h
      · rename_i hx
        exact .inr ⟨a, by simp, hx.symm, Option.some.inj h⟩
      · exact .inl h
    · exact .inr ⟨b, List.mem_cons_of_mem _ hb, hk, hv⟩

theorem get?_foldl_set_of_mem {α : Type} {k : α → κ} {v : α → ν} {xs : List α} {a : α} {d : Dict κ ν}
    (ha : a ∈ xs) (hval : ∀ b ∈ xs, k b = k a → v b = v a) :
    (xs.foldl (fun (d : Dict κ ν) a => d.set (k a) (v a)) d).get? (k a) = some (v a) := by
  suffices go : ∀ (xs : List α) (d : Dict κ ν), (∀ b ∈ xs, k b = k a → v b = v a) →
      (a ∈ xs ∨ d.get? (k a) = some (v a)) →
      (xs.foldl (fun (d : Dict κ ν) a => d.set (k a) (v a)) d).get? (k a) = some (v a) from
    go xs d hval (.inl ha)
  intro xs
  induction xs with
  | nil => exact fun d _ h => h.resolve_left (by simp)
  | cons b xs ih =>
    intro d hval h
    refine ih _ (fun b' hb' => hval b' (List.mem_cons_of_mem _ hb')) ?_
    rw [get?_set]
    by_cases hk : k a = k b
    · right
      rw [if_pos hk, hval b (by simp) hk.symm]
    · rw [if_neg hk]
      rcases h with h | h
      · rcases List.mem_cons.1 h with rfl | h
        · exact absurd rfl hk
        · exact .inl h
      · exact .inr h

theorem keys_set (d : Dict κ ν) (x : κ) (w : ν) : (d.set x w).keys = if x ∈ d.keys then d.keys else d.keys ++ [x] := by
  induction d with
  | nil => rfl
  | cons kv d ih =>
    obtain ⟨k, v⟩ := kv
    unfold set
    by_cases hk : k = x
    · subst hk
      simp [keys]
    · rw [if_neg hk, keys, List.map_cons, ← keys, ih]
      simp only [keys, List.map_cons, List.mem_cons, Ne.symm hk, false_or]
      split <;> simp [*]

theorem nodup_keys_set {d : Dict κ ν} (h : d.keys.Nodup) (x : κ) (w : ν) : (d.set x w).keys.Nodup := by
  rw [keys_set]
  split
  · exact h
  · rename_i hx
    exact List.nodup_append.2 ⟨h, List.nodup_singleton x, by
      rintro y hy z hz rfl
      rw [List.mem_singleton] at hz
      exact hx (hz ▸ hy)⟩

theorem get?_setDefault (d : Dict κ ν) (x y : κ) (w : ν) :
    (d.setDefault x w).get? y = (d.get? y).or (if y = x then some w else none) := by
  unfold setDefault contains
  cases hx : d.get? x with
  | some v =>
    rw [Option.isSome_some, if_pos rfl]
    by_cases hy : y = x
    · rw [hy, hx, Option.some_or]
    · rw [if_neg hy, Option.or_none]
  | none =>
    rw [Option.isSome_none, if_neg (by simp), get?_set]
    by_cases hy : y = x
    · rw [if_pos hy, if_pos hy, hy, hx, Option.none_or]
    · rw [if_neg hy, if_neg hy, Option.or_none]

theorem nodup_keys_setDefault {d : Dict κ ν} (h : d.keys.Nodup) (x : κ) (w : ν) : (d.setDefault x w).keys.Nodup := by
  unfold setDefault
  split
  · exact h
  · exact nodup_keys_set h x w

theorem setDefault_self (d : Dict κ ν) (x : κ) (w w' : ν) : (d.setDefault x w).setDefault x w' = d.setDefault x w := by
  have hmem : (d.setDefault x w).contains x = true := by
    unfold contains
    rw [get?_setDefault, if_pos rfl]
    cases d.get? x <;> rfl
  conv_lhs => rw [setDefault, if_pos hmem]

theorem foldl_setDefault_const (v : κ → ν) {xs : List κ} {x : κ} (hne : xs ≠ []) (h : ∀ y ∈ xs, y = x) (d : Dict κ ν) :
    xs.foldl (fun d y => d.setDefault y (v y)) d = d.setDefault x (v x) := by
  induction xs generalizing d with
  | nil => exact absurd rfl hne
  | cons y xs ih =>
    obtain rfl := h y (by simp)
    rw [List.foldl_cons]
    by_cases hxs : xs = []
    · rw [hxs, List.foldl_nil]
    · rw [ih hxs (fun z hz => h z (List.mem_cons_of_mem _ hz)), setDefault_self]

/-- Defaults for every key of a list. -/
theorem get?_foldl_setDefault (v : κ → ν) (xs : List κ) (d : Dict κ ν) (y : κ) :
    (xs.foldl (fun d x => d.setDefault x (v x)) d).get? y = (d.get? y).or (if y ∈ xs then some (v y) else none) := by
  induction xs generalizing d with
  | nil => simp
  | cons x xs ih =>
    rw [List.foldl_cons, ih, get?_setDefault]
    by_cases hy : y = x
    · subst hy
      cases d.get? y <;> simp
    · simp [hy]

theorem nodup_keys_foldl_setDefault (v : κ → ν) (xs : List κ) {d : Dict κ ν} (h : d.keys.Nodup) :
    (xs.foldl (fun d x => d.setDefault x (v x)) d).keys.Nodup := by
  induction xs generalizing d with
  | nil => exact h
  | cons x xs ih => exact ih (nodup_keys_setDefault h x (v x))

theorem set_of_notMem {d : Dict κ ν} {x : κ} (h : x ∉ d.keys) (w : ν) : d.set x w = d ++ [(x, w)] := by
  induction d with
  | nil => rfl
  | cons kv d ih =>
    obtain ⟨k, v⟩ := kv
    simp only [keys, List.map_cons, List.mem_cons, not_or] at h
    unfold set
    rw [if_neg (Ne.symm h.1), ih h.2]
    rfl

/-- New keys are set at the end, one after the other. -/
theorem foldl_set_append (items d : Dict κ ν) (h : (keys (d ++ items)).Nodup) :
    items.foldl (fun d kv => d.set kv.1 kv.2) d = d ++ items := by
  induction items generalizing d with
  | nil => simp
  | cons kv items ih =>
    have hx : kv.1 ∉ d.keys := by
      intro hmem
      rw [keys, List.map_append, List.map_cons, List.nodup_append] at h
      exact h.2.2 _ hmem _ (List.mem_cons_self ..) rfl
    rw [List.foldl_cons, set_of_notMem hx, ih _ (by simpa using h)]
    simp

theorem get?_of_perm {d d' : Dict κ ν} (h : d.Perm d') (hd' : d'.keys.Nodup) (x : κ) : d.get? x = d'.get? x := by
  have hkeys : d.keys.Perm d'.keys := h.map Prod.fst
  cases hx : d'.get? x with
  | none =>
    rw [get?_eq_none_iff] at hx ⊢
    exact fun hmem => hx (hkeys.mem_iff.1 hmem)
  | some w => exact get?_of_mem (hkeys.nodup_iff.2 hd') (h.mem_iff.2 (mem_of_get?_eq_some hx))

theorem get?_map (f : ν → ν) (d : Dict κ ν) (x : κ) :
    get? (d.map fun item => (item.1, f item.2)) x = (d.get? x).map f := by
  induction d with
  | nil => rfl
  | cons item d ih =>
    rw [List.map_cons, get?, get?]
    split
    · rfl
    · exact ih

section

variable {α : Type} (k : α → κ) (v : α → ν)

theorem nodup_keys_foldl_set (xs : List α) {d : Dict κ ν} (h : d.keys.Nodup) :
    (keys (xs.foldl (fun (d : Dict κ ν) a => d.set (k a) (v a)) d)).Nodup := by
  induction xs generalizing d with
  | nil => exact h
  | cons a xs ih => exact ih (nodup_keys_set h (k a) (v a))

theorem mem_keys_foldl_set (xs : List α) (d : Dict κ ν) (x : κ) :
    x ∈ keys (xs.foldl (fun (d : Dict κ ν) a => d.set (k a) (v a)) d) ↔ x ∈ d.keys ∨ ∃ a ∈ xs, k a = x := by
  induction xs generalizing d with
  | nil => simp
  | cons a xs ih =>
    rw [List.foldl_cons, ih, ← get?_isSome_iff, get?_set, List.exists_mem_cons_iff]
    by_cases hx : x = k a
    · simp [hx]
    · rw [if_neg hx, get?_isSome_iff]
      simp [Ne.symm hx]

end

end Dict

import Mathlib.Data.List.Nodup
import Mathlib.Data.List.Rotate

/-!
# Cycles of a partial function

A partial function leads from a point to at most one next point.  A cycle lists distinct points, each of which leads to
the next one and the last one to the first.  Two cycles with a common point are rotations of each other
(`IsCycle.isRotated`), and a point is on a cycle exactly when some steps lead back to it (`on_cycle_iff`).
-/

namespace Orbits

variable {α : Type}

/-- The function takes the list to its rotation by one. -/
structure IsCycle (f : α → Option α) (c : List α) : Prop where
  nonempty : c ≠ []
  nodup : c.Nodup
  next : c.map f = (c.rotate 1).map some

/-- So many steps from a point. -/
def iterate (f : α → Option α) : Nat → α → Option α
  | 0, a => some a
  | n + 1, a => (f a).bind (iterate f n)

/-- The points that a walk from `a` leaves, one after the other, until it comes to `b`. -/
def Leads (f : α → Option α) : α → List α → α → Prop
  | a, [], b => a = b
  | a, c :: rest, b => c = a ∧ ∃ next, f a = some next ∧ Leads f next rest b

variable {f : α → Option α} {a b : α} {c d : List α}

/-! ### Walks -/

theorem leads_append : Leads f a (c ++ d) b ↔ ∃ x, Leads f a c x ∧ Leads f x d b := by
  induction c generalizing a with
  | nil => simp [Leads]
  | cons y c ih =>
    simp only [List.cons_append, Leads, ih]
    constructor
    · rintro ⟨rfl, next, hnext, x, hx, hd⟩
      exact ⟨x, ⟨rfl, next, hnext, hx⟩, hd⟩
    · rintro ⟨x, ⟨rfl, next, hnext, hx⟩, hd⟩
      exact ⟨rfl, next, hnext, x, hx, hd⟩

theorem Leads.concat (h : Leads f a c b) {x : α} (hb : f b = some x) : Leads f a (c ++ [b]) x :=
  leads_append.2 ⟨b, h, rfl, x, hb, rfl⟩

/-- What a walk leaves behind a point, it leaves when it begins there. -/
theorem Leads.suffix {x : α} (h : Leads f a (c ++ x :: d) b) : Leads f x (x :: d) b := by
  obtain ⟨y, -, hy⟩ := leads_append.1 h
  obtain ⟨rfl, hnext⟩ := hy
  exact ⟨rfl, hnext⟩

/-- Of two walks from a point one is the begin of the other. -/
theorem Leads.prefix_total {b' : α} (h : Leads f a c b) (h' : Leads f a d b') : c <+: d ∨ d <+: c := by
  induction c generalizing a d with
  | nil => exact .inl (List.nil_prefix)
  | cons x c ih =>
    cases d with
    | nil => exact .inr (List.nil_prefix)
    | cons y d =>
      obtain ⟨rfl, next, hnext, hc⟩ := h
      obtain ⟨rfl, next', hnext', hd⟩ := h'
      rw [hnext] at hnext'
      cases hnext'
      rw [List.prefix_cons_inj, List.prefix_cons_inj]
      exact ih hc hd

theorem Leads.iterate (h : Leads f a c b) : iterate f c.length a = some b := by
  induction c generalizing a with
  | nil =>
    cases h
    rfl
  | cons x c ih =>
    obtain ⟨rfl, next, hnext, hc⟩ := h
    simp [Orbits.iterate, hnext, ih hc]

theorem exists_leads {n : Nat} (h : iterate f n a = some b) : ∃ c, c.length = n ∧ Leads f a c b := by
  induction n generalizing a with
  | zero =>
    cases h
    exact ⟨[], rfl, rfl⟩
  | succ n ih =>
    obtain ⟨next, hnext, h⟩ := Option.bind_eq_some_iff.1 h
    obtain ⟨c, hlength, hc⟩ := ih h
    exact ⟨a :: c, by simp [hlength], rfl, next, hnext, hc⟩

/-- A walk that comes back leads around a cycle. -/
theorem map_eq_iff_leads : (a :: c).map f = (c ++ [b]).map some ↔ Leads f a (a :: c) b := by
  induction c generalizing a with
  | nil => simp [Leads]
  | cons x c ih =>
    show f a :: (x :: c).map f = some x :: (c ++ [b]).map some ↔ _
    rw [List.cons.injEq, ih]
    constructor
    · rintro ⟨hnext, hrest⟩
      exact ⟨rfl, x, hnext, hrest⟩
    · rintro ⟨-, next, hnext, rfl, hrest⟩
      exact ⟨hnext, rfl, hrest⟩

theorem isCycle_iff : IsCycle f (a :: c) ↔ (a :: c).Nodup ∧ Leads f a (a :: c) a := by
  have hrotate : (a :: c).rotate 1 = c ++ [a] := by simp
  constructor
  · rintro ⟨-, hnodup, hnext⟩
    rw [hrotate] at hnext
    exact ⟨hnodup, map_eq_iff_leads.1 hnext⟩
  · rintro ⟨hnodup, hleads⟩
    refine ⟨by simp, hnodup, ?_⟩
    rw [hrotate]
    exact map_eq_iff_leads.2 hleads

/-! ### Cycles -/

namespace IsCycle

theorem rotate (h : IsCycle f c) (n : Nat) : IsCycle f (c.rotate n) where
  nonempty := fun hnil => h.nonempty (List.rotate_eq_nil_iff.1 hnil)
  nodup := List.nodup_rotate.2 h.nodup
  next := by
    rw [List.map_rotate, h.next, ← List.map_rotate, List.rotate_rotate, List.rotate_rotate, Nat.add_comm]

/-- A cycle can begin with any of its points. -/
theorem from_point (h : IsCycle f c) (ha : a ∈ c) : ∃ rest, IsCycle f (a :: rest) ∧ c ~r (a :: rest) := by
  obtain ⟨front, back, rfl⟩ := List.append_of_mem ha
  have hrotate : (front ++ a :: back).rotate front.length = a :: (back ++ front) :=
    List.rotate_append_length_eq front (a :: back)
  exact ⟨back ++ front, hrotate ▸ h.rotate front.length, front.length, hrotate⟩

/-- A walk from a point of a cycle stays on it. -/
theorem mem_of_leads (h : IsCycle f c) (ha : a ∈ c) (hd : Leads f a d b) : b ∈ c := by
  induction d generalizing a with
  | nil =>
    cases hd
    exact ha
  | cons x d ih =>
    obtain ⟨rfl, next, hnext, hd⟩ := hd
    refine ih ?_ hd
    have hmem : f x ∈ c.map f := List.mem_map.2 ⟨x, ha, rfl⟩
    rw [h.next, hnext] at hmem
    obtain ⟨y, hy, hsome⟩ := List.mem_map.1 hmem
    cases hsome
    exact List.mem_rotate.1 hy

theorem next_ne_none (h : IsCycle f c) (ha : a ∈ c) : f a ≠ none := by
  intro hnone
  have hmem : f a ∈ c.map f := List.mem_map.2 ⟨a, ha, rfl⟩
  rw [h.next, hnone] at hmem
  obtain ⟨y, -, hy⟩ := List.mem_map.1 hmem
  cases hy

private theorem eq_of_starts {rest rest' : List α} (h : IsCycle f (a :: rest)) (h' : IsCycle f (a :: rest'))
    (hpre : a :: rest <+: a :: rest') : a :: rest = a :: rest' := by
  obtain ⟨more, hmore⟩ := hpre
  obtain ⟨-, hleads⟩ := isCycle_iff.1 h
  obtain ⟨hnodup', hleads'⟩ := isCycle_iff.1 h'
  cases more with
  | nil => rwa [List.append_nil] at hmore
  | cons x more =>
    -- behind the shorter one the longer one is at `a` again
    rw [← hmore] at hleads' hnodup'
    obtain ⟨y, hy, hrest⟩ := leads_append.1 hleads'
    have hsame : y = a := by
      have hiterate := hy.iterate
      rw [hleads.iterate] at hiterate
      exact (Option.some.inj hiterate).symm
    rw [hsame] at hrest
    obtain ⟨rfl, -⟩ := hrest
    have hdisjoint := (List.nodup_append.1 hnodup').2.2
    exact absurd rfl (hdisjoint x (List.mem_cons_self ..) x (List.mem_cons_self ..))

/-- Cycles with a common point are the same one. -/
theorem isRotated (h : IsCycle f c) (h' : IsCycle f d) (hc : a ∈ c) (hd : a ∈ d) : c ~r d := by
  obtain ⟨rest, hfirst, hrotated⟩ := h.from_point hc
  obtain ⟨rest', hfirst', hrotated'⟩ := h'.from_point hd
  have hsame : a :: rest = a :: rest' := by
    rcases (isCycle_iff.1 hfirst).2.prefix_total (isCycle_iff.1 hfirst').2 with hpre | hpre
    · exact eq_of_starts hfirst hfirst' hpre
    · exact (eq_of_starts hfirst' hfirst hpre).symm
  rw [hsame] at hrotated
  exact hrotated.trans hrotated'.symm

end IsCycle

private theorem exists_twice (h : ¬c.Nodup) : ∃ front x middle back, c = front ++ x :: (middle ++ x :: back) := by
  induction c with
  | nil => exact absurd List.nodup_nil h
  | cons y c ih =>
    by_cases hy : y ∈ c
    · obtain ⟨middle, back, rfl⟩ := List.append_of_mem hy
      exact ⟨[], y, middle, back, rfl⟩
    · obtain ⟨front, x, middle, back, rfl⟩ := ih fun hnodup => h (List.nodup_cons.2 ⟨hy, hnodup⟩)
      exact ⟨y :: front, x, middle, back, rfl⟩

/-- A walk that comes back can leave out what it walks twice. -/
private theorem exists_cycle_of_leads (h : Leads f a c a) (hc : c ≠ []) : ∃ d, IsCycle f d ∧ a ∈ d := by
  induction hn : c.length using Nat.strong_induction_on generalizing c with
  | _ n ih =>
    by_cases hnodup : c.Nodup
    · cases c with
      | nil => exact absurd rfl hc
      | cons x c =>
        obtain rfl := h.1
        exact ⟨_, isCycle_iff.2 ⟨hnodup, h⟩, List.mem_cons_self ..⟩
    · obtain ⟨front, x, middle, back, rfl⟩ := exists_twice hnodup
      obtain ⟨y, hfront, hrest⟩ := leads_append.1 h
      have hy : x = y := hrest.1
      have hback : Leads f x (x :: back) a := Leads.suffix (c := x :: middle) hrest
      have hshort : Leads f a (front ++ x :: back) a := leads_append.2 ⟨x, hy ▸ hfront, hback⟩
      refine ih _ ?_ hshort (by simp) rfl
      rw [← hn]
      simp only [List.length_append, List.length_cons]
      omega

theorem on_cycle_iff : (∃ c, IsCycle f c ∧ a ∈ c) ↔ ∃ n, 0 < n ∧ iterate f n a = some a := by
  constructor
  · rintro ⟨c, hc, ha⟩
    obtain ⟨rest, hfirst, -⟩ := hc.from_point ha
    exact ⟨_, by simp, (isCycle_iff.1 hfirst).2.iterate⟩
  · rintro ⟨n, hn, hback⟩
    obtain ⟨c, hlength, hleads⟩ := exists_leads hback
    refine exists_cycle_of_leads hleads ?_
    rintro rfl
    rw [← hlength] at hn
    exact absurd hn (lt_irrefl _)

end Orbits

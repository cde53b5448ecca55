import Mathlib.Data.List.Infix
import Mathlib.Logic.Function.Basic
import Mathlib.Data.Set.Basic

/-!
# Holdings

Several owners keep items in one tree of names.  An owner has some subtrees to itself, its ground, and knows each of
its items by a key; an item lies at a path inside the ground of its owner.  Owners change their items a set at a time
(`Change`): items are put at a path, moved to another, or deleted, all at once.  A change that the holdings permit
leaves every item inside the ground of its owner and no two items at one path, so what lies inside the ground of one
owner is up to this owner alone (`lies_iff`).  A change that is made again changes nothing (`Change.on_on`).
-/

/-- Two subtrees have a path in common. -/
def Meet {A : Type*} (g g' : List A) : Prop := g <+: g' ∨ g' <+: g

theorem Meet.symm {A : Type*} {g g' : List A} (h : Meet g g') : Meet g' g := Or.symm h

theorem Meet.of_below {A : Type*} {g g' p : List A} (h : g <+: p) (h' : g' <+: p) : Meet g g' :=
  List.prefix_or_prefix_of_prefix h h'

/-- The items of all owners, by owner and key, each with its path. -/
structure Holdings (O K A T : Type*) where
  item : O → K → Option (List A × T)
  ground : O → Set (List A)
  /-- An owner has one item at a path. -/
  apart : ∀ {o k k' p t t'}, item o k = some (p, t) → item o k' = some (p, t') → k = k'
  owned : ∀ {o k p t}, item o k = some (p, t) → ∃ g ∈ ground o, g <+: p
  disjoint : ∀ {o o' g g'}, g ∈ ground o → g' ∈ ground o' → Meet g g' → o = o'

/-- What an owner does at once to its items: the items it puts, the paths to which it moves items with some contents,
and the items it deletes. -/
structure Change (K A T : Type*) where
  put : K → Option (List A × T)
  move : K → Option (List A × Set T)
  delete : Set K

namespace Holdings

variable {O K A T : Type*}

/-- Nobody has anything. -/
def empty : Holdings O K A T where
  item _ _ := none
  ground _ := ∅
  apart h := nomatch h
  owned h := nomatch h
  disjoint h := h.elim

/-- There is an item at a path. -/
def Lies (H : Holdings O K A T) (p : List A) (t : T) : Prop := ∃ o k, H.item o k = some (p, t)

/-- An item inside the ground of an owner is the owner's. -/
theorem owner_eq (H : Holdings O K A T) {o o' : O} {k : K} {p g : List A} {t : T} (h : H.item o' k = some (p, t))
    (hg : g ∈ H.ground o) (hp : g <+: p) : o' = o := by
  obtain ⟨g', hg', hp'⟩ := H.owned h
  exact H.disjoint hg' hg (.of_below hp' hp)

theorem lies_iff (H : Holdings O K A T) {o : O} {p g : List A} {t : T} (hg : g ∈ H.ground o) (hp : g <+: p) :
    H.Lies p t ↔ ∃ k, H.item o k = some (p, t) := by
  constructor
  · rintro ⟨o', k, h⟩
    obtain rfl := H.owner_eq h hg hp
    exact ⟨k, h⟩
  · rintro ⟨k, h⟩
    exact ⟨o, k, h⟩

/-- One item at most lies at a path. -/
theorem Lies.unique {H : Holdings O K A T} {p : List A} {t t' : T} (h : H.Lies p t) (h' : H.Lies p t') : t = t' := by
  obtain ⟨o, k, h⟩ := h
  obtain ⟨o', k', h'⟩ := h'
  obtain ⟨g, hg, hp⟩ := H.owned h
  obtain rfl := H.owner_eq h' hg hp
  obtain rfl := H.apart h h'
  rw [h] at h'
  exact congrArg Prod.snd (Option.some.inj h')

/-! ### Ground -/

section

variable [DecidableEq O]

/-- A subtree becomes the ground of an owner; no other owner may have a part of it. -/
def claim (H : Holdings O K A T) (o : O) (g : List A) (h : ∀ o' g', g' ∈ H.ground o' → Meet g g' → o' = o) :
    Holdings O K A T where
  item := H.item
  ground := Function.update H.ground o (insert g (H.ground o))
  apart := H.apart
  owned := by
    intro o' k p t hitem
    obtain ⟨g', hg', hp⟩ := H.owned hitem
    refine ⟨g', ?_, hp⟩
    rw [Function.update_apply]
    split
    · rename_i ho
      exact .inr (ho ▸ hg')
    · exact hg'
  disjoint := by
    have hmem : ∀ {o' g'}, g' ∈ Function.update H.ground o (insert g (H.ground o)) o' →
        g' ∈ H.ground o' ∨ o' = o ∧ g' = g := by
      intro o' g' hg'
      rw [Function.update_apply] at hg'
      split at hg'
      · rename_i ho
        rcases hg' with rfl | hg'
        · exact .inr ⟨ho, rfl⟩
        · exact .inl (ho ▸ hg')
      · exact .inl hg'
    intro o₁ o₂ g₁ g₂ h₁ h₂ hmeet
    rcases hmem h₁ with hold₁ | ⟨rfl, rfl⟩
    · rcases hmem h₂ with hold₂ | ⟨rfl, rfl⟩
      · exact H.disjoint hold₁ hold₂ hmeet
      · exact h _ _ hold₁ hmeet.symm
    · rcases hmem h₂ with hold₂ | ⟨rfl, rfl⟩
      · exact (h _ _ hold₂ hmeet).symm
      · rfl

section

variable {H : Holdings O K A T} {o o' : O} {g g' : List A} {h : ∀ o' g', g' ∈ H.ground o' → Meet g g' → o' = o}

@[simp] theorem claim_item : (H.claim o g h).item = H.item := rfl

@[simp] theorem claim_ground_self : (H.claim o g h).ground o = insert g (H.ground o) := Function.update_self ..

theorem claim_ground_of_ne (hne : o' ≠ o) : (H.claim o g h).ground o' = H.ground o' := Function.update_of_ne hne ..

end

end

end Holdings

/-! ### Changes -/

open Classical in
/-- What becomes of an item. -/
noncomputable def Change.on {K A T : Type*} (c : Change K A T) (items : K → Option (List A × T)) (k : K) :
    Option (List A × T) :=
  match c.put k with
  | some x => some x
  | none =>
    if k ∈ c.delete then none
    else match c.move k with
      | some (p, _) => (items k).map fun x => (p, x.2)
      | none => items k

/-- A change that is made again changes nothing. -/
theorem Change.on_on {K A T : Type*} (c : Change K A T) (items : K → Option (List A × T)) :
    c.on (c.on items) = c.on items := by
  funext k
  unfold Change.on
  cases c.put k with
  | some x => rfl
  | none =>
    by_cases hdelete : k ∈ c.delete
    · simp only [if_pos hdelete]
    · simp only [if_neg hdelete]
      cases c.move k with
      | none => rfl
      | some target => cases items k <;> rfl

namespace Holdings

variable {O K A T : Type*}

/-- The change leads inside the ground of the owner, moves only items that are there with the contents it expects, and
does not bring two items to one path. -/
structure Permits (H : Holdings O K A T) (o : O) (c : Change K A T) : Prop where
  put : ∀ k p t, c.put k = some (p, t) → ∃ g ∈ H.ground o, g <+: p
  move : ∀ k p expected, c.move k = some (p, expected) → (∃ g ∈ H.ground o, g <+: p) ∧ k ∉ c.delete ∧
    ∃ p' t, H.item o k = some (p', t) ∧ t ∈ expected
  apart : ∀ k k' p t t', c.on (H.item o) k = some (p, t) → c.on (H.item o) k' = some (p, t') → k = k'

theorem Permits.owned {H : Holdings O K A T} {o : O} {c : Change K A T} (h : H.Permits o c) {k : K} {p : List A} {t : T}
    (hon : c.on (H.item o) k = some (p, t)) : ∃ g ∈ H.ground o, g <+: p := by
  unfold Change.on at hon
  split at hon
  · rename_i x hput
    cases hon
    exact h.put k p t hput
  · split at hon
    · cases hon
    · split at hon
      · rename_i p' expected hmove
        obtain ⟨x, -, hx⟩ := Option.map_eq_some_iff.1 hon
        cases hx
        exact (h.move k _ _ hmove).1
      · exact H.owned hon

variable [DecidableEq O]

noncomputable def change (H : Holdings O K A T) (o : O) (c : Change K A T) (h : H.Permits o c) : Holdings O K A T where
  item := Function.update H.item o (c.on (H.item o))
  ground := H.ground
  apart := by
    intro o' k k' p t t' hk hk'
    rw [Function.update_apply] at hk hk'
    split at hk
    · rename_i ho
      rw [if_pos ho] at hk'
      exact h.apart k k' p t t' hk hk'
    · rename_i ho
      rw [if_neg ho] at hk'
      exact H.apart hk hk'
  owned := by
    intro o' k p t hk
    rw [Function.update_apply] at hk
    split at hk
    · rename_i ho
      rw [ho]
      exact h.owned hk
    · exact H.owned hk
  disjoint := H.disjoint

variable {H : Holdings O K A T} {o o' : O} {c : Change K A T} {h : H.Permits o c}

@[simp] theorem change_item_self : (H.change o c h).item o = c.on (H.item o) := Function.update_self ..

theorem change_item_of_ne (hne : o' ≠ o) : (H.change o c h).item o' = H.item o' := Function.update_of_ne hne ..

@[simp] theorem change_ground : (H.change o c h).ground = H.ground := rfl

/-- A change that leaves the owner's items as they are leaves every item where it lies. -/
theorem lies_change (hsame : c.on (H.item o) = H.item o) {p : List A} {t : T} :
    (H.change o c h).Lies p t ↔ H.Lies p t := by
  have hitem : (H.change o c h).item = H.item := by
    funext o'
    by_cases ho : o' = o
    · rw [ho, change_item_self, hsame]
    · exact change_item_of_ne ho
  unfold Lies
  rw [hitem]

end Holdings

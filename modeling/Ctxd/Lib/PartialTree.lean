import Mathlib.Data.List.Basic

/-!
# Trees of which a part cannot be listed

A walk through a tree of directories passes over the directories that cannot be listed.  Two trees look the same to it
when they differ below such directories only.  So a walk tells that something is nowhere in a tree exactly when it has
listed every directory on its way and has not met it (`absent_iff`).
-/

namespace PartialTree

/-- The entries of a directory: nodes with their names, of which directories have entries of their own. -/
inductive Entries (ν α : Type*)
  | nil
  | leaf (name : ν) (payload : α) (rest : Entries ν α)
  | dir (name : ν) (payload : α) (listed : Bool) (below rest : Entries ν α)

/-- A directory, with what is in it. -/
structure Root (ν α : Type*) where
  listed : Bool
  entries : Entries ν α

variable {ν α : Type*}

/-- The nodes below a name. -/
def under (name : ν) (nodes : List (List ν × α)) : List (List ν × α) := nodes.map fun node => (name :: node.1, node.2)

private theorem mem_under {name : ν} {nodes : List (List ν × α)} {path : List ν} {a : α} :
    (path, a) ∈ under name nodes ↔ ∃ p, path = name :: p ∧ (p, a) ∈ nodes := by
  unfold under
  rw [List.mem_map]
  constructor
  · rintro ⟨⟨p, b⟩, hmem, heq⟩
    cases heq
    exact ⟨p, rfl, hmem⟩
  · rintro ⟨p, rfl, hmem⟩
    exact ⟨(p, a), hmem, rfl⟩

namespace Entries

/-- The nodes that a walk meets, each with the names on the way to it. -/
def walk : Entries ν α → List (List ν × α)
  | nil => []
  | leaf name payload rest => ([name], payload) :: walk rest
  | dir name payload listed below rest =>
    ([name], payload) :: (if listed then under name (walk below) else []) ++ walk rest

/-- All nodes. -/
def nodes : Entries ν α → List (List ν × α)
  | nil => []
  | leaf name payload rest => ([name], payload) :: nodes rest
  | dir name payload _ below rest => ([name], payload) :: under name (nodes below) ++ nodes rest

/-- Every directory can be listed. -/
def Listed : Entries ν α → Prop
  | nil => True
  | leaf _ _ rest => Listed rest
  | dir _ _ listed below rest => listed = true ∧ Listed below ∧ Listed rest

instance decidableListed : (t : Entries ν α) → Decidable (Listed t)
  | nil => inferInstanceAs (Decidable True)
  | leaf _ _ rest => decidableListed rest
  | dir _ _ listed below rest =>
    have := decidableListed below
    have := decidableListed rest
    inferInstanceAs (Decidable (listed = true ∧ Listed below ∧ Listed rest))

/-- Two trees that differ only below directories that cannot be listed. -/
inductive SameView : Entries ν α → Entries ν α → Prop
  | nil : SameView nil nil
  | leaf (name : ν) (payload : α) {rest rest' : Entries ν α} :
      SameView rest rest' → SameView (leaf name payload rest) (leaf name payload rest')
  | listed (name : ν) (payload : α) {below below' rest rest' : Entries ν α} : SameView below below' →
      SameView rest rest' → SameView (dir name payload true below rest) (dir name payload true below' rest')
  | unlisted (name : ν) (payload : α) (below below' : Entries ν α) {rest rest' : Entries ν α} :
      SameView rest rest' → SameView (dir name payload false below rest) (dir name payload false below' rest')

theorem SameView.refl (t : Entries ν α) : SameView t t := by
  induction t with
  | nil => exact .nil
  | leaf name payload rest ih => exact .leaf name payload ih
  | dir name payload listed below rest ihbelow ihrest =>
    cases listed with
    | true => exact .listed name payload ihbelow ihrest
    | false => exact .unlisted name payload below below ihrest

/-- No tree but itself looks like one all of whose directories can be listed. -/
theorem SameView.eq_of_listed {t t' : Entries ν α} (h : SameView t t') (hlisted : t.Listed) : t' = t := by
  induction h with
  | nil => rfl
  | leaf name payload _ ih => rw [ih hlisted]
  | listed name payload _ _ ihbelow ihrest => rw [ihbelow hlisted.2.1, ihrest hlisted.2.2]
  | unlisted name payload below below' _ ihrest => cases hlisted.1

private theorem walk_subset_nodes (t : Entries ν α) : t.walk ⊆ t.nodes := by
  induction t with
  | nil => exact List.Subset.refl _
  | leaf name payload rest ih => exact List.cons_subset_cons _ ih
  | dir name payload listed below rest ihbelow ihrest =>
    have hbelow : (if listed then under name below.walk else []) ⊆ under name below.nodes := by
      split
      · exact List.map_subset _ ihbelow
      · exact List.nil_subset _
    refine List.append_subset.2 ⟨?_, List.subset_append_of_subset_right _ ihrest⟩
    exact List.subset_append_of_subset_left _ (List.cons_subset_cons _ hbelow)

theorem walk_eq_nodes {t : Entries ν α} (h : t.Listed) : t.walk = t.nodes := by
  induction t with
  | nil => rfl
  | leaf name payload rest ih => rw [walk, nodes, ih h]
  | dir name payload listed below rest ihbelow ihrest =>
    obtain ⟨rfl, hbelow, hrest⟩ := h
    rw [walk, nodes, ihbelow hbelow, ihrest hrest, if_pos rfl]

/-- Below a directory that cannot be listed there may be any node. -/
theorem exists_sameView {t : Entries ν α} (h : ¬t.Listed) (name : ν) (a : α) :
    ∃ t', SameView t t' ∧ ∃ above, (above ++ [name], a) ∈ t'.nodes := by
  induction t with
  | nil => exact absurd trivial h
  | leaf first payload rest ih =>
    obtain ⟨rest', hview, above, hmem⟩ := ih h
    exact ⟨_, .leaf first payload hview, above, List.mem_cons_of_mem _ hmem⟩
  | dir first payload listed below rest ihbelow ihrest =>
    cases listed with
    | false =>
      refine ⟨_, .unlisted first payload below (.leaf name a .nil) (.refl rest), [first], ?_⟩
      simp [nodes, under]
    | true =>
      by_cases hbelow : below.Listed
      · have hrest : ¬rest.Listed := fun hrest => h ⟨rfl, hbelow, hrest⟩
        obtain ⟨rest', hview, above, hmem⟩ := ihrest hrest
        exact ⟨_, .listed first payload (.refl below) hview, above, List.mem_append_right _ hmem⟩
      · obtain ⟨below', hview, above, hmem⟩ := ihbelow hbelow
        refine ⟨_, .listed first payload hview (.refl rest), first :: above, ?_⟩
        exact List.mem_append_left _ (List.mem_cons_of_mem _ (mem_under.2 ⟨_, rfl, hmem⟩))

end Entries

namespace Root

def walk (t : Root ν α) : List (List ν × α) := if t.listed then t.entries.walk else []

/-- Every directory can be listed, and so can the root. -/
def Listed (t : Root ν α) : Prop := t.listed = true ∧ t.entries.Listed

instance (t : Root ν α) : Decidable t.Listed := inferInstanceAs (Decidable (t.listed = true ∧ t.entries.Listed))

/-- Two roots that a walk does not tell apart: the same, or both cannot be listed. -/
inductive SameView : Root ν α → Root ν α → Prop
  | listed {entries entries' : Entries ν α} : entries.SameView entries' → SameView ⟨true, entries⟩ ⟨true, entries'⟩
  | unlisted (entries entries' : Entries ν α) : SameView ⟨false, entries⟩ ⟨false, entries'⟩

/-- A walk shows that no node is of some kind exactly when it has listed everything and met no such node. -/
theorem absent_iff {P : List ν × α → Prop} (hP : ∃ name a, ∀ above, P (above ++ [name], a)) (t : Root ν α) :
    (∀ t', t.SameView t' → ∀ node ∈ t'.entries.nodes, ¬P node) ↔ t.Listed ∧ ∀ node ∈ t.walk, ¬P node := by
  obtain ⟨name, a, hsome⟩ := hP
  obtain ⟨listed, entries⟩ := t
  constructor
  · intro h
    have hlisted : listed = true := by
      by_contra hno
      obtain rfl := Bool.eq_false_iff.2 hno
      exact h _ (.unlisted entries (.leaf name a .nil)) ([name], a) (List.mem_singleton.2 rfl) (hsome [])
    subst hlisted
    refine ⟨⟨rfl, ?_⟩, fun node hnode => h _ (.listed (.refl entries)) node (entries.walk_subset_nodes hnode)⟩
    by_contra hno
    obtain ⟨entries', hview, above, hmem⟩ := Entries.exists_sameView hno name a
    exact h _ (.listed hview) _ hmem (hsome above)
  · rintro ⟨⟨rfl, hlisted⟩, hwalk⟩ t' hview node hnode
    cases hview with
    | listed hview =>
      obtain rfl := hview.eq_of_listed hlisted
      rw [← Entries.walk_eq_nodes hlisted] at hnode
      exact hwalk node hnode

end Root

end PartialTree

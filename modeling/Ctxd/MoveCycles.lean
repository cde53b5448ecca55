import Ctxd.Catalog
import Ctxd.Lib.Orbits

/-!
# The cycles of a batch of moves

`_move_cycles` walks from every path that no walk has come to before, until there is no move, the walk is at a path of
its own (a cycle is found) or at a path of an earlier walk.  The paths walked so far hold every cycle they touch
(`Searched`): a walk that enters a cycle goes around it, so a cycle is found by the first walk that touches it, and the
tail that led there is cut off.
-/

namespace Ctxd

open Orbits

/-- The `while` loop of `_move_cycles`, without a bound on its rounds: from a path with a stack to the stack it leaves
and the cycle it finds. -/
inductive MoveWalk (destinations : Dict String String) (seen : List String) :
    String → List String → List String → Option (List String) → Prop
  | ended {path : String} {stack : List String} (hnext : destinations.get? path = none) :
    MoveWalk destinations seen path stack stack none
  | found {path next : String} {stack : List String} (hnext : destinations.get? path = some next)
      (hstack : path ∈ stack) : MoveWalk destinations seen path stack stack (some (stack.drop (stack.idxOf path)))
  | met {path next : String} {stack : List String} (hnext : destinations.get? path = some next) (hstack : path ∉ stack)
      (hseen : path ∈ seen) : MoveWalk destinations seen path stack stack none
  | goes {path next : String} {stack result : List String} {cycle : Option (List String)}
      (hnext : destinations.get? path = some next) (hstack : path ∉ stack) (hseen : path ∉ seen)
      (hrest : MoveWalk destinations seen next (stack ++ [path]) result cycle) :
    MoveWalk destinations seen path stack result cycle

section

variable {destinations : Dict String String} {seen stack result : List String} {path start : String}
  {cycle : Option (List String)}

/-- The loop ends: a stack of distinct keys is no longer than the dictionary. -/
private theorem followMoves_walk {rounds : Nat} (hnodup : stack.Nodup) (hkeys : ∀ p ∈ stack, p ∈ destinations.keys)
    (hrounds : destinations.length < rounds + stack.length) :
    MoveWalk destinations seen path stack (followMoves destinations seen rounds path stack).1
      (followMoves destinations seen rounds path stack).2 := by
  induction rounds generalizing path stack with
  | zero =>
    have hle := (List.subperm_of_subset hnodup hkeys).length_le
    rw [Dict.keys, List.length_map] at hle
    omega
  | succ rounds ih =>
    unfold followMoves
    cases hnext : destinations.get? path with
    | none => exact .ended hnext
    | some next =>
      dsimp only
      by_cases hstack : path ∈ stack
      · rw [if_pos hstack]
        exact .found hnext hstack
      rw [if_neg hstack]
      by_cases hseen : path ∈ seen
      · rw [if_pos hseen]
        exact .met hnext hstack hseen
      rw [if_neg hseen]
      refine .goes hnext hstack hseen (ih ?_ (fun p hp => ?_) ?_)
      · rw [List.nodup_append]
        refine ⟨hnodup, List.nodup_singleton path, fun p hp q hq => ?_⟩
        rw [List.mem_singleton.1 hq]
        rintro rfl
        exact hstack hp
      · rcases List.mem_append.1 hp with hp | hp
        · exact hkeys p hp
        · rw [List.mem_singleton.1 hp]
          exact Dict.get?_isSome_iff.1 (by rw [hnext]; rfl)
      · rw [List.length_append, List.length_singleton]
        omega

private theorem MoveWalk.stack_prefix (h : MoveWalk destinations seen path stack result cycle) : stack <+: result := by
  induction h with
  | ended => exact List.prefix_refl _
  | found => exact List.prefix_refl _
  | met => exact List.prefix_refl _
  | goes _ _ _ _ ih => exact (List.prefix_append _ _).trans ih

/-- A walk from a path with a move takes it down. -/
private theorem MoveWalk.start_mem (h : MoveWalk destinations seen start [] stack cycle)
    (hkey : start ∈ destinations.keys) (hseen : start ∉ seen) : start ∈ stack := by
  cases h with
  | ended hnext => exact absurd hkey (Dict.get?_eq_none_iff.1 hnext)
  | found _ hstack => cases hstack
  | met _ _ hmet => exact absurd hmet hseen
  | goes _ _ _ hrest => exact hrest.stack_prefix.subset (List.mem_cons_self ..)

/-- Where a walk has come to when it ends: there is no move, or it is among the paths of earlier walks, or at a path of
its own, from which on it is a cycle. -/
structure Walked (destinations : Dict String String) (seen : List String) (start last : String) (stack : List String)
    (cycle : Option (List String)) : Prop where
  leads : Leads destinations.get? start stack last
  nodup : stack.Nodup
  fresh : ∀ p ∈ stack, p ∉ seen
  found : (cycle = none ∧ (destinations.get? last = none ∨ last ∈ seen)) ∨
    ∃ front back, stack = front ++ last :: back ∧ cycle = some (last :: back)

private theorem MoveWalk.walked (h : MoveWalk destinations seen path stack result cycle)
    (hleads : Leads destinations.get? start stack path) (hnodup : stack.Nodup) (hfresh : ∀ p ∈ stack, p ∉ seen) :
    ∃ last, Walked destinations seen start last result cycle := by
  induction h with
  | ended hnext => exact ⟨_, hleads, hnodup, hfresh, .inl ⟨rfl, .inl hnext⟩⟩
  | @found path next stack hnext hstack =>
    refine ⟨path, hleads, hnodup, hfresh, .inr ⟨stack.take (stack.idxOf path), stack.drop (stack.idxOf path + 1), ?_⟩⟩
    have hlt := List.idxOf_lt_length_of_mem hstack
    have hdrop : stack.drop (stack.idxOf path) = path :: stack.drop (stack.idxOf path + 1) := by
      rw [List.drop_eq_getElem_cons hlt, List.getElem_idxOf]
    exact ⟨by rw [← hdrop, List.take_append_drop], by rw [hdrop]⟩
  | met hnext hstack hseen => exact ⟨_, hleads, hnodup, hfresh, .inl ⟨rfl, .inr hseen⟩⟩
  | @goes path next stack result cycle hnext hstack hseen _ ih =>
    refine ih (hleads.concat hnext) ?_ fun p hp => ?_
    · rw [List.nodup_append]
      refine ⟨hnodup, List.nodup_singleton path, fun p hp q hq => ?_⟩
      rw [List.mem_singleton.1 hq]
      rintro rfl
      exact hstack hp
    · rcases List.mem_append.1 hp with hp | hp
      · exact hfresh p hp
      · rwa [List.mem_singleton.1 hp]

end

/-- The cycles found by the walks through some paths: all that these paths touch, each of them once. -/
structure Searched (destinations : Dict String String) (cycles : List (List String)) (seen : List String) : Prop where
  cycle : ∀ c ∈ cycles, IsCycle destinations.get? c
  within : ∀ c ∈ cycles, ∀ p ∈ c, p ∈ seen
  disjoint : cycles.Pairwise List.Disjoint
  complete : ∀ c, IsCycle destinations.get? c → ∀ p ∈ c, p ∈ seen → ∃ r ∈ cycles, r ~r c

namespace Searched

variable {destinations : Dict String String} {cycles : List (List String)} {seen stack : List String}
  {start last : String} {cycle : Option (List String)}

/-- A walk that ends without a cycle touches none but those of earlier walks. -/
private theorem ended (h : Searched destinations cycles seen) (hw : Walked destinations seen start last stack none)
    (hlast : destinations.get? last = none ∨ last ∈ seen) : Searched destinations cycles (seen ++ stack) where
  cycle := h.cycle
  within := fun c hc p hp => List.mem_append_left _ (h.within c hc p hp)
  disjoint := h.disjoint
  complete := by
    intro c hc p hp hseen
    rcases List.mem_append.1 hseen with hseen | hstack
    · exact h.complete c hc p hp hseen
    -- the walk goes on from `p` along the cycle
    obtain ⟨front, back, rfl⟩ := List.append_of_mem hstack
    have hon := hc.mem_of_leads hp hw.leads.suffix
    rcases hlast with hnone | hseen
    · exact absurd hnone (hc.next_ne_none hon)
    · exact h.complete c hc last hon hseen

/-- A walk that comes back to a path of its own has found the one cycle that it touches. -/
private theorem found {front back : List String} (h : Searched destinations cycles seen)
    (hw : Walked destinations seen start last (front ++ last :: back) (some (last :: back))) :
    Searched destinations (cycles ++ [last :: back]) (seen ++ (front ++ last :: back)) := by
  have hnodup : (last :: back).Nodup := (List.nodup_append.1 hw.nodup).2.1
  have hcycle : IsCycle destinations.get? (last :: back) := isCycle_iff.2 ⟨hnodup, hw.leads.suffix⟩
  refine ⟨fun c hc => ?_, fun c hc p hp => ?_, ?_, fun c hc p hp hseen => ?_⟩
  · rcases List.mem_append.1 hc with hc | hc
    · exact h.cycle c hc
    · rwa [List.mem_singleton.1 hc]
  · rcases List.mem_append.1 hc with hc | hc
    · exact List.mem_append_left _ (h.within c hc p hp)
    · rw [List.mem_singleton.1 hc] at hp
      exact List.mem_append_right _ (List.mem_append_right _ hp)
  · rw [List.pairwise_append]
    refine ⟨h.disjoint, List.pairwise_singleton _ _, fun c hc c' hc' p hp hp' => ?_⟩
    rw [List.mem_singleton.1 hc'] at hp'
    exact hw.fresh p (List.mem_append_right _ hp') (h.within c hc p hp)
  · rcases List.mem_append.1 hseen with hseen | hstack
    · obtain ⟨r, hr, hrotated⟩ := h.complete c hc p hp hseen
      exact ⟨r, List.mem_append_left _ hr, hrotated⟩
    · obtain ⟨before, after, hsplit⟩ := List.append_of_mem hstack
      have hleads := hw.leads
      rw [hsplit] at hleads
      have hon := hc.mem_of_leads hp hleads.suffix
      exact ⟨last :: back, List.mem_append_right _ (List.mem_singleton.2 rfl),
        hcycle.isRotated hc (List.mem_cons_self ..) hon⟩

private theorem walk (h : Searched destinations cycles seen) (hf : MoveWalk destinations seen start [] stack cycle) :
    Searched destinations (cycles ++ cycle.toList) (seen ++ stack) := by
  have hfresh : ∀ p ∈ ([] : List String), p ∉ seen := fun p hp => by cases hp
  obtain ⟨last, hw⟩ := hf.walked rfl List.nodup_nil hfresh
  rcases hw.found with ⟨rfl, hlast⟩ | ⟨front, back, rfl, rfl⟩
  · rw [Option.toList_none, List.append_nil]
    exact h.ended hw hlast
  · exact h.found hw

end Searched

/-! ### The loop over the starts -/

/-- One round of `_move_cycles`. -/
def moveCyclesFrom (destinations : Dict String String) (state : List (List String) × List String) (start : String) :
    List (List String) × List String :=
  if start ∈ state.2 then state
  else
    let walk := followMoves destinations state.2 (destinations.length + 1) start []
    (state.1 ++ walk.2.toList, state.2 ++ walk.1)

private theorem walk_start (destinations : Dict String String) (seen : List String) (start : String) :
    MoveWalk destinations seen start [] (followMoves destinations seen (destinations.length + 1) start []).1
      (followMoves destinations seen (destinations.length + 1) start []).2 :=
  followMoves_walk List.nodup_nil (fun p hp => by cases hp) (by simp)

private theorem Searched.starts {destinations : Dict String String} {starts : List String}
    (hkeys : ∀ p ∈ starts, p ∈ destinations.keys) {state : List (List String) × List String}
    (h : Searched destinations state.1 state.2) :
    Searched destinations (starts.foldl (moveCyclesFrom destinations) state).1
        (starts.foldl (moveCyclesFrom destinations) state).2 ∧
      (∀ p ∈ state.2, p ∈ (starts.foldl (moveCyclesFrom destinations) state).2) ∧
        ∀ p ∈ starts, p ∈ (starts.foldl (moveCyclesFrom destinations) state).2 := by
  induction starts generalizing state with
  | nil => exact ⟨h, fun _ hp => hp, fun p hp => by cases hp⟩
  | cons start rest ih =>
    have hkeys' : ∀ p ∈ rest, p ∈ destinations.keys := fun p hp => hkeys p (List.mem_cons_of_mem _ hp)
    have hstep : Searched destinations (moveCyclesFrom destinations state start).1
        (moveCyclesFrom destinations state start).2 ∧ start ∈ (moveCyclesFrom destinations state start).2 ∧
          ∀ p ∈ state.2, p ∈ (moveCyclesFrom destinations state start).2 := by
      unfold moveCyclesFrom
      by_cases hseen : start ∈ state.2
      · rw [if_pos hseen]
        exact ⟨h, hseen, fun _ hp => hp⟩
      · rw [if_neg hseen]
        have hwalk := walk_start destinations state.2 start
        exact ⟨h.walk hwalk,
          List.mem_append_right _ (hwalk.start_mem (hkeys start (List.mem_cons_self ..)) hseen),
          fun p hp => List.mem_append_left _ hp⟩
    obtain ⟨hsearched, hstart, hold⟩ := hstep
    obtain ⟨hlast, hkept, hrest⟩ := ih hkeys' hsearched
    refine ⟨hlast, fun p hp => hkept p (hold p hp), fun p hp => ?_⟩
    rcases List.mem_cons.1 hp with rfl | hp
    · exact hkept p hstart
    · exact hrest p hp

private theorem moveCycles_searched (destinations : Dict String String) :
    ∃ seen, Searched destinations (moveCycles destinations) seen ∧ ∀ p ∈ destinations.keys, p ∈ seen := by
  have hnone : Searched destinations [] [] := by
    refine ⟨fun c hc => ?_, fun c hc => ?_, .nil, fun c _ p _ hp => ?_⟩
    · cases hc
    · cases hc
    · cases hp
  obtain ⟨hsearched, -, hall⟩ :=
    Searched.starts (fun _ hp => hp) (show Searched destinations ([], []).1 ([], []).2 from hnone)
  exact ⟨_, hsearched, hall⟩

/-- `_move_cycles` ends and returns the cycles of the moves, each of them once, and nothing of the tails that lead into
them. -/
theorem moveCycles_cycles (destinations : Dict String String) :
    (∀ seen start, MoveWalk destinations seen start []
      (followMoves destinations seen (destinations.length + 1) start []).1
        (followMoves destinations seen (destinations.length + 1) start []).2) ∧
      (∀ c ∈ moveCycles destinations, IsCycle destinations.get? c) ∧
      (moveCycles destinations).Pairwise List.Disjoint ∧
      (∀ c, IsCycle destinations.get? c → ∃ r ∈ moveCycles destinations, r ~r c) ∧
      ∀ p, (∃ c ∈ moveCycles destinations, p ∈ c) ↔ ∃ n, 0 < n ∧ iterate destinations.get? n p = some p := by
  obtain ⟨seen, hsearched, hall⟩ := moveCycles_searched destinations
  have hcomplete : ∀ c, IsCycle destinations.get? c → ∃ r ∈ moveCycles destinations, r ~r c := by
    intro c hc
    obtain ⟨p, hp⟩ := List.exists_mem_of_ne_nil c hc.nonempty
    have hkey : p ∈ destinations.keys := by
      rw [← Dict.get?_isSome_iff, Option.isSome_iff_ne_none]
      exact hc.next_ne_none hp
    exact hsearched.complete c hc p hp (hall p hkey)
  refine ⟨walk_start destinations, hsearched.cycle, hsearched.disjoint, hcomplete, fun p => ?_⟩
  rw [← on_cycle_iff]
  constructor
  · rintro ⟨c, hc, hp⟩
    exact ⟨c, hsearched.cycle c hc, hp⟩
  · rintro ⟨c, hc, hp⟩
    obtain ⟨r, hr, hrotated⟩ := hcomplete c hc
    exact ⟨r, hr, hrotated.mem_iff.2 hp⟩

/-- Two paths change places; the third one moves to one of them. -/
theorem moveCycles_cycles_swap :
    (∃ r ∈ moveCycles [("c", "a"), ("a", "b"), ("b", "a")], r ~r ["b", "a"]) ∧
      ¬∃ c ∈ moveCycles [("c", "a"), ("a", "b"), ("b", "a")], "c" ∈ c := by
  obtain ⟨-, -, -, hcomplete, -⟩ := moveCycles_cycles [("c", "a"), ("a", "b"), ("b", "a")]
  refine ⟨hcomplete ["b", "a"] ⟨?_, ?_, ?_⟩, ?_⟩
  · decide
  · decide
  · decide
  · decide

end Ctxd

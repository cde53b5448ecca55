import Ctxd.Catalog

/-!
# The order of the operations

`orderedMoves` visits the moves depth first, so it runs a move after the one that frees its destination.  Whatever it
visits, it lists each move exactly once: what the visit adds to the list is what it adds to the marked sources
(`Visits`).
-/

namespace Ctxd

namespace Catalog

theorem rejectDuplicates_ok {seen : List String} {moves : List MoveOperation}
    (h : rejectDuplicates seen moves = .ok ()) :
    (moves.map (·.sourceKey)).Nodup ∧ ∀ op ∈ moves, op.sourceKey ∉ seen := by
  induction moves generalizing seen with
  | nil => simp
  | cons op moves ih =>
    unfold rejectDuplicates at h
    split at h
    · cases h
    · rename_i hop
      obtain ⟨hnd, hseen⟩ := ih h
      refine ⟨?_, fun op' hop' => ?_⟩
      · rw [List.map_cons, List.nodup_cons]
        refine ⟨fun hmem => ?_, hnd⟩
        obtain ⟨op', hop', hk⟩ := List.mem_map.1 hmem
        exact hseen op' hop' (by simp [hk])
      · rcases List.mem_cons.1 hop' with rfl | hop'
        · exact hop
        · exact fun hmem => hseen op' hop' (List.mem_cons_of_mem _ hmem)

/-- What a visit adds to the marked sources and to the ordered moves. -/
def Visits (moves : List MoveOperation) (s s' : List String × List MoveOperation) : Prop :=
  ∃ added, s'.2 = s.2 ++ added ∧ (∀ op ∈ added, op ∈ moves) ∧ (added.map (·.sourceKey)).Nodup ∧
    (∀ op ∈ added, op.sourceKey ∉ s.1) ∧ ∀ k, k ∈ s'.1 ↔ k ∈ s.1 ∨ k ∈ added.map (·.sourceKey)

private theorem Visits.refl (moves : List MoveOperation) (s : List String × List MoveOperation) : Visits moves s s :=
  ⟨[], by simp⟩

private theorem Visits.trans {moves : List MoveOperation} {s s' s'' : List String × List MoveOperation}
    (h : Visits moves s s') (h' : Visits moves s' s'') : Visits moves s s'' := by
  obtain ⟨added, he, hm, hn, hf, hk⟩ := h
  obtain ⟨added', he', hm', hn', hf', hk'⟩ := h'
  refine ⟨added ++ added', by rw [he', he, List.append_assoc], fun op hop => ?_, ?_, fun op hop => ?_, fun k => ?_⟩
  · rcases List.mem_append.1 hop with hop | hop
    · exact hm op hop
    · exact hm' op hop
  · rw [List.map_append, List.nodup_append]
    refine ⟨hn, hn', ?_⟩
    rintro k hk1 _ hk2 rfl
    obtain ⟨op, hop, rfl⟩ := List.mem_map.1 hk2
    exact hf' op hop ((hk _).2 (.inr hk1))
  · rcases List.mem_append.1 hop with hop | hop
    · exact hf op hop
    · exact fun hs => hf' op hop ((hk _).2 (.inl hs))
  · rw [hk', hk, List.map_append, List.mem_append, or_assoc]

/-- Leaving a move whose source was marked on entering. -/
private theorem Visits.leave {moves : List MoveOperation} {move : MoveOperation} {seen : List String}
    {ordered : List MoveOperation} {s : List String × List MoveOperation} (hmove : move ∈ moves)
    (hnew : move.sourceKey ∉ seen) (h : Visits moves (move.sourceKey :: seen, ordered) s) :
    Visits moves (seen, ordered) (s.1, s.2 ++ [move]) := by
  obtain ⟨added, he, hm, hn, hf, hk⟩ := h
  refine ⟨added ++ [move], by rw [he, List.append_assoc], fun op hop => ?_, ?_, fun op hop => ?_, fun k => ?_⟩
  · rcases List.mem_append.1 hop with hop | hop
    · exact hm op hop
    · rwa [List.mem_singleton.1 hop]
  · rw [List.map_append, List.nodup_append]
    refine ⟨hn, by simp, ?_⟩
    rintro k hk1 k' hk2 rfl
    obtain ⟨op, hop, rfl⟩ := List.mem_map.1 hk1
    rw [List.map_singleton, List.mem_singleton] at hk2
    exact hf op hop (by simp [hk2])
  · rcases List.mem_append.1 hop with hop | hop
    · exact fun hs => hf op hop (List.mem_cons_of_mem _ hs)
    · rwa [List.mem_singleton.1 hop]
  · rw [hk, List.mem_cons, List.map_append, List.map_singleton, List.mem_append, List.mem_singleton]
    tauto

private theorem visitMove_ok {moves : List MoveOperation} {bySource : Dict String MoveOperation}
    (hvals : ∀ q op, bySource.get? q = some op → op ∈ moves) (depth : Nat) {move : MoveOperation}
    {s s' : List String × List MoveOperation} (hmove : move ∈ moves) (h : visitMove bySource depth move s = .ok s') :
    Visits moves s s' ∧ (0 < depth → move.sourceKey ∈ s'.1) := by
  induction depth generalizing move s s' with
  | zero =>
    cases h
    exact ⟨.refl moves s, fun h => absurd h (lt_irrefl _)⟩
  | succ depth ih =>
    obtain ⟨seen, ordered⟩ := s
    unfold visitMove at h
    split at h
    · rename_i hseen
      cases h
      exact ⟨.refl moves _, fun _ => hseen⟩
    · rename_i hnew
      have key : ∀ st, Visits moves (move.sourceKey :: seen, ordered) st →
          Visits moves (seen, ordered) (st.1, st.2 ++ [move]) ∧
            (0 < depth + 1 → move.sourceKey ∈ (st.1, st.2 ++ [move]).1) := by
        intro st hst
        refine ⟨hst.leave hmove hnew, fun _ => ?_⟩
        obtain ⟨_, _, _, _, _, hk⟩ := hst
        exact (hk _).2 (.inl (List.mem_cons_self ..))
      simp only [bind, Except.bind] at h
      split at h
      · cases h
      · split at h
        · rename_i dependency hdep
          split at h
          · split at h
            · cases h
            · rename_i st hst
              cases h
              exact key st (ih (hvals _ _ hdep) hst).1
          · cases h
            exact key _ (.refl moves _)
        · cases h
          exact key _ (.refl moves _)

private theorem visitAll_ok {moves : List MoveOperation} {bySource : Dict String MoveOperation} {depth : Nat}
    (hvals : ∀ q op, bySource.get? q = some op → op ∈ moves) (hdepth : 0 < depth) (todo : List MoveOperation)
    {s s' : List String × List MoveOperation} (htodo : ∀ op ∈ todo, op ∈ moves)
    (h : todo.foldlM (fun state move => visitMove bySource depth move state) s = .ok s') :
    Visits moves s s' ∧ ∀ op ∈ todo, op.sourceKey ∈ s'.1 := by
  induction todo generalizing s with
  | nil =>
    cases h
    exact ⟨.refl moves _, by simp⟩
  | cons op todo ih =>
    rw [List.foldlM_cons] at h
    simp only [bind, Except.bind] at h
    split at h
    · cases h
    · rename_i s1 hs1
      obtain ⟨h1, hmark⟩ := visitMove_ok hvals depth (htodo op (by simp)) hs1
      obtain ⟨h2, hall⟩ := ih (fun op' hop' => htodo op' (List.mem_cons_of_mem _ hop')) h
      refine ⟨h1.trans h2, fun op' hop' => ?_⟩
      rcases List.mem_cons.1 hop' with rfl | hop'
      · obtain ⟨_, _, _, _, _, hk⟩ := h2
        exact (hk _).2 (.inl (hmark hdepth))
      · exact hall op' hop'

private theorem moveBySourcePath_mem {c : Catalog} {user writer : String} {moves : List MoveOperation} {q : String}
    {op : MoveOperation} (h : (c.moveBySourcePath user writer moves).get? q = some op) : op ∈ moves := by
  unfold moveBySourcePath at h
  revert q op
  refine List.foldlRecOn (motive := fun d : Dict String MoveOperation => ∀ {q op}, d.get? q = some op → op ∈ moves)
    moves _ (fun h => by cases h) fun d hd move hmove q op hq => ?_
  split at hq
  · rw [Dict.get?_set] at hq
    split at hq
    · cases hq
      exact hmove
    · exact hd hq
  · exact hd hq

/-- The moves are only put in another order. -/
theorem orderedMoves_perm {c : Catalog} {user writer : String} {moves ordered : List MoveOperation}
    (hnd : (moves.map (·.sourceKey)).Nodup) (h : c.orderedMoves user writer moves = .ok ordered) :
    ordered.Perm moves := by
  unfold orderedMoves at h
  split at h
  · cases h
    exact .refl _
  · rename_i hlen
    simp only [bind, Except.bind] at h
    split at h
    · cases h
    · rename_i s hs
      cases h
      obtain ⟨⟨added, he, hmem, hnd', -, hk⟩, hall⟩ :=
        visitAll_ok (fun _ _ => moveBySourcePath_mem) (by omega) moves (fun _ h => h) hs
      rw [List.nil_append] at he
      rw [he, List.perm_ext_iff_of_nodup hnd'.of_map hnd.of_map]
      refine fun op => ⟨hmem op, fun hop => ?_⟩
      have := (hk _).1 (hall op hop)
      rw [List.mem_map] at this
      obtain ⟨op', hop', hkey⟩ := this.resolve_left (by simp)
      rwa [← List.inj_on_of_nodup_map hnd (hmem op' hop') hop hkey]

end Catalog

end Ctxd

import Ctxd.Service

/-!
# Inside a prefix, by components and by pattern

A path is inside a prefix when its components begin with those of the prefix.  SQL asks for the prefix itself or for a
match of the pattern `prefix/%`.  Whatever is inside matches (`likePrefix_of_inside`), but in the pattern `_` and `%`
stand for other characters and the case of ASCII letters is ignored.
-/

namespace Ctxd

/-- The components of the path begin with those of the prefix. -/
def Inside (pre path : String) : Prop := rawParts pre <+: rawParts path

instance (pre path : String) : Decidable (Inside pre path) := by
  unfold Inside
  infer_instance

theorem inside_iff {pre path : String} : Inside pre path ↔ path = pre ∨ startsBelow path pre = true :=
  rawParts_prefix_iff path pre

theorem inside_of_within {pre path : String} (h : pathIsWithinPrefix path pre = .ok true) : Inside pre path := by
  obtain ⟨hpath, hpre⟩ := pathIsWithinPrefix_ok h
  rw [pathIsWithinPrefix_eq hpath hpre, Except.ok.injEq, decide_eq_true_iff, hpath.posixParts_eq,
    hpre.posixParts_eq] at h
  exact h

/-- On normalised paths the test of the store is this one. -/
theorem within_eq {pre path : String} (hpath : Normalized path) (hpre : Normalized pre) :
    pathIsWithinPrefix path pre = .ok (decide (Inside pre path)) := by
  rw [pathIsWithinPrefix_eq hpath hpre, hpath.posixParts_eq, hpre.posixParts_eq]
  rfl

namespace Migrations

/-- A text that is spelt out matches itself, also where it has wildcards, and the rest is matched by the rest. -/
private theorem like_append (literal pattern text : List Char) (h : like pattern text = true) :
    like (literal ++ pattern) (literal ++ text) = true := by
  induction literal with
  | nil => exact h
  | cons c literal ih =>
    rw [List.cons_append, List.cons_append]
    unfold like
    split
    · refine List.any_eq_true.2 ⟨literal ++ text, ?_, ih⟩
      exact (List.mem_tails _ _).2 (List.suffix_cons c _)
    · simp [ih]

private theorem like_percent (text : List Char) : like ['%'] text = true := by
  unfold like
  rw [if_pos rfl, List.any_eq_true]
  exact ⟨[], (List.mem_tails _ _).2 List.nil_suffix, rfl⟩

end Migrations

/-- Whatever is inside the prefix matches the pattern. -/
theorem like_of_startsBelow {pre path : String} (h : startsBelow path pre = true) :
    Migrations.like (pre.toList ++ "/%".toList) path.toList = true := by
  unfold startsBelow at h
  obtain ⟨rest, hpath⟩ := List.isPrefixOf_iff_prefix.1 h
  have hpattern : pre.toList ++ "/%".toList = (pre.toList ++ ['/']) ++ ['%'] := by
    rw [List.append_assoc]
    rfl
  rw [hpattern, ← hpath]
  exact Migrations.like_append _ _ _ (Migrations.like_percent rest)

theorem Service.likePrefix_of_inside {pre path : String} (h : Inside pre path) :
    Service.likePrefix pre (some path) = true := by
  unfold Service.likePrefix
  rw [Bool.or_eq_true]
  rcases inside_iff.1 h with h | h
  · exact .inl (decide_eq_true h)
  · exact .inr (like_of_startsBelow h)

end Ctxd

import Ctxd.GrepStream
import Ctxd.Lib.Words

/-!
# Paths and the names of tree files

The name of a component is `p-` and the two hexadecimal digits of each of its bytes.  `/` comes before every digit, so
the texts of two places in the tree are in the order in which a walk comes to these places when it takes the entries of
every directory in the order of their names (`treeText_lt_iff`).
-/

namespace Ctxd

open Words

private theorem joinSlash_eq (parts : List (List Char)) : joinSlash parts = join '/' parts := by
  induction parts with
  | nil => rfl
  | cons part parts ih =>
    cases parts with
    | nil => rfl
    | cons next parts =>
      show part ++ '/' :: joinSlash (next :: parts) = _
      rw [ih]
      rfl

private theorem slash_lt_hexDigit {n : Nat} (h : n < 16) : '/' < hexDigit n := by
  interval_cases n <;> decide

/-- After the letters that all names begin with, a name has only digits. -/
private theorem treeComponentName_above (part : String) : Above '/' ['p', '-'] (treeComponentName part).toList := by
  refine ⟨part.toUTF8.data.toList.flatMap hexByte, by simp [treeComponentName, hexBytes], fun c hc => ?_⟩
  obtain ⟨n, hn, rfl⟩ := exists_of_mem_flatMap_hexByte hc
  exact slash_lt_hexDigit hn

private theorem map_toList_lt_iff {ps qs : List String} : ps.map String.toList < qs.map String.toList ↔ ps < qs := by
  induction ps generalizing qs with
  | nil => cases qs <;> simp
  | cons p ps ih =>
    cases qs with
    | nil => simp
    | cons q qs =>
      rw [List.map_cons, List.map_cons, List.cons_lt_cons_iff, List.cons_lt_cons_iff, ih, String.toList_inj,
        String.lt_iff_toList_lt]

/-- The texts of places are in the order of a walk. -/
private theorem treeText_lt_iff (p q : String) :
    treeText (treePath p) < treeText (treePath q) ↔ WalkedBefore (treePath p).reverse (treePath q).reverse := by
  have habove : ∀ path : String, ∀ name ∈ (treePath path).reverse.map String.toList, Above '/' ['p', '-'] name := by
    intro path name hname
    rw [treePath, List.reverse_reverse, List.map_map] at hname
    obtain ⟨part, -, rfl⟩ := List.mem_map.1 hname
    exact treeComponentName_above part
  rw [treeText, treeText, joinParts, joinParts, String.lt_iff_toList_lt, String.toList_ofList, String.toList_ofList,
    joinSlash_eq, joinSlash_eq, join_lt_join_iff (List.cons_ne_nil _ _) (habove p) (habove q), map_toList_lt_iff,
    walkedBefore_iff_lt]

/-- `os.fspath` of a place below the root of a user. -/
def fspath (root : String) (path : TreePath) : String := root ++ "/" ++ treeText path

private theorem fspath_lt_iff (root p q : String) :
    fspath root (treePath p) < fspath root (treePath q) ↔ WalkedBefore (treePath p).reverse (treePath q).reverse := by
  have hbelow : ∀ text : String, (root ++ "/" ++ text).toList = (root ++ "/").toList ++ text.toList :=
    fun _ => String.toList_append
  rw [← treeText_lt_iff, fspath, fspath, String.lt_iff_toList_lt, String.lt_iff_toList_lt, hbelow, hbelow,
    append_lt_append_left_iff]

/-- The files that a cursor at the start of a file skips are those that a walk comes to before it comes to this file. -/
theorem GrepTarget.replays_iff (t : GrepTarget) (s : GrepScan) {path resumePath : String}
    (hresume : t.resumeTreePath = treePath resumePath) :
    t.replays s path = true ↔
      legacyFileStart t.resume = true ∧ s.resumeReplayComplete = false ∧
        WalkedBefore (treePath path).reverse (treePath resumePath).reverse := by
  unfold GrepTarget.replays
  rw [hresume, Bool.and_eq_true, Bool.and_eq_true, decide_eq_true_iff, treeText_lt_iff, Bool.not_eq_true']
  tauto

/-- A path is read back from its place, two paths have two places, a path lies within a prefix when its place lies below
the place of the prefix, and the texts of places are in the order of a walk. -/
theorem treePath_places {p q : String} (hp : Normalized p) (hq : Normalized q) (root : String) :
    logicalTreePath (treePath p) = some p ∧
      (p ≠ q → treePath p ≠ treePath q) ∧
      (pathIsWithinPrefix p q = .ok true ↔ treePath q <:+ treePath p) ∧
      (fspath root (treePath p) < fspath root (treePath q) ↔
        WalkedBefore (treePath p).reverse (treePath q).reverse) :=
  ⟨logicalTreePath_treePath hp, fun hne heq => hne (treePath_injective hp hq heq), (treePath_suffix_iff hp hq).symm,
    fspath_lt_iff root p q⟩

theorem treePath_places_notes :
    logicalTreePath (treePath "notes/a.md") = some "notes/a.md" ∧
      ("notes/a.md" ≠ "notes" → treePath "notes/a.md" ≠ treePath "notes") ∧
      (pathIsWithinPrefix "notes/a.md" "notes" = .ok true ↔ treePath "notes" <:+ treePath "notes/a.md") ∧
      (fspath "/data/tree/u" (treePath "notes/a.md") < fspath "/data/tree/u" (treePath "notes") ↔
        WalkedBefore (treePath "notes/a.md").reverse (treePath "notes").reverse) :=
  treePath_places (by decide) (by decide) "/data/tree/u"

end Ctxd

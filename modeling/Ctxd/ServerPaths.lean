import Ctxd.Server

/-!
# The path policy of the server

A path is checked by the authorisation, on the raw text, and again by the store, which parses it.  A submission is
taken for the longest prefix of its principal that its claimed prefix is within, which the server finds by a test of
its own.  The three agree on every text, and compare components (`path_policy`).
-/

namespace Ctxd

namespace Server

/-- The test of `_submission_prefix`. -/
def claims (claimed pre : String) : Bool := claimed = pre || startsBelow claimed pre

/-- The first of the longest texts, as `max(texts, key=len)` finds it. -/
def longest : List String → Option String
  | [] => none
  | text :: rest =>
    match longest rest with
    | none => some text
    | some other => if text.length < other.length then some other else some text

/-- `_submission_prefix`: the most specific prefix that is granted; `max` of nothing raises. -/
def submissionPrefix (principal : Principal) (claimed : String) : Except StoreError String :=
  if .admin ∈ principal.scopes then .ok claimed
  else match longest (principal.prefixes.filter (claims claimed)) with
    | some pre => .ok pre
    | none => .error (.valueError "max() arg is an empty sequence")

end Server

/-! ### The checks -/

/-- A slash at the end leaves an empty component. -/
private theorem rawParts_getLast_slash {path : String} (h : path.toList.getLast? = some '/') :
    (rawParts path).any isDots = true := by
  obtain ⟨init, hinit⟩ := List.getLast?_eq_some_iff.1 h
  have hpath : path = String.ofList init ++ "/" ++ "" := by
    apply String.toList_inj.1
    rw [hinit]
    simp
  rw [hpath, rawParts_append, List.any_append]
  have hempty : (rawParts "").any isDots = true := by decide
  rw [hempty, Bool.or_true]

theorem Auth.normalizePath_of_normalized {path : String} (h : Normalized path) :
    Auth.normalizePath path = .ok path := by
  obtain ⟨hcontrol, hdrive, hdots⟩ := normalized_iff.1 h
  have hchecks : ¬(path = "" || path.toList.head? = some '/' || hasControlCharacter path) = true := by
    intro hbad
    unfold Normalized Ctxd.normalizePath at h
    rw [if_pos hbad] at h
    cases h
  have hlast : path.toList.getLast? ≠ some '/' := by
    intro hslash
    rw [rawParts_getLast_slash hslash] at hdots
    cases hdots
  have hfirst : (path = "" || path.toList.head? = some '/' || path.toList.getLast? = some '/' ||
      hasControlCharacter path || startsWithDrive path) = false := by
    simp only [Bool.or_eq_true, not_or, decide_eq_true_eq] at hchecks
    simp [hchecks.1.1, hchecks.1.2, hlast, hcontrol, hdrive]
  unfold Auth.normalizePath
  rw [if_neg (by rw [hfirst]; simp), if_neg (by rw [hdots]; simp), joinParts_rawParts]

private theorem Auth.normalizePath_iff {path q : String} :
    Auth.normalizePath path = .ok q ↔ Ctxd.normalizePath path = .ok q := by
  constructor
  · intro h
    obtain ⟨rfl, hnormal⟩ := Auth.normalizePath_ok h
    exact hnormal
  · intro h
    rw [normalizePath_eq h]
    exact Auth.normalizePath_of_normalized (.of_ok h)

/-! ### The comparisons -/

private theorem Auth.within_iff {p q : String} (hp : Normalized p) (hq : Normalized q) :
    Auth.within p q = true ↔ posixParts q <+: posixParts p := by
  rw [hp.posixParts_eq, hq.posixParts_eq, rawParts_prefix_iff]
  unfold Auth.within
  rw [Bool.or_eq_true, decide_eq_true_iff]

/-- The authorisation and the store accept the same paths, as they are, and place them within the same prefixes, those
whose components are the first ones of the path. -/
theorem path_policy :
    (∀ s q, Auth.normalizePath s = .ok q ↔ normalizePath s = .ok q) ∧ (∀ s q, normalizePath s = .ok q → q = s) ∧
      ∀ p q, normalizePath p = .ok p → normalizePath q = .ok q →
        (Auth.within p q = true ↔ posixParts q <+: posixParts p) ∧
          pathIsWithinPrefix p q = .ok (Auth.within p q) ∧ Server.claims p q = Auth.within p q := by
  refine ⟨fun s q => Auth.normalizePath_iff, fun s q => normalizePath_eq, fun p q hp hq => ?_⟩
  have hwithin := Auth.within_iff hp hq
  refine ⟨hwithin, ?_, rfl⟩
  rw [pathIsWithinPrefix_eq hp hq]
  congr 1
  rw [Bool.eq_iff_iff, decide_eq_true_iff, hwithin]

/-- A prefix is not above what only begins like it. -/
theorem path_policy_siblings :
    pathIsWithinPrefix "machines/host/a" "machines/host" = .ok true ∧
      Auth.within "machines/host-2/a" "machines/host" = false := by
  obtain ⟨-, -, h⟩ := path_policy
  obtain ⟨-, hwithin, -⟩ := h "machines/host/a" "machines/host" (by decide +kernel) (by decide +kernel)
  exact ⟨hwithin.trans (by decide +kernel), by decide +kernel⟩

end Ctxd

import Mathlib.Data.List.Basic
import Mathlib.Order.Lattice

/-!
# The order of words joined by a separator

Words over an ordered alphabet are joined with a separator between them.  They all begin with the same letters, and the
letters after these are greater than the separator.  Joined words are then in the order in which the lists of words are
(`join_lt_join_iff`), also where one word is the begin of another one.

The order of lists of names is the one in which a walk comes to the places that they name, when it takes the names of
every directory in their order (`walkedBefore_iff_lt`).
-/

namespace Words

section

variable {α : Type*} {sep : α} {lead : List α}

/-- `sep.join(words)`. -/
def join (sep : α) : List (List α) → List α
  | [] => []
  | [word] => word
  | word :: words => word ++ sep :: join sep words

/-- What follows the first of some words. -/
def rest (sep : α) : List (List α) → List α
  | [] => []
  | word :: words => sep :: join sep (word :: words)

private theorem join_cons (word : List α) (words : List (List α)) :
    join sep (word :: words) = word ++ rest sep words := by
  cases words with
  | nil => simp [join, rest]
  | cons next words => rfl

private theorem rest_head? (words : List (List α)) : ∀ c ∈ (rest sep words).head?, c = sep := by
  intro c hc
  cases words with
  | nil => cases hc
  | cons word words => exact (Option.some.inj hc).symm

variable [LinearOrder α]

/-- A word with the letters that all words begin with, and after them only letters greater than the separator. -/
def Above (sep : α) (lead word : List α) : Prop := ∃ body, word = lead ++ body ∧ ∀ c ∈ body, sep < c

theorem append_lt_append_left_iff {xs ys : List α} : lead ++ xs < lead ++ ys ↔ xs < ys := by
  induction lead with
  | nil => rfl
  | cons c lead ih =>
    rw [List.cons_append, List.cons_append, List.cons_lt_cons_iff, ih]
    simp

/-- Where two words part, what follows them is not looked at. -/
private theorem body_lt_iff {body body' tail tail' : List α} (hbody : ∀ c ∈ body, sep < c)
    (hbody' : ∀ c ∈ body', sep < c) (htail : ∀ c ∈ tail.head?, c = sep) (htail' : ∀ c ∈ tail'.head?, c = sep) :
    body ++ tail < body' ++ tail' ↔ body < body' ∨ body = body' ∧ tail < tail' := by
  induction body generalizing body' with
  | nil =>
    cases body' with
    | nil => simp
    | cons c' body' =>
      have hc' : sep < c' := hbody' c' (List.mem_cons_self ..)
      have hlt : tail < c' :: (body' ++ tail') := by
        cases tail with
        | nil => simp
        | cons c tail =>
          obtain rfl : c = sep := htail c rfl
          exact List.cons_lt_cons_iff.2 (.inl hc')
      simpa using hlt
  | cons c body ih =>
    have hc : sep < c := hbody c (List.mem_cons_self ..)
    cases body' with
    | nil =>
      have hge : ¬c :: (body ++ tail) < tail' := by
        cases tail' with
        | nil => simp
        | cons c' tail' =>
          obtain rfl : c' = sep := htail' c' rfl
          rw [List.cons_lt_cons_iff]
          rintro (hlt | ⟨heq, -⟩)
          · exact absurd hc hlt.asymm
          · exact absurd heq hc.ne'
      simpa using hge
    | cons c' body' =>
      have hrest : body ++ tail < body' ++ tail' ↔ body < body' ∨ body = body' ∧ tail < tail' :=
        ih (fun d hd => hbody d (List.mem_cons_of_mem _ hd)) fun d hd => hbody' d (List.mem_cons_of_mem _ hd)
      rw [List.cons_append, List.cons_append, List.cons_lt_cons_iff, List.cons_lt_cons_iff, hrest, List.cons.injEq]
      tauto

/-- Joined words are ordered word by word. -/
theorem join_lt_join_iff {words words' : List (List α)} (hlead : lead ≠ []) (h : ∀ word ∈ words, Above sep lead word)
    (h' : ∀ word ∈ words', Above sep lead word) : join sep words < join sep words' ↔ words < words' := by
  induction words generalizing words' with
  | nil =>
    cases words' with
    | nil => simp [join]
    | cons word' words' =>
      obtain ⟨body', rfl, -⟩ := h' word' (List.mem_cons_self ..)
      obtain ⟨c, lead, rfl⟩ := List.exists_cons_of_ne_nil hlead
      rw [join_cons]
      simp [join]
  | cons word words ih =>
    cases words' with
    | nil => simp [join]
    | cons word' words' =>
      obtain ⟨body, rfl, hbody⟩ := h word (List.mem_cons_self ..)
      obtain ⟨body', rfl, hbody'⟩ := h' word' (List.mem_cons_self ..)
      have hrest : rest sep words < rest sep words' ↔ words < words' := by
        have hjoin : join sep words < join sep words' ↔ words < words' :=
          ih (fun w hw => h w (List.mem_cons_of_mem _ hw)) fun w hw => h' w (List.mem_cons_of_mem _ hw)
        cases words with
        | nil => cases words' <;> simp [rest]
        | cons w ws =>
          cases words' with
          | nil => simp [rest]
          | cons w' ws' =>
            rw [← hjoin, rest, rest, List.cons_lt_cons_iff]
            simp
      rw [join_cons, join_cons, List.append_assoc, List.append_assoc, append_lt_append_left_iff,
        body_lt_iff hbody hbody' (rest_head? words) (rest_head? words'), hrest, List.cons_lt_cons_iff,
        append_lt_append_left_iff, List.append_cancel_left_eq]

end

/-! ### Walks -/

section

variable {ν : Type*} [LT ν]

/-- A walk that takes the names of every directory in their order comes to one place before it comes to another: the
first is a directory above the second, or the two lie below different names of one directory. -/
inductive WalkedBefore : List ν → List ν → Prop
  | above (name : ν) (below : List ν) : WalkedBefore [] (name :: below)
  | part {name name' : ν} (below below' : List ν) : name < name' → WalkedBefore (name :: below) (name' :: below')
  | enter (name : ν) {below below' : List ν} : WalkedBefore below below' → WalkedBefore (name :: below) (name :: below')

theorem walkedBefore_iff_lt {p q : List ν} : WalkedBefore p q ↔ p < q := by
  constructor
  · intro h
    induction h with
    | above name below => exact List.nil_lt_cons name below
    | part below below' hname => exact List.cons_lt_cons_iff.2 (.inl hname)
    | enter name _ ih => exact List.cons_lt_cons_iff.2 (.inr ⟨rfl, ih⟩)
  · intro h
    induction p generalizing q with
    | nil =>
      cases q with
      | nil => exact absurd h (List.not_lt_nil _)
      | cons name below => exact .above name below
    | cons name below ih =>
      cases q with
      | nil => exact absurd h (List.not_lt_nil _)
      | cons name' below' =>
        rcases List.cons_lt_cons_iff.1 h with hname | ⟨rfl, hbelow⟩
        · exact .part below below' hname
        · exact .enter name (ih hbelow)

end

end Words

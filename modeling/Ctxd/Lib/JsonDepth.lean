import Ctxd.Lib.Json

/-!
# The nesting of a text

How deep the lists and objects of a text are nested, up to its end or to the place where it stops being JSON.  An
interpreter refuses a text if it is nested deeper than the interpreter can go (`loads_recursion_iff`); any other text it
reads as one without a limit would (`loads_ok_iff`).
-/

namespace JsonText

section

variable (scan : Scanner Value) (depth : List Char → Nat)

/-- The depth of the items of a list, from the first one on. -/
def itemsDepth (cs : List Char) : Nat :=
  match scan cs with
  | .error _ => depth cs
  | .ok (_, r) =>
    match h : skipSpace r.1 with
    | ',' :: more =>
      let next : Rest cs := skipOne h (Nat.le_of_lt r.2)
      max (depth cs) (itemsDepth next.1)
    | _ => depth cs
termination_by cs.length
decreasing_by exact next.2

/-- The depth of the items of an object, from the first key on. -/
def membersDepth (cs : List Char) : Nat :=
  match scanKey cs with
  | .error _ => 0
  | .ok (_, r) =>
    match h : skipSpace r.1 with
    | ':' :: more =>
      let colon : Rest cs := skipOne h (Nat.le_of_lt r.2)
      match scan colon.1 with
      | .error _ => depth colon.1
      | .ok (_, r') =>
        let r' := r'.within (Nat.le_of_lt colon.2)
        match h' : skipSpace r'.1 with
        | ',' :: more =>
          let next : Rest cs := skipOne h' (Nat.le_of_lt r'.2)
          max (depth colon.1) (membersDepth next.1)
        | _ => depth colon.1
    | _ => 0
termination_by cs.length
decreasing_by exact next.2

/-- The depth of the items behind the bracket of a list. -/
def listDepth (cs : List Char) : Nat :=
  match skipSpace cs with
  | ']' :: _ => 0
  | next => itemsDepth scan depth next

/-- The depth of the items behind the brace of an object. -/
def objectDepth (cs : List Char) : Nat :=
  match skipSpace cs with
  | '\x7d' :: _ => 0
  | next => membersDepth scan depth next

end

/-- The depth of a value, in a text of at most so many characters. -/
def valueDepth : Nat → List Char → Nat
  | length + 1, c :: cs =>
    if c = '[' then listDepth (scanValue length) (valueDepth length) cs + 1
    else if c = '\x7b' then objectDepth (scanValue length) (valueDepth length) cs + 1
    else 0
  | _, _ => 0

/-- How many lists and objects are open at the deepest place of a text. -/
def nesting (text : List Char) : Nat :=
  if text.head? = some (Char.ofNat 0xFEFF) then 0 else valueDepth text.length (skipSpace text)

/-- The value of a text, if it is JSON: there are no more levels than characters. -/
def parse (text : List Char) : Option Value := (loads text.length text).toOption

/-! ### Reading with a limit -/

/-- What is done with so many levels: refused where more are needed, and else as without a limit. -/
structure Limits {α : Type} (limit : Nat) (limited free : Except Error α) (depth : Nat) : Prop where
  refused : limit < depth → limited = .error .recursion
  same : depth ≤ limit → limited = free
  read : depth ≤ limit → free ≠ .error .recursion

namespace Limits

variable {α β : Type} {limit d d' : Nat} {x x' : Except Error α} {f g : α → Except Error β}

private theorem flat (h : x ≠ .error .recursion) : Limits limit x x 0 :=
  ⟨fun hlt => absurd hlt (Nat.not_lt_zero _), fun _ => rfl, fun _ => h⟩

private theorem bind (hx : Limits limit x x' d) {a : α} (ha : x' = .ok a) (hf : Limits limit (f a) (g a) d') :
    Limits limit (x >>= f) (x' >>= g) (max d d') := by
  subst ha
  refine ⟨fun hlt => ?_, fun hle => ?_, fun hle => ?_⟩
  · by_cases hfirst : limit < d
    · rw [hx.refused hfirst]
      rfl
    · rw [hx.same (by omega)]
      exact hf.refused (by omega)
  · rw [hx.same (by omega)]
    exact hf.same (by omega)
  · exact hf.read (by omega)

private theorem error (hx : Limits limit x x' d) {e : Error} (he : x' = .error e) :
    Limits limit (x >>= f) (x' >>= g) d := by
  subst he
  refine ⟨fun hlt => ?_, fun hle => ?_, fun hle => ?_⟩
  · rw [hx.refused hlt]
    rfl
  · rw [hx.same hle]
    rfl
  · exact fun heq => hx.read hle (congrArg Except.error (Except.error.inj heq))

private theorem last (hx : Limits limit x x' d) {a : α} (ha : x' = .ok a) (hf : Limits limit (f a) (g a) 0) :
    Limits limit (x >>= f) (x' >>= g) d := by
  have h := hx.bind ha hf
  rwa [Nat.max_zero] at h

/-- Without a level nothing nested is read. -/
private theorem bottom (h : x = .error .recursion) : Limits 0 x x' (d + 1) :=
  ⟨fun _ => h, fun hle => absurd hle (Nat.not_succ_le_zero d), fun hle => absurd hle (Nat.not_succ_le_zero d)⟩

/-- What is done one level further in. -/
private theorem succ (hx : Limits limit x x' d) : Limits (limit + 1) x x' (d + 1) :=
  ⟨fun hlt => hx.refused (Nat.lt_of_succ_lt_succ hlt), fun hle => hx.same (Nat.le_of_succ_le_succ hle),
    fun hle => hx.read (Nat.le_of_succ_le_succ hle)⟩

/-- What is done with the result needs no levels. -/
private theorem map (hx : Limits limit x x' d) (k : α → β) :
    Limits limit (x >>= fun a => pure (k a)) (x' >>= fun a => pure (k a)) d := by
  cases hx' : x' with
  | error e =>
    rw [← hx']
    exact hx.error hx'
  | ok a =>
    rw [← hx']
    exact hx.last hx' (flat fun heq => by cases heq)

end Limits

section

variable {limit : Nat} {limited free : Scanner Value} {depth : List Char → Nat}

private theorem limits_items (cs : List Char)
    (h : ∀ ds : List Char, ds.length ≤ cs.length → Limits limit (limited ds) (free ds) (depth ds)) :
    Limits limit (scanItems limited cs) (scanItems free cs) (itemsDepth free depth cs) := by
  fun_induction itemsDepth free depth cs with
  | case1 cs e hfree =>
    rw [scanItems, scanItems]
    exact (h cs (Nat.le_refl _)).error hfree
  | case2 cs v r hfree more hmore next ih =>
    have hnext := ih fun ds hds => h ds (Nat.le_trans hds (Nat.le_of_lt next.2))
    rw [scanItems, scanItems]
    refine (h cs (Nat.le_refl _)).bind hfree ?_
    dsimp only
    split
    · rename_i heq
      rw [hmore] at heq
      cases heq
    · rename_i heq
      rw [hmore] at heq
      cases heq
      exact hnext.map _
    · rename_i hnone
      exact absurd hmore (hnone _)
  | case3 cs v r hfree hmore =>
    rw [scanItems, scanItems]
    refine (h cs (Nat.le_refl _)).last hfree ?_
    dsimp only
    split
    · exact .flat fun heq => by cases heq
    · rename_i heq
      exact absurd heq (hmore _)
    · exact .flat fun heq => by cases heq

private theorem scanUnits_ne (cs : List Char) : scanUnits cs ≠ .error .recursion := by
  fun_induction scanUnits cs with
  | case4 a b c d cs unit hunit ih => exact ((Limits.flat ih).map _).read (Nat.le_refl 0)
  | case6 c cs hu unit hunit ih => exact ((Limits.flat ih).map _).read (Nat.le_refl 0)
  | case8 c cs hquote hu hslash hplain ih => exact ((Limits.flat ih).map _).read (Nat.le_refl 0)
  | _ => simp

private theorem scanKey_ne (cs : List Char) : scanKey cs ≠ .error .recursion := by
  unfold scanKey
  split
  · exact ((Limits.flat (scanUnits_ne _)).map _).read (Nat.le_refl 0)
  · simp

private theorem limits_members (cs : List Char)
    (h : ∀ ds : List Char, ds.length ≤ cs.length → Limits limit (limited ds) (free ds) (depth ds)) :
    Limits limit (scanMembers limited cs) (scanMembers free cs) (membersDepth free depth cs) := by
  fun_induction membersDepth free depth cs with
  | case1 cs e hkey =>
    rw [scanMembers, scanMembers]
    exact (Limits.flat (scanKey_ne cs)).error hkey
  | case2 cs key r hkey more hcolon colon e hfree =>
    rw [scanMembers, scanMembers, hkey]
    dsimp only [bind, Except.bind]
    split
    · rename_i heq
      rw [hcolon] at heq
      cases heq
      exact (h colon.1 (Nat.le_of_lt colon.2)).error hfree
    · rename_i hnone
      exact absurd hcolon (hnone _)
  | case3 cs key r hkey more hcolon colon v r' hfree r'' more' hmore next ih =>
    have hnext := ih fun ds hds => h ds (Nat.le_trans hds (Nat.le_of_lt next.2))
    rw [scanMembers, scanMembers, hkey]
    dsimp only [bind, Except.bind]
    split
    · rename_i heq
      rw [hcolon] at heq
      cases heq
      refine (h colon.1 (Nat.le_of_lt colon.2)).bind hfree ?_
      dsimp only
      split
      · rename_i heq
        rw [hmore] at heq
        cases heq
      · rename_i heq
        rw [hmore] at heq
        cases heq
        exact hnext.map _
      · rename_i hnone
        exact absurd hmore (hnone _)
    · rename_i hnone
      exact absurd hcolon (hnone _)
  | case4 cs key r hkey more hcolon colon v r' hfree r'' hmore =>
    rw [scanMembers, scanMembers, hkey]
    dsimp only [bind, Except.bind]
    split
    · rename_i heq
      rw [hcolon] at heq
      cases heq
      refine (h colon.1 (Nat.le_of_lt colon.2)).last hfree ?_
      dsimp only
      split
      · exact .flat fun heq => by cases heq
      · rename_i heq
        exact absurd heq (hmore _)
      · exact .flat fun heq => by cases heq
    · rename_i hnone
      exact absurd hcolon (hnone _)
  | case5 cs key r hkey hcolon =>
    rw [scanMembers, scanMembers, hkey]
    dsimp only [bind, Except.bind]
    split
    · rename_i heq
      exact absurd heq (hcolon _)
    · exact .flat fun heq => by cases heq

private theorem limits_list (cs : List Char)
    (h : ∀ ds : List Char, ds.length ≤ cs.length → Limits limit (limited ds) (free ds) (depth ds)) :
    Limits limit (scanList limited cs) (scanList free cs) (listDepth free depth cs) := by
  unfold listDepth
  split
  · rename_i hclosed
    unfold scanList
    split
    · exact .flat fun heq => by cases heq
    · rename_i hne
      exact absurd hclosed (hne _)
  · rename_i hopen
    have hitems := limits_items (skipSpace cs) fun ds hds => h ds (Nat.le_trans hds (length_skipSpace_le cs))
    unfold scanList
    split
    · rename_i heq
      exact absurd heq (hopen _)
    · exact hitems.map _

private theorem limits_object (cs : List Char)
    (h : ∀ ds : List Char, ds.length ≤ cs.length → Limits limit (limited ds) (free ds) (depth ds)) :
    Limits limit (scanObject limited cs) (scanObject free cs) (objectDepth free depth cs) := by
  unfold objectDepth
  split
  · rename_i hclosed
    unfold scanObject
    split
    · exact .flat fun heq => by cases heq
    · rename_i hne
      exact absurd hclosed (hne _)
  · rename_i hopen
    have hmembers := limits_members (skipSpace cs) fun ds hds => h ds (Nat.le_trans hds (length_skipSpace_le cs))
    unfold scanObject
    split
    · rename_i heq
      exact absurd heq (hopen _)
    · exact hmembers.map _

end

private theorem scanNumber_ne (negative : Bool) (cs : List Char) : scanNumber negative cs ≠ .error .recursion := by
  unfold scanNumber
  split
  · simp
  · split <;> simp

/-- A value that is no list and no object is read without another level. -/
private theorem limits_plain {c : Char} (hlist : c ≠ '[') (hobject : c ≠ '\x7b') (limit : Nat)
    (nested nested' : Option (Scanner Value)) (cs : List Char) :
    Limits limit (scanWith nested (c :: cs)) (scanWith nested' (c :: cs)) 0 := by
  have hplain : ¬((decide (c = '[') || decide (c = '\x7b')) = true) := by simp [hlist, hobject]
  unfold scanWith
  dsimp only
  rw [if_neg hplain, if_neg hplain]
  refine .flat ?_
  split
  · exact ((Limits.flat (scanKey_ne _)).map _).read (Nat.le_refl 0)
  split
  · simp
  split
  · exact ((Limits.flat (scanNumber_ne _ _)).map _).read (Nat.le_refl 0)
  · exact scanNumber_ne _ _

/-- Every text of at most so many characters is read with so many levels as with any number that its depth allows. -/
private theorem limits_value (limit length : Nat) (cs : List Char) (h : cs.length ≤ length) :
    Limits limit (scanValue limit cs) (scanValue length cs) (valueDepth length cs) := by
  induction length generalizing limit cs with
  | zero =>
    obtain rfl : cs = [] := List.eq_nil_of_length_eq_zero (by omega)
    cases limit <;> exact .flat (by simp [scanValue, scanWith])
  | succ length ih =>
    cases cs with
    | nil => cases limit <;> exact .flat (by simp [scanValue, scanWith])
    | cons c cs =>
      have hlength : cs.length ≤ length := Nat.le_of_succ_le_succ h
      have hnested := fun limit ds (hds : List.length ds ≤ cs.length) => ih limit ds (Nat.le_trans hds hlength)
      rw [valueDepth]
      by_cases hlist : c = '['
      · subst hlist
        cases limit with
        | zero => exact .bottom rfl
        | succ limit => exact ((limits_list cs (hnested limit)).map _).succ
      rw [if_neg hlist]
      by_cases hobject : c = '\x7b'
      · subst hobject
        cases limit with
        | zero => exact .bottom rfl
        | succ limit => exact ((limits_object cs (hnested limit)).map _).succ
      rw [if_neg hobject]
      cases limit <;> exact limits_plain hlist hobject _ _ _ cs

theorem loads_limits (limit : Nat) (text : List Char) :
    Limits limit (loads limit text) (loads text.length text) (nesting text) := by
  unfold loads nesting
  split
  · exact .flat (by simp)
  have hvalue := limits_value limit text.length (skipSpace text) (length_skipSpace_le text)
  cases hfree : scanValue text.length (skipSpace text) with
  | error e =>
    rw [← hfree]
    exact hvalue.error hfree
  | ok found =>
    rw [← hfree]
    refine hvalue.last hfree (.flat ?_)
    dsimp only
    split
    · exact fun heq => by cases heq
    · exact fun heq => by cases heq

/-- A text is refused for its depth if and only if it is nested deeper than the interpreter can go. -/
theorem loads_recursion_iff (limit : Nat) (text : List Char) :
    loads limit text = .error .recursion ↔ limit < nesting text := by
  have h := loads_limits limit text
  refine ⟨fun hraise => ?_, h.refused⟩
  by_contra hle
  have hsame := h.same (by omega)
  exact h.read (by omega) (hsame.symm.trans hraise)

/-- Any other text has the value that it has without a limit. -/
theorem loads_ok_iff {limit : Nat} {text : List Char} (h : nesting text ≤ limit) (v : Value) :
    loads limit text = .ok v ↔ parse text = some v := by
  rw [(loads_limits limit text).same h]
  unfold parse
  cases loads text.length text with
  | error e => simp [Except.toOption]
  | ok v' => simp [Except.toOption]

end JsonText

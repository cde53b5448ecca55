import Mathlib.Logic.Basic
import Mathlib.Order.Defs.Unbundled
import Mathlib.Tactic.Common

/-!
# Programs that keep a state and may raise

`EStateM ε σ` is the monad of the programs that read and write a state of type `σ` and either return or raise an
exception of type `ε`.  The state survives an exception, so a handler sees what the body has already done.

`Ends m Q E s` says how `m` ends when it is started in `s`: in `Q` if it returns, in `E` if it raises.  There is one
rule for each way of building a program; `Ends.mono` is the rule of consequence and `Ends.forM` the loop rule.
-/

namespace Program

variable {ε σ α β : Type}

/-- A program without a state returns when its parts do. -/
theorem bind_eq_ok {x : Except ε α} {f : α → Except ε β} {b : β} :
    x >>= f = .ok b ↔ ∃ a, x = .ok a ∧ f a = .ok b := by
  cases x with
  | error e => simp [bind, Except.bind]
  | ok a => simp [bind, Except.bind]

/-- In a fold that returns, every round has returned. -/
theorem of_foldlM_ok {f : β → α → Except ε β} {xs : List α} {b b' : β} (h : xs.foldlM f b = .ok b') :
    ∀ x ∈ xs, ∃ c c', f c x = .ok c' := by
  induction xs generalizing b with
  | nil => simp
  | cons x xs ih =>
    rw [List.foldlM_cons, bind_eq_ok] at h
    obtain ⟨c, hc, hrest⟩ := h
    intro y hy
    rcases List.mem_cons.1 hy with rfl | hy
    · exact ⟨b, c, hc⟩
    · exact ih hrest y hy

/-- What a step of a fold keeps when it returns, the fold keeps. -/
theorem foldlM_inv {P : β → Prop} {f : β → α → Except ε β}
    (hstep : ∀ b a b', P b → f b a = .ok b' → P b') {xs : List α} {b b' : β} (hb : P b) (h : xs.foldlM f b = .ok b') :
    P b' := by
  induction xs generalizing b with
  | nil =>
    cases h
    exact hb
  | cons a xs ih =>
    rw [List.foldlM_cons, bind_eq_ok] at h
    obtain ⟨next, hnext, h⟩ := h
    exact ih (hstep b a next hb hnext) h

/-- The answer of a test that may raise. -/
def holds : Except ε Bool → Bool
  | .ok b => b
  | .error _ => false

private theorem filterAuxM_eq_ok_iff {f : α → Except ε Bool} {xs acc ys : List α} :
    xs.filterAuxM f acc = .ok ys ↔
      (∀ x ∈ xs, ∃ b, f x = .ok b) ∧ ys = (xs.filter fun x => holds (f x)).reverse ++ acc := by
  induction xs generalizing acc with
  | nil =>
    have h : ([] : List α).filterAuxM f acc = Except.ok acc := rfl
    rw [h, Except.ok.injEq]
    simp [eq_comm]
  | cons x xs ih =>
    unfold List.filterAuxM
    rw [bind_eq_ok]
    cases hx : f x with
    | error e =>
      constructor
      · rintro ⟨b, hb, -⟩
        cases hb
      · rintro ⟨hall, -⟩
        obtain ⟨b, hb⟩ := hall x (List.mem_cons_self ..)
        rw [hx] at hb
        cases hb
    | ok b =>
      have hstep : (∃ a, Except.ok b = (Except.ok a : Except ε Bool) ∧
        xs.filterAuxM f (bif a then x :: acc else acc) = .ok ys) ↔
          xs.filterAuxM f (bif b then x :: acc else acc) = .ok ys := by
        constructor
        · rintro ⟨a, ha, h⟩
          cases ha
          exact h
        · exact fun h => ⟨b, rfl, h⟩
      rw [hstep, ih, List.forall_mem_cons, List.filter_cons, hx]
      have hone : ∃ b', Except.ok b = (Except.ok b' : Except ε Bool) := ⟨b, rfl⟩
      rw [and_iff_right hone]
      cases b with
      | true => simp [holds]
      | false => simp [holds]

/-- A filter whose test may raise returns exactly when no test raises. -/
theorem filterM_eq_ok_iff {f : α → Except ε Bool} {xs ys : List α} :
    xs.filterM f = .ok ys ↔ (∀ x ∈ xs, ∃ b, f x = .ok b) ∧ ys = xs.filter fun x => holds (f x) := by
  unfold List.filterM
  rw [bind_eq_ok]
  constructor
  · rintro ⟨zs, hzs, hys⟩
    obtain ⟨hall, rfl⟩ := filterAuxM_eq_ok_iff.1 hzs
    rw [← Except.ok.inj hys]
    exact ⟨hall, by simp⟩
  · rintro ⟨hall, rfl⟩
    refine ⟨_, filterAuxM_eq_ok_iff.2 ⟨hall, rfl⟩, ?_⟩
    show Except.ok _ = _
    simp

private theorem filterAuxM_error {f : α → Except ε Bool} {xs acc : List α} {e : ε}
    (h : xs.filterAuxM f acc = .error e) : ∃ x ∈ xs, f x = .error e := by
  induction xs generalizing acc with
  | nil => cases h
  | cons x xs ih =>
    unfold List.filterAuxM at h
    cases hx : f x with
    | error e' =>
      rw [hx] at h
      cases h
      exact ⟨x, List.mem_cons_self .., hx⟩
    | ok b =>
      rw [hx] at h
      obtain ⟨y, hy, he⟩ := ih h
      exact ⟨y, List.mem_cons_of_mem _ hy, he⟩

/-- A filter raises what its test raises. -/
theorem filterM_error {f : α → Except ε Bool} {xs : List α} {e : ε} (h : xs.filterM f = .error e) :
    ∃ x ∈ xs, f x = .error e := by
  unfold List.filterM at h
  cases haux : xs.filterAuxM f [] with
  | error e' =>
    rw [haux] at h
    cases h
    exact filterAuxM_error haux
  | ok ys =>
    rw [haux] at h
    cases h

theorem filterM_ok {f : α → Except ε Bool} {g : α → Bool} {xs : List α} (h : ∀ x ∈ xs, f x = .ok (g x)) :
    xs.filterM f = .ok (xs.filter g) := by
  refine filterM_eq_ok_iff.2 ⟨fun x hx => ⟨g x, h x hx⟩, ?_⟩
  exact List.filter_congr fun x hx => by rw [h x hx]; rfl

theorem filterMapM_ok {f : α → Except ε (Option β)} {g : α → Option β} {xs : List α}
    (h : ∀ x ∈ xs, f x = .ok (g x)) : xs.filterMapM f = .ok (xs.filterMap g) := by
  induction xs with
  | nil => rfl
  | cons x xs ih =>
    rw [List.filterMapM_cons, h x (List.mem_cons_self ..), ih fun y hy => h y (List.mem_cons_of_mem _ hy)]
    cases hx : g x with
    | none => rw [List.filterMap_cons_none hx]; rfl
    | some b => rw [List.filterMap_cons_some hx]; rfl

/-- Every error that a program without a state raises is of some kind. -/
def ErrorsIn (E : ε → Prop) (x : Except ε α) : Prop := ∀ e, x = .error e → E e

namespace ErrorsIn

variable {E : ε → Prop}

theorem ok (a : α) : ErrorsIn E (.ok a : Except ε α) := fun _ he => by cases he

theorem error {e : ε} (h : E e) : ErrorsIn E (.error e : Except ε α) := fun _ he => by
  cases he
  exact h

theorem bind {x : Except ε α} {f : α → Except ε β} (h : ErrorsIn E x) (hf : ∀ a, x = .ok a → ErrorsIn E (f a)) :
    ErrorsIn E (x >>= f) := by
  cases x with
  | error e => exact error (h e rfl)
  | ok a => exact hf a rfl

theorem ite {c : Prop} [Decidable c] {x y : Except ε α} (h : c → ErrorsIn E x) (h' : ¬c → ErrorsIn E y) :
    ErrorsIn E (if c then x else y) := by
  split
  · exact h ‹_›
  · exact h' ‹_›

theorem filterM {f : α → Except ε Bool} {xs : List α} (h : ∀ x ∈ xs, ErrorsIn E (f x)) : ErrorsIn E (xs.filterM f) := by
  intro e he
  obtain ⟨x, hx, hfx⟩ := filterM_error he
  exact h x hx e hfx

end ErrorsIn

/-- Started in `s`, the program `m` returns with `Q` or raises with `E`. -/
def Ends (m : EStateM ε σ α) (Q : α → σ → Prop) (E : ε → σ → Prop) (s : σ) : Prop :=
  match m s with
  | .ok a s' => Q a s'
  | .error e s' => E e s'

theorem Ends.of_ok {m : EStateM ε σ α} {Q : α → σ → Prop} {E : ε → σ → Prop} {s s' : σ} {a : α}
    (h : Ends m Q E s) (hm : m s = .ok a s') : Q a s' := by
  unfold Ends at h
  rwa [hm] at h

/-- How a program ends, together with its run. -/
theorem Ends.result {m : EStateM ε σ α} {Q : α → σ → Prop} {E : ε → σ → Prop} {s : σ} (h : Ends m Q E s) :
    Ends m (fun a s' => Q a s' ∧ m s = .ok a s') (fun e s' => E e s' ∧ m s = .error e s') s := by
  unfold Ends at h ⊢
  split <;> rename_i heq <;> rw [heq] at h <;> exact ⟨h, heq⟩

theorem Ends.of_error {m : EStateM ε σ α} {Q : α → σ → Prop} {E : ε → σ → Prop} {s s' : σ} {e : ε}
    (h : Ends m Q E s) (hm : m s = .error e s') : E e s' := by
  unfold Ends at h
  rwa [hm] at h

theorem ends_of_ok {m : EStateM ε σ α} {Q : α → σ → Prop} {E : ε → σ → Prop} {s s' : σ} {a : α}
    (hm : m s = .ok a s') : Ends m Q E s ↔ Q a s' := by
  unfold Ends
  rw [hm]

theorem ends_of_error {m : EStateM ε σ α} {Q : α → σ → Prop} {E : ε → σ → Prop} {s s' : σ} {e : ε}
    (hm : m s = .error e s') : Ends m Q E s ↔ E e s' := by
  unfold Ends
  rw [hm]

/-- The state a program leaves, whether it returns or raises. -/
def endState (m : EStateM ε σ α) (s : σ) : σ :=
  match m s with
  | .ok _ s' => s'
  | .error _ s' => s'

theorem Ends.endState {m : EStateM ε σ α} {s : σ} {P : σ → Prop}
    (h : Ends m (fun _ s' => P s') (fun _ s' => P s') s) : P (endState m s) := by
  unfold Ends at h
  unfold Program.endState
  split <;> rename_i heq <;> rw [heq] at h <;> exact h

/-- Whether a program returns. -/
def returns (m : EStateM ε σ α) (s : σ) : Bool :=
  match m s with
  | .ok _ _ => true
  | .error _ _ => false

theorem returns_of_ok {m : EStateM ε σ α} {s s' : σ} {a : α} (h : m s = .ok a s') : returns m s = true := by
  unfold returns
  rw [h]

theorem returns_of_error {m : EStateM ε σ α} {s s' : σ} {e : ε} (h : m s = .error e s') : returns m s = false := by
  unfold returns
  rw [h]

theorem ok_of_returns {m : EStateM ε σ α} {s : σ} (h : returns m s = true) : ∃ a, m s = .ok a (endState m s) := by
  unfold returns at h
  unfold endState
  split at h
  · rename_i a s' heq
    exact ⟨a, by rw [heq]⟩
  · cases h

/-- Whether a program raises this exception. -/
def raises [DecidableEq ε] (m : EStateM ε σ α) (s : σ) (e : ε) : Bool :=
  match m s with
  | .ok _ _ => false
  | .error e' _ => e' = e

/-- Whether a program returns `a`. -/
def answers [DecidableEq α] (m : EStateM ε σ α) (s : σ) (a : α) : Bool :=
  match m s with
  | .ok a' _ => a' = a
  | .error _ _ => false

theorem ok_of_answers [DecidableEq α] {m : EStateM ε σ α} {s : σ} {a : α} (h : answers m s a = true) :
    m s = .ok a (endState m s) := by
  unfold answers at h
  unfold endState
  cases hm : m s with
  | ok a' s' =>
    rw [hm] at h
    rw [of_decide_eq_true h]
  | error e s' =>
    rw [hm] at h
    cases h

/-- The rule of consequence. -/
theorem Ends.mono {m : EStateM ε σ α} {Q Q' : α → σ → Prop} {E E' : ε → σ → Prop} {s : σ}
    (h : Ends m Q E s) (hQ : ∀ a s', Q a s' → Q' a s') (hE : ∀ e s', E e s' → E' e s') :
    Ends m Q' E' s := by
  unfold Ends at h ⊢
  cases hm : m s with
  | ok a s' => rw [hm] at h; exact hQ a s' h
  | error e s' => rw [hm] at h; exact hE e s' h

/-- Every program ends. -/
theorem Ends.any (m : EStateM ε σ α) (s : σ) : Ends m (fun _ _ => True) (fun _ _ => True) s := by
  unfold Ends
  cases m s <;> exact trivial

theorem Ends.and {m : EStateM ε σ α} {Q Q' : α → σ → Prop} {E E' : ε → σ → Prop} {s : σ}
    (h : Ends m Q E s) (h' : Ends m Q' E' s) :
    Ends m (fun a s => Q a s ∧ Q' a s) (fun e s => E e s ∧ E' e s) s := by
  unfold Ends at h h' ⊢
  cases hm : m s <;> rw [hm] at h h' <;> exact ⟨h, h'⟩

@[simp] theorem ends_pure {a : α} {Q : α → σ → Prop} {E : ε → σ → Prop} {s : σ} :
    Ends (pure a : EStateM ε σ α) Q E s ↔ Q a s := Iff.rfl

@[simp] theorem ends_throw {e : ε} {Q : α → σ → Prop} {E : ε → σ → Prop} {s : σ} :
    Ends (throw e : EStateM ε σ α) Q E s ↔ E e s := Iff.rfl

@[simp] theorem ends_get {Q : σ → σ → Prop} {E : ε → σ → Prop} {s : σ} :
    Ends (get : EStateM ε σ σ) Q E s ↔ Q s s := Iff.rfl

@[simp] theorem ends_set {s' : σ} {Q : PUnit → σ → Prop} {E : ε → σ → Prop} {s : σ} :
    Ends (set s' : EStateM ε σ PUnit) Q E s ↔ Q ⟨⟩ s' := Iff.rfl

@[simp] theorem ends_modify {f : σ → σ} {Q : PUnit → σ → Prop} {E : ε → σ → Prop} {s : σ} :
    Ends (modify f : EStateM ε σ PUnit) Q E s ↔ Q ⟨⟩ (f s) := Iff.rfl

@[simp] theorem ends_bind {m : EStateM ε σ α} {f : α → EStateM ε σ β} {Q : β → σ → Prop}
    {E : ε → σ → Prop} {s : σ} :
    Ends (m >>= f) Q E s ↔ Ends m (fun a s' => Ends (f a) Q E s') E s := by
  unfold Ends
  show (match EStateM.bind m f s with | .ok a s' => Q a s' | .error e s' => E e s') ↔ _
  unfold EStateM.bind
  cases m s <;> rfl

@[simp] theorem ends_map {m : EStateM ε σ α} {f : α → β} {Q : β → σ → Prop} {E : ε → σ → Prop} {s : σ} :
    Ends (f <$> m) Q E s ↔ Ends m (fun a s' => Q (f a) s') E s := by
  unfold Ends
  show (match EStateM.map f m s with | .ok a s' => Q a s' | .error e s' => E e s') ↔ _
  unfold EStateM.map
  cases m s <;> rfl

@[simp] theorem ends_tryCatch {m : EStateM ε σ α} {h : ε → EStateM ε σ α} {Q : α → σ → Prop}
    {E : ε → σ → Prop} {s : σ} :
    Ends (tryCatch m h) Q E s ↔ Ends m Q (fun e s' => Ends (h e) Q E s') s := by
  unfold Ends
  show (match EStateM.tryCatch m h s with | .ok a s' => Q a s' | .error e s' => E e s') ↔ _
  unfold EStateM.tryCatch
  cases m s <;> rfl

theorem Ends.ite {c : Prop} [Decidable c] {m m' : EStateM ε σ α} {Q : α → σ → Prop} {E : ε → σ → Prop} {s : σ}
    (h : c → Ends m Q E s) (h' : ¬c → Ends m' Q E s) : Ends (if c then m else m') Q E s := by
  split
  · exact h ‹_›
  · exact h' ‹_›

/-- The loop rule: `I done` holds before the first round and each round extends the part already done. -/
theorem Ends.forM {f : α → EStateM ε σ PUnit} {I : List α → σ → Prop} {E : ε → σ → Prop}
    (xs : List α)
    (step : ∀ done x rest, xs = done ++ x :: rest → ∀ s, I done s →
      Ends (f x) (fun _ s' => I (done ++ [x]) s') E s)
    {s : σ} (init : I [] s) : Ends (xs.forM f) (fun _ s' => I xs s') E s := by
  suffices go : ∀ (done rest : List α), xs = done ++ rest → ∀ s, I done s →
      Ends (rest.forM f) (fun _ s' => I xs s') E s from go [] xs rfl s init
  intro done rest
  induction rest generalizing done with
  | nil =>
    intro hxs s hI
    rw [List.append_nil] at hxs
    subst hxs
    exact hI
  | cons x rest ih =>
    intro hxs s hI
    show Ends (f x >>= fun _ => rest.forM f) (fun _ s' => I xs s') E s
    rw [ends_bind]
    refine (step done x rest hxs s hI).mono (fun _ s' hs' => ?_) (fun _ _ h => h)
    exact ih (done ++ [x]) (by simp [hxs]) s' hs'

/-- A loop whose rounds keep an invariant keeps it. -/
theorem Ends.forM_inv {f : α → EStateM ε σ PUnit} {I : σ → Prop} {E : ε → σ → Prop} {xs : List α}
    (step : ∀ x ∈ xs, ∀ s, I s → Ends (f x) (fun _ s' => I s') E s) {s : σ} (init : I s) :
    Ends (xs.forM f) (fun _ s' => I s') E s := by
  refine Ends.forM (I := fun _ s => I s) xs (fun done x rest hxs s hs => ?_) init
  exact step x (by simp [hxs]) s hs

/-- Runs a program on a part of a larger state, translating its exceptions. -/
def focus {τ δ : Type} (view : τ → σ) (update : τ → σ → τ) (raise : ε → δ) (m : EStateM ε σ α) :
    EStateM δ τ α :=
  fun t => match m (view t) with
    | .ok a s' => .ok a (update t s')
    | .error e s' => .error (raise e) (update t s')

@[simp] theorem ends_focus {τ δ : Type} {view : τ → σ} {update : τ → σ → τ} {raise : ε → δ}
    {m : EStateM ε σ α} {Q : α → τ → Prop} {E : δ → τ → Prop} {t : τ} :
    Ends (focus view update raise m) Q E t ↔
      Ends m (fun a s' => Q a (update t s')) (fun e s' => E (raise e) (update t s')) (view t) := by
  unfold Ends focus
  cases m (view t) <;> rfl

/-- An `Except` computation as a program that leaves the state alone. -/
def orRaise : Except ε α → EStateM ε σ α
  | .ok a => pure a
  | .error e => throw e

@[simp] theorem ends_orRaise {x : Except ε α} {Q : α → σ → Prop} {E : ε → σ → Prop} {s : σ} :
    Ends (orRaise x) Q E s ↔ (∀ a, x = .ok a → Q a s) ∧ (∀ e, x = .error e → E e s) := by
  cases x with
  | ok a => simp [orRaise]
  | error e => simp [orRaise]

/-! ### What a program does not do -/

/-- However `m` ends, its end is related to its start, and what it returns satisfies `P`. -/
def Keeps (R : σ → σ → Prop) (P : α → Prop) (m : EStateM ε σ α) : Prop :=
  ∀ s, Ends m (fun a s' => R s s' ∧ P a) (fun _ s' => R s s') s

section

variable {R : σ → σ → Prop} {P : α → Prop} {m m' : EStateM ε σ α}

theorem Keeps.ends (h : Keeps R P m) (s : σ) : Ends m (fun _ s' => R s s') (fun _ s' => R s s') s :=
  (h s).mono (fun _ _ ha => ha.1) fun _ _ h => h

theorem Keeps.ite {c : Prop} [Decidable c] (h : c → Keeps R P m) (h' : ¬c → Keeps R P m') :
    Keeps R P (if c then m else m') := by
  split
  · exact h ‹_›
  · exact h' ‹_›

variable [IsPreorder σ R]

theorem Keeps.pure {a : α} (ha : P a) : Keeps R P (Pure.pure a : EStateM ε σ α) := fun s => ⟨refl_of R s, ha⟩

theorem Keeps.throw {e : ε} : Keeps R P (MonadExcept.throw e : EStateM ε σ α) := fun s => refl_of R s

theorem Keeps.orRaise {x : Except ε α} (hP : ∀ a, P a) : Keeps R P (Program.orRaise x : EStateM ε σ α) := by
  intro s
  rw [ends_orRaise]
  exact ⟨fun a _ => ⟨refl_of R s, hP a⟩, fun _ _ => refl_of R s⟩

theorem Keeps.bind {f : α → EStateM ε σ β} {Q : β → Prop} (h : Keeps R P m) (hf : ∀ a, P a → Keeps R Q (f a)) :
    Keeps R Q (m >>= f) := by
  intro s
  rw [ends_bind]
  refine (h s).mono (fun a s' ha => ?_) (fun _ _ h => h)
  exact (hf a ha.2 s').mono (fun b s'' hb => ⟨trans_of R ha.1 hb.1, hb.2⟩) (fun _ s'' he => trans_of R ha.1 he)

theorem Keeps.tryCatch {f : ε → EStateM ε σ α} (h : Keeps R P m) (hf : ∀ e, Keeps R P (f e)) :
    Keeps R P (MonadExcept.tryCatch m f) := by
  intro s
  refine ends_tryCatch.2 ((h s).mono (fun _ _ ha => ha) (fun e s' he => ?_))
  exact (hf e s').mono (fun a s'' ha => ⟨trans_of R he ha.1, ha.2⟩) (fun _ s'' he' => trans_of R he he')

theorem Keeps.forM {f : α → EStateM ε σ PUnit} {xs : List α} (h : ∀ x ∈ xs, Keeps R (fun _ => True) (f x)) :
    Keeps R (fun _ => True) (xs.forM f) := by
  induction xs with
  | nil => exact Keeps.pure trivial
  | cons x xs ih =>
    refine (h x (List.mem_cons_self ..)).bind fun _ _ => ?_
    exact ih fun y hy => h y (List.mem_cons_of_mem _ hy)

end

end Program

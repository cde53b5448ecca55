import Mathlib.Data.List.Basic

/-!
# Systems and simulations

A system starts in some states, and its events lead from state to state.  When every step of one system can be answered
by a step of another for the same event, and the answer keeps the two states related, then whatever the first system
does the second one can do (`Simulates.history`): what is proved of the histories of the second holds for those of the
first.
-/

structure System (σ ε : Type*) where
  start : σ → Prop
  step : σ → ε → σ → Prop

namespace System

variable {σ τ ε : Type*} {S : System σ ε} {A : System τ ε} {R : σ → τ → Prop}

/-- The events that have led to a state, from first to last. -/
inductive History (S : System σ ε) : List ε → σ → Prop
  | start {s : σ} (h : S.start s) : History S [] s
  | step {events : List ε} {s s' : σ} {e : ε} (h : History S events s) (hstep : S.step s e s') :
      History S (events ++ [e]) s'

/-- Every start of `S` has its match in `A`, and every step is answered for the same event. -/
structure Simulates (S : System σ ε) (A : System τ ε) (R : σ → τ → Prop) : Prop where
  start : ∀ s, S.start s → ∃ t, A.start t ∧ R s t
  step : ∀ s t e s', R s t → S.step s e s' → ∃ t', A.step t e t' ∧ R s' t'

theorem Simulates.history (h : Simulates S A R) {events : List ε} {s : σ} (hs : S.History events s) :
    ∃ t, A.History events t ∧ R s t := by
  induction hs with
  | start hstart =>
    obtain ⟨t, ht, hr⟩ := h.start _ hstart
    exact ⟨t, .start ht, hr⟩
  | step _ hstep ih =>
    obtain ⟨t, ht, hr⟩ := ih
    obtain ⟨t', ht', hr'⟩ := h.step _ t _ _ hr hstep
    exact ⟨t', .step ht ht', hr'⟩

/-- A part of the state that only some events change, each in a way of its own, is what these events make of it. -/
theorem History.replay {α : Type*} (view : σ → α) (mine : ε → Bool) {apply : α → ε → α} {a : α}
    (hstart : ∀ s, S.start s → view s = a)
    (hstep : ∀ s e s', S.step s e s' → view s' = if mine e then apply (view s) e else view s)
    {events : List ε} {s : σ} (h : S.History events s) : view s = (events.filter mine).foldl apply a := by
  induction h with
  | start hs => exact hstart _ hs
  | @step events s s' e _ hs ih =>
    rw [hstep _ _ _ hs, ih, List.filter_append, List.foldl_append]
    by_cases hmine : mine e = true
    · rw [if_pos hmine, List.filter_cons_of_pos hmine]
      rfl
    · rw [if_neg hmine, List.filter_cons_of_neg hmine]
      rfl

end System

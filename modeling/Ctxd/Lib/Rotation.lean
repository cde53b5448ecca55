import Mathlib.Data.Set.Insert
import Mathlib.Tactic.Common

/-!
# Keys that rotate over two stores

The holder of a key has a *binding*, kept in one store, and rows for its keys in another: `live` are the keys that still
open something, and `origin` says from which binding a key was prepared.  The two stores commit one after the other, so
a step may be torn: the binding has moved, and the keys are as they were.

`Step` lists what may happen to a holder, torn steps included.  `Tidy` is what every sequence of steps keeps:
a key prepared from the present binding leaves room for no other key (`alone`), and a binding that is itself live
has only its predecessor or a replacement beside it (`paired`).
-/

namespace Rotation

variable {κ : Type}

structure Holder (κ : Type) where
  bound : Option κ
  live : Set κ
  origin : κ → Option κ

/-- A key that occurs nowhere in the two stores. -/
structure Holder.Fresh (h : Holder κ) (k : κ) : Prop where
  bound : h.bound ≠ some k
  live : k ∉ h.live
  origin : ∀ l, h.origin l ≠ some k

open Classical in
/-- A row for a new key. -/
noncomputable def Holder.record (origin : κ → Option κ) (k : κ) (from? : Option κ) : κ → Option κ :=
  Function.update origin k from?

inductive Step : Holder κ → Holder κ → Prop
  /-- A new key takes over from all others. -/
  | reissue (h : Holder κ) (k : κ) (hk : h.Fresh k) : Step h ⟨some k, {k}, Holder.record h.origin k none⟩
  /-- The binding has moved to a key that was never stored. -/
  | tornReissue (h : Holder κ) (k : κ) (hk : h.Fresh k) : Step h ⟨some k, h.live, h.origin⟩
  /-- A replacement for the binding, which stays. -/
  | prepare (h : Holder κ) (k : κ) (hk : h.Fresh k) :
    Step h ⟨h.bound, {l | l ∈ h.live ∧ h.bound = some l} ∪ {k}, Holder.record h.origin k h.bound⟩
  /-- The replacement takes over. -/
  | confirm (h : Holder κ) (k b : κ) (hb : h.bound = some b) (hk : k ∈ h.live) (ho : h.origin k = some b) :
    Step h ⟨some k, h.live \ {b}, h.origin⟩
  | tornConfirm (h : Holder κ) (k b : κ) (hb : h.bound = some b) (hk : k ∈ h.live) (ho : h.origin k = some b) :
    Step h ⟨some k, h.live, h.origin⟩
  /-- The predecessor of a binding that took over before is retired. -/
  | settle (h : Holder κ) (k b : κ) (hb : h.bound = some k) (hk : k ∈ h.live) (ho : h.origin k = some b) :
    Step h ⟨h.bound, h.live \ {b}, h.origin⟩
  | clear (h : Holder κ) (b : κ) (hb : h.bound = some b) : Step h ⟨none, h.live \ {b}, h.origin⟩
  | tornClear (h : Holder κ) : Step h ⟨none, h.live, h.origin⟩
  /-- A holder without a binding loses its keys. -/
  | sweep (h : Holder κ) (hb : h.bound = none) : Step h ⟨none, ∅, h.origin⟩

/-- What every sequence of steps keeps. -/
structure Tidy (h : Holder κ) : Prop where
  acyclic : ∀ k l, h.origin k = some l → h.origin l ≠ some k
  alone : ∀ b, h.bound = some b → ∀ k ∈ h.live, h.origin k = some b → ∀ l ∈ h.live, l = k ∨ l = b
  paired : ∀ b, h.bound = some b → b ∈ h.live → ∀ l ∈ h.live, l = b ∨ h.origin b = some l ∨ h.origin l = some b

/-- Every live key is the binding or was prepared from it. -/
def Settled (h : Holder κ) : Prop := ∀ l ∈ h.live, h.bound = some l ∨ h.origin l = h.bound

theorem Tidy.initial (origin : κ → Option κ) (h : ∀ k l, origin k = some l → origin l ≠ some k) :
    Tidy ⟨none, ∅, origin⟩ :=
  ⟨h, fun _ hb => (nomatch hb), fun _ hb => (nomatch hb)⟩

section

variable {h h' : Holder κ} {k : κ}

theorem record_self (origin : κ → Option κ) (k : κ) (from? : Option κ) : Holder.record origin k from? k = from? := by
  classical
  simp [Holder.record]

theorem record_of_ne (origin : κ → Option κ) {k l : κ} (hne : l ≠ k) (from? : Option κ) :
    Holder.record origin k from? l = origin l := by
  classical
  simp [Holder.record, hne]

/-- A row for a fresh key closes no circle, as no row has the key for its origin. -/
theorem Holder.Fresh.acyclic_record (hf : h.Fresh k) {from? : Option κ} (hne : from? ≠ some k)
    (hac : ∀ k l, h.origin k = some l → h.origin l ≠ some k) :
    ∀ m l, Holder.record h.origin k from? m = some l → Holder.record h.origin k from? l ≠ some m := by
  intro m l hm hl
  by_cases hmk : m = k
  · subst hmk
    rw [record_self] at hm
    by_cases hlm : l = m
    · subst hlm
      exact hne hm
    · rw [record_of_ne _ hlm] at hl
      exact hf.origin l hl
  · rw [record_of_ne _ hmk] at hm
    by_cases hlk : l = k
    · subst hlk
      exact hf.origin m hm
    · rw [record_of_ne _ hlk] at hl
      exact hac m l hm hl

/-- What is live once a replacement took over: by `alone` there was only the binding beside it. -/
theorem Tidy.live_of_confirm (ht : Tidy h) {b : κ} (hb : h.bound = some b) (hk : k ∈ h.live)
    (ho : h.origin k = some b) {l : κ} (hl : l ∈ h.live \ {b}) : l = k :=
  (ht.alone b hb k hk ho l hl.1).resolve_right hl.2

/-- What is live once a predecessor is retired. -/
theorem Tidy.live_of_settle (ht : Tidy h) {b : κ} (hb : h.bound = some k) (hk : k ∈ h.live)
    (ho : h.origin k = some b) {l : κ} (hl : l ∈ h.live \ {b}) : l = k ∨ h.origin l = some k := by
  rcases ht.paired k hb hk l hl.1 with hl' | hl' | hl'
  · exact .inl hl'
  · rw [ho] at hl'
    exact absurd (Option.some.inj hl').symm hl.2
  · exact .inr hl'

/-- Every step, torn or not, keeps a holder tidy. -/
theorem Step.tidy (hs : Step h h') (ht : Tidy h) : Tidy h' := by
  cases hs with
  | reissue k hk =>
    refine ⟨hk.acyclic_record (by simp) ht.acyclic, fun b hb l hl _ m hm => .inl ?_, fun b hb _ l hl => .inl ?_⟩
    · exact (Set.mem_singleton_iff.1 hm).trans (Set.mem_singleton_iff.1 hl).symm
    · exact (Set.mem_singleton_iff.1 hl).trans (Option.some.inj hb)
  | tornReissue k hk =>
    refine ⟨ht.acyclic, fun b hb l _ ho => ?_, fun b hb hl => ?_⟩
    · cases hb
      exact absurd ho (hk.origin l)
    · cases hb
      exact absurd hl hk.live
  | prepare k hk =>
    have hkept : ∀ b, h.bound = some b → ∀ l, h.bound = some l → l = b :=
      fun b hb l hl => Option.some.inj (hl.symm.trans hb)
    refine ⟨hk.acyclic_record hk.bound ht.acyclic, fun b (hb : h.bound = some b) l hl ho m hm => ?_,
      fun b (hb : h.bound = some b) _ m hm => ?_⟩
    · -- a key prepared from the binding is the new one, as no key is its own origin
      have hlk : l = k := by
        by_contra hne
        have ho' : h.origin l = some b := (record_of_ne _ hne _).symm.trans ho
        rcases hl with hl | hl
        · rw [hkept b hb l hl.2] at ho'
          exact ht.acyclic _ _ ho' ho'
        · exact hne hl
      rcases hm with hm | hm
      · exact .inr (hkept b hb m hm.2)
      · exact .inl (hm.trans hlk.symm)
    · rcases hm with hm | hm
      · exact .inl (hkept b hb m hm.2)
      · rw [Set.mem_singleton_iff] at hm
        subst hm
        exact .inr (.inr ((record_self _ _ _).trans hb))
  | confirm k b hb hk ho =>
    refine ⟨ht.acyclic, fun c hc l hl _ m hm => .inl ?_, fun c hc _ m hm => .inl ?_⟩
    · exact (ht.live_of_confirm hb hk ho hm).trans (ht.live_of_confirm hb hk ho hl).symm
    · exact (ht.live_of_confirm hb hk ho hm).trans (Option.some.inj hc)
  | tornConfirm k b hb hk ho =>
    refine ⟨ht.acyclic, fun c hc l hl hlo m hm => ?_, fun c hc _ m hm => ?_⟩
    · cases hc
      rcases ht.alone b hb k hk ho l hl with hlk | hlb
      · subst hlk
        exact absurd hlo (ht.acyclic _ _ hlo)
      · subst hlb
        exact absurd hlo (ht.acyclic _ _ ho)
    · cases hc
      rcases ht.alone b hb k hk ho m hm with hmk | hmb
      · exact .inl hmk
      · exact .inr (.inl (hmb ▸ ho))
  | settle k b hb hk ho =>
    refine ⟨ht.acyclic, fun c hc l hl hlo m hm => ht.alone c hc l hl.1 hlo m hm.1, fun c hc hcl m hm => ?_⟩
    exact ht.paired c hc hcl.1 m hm.1
  | clear b hb => exact ⟨ht.acyclic, fun _ hc => (nomatch hc), fun _ hc => (nomatch hc)⟩
  | tornClear => exact ⟨ht.acyclic, fun _ hc => (nomatch hc), fun _ hc => (nomatch hc)⟩
  | sweep hb => exact ⟨ht.acyclic, fun _ hc => (nomatch hc), fun _ hc => (nomatch hc)⟩

theorem settled_of_prepare : Settled ⟨h.bound, {l | l ∈ h.live ∧ h.bound = some l} ∪ {k},
    Holder.record h.origin k h.bound⟩ := by
  rintro l (hl | hl)
  · exact .inl hl.2
  · rw [Set.mem_singleton_iff] at hl
    subst hl
    exact .inr (record_self _ _ _)

theorem Tidy.settled_of_confirm (ht : Tidy h) {b : κ} (hb : h.bound = some b) (hk : k ∈ h.live)
    (ho : h.origin k = some b) : Settled ⟨some k, h.live \ {b}, h.origin⟩ :=
  fun _ hl => .inl (congrArg some (ht.live_of_confirm hb hk ho hl).symm)

theorem Tidy.settled_of_settle (ht : Tidy h) {b : κ} (hb : h.bound = some k) (hk : k ∈ h.live)
    (ho : h.origin k = some b) : Settled ⟨h.bound, h.live \ {b}, h.origin⟩ := by
  intro l hl
  rcases ht.live_of_settle hb hk ho hl with hlk | hlo
  · exact .inl (hlk ▸ hb)
  · exact .inr (hlo.trans hb.symm)

end

end Rotation

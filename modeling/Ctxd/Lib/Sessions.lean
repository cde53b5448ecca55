import Mathlib.Data.List.Induction
import Mathlib.Data.Nat.Basic
import Mathlib.Logic.Function.Basic

/-!
# Sessions on one database

Sessions send statements to a database that lets one of them write at a time.  Outside a transaction a statement reads
what is committed.  The first statement of a session that writes opens its transaction, and waits while another one is
open; from then on the session reads what it has written, until it commits or rolls back.

For a proof about all interleavings, every session asserts something in each of its states, and guarantees something of
its writes; what a session asserts outside a transaction has to be stable under what the others guarantee (`Outline`).
Where a transaction is to be one step, it says of each of its states what it has done since its first write
(`Tracked.committed`).
-/

namespace Sessions

/-- The next statement of a session. -/
inductive Statement (D L O : Type)
  | read (next : D → L)
  | write (run : D → D × L)
  | commit (out : O)
  | rollback (out : O)

/-- How far a session has come. -/
inductive Status (L O : Type)
  | running (l : L)
  | ended (out : O)
  | abandoned

/-- What a session becomes by a statement on the database that it sees. -/
def Statement.after {D L O : Type} (d : D) : Statement D L O → Status L O
  | .read next => .running (next d)
  | .write run => .running (run d).2
  | .commit out => .ended out
  | .rollback out => .ended out

structure State (ι D L O : Type) where
  committed : D
  /-- The session whose transaction is open, and the database as it sees it. -/
  writer : Option (ι × D)
  status : ι → Status L O

/-- What happens next: the next statement of a session, or the end of its connection. -/
inductive Event (ι : Type)
  | next (i : ι)
  | abandon (i : ι)
  deriving DecidableEq

section

variable {ι D L O : Type} [DecidableEq ι]

namespace State

def view (s : State ι D L O) (i : ι) : D :=
  match s.writer with
  | none => s.committed
  | some (j, d) => if j = i then d else s.committed

/-- Another session has a transaction open. -/
def locked (s : State ι D L O) (i : ι) : Bool := s.writer.any fun p => p.1 ≠ i

def setStatus (s : State ι D L O) (i : ι) (status : Status L O) : State ι D L O :=
  { s with status := Function.update s.status i status }

/-- The transaction of the session is over, if it has one. -/
def release (s : State ι D L O) (i : ι) : State ι D L O := { s with writer := s.writer.filter fun p => p.1 ≠ i }

def take (s : State ι D L O) (i : ι) : Statement D L O → State ι D L O
  | .read next => s.setStatus i (.running (next (s.view i)))
  | .write run =>
    if s.locked i then s
    else { s.setStatus i (.running (run (s.view i)).2) with writer := some (i, (run (s.view i)).1) }
  | .commit out => { (s.setStatus i (.ended out)).release i with committed := s.view i }
  | .rollback out => (s.setStatus i (.ended out)).release i

/-- A session that is not running does nothing. -/
def step (act : ι → L → Statement D L O) (s : State ι D L O) : Event ι → State ι D L O
  | .next i =>
    match s.status i with
    | .running l => s.take i (act i l)
    | _ => s
  | .abandon i =>
    match s.status i with
    | .running _ => (s.setStatus i .abandoned).release i
    | _ => s

def run (act : ι → L → Statement D L O) (s : State ι D L O) (events : List (Event ι)) : State ι D L O :=
  events.foldl (step act) s

/-- The session does not wait: its next statement will be taken when its turn comes. -/
def ready (act : ι → L → Statement D L O) (s : State ι D L O) (i : ι) : Bool :=
  match s.status i with
  | .running l =>
    match act i l with
    | .write _ => !s.locked i
    | _ => true
  | _ => false

/-- The number of statements that a session has taken. -/
def taken (act : ι → L → Statement D L O) (i : ι) : List (Event ι) → State ι D L O → ℕ
  | [], _ => 0
  | e :: events, s => (if e = .next i ∧ s.ready act i = true then 1 else 0) + taken act i events (s.step act e)

theorem view_of_writer {s : State ι D L O} {i : ι} {d : D} (h : s.writer = some (i, d)) : s.view i = d := by
  unfold view
  rw [h]
  exact if_pos rfl

theorem view_of_ne {s : State ι D L O} {i : ι} (h : ∀ d, s.writer ≠ some (i, d)) : s.view i = s.committed := by
  unfold view
  split
  · rfl
  · rename_i j d hwriter
    split
    · rename_i hji
      subst hji
      exact absurd hwriter (h d)
    · rfl

theorem locked_of_writer {s : State ι D L O} {i : ι} {d : D} (h : s.writer = some (i, d)) : s.locked i = false := by
  unfold locked
  rw [h]
  simp

/-- A statement of another session leaves the status alone. -/
theorem status_next_of_ne {act : ι → L → Statement D L O} {s : State ι D L O} {i j : ι} (h : i ≠ j) :
    (s.step act (.next j)).status i = s.status i := by
  have htake : ∀ statement, (s.take j statement).status i = s.status i := by
    intro statement
    cases statement with
    | read next => exact Function.update_of_ne h _ _
    | write run =>
      show State.status (if s.locked j then s else _) i = _
      split
      · rfl
      · exact Function.update_of_ne h _ _
    | commit out => exact Function.update_of_ne h _ _
    | rollback out => exact Function.update_of_ne h _ _
  unfold step
  dsimp only
  split
  · exact htake _
  · rfl

theorem run_append (act : ι → L → Statement D L O) (s : State ι D L O) (events events' : List (Event ι)) :
    s.run act (events ++ events') = (s.run act events).run act events' := List.foldl_append

/-! ### One step of a run -/

/-- A session that has to wait keeps its status. -/
theorem status_take (s : State ι D L O) (i : ι) (statement : Statement D L O) :
    (s.take i statement).status i = s.status i ∨ (s.take i statement).status i = statement.after (s.view i) := by
  cases statement with
  | read next => exact .inr (Function.update_self _ _ _)
  | write run =>
    show State.status (if s.locked i then s else _) i = _ ∨ State.status (if s.locked i then s else _) i = _
    split
    · exact .inl rfl
    · exact .inr (Function.update_self _ _ _)
  | commit out => exact .inr (Function.update_self _ _ _)
  | rollback out => exact .inr (Function.update_self _ _ _)

/-- A step leaves the status of a session alone, or it is its own statement, or the end of its connection. -/
theorem status_step (act : ι → L → Statement D L O) (s : State ι D L O) (i : ι) (e : Event ι) :
    (s.step act e).status i = s.status i ∨ (s.step act e).status i = .abandoned ∨
      ∃ l, e = .next i ∧ s.status i = .running l ∧ (s.step act e).status i = (act i l).after (s.view i) := by
  cases e with
  | abandon j =>
    unfold step
    dsimp only
    cases hstatus : s.status j with
    | running l =>
      by_cases hj : i = j
      · subst hj
        exact .inr (.inl (Function.update_self _ _ _))
      · exact .inl (Function.update_of_ne hj _ _)
    | ended out => exact .inl rfl
    | abandoned => exact .inl rfl
  | next j =>
    by_cases hj : i = j
    · subst hj
      unfold step
      dsimp only
      cases hstatus : s.status i with
      | ended out => exact .inl hstatus
      | abandoned => exact .inl hstatus
      | running l =>
        rcases status_take s i (act i l) with hsame | hafter
        · exact .inl (hsame.trans hstatus)
        · exact .inr (.inr ⟨l, rfl, rfl, hafter⟩)
    · exact .inl (status_next_of_ne hj)

/-- What becomes true in a run becomes true in one of its steps. -/
theorem exists_step {act : ι → L → Statement D L O} {s : State ι D L O} {P : State ι D L O → Prop} (hstart : ¬P s)
    {events : List (Event ι)} (hend : P (s.run act events)) :
    ∃ done e, done ++ [e] <+: events ∧ ¬P (s.run act done) ∧ P ((s.run act done).step act e) := by
  induction events using List.reverseRecOn with
  | nil => exact absurd hend hstart
  | append_singleton events e ih =>
    by_cases hbefore : P (s.run act events)
    · obtain ⟨done, e', hprefix, hnot, hafter⟩ := ih hbefore
      exact ⟨done, e', hprefix.trans (List.prefix_append _ _), hnot, hafter⟩
    · refine ⟨events, e, List.prefix_refl _, hbefore, ?_⟩
      rw [run_append] at hend
      exact hend

/-- A session that has ended stays so. -/
theorem run_ended {act : ι → L → Statement D L O} {s : State ι D L O} {i : ι} {out : O} (h : s.status i = .ended out)
    (events : List (Event ι)) : (s.run act events).status i = .ended out := by
  induction events generalizing s with
  | nil => exact h
  | cons e events ih =>
    refine ih ?_
    cases e with
    | next j =>
      by_cases hj : i = j
      · subst hj
        unfold step
        dsimp only
        rw [h]
        exact h
      · rw [status_next_of_ne hj]
        exact h
    | abandon j =>
      unfold step
      dsimp only
      cases hstatus : s.status j with
      | running l =>
        have hj : i ≠ j := by
          rintro rfl
          rw [h] at hstatus
          cases hstatus
        exact (Function.update_of_ne hj _ _).trans h
      | ended out => exact h
      | abandoned => exact h

/-- What every write keeps is true of what is committed, and of what the open transaction sees. -/
theorem run_keeps {act : ι → L → Statement D L O} {P : D → Prop}
    (hwrite : ∀ {i l run d}, act i l = .write run → P d → P (run d).1) {s : State ι D L O}
    (h : P s.committed ∧ ∀ p, s.writer = some p → P p.2) (events : List (Event ι)) :
    P (s.run act events).committed ∧ ∀ p, (s.run act events).writer = some p → P p.2 := by
  induction events generalizing s with
  | nil => exact h
  | cons e events ih =>
    refine ih ?_
    have hview : ∀ i, P (s.view i) := by
      intro i
      unfold view
      split
      · exact h.1
      · rename_i j d hwriter
        split
        · exact h.2 _ hwriter
        · exact h.1
    have hrelease : ∀ {j p}, (s.writer.filter fun p => p.1 ≠ j) = some p → P p.2 :=
      fun hp => h.2 _ (Option.filter_eq_some_iff.1 hp).1
    unfold step
    cases e with
    | abandon j =>
      dsimp only
      split
      · exact ⟨h.1, fun p hp => hrelease hp⟩
      · exact h
    | next j =>
      dsimp only
      split
      · rename_i l hrunning
        cases hact : act j l with
        | read next => exact h
        | write run =>
          show P (State.committed (if s.locked j then s else _)) ∧
            ∀ p, State.writer (if s.locked j then s else _) = some p → P p.2
          split
          · exact h
          · refine ⟨h.1, fun p hp => ?_⟩
            cases hp
            exact hwrite hact (hview j)
        | commit out => exact ⟨hview j, fun p hp => hrelease hp⟩
        | rollback out => exact ⟨h.1, fun p hp => hrelease hp⟩
      · exact h

end State

/-- What a session asserts of the database as it sees it, inside a transaction and outside, is true after each of its
statements, its writes do what they guarantee, and it relies on the others for what it asserts outside. -/
structure Keeps (inv : D → Prop) (guarantee rely : D → D → Prop) (act : L → Statement D L O)
    (asserts : Bool → Status L O → D → Prop) : Prop where
  read : ∀ {inside l next d}, inv d → asserts inside (.running l) d → act l = .read next →
    asserts inside (.running (next d)) d
  write : ∀ {inside l run d}, inv d → asserts inside (.running l) d → act l = .write run →
    inv (run d).1 ∧ guarantee d (run d).1 ∧ asserts true (.running (run d).2) (run d).1
  commit : ∀ {inside l out d}, inv d → asserts inside (.running l) d → act l =
    .commit out → asserts false (.ended out) d
  /-- What has been seen inside the transaction is gone. -/
  rollback : ∀ {inside l out d d'}, inv d' → asserts inside (.running l) d → act l = .rollback out →
    asserts false (.ended out) d'
  abandon : ∀ {d}, inv d → asserts false .abandoned d
  stable : ∀ {status d d'}, inv d' → asserts false status d → rely d d' → asserts false status d'

/-- What the sessions say and guarantee, with a proof that they do. -/
structure Outline (act : ι → L → Statement D L O) where
  inv : D → Prop
  guarantee : ι → D → D → Prop
  asserts : ι → Bool → Status L O → D → Prop
  refl : ∀ i d, guarantee i d d
  trans : ∀ {i d d' d''}, guarantee i d d' → guarantee i d' d'' → guarantee i d d''
  keeps : ∀ i, Keeps inv (guarantee i) (fun d d' => ∃ j, j ≠ i ∧ guarantee j d d') (act i) (asserts i)

namespace Outline

variable {act : ι → L → Statement D L O} (o : Outline act)

/-- What everyone asserts is true. -/
structure Holds (s : State ι D L O) : Prop where
  inv : o.inv s.committed
  outside : ∀ i, (∀ d, s.writer ≠ some (i, d)) → o.asserts i false (s.status i) s.committed
  inside : ∀ i d, s.writer = some (i, d) → o.inv d ∧ o.guarantee i s.committed d ∧
    ∃ l, s.status i = .running l ∧ o.asserts i true (.running l) d

variable {o} {s : State ι D L O}

/-- The view of a session that is running. -/
theorem Holds.view (h : o.Holds s) {i : ι} {l : L} (hrunning : s.status i = .running l) :
    o.inv (s.view i) ∧ o.guarantee i s.committed (s.view i) ∧ ∃ inside, o.asserts i inside (.running l) (s.view i) := by
  by_cases hwriter : ∃ d, s.writer = some (i, d)
  · obtain ⟨d, hwriter⟩ := hwriter
    obtain ⟨hinv, hguarantee, l', hrunning', hasserts⟩ := h.inside i d hwriter
    rw [State.view_of_writer hwriter]
    rw [hrunning] at hrunning'
    cases hrunning'
    exact ⟨hinv, hguarantee, true, hasserts⟩
  · have hne : ∀ d, s.writer ≠ some (i, d) := fun d hd => hwriter ⟨d, hd⟩
    have hasserts := h.outside i hne
    rw [hrunning] at hasserts
    rw [State.view_of_ne hne]
    exact ⟨h.inv, o.refl i _, false, hasserts⟩

/-- The session ends its transaction, after which the database is `d`. -/
theorem Holds.release (h : o.Holds s) {i : ι} {d : D} {status : Status L O} (hinv : o.inv d)
    (hd : d = s.committed ∨ o.guarantee i s.committed d ∧ s.locked i = false) (hasserts : o.asserts i false status d) :
    o.Holds { (s.setStatus i status).release i with committed := d } := by
  have hothers : ∀ j, j ≠ i → (∀ d', s.writer ≠ some (j, d')) → o.asserts j false (s.status j) d := by
    intro j hj hne
    rcases hd with rfl | ⟨hguarantee, -⟩
    · exact h.outside j hne
    · exact (o.keeps j).stable hinv (h.outside j hne) ⟨i, Ne.symm hj, hguarantee⟩
  refine ⟨hinv, fun j hne => ?_, fun j d' hwriter => ?_⟩
  · by_cases hj : j = i
    · subst hj
      show o.asserts j false (Function.update s.status j status j) d
      rw [Function.update_self]
      exact hasserts
    · show o.asserts j false (Function.update s.status i status j) d
      rw [Function.update_of_ne hj]
      refine hothers j hj fun d' hd' => hne d' ?_
      show s.writer.filter _ = _
      rw [hd', Option.filter_some, if_pos (by simpa using hj)]
  · change s.writer.filter _ = _ at hwriter
    obtain ⟨hwriter, hji⟩ := Option.filter_eq_some_iff.1 hwriter
    have hji : j ≠ i := by simpa using hji
    obtain ⟨hinv', hguarantee', l, hrunning, hasserts'⟩ := h.inside j d' hwriter
    have hcommitted : d = s.committed := by
      refine hd.resolve_right fun hfree => ?_
      have hlocked : s.locked i = true := by
        unfold State.locked
        rw [hwriter]
        simpa using hji
      rw [hlocked] at hfree
      exact Bool.false_ne_true hfree.2.symm
    refine ⟨hinv', ?_, l, ?_, hasserts'⟩
    · show o.guarantee j d d'
      rw [hcommitted]
      exact hguarantee'
    · show Function.update s.status i status j = _
      rw [Function.update_of_ne hji]
      exact hrunning

theorem Holds.take (h : o.Holds s) {i : ι} {l : L} (hrunning : s.status i = .running l) :
    o.Holds (s.take i (act i l)) := by
  obtain ⟨hinv, hguarantee, inside, hasserts⟩ := h.view hrunning
  cases hact : act i l with
  | read next =>
    refine ⟨h.inv, fun j hne => ?_, fun j d hwriter => ?_⟩
    · by_cases hj : j = i
      · subst hj
        have hasserts := h.outside j hne
        rw [hrunning] at hasserts
        have hview : s.view j = s.committed := State.view_of_ne hne
        show o.asserts j false (Function.update s.status j _ j) s.committed
        rw [Function.update_self, hview]
        exact (o.keeps j).read h.inv hasserts hact
      · show o.asserts j false (Function.update s.status i _ j) s.committed
        rw [Function.update_of_ne hj]
        exact h.outside j hne
    · obtain ⟨hinv', hguarantee', l', hrunning', hasserts'⟩ := h.inside j d hwriter
      refine ⟨hinv', hguarantee', ?_⟩
      by_cases hj : j = i
      · subst hj
        rw [hrunning] at hrunning'
        cases hrunning'
        refine ⟨next d, ?_, (o.keeps j).read hinv' hasserts' hact⟩
        have hview : s.view j = d := State.view_of_writer hwriter
        show Function.update s.status j _ j = _
        rw [Function.update_self, hview]
      · refine ⟨l', ?_, hasserts'⟩
        show Function.update s.status i _ j = _
        rw [Function.update_of_ne hj]
        exact hrunning'
  | write run =>
    obtain ⟨hinv', hguarantee', hasserts'⟩ := (o.keeps i).write hinv hasserts hact
    show o.Holds (if s.locked i then s else _)
    split
    · exact h
    rename_i hlocked
    refine ⟨h.inv, fun j hne => ?_, fun j d hwriter => ?_⟩
    · have hj : j ≠ i := by
        rintro rfl
        exact hne _ rfl
      show o.asserts j false (Function.update s.status i _ j) s.committed
      rw [Function.update_of_ne hj]
      refine h.outside j fun d hd => hlocked ?_
      unfold State.locked
      rw [hd]
      simpa using hj
    · cases hwriter
      refine ⟨hinv', o.trans hguarantee hguarantee', _, ?_, hasserts'⟩
      show Function.update s.status i _ i = _
      rw [Function.update_self]
  | commit out =>
    refine h.release hinv ?_ ((o.keeps i).commit hinv hasserts hact)
    by_cases hwriter : ∃ d, s.writer = some (i, d)
    · obtain ⟨d, hwriter⟩ := hwriter
      exact .inr ⟨hguarantee, State.locked_of_writer hwriter⟩
    · exact .inl (State.view_of_ne fun d hd => hwriter ⟨d, hd⟩)
  | rollback out => exact h.release h.inv (.inl rfl) ((o.keeps i).rollback h.inv hasserts hact)

theorem Holds.step (h : o.Holds s) (e : Event ι) : o.Holds (s.step act e) := by
  cases e with
  | next i =>
    unfold State.step
    dsimp only
    cases hstatus : s.status i with
    | running l => exact h.take hstatus
    | ended out => exact h
    | abandoned => exact h
  | abandon i =>
    unfold State.step
    dsimp only
    cases hstatus : s.status i with
    | running l => exact h.release h.inv (.inl rfl) ((o.keeps i).abandon h.inv)
    | ended out => exact h
    | abandoned => exact h

theorem Holds.run (h : o.Holds s) (events : List (Event ι)) : o.Holds (s.run act events) := by
  induction events generalizing s with
  | nil => exact h
  | cons e events ih => exact ih (h.step e)

/-! ### One session of its own -/

/-- The session asserts something else. -/
def replace (o : Outline act) (i : ι) (asserts : Bool → Status L O → D → Prop)
    (hkeeps : Keeps o.inv (o.guarantee i) (fun d d' => ∃ j, j ≠ i ∧ o.guarantee j d d') (act i) asserts) :
      Outline act where
  inv := o.inv
  guarantee := o.guarantee
  asserts := Function.update o.asserts i asserts
  refl := o.refl
  trans := o.trans
  keeps := by
    intro j
    by_cases hj : j = i
    · subst hj
      rw [Function.update_self]
      exact hkeeps
    · rw [Function.update_of_ne hj]
      exact o.keeps j

/-- A session that has no transaction may begin to assert something. -/
theorem Holds.replace (h : o.Holds s) {i : ι} {asserts : Bool → Status L O → D → Prop}
    {hkeeps : Keeps o.inv (o.guarantee i) (fun d d' => ∃ j, j ≠ i ∧ o.guarantee j d d') (act i) asserts}
    (hout : ∀ d, s.writer ≠ some (i, d)) (hasserts : asserts false (s.status i) s.committed) :
    (o.replace i asserts hkeeps).Holds s := by
  refine ⟨h.inv, fun j hne => ?_, fun j d hwriter => ?_⟩
  · show Function.update o.asserts i asserts j false (s.status j) s.committed
    by_cases hj : j = i
    · subst hj
      rw [Function.update_self]
      exact hasserts
    · rw [Function.update_of_ne hj]
      exact h.outside j hne
  · have hj : j ≠ i := by
      intro hji
      subst hji
      exact hout d hwriter
    show o.inv d ∧ o.guarantee j s.committed d ∧
      ∃ l, s.status j = .running l ∧ Function.update o.asserts i asserts j true (.running l) d
    rw [Function.update_of_ne hj]
    exact h.inside j d hwriter

omit [DecidableEq ι] in
/-- A session that has ended has no transaction. -/
theorem Holds.ended (h : o.Holds s) {i : ι} {out : O} (hended : s.status i = .ended out) :
    o.asserts i false (.ended out) s.committed := by
  rw [← hended]
  refine h.outside i fun d hwriter => ?_
  obtain ⟨-, -, l, hrunning, -⟩ := h.inside i d hwriter
  rw [hended] at hrunning
  cases hrunning

/-! ### What is committed -/

/-- What a step commits, a session has guaranteed, and its last statement is the commit. -/
theorem Holds.committed_step (h : o.Holds s) (e : Event ι) :
    (s.step act e).committed = s.committed ∨
      ∃ i l out, e = .next i ∧ s.status i = .running l ∧ act i l = .commit out ∧
        o.guarantee i s.committed (s.step act e).committed := by
  cases e with
  | abandon i =>
    left
    unfold State.step
    dsimp only
    split <;> rfl
  | next i =>
    unfold State.step
    dsimp only
    cases hstatus : s.status i with
    | ended out => exact .inl rfl
    | abandoned => exact .inl rfl
    | running l =>
      dsimp only
      cases hact : act i l with
      | read next => exact .inl rfl
      | write run =>
        left
        show State.committed (if s.locked i then s else _) = _
        split <;> rfl
      | commit out => exact .inr ⟨i, l, out, rfl, hstatus, hact, (h.view hstatus).2.1⟩
      | rollback out => exact .inl rfl

/-- What every guarantee implies relates the committed databases of a run. -/
theorem Holds.run_committed {K : D → D → Prop} (hrefl : ∀ d, K d d) (htrans : ∀ {d d' d''}, K d d' → K d' d'' → K d d'')
    (hK : ∀ {i d d'}, o.guarantee i d d' → K d d') (h : o.Holds s) (events : List (Event ι)) :
    K s.committed (s.run act events).committed := by
  induction events generalizing s with
  | nil => exact hrefl _
  | cons e events ih =>
    refine htrans ?_ (ih (h.step e))
    rcases h.committed_step e with heq | ⟨i, -, -, -, -, -, hguarantee⟩
    · rw [heq]
      exact hrefl _
    · exact hK hguarantee

/-! ### Termination -/

/-- A session that runs is ready, or the one it waits for is. -/
theorem Holds.progress (h : o.Holds s) {i : ι} {l : L} (hrunning : s.status i = .running l) :
    s.ready act i = true ∨ ∃ j d, s.writer = some (j, d) ∧ j ≠ i ∧ s.ready act j = true := by
  cases hlocked : s.locked i with
  | false =>
    left
    unfold State.ready
    rw [hrunning]
    dsimp only
    split
    · rw [hlocked]
      rfl
    · rfl
  | true =>
    right
    unfold State.locked at hlocked
    obtain ⟨p, hp, hne⟩ := (Option.any_eq_true _ _).1 hlocked
    obtain ⟨-, -, l', hrunning', -⟩ := h.inside p.1 p.2 hp
    refine ⟨p.1, p.2, hp, by simpa using hne, ?_⟩
    unfold State.ready
    rw [hrunning']
    dsimp only
    split
    · rw [State.locked_of_writer hp]
      rfl
    · rfl

/-- The number of statements that a session can still take. -/
def left (rank : L → ℕ) : Status L O → ℕ
  | .running l => rank l
  | _ => 0

/-- A session that does not run takes no statement. -/
theorem ready_of_not_running {i : ι} (h : ∀ l, s.status i ≠ .running l) : s.ready act i = false := by
  unfold State.ready
  split
  · exact absurd ‹_› (h _)
  · rfl

theorem step_of_not_running {i : ι} (h : ∀ l, s.status i ≠ .running l) : s.step act (.next i) = s := by
  unfold State.step
  dsimp only
  split
  · exact absurd ‹_› (h _)
  · rfl

/-- A statement takes from the rank. -/
theorem Holds.step_left {rank : L → ℕ} {i : ι}
    (hread : ∀ {inside l next d}, o.inv d → o.asserts i inside (.running l) d → act i l =
      .read next → rank (next d) < rank l)
    (hwrite : ∀ {inside l run d}, o.inv d → o.asserts i inside (.running l) d → act i l = .write run →
      rank (run d).2 < rank l)
    (hpos : ∀ l, 0 < rank l) (h : o.Holds s) :
    (if Event.next i = Event.next i ∧ s.ready act i = true then 1 else 0) + left rank
    ((s.step act (.next i)).status i) ≤
      left rank (s.status i) := by
  have hidle : (∀ l, s.status i ≠ .running l) →
      (if Event.next i = Event.next i ∧ s.ready act i = true then 1 else 0) + left rank
        ((s.step act (.next i)).status i) ≤
        left rank (s.status i) := by
    intro hnot
    rw [ready_of_not_running hnot, if_neg (by simp), step_of_not_running hnot, Nat.zero_add]
  have hone : (if Event.next i = Event.next i ∧ s.ready act i = true then 1 else 0) ≤ 1 := by
    split <;> omega
  cases hstatus : s.status i with
  | ended out =>
    rw [← hstatus]
    exact hidle fun l hl => by rw [hstatus] at hl; cases hl
  | abandoned =>
    rw [← hstatus]
    exact hidle fun l hl => by rw [hstatus] at hl; cases hl
  | running l =>
    obtain ⟨hinv, -, inside, hasserts⟩ := h.view hstatus
    have hstep : s.step act (.next i) = s.take i (act i l) := by
      unfold State.step
      dsimp only
      rw [hstatus]
    -- whatever the statement makes of the session, its status is updated with it
    have hupdated : ∀ status : Status L O, left rank (Function.update s.status i status i) = left rank status := by
      intro status
      rw [Function.update_self]
    rw [hstep]
    show _ ≤ rank l
    cases hact : act i l with
    | read next =>
      have hless := hread hinv hasserts hact
      have hafter : left rank ((s.take i (.read next)).status i) = rank (next (s.view i)) := hupdated _
      omega
    | write run =>
      have hless := hwrite hinv hasserts hact
      cases hlocked : s.locked i with
      | true =>
        have hready : s.ready act i = false := by
          unfold State.ready
          rw [hstatus]
          dsimp only
          rw [hact, hlocked]
          rfl
        have hafter : s.take i (.write run) = s := if_pos hlocked
        rw [hready, if_neg (by simp), hafter, hstatus, Nat.zero_add]
        exact le_rfl
      | false =>
        have hafter : left rank ((s.take i (.write run)).status i) = rank (run (s.view i)).2 := by
          show left rank (State.status (if s.locked i then s else _) i) = _
          rw [if_neg (by simp [hlocked])]
          exact hupdated _
        omega
    | commit out =>
      have hless := hpos l
      have hafter : left rank ((s.take i (.commit out)).status i) = 0 := hupdated _
      omega
    | rollback out =>
      have hless := hpos l
      have hafter : left rank ((s.take i (.rollback out)).status i) = 0 := hupdated _
      omega

/-- A session whose rank gets less with each of its statements takes no more statements than its rank. -/
theorem Holds.taken_le {rank : L → ℕ} {i : ι}
    (hread : ∀ {inside l next d}, o.inv d → o.asserts i inside (.running l) d → act i l =
      .read next → rank (next d) < rank l)
    (hwrite : ∀ {inside l run d}, o.inv d → o.asserts i inside (.running l) d → act i l = .write run →
      rank (run d).2 < rank l)
    (hpos : ∀ l, 0 < rank l) (h : o.Holds s) (events : List (Event ι)) :
    State.taken act i events s ≤ left rank (s.status i) := by
  induction events generalizing s with
  | nil => exact Nat.zero_le _
  | cons e events ih =>
    refine Nat.le_trans (Nat.add_le_add_left (ih (h.step e)) _) ?_
    cases e with
    | abandon j =>
      rw [if_neg (by simp), Nat.zero_add]
      unfold State.step
      dsimp only
      cases hstatus : s.status j with
      | running l =>
        by_cases hj : i = j
        · subst hj
          show left rank (Function.update s.status i _ i) ≤ _
          rw [Function.update_self]
          exact Nat.zero_le _
        · show left rank (Function.update s.status j _ i) ≤ _
          rw [Function.update_of_ne hj]
      | ended out => exact le_rfl
      | abandoned => exact le_rfl
    | next j =>
      by_cases hj : i = j
      · subst hj
        exact h.step_left hread hwrite hpos
      · rw [if_neg (by simp [Ne.symm hj]), Nat.zero_add, State.status_next_of_ne hj]

end Outline

/-! ### What a transaction has done -/

/-- A relation between what is committed and what a session with a transaction sees, which each of its statements keeps;
`out` holds before its first write. -/
structure Tracks (act : L → Statement D L O) (out : L → Prop) (did : L → D → D → Prop) : Prop where
  start : ∀ {l d}, out l → did l d d
  read_out : ∀ {l next d}, out l → act l = .read next → out (next d)
  read : ∀ {l next c d}, did l c d → act l = .read next → did (next d) c d
  write : ∀ {l run c d}, did l c d → act l = .write run → did (run d).2 c (run d).1

/-- What every session has done since it has begun to write. -/
structure Tracked (out : ι → L → Prop) (did : ι → L → D → D → Prop) (s : State ι D L O) : Prop where
  outside : ∀ i l, s.status i = .running l → (∀ d, s.writer ≠ some (i, d)) → out i l
  inside : ∀ i d l, s.writer = some (i, d) → s.status i = .running l → did i l s.committed d

/-- What one step commits. -/
inductive Committed (act : ι → L → Statement D L O) (did : ι → L → D → D → Prop) (s : State ι D L O) (e : Event ι)
    (s' : State ι D L O) : Prop
  | commit {i : ι} {l : L} {outcome : O} (event : e = .next i) (running : s.status i = .running l)
      (ends : act i l = .commit outcome)
      (status : s'.status = Function.update s.status i (.ended outcome)) (done : did i l s.committed s'.committed)
  /-- The session that ends, if there is one, rolls back. -/
  | nothing (committed : s'.committed = s.committed)
      (ended : ∀ i outcome, s'.status i = .ended outcome → s.status i = .ended outcome ∨
        ∃ l, s.status i = .running l ∧ act i l = .rollback outcome)
      (stays : ∀ i outcome, s.status i = .ended outcome → s'.status i = .ended outcome)

namespace Tracked

variable {act : ι → L → Statement D L O} {out : ι → L → Prop} {did : ι → L → D → D → Prop} {s : State ι D L O}

/-- What a session that is running has done, as it sees it. -/
theorem view (ht : ∀ i, Tracks (act i) (out i) (did i)) (h : Tracked out did s) {i : ι} {l : L}
    (hrunning : s.status i = .running l) : did i l s.committed (s.view i) := by
  by_cases hwriter : ∃ d, s.writer = some (i, d)
  · obtain ⟨d, hwriter⟩ := hwriter
    rw [State.view_of_writer hwriter]
    exact h.inside i d l hwriter hrunning
  · have hne : ∀ d, s.writer ≠ some (i, d) := fun d hd => hwriter ⟨d, hd⟩
    rw [State.view_of_ne hne]
    exact (ht i).start (h.outside i l hrunning hne)

/-- A session that ends leaves the others alone, unless it commits what they do not see. -/
theorem release (h : Tracked out did s) {i : ι} {status : Status L O} {d : D} (hstatus : ∀ l, status ≠ .running l)
    (hd : d = s.committed ∨ s.locked i = false) :
    Tracked out did { (s.setStatus i status).release i with committed := d } := by
  refine ⟨fun j l hrunning hne => ?_, fun j d' l hwriter hrunning => ?_⟩
  all_goals
    change Function.update s.status i status j = _ at hrunning
    have hj : j ≠ i := by
      intro hj
      rw [hj, Function.update_self] at hrunning
      exact hstatus l hrunning
    rw [Function.update_of_ne hj] at hrunning
  · refine h.outside j l hrunning fun d' hd' => hne d' ?_
    show s.writer.filter _ = _
    rw [hd', Option.filter_some, if_pos (by simpa using hj)]
  · change s.writer.filter _ = _ at hwriter
    obtain ⟨hwriter, -⟩ := Option.filter_eq_some_iff.1 hwriter
    have hcommitted : d = s.committed := by
      refine hd.resolve_right fun hfree => ?_
      unfold State.locked at hfree
      rw [hwriter] at hfree
      exact hj (by simpa using hfree)
    have hdid := h.inside j d' l hwriter hrunning
    rw [← hcommitted] at hdid
    exact hdid

theorem step (ht : ∀ i, Tracks (act i) (out i) (did i)) (h : Tracked out did s) (e : Event ι) :
    Tracked out did (s.step act e) := by
  cases e with
  | abandon i =>
    unfold State.step
    dsimp only
    cases hstatus : s.status i with
    | running l => exact h.release (fun l hl => by cases hl) (.inl rfl)
    | ended outcome => exact h
    | abandoned => exact h
  | next i =>
    unfold State.step
    dsimp only
    cases hstatus : s.status i with
    | ended outcome => exact h
    | abandoned => exact h
    | running l =>
      dsimp only
      have hview := h.view ht hstatus
      cases hact : act i l with
      | commit outcome =>
        refine h.release (fun l hl => by cases hl) ?_
        by_cases hwriter : ∃ d, s.writer = some (i, d)
        · obtain ⟨d, hwriter⟩ := hwriter
          exact .inr (State.locked_of_writer hwriter)
        · exact .inl (State.view_of_ne fun d hd => hwriter ⟨d, hd⟩)
      | rollback outcome => exact h.release (fun l hl => by cases hl) (.inl rfl)
      | read next =>
        refine ⟨fun j l' hrunning hne => ?_, fun j d l' hwriter hrunning => ?_⟩
        all_goals
          change Function.update s.status i _ j = _ at hrunning
          by_cases hj : j = i
        · subst hj
          rw [Function.update_self] at hrunning
          cases hrunning
          exact (ht j).read_out (h.outside j l hstatus hne) hact
        · rw [Function.update_of_ne hj] at hrunning
          exact h.outside j l' hrunning hne
        · subst hj
          rw [Function.update_self] at hrunning
          cases hrunning
          have hd : s.view j = d := State.view_of_writer hwriter
          rw [hd]
          exact (ht j).read (h.inside j d l hwriter hstatus) hact
        · rw [Function.update_of_ne hj] at hrunning
          exact h.inside j d l' hwriter hrunning
      | write run =>
        show Tracked out did (if s.locked i then s else _)
        split
        · exact h
        rename_i hlocked
        refine ⟨fun j l' hrunning hne => ?_, fun j d l' hwriter hrunning => ?_⟩
        all_goals change Function.update s.status i _ j = _ at hrunning
        · have hj : j ≠ i := by
            rintro rfl
            exact hne _ rfl
          rw [Function.update_of_ne hj] at hrunning
          refine h.outside j l' hrunning fun d hd => hlocked ?_
          unfold State.locked
          rw [hd]
          simpa using hj
        · cases hwriter
          rw [Function.update_self] at hrunning
          cases hrunning
          exact (ht i).write hview hact

theorem run (ht : ∀ i, Tracks (act i) (out i) (did i)) (h : Tracked out did s) (events : List (Event ι)) :
    Tracked out did (s.run act events) := by
  induction events generalizing s with
  | nil => exact h
  | cons e events ih => exact ih (h.step ht e)

/-- Every step commits what one session has done, or nothing. -/
theorem committed (ht : ∀ i, Tracks (act i) (out i) (did i)) (h : Tracked out did s) (e : Event ι) :
    Committed act did s e (s.step act e) := by
  have hself : Committed act did s e s := .nothing rfl (fun i outcome hended => .inl hended) fun i outcome hended =>
    hended
  have hupdate : ∀ {s' : State ι D L O} {i : ι} {l : L} {status : Status L O}, s.status i = .running l →
      s'.status = Function.update s.status i status → s'.committed = s.committed →
      (∀ outcome, status = .ended outcome → act i l = .rollback outcome) → Committed act did s e s' := by
    intro s' i l status hrunning hstatus hcommitted hends
    refine .nothing hcommitted (fun j outcome hended => ?_) fun j outcome hended => ?_
    · rw [hstatus] at hended
      by_cases hj : j = i
      · subst hj
        rw [Function.update_self] at hended
        exact .inr ⟨l, hrunning, hends outcome hended⟩
      · rw [Function.update_of_ne hj] at hended
        exact .inl hended
    · have hj : j ≠ i := by
        rintro rfl
        rw [hrunning] at hended
        cases hended
      rw [hstatus, Function.update_of_ne hj]
      exact hended
  cases e with
  | abandon i =>
    unfold State.step
    dsimp only
    cases hstatus : s.status i with
    | running l => exact hupdate hstatus rfl rfl fun outcome houtcome => by cases houtcome
    | ended outcome => exact hself
    | abandoned => exact hself
  | next i =>
    unfold State.step
    dsimp only
    cases hstatus : s.status i with
    | ended outcome => exact hself
    | abandoned => exact hself
    | running l =>
      dsimp only
      cases hact : act i l with
      | read next => exact hupdate hstatus rfl rfl fun outcome houtcome => by cases houtcome
      | write run =>
        show Committed act did s (.next i) (if s.locked i then s else _)
        split
        · exact hself
        · exact hupdate hstatus rfl rfl fun outcome houtcome => by cases houtcome
      | commit outcome => exact .commit rfl hstatus hact rfl (h.view ht hstatus)
      | rollback outcome =>
        refine hupdate hstatus rfl rfl fun outcome' houtcome => ?_
        cases houtcome
        exact hact

end Tracked

end

end Sessions

import Mathlib.Data.Fintype.Basic
import Mathlib.Data.List.Nodup
import Mathlib.Logic.Function.Basic
import Mathlib.Tactic.Common

/-!
# Programs that replace a shared file

Processes load a file and replace it as a whole, some of them inside a lock, which also protects a second file.  A save
is undisturbed when the file is still what the process has loaded.  Programs that edit the file without the lock, and
spare the part of it that the locked programs write, come to what they come to one after the other, as long as every
save is undisturbed (`serialized_of_undisturbed`); locked programs do not disturb each other (`undisturbed_of_locked`).
-/

namespace SharedFile

/-- What is left of a program. -/
inductive Program (D P R : Type)
  | done (result : R)
  | load (next : D → Program D P R)
  | save (file : D) (next : Program D P R)
  | loadSide (next : P → Program D P R)
  | saveSide (side : P) (next : Program D P R)
  | acquire (next : Program D P R)
  | release (next : Program D P R)

/-- The shared file, and the one beside it. -/
structure Files (D P : Type) where
  main : D
  side : P

structure State (ι D P R : Type) where
  files : Files D P
  lock : Option ι
  program : ι → Program D P R
  /-- What a process has loaded last. -/
  loaded : ι → D

namespace Program

variable {D P R S : Type}

def bind : Program D P R → (R → Program D P S) → Program D P S
  | .done result, k => k result
  | .load next, k => .load fun d => (next d).bind k
  | .save file next, k => .save file (next.bind k)
  | .loadSide next, k => .loadSide fun p => (next p).bind k
  | .saveSide side next, k => .saveSide side (next.bind k)
  | .acquire next, k => .acquire (next.bind k)
  | .release next, k => .release (next.bind k)

theorem bind_assoc {T : Type} (program : Program D P R) (k : R → Program D P S) (k' : S → Program D P T) :
    (program.bind k).bind k' = program.bind fun result => (k result).bind k' := by
  induction program with
  | done result => rfl
  | load next ih => exact congrArg Program.load (funext ih)
  | save file next ih => exact congrArg (Program.save file) ih
  | loadSide next ih => exact congrArg Program.loadSide (funext ih)
  | saveSide side next ih => exact congrArg (Program.saveSide side) ih
  | acquire next ih => exact congrArg Program.acquire ih
  | release next ih => exact congrArg Program.release ih

/-- The program runs alone. -/
def exec : Program D P R → Files D P → Files D P × R
  | .done result, files => (files, result)
  | .load next, files => (next files.main).exec files
  | .save file next, files => next.exec { files with main := file }
  | .loadSide next, files => (next files.side).exec files
  | .saveSide side next, files => next.exec { files with side := side }
  | .acquire next, files => next.exec files
  | .release next, files => next.exec files

end Program

section

variable {ι D P R : Type} [DecidableEq ι]

namespace State

/-- The next operation of the process; one that wants the lock waits while another has it. -/
def step (s : State ι D P R) (i : ι) : State ι D P R :=
  match s.program i with
  | .done _ => s
  | .load next =>
    { s with program := Function.update s.program i (next s.files.main),
             loaded := Function.update s.loaded i s.files.main }
  | .save file next =>
    { s with files := { s.files with main := file }, program := Function.update s.program i next }
  | .loadSide next => { s with program := Function.update s.program i (next s.files.side) }
  | .saveSide side next =>
    { s with files := { s.files with side := side }, program := Function.update s.program i next }
  | .acquire next =>
    if s.lock = none then { s with lock := some i, program := Function.update s.program i next } else s
  | .release next => { s with lock := none, program := Function.update s.program i next }

def run (s : State ι D P R) (turns : List ι) : State ι D P R := turns.foldl step s

/-- If the process is about to replace the file, the file is what it has loaded. -/
def Undisturbed (s : State ι D P R) (i : ι) : Prop :=
  ∀ file next, s.program i = .save file next → s.loaded i = s.files.main

def UndisturbedRun (s : State ι D P R) : List ι → Prop
  | [] => True
  | i :: turns => s.Undisturbed i ∧ UndisturbedRun (s.step i) turns

def Finished (s : State ι D P R) : Prop := ∀ i, ∃ result, s.program i = .done result

end State

/-- Nothing has been done. -/
def start (programs : ι → Program D P R) (files : Files D P) : State ι D P R :=
  ⟨files, none, programs, fun _ => files.main⟩

/-- The programs run one after the other: the files after it, and the results. -/
def serial (programs : ι → Program D P R) (files : Files D P) (order : List ι) : Files D P × List (ι × R) :=
  order.foldl (fun acc i => (((programs i).exec acc.1).1, acc.2 ++ [(i, ((programs i).exec acc.1).2)])) (files, [])

/-- What the programs have come to, they come to one after the other, in some order. -/
def Serialized (programs : ι → Program D P R) (files : Files D P) (s : State ι D P R) : Prop :=
  ∃ order : List ι, order.Nodup ∧ (∀ i, i ∈ order) ∧ (serial programs files order).1 = s.files ∧
    ∀ i result, s.program i = .done result → (i, result) ∈ (serial programs files order).2

omit [DecidableEq ι] in
private theorem serial_append_singleton (programs : ι → Program D P R) (files : Files D P) (order : List ι) (i : ι) :
    serial programs files (order ++ [i]) =
      (((programs i).exec (serial programs files order).1).1,
        (serial programs files order).2 ++ [(i, ((programs i).exec (serial programs files order).1).2)]) := by
  unfold serial
  rw [List.foldl_append]
  rfl

/-! ### Programs that hold the lock -/

/-- A program that holds the lock saves only what it has just loaded; `clean` says that it has saved nothing since. -/
inductive Careful : Bool → Program D P R → Prop
  | release {clean : Bool} {result : R} : Careful clean (.release (.done result))
  | load {clean : Bool} {next : D → Program D P R} (h : ∀ d, Careful true (next d)) : Careful clean (.load next)
  | save {file : D} {next : Program D P R} (h : Careful false next) : Careful true (.save file next)
  | loadSide {clean : Bool} {next : P → Program D P R} (h : ∀ p, Careful clean (next p)) :
    Careful clean (.loadSide next)
  | saveSide {clean : Bool} {side : P} {next : Program D P R} (h : Careful clean next) :
      Careful clean (.saveSide side next)

/-- Does everything inside the lock. -/
def Locked (program : Program D P R) : Prop :=
  (∃ body, program = .acquire body ∧ Careful false body) ∨ ∃ result, program = .done result

/-- Every process is before its lock, or holds it, or has ended. -/
structure Exclusive (s : State ι D P R) : Prop where
  holder : ∀ i, s.lock = some i → ∃ clean, Careful clean (s.program i) ∧ (clean = true → s.loaded i = s.files.main)
  others : ∀ i, s.lock ≠ some i → Locked (s.program i)

variable {s : State ι D P R} {i : ι}

omit [DecidableEq ι] in
private theorem Exclusive.undisturbed (h : Exclusive s) (i : ι) : s.Undisturbed i := by
  intro file next hsave
  by_cases hlock : s.lock = some i
  · obtain ⟨clean, hcareful, hloaded⟩ := h.holder i hlock
    rw [hsave] at hcareful
    cases hcareful with
    | save _ => exact hloaded rfl
  · rcases h.others i hlock with ⟨body, hbody, -⟩ | ⟨result, hresult⟩
    · rw [hsave] at hbody
      cases hbody
    · rw [hsave] at hresult
      cases hresult

theorem Exclusive.step (h : Exclusive s) (i : ι) : Exclusive (s.step i) := by
  by_cases hlock : s.lock = some i
  · obtain ⟨clean, hcareful, hloaded⟩ := h.holder i hlock
    -- the holder goes on, and the others stay where they are
    have hnext : ∀ {s' : State ι D P R} {next : Program D P R}, s'.lock = s.lock →
        s'.program = Function.update s.program i next →
        (∃ clean, Careful clean next ∧ (clean = true → s'.loaded i = s'.files.main)) → Exclusive s' := by
      intro s' next hlock' hprogram hnext
      refine ⟨fun j hj => ?_, fun j hj => ?_⟩
      · rw [hlock', hlock] at hj
        cases hj
        rw [hprogram, Function.update_self]
        exact hnext
      · rw [hlock'] at hj
        have hji : j ≠ i := by
          rintro rfl
          exact hj hlock
        rw [hprogram, Function.update_of_ne hji]
        exact h.others j hj
    unfold State.step
    cases hprogram : s.program i with
    | done result => exact h
    | acquire next =>
      rw [hprogram] at hcareful
      cases hcareful
    | load next =>
      rw [hprogram] at hcareful
      cases hcareful with
      | load hcareful => exact hnext rfl rfl ⟨true, hcareful _, fun _ => Function.update_self ..⟩
    | save file next =>
      rw [hprogram] at hcareful
      cases hcareful with
      | save hcareful => exact hnext rfl rfl ⟨false, hcareful, fun hclean => by cases hclean⟩
    | loadSide next =>
      rw [hprogram] at hcareful
      cases hcareful with
      | loadSide hcareful => exact hnext rfl rfl ⟨clean, hcareful _, hloaded⟩
    | saveSide side next =>
      rw [hprogram] at hcareful
      cases hcareful with
      | saveSide hcareful => exact hnext rfl rfl ⟨clean, hcareful, hloaded⟩
    | release next =>
      rw [hprogram] at hcareful
      cases hcareful with
      | @release _ result =>
        refine ⟨fun j hj => (by cases hj), fun j _ => ?_⟩
        by_cases hji : j = i
        · subst hji
          exact .inr ⟨result, Function.update_self ..⟩
        · show Locked (Function.update s.program i _ j)
          rw [Function.update_of_ne hji]
          refine h.others j fun hj => hji ?_
          rw [hlock] at hj
          exact (Option.some.inj hj).symm
  · rcases h.others i hlock with ⟨body, hbody, hcareful⟩ | ⟨result, hresult⟩
    · unfold State.step
      rw [hbody]
      dsimp only
      by_cases hfree : s.lock = none
      · rw [if_pos hfree]
        refine ⟨fun j hj => ?_, fun j hj => ?_⟩
        · cases hj
          refine ⟨false, ?_, fun hclean => (by cases hclean)⟩
          show Careful false (Function.update s.program i body i)
          rw [Function.update_self]
          exact hcareful
        · have hji : j ≠ i := by
            rintro rfl
            exact hj rfl
          show Locked (Function.update s.program i body j)
          rw [Function.update_of_ne hji]
          exact h.others j (by rw [hfree]; simp)
      · rw [if_neg hfree]
        exact h
    · unfold State.step
      rw [hresult]
      exact h

/-- Programs that do everything inside the lock do not disturb each other. -/
theorem undisturbed_of_locked {programs : ι → Program D P R} (h : ∀ i, Locked (programs i)) (files : Files D P)
    (turns : List ι) : (start programs files).UndisturbedRun turns := by
  have hrun : ∀ (turns : List ι) {s : State ι D P R}, Exclusive s → s.UndisturbedRun turns := by
    intro turns
    induction turns with
    | nil => exact fun _ => trivial
    | cons i turns ih => exact fun hs => ⟨hs.undisturbed i, ih (hs.step i)⟩
  refine hrun turns ⟨fun i hi => ?_, fun i _ => h i⟩
  cases hi

/-! ### One part of the file -/

end

/-- A valid file has contents, and the contents have a part of their own. -/
structure Part (D C M : Type) where
  /-- The contents of a valid file. -/
  view : D → Option C
  file : C → D
  put : C → M → C
  view_file : ∀ c, view (file c) = some c
  put_put : ∀ c m m', put (put c m) m' = put c m'

namespace Part

variable {D C M P R : Type} (part : Part D C M)

/-- Loads the file and replaces it, unless there is nothing to save. -/
def edit (f : D → Option C × R) : Program D P R :=
  .load fun d =>
    match f d with
    | (some c, result) => .save (part.file c) (.done result)
    | (none, result) => .done result

/-- What the edit does to a valid file, it does to the file with another part. -/
def Spares (f : D → Option C × R) : Prop :=
  ∀ d c m, part.view d = some c → f (part.file (part.put c m)) = ((f d).1.map (part.put · m), (f d).2)

/-- The last part that is saved. -/
def write (m : Option M) (d : D) : D :=
  match m, part.view d with
  | some m, some c => part.file (part.put c m)
  | _, _ => d

/-- What a program inside the lock will save of the part and of the other file, and its result; `c` is what it has
loaded, `p` the other file. -/
inductive Will : P → C → Program D P R → Option M → Option P → R → Prop
  | release {p : P} {c : C} {result : R} : Will p c (.release (.done result)) none none result
  | load {p : P} {c : C} {next : D → Program D P R} {m : Option M} {q : Option P} {result : R}
      (h : ∀ d c', part.view d = some c' → Will p c' (next d) m q result) : Will p c (.load next) m q result
  | save {p : P} {c : C} {m' : M} {next : Program D P R} {m : Option M} {q : Option P} {result : R}
      (h : ∀ c', Will p c' next m q result) :
      Will p c (.save (part.file (part.put c m')) next) (some (m.getD m')) q result
  | loadSide {p : P} {c : C} {next : P → Program D P R} {m : Option M} {q : Option P} {result : R}
      (h : Will p c (next p) m q result) : Will p c (.loadSide next) m q result
  | saveSide {p p' : P} {c : C} {next : Program D P R} {m : Option M} {q : Option P} {result : R}
      (h : Will p' c next m q result) : Will p c (.saveSide p' next) m (some (q.getD p')) result

/-- A program that raises at once, one that edits the file and spares the part, or one that writes the part inside the
lock. -/
inductive Fits : Program D P R → Prop
  | done (result : R) : Fits (.done result)
  | edit {f : D → Option C × R} (h : part.Spares f) : Fits (part.edit f)
  | locked {next : D → Program D P R} (invalid : ∀ d, part.view d = none → ∃ result, next d = .release (.done result))
      (valid : ∀ d c p, part.view d = some c → ∃ m q result, part.Will p c (next d) m q result) :
      Fits (.acquire (.load next))

variable {part} {m : Option M} {c : C} {d : D}

private theorem write_of_view (h : part.view d = some c) (y : M) :
    part.write (some y) d = part.file (part.put c y) := by
  unfold write
  rw [h]

@[simp] theorem write_none (d : D) : part.write none d = d := by
  unfold write
  split <;> first | rfl | contradiction

/-- Saving a part that is saved again. -/
private theorem write_write (h : part.view d = some c) (m : Option M) (y : M) :
    part.write m (part.file (part.put c y)) = part.write (some (m.getD y)) d := by
  rw [write_of_view h]
  cases m with
  | none => rw [write_none, Option.getD_none]
  | some y' => rw [write_of_view (part.view_file _), part.put_put, Option.getD_some]

/-- The program runs alone. -/
private theorem Will.exec {p : P} {program : Program D P R} {q : Option P} {result : R}
    (h : part.Will p c program m q result)
    (hview : part.view d = some c) : program.exec ⟨d, p⟩ = (⟨part.write m d, q.getD p⟩, result) := by
  induction h generalizing d with
  | release => rw [write_none]; rfl
  | load h ih => exact ih d _ hview hview
  | @save p c m' next m q result h ih =>
    show next.exec ⟨part.file (part.put c m'), p⟩ = _
    rw [ih _ (part.view_file _), write_write hview]
  | loadSide h ih => exact ih hview
  | saveSide h ih =>
    rw [Option.getD_some]
    exact ih hview

/-- The program will go on, so it is not done. -/
private theorem Will.ne_done {p : P} {program : Program D P R} {q : Option P} {result : R}
    (h : part.Will p c program m q result) (r : R) : program ≠ .done r := by
  cases h <;> simp

private theorem Spares.exec_edit {f : D → Option C × R} (h : part.Spares f) (hm : m = none ∨ ∃ c, part.view d = some c)
    {p : P} :
    (part.edit f : Program D P R).exec ⟨part.write m d, p⟩ =
      (⟨part.write m ((f d).1.elim d part.file), p⟩, (f d).2) := by
  have hexec : ∀ d' : D, (part.edit f : Program D P R).exec ⟨d', p⟩ = (⟨(f d').1.elim d' part.file, p⟩, (f d').2) := by
    intro d'
    show Program.exec (match f d' with
      | (some c, result) => .save (part.file c) (.done result)
      | (none, result) => .done result) _ = _
    obtain ⟨saved, result⟩ := f d'
    cases saved <;> rfl
  rw [hexec]
  cases m with
  | none => rw [write_none, write_none]
  | some y =>
    obtain ⟨c, hview⟩ := hm.resolve_left (by simp)
    rw [write_of_view hview, h d c y hview]
    cases (f d).1 with
    | none =>
      show ((⟨part.file (part.put c y), p⟩, (f d).2) : Files D P × R) = _
      rw [Option.elim_none, write_of_view hview]
    | some c' =>
      show ((⟨part.file (part.put c' y), p⟩, (f d).2) : Files D P × R) = _
      rw [Option.elim_some, write_of_view (part.view_file c')]

/-! ### The programs, one after the other -/

variable {ι : Type} [DecidableEq ι]

/-- How far a process has come.  Those in the order have come to what they come to in it: an edit when it saves, or when
it has nothing to save, and a program inside the lock when it has loaded the file. -/
inductive Stage (part : Part D C M) (programs : ι → Program D P R) (order : List ι) (acc : Files D P × List (ι × R))
    (s : State ι D P R) (i : ι) : Prop
  | waiting (program : s.program i = programs i) (out : i ∉ order) (free : s.lock ≠ some i)
  | editing {f : D → Option C × R} {c : C} {result : R} (spares : part.Spares f) (edits : programs i = part.edit f)
      (program : s.program i = .save (part.file c) (.done result)) (edited : f (s.loaded i) = (some c, result))
      (out : i ∉ order) (free : s.lock ≠ some i)
  | entered {next : D → Program D P R} (locks : programs i = .acquire (.load next)) (program : s.program i = .load next)
      (out : i ∉ order) (holds : s.lock = some i)
  | inside {m : Option M} {q : Option P} {result : R} (mem : i ∈ order) (holds : s.lock = some i)
      (returned : (i, result) ∈ acc.2) (files : acc.1 = ⟨part.write m s.files.main, q.getD s.files.side⟩)
      (rest : (∃ c c', part.view (s.loaded i) = some c ∧ part.view s.files.main = some c' ∧
          part.Will s.files.side c (s.program i) m q result) ∨
        s.program i = .release (.done result) ∧ m = none ∧ q = none)
  | ended {result : R} (program : s.program i = .done result) (mem : i ∈ order) (returned : (i, result) ∈ acc.2)
      (free : s.lock ≠ some i)

/-- The state is that of the programs in the order, one after the other, but for what the process inside the lock will
still save. -/
structure Simulates (part : Part D C M) (programs : ι → Program D P R) (files : Files D P) (order : List ι)
    (s : State ι D P R) : Prop where
  nodup : order.Nodup
  stage : ∀ i, Stage part programs order (serial programs files order) s i
  balanced : (∀ i, s.lock = some i → i ∉ order) → (serial programs files order).1 = s.files

section

variable {programs : ι → Program D P R} {files : Files D P} {order order' : List ι}
    {acc acc' : Files D P × List (ι × R)}
  {s s' : State ι D P R} {i j : ι}

omit [DecidableEq ι] in
/-- A process that has no lock stays where it is. -/
private theorem Stage.of_free (h : Stage part programs order acc s j) (hprogram : s'.program j = s.program j)
    (hloaded : s'.loaded j = s.loaded j) (hfree : s.lock ≠ some j) (hfree' : s'.lock ≠ some j)
    (horder : j ∈ order' ↔ j ∈ order) (hresults : ∀ x ∈ acc.2, x ∈ acc'.2) : Stage part programs order' acc' s' j := by
  cases h with
  | waiting program out free => exact .waiting (hprogram.trans program) (fun hj => out (horder.1 hj)) hfree'
  | editing spares edits program edited out free =>
    exact .editing spares edits (hprogram.trans program) (by rw [hloaded]; exact edited) (fun hj => out (horder.1 hj))
      hfree'
  | entered locks program out holds => exact absurd holds hfree
  | inside mem holds returned hfiles rest => exact absurd holds hfree
  | ended program mem returned free => exact .ended (hprogram.trans program) (horder.2 mem) (hresults _ returned) hfree'

omit [DecidableEq ι] in
/-- What a process does outside the lock leaves the others where they are. -/
private theorem Stage.of_outside (h : Stage part programs order acc s j) (hprogram : s'.program j = s.program j)
    (hloaded : s'.loaded j = s.loaded j) (hlock : s'.lock = s.lock) (hside : s'.files.side = s.files.side)
    (hvalid : ∀ c, part.view s.files.main = some c → ∃ c', part.view s'.files.main = some c')
    (hfiles : ∀ m, m = none ∨ (∃ c, part.view s.files.main = some c) → ∀ p, acc.1 = ⟨part.write m s.files.main, p⟩ →
      acc'.1 = ⟨part.write m s'.files.main, p⟩)
    (horder : j ∈ order' ↔ j ∈ order) (hresults : ∀ x ∈ acc.2, x ∈ acc'.2) : Stage part programs order' acc' s' j := by
  by_cases hfree : s.lock ≠ some j
  · exact h.of_free hprogram hloaded hfree (by rw [hlock]; exact hfree) horder hresults
  cases h with
  | waiting program out free => exact absurd free hfree
  | editing spares edits program edited out free => exact absurd free hfree
  | ended program mem returned free => exact absurd free hfree
  | entered locks program out holds =>
    exact .entered locks (hprogram.trans program) (fun hj => out (horder.1 hj)) (hlock.trans holds)
  | inside mem holds returned hacc rest =>
    rcases rest with ⟨c, c', hseen, hview, hwill⟩ | ⟨hrelease, rfl, rfl⟩
    · obtain ⟨c'', hview'⟩ := hvalid c' hview
      refine .inside (horder.2 mem) (hlock.trans holds) (hresults _ returned) ?_
        (.inl ⟨c, c'', by rw [hloaded]; exact hseen, hview', by rw [hprogram, hside]; exact hwill⟩)
      rw [hside]
      exact hfiles _ (.inr ⟨c', hview⟩) _ hacc
    · refine .inside (horder.2 mem) (hlock.trans holds) (hresults _ returned) ?_
        (.inr ⟨hprogram.trans hrelease, rfl, rfl⟩)
      rw [hside]
      exact hfiles _ (.inl rfl) _ hacc

omit [DecidableEq ι] in
/-- What is to come of the file, as the one inside the lock leaves it. -/
private theorem Simulates.main (h : Simulates part programs files order s) :
    ∃ m p, (m = none ∨ ∃ c, part.view s.files.main = some c) ∧
      (serial programs files order).1 = ⟨part.write m s.files.main, p⟩ := by
  by_cases hlock : ∀ i, s.lock = some i → i ∉ order
  · refine ⟨none, s.files.side, .inl rfl, ?_⟩
    rw [write_none]
    exact h.balanced hlock
  · push Not at hlock
    obtain ⟨i, hholds, hmem⟩ := hlock
    cases h.stage i with
    | waiting _ _ free => exact absurd hholds free
    | editing _ _ _ _ _ free => exact absurd hholds free
    | entered _ _ out _ => exact absurd hmem out
    | ended _ _ _ free => exact absurd hholds free
    | inside _ _ _ hfiles rest =>
      rcases rest with ⟨c, c', -, hview, -⟩ | ⟨-, rfl, rfl⟩
      · exact ⟨_, _, .inr ⟨c', hview⟩, hfiles⟩
      · exact ⟨_, _, .inl rfl, hfiles⟩

omit [DecidableEq ι] in
private theorem mem_append_singleton_of_ne (h : j ≠ i) : j ∈ order ++ [i] ↔ j ∈ order := by
  simp [h]

omit [DecidableEq ι] in
private theorem nodup_append_singleton (h : order.Nodup) (hout : i ∉ order) : (order ++ [i]).Nodup := by
  rw [← List.concat_eq_append]
  exact h.concat hout

/-- An edit that has nothing to save, or that saves what it has made of the file. -/
private theorem Simulates.edit (h : Simulates part programs files order s) {f : D → Option C × R}
    (hspares : part.Spares f) (hedits : programs i = part.edit f) (hout : i ∉ order) (hfree : s.lock ≠ some i)
    (hprogram : s'.program = Function.update s.program i (.done (f s.files.main).2))
    (hloaded : ∀ j, j ≠ i → s'.loaded j = s.loaded j) (hlock : s'.lock = s.lock)
    (hsaved : s'.files = ⟨(f s.files.main).1.elim s.files.main part.file, s.files.side⟩) :
    Simulates part programs files (order ++ [i]) s' := by
  have hexec : ∀ m, m = none ∨ (∃ c, part.view s.files.main = some c) → ∀ p,
      (serial programs files order).1 = ⟨part.write m s.files.main, p⟩ →
      serial programs files (order ++ [i]) = (⟨part.write m s'.files.main, p⟩,
        (serial programs files order).2 ++ [(i, (f s.files.main).2)]) := by
    intro m hm p hacc
    rw [serial_append_singleton, hedits, hacc, hspares.exec_edit hm, hsaved]
  obtain ⟨m, p, hm, hacc⟩ := h.main
  have hresults : (serial programs files (order ++ [i])).2 =
      (serial programs files order).2 ++ [(i, (f s.files.main).2)] := by rw [hexec m hm p hacc]
  refine ⟨nodup_append_singleton h.nodup hout, fun j => ?_, fun hbetween => ?_⟩
  · by_cases hj : j = i
    · subst hj
      have hended : s'.program j = .done (f s.files.main).2 := by rw [hprogram, Function.update_self]
      refine .ended hended (by simp) ?_ (by rw [hlock]; exact hfree)
      rw [hresults]
      simp
    · refine (h.stage j).of_outside ?_ (hloaded j hj) hlock (by rw [hsaved]) ?_ ?_ (mem_append_singleton_of_ne hj) ?_
      · rw [hprogram, Function.update_of_ne hj]
      · intro c hview
        rw [hsaved]
        cases (f s.files.main).1 with
        | none => exact ⟨c, hview⟩
        | some c' => exact ⟨c', part.view_file c'⟩
      · intro m hm p hacc
        rw [hexec m hm p hacc]
      · intro x hx
        rw [hresults]
        exact List.mem_append_left _ hx
  · have hbalanced := h.balanced fun j hj hmem => by
      refine hbetween j (hlock.trans hj) ?_
      exact List.mem_append_left _ hmem
    have hnone : (serial programs files order).1 = ⟨part.write none s.files.main, s.files.side⟩ := by
      rw [hbalanced, write_none]
    rw [hexec none (.inl rfl) _ hnone, write_none, hsaved]

/-- Nothing happens but that a process outside the lock goes on. -/
private theorem Simulates.quiet (h : Simulates part programs files order s) (hfiles : s'.files = s.files)
    (hlock : s'.lock = s.lock)
    (hprogram : ∀ j, j ≠ i → s'.program j = s.program j) (hloaded : ∀ j, j ≠ i → s'.loaded j = s.loaded j)
    (hstage : Stage part programs order (serial programs files order) s' i) :
      Simulates part programs files order s' := by
  refine ⟨h.nodup, fun j => ?_, fun hbetween => ?_⟩
  · by_cases hj : j = i
    · rw [hj]
      exact hstage
    · refine (h.stage j).of_outside (hprogram j hj) (hloaded j hj) hlock (by rw [hfiles]) ?_ ?_ Iff.rfl fun x hx => hx
      · intro c hview
        rw [hfiles]
        exact ⟨c, hview⟩
      · intro m hm p hacc
        rw [hfiles]
        exact hacc
  · rw [hfiles]
    exact h.balanced fun j hj => hbetween j (hlock.trans hj)

/-- The process inside the lock goes on, or leaves. -/
private theorem Simulates.holder (h : Simulates part programs files order s) (hholds : s.lock = some i)
    (hlock : s'.lock = some i ∨ s'.lock = none) (hmem : i ∈ order)
    (hprogram : ∀ j, j ≠ i → s'.program j = s.program j) (hloaded : ∀ j, j ≠ i → s'.loaded j = s.loaded j)
    (hstage : Stage part programs order (serial programs files order) s' i)
    (hbalanced : s'.lock = none → (serial programs files order).1 = s'.files) :
    Simulates part programs files order s' := by
  have hothers : ∀ j, j ≠ i → s'.lock ≠ some j := by
    intro j hj hlock'
    rcases hlock with hlock | hlock
    · rw [hlock] at hlock'
      exact hj (Option.some.inj hlock').symm
    · rw [hlock] at hlock'
      cases hlock'
  refine ⟨h.nodup, fun j => ?_, fun hbetween => ?_⟩
  · by_cases hj : j = i
    · rw [hj]
      exact hstage
    · refine (h.stage j).of_free (hprogram j hj) (hloaded j hj) (fun hj' => hj ?_) (hothers j hj) Iff.rfl fun x hx => hx
      rw [hholds] at hj'
      exact (Option.some.inj hj').symm
  · rcases hlock with hlock | hlock
    · exact absurd hmem (hbetween i hlock)
    · exact hbalanced hlock

/-- An edit loads the file. -/
private theorem Simulates.load (h : Simulates part programs files order s) {f : D → Option C × R}
    (hspares : part.Spares f)
    (hedits : programs i = part.edit f) (hprogram : s.program i = part.edit f) (hout : i ∉ order)
    (hfree : s.lock ≠ some i) : ∃ order', Simulates part programs files order' (s.step i) := by
  have hstep : s.step i =
      { s with program := Function.update s.program i
                 (match f s.files.main with
                   | (some c, result) => .save (part.file c) (.done result)
                   | (none, result) => .done result),
               loaded := Function.update s.loaded i s.files.main } := by
    unfold State.step
    rw [hprogram]
    rfl
  obtain ⟨saved, hsaved⟩ : ∃ saved, (f s.files.main).1 = saved := ⟨_, rfl⟩
  have hpair : f s.files.main = (saved, (f s.files.main).2) := Prod.ext hsaved rfl
  rw [hpair] at hstep
  have hothers : ∀ j, j ≠ i → (s.step i).program j = s.program j ∧ (s.step i).loaded j = s.loaded j := by
    intro j hj
    rw [hstep]
    exact ⟨Function.update_of_ne hj _ _, Function.update_of_ne hj _ _⟩
  cases saved with
  | none =>
    refine ⟨order ++ [i], h.edit hspares hedits hout hfree ?_ (fun j hj => (hothers j hj).2) ?_ ?_⟩
    · rw [hstep]
    · rw [hstep]
    · rw [hstep, hsaved]
      rfl
  | some c =>
    have hnow : (s.step i).program i = .save (part.file c) (.done (f s.files.main).2) := by
      rw [hstep]
      exact Function.update_self ..
    have hloaded : (s.step i).loaded i = s.files.main := by
      rw [hstep]
      exact Function.update_self ..
    have hfiles : (s.step i).files = s.files := by rw [hstep]
    have hlock : (s.step i).lock = s.lock := by rw [hstep]
    refine ⟨order, h.quiet hfiles hlock (fun j hj => (hothers j hj).1) (fun j hj => (hothers j hj).2) ?_⟩
    exact .editing hspares hedits hnow (by rw [hloaded, hpair]) hout (by rw [hlock]; exact hfree)

/-- An edit saves. -/
private theorem Simulates.save (h : Simulates part programs files order s) {f : D → Option C × R} {c : C} {result : R}
    (hspares : part.Spares f) (hedits : programs i = part.edit f)
    (hprogram : s.program i = .save (part.file c) (.done result)) (hedited : f (s.loaded i) = (some c, result))
    (hout : i ∉ order) (hfree : s.lock ≠ some i) (hundisturbed : s.Undisturbed i) :
    Simulates part programs files (order ++ [i]) (s.step i) := by
  have hstep : s.step i =
      { s with
        files := { s.files with main := part.file c },
        program := Function.update s.program i (.done result) } := by
    unfold State.step
    rw [hprogram]
  have hnow : f s.files.main = (some c, result) := by
    rw [← hundisturbed _ _ hprogram]
    exact hedited
  refine h.edit hspares hedits hout hfree ?_ (fun j _ => by rw [hstep]) (by rw [hstep]) ?_
  · rw [hstep, hnow]
  · rw [hstep, hnow]
    rfl

/-- A process that has got the lock loads the file. -/
private theorem Simulates.enter (h : Simulates part programs files order s) {next : D → Program D P R}
    (hfits : part.Fits (programs i)) (hlocks : programs i = .acquire (.load next)) (hprogram : s.program i = .load next)
    (hout : i ∉ order) (hholds : s.lock = some i) : Simulates part programs files (order ++ [i]) (s.step i) := by
  have hstep : s.step i =
      { s with program := Function.update s.program i (next s.files.main),
               loaded := Function.update s.loaded i s.files.main } := by
    unfold State.step
    rw [hprogram]
  have hbalanced : (serial programs files order).1 = s.files := by
    refine h.balanced fun j hj => ?_
    rw [hholds] at hj
    cases hj
    exact hout
  have hserial : serial programs files (order ++ [i]) = (((next s.files.main).exec s.files).1,
      (serial programs files order).2 ++ [(i, ((next s.files.main).exec s.files).2)]) := by
    rw [serial_append_singleton, hlocks, hbalanced]
    rfl
  have hlock : (s.step i).lock = some i := by rw [hstep]; exact hholds
  have hnow : (s.step i).program i = next s.files.main := by rw [hstep]; exact Function.update_self ..
  have hloaded : (s.step i).loaded i = s.files.main := by rw [hstep]; exact Function.update_self ..
  have hfiles : (s.step i).files = s.files := by rw [hstep]
  -- the process is in the order and holds the lock, so nothing is balanced until it leaves
  have hmem : i ∈ order ++ [i] := List.mem_append_right order (List.mem_singleton.2 rfl)
  refine ⟨nodup_append_singleton h.nodup hout, fun j => ?_, fun hbetween => absurd hmem (hbetween i hlock)⟩
  by_cases hj : j = i
  · subst hj
    rw [hlocks] at hfits
    cases hfits with
    | locked invalid valid =>
      cases hview : part.view s.files.main with
      | none =>
        obtain ⟨result, hresult⟩ := invalid _ hview
        have hexec : (next s.files.main).exec s.files = (s.files, result) := by rw [hresult]; rfl
        refine .inside (by simp) hlock ?_ ?_ (.inr ⟨hnow.trans hresult, rfl, rfl⟩)
        · rw [hserial, hexec]
          simp
        · rw [hserial, hexec, write_none, hfiles]
          rfl
      | some c =>
        obtain ⟨m, q, result, hwill⟩ := valid s.files.main c s.files.side hview
        have hexec : (next s.files.main).exec s.files = (⟨part.write m s.files.main, q.getD s.files.side⟩, result) :=
          hwill.exec hview
        have hrest : ∃ c c', part.view ((s.step j).loaded j) = some c ∧ part.view (s.step j).files.main = some c' ∧
            part.Will (s.step j).files.side c ((s.step j).program j) m q result := by
          rw [hloaded, hnow, hfiles]
          exact ⟨c, c, hview, hview, hwill⟩
        refine .inside (by simp) hlock ?_ ?_ (.inl hrest)
        · rw [hserial, hexec]
          simp
        · rw [hserial, hexec, hfiles]
  · refine (h.stage j).of_free ?_ ?_ ?_ ?_ (mem_append_singleton_of_ne hj) ?_
    · rw [hstep]
      exact Function.update_of_ne hj _ _
    · rw [hstep]
      exact Function.update_of_ne hj _ _
    · rw [hholds]
      exact fun heq => hj (Option.some.inj heq).symm
    · rw [hlock]
      exact fun heq => hj (Option.some.inj heq).symm
    · intro x hx
      rw [hserial]
      exact List.mem_append_left _ hx

/-- The process inside the lock has nothing more to save, and leaves. -/
private theorem Simulates.leave (h : Simulates part programs files order s) {result : R} (hmem : i ∈ order)
    (hholds : s.lock = some i) (hreturned : (i, result) ∈ (serial programs files order).2)
    (hacc : (serial programs files order).1 = s.files) :
    Simulates part programs files order
      { s with lock := none, program := Function.update s.program i (.done result) } := by
  refine h.holder hholds (.inr rfl) hmem (fun j hj => Function.update_of_ne hj _ _) (fun _ _ => rfl) ?_ fun _ => hacc
  exact .ended (Function.update_self ..) hmem hreturned fun hlock => by cases hlock

/-- The process inside the lock does what it will do. -/
private theorem Simulates.within (h : Simulates part programs files order s) {c c' : C} {m : Option M} {q : Option P}
    {result : R}
    (hmem : i ∈ order) (hholds : s.lock = some i) (hreturned : (i, result) ∈ (serial programs files order).2)
    (hacc : (serial programs files order).1 = ⟨part.write m s.files.main, q.getD s.files.side⟩)
    (hseen : part.view (s.loaded i) = some c) (hview : part.view s.files.main = some c')
    (hwill : part.Will s.files.side c (s.program i) m q result) (hundisturbed : s.Undisturbed i) :
    Simulates part programs files order (s.step i) := by
  have hgoes : ∀ {s' : State ι D P R} {next : Program D P R} {m' : Option M} {q' : Option P},
      s'.program = Function.update s.program i next → (∀ j, j ≠ i → s'.loaded j = s.loaded j) → s'.lock = some i →
      (serial programs files order).1 = ⟨part.write m' s'.files.main, q'.getD s'.files.side⟩ →
      (∃ c c', part.view (s'.loaded i) = some c ∧ part.view s'.files.main = some c' ∧
        part.Will s'.files.side c next m' q' result) → Simulates part programs files order s' := by
    intro s' next m' q' hprogram hloaded hlock hacc' hrest
    refine h.holder hholds (.inl hlock) hmem (fun j hj => ?_) hloaded ?_ fun hnone => ?_
    · rw [hprogram, Function.update_of_ne hj]
    · refine .inside hmem hlock hreturned hacc' (.inl ?_)
      rw [hprogram, Function.update_self]
      exact hrest
    · rw [hlock] at hnone
      cases hnone
  generalize hprogram : s.program i = program at hwill
  unfold State.step
  rw [hprogram]
  cases hwill with
  | release =>
    refine h.leave hmem hholds hreturned ?_
    rw [hacc, write_none]
    rfl
  | @load _ _ next _ _ _ hnext =>
    refine hgoes rfl (fun j hj => Function.update_of_ne hj _ _) hholds hacc ⟨c', c', ?_, hview, hnext _ c' hview⟩
    show part.view (Function.update s.loaded i s.files.main i) = some c'
    rw [Function.update_self]
    exact hview
  | @save _ _ y next m' _ _ hnext =>
    have hloaded : s.loaded i = s.files.main := hundisturbed _ _ hprogram
    have hmain : part.view s.files.main = some c := by
      rw [← hloaded]
      exact hseen
    refine hgoes rfl (fun _ _ => rfl) hholds ?_ ⟨c, part.put c y, hseen, part.view_file _, hnext c⟩
    rw [hacc]
    show _ = (⟨part.write m' (part.file (part.put c y)), _⟩ : Files D P)
    rw [write_write hmain]
  | loadSide hnext => exact hgoes rfl (fun _ _ => rfl) hholds hacc ⟨c, c', hseen, hview, hnext⟩
  | saveSide hnext =>
    refine hgoes rfl (fun _ _ => rfl) hholds ?_ ⟨c, c', hseen, hview, hnext⟩
    rw [hacc]
    rfl

theorem Simulates.step (hfits : ∀ i, part.Fits (programs i)) (h : Simulates part programs files order s) (i : ι)
    (hundisturbed : s.Undisturbed i) : ∃ order', Simulates part programs files order' (s.step i) := by
  cases h.stage i with
  | waiting program out free =>
    have hfit := hfits i
    rw [← program] at hfit
    generalize hprogram : s.program i = now at hfit
    cases hfit with
    | done result =>
      refine ⟨order, ?_⟩
      unfold State.step
      rw [hprogram]
      exact h
    | edit hspares => exact h.load hspares (by rw [← program, hprogram]) hprogram out free
    | @locked next invalid valid =>
      refine ⟨order, ?_⟩
      unfold State.step
      rw [hprogram]
      dsimp only
      by_cases hfree : s.lock = none
      · rw [if_pos hfree]
        refine ⟨h.nodup, fun j => ?_, fun _ => h.balanced fun j hj => ?_⟩
        · by_cases hj : j = i
          · subst hj
            exact .entered (by rw [← program, hprogram]) (Function.update_self ..) out rfl
          · refine (h.stage j).of_free (Function.update_of_ne hj _ _) rfl ?_ ?_ Iff.rfl fun x hx => hx
            · rw [hfree]
              simp
            · exact fun heq => hj (Option.some.inj heq).symm
        · rw [hfree] at hj
          cases hj
      · rw [if_neg hfree]
        exact h
  | editing spares edits program edited out free =>
    exact ⟨_, h.save spares edits program edited out free hundisturbed⟩
  | entered locks program out holds => exact ⟨_, h.enter (hfits i) locks program out holds⟩
  | inside mem holds returned hacc rest =>
    refine ⟨order, ?_⟩
    rcases rest with ⟨c, c', hseen, hview, hwill⟩ | ⟨hrelease, rfl, rfl⟩
    · exact h.within mem holds returned hacc hseen hview hwill hundisturbed
    · unfold State.step
      rw [hrelease]
      refine h.leave mem holds returned ?_
      rw [hacc, write_none]
      rfl
  | ended program mem returned free =>
    refine ⟨order, ?_⟩
    unfold State.step
    rw [program]
    exact h

omit [DecidableEq ι] in
theorem simulates_start (programs : ι → Program D P R) (files : Files D P) :
    Simulates part programs files [] (start programs files) := by
  refine ⟨List.nodup_nil, fun i => .waiting rfl (by simp) fun hlock => ?_, fun _ => rfl⟩
  cases hlock

theorem Simulates.run (hfits : ∀ i, part.Fits (programs i)) (h : Simulates part programs files order s) {turns : List ι}
    (hundisturbed : s.UndisturbedRun turns) : ∃ order', Simulates part programs files order' (s.run turns) := by
  induction turns generalizing s order with
  | nil => exact ⟨order, h⟩
  | cons i turns ih =>
    obtain ⟨order', h'⟩ := h.step hfits i hundisturbed.1
    exact ih h' hundisturbed.2

omit [DecidableEq ι] in
/-- Programs that have ended at once may be added to the order. -/
private theorem serial_append_done {ended : List ι} {result : ι → R} (h : ∀ i ∈ ended, programs i = .done (result i)) :
    serial programs files (order ++ ended) =
      ((serial programs files order).1, (serial programs files order).2 ++ ended.map fun i => (i, result i)) := by
  induction ended using List.reverseRecOn with
  | nil => simp
  | append_singleton ended i ih =>
    have hi : programs i = .done (result i) := h i (by simp)
    rw [← List.append_assoc, serial_append_singleton, ih fun j hj => h j (List.mem_append_left _ hj), hi]
    simp [Program.exec]

omit [DecidableEq ι] in
/-- A process that has ended is outside the lock, and is in the order unless it had nothing to do. -/
private theorem Stage.of_done {result : R} (h : Stage part programs order acc s i)
    (hdone : s.program i = .done result) :
    (i ∈ order ∧ (i, result) ∈ acc.2 ∨ i ∉ order ∧ programs i = .done result) ∧ s.lock ≠ some i := by
  cases h with
  | waiting program out free => exact ⟨.inr ⟨out, program.symm.trans hdone⟩, free⟩
  | editing _ _ program _ _ _ =>
    rw [hdone] at program
    cases program
  | entered _ program _ _ =>
    rw [hdone] at program
    cases program
  | inside _ _ _ _ rest =>
    rcases rest with ⟨c, c', -, -, hwill⟩ | ⟨hrelease, -, -⟩
    · exact absurd hdone (hwill.ne_done _)
    · rw [hdone] at hrelease
      cases hrelease
  | ended program mem returned free =>
    rw [hdone] at program
    cases program
    exact ⟨.inl ⟨mem, returned⟩, free⟩

/-- When every process has ended, all have come to what they come to one after the other. -/
theorem Simulates.serialized [Fintype ι] (h : Simulates part programs files order s) (hfinished : s.Finished) :
    Serialized programs files s := by
  choose result hresult using hfinished
  have hended := fun i => ((h.stage i).of_done (hresult i)).1
  have hbalanced : (serial programs files order).1 = s.files :=
    h.balanced fun i hholds => absurd hholds ((h.stage i).of_done (hresult i)).2
  classical
  let missing := (Finset.univ.filter fun i => i ∉ order).toList
  have hmissing : ∀ i, i ∈ missing ↔ i ∉ order := by simp [missing]
  have hserial : serial programs files (order ++ missing) =
      ((serial programs files order).1, (serial programs files order).2 ++ missing.map fun i => (i, result i)) :=
    serial_append_done fun i hi => ((hended i).resolve_left fun hin => (hmissing i).1 hi hin.1).2
  refine ⟨order ++ missing, ?_, fun i => ?_, ?_, fun i r hr => ?_⟩
  · rw [List.nodup_append]
    refine ⟨h.nodup, Finset.nodup_toList _, fun i hi j hj heq => ?_⟩
    rw [heq] at hi
    exact (hmissing j).1 hj hi
  · rw [List.mem_append, hmissing]
    exact em _
  · rw [hserial]
    exact hbalanced
  · rw [hresult i] at hr
    cases hr
    rw [hserial, List.mem_append]
    rcases hended i with ⟨-, hreturned⟩ | ⟨hout, -⟩
    · exact .inl hreturned
    · exact .inr (List.mem_map.2 ⟨i, (hmissing i).2 hout, rfl⟩)

/-- In a run without a disturbed save, the programs come to what they come to one after the other. -/
theorem serialized_of_undisturbed [Fintype ι] (hfits : ∀ i, part.Fits (programs i)) (files : Files D P) {turns : List ι}
    (hundisturbed : (start programs files).UndisturbedRun turns)
    (hfinished : ((start programs files).run turns).Finished) :
    Serialized programs files ((start programs files).run turns) := by
  have hstart : Simulates part programs files [] (start programs files) := simulates_start programs files
  obtain ⟨order, h⟩ := hstart.run hfits hundisturbed
  exact h.serialized hfinished

end

end Part

end SharedFile

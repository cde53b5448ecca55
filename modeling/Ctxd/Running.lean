import Ctxd.Entries
import Ctxd.Rows
import Ctxd.Store

/-!
# The state of a store between two operations

`Agrees` is what a store promises: each row has its file, each file its row.  While a submission runs more is known and
less is true (`Running`).  The journal takes the files back to those at the start (`Journaled`), the file of a document
on a cycle of moves is in a temporary place (`parked`), and a document that is moved to the place it already has loses
its file (`lost`).  `V` collects the tree paths at which the submission has taken a file away.

When a step has raised, the rollback succeeds if and only if no directory is in its way (`Failing`).
-/

namespace Ctxd

open Program

/-! ### The journal -/

private theorem BackupOf.mono {n n' : Nat} {d : Disk} {target : Loc} {backup : Option Loc}
    (h : BackupOf n d target backup) (hn : n ≤ n') : BackupOf n' d target backup := by
  cases backup with
  | none => exact h
  | some b =>
    obtain ⟨⟨kind, m, hm, e⟩, hfree, hx⟩ := h
    exact ⟨⟨kind, m, by omega, e⟩, hfree, hx⟩

/-- The callbacks take the files back to those of `d0`, whatever directories an aborted call leaves behind at `q` and
above, if these are in the way of none of them; if they are, the callbacks jam.  The directories that are there are in
the way of none.  A file that no step has placed was there in `d0`, and no step has been at it or above.  The files
that are gone are known. -/
structure Journaled (u : String) (V : Set TreePath) (d0 : Disk) (s : Fs) : Prop where
  nonroot : [] ∉ V
  vacated : ∀ undo ∈ s.undoStack, ∀ p ∈ undo.vacates u, p ∈ V
  legit : ∀ q, s.disk.node ⟨.users u, q⟩ = some .dir → Clears u q s.undoStack
  reverts : ∀ n q, s.uuids ≤ n → Avoids {r | r <:+ q} u s.disk → Clears u q s.undoStack →
    Reverts n {r | r <:+ q} u s.undoStack s.disk d0
  jams : ∀ n q, s.uuids ≤ n → ¬Clears u q s.undoStack → Jams n q u s.undoStack s.disk d0
  kept : ∀ p x, s.disk.file ⟨.users u, p⟩ = some x → (∀ undo ∈ s.undoStack, p ∉ undo.fills u) →
    d0.file ⟨.users u, p⟩ ≠ none ∧ ∀ undo ∈ s.undoStack, undo.Within (Beside u p)
  freed : ∀ p, Freed u p s.undoStack → s.disk.file ⟨.users u, p⟩ = none
  gone : ∀ p ∈ V, s.disk.file ⟨.users u, p⟩ = none → Freed u p s.undoStack
  straight : ¬Misplaces u s.undoStack

/-- No directory in the tree of `u` is in the way of a callback. -/
def Unobstructed (u : String) (s : Fs) : Prop :=
  ∀ q, s.disk.node ⟨.users u, q⟩ = some .dir → Clears u q s.undoStack

/-- It is enough to look at the directories that are listed. -/
private theorem unobstructed_iff {u : String} {s : Fs} : Unobstructed u s ↔
    ∀ l ∈ (⟨.users u, []⟩ : Loc) :: s.disk.nodes.map Prod.fst, l.area = .users u → s.disk.node l = some .dir →
      Clears u l.path s.undoStack := by
  constructor
  · rintro h ⟨a, q⟩ - rfl hdir
    exact h q hdir
  · intro h q hdir
    refine h ⟨.users u, q⟩ ?_ rfl hdir
    by_cases hq : q = []
    · rw [hq]
      exact List.mem_cons_self ..
    · refine List.mem_cons_of_mem _ (Dict.get?_isSome_iff.1 ?_)
      rw [← Disk.node_of_ne_nil s.disk hq, hdir]
      rfl

instance (u : String) (s : Fs) : Decidable (Unobstructed u s) := decidable_of_iff' _ unobstructed_iff

/-- Rolling back from here restores the files of `d0`. -/
def Recoverable (u : String) (d0 : Disk) (s : Fs) : Prop :=
  ∃ T d, Below s.uuids T u d s.disk ∧ Reverts s.uuids T u s.undoStack d d0

/-- Rolling back from here fails, and files of `d0` do not come back. -/
def Jammed (u : String) (d0 : Disk) (s : Fs) : Prop :=
  Ends (runUndos s.undoStack) (fun failed s' => failed = true ∧ (Originals u s.undoStack → Missing u d0 s'.disk))
    (fun _ _ => False) { s with fault := none }

private theorem clears_of_forall {u : String} {q : TreePath} {stack : List Undo}
    (h : ∀ undo ∈ stack, ∀ p ∈ undo.vacates u, ¬p <:+ q) : Clears u q stack := by
  induction stack with
  | nil => exact trivial
  | cons undo rest ih => exact ⟨h undo (by simp), .inr (ih fun undo' hundo' => h undo' (by simp [hundo']))⟩

/-- A directory above one that is in nobody's way is in nobody's way either. -/
private theorem Clears.above {u : String} {q r : TreePath} {stack : List Undo} (h : Clears u q stack) (hr : r <:+ q) :
    Clears u r stack := by
  induction stack with
  | nil => exact trivial
  | cons undo rest ih =>
    obtain ⟨hvacates, hrest⟩ := h
    refine ⟨fun p hp hpr => hvacates p hp (hpr.trans hr), ?_⟩
    rcases hrest with ⟨p, hp, hpq⟩ | hrest
    · exact .inl ⟨p, hp, hr.trans hpq⟩
    · exact .inr (ih hrest)

/-- No directory is at a file or below it. -/
private theorem Disk.WF.not_below_file {d : Disk} (h : d.WF) {a : Area} {p q : TreePath} {x : ByteArray}
    (hx : d.file ⟨a, p⟩ = some x) (hq : d.node ⟨a, q⟩ = some .dir) : ¬p <:+ q := by
  intro hpq
  have hdir : d.node ⟨a, p⟩ = some .dir := by
    by_cases hne : p = q
    · rw [hne]
      exact hq
    · exact h.ancestor (by rw [hq]; rfl) hpq hne
  rw [Disk.file_of_node_dir hdir] at hx
  cases hx

/-- No file is above a file. -/
private theorem Disk.WF.eq_of_below_file {d : Disk} (h : d.WF) {a : Area} {p q : TreePath} {x y : ByteArray}
    (hx : d.file ⟨a, p⟩ = some x) (hy : d.file ⟨a, q⟩ = some y) (hpq : p <:+ q) : p = q := by
  by_contra hne
  have hdir := h.ancestor (p := q) (by rw [Disk.file_eq_some_iff.1 hy]; rfl) hpq hne
  rw [Disk.file_of_node_dir hdir] at hx
  cases hx

namespace Journaled

variable {u : String} {V V' : Set TreePath} {d0 : Disk} {s s' : Fs} {target : Loc} {backup : Option Loc}

theorem start (h : s.undoStack = []) : Journaled u ∅ s.disk s := by
  refine ⟨by simp, ?_, fun q _ => ?_, fun n q _ _ _ => ?_, fun n q _ hc => ?_, fun p x hx _ => ?_, fun p hp => ?_,
    fun p hp => hp.elim, ?_⟩
  · rw [h]
    simp
  · rw [h]
    exact trivial
  · rw [h]
    exact .nil
  · rw [h] at hc
    exact absurd trivial hc
  · rw [h, hx]
    simp
  · rw [h] at hp
    exact hp.elim
  · rw [h]
    exact id

/-- The root is in nobody's way. -/
private theorem clears_root (h : Journaled u V d0 s) : Clears u [] s.undoStack := h.legit [] rfl

private theorem step {undo : Undo} (h : Journaled u V d0 s) (hwf : s'.disk.WF) (huuids : s.uuids ≤ s'.uuids)
    (hstack : s'.undoStack = undo :: s.undoStack)
    (hinv : ∀ n T, s'.uuids ≤ n → Upward T → Avoids T u s.disk → Inverts n T u undo s.disk s'.disk)
    (hblocks : ∀ n, s'.uuids ≤ n → Blocks n u undo s'.disk) (hV : V ⊆ V') (hroot : [] ∉ V')
    (hmem : ∀ p ∈ undo.vacates u, p ∈ V') (hV' : ∀ p ∈ V', p ∈ V ∨ p ∈ undo.vacates u)
    (hheld : ∀ p ∈ undo.vacates u, ∃ x, s.disk.file ⟨.users u, p⟩ = some x)
    (hleft : ∀ p ∈ undo.vacates u, s'.disk.file ⟨.users u, p⟩ = none)
    (hvac : ∀ p x, s.disk.file ⟨.users u, p⟩ = some x → s'.disk.file ⟨.users u, p⟩ = none → p ∈ undo.vacates u)
    (hfills : ∀ p ∈ undo.fills u, ∃ x, s'.disk.file ⟨.users u, p⟩ = some x)
    (hplaced : ∀ p x, s'.disk.file ⟨.users u, p⟩ = some x → p ∉ undo.fills u →
      s.disk.file ⟨.users u, p⟩ = some x ∧ undo.Within (Beside u p))
    (hdirs : ∀ q, s'.disk.node ⟨.users u, q⟩ = some .dir → (∀ p ∈ undo.vacates u, ¬p <:+ q) ∧
      ((∃ p ∈ undo.fills u, q <:+ p.tail) ∨ s.disk.node ⟨.users u, q⟩ = some .dir)) :
    Journaled u V' d0 s' := by
  -- directories that hold no file after the step and keep none from coming back held none before it
  have havoids : ∀ q, Avoids {r | r <:+ q} u s'.disk → (∀ p ∈ undo.vacates u, ¬p <:+ q) →
      Avoids {r | r <:+ q} u s.disk := by
    intro q hav hno p x hx hp
    cases hy : s'.disk.file ⟨.users u, p⟩ with
    | some y => exact hav p y hy hp
    | none => exact hno p (hvac p x hx hy) hp
  have hbase : ∀ n, s'.uuids ≤ n → Reverts n {r | r <:+ []} u (undo :: s.undoStack) s'.disk d0 := fun n hn =>
    .cons (hinv n _ hn (upward_suffixes []) avoids_root) (h.reverts n [] (huuids.trans hn) avoids_root h.clears_root)
  -- what is vacated is left without a file
  have hfreed : ∀ p, Freed u p (undo :: s.undoStack) → s'.disk.file ⟨.users u, p⟩ = none := by
    rintro p (hp | ⟨hno, hfreed⟩)
    · exact hleft p hp
    · by_contra hfile
      obtain ⟨x, hx⟩ := Option.ne_none_iff_exists'.1 hfile
      have hbefore := h.freed p hfreed
      rw [(hplaced p x hx hno).1] at hbefore
      cases hbefore
  refine ⟨hroot, ?_, fun q hq => ?_, fun n q hn hav hc => ?_, fun n q hn hc => ?_, fun p x hx hno => ?_, ?_,
    fun p hp hx => ?_, ?_⟩
  · rw [hstack]
    intro undo' hundo'
    rcases List.mem_cons.1 hundo' with rfl | hundo'
    · exact hmem
    · exact fun p hp => hV (h.vacated undo' hundo' p hp)
  · rw [hstack]
    exact ⟨(hdirs q hq).1, (hdirs q hq).2.imp id (h.legit q)⟩
  · rw [hstack] at hc ⊢
    obtain ⟨hno, ⟨p, hp, hpq⟩ | hrest⟩ := hc
    · obtain ⟨x, hx⟩ := hfills p hp
      exact (hbase n hn).of_absorbed hwf (hwf.dir_above hx hpq)
    · have hav0 := havoids q hav hno
      exact .cons (hinv n _ hn (upward_suffixes q) hav0) (h.reverts n q (huuids.trans hn) hav0 hrest)
  · rw [hstack] at hc ⊢
    by_cases hno : ∀ p ∈ undo.vacates u, ¬p <:+ q
    · have hrest : ¬((∃ p ∈ undo.fills u, q <:+ p.tail) ∨ Clears u q s.undoStack) := fun hrest => hc ⟨hno, hrest⟩
      intro s1 hquiet hb hdir
      have hav0 := havoids q (hb.avoids hdir) hno
      refine Jams.cons (hinv n _ hn (upward_suffixes q) hav0) (fun p hp hpq => hrest (.inl ⟨p, hp, hpq⟩))
        (h.jams n q (huuids.trans hn) fun hc => hrest (.inr hc)) s1 hquiet hb hdir
    · simp only [not_forall, not_not] at hno
      obtain ⟨p, hp, hpq⟩ := hno
      refine .here (hblocks n hn) hp hpq fun ho => ?_
      obtain ⟨x, hx⟩ := hheld p hp
      exact h.kept p x hx fun older holder => (ho.1 p hp older holder).1
  · rw [hstack] at hno ⊢
    obtain ⟨hbefore, hwithin⟩ := hplaced p x hx (hno undo (List.mem_cons_self ..))
    obtain ⟨hd0, hrest⟩ := h.kept p x hbefore fun older holder => hno older (List.mem_cons_of_mem _ holder)
    refine ⟨hd0, fun older holder => ?_⟩
    rcases List.mem_cons.1 holder with rfl | holder
    · exact hwithin
    · exact hrest older holder
  · rw [hstack]
    exact hfreed
  · rw [hstack]
    refine or_iff_not_imp_left.2 fun hno => ⟨fun hp' => ?_, ?_⟩
    · obtain ⟨x, hx'⟩ := hfills p hp'
      rw [hx'] at hx
      cases hx
    · refine h.gone p ((hV' p hp).resolve_right hno) ?_
      by_contra hfile
      obtain ⟨x, hx'⟩ := Option.ne_none_iff_exists'.1 hfile
      exact hno (hvac p x hx' hx)
  · rw [hstack]
    rintro (⟨p, hp, hgone⟩ | hrest)
    · obtain ⟨x, hx⟩ := hheld p hp
      rw [h.freed p hgone] at hx
      cases hx
    · exact h.straight hrest

/-- Only the disk and the callbacks count. -/
theorem of_same (h : Journaled u V d0 s) (huuids : s.uuids ≤ s'.uuids) (hstack : s'.undoStack = s.undoStack)
    (hd : s'.disk = s.disk) : Journaled u V d0 s' := by
  refine ⟨h.nonroot, ?_, ?_, ?_, ?_, ?_, ?_, ?_, ?_⟩ <;> simp only [hstack, hd]
  · exact h.vacated
  · exact h.legit
  · exact fun n q hn => h.reverts n q (huuids.trans hn)
  · exact fun n q hn => h.jams n q (huuids.trans hn)
  · exact h.kept
  · exact h.freed
  · exact h.gone
  · exact h.straight

/-- Calls that change neither the disk nor the callbacks. -/
theorem onward (h : Journaled u V d0 s) (hon : s.Onward s') (hd : s'.disk = s.disk) : Journaled u V d0 s' :=
  h.of_same hon.uuids hon.undoStack hd

/-- A file is beside every other one. -/
private theorem beside_file {d : Disk} {l : Loc} {p : TreePath} {x y : ByteArray} (hd : d.WF) (hx : d.file l = some x)
    (hy : d.file ⟨.users u, p⟩ = some y) (hne : l ≠ ⟨.users u, p⟩) : Beside u p l := by
  intro ha hp
  obtain ⟨a, q⟩ := l
  obtain rfl : a = .users u := ha
  exact hne (congrArg _ (hd.eq_of_below_file hx hy hp))

/-- A backup is beside every tree file. -/
private theorem beside_backup {n : Nat} {d : Disk} (hb : BackupOf n d target backup) (p : TreePath) :
    ∀ l ∈ backup, Beside u p l := by
  rintro l hl ha
  obtain rfl : backup = some l := hl
  rw [hb.area] at ha
  cases ha

theorem replace {y : ByteArray} (h : Journaled u V d0 s) (hw : s.disk.WF) (ht : target.area = .users u)
    (hc : Completed u s s' (.replaceEntry u target backup) target backup target.path.tail
      (placed s.disk target backup y)) : Journaled u V d0 s' := by
  refine h.step hc.edit.wf hc.uuids hc.undoStack (fun n T hn hT hav => ?_) (fun n _ p hp => by cases hp)
    (fun _ hp => hp) h.nonroot (fun p hp => by cases hp) (fun _ hp => .inl hp) (fun p hp => by cases hp)
    (fun p hp => by cases hp) (fun p x hx hn => ?_) (fun p hp => ?_) (fun p x hx hno => ?_) fun q hq => ?_
  · exact .replaceEntry hw hT hav ht (hc.saved.mono hn) hc.edit
  · rw [hc.edit.file, placed] at hn
    split at hn
    · cases hn
    · rw [if_neg, hx] at hn
      · cases hn
      · rintro rfl
        cases hc.saved.area
  · refine ⟨y, ?_⟩
    rw [hc.edit.file, placed, if_pos (Loc.mem_inTree.1 hp).symm]
  · have hne : target ≠ ⟨.users u, p⟩ := fun e => hno (Loc.mem_inTree.2 e)
    have htarget : s'.disk.file target = some y := by rw [hc.edit.file, placed, if_pos rfl]
    refine ⟨?_, beside_file hc.edit.wf htarget hx hne, beside_backup hc.saved p⟩
    rwa [hc.edit.file, placed, if_neg hne.symm, if_neg] at hx
    rintro rfl
    cases hc.saved.area
  · refine ⟨fun p hp => (by cases hp), ?_⟩
    rcases hc.edit.dirs _ hq with hq | ⟨-, hq⟩
    · exact .inr hq
    · exact .inl ⟨target.path, Loc.mem_inTree.2 (by rw [← ht]), hq⟩

theorem remove {b : Loc} (h : Journaled u V d0 s) (hw : s.disk.WF) (ht : target.area = .users u)
    (hc : Completed u s s' (.removeEntry target (some b)) target (some b) [] (removed s.disk target (some b)))
    (hV : V ⊆ V') (hroot : [] ∉ V') (hmem : target.path ∈ V') (hV' : ∀ p ∈ V', p ∈ V ∨ target = ⟨.users u, p⟩) :
    Journaled u V' d0 s' := by
  have hgone : ∀ p, s'.disk.file ⟨.users u, p⟩ = none → s.disk.file ⟨.users u, p⟩ ≠ none → target = ⟨.users u, p⟩ := by
    intro p hn hx
    by_contra hne
    rw [hc.edit.file, removed, if_neg (Ne.symm hne), if_neg] at hn
    · exact hx hn
    · intro e
      have := hc.saved.area
      rw [Option.some.inj e] at this
      cases this
  refine h.step hc.edit.wf hc.uuids hc.undoStack (fun n T hn _ hav => ?_) (fun n hn => ?_) hV hroot (fun p hp => ?_)
    (fun p hp => (hV' p hp).imp id Loc.mem_inTree.2) (fun p hp => ?_) (fun p hp => ?_) (fun p x hx hn => ?_)
    (fun p hp => by cases hp) (fun p x hx _ => ?_) fun q hq => ?_
  · exact .removeEntry hw hav ht (hc.saved.mono hn) hc.edit
  · exact .removeEntry (hc.saved.mono hn) hc.edit
  · rw [Loc.mem_inTree.1 hp] at hmem
    exact hmem
  · obtain ⟨-, -, x, hx⟩ := hc.saved
    rw [← Loc.mem_inTree.1 hp]
    exact ⟨x, hx⟩
  · rw [hc.edit.file, removed, if_pos (Loc.mem_inTree.1 hp).symm]
  · exact Loc.mem_inTree.2 (hgone p hn (by rw [hx]; simp))
  · have hne : target ≠ ⟨.users u, p⟩ := by
      rintro rfl
      rw [hc.edit.file, removed, if_pos rfl] at hx
      cases hx
    rw [hc.edit.file, removed, if_neg hne.symm, if_neg] at hx
    · obtain ⟨-, -, z, hz⟩ := id hc.saved
      exact ⟨hx, beside_file hw hz hx hne, beside_backup hc.saved p⟩
    · intro e
      have := hc.saved.area
      rw [Option.some.inj e] at this
      cases this
  · -- the step makes no directory, and where it takes the file away there is none
    have hdir : s.disk.node ⟨.users u, q⟩ = some .dir := by
      rcases hc.edit.dirs _ hq with hq | ⟨-, hq⟩
      · exact hq
      · rw [show q = [] from List.suffix_nil.1 hq]
        rfl
    refine ⟨fun p hp hpq => ?_, .inr hdir⟩
    obtain ⟨-, -, x, hx⟩ := hc.saved
    exact hw.not_below_file (by rw [← Loc.mem_inTree.1 hp]; exact hx) hdir hpq

theorem rename {source : Loc} {x : ByteArray} (h : Journaled u V d0 s) (hw : s.disk.WF) (hs : Slot s.uuids u source)
    (ht : Slot s.uuids u target) (hne : source ≠ target) (hx : s.disk.file source = some x)
    (hbs : backup ≠ some source) (hbu : ∀ b, backup = some b → target.area = .users u)
    (hbelow : target.area = source.area → ¬source.path <:+ target.path.tail)
    (hc : Completed u s s' (.renameEntry u source target backup) target backup target.path.tail
      (renamed s.disk source target backup)) (hV : V ⊆ V') (hroot : [] ∉ V')
    (hmem : source.area = .users u → source.path ∈ V') (hV' : ∀ p ∈ V', p ∈ V ∨ source = ⟨.users u, p⟩) :
    Journaled u V' d0 s' := by
  refine h.step hc.edit.wf hc.uuids hc.undoStack (fun n T hn hT hav => ?_) (fun n hn => ?_) hV hroot (fun p hp => ?_)
    (fun p hp => (hV' p hp).imp id Loc.mem_inTree.2) (fun p hp => ?_) (fun p hp => ?_) (fun p z hz hn => ?_)
    (fun p hp => ?_) (fun p z hz hno => ?_) fun q hq => ?_
  · exact .renameEntry hw hT hav (hs.mono (hc.uuids.trans hn)) (ht.mono (hc.uuids.trans hn)) hne hx
      (hc.saved.mono hn) hbs hbu hbelow hc.edit
  · exact .renameEntry (ht.mono (hc.uuids.trans hn)) hx hc.edit
  · rw [Loc.mem_inTree.1 hp] at hmem
    exact hmem rfl
  · rw [← Loc.mem_inTree.1 hp]
    exact ⟨x, hx⟩
  · have hsource := Loc.mem_inTree.1 hp
    rw [hc.edit.file, renamed, if_neg (hsource ▸ hne), if_pos hsource.symm]
  · rw [hc.edit.file, renamed] at hn
    split at hn
    · rw [hx] at hn
      cases hn
    · split at hn
      · rename_i e
        exact Loc.mem_inTree.2 e.symm
      · rw [if_neg, hz] at hn
        · cases hn
        · rintro rfl
          cases hc.saved.area
  · refine ⟨x, ?_⟩
    rw [hc.edit.file, renamed, if_pos (Loc.mem_inTree.1 hp).symm, hx]
  · have hpt : target ≠ ⟨.users u, p⟩ := fun e => hno (Loc.mem_inTree.2 e)
    have hps : source ≠ ⟨.users u, p⟩ := by
      rintro rfl
      rw [hc.edit.file, renamed, if_neg hpt.symm, if_pos rfl] at hz
      cases hz
    have htarget : s'.disk.file target = some x := by rw [hc.edit.file, renamed, if_pos rfl, hx]
    have hbefore : s.disk.file ⟨.users u, p⟩ = some z := by
      rwa [hc.edit.file, renamed, if_neg hpt.symm, if_neg hps.symm, if_neg] at hz
      rintro rfl
      cases hc.saved.area
    exact ⟨hbefore, beside_file hw hx hbefore hps, beside_file hc.edit.wf htarget hz hpt, beside_backup hc.saved p⟩
  · have hfrom : s.disk.node ⟨.users u, q⟩ = some .dir ∨ (target.area = .users u ∧ q <:+ target.path.tail) := by
      rcases hc.edit.dirs _ hq with hq | ⟨-, hq⟩
      · exact .inl hq
      · rcases ht.area with ha | ha
        · exact .inr ⟨ha, hq⟩
        · rw [ha] at hq
          rw [show q = [] from List.suffix_nil.1 hq]
          exact .inl rfl
    refine ⟨fun p hp hpq => ?_, ?_⟩
    · have hsource := Loc.mem_inTree.1 hp
      rcases hfrom with hdir | ⟨ha, hq⟩
      · exact hw.not_below_file (by rw [← hsource]; exact hx) hdir hpq
      · rw [hsource] at hbelow
        exact hbelow ha (hpq.trans hq)
    · rcases hfrom with hdir | ⟨ha, hq⟩
      · exact .inr hdir
      · exact .inl ⟨target.path, Loc.mem_inTree.2 (by rw [← ha]), hq⟩

theorem object {user : String} {objectId : Nat} {y : ByteArray} (h : Journaled u V d0 s) (huuids : s.uuids ≤ s'.uuids)
    (hstack : s'.undoStack = .removeObject (objectLoc user objectId) :: s.undoStack)
    (hedit : Edit u s.disk s'.disk [] (Function.update s.disk.file (objectLoc user objectId) (some y))) :
    Journaled u V d0 s' := by
  refine h.step hedit.wf huuids hstack (fun n T _ _ _ => .removeObject rfl hedit) (fun n _ p hp => by cases hp)
    (fun _ hp => hp) h.nonroot (fun p hp => by cases hp) (fun _ hp => .inl hp) (fun p hp => by cases hp)
    (fun p hp => by cases hp) (fun p x hx hn => ?_) (fun p hp => by cases hp) (fun p x hx _ => ?_) fun q hq => ?_
  · rw [hedit.file, Function.update_of_ne (by simp [objectLoc]), hx] at hn
    cases hn
  · rw [hedit.file, Function.update_of_ne (by simp [objectLoc])] at hx
    exact ⟨hx, fun ha => by cases ha⟩
  · refine ⟨fun p hp => (by cases hp), .inr ?_⟩
    rcases hedit.dirs _ hq with hq | ⟨-, hq⟩
    · exact hq
    · rw [show q = [] from List.suffix_nil.1 hq]
      rfl

/-- A state the callbacks can be run from. -/
private theorem recoverable (h : Journaled u V d0 s) (hw : s.disk.WF) (hf : s.disk.FreshFrom s.uuids) :
    Recoverable u d0 s :=
  ⟨_, _, .refl hw hf, h.reverts s.uuids [] le_rfl avoids_root h.clears_root⟩

/-- What a program has left behind that was aborted decides whether it can be rolled back. -/
private theorem aborted_cases {q : TreePath} (h : Journaled u V d0 s) (hon : s.Onward s')
    (hdir : s'.disk.node ⟨.users u, q⟩ = some .dir) (hbelow : Below s'.uuids {r | r <:+ q} u s.disk s'.disk) :
    (Clears u q s.undoStack → Unobstructed u s' ∧ Recoverable u d0 s') ∧
      (¬Clears u q s.undoStack → ¬Unobstructed u s' ∧ Jammed u d0 s') := by
  unfold Unobstructed Recoverable Jammed
  simp only [hon.undoStack]
  refine ⟨fun hc => ⟨fun r hr => ?_, _, _, hbelow, ?_⟩, fun hc => ⟨fun hall => hc (hall q hdir), ?_⟩⟩
  · rcases hbelow.dirs _ hr with hr | ⟨-, hr⟩
    · exact h.legit r hr
    · exact hc.above hr
  · exact h.reverts _ q hon.uuids (hbelow.avoids hdir) hc
  · exact h.jams _ q hon.uuids hc _ rfl hbelow hdir

end Journaled

/-- The clean-up callbacks stay away from the trees. -/
def Tidy (s : Fs) : Prop :=
  ∀ c ∈ s.cleanupStack, match c with
    | .unlinkBackup backup => ∀ b, backup = some b → b.area = .undo
    | .removeObject object => ∃ user objectId, object = objectLoc user objectId

theorem Tidy.of_eq {s s' : Fs} (h : Tidy s) (e : s'.cleanupStack = s.cleanupStack) : Tidy s' := by
  unfold Tidy
  rw [e]
  exact h

theorem Tidy.completed {u : String} {s s' : Fs} {undo : Undo} {target : Loc} {backup : Option Loc} {made : TreePath}
    {files : Loc → Option ByteArray} (h : Tidy s) (hc : Completed u s s' undo target backup made files) : Tidy s' := by
  unfold Tidy
  rw [hc.cleanupStack]
  intro c hmem
  rcases List.mem_append.1 hmem with hmem | hmem
  · exact h c hmem
  · rw [List.mem_singleton.1 hmem]
    rintro b rfl
    exact hc.saved.area

/-- No directory lies outside the trees of the users. -/
def Disk.Flat (d : Disk) : Prop := ∀ l, d.node l = some .dir → l.path ≠ [] → ∃ v, l.area = .users v

theorem Edit.flat {u : String} {d e : Disk} {made : TreePath} {files : Loc → Option ByteArray}
    (h : Edit u d e made files) (hd : d.Flat) : e.Flat := by
  intro l hl hne
  rcases h.dirs l hl with hl | ⟨ha, -⟩
  · exact hd l hl hne
  · exact ⟨u, ha⟩

theorem Below.flat {n : Nat} {T : Set TreePath} {u : String} {d e : Disk} (h : Below n T u d e) (hd : d.Flat) :
    e.Flat := by
  intro l hl hne
  rcases h.dirs l hl with hl | ⟨ha, -⟩
  · exact hd l hl hne
  · exact ⟨u, ha⟩

/-! ### Rows and files -/

/-- Where the file of a row is: in its temporary place while its document is on a cycle, at its tree path otherwise. -/
def place (parked : SourceId → Option Loc) (e : Entry) : Loc := (parked e.source).getD (treeLoc e.userId e.path)

/-- The path and the data of each document. -/
def docs (c : Catalog) (d : Disk) (parked : SourceId → Option Loc) (i : SourceId) :
    Option (String × Option ByteArray) :=
  (c.row i).map fun e => (e.path, d.file (place parked e))

theorem place_of_none {parked : SourceId → Option Loc} {e : Entry} (h : parked e.source = none) :
    place parked e = treeLoc e.userId e.path := by
  unfold place
  rw [h]
  rfl

theorem place_of_some {parked : SourceId → Option Loc} {e : Entry} {l : Loc} (h : parked e.source = some l) :
    place parked e = l := by
  unfold place
  rw [h]
  rfl

theorem treeLoc_inj {u v p q : String} (hp : Normalized p) (hq : Normalized q) :
    treeLoc u p = treeLoc v q ↔ u = v ∧ p = q := by
  unfold treeLoc
  simp only [Loc.mk.injEq, Area.users.injEq, and_congr_right_iff]
  exact fun _ => ⟨treePath_injective hp hq, fun h => by rw [h]⟩

/-- Rows and files belong together, up to the documents in a temporary place and those that have lost their file. -/
structure Synced (c : Catalog) (d : Disk) (parked : SourceId → Option Loc) (V : Set TreePath) (lost : Set SourceId) :
    Prop where
  distinct : c.Distinct
  normal : ∀ e ∈ c.entries, parked e.source = none → Normalized e.path
  inj : ∀ i j l, parked i = some l → parked j = some l → i = j
  undo : ∀ i l, parked i = some l → l.area = .undo
  files : ∀ e ∈ c.entries, (∃ data, d.file (place parked e) = some data ∧ contentHash data = e.contentHash) ∨
    (e.source ∈ lost ∧ parked e.source = none ∧ treePath e.path ∈ V ∧ d.file (treeLoc e.userId e.path) = none)
  owned : ∀ v p, d.file ⟨.users v, p⟩ ≠ none →
    ∃ e ∈ c.entries, parked e.source = none ∧ treeLoc e.userId e.path = ⟨.users v, p⟩

namespace Synced

variable {c c' : Catalog} {d d' : Disk} {parked : SourceId → Option Loc} {V V' : Set TreePath} {lost : Set SourceId}
  {new old : Entry}

/-- Two documents have different places. -/
theorem place_ne (h : Synced c d parked V lost) {e e' : Entry} (he : e ∈ c.entries) (he' : e' ∈ c.entries)
    (hne : e.source ≠ e'.source) : place parked e ≠ place parked e' := by
  intro heq
  cases hp : parked e.source with
  | none =>
    rw [place_of_none hp] at heq
    cases hp' : parked e'.source with
    | none =>
      rw [place_of_none hp', treeLoc_inj (h.normal e he hp) (h.normal e' he' hp')] at heq
      exact hne (congrArg Entry.source (h.distinct.eq_of_path he he' heq.1 heq.2))
    | some l' =>
      rw [place_of_some hp'] at heq
      have := h.undo _ _ hp'
      rw [← heq] at this
      cases this
  | some l =>
    rw [place_of_some hp] at heq
    cases hp' : parked e'.source with
    | none =>
      rw [place_of_none hp'] at heq
      have := h.undo _ _ hp
      rw [heq] at this
      cases this
    | some l' =>
      rw [place_of_some hp'] at heq
      exact hne (h.inj _ _ _ hp (by rw [hp', heq]))

/-- The place of another document is not the one a new row gets. -/
theorem place_ne_new (h : Synced c d parked V lost) (hr : c.RowSet c' new) (hn : Normalized new.path) {e : Entry}
    (he : e ∈ c.entries) (hne : e.source ≠ new.source) : place parked e ≠ treeLoc new.userId new.path := by
  intro heq
  cases hp : parked e.source with
  | none =>
    rw [place_of_none hp, treeLoc_inj (h.normal e he hp) hn] at heq
    exact hr.free e he hne heq.1 heq.2
  | some l =>
    rw [place_of_some hp] at heq
    have := h.undo _ _ hp
    rw [heq] at this
    cases this

/-- A document gets a file at the tree path of its new row. -/
theorem set (h : Synced c d parked V lost) (hr : c.RowSet c' new) (hn : Normalized new.path) {y : ByteArray}
    (hy : d'.file (treeLoc new.userId new.path) = some y) (hhash : contentHash y = new.contentHash)
    (hothers : ∀ e ∈ c.entries, e.source ≠ new.source → d'.file (place parked e) = d.file (place parked e))
    (howned : ∀ v p, (⟨.users v, p⟩ : Loc) ≠ treeLoc new.userId new.path → d'.file ⟨.users v, p⟩ ≠ none →
      d.file ⟨.users v, p⟩ ≠ none ∧ ∀ e, c.row new.source = some e → place parked e ≠ ⟨.users v, p⟩)
    (hV : V ⊆ V') : Synced c' d' (Function.update parked new.source none) V' lost := by
  have hself : Function.update parked new.source none new.source = none := Function.update_self ..
  have hother : ∀ e : Entry, e.source ≠ new.source →
      Function.update parked new.source none e.source = parked e.source := fun e he => Function.update_of_ne he ..
  refine ⟨hr.distinct, fun e he hp => ?_, fun i j l hi hj => ?_, fun i l hi => ?_, fun e he => ?_, fun v p hf => ?_⟩
  · rcases (hr.mem e).1 he with ⟨he, hne⟩ | rfl
    · exact h.normal e he (by rwa [hother e hne] at hp)
    · exact hn
  · rw [Function.update_apply] at hi hj
    split at hi
    · cases hi
    · split at hj
      · cases hj
      · exact h.inj i j l hi hj
  · rw [Function.update_apply] at hi
    split at hi
    · cases hi
    · exact h.undo i l hi
  · rcases (hr.mem e).1 he with ⟨he, hne⟩ | rfl
    · have hplace : place (Function.update parked new.source none) e = place parked e := by
        unfold place
        rw [hother e hne]
      rw [hplace, hothers e he hne, hother e hne]
      rcases h.files e he with hf | ⟨hl, hp, hV', hf⟩
      · exact .inl hf
      · refine .inr ⟨hl, hp, hV hV', ?_⟩
        rw [← place_of_none hp, hothers e he hne, place_of_none hp, hf]
    · rw [place_of_none hself, hy]
      exact .inl ⟨y, rfl, hhash⟩
  · by_cases heq : (⟨.users v, p⟩ : Loc) = treeLoc new.userId new.path
    · exact ⟨new, (hr.mem new).2 (.inr rfl), hself, heq.symm⟩
    · obtain ⟨hf', hold⟩ := howned v p heq hf
      obtain ⟨e, he, hp, hloc⟩ := h.owned v p hf'
      have hne : e.source ≠ new.source := by
        intro hs
        refine hold e (h.distinct.row_eq_some_iff.2 ⟨he, hs⟩) ?_
        rw [place_of_none hp, hloc]
      exact ⟨e, (hr.mem e).2 (.inl ⟨he, hne⟩), by rw [hother e hne, hp], hloc⟩

/-- A row changes without a change of the document's place or hash. -/
theorem retitle (h : Synced c d parked V lost) (hr : c.RowSet c' new) (hold : c.row new.source = some old)
    (hpath : parked new.source = none → new.path = old.path) (hhash : new.contentHash = old.contentHash) :
    Synced c' d parked V lost := by
  obtain ⟨hmem, hs⟩ := Catalog.mem_of_row hold
  have hu : new.userId = old.userId := (congrArg Prod.fst hs).symm
  have hplace : place parked new = place parked old := by
    unfold place
    rw [hs]
    cases hp : parked new.source with
    | none =>
      show treeLoc new.userId new.path = treeLoc old.userId old.path
      rw [hpath hp, hu]
    | some l => rfl
  refine ⟨hr.distinct, fun e he hp => ?_, h.inj, h.undo, fun e he => ?_, fun v p hf => ?_⟩
  · rcases (hr.mem e).1 he with ⟨he, -⟩ | rfl
    · exact h.normal e he hp
    · rw [hpath hp]
      exact h.normal old hmem (by rw [hs]; exact hp)
  · rcases (hr.mem e).1 he with ⟨he, -⟩ | rfl
    · exact h.files e he
    · rw [hplace, hhash]
      rcases h.files old hmem with hf | ⟨hl, hp, hV, hf⟩
      · exact .inl hf
      · rw [hs] at hl hp
        rw [hpath hp, hu]
        exact .inr ⟨hl, hp, hV, hf⟩
  · obtain ⟨e, he, hp, hloc⟩ := h.owned v p hf
    by_cases hne : e.source = new.source
    · obtain rfl := h.distinct.eq_of_source he hmem (hne.trans hs.symm)
      refine ⟨new, (hr.mem new).2 (.inr rfl), by rw [← hs]; exact hp, ?_⟩
      rw [hpath (by rw [← hs]; exact hp), hu]
      exact hloc
    · exact ⟨e, (hr.mem e).2 (.inl ⟨he, hne⟩), hp, hloc⟩

/-- A document has left its place and its row says so already: its file is lost. -/
theorem settle (h : Synced c d parked V lost) (hr : c.RowSet c' new) (hn : Normalized new.path)
    (hl : new.source ∈ lost) (hV : treePath new.path ∈ V) (hp : parked new.source ≠ none) :
    Synced c' d (Function.update parked new.source none) V lost := by
  have hself : Function.update parked new.source none new.source = none := Function.update_self ..
  have hother : ∀ e : Entry, e.source ≠ new.source →
      Function.update parked new.source none e.source = parked e.source := fun e he => Function.update_of_ne he ..
  refine ⟨hr.distinct, fun e he hp => ?_, fun i j l hi hj => ?_, fun i l hi => ?_, fun e he => ?_, fun v p hf => ?_⟩
  · rcases (hr.mem e).1 he with ⟨he, hne⟩ | rfl
    · exact h.normal e he (by rwa [hother e hne] at hp)
    · exact hn
  · rw [Function.update_apply] at hi hj
    split at hi
    · cases hi
    · split at hj
      · cases hj
      · exact h.inj i j l hi hj
  · rw [Function.update_apply] at hi
    split at hi
    · cases hi
    · exact h.undo i l hi
  · rcases (hr.mem e).1 he with ⟨he, hne⟩ | rfl
    · have hplace : place (Function.update parked new.source none) e = place parked e := by
        unfold place
        rw [hother e hne]
      rw [hplace, hother e hne]
      exact h.files e he
    · refine .inr ⟨hl, hself, hV, ?_⟩
      by_contra hf
      obtain ⟨e', he', hp', hloc⟩ := h.owned _ _ hf
      have hne : e'.source ≠ e.source := fun hs => hp (by rw [← hs]; exact hp')
      rw [← treeLoc, treeLoc_inj (h.normal e' he' hp') hn] at hloc
      exact hr.free e' he' hne hloc.1 hloc.2
  · obtain ⟨e, he, hp', hloc⟩ := h.owned v p hf
    have hne : e.source ≠ new.source := fun hs => hp (by rw [← hs]; exact hp')
    exact ⟨e, (hr.mem e).2 (.inl ⟨he, hne⟩), by rw [hother e hne, hp'], hloc⟩

/-- A row and its file are removed. -/
theorem delete (h : Synced c d parked V lost) {i : SourceId} (hd : c'.Distinct)
    (hmem : ∀ e, e ∈ c'.entries ↔ e ∈ c.entries ∧ e.source ≠ i) (hold : c.row i = some old)
    (hothers : ∀ e ∈ c.entries, e.source ≠ i → d'.file (place parked e) = d.file (place parked e))
    (howned : ∀ v p, d'.file ⟨.users v, p⟩ ≠ none → d.file ⟨.users v, p⟩ ≠ none ∧ place parked old ≠ ⟨.users v, p⟩)
    (hV : V ⊆ V') : Synced c' d' parked V' lost := by
  refine ⟨hd, fun e he => h.normal e ((hmem e).1 he).1, h.inj, h.undo, fun e he => ?_, fun v p hf => ?_⟩
  · obtain ⟨he, hne⟩ := (hmem e).1 he
    rw [hothers e he hne]
    rcases h.files e he with hf | ⟨hl, hp, hV', hf⟩
    · exact .inl hf
    · refine .inr ⟨hl, hp, hV hV', ?_⟩
      rw [← place_of_none hp, hothers e he hne, place_of_none hp, hf]
  · obtain ⟨hf', hold'⟩ := howned v p hf
    obtain ⟨e, he, hp, hloc⟩ := h.owned v p hf'
    refine ⟨e, (hmem e).2 ⟨he, fun hs => hold' ?_⟩, hp, hloc⟩
    obtain ⟨hmem', hs'⟩ := Catalog.mem_of_row hold
    rw [← h.distinct.eq_of_source he hmem' (hs.trans hs'.symm), place_of_none hp, hloc]

/-- The file of a document goes to a temporary place. -/
theorem park (h : Synced c d parked V lost) {temp : Loc} {x : ByteArray} (hold : old ∈ c.entries)
    (ht : temp.area = .undo) (hfree : ∀ i, parked i ≠ some temp) (hx : d.file (place parked old) = some x)
    (htemp : d'.file temp = some x)
    (hothers : ∀ e ∈ c.entries, e.source ≠ old.source → d'.file (place parked e) = d.file (place parked e))
    (howned : ∀ v p, d'.file ⟨.users v, p⟩ ≠ none → d.file ⟨.users v, p⟩ ≠ none ∧ place parked old ≠ ⟨.users v, p⟩)
    (hV : V ⊆ V') : Synced c d' (Function.update parked old.source (some temp)) V' lost := by
  have hself : Function.update parked old.source (some temp) old.source = some temp := Function.update_self ..
  have hother : ∀ e : Entry, e.source ≠ old.source →
      Function.update parked old.source (some temp) e.source = parked e.source := fun e he =>
        Function.update_of_ne he ..
  refine ⟨h.distinct, fun e he hp => ?_, fun i j l hi hj => ?_, fun i l hi => ?_, fun e he => ?_, fun v p hf => ?_⟩
  · have hne : e.source ≠ old.source := by
      intro hs
      rw [hs, hself] at hp
      cases hp
    exact h.normal e he (by rwa [hother e hne] at hp)
  · rw [Function.update_apply] at hi hj
    split at hi <;> split at hj
    · rename_i hi' hj'
      rw [hi', hj']
    · cases hi
      exact absurd hj (hfree j)
    · cases hj
      exact absurd hi (hfree i)
    · exact h.inj i j l hi hj
  · rw [Function.update_apply] at hi
    split at hi
    · cases hi
      exact ht
    · exact h.undo i l hi
  · by_cases hne : e.source = old.source
    · obtain rfl := h.distinct.eq_of_source he hold hne
      rw [place_of_some hself, htemp]
      rcases h.files e he with ⟨y, hy, hhash⟩ | ⟨-, hp, -, hf⟩
      · rw [hx] at hy
        cases hy
        exact .inl ⟨x, rfl, hhash⟩
      · rw [place_of_none hp, hf] at hx
        cases hx
    · have hplace : place (Function.update parked old.source (some temp)) e = place parked e := by
        unfold place
        rw [hother e hne]
      rw [hplace, hothers e he hne, hother e hne]
      rcases h.files e he with hf | ⟨hl, hp, hV', hf⟩
      · exact .inl hf
      · refine .inr ⟨hl, hp, hV hV', ?_⟩
        rw [← place_of_none hp, hothers e he hne, place_of_none hp, hf]
  · obtain ⟨hf', hold'⟩ := howned v p hf
    obtain ⟨e, he, hp, hloc⟩ := h.owned v p hf'
    have hne : e.source ≠ old.source := by
      intro hs
      refine hold' ?_
      rw [← h.distinct.eq_of_source he hold hs, place_of_none hp, hloc]
    exact ⟨e, he, by rw [hother e hne, hp], hloc⟩

end Synced

/-! ### What a step does to the documents -/

section

variable {c c' : Catalog} {d d' : Disk} {parked : SourceId → Option Loc} {new old : Entry}

theorem docs_set (hr : c.RowSet c' new) {y : ByteArray}
    (hy : d'.file (treeLoc new.userId new.path) = some y)
    (hothers : ∀ e ∈ c.entries, e.source ≠ new.source → d'.file (place parked e) = d.file (place parked e)) :
    docs c' d' (Function.update parked new.source none) =
      Function.update (docs c d parked) new.source (some (new.path, some y)) := by
  funext i
  unfold docs
  rw [hr.row, Function.update_apply]
  split
  · rename_i hi
    simp only [Option.map_some]
    rw [place_of_none (Function.update_self ..), hy]
  · rename_i hi
    cases hrow : c.row i with
    | none => rfl
    | some e =>
      obtain ⟨he, rfl⟩ := Catalog.mem_of_row hrow
      have hplace : place (Function.update parked new.source none) e = place parked e := by
        unfold place
        rw [Function.update_of_ne hi]
      simp only [Option.map_some]
      rw [hplace, hothers e he hi]

theorem docs_retitle (hr : c.RowSet c' new) :
    docs c' d parked = Function.update (docs c d parked) new.source (some (new.path, d.file (place parked new))) := by
  funext i
  unfold docs
  rw [hr.row, Function.update_apply]
  split <;> rfl

theorem docs_delete {i : SourceId} (hrow : ∀ j, c'.row j = if j = i then none else c.row j)
    (hothers : ∀ e ∈ c.entries, e.source ≠ i → d'.file (place parked e) = d.file (place parked e)) :
    docs c' d' parked = Function.update (docs c d parked) i none := by
  funext j
  unfold docs
  rw [hrow, Function.update_apply]
  split
  · rfl
  · rename_i hj
    cases hr : c.row j with
    | none => rfl
    | some e =>
      obtain ⟨he, rfl⟩ := Catalog.mem_of_row hr
      simp only [Option.map_some]
      rw [hothers e he hj]

theorem docs_park (hold : c.row old.source = some old) {temp : Loc}
    (htemp : d'.file temp = d.file (place parked old))
    (hothers : ∀ e ∈ c.entries, e.source ≠ old.source → d'.file (place parked e) = d.file (place parked e)) :
    docs c d' (Function.update parked old.source (some temp)) = docs c d parked := by
  funext i
  unfold docs
  cases hr : c.row i with
  | none => rfl
  | some e =>
    obtain ⟨he, rfl⟩ := Catalog.mem_of_row hr
    simp only [Option.map_some]
    by_cases hne : e.source = old.source
    · rw [hne, hold] at hr
      cases hr
      rw [place_of_some (Function.update_self ..), htemp]
    · have hplace : place (Function.update parked old.source (some temp)) e = place parked e := by
        unfold place
        rw [Function.update_of_ne hne]
      rw [hplace, hothers e he hne]

end

/-! ### The invariant of a running submission -/

/-- The state between two steps of a submission of `user` that started on the disk `d0`.  `K` says when no directory
has been made where a file was taken away. -/
structure Running (user : String) (d0 : Disk) (K : Prop) (V : Set TreePath) (parked : SourceId → Option Loc)
    (lost : Set SourceId) (w : World) : Prop where
  wf : w.fs.disk.WF
  fresh : w.fs.disk.FreshFrom w.fs.uuids
  flat : w.fs.disk.Flat
  synced : Synced w.catalog w.fs.disk parked V lost
  journaled : Journaled user V d0 w.fs
  tidy : Tidy w.fs
  slots : ∀ i l, parked i = some l → Slot w.fs.uuids user l
  users : ∀ i ∈ lost, i.1 = user
  clear : K → ∀ p ∈ V, w.fs.disk.node ⟨.users user, p⟩ ≠ some .dir

/-- The state when a step has raised: the rollback succeeds if and only if no directory is in its way, as `G`
ensures. -/
structure Failing (user : String) (d0 : Disk) (G : Prop) (s : Fs) : Prop where
  recoverable : Unobstructed user s → Recoverable user d0 s
  jammed : ¬Unobstructed user s → Jammed user d0 s
  unobstructed : G → Unobstructed user s
  straight : ¬Misplaces user s.undoStack
  flat : s.disk.Flat
  tidy : Tidy s

/-- Placing a file at `target` can be undone and loses nothing: what it may leave behind, or what it makes, is not at a
place in `V`. -/
def Safe (s : Fs) (V : Set TreePath) (lost : Set SourceId) (target : Loc) : Prop :=
  s.fault ≠ none ∨ ¬s.disk.Fits target ∨ lost.Nonempty → ∀ r, r <:+ target.path.tail → r ∉ V

namespace Journaled

variable {u : String} {d0 : Disk} {G : Prop} {V : Set TreePath} {lost : Set SourceId} {s s' : Fs} {target : Loc}

/-- Nothing has failed in this state. -/
theorem failing (h : Journaled u V d0 s) (hw : s.disk.WF) (hf : s.disk.FreshFrom s.uuids) (hflat : s.disk.Flat)
    (ht : Tidy s) : Failing u d0 G s :=
  ⟨fun _ => h.recoverable hw hf, fun hn => absurd h.legit hn, fun _ => h.legit, h.straight, hflat, ht⟩

/-- A program has raised and left directories at `q` and above. -/
private theorem left {q : TreePath} (h : Journaled u V d0 s) (hflat : s.disk.Flat) (ht : Tidy s) (hon : s.Onward s')
    (hdir : s'.disk.node ⟨.users u, q⟩ = some .dir) (hbelow : Below s'.uuids {r | r <:+ q} u s.disk s'.disk)
    (hG : G → Clears u q s.undoStack) : Failing u d0 G s' := by
  obtain ⟨hclears, hblocked⟩ := h.aborted_cases hon hdir hbelow
  have hflat' := hbelow.flat hflat
  have htidy' := ht.of_eq hon.cleanupStack
  have hstraight : ¬Misplaces u s'.undoStack := by
    rw [hon.undoStack]
    exact h.straight
  by_cases hc : Clears u q s.undoStack
  · have hun := (hclears hc).1
    exact ⟨fun _ => (hclears hc).2, fun hn => absurd hun hn, fun _ => hun, hstraight, hflat', htidy'⟩
  · exact ⟨fun hun => absurd hun (hblocked hc).1, fun _ => (hblocked hc).2, fun hg => absurd (hG hg) hc, hstraight,
      hflat', htidy'⟩

/-- A program that was aborted has left directories where it was to place a file. -/
theorem aborted (h : Journaled u V d0 s) (hflat : s.disk.Flat) (ht : Tidy s) (ha : Aborted u s s' target)
    (hs : G → s.fault ≠ none ∨ ¬s.disk.Fits target → ∀ r, r <:+ target.path.tail → r ∉ V) : Failing u d0 G s' := by
  obtain ⟨hon, q, hq, hbad, hdir, hbelow⟩ := ha
  refine h.left hflat ht hon hdir hbelow fun hG => clears_of_forall fun undo hundo p hp hpq => ?_
  have hV := h.vacated undo hundo p hp
  rcases hbad with rfl | hbad
  · rw [List.suffix_nil.1 hpq] at hV
    exact h.nonroot hV
  · exact hs hG hbad p (hpq.trans hq) hV

/-- A program that was halted may have left directories anywhere. -/
theorem halted (h : Journaled u V d0 s) (hflat : s.disk.Flat) (ht : Tidy s) (ha : Halted u s s') (hG : ¬G) :
    Failing u d0 G s' := by
  obtain ⟨hon, q, hdir, hbelow⟩ := ha
  exact h.left hflat ht hon hdir hbelow fun hg => absurd hg hG

/-- A program that raises before it changes the tree leaves nothing behind. -/
theorem unharmed (h : Journaled u V d0 s) (hflat : s.disk.Flat) (ht : Tidy s) (ha : Unharmed u s s') :
    Failing u d0 G s' := by
  exact h.left hflat ht ha.toOnward rfl ha.below fun _ => h.clears_root

end Journaled

namespace Running

variable {user : String} {d0 : Disk} {G K : Prop} {V : Set TreePath} {parked : SourceId → Option Loc}
  {lost : Set SourceId} {w : World} {s : Fs}

theorem weaken {K' : Prop} (h : Running user d0 K V parked lost w) (hK : K' → K) : Running user d0 K' V parked lost w :=
  { h with clear := fun hk => h.clear (hK hk) }

theorem failing (h : Running user d0 K V parked lost w) : Failing user d0 G w.fs :=
  h.journaled.failing h.wf h.fresh h.flat h.tidy

theorem aborted {target : Loc} (h : Running user d0 K V parked lost w) (ha : Aborted user w.fs s target)
    (hs : G → Safe w.fs V lost target) : Failing user d0 G s :=
  h.journaled.aborted h.flat h.tidy ha fun hG hbad => hs hG (hbad.imp id .inl)

theorem unharmed (h : Running user d0 K V parked lost w) (ha : Unharmed user w.fs s) : Failing user d0 G s :=
  h.journaled.unharmed h.flat h.tidy ha

end Running

end Ctxd

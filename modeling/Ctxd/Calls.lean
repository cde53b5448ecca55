import Ctxd.Tree

/-!
# What the filesystem calls do

One lemma for each call and each loop of calls on a well-formed disk: what the disk is when it returns, and what it
is when it raises.  A call that raises leaves the disk alone; only `mkdirParents` can raise after it has changed
something, and then it leaves directories above its target behind (`mkdirParents_spec`).  That happens only when a
call faults or when the target does not fit.
-/

namespace Ctxd

open Program

namespace Fs

/-- The journal and the supply of uuids are untouched and no fault has been added. -/
structure SameJournal (s s' : Fs) : Prop where
  uuids : s'.uuids = s.uuids
  undoStack : s'.undoStack = s.undoStack
  cleanupStack : s'.cleanupStack = s.cleanupStack
  quiet : s.fault = none → s'.fault = none

theorem SameJournal.refl (s : Fs) : SameJournal s s := ⟨rfl, rfl, rfl, id⟩

theorem SameJournal.trans {s s' s'' : Fs} (h : SameJournal s s') (h' : SameJournal s' s'') : SameJournal s s'' :=
  ⟨h'.uuids.trans h.uuids, h'.undoStack.trans h.undoStack, h'.cleanupStack.trans h.cleanupStack,
    fun hq => h'.quiet (h.quiet hq)⟩

/-- Only the disk, the trace and the countdown to a fault may differ, and the disk does not. -/
structure Kept (s s' : Fs) : Prop extends SameJournal s s' where
  disk : s'.disk = s.disk

private theorem Kept.refl (s : Fs) : Kept s s := ⟨.refl s, rfl⟩

private theorem Kept.trans {s s' s'' : Fs} (h : Kept s s') (h' : Kept s' s'') : Kept s s'' :=
  ⟨h.toSameJournal.trans h'.toSameJournal, h'.disk.trans h.disk⟩

end Fs

/-! ### Single calls -/

private theorem tick_spec (s : Fs) :
    Ends tick (fun _ s' => s.Kept s') (fun e s' => s.Kept s' ∧ e = .osError .ioFault ∧ s.fault ≠ none) s := by
  obtain ⟨disk, uuids, undoStack, cleanupStack, fault, trace⟩ := s
  rcases fault with _ | _ | n
  · exact Fs.Kept.refl _
  · exact ⟨⟨⟨rfl, rfl, rfl, by simp⟩, rfl⟩, rfl, by simp⟩
  · exact ⟨⟨rfl, rfl, rfl, by simp⟩, rfl⟩

theorem call_spec (f : Disk → Except Errno Disk) (s : Fs) :
    Ends (call f) (fun _ s' => f s.disk = .ok s'.disk ∧ s.SameJournal s')
      (fun e s' => s.Kept s' ∧
        ((e = .osError .ioFault ∧ s.fault ≠ none) ∨ ∃ er, f s.disk = .error er ∧ e = .osError er)) s := by
  unfold call
  rw [ends_bind]
  refine (tick_spec s).mono (fun _ s' hs' => ?_) (fun e s' hs' => ⟨hs'.1, .inl hs'.2⟩)
  rw [ends_bind, ends_get, hs'.disk]
  split
  · rename_i d hd
    unfold writeDisk
    rw [ends_modify]
    exact ⟨hd, hs'.uuids, hs'.undoStack, hs'.cleanupStack, hs'.quiet⟩
  · rename_i er her
    rw [ends_throw]
    exact ⟨hs', .inr ⟨er, her, rfl⟩⟩

/-- A call faults exactly when the countdown has come to its end. -/
private theorem tick_counted (s : Fs) :
    Ends tick
      (fun _ s' => s.SameJournal s' ∧ s'.disk = s.disk ∧ s.fault = s'.fault.map (· + 1))
      (fun _ s' => s.SameJournal s' ∧ s'.disk = s.disk ∧ s.fault = some 0) s := by
  obtain ⟨disk, uuids, undoStack, cleanupStack, fault, trace⟩ := s
  rcases fault with _ | _ | n
  · exact ⟨⟨rfl, rfl, rfl, id⟩, rfl, rfl⟩
  · exact ⟨⟨rfl, rfl, rfl, by simp⟩, rfl, rfl⟩
  · exact ⟨⟨rfl, rfl, rfl, by simp⟩, rfl, rfl⟩

/-- A call whose result is known fails exactly when the countdown to a fault has come to its end. -/
private theorem call_counted {f : Disk → Except Errno Disk} {s : Fs} {d : Disk} (hf : f s.disk = .ok d) :
    Ends (call f)
      (fun _ s' => s.SameJournal s' ∧ s'.disk = d ∧ s.fault = s'.fault.map (· + 1))
      (fun _ s' => s.SameJournal s' ∧ s'.disk = s.disk ∧ s.fault = some 0) s := by
  unfold call
  rw [ends_bind]
  refine (tick_counted s).mono (fun _ s' hs' => ?_) (fun _ _ hs' => hs')
  obtain ⟨hj, hd, hcount⟩ := hs'
  rw [ends_bind, ends_get, hd, hf]
  unfold writeDisk
  dsimp only
  rw [ends_modify]
  exact ⟨⟨hj.uuids, hj.undoStack, hj.cleanupStack, hj.quiet⟩, rfl, hcount⟩

/-- The file grows byte by byte, and where the countdown ends it keeps what it has. -/
private theorem writeFrom_spec {l : Loc} {d : Disk} (rest : List UInt8) {s : Fs} {written : ByteArray}
    (h : s.disk = d.put l (.file written)) :
    Ends (writeFrom l written rest)
      (fun _ s' => s.SameJournal s' ∧ s'.disk = d.put l (.file ⟨(written.data.toList ++ rest).toArray⟩))
      (fun _ s' => s.SameJournal s' ∧ (∃ n, s.fault = some n ∧ n < rest.length) ∧ ∃ part, s'.disk =
        d.put l (.file part))
      s := by
  induction rest generalizing s written with
  | nil => exact ⟨.refl s, by rw [h, List.append_nil]⟩
  | cons byte rest ih =>
    unfold writeFrom
    rw [ends_bind]
    refine (call_counted (f := fun d => .ok (d.put l (.file (written.push byte)))) rfl).mono (fun _ s1 hs1 => ?_)
      (fun _ s1 hs1 => ?_)
    · obtain ⟨hj1, hd1, hcount⟩ := hs1
      rw [h, Disk.put_put] at hd1
      refine (ih hd1).mono (fun _ s2 hs2 => ⟨hj1.trans hs2.1, ?_⟩) (fun _ s2 hs2 => ?_)
      · rw [hs2.2]
        simp
      · obtain ⟨hj2, ⟨n, hn, hlt⟩, hpart⟩ := hs2
        exact ⟨hj1.trans hj2, ⟨n + 1, by rw [hcount, hn]; rfl, Nat.succ_lt_succ hlt⟩, hpart⟩
    · exact ⟨hs1.1, ⟨0, hs1.2.2, Nat.succ_pos _⟩, written, hs1.2.1.trans h⟩

/-- `writeBytes` of a file that can be opened: if it is not opened nothing has happened, and else it stays. -/
theorem writeBytes_spec {l : Loc} (data : ByteArray) {s : Fs}
    (h : s.disk.create l = .ok (s.disk.put l (.file .empty))) :
    Ends (writeBytes l data)
      (fun _ s' => s.SameJournal s' ∧ s'.disk = s.disk.put l (.file data))
      (fun _ s' => s.SameJournal s' ∧ ((s.fault = some 0 ∧ s'.disk = s.disk) ∨
        ∃ n, s.fault = some (n + 1) ∧ n < data.size ∧ ∃ part, s'.disk = s.disk.put l (.file part))) s := by
  unfold writeBytes
  rw [ends_bind]
  refine (call_counted h).mono (fun _ s1 hs1 => ?_) (fun _ s1 hs1 => ⟨hs1.1, .inl ⟨hs1.2.2, hs1.2.1⟩⟩)
  obtain ⟨hj1, hd1, hcount⟩ := hs1
  refine (writeFrom_spec data.data.toList hd1).mono (fun _ s2 hs2 => ⟨hj1.trans hs2.1, hs2.2⟩) (fun _ s2 hs2 => ?_)
  obtain ⟨hj2, ⟨n, hn, hlt⟩, hpart⟩ := hs2
  exact ⟨hj1.trans hj2, .inr ⟨n, by rw [hcount, hn]; rfl, by simpa using hlt, hpart⟩⟩

theorem pathExists_spec {s : Fs} (h : s.disk.WF) (l : Loc) :
    Ends (pathExists l) (fun b s' => s.Kept s' ∧ b = (s.disk.node l).isSome)
      (fun _ s' => s.Kept s' ∧ (s.fault ≠ none ∨ ¬s.disk.Fits l)) s := by
  unfold pathExists
  rw [ends_bind]
  refine (tick_spec s).mono (fun _ s' hs' => ?_) (fun e s' hs' => ⟨hs'.1, .inl hs'.2.2⟩)
  rw [ends_bind, ends_get, hs'.disk]
  split
  · rename_i n hr
    rw [ends_pure, (h.resolve_ok_iff _ _).1 hr]
    exact ⟨hs', rfl⟩
  · rename_i hr
    rw [ends_pure, h.resolve_eq_none hr]
    exact ⟨hs', rfl⟩
  · rename_i hr
    rw [ends_pure, h.resolve_eq_none hr]
    exact ⟨hs', rfl⟩
  · rename_i e hn hnd hr
    rw [ends_throw]
    refine ⟨hs', .inr ?_⟩
    rcases Disk.resolve_error_cases hr with rfl | rfl | h
    · exact absurd rfl hn
    · exact absurd rfl hnd
    · exact h.2

private theorem isDir_spec {s : Fs} (h : s.disk.WF) (l : Loc) :
    Ends (isDir l) (fun b s' => s.Kept s' ∧ (b = true ↔ s.disk.node l = some .dir))
      (fun _ s' => s.Kept s' ∧ (s.fault ≠ none ∨ ¬s.disk.Fits l)) s := by
  unfold isDir
  rw [ends_bind]
  refine (tick_spec s).mono (fun _ s' hs' => ?_) (fun e s' hs' => ⟨hs'.1, .inl hs'.2.2⟩)
  rw [ends_bind, ends_get, hs'.disk]
  split
  · rename_i hr
    rw [ends_pure, (h.resolve_ok_iff _ _).1 hr]
    exact ⟨hs', by simp⟩
  · rename_i hr
    rw [ends_pure, (h.resolve_ok_iff _ _).1 hr]
    exact ⟨hs', by simp⟩
  · rename_i hr
    rw [ends_pure, h.resolve_eq_none hr]
    exact ⟨hs', by simp⟩
  · rename_i hr
    rw [ends_pure, h.resolve_eq_none hr]
    exact ⟨hs', by simp⟩
  · rename_i e hn hnd hr
    rw [ends_throw]
    refine ⟨hs', .inr ?_⟩
    rcases Disk.resolve_error_cases hr with rfl | rfl | h
    · exact absurd rfl hn
    · exact absurd rfl hnd
    · exact h.2

theorem ends_uuid4 {s : Fs} {Q : Nat → Fs → Prop} {E : StoreError → Fs → Prop} :
    Ends uuid4 Q E s ↔ Q s.uuids { s with uuids := s.uuids + 1 } := Iff.rfl

theorem ends_undoPath {kind : UndoKind} {s : Fs} {Q : Loc → Fs → Prop} {E : StoreError → Fs → Prop} :
    Ends (undoPath kind) Q E s ↔ Q (undoLoc kind s.uuids) { s with uuids := s.uuids + 1 } := Iff.rfl

/-! ### Making directories -/

/-- The disk after the directories from `q` up have been made. -/
structure Disk.AddsDirs (d d' : Disk) (a : Area) (q : TreePath) : Prop where
  node : ∀ l, d'.node l = if l.area = a ∧ l.path <:+ q then some .dir else d.node l
  pathMax : d'.pathMax = d.pathMax
  wf : d'.WF
  noFile : ∀ r, r <:+ q → ∀ data, d.node ⟨a, r⟩ ≠ some (.file data)

private theorem Disk.AddsDirs.nil {d : Disk} (h : d.WF) (a : Area) : d.AddsDirs d a [] := by
  refine ⟨fun l => ?_, rfl, h, fun r hr data => ?_⟩
  · split
    · rename_i hl
      obtain ⟨la, lp⟩ := l
      simp only [List.suffix_nil] at hl
      obtain ⟨rfl, rfl⟩ := hl
      rfl
    · rfl
  · rw [List.suffix_nil.1 hr]
    simp

/-- An existing directory and those above it are not added anew. -/
private theorem Disk.AddsDirs.of_dir {d : Disk} (h : d.WF) {a : Area} {q : TreePath} (hq : d.node ⟨a, q⟩ = some .dir) :
    d.AddsDirs d a q := by
  have key : ∀ r, r <:+ q → d.node ⟨a, r⟩ = some .dir := by
    intro r hr
    by_cases e : r = q
    · rw [e]; exact hq
    · exact h.ancestor (by rw [hq]; rfl) hr e
  refine ⟨fun l => ?_, rfl, h, fun r hr data => by rw [key r hr]; simp⟩
  split
  · rename_i hl
    obtain ⟨la, lp⟩ := l
    obtain ⟨rfl, hlp⟩ := hl
    exact key lp hlp
  · rfl

private theorem Disk.AddsDirs.cons {d d1 : Disk} {a : Area} {name : String} {rest : TreePath}
    (h : d.AddsDirs d1 a rest) (hn : d1.node ⟨a, name :: rest⟩ = none) (hfit : d1.Fits ⟨a, name :: rest⟩) :
    d.AddsDirs (d1.put ⟨a, name :: rest⟩ .dir) a (name :: rest) := by
  have hp : d1.node ⟨a, rest⟩ = some .dir := by rw [h.node]; simp
  refine ⟨fun l => ?_, h.pathMax, h.wf.put (by simp) hp hfit (.inl rfl), fun r hr data => ?_⟩
  · rw [Disk.node_put d1 (by simp), h.node]
    obtain ⟨la, lp⟩ := l
    simp only [Loc.mk.injEq, List.suffix_cons_iff]
    by_cases ha : la = a <;> by_cases hc : lp = name :: rest <;> simp [ha, hc]
  · rcases List.suffix_cons_iff.1 hr with rfl | hr
    · have := h.node ⟨a, name :: rest⟩
      rw [hn] at this
      split at this
      · cases this
      · rw [← this]; simp
    · exact h.noFile r hr data

private theorem mkdirExistOk_spec {s : Fs} (h : s.disk.WF) {a : Area} {name : String} {rest : TreePath}
    (hp : s.disk.node ⟨a, rest⟩ = some .dir) (hn : s.disk.node ⟨a, name :: rest⟩ = none) :
    Ends (mkdirExistOk ⟨a, name :: rest⟩)
      (fun _ s' => s.SameJournal s' ∧ s.disk.Fits ⟨a, name :: rest⟩ ∧ s'.disk = s.disk.put ⟨a, name :: rest⟩ .dir)
      (fun _ s' => s.Kept s' ∧ (s.fault ≠ none ∨ ¬s.disk.Fits ⟨a, name :: rest⟩)) s := by
  unfold mkdirExistOk
  rw [ends_tryCatch]
  refine (call_spec _ s).mono (fun _ s' hs' => ?_) (fun e s' hs' => ?_)
  · obtain ⟨-, -, -, hfit, hd⟩ := h.mkdir_ok hs'.1
    exact ⟨hs'.2, hfit, hd⟩
  · have hbad : s.fault ≠ none ∨ ¬s.disk.Fits ⟨a, name :: rest⟩ := by
      rcases hs'.2 with ⟨_, hf⟩ | ⟨er, her, _⟩
      · exact .inl hf
      · refine .inr fun hfit => ?_
        rw [h.mkdir_of_none (l := ⟨a, name :: rest⟩) hp hn hfit] at her
        cases her
    have hw' : s'.disk.WF := by rw [hs'.1.disk]; exact h
    refine Ends.ite (fun _ => ⟨hs'.1, hbad⟩) (fun _ => ?_)
    rw [ends_bind]
    refine (isDir_spec hw' _).mono (fun b s'' hs'' => ?_) (fun e' s'' hs'' => ⟨hs'.1.trans hs''.1, hbad⟩)
    refine Ends.ite (fun hb => ?_) (fun _ => ⟨hs'.1.trans hs''.1, hbad⟩)
    have := hs''.2.1 hb
    rw [hs'.1.disk, hn] at this
    cases this

/-- Why `mkdirParents` may raise: a call faults, the location does not fit, or a file is in the way. -/
def MkdirBlocked (s : Fs) (a : Area) (p : TreePath) : Prop :=
  s.fault ≠ none ∨ ¬s.disk.Fits ⟨a, p⟩ ∨ ∃ r, r <:+ p ∧ ∃ data, s.disk.node ⟨a, r⟩ = some (.file data)

/-- A `mkdir` that fails without saying `ENOENT`, at a place that is not a directory. -/
private theorem mkdir_blocked {s : Fs} (h : s.disk.WF) {a : Area} {p : TreePath} {e : StoreError}
    (he : (e = .osError .ioFault ∧ s.fault ≠ none) ∨ ∃ er, s.disk.mkdir ⟨a, p⟩ = .error er ∧ e = .osError er)
    (hno : e ≠ .osError .ENOENT) (hdir : s.disk.node ⟨a, p⟩ ≠ some .dir) : MkdirBlocked s a p := by
  have byResolve : ∀ q er, q <:+ p → s.disk.resolve ⟨a, q⟩ = .error er → er ≠ .ENOENT → MkdirBlocked s a p := by
    intro q er hq hr hne
    rcases Disk.resolve_error_cases hr with rfl | rfl | ⟨-, hfit⟩
    · exact absurd rfl hne
    · obtain ⟨r, hrq, hfile⟩ := h.resolve_enotdir hr
      exact .inr (.inr ⟨r, hrq.trans hq, hfile⟩)
    · exact .inr (.inl fun hf => hfit (hf.suffix hq))
  rcases he with ⟨-, hf⟩ | ⟨er, her, rfl⟩
  · exact .inl hf
  · have hne : er ≠ .ENOENT := fun e => hno (by rw [e])
    unfold Disk.mkdir at her
    split at her
    · rename_i e' hr
      cases her
      exact byResolve _ _ (List.tail_suffix p) hr hne
    · rename_i data hr
      exact .inr (.inr ⟨_, List.tail_suffix p, data, (h.resolve_ok_iff _ _).1 hr⟩)
    · split at her
      · rename_i n hr
        have hn := (h.resolve_ok_iff _ _).1 hr
        cases n with
        | dir => exact absurd hn hdir
        | file data => exact .inr (.inr ⟨p, List.suffix_refl p, data, hn⟩)
      · cases her
      · rename_i e' _ hr
        cases her
        exact byResolve _ _ (List.suffix_refl p) hr hne

/-- `mkdirParents` makes a location and everything above it directories.  When it raises, it has done so for a part of
the way only; a part it has really made means that a call faulted or that the location does not fit. -/
theorem mkdirParents_spec (a : Area) (p : TreePath) {s : Fs} (h : s.disk.WF) :
    Ends (mkdirParents a p)
      (fun _ s' => s.SameJournal s' ∧ s.disk.AddsDirs s'.disk a p)
      (fun _ s' => s.SameJournal s' ∧ MkdirBlocked s a p ∧ ∃ q, q <:+ p ∧ s.disk.AddsDirs s'.disk a q ∧
        (q = [] ∨ s.fault ≠ none ∨ ¬s.disk.Fits ⟨a, p⟩)) s := by
  -- the recursion goes up to the first directory that is there
  induction p generalizing s with
  | nil => exact ⟨.refl s, .nil h a⟩
  | cons name rest ih =>
    unfold mkdirParents
    rw [ends_tryCatch]
    refine (call_spec _ s).mono (fun _ s' hs' => ?_) (fun e s' hs' => ?_)
    · obtain ⟨-, hp, hn, hfit, hd⟩ := h.mkdir_ok hs'.1
      refine ⟨hs'.2, ?_⟩
      rw [hd]
      exact (Disk.AddsDirs.of_dir h hp).cons hn hfit
    · have hw' : s'.disk.WF := by rw [hs'.1.disk]; exact h
      -- where no directory has been made nothing has changed
      have stay : ∀ s'', MkdirBlocked s a (name :: rest) → s'.Kept s'' →
          s.SameJournal s'' ∧ MkdirBlocked s a (name :: rest) ∧
          ∃ q, q <:+ name :: rest ∧ s.disk.AddsDirs s''.disk a q ∧
            (q = [] ∨ s.fault ≠ none ∨ ¬s.disk.Fits ⟨a, name :: rest⟩) := by
        intro s'' hb hs''
        refine ⟨(hs'.1.trans hs'').toSameJournal, hb, [], List.nil_suffix, ?_, .inl rfl⟩
        rw [(hs'.1.trans hs'').disk]
        exact .nil h a
      refine Ends.ite (fun hno => ?_) (fun hno => ?_)
      · -- the directory above is missing: it is made first, then this one
        subst hno
        have hmiss : s.disk.node ⟨a, name :: rest⟩ = none := by
          rcases hs'.2 with ⟨he, _⟩ | ⟨er, her, he⟩
          · cases he
          · cases he
            unfold Disk.mkdir at her
            split at her
            · rename_i e' hr
              exact h.none_leaf (h.resolve_eq_none hr) name
            · cases her
            · split at her
              · cases her
              · cases her
              · rename_i e' _ hr
                exact h.resolve_eq_none hr
        rw [ends_bind]
        refine (ih hw').mono (fun _ s1 hs1 => ?_) (fun _ s1 hs1 => ?_)
        · obtain ⟨hj1, hadd⟩ := hs1
          rw [hs'.1.disk] at hadd
          have hp1 : s1.disk.node ⟨a, rest⟩ = some .dir := by rw [hadd.node]; simp
          have hn1 : s1.disk.node ⟨a, name :: rest⟩ = none := by
            rw [hadd.node, if_neg, hmiss]
            rintro ⟨-, hsuf⟩
            have := hsuf.length_le
            simp at this
          have hfit1 : s1.disk.Fits ⟨a, name :: rest⟩ ↔ s.disk.Fits ⟨a, name :: rest⟩ := by
            unfold Disk.Fits Disk.pathTooLong
            rw [hadd.pathMax]
          refine (mkdirExistOk_spec hadd.wf hp1 hn1).mono (fun _ s2 hs2 => ?_) (fun _ s2 hs2 => ?_)
          · refine ⟨(hs'.1.toSameJournal.trans hj1).trans hs2.1, ?_⟩
            rw [hs2.2.2]
            exact hadd.cons hn1 hs2.2.1
          · have hbad : s.fault ≠ none ∨ ¬s.disk.Fits ⟨a, name :: rest⟩ := by
              rcases hs2.2 with hf | hf
              · exact .inl fun hq => hf (hj1.quiet (hs'.1.quiet hq))
              · exact .inr fun hfit => hf (hfit1.2 hfit)
            refine ⟨(hs'.1.toSameJournal.trans hj1).trans hs2.1.toSameJournal, ?_, rest, List.suffix_cons _ _, ?_,
              .inr hbad⟩
            · exact hbad.imp id .inl
            · rw [hs2.1.disk]; exact hadd
        · obtain ⟨hj1, hblock, q, hq, hadd, hbad⟩ := hs1
          unfold MkdirBlocked at hblock
          rw [hs'.1.disk] at hadd hbad hblock
          have hfault : s'.fault ≠ none → s.fault ≠ none := fun hf hq => hf (hs'.1.quiet hq)
          have hfit : ¬s.disk.Fits ⟨a, rest⟩ → ¬s.disk.Fits ⟨a, name :: rest⟩ :=
            fun hf hfit => hf (hfit.suffix (List.suffix_cons _ _))
          refine ⟨hs'.1.toSameJournal.trans hj1, ?_, q, hq.trans (List.suffix_cons _ _), hadd, ?_⟩
          · rcases hblock with hf | hf | ⟨r, hr, hfile⟩
            · exact .inl (hfault hf)
            · exact .inr (.inl (hfit hf))
            · exact .inr (.inr ⟨r, hr.trans (List.suffix_cons _ _), hfile⟩)
          · exact hbad.imp id (.imp hfault hfit)
      -- any other error is passed over when the directory is there already
      · rw [ends_bind]
        refine (isDir_spec hw' _).mono (fun b s'' hs'' => ?_) (fun e' s'' hs'' => ?_)
        · refine Ends.ite (fun hb => ?_) (fun hb => stay s'' ?_ hs''.1)
          · have hdir := hs''.2.1 hb
            rw [hs'.1.disk] at hdir
            refine ⟨(hs'.1.trans hs''.1).toSameJournal, ?_⟩
            rw [(hs'.1.trans hs''.1).disk]
            exact .of_dir h hdir
          · refine mkdir_blocked h hs'.2 hno fun hdir => hb (hs''.2.2 ?_)
            rw [hs'.1.disk]
            exact hdir
        · refine stay s'' ?_ hs''.1
          rcases hs''.2 with hf | hf
          · exact .inl fun hq => hf (hs'.1.quiet hq)
          · rw [hs'.1.disk] at hf
            exact .inr (.inl hf)

/-- Without faults `mkdirParents` succeeds when the location fits and no file is in the way. -/
theorem mkdirParents_of_fits {a : Area} {p : TreePath} {s : Fs} (h : s.disk.WF) (hq : s.fault = none)
    (hfit : s.disk.Fits ⟨a, p⟩) (hfile : ∀ r, r <:+ p → ∀ data, s.disk.node ⟨a, r⟩ ≠ some (.file data)) :
    Ends (mkdirParents a p) (fun _ s' => s.SameJournal s' ∧ s.disk.AddsDirs s'.disk a p) (fun _ _ => False) s := by
  refine (mkdirParents_spec a p h).mono (fun _ _ hs' => hs') (fun _ s' hs' => ?_)
  rcases hs'.2.1 with hf | hf | ⟨r, hr, data, hd⟩
  · exact hf hq
  · exact hf hfit
  · exact hfile r hr data hd

end Ctxd

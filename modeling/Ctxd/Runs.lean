import Ctxd.Submit

/-!
# Runs of a store

A store starts empty and is changed by registrations and submissions, each of which returns or raises.  In a run whose
submissions move no document to the path it has, and whose rollbacks cannot be obstructed, rows and tree files agree
after every call.  A document that is moved to its own path loses its file: it is taken to a temporary place like a
cycle of one document, and never brought back.
-/

namespace Ctxd

open Program

/-- A new store, on a machine with some clock and some limit for paths. -/
def emptyStore (clock : Nat → Int) (pathMax : Nat) : World :=
  { catalog := ⟨[], [], [], []⟩, fs := ⟨⟨[], pathMax⟩, 0, [], [], none, []⟩, clock := clock, ticks := 0 }

theorem Ends.finalState {α : Type} {m : StoreM α} {w : World} {P : World → Prop}
    (h : Ends m (fun _ w' => P w') (fun _ w' => P w') w) : P (finalState m w) := by
  unfold Ends at h
  unfold Ctxd.finalState
  split <;> rename_i heq <;> rw [heq] at h <;> exact h

/-- A call to a store; a submission may meet one call of the filesystem that faults. -/
inductive Call
  | register (user writer pre : String)
  | submit (user writer : String) (operations : List Operation) (fault : Option Nat)

def Call.run (w : World) : Call → World
  | .register user writer pre => finalState (registerPrefix user writer pre) w
  | .submit user writer operations fault =>
    finalState (Ctxd.submit user writer operations) { w with fs := { w.fs with fault := fault } }

def runCalls (calls : List Call) (w : World) : World := calls.foldl Call.run w

/-- The path that an operation names for its document. -/
def Operation.names : Operation → Option String
  | .put op => some op.path
  | .move op => some op.path
  | .delete _ => none
  | .decision _ => none

def Call.Names (path : String) : Call → Prop
  | .register _ _ _ => False
  | .submit _ _ operations _ => ∃ op ∈ operations, op.names = some path

/-- No document is moved to the path it has, and no step that may fail places a file strictly below a path that an
earlier step has freed. -/
def Faithful (user writer : String) (w : World) (operations : List Operation) : Prop :=
  ∀ ordered, checked w.catalog user writer operations = .ok ordered →
    ∀ plans, plannedMoves w.catalog user writer ordered = .ok plans →
      (∀ p ∈ plans, p.entry.path ≠ p.destination) ∧
        (w.fs.fault ≠ none ∨ (∃ step ∈ fileSteps user writer w.catalog.paths ordered plans,
            ∃ t ∈ step.fills, ¬w.fs.disk.Fits (treeLoc user t)) →
          Unnested (fileSteps user writer w.catalog.paths ordered plans))

def Call.Faithful (w : World) : Call → Prop
  | .register _ _ _ => True
  | .submit user writer operations fault =>
    Ctxd.Faithful user writer { w with fs := { w.fs with fault := fault } } operations

/-- Every submission of the run is faithful in the state it meets. -/
def FaithfulRun : World → List Call → Prop
  | _, [] => True
  | w, call :: rest => call.Faithful w ∧ FaithfulRun (call.run w) rest

/-! ### Deciding -/

section

variable {ε α : Type}

/-- A property of the result of a check can be decided by running the check. -/
def decidableOfOk (x : Except ε α) {P : α → Prop} [∀ a, Decidable (P a)] : Decidable (∀ a, x = .ok a → P a) :=
  match x with
  | .ok a => decidable_of_iff (P a) ⟨fun h _ e => Except.ok.inj e ▸ h, fun h => h a rfl⟩
  | .error _ => isTrue fun _ e => nomatch e

end

instance (d : Disk) (l : Loc) : Decidable (d.Fits l) := by
  unfold Disk.Fits
  infer_instance

instance (steps : List FileStep) : Decidable (Unnested steps) := by
  unfold Unnested
  infer_instance

instance (user writer : String) (w : World) (operations : List Operation) :
    Decidable (Faithful user writer w operations) := by
  unfold Faithful
  exact @decidableOfOk _ _ _ _ fun _ => @decidableOfOk _ _ _ _ fun _ => inferInstance

instance (w : World) (call : Call) : Decidable (call.Faithful w) :=
  match call with
  | .register _ _ _ => isTrue trivial
  | .submit user writer operations fault =>
    inferInstanceAs (Decidable (Faithful user writer { w with fs := { w.fs with fault := fault } } operations))

def decideFaithfulRun : (w : World) → (calls : List Call) → Decidable (FaithfulRun w calls)
  | _, [] => isTrue trivial
  | w, call :: rest => @instDecidableAnd _ _ inferInstance (decideFaithfulRun (call.run w) rest)

instance (w : World) (calls : List Call) : Decidable (FaithfulRun w calls) := decideFaithfulRun w calls

section

variable {user writer : String} {w : World}

/-! ### One call -/

theorem selfMoved_eq_empty {ordered : List Operation}
    (h : ∀ plans, plannedMoves w.catalog user writer ordered = .ok plans → ∀ p ∈ plans, p.entry.path ≠ p.destination) :
    selfMoved w.catalog user writer ordered = ∅ := by
  rw [Set.eq_empty_iff_forall_notMem]
  rintro i ⟨plans, hp, p, hmem, -, hs⟩
  exact h plans hp p hmem hs

theorem Faithful.undoable {operations ordered : List Operation} (h : Faithful user writer w operations)
    (hc : checked w.catalog user writer operations = .ok ordered) : Undoable user writer w ordered := by
  intro plans hp hr
  obtain ⟨hself, hsafe⟩ := h ordered hc plans hp
  refine hsafe ?_
  rcases hr with hf | ht | hl
  · exact .inl hf
  · exact .inr ht
  · rw [selfMoved_eq_empty fun plans' hp' => (h ordered hc plans' hp').1] at hl
    exact absurd hl Set.not_nonempty_empty

/-- Where the path of a document comes from. -/
private theorem effect_path {ordered : List Operation} {D : Docs} {i : SourceId} {path : String} {y : Option ByteArray}
    (h : effect user writer ordered D i = some (path, y)) :
    (∃ y', D i = some (path, y')) ∨ (∃ op ∈ Catalog.putsOf ordered, op.path = path) ∨
      ∃ op ∈ Catalog.movesOf ordered, op.path = path := by
  have puts : ∀ (ops : List PutOperation) (D : Docs), ops.foldl (putDoc user writer) D i = some (path, y) →
      (∃ y', D i = some (path, y')) ∨ ∃ op ∈ ops, op.path = path := by
    intro ops
    induction ops with
    | nil => exact fun D h => .inl ⟨y, h⟩
    | cons op ops ih =>
      intro D h
      rcases ih _ h with ⟨y', hy⟩ | ⟨op', hop', hp⟩
      · rw [putDoc, Function.update_apply] at hy
        split at hy
        · cases hy
          exact .inr ⟨op, by simp, rfl⟩
        · exact .inl ⟨y', hy⟩
      · exact .inr ⟨op', List.mem_cons_of_mem _ hop', hp⟩
  have moves : ∀ (ops : List MoveOperation) (D : Docs) (y' : Option ByteArray),
      ops.foldl (moveDoc user writer) D i = some (path, y') →
      (∃ y', D i = some (path, y')) ∨ ∃ op ∈ ops, op.path = path := by
    intro ops
    induction ops with
    | nil => exact fun D y' h => .inl ⟨y', h⟩
    | cons op ops ih =>
      intro D y' h
      rcases ih _ _ h with ⟨y', hy⟩ | ⟨op', hop', hp⟩
      · rw [moveDoc, Function.update_apply] at hy
        split at hy
        · obtain ⟨x, -, hx⟩ := Option.map_eq_some_iff.1 hy
          cases hx
          exact .inr ⟨op, by simp, rfl⟩
        · exact .inl ⟨y', hy⟩
      · exact .inr ⟨op', List.mem_cons_of_mem _ hop', hp⟩
  have deletes : ∀ (ops : List DeleteOperation) (D : Docs) (y' : Option ByteArray),
      ops.foldl (deleteDoc user writer) D i = some (path, y') → ∃ y', D i = some (path, y') := by
    intro ops
    induction ops with
    | nil => exact fun D y' h => ⟨y', h⟩
    | cons op ops ih =>
      intro D y' h
      obtain ⟨y', hy⟩ := ih _ _ h
      rw [deleteDoc, Function.update_apply] at hy
      split at hy
      · cases hy
      · exact ⟨y', hy⟩
  rcases puts _ _ h with ⟨y1, h1⟩ | h1
  · rcases moves _ _ _ h1 with ⟨y2, h2⟩ | h2
    · exact .inl (deletes _ _ _ h2)
    · exact .inr (.inr h2)
  · exact .inr (.inl h1)

private theorem names_of_puts {operations : List Operation} {op : PutOperation} (h : op ∈ Catalog.putsOf operations) :
    .put op ∈ operations := by
  unfold Catalog.putsOf at h
  obtain ⟨o, ho, hop⟩ := List.mem_filterMap.1 h
  cases o <;> simp at hop
  rw [← hop]
  exact ho

private theorem names_of_moves {operations : List Operation} {op : MoveOperation}
    (h : op ∈ Catalog.movesOf operations) :
    .move op ∈ operations := by
  unfold Catalog.movesOf at h
  obtain ⟨o, ho, hop⟩ := List.mem_filterMap.1 h
  cases o <;> simp at hop
  rw [← hop]
  exact ho

private theorem submit_consistent {operations : List Operation} (h : Consistent w)
    (hf : Faithful user writer w operations) :
    Ends (submit user writer operations)
      (fun _ w' => Consistent w' ∧ ∀ e ∈ w'.catalog.entries, (∃ e' ∈ w.catalog.entries, e'.path = e.path) ∨
        ∃ op ∈ operations, op.names = some e.path)
      (fun _ w' => Consistent w' ∧ ∀ e ∈ w'.catalog.entries, (∃ e' ∈ w.catalog.entries, e'.path = e.path) ∨
        ∃ op ∈ operations, op.names = some e.path) w := by
  refine (submit_spec h fun ordered hc => hf.undoable hc).mono (fun _ w' hw' => ?_) (fun _ w' hw' => ?_)
  · obtain ⟨ordered, hc, -, -, -, -, hgood⟩ := hw'
    obtain ⟨hcons, hdocs⟩ := hgood (selfMoved_eq_empty fun plans hp => (hf ordered hc plans hp).1)
    obtain ⟨hdup, hord, -⟩ := checked_ok hc
    obtain ⟨-, -, hperm, hputs, -⟩ := orderedOperations_ok hdup hord
    refine ⟨hcons, fun e he => ?_⟩
    have hrow : docs w'.catalog w'.fs.disk (fun _ => none) e.source =
        some (e.path, w'.fs.disk.file (place (fun _ => none) e)) := by
      unfold docs
      rw [hcons.distinct.row_eq_some_iff.2 ⟨he, rfl⟩]
      rfl
    rw [hdocs] at hrow
    rcases effect_path hrow with ⟨y, hy⟩ | ⟨op, hop, hp⟩ | ⟨op, hop, hp⟩
    · left
      obtain ⟨e', he', hx⟩ := Option.map_eq_some_iff.1 hy
      exact ⟨e', (Catalog.mem_of_row he').1, congrArg Prod.fst hx⟩
    · rw [hputs] at hop
      exact .inr ⟨.put op, names_of_puts hop, congrArg some hp⟩
    · exact .inr ⟨.move op, names_of_moves (hperm.mem_iff.1 hop), congrArg some hp⟩
  · refine ⟨hw'.2.1, fun e he => ?_⟩
    rw [hw'.1.entries] at he
    exact .inl ⟨e, he, rfl⟩

theorem registerPrefix_entries {pre : String} :
    Ends (registerPrefix user writer pre)
      (fun _ w' => w'.catalog.entries = w.catalog.entries ∧ w'.fs = w.fs)
      (fun _ w' => w'.catalog.entries = w.catalog.entries ∧ w'.fs = w.fs) w := by
  unfold registerPrefix
  rw [ends_bind, ends_orRaise]
  refine ⟨fun normalized hn => ?_, fun e he => ⟨rfl, rfl⟩⟩
  rw [ends_bind, ends_now, ends_transaction, ends_bind, ends_catalog]
  simp only
  rw [ends_bind]
  refine (Ends.forM_inv (I := fun w' => w'.catalog.entries = w.catalog.entries ∧ w'.fs = w.fs) (fun row _ w1 hw1 => ?_)
    (⟨rfl, rfl⟩ : (_ : World).catalog.entries = _ ∧ _)).mono (fun _ w1 hw1 => ?_) (fun _ w1 hw1 => hw1)
  · rw [ends_bind, ends_orRaise]
    refine ⟨fun overlap _ => Ends.ite (fun _ => ⟨trivial, hw1.2⟩) fun _ => hw1, fun e he => ⟨trivial, hw1.2⟩⟩
  · rw [ends_execute]
    refine ⟨fun c hc => ?_, fun e he => by cases he⟩
    cases hc
    refine ⟨?_, hw1.2⟩
    show (Catalog.insertPrefix _ _).entries = _
    unfold Catalog.insertPrefix
    split <;> exact hw1.1

theorem Consistent.of_entries {w' : World} (h : Consistent w) (hc : w'.catalog.entries = w.catalog.entries)
    (hd : w'.fs.disk = w.fs.disk) (hu : w'.fs.uuids = w.fs.uuids) : Consistent w' := by
  refine ⟨by rw [hd]; exact h.wf, by rw [hd, hu]; exact h.fresh, by rw [hd]; exact h.flat,
    ?_, by rw [hc]; exact h.normal⟩
  rw [hd]
  exact h.agrees.of_files hc fun _ _ => rfl

private theorem Call.run_consistent {call : Call} (h : Consistent w) (hf : call.Faithful w) :
    Consistent (call.run w) ∧ ∀ e ∈ (call.run w).catalog.entries, (∃ e' ∈ w.catalog.entries, e'.path = e.path) ∨
      call.Names e.path := by
  cases call with
  | register user writer pre =>
    have hreg : (finalState (registerPrefix user writer pre) w).catalog.entries = w.catalog.entries ∧
        (finalState (registerPrefix user writer pre) w).fs = w.fs := Ends.finalState registerPrefix_entries
    refine ⟨h.of_entries hreg.1 (by rw [Call.run, hreg.2]) (by rw [Call.run, hreg.2]), fun e he => ?_⟩
    rw [Call.run, hreg.1] at he
    exact .inl ⟨e, he, rfl⟩
  | submit user writer operations fault =>
    exact Ends.finalState (submit_consistent (w := { w with fs := { w.fs with fault := fault } })
      (h.of_entries rfl rfl rfl) hf)

/-! ### Runs -/

theorem emptyStore_consistent (clock : Nat → Int) (pathMax : Nat) : Consistent (emptyStore clock pathMax) := by
  have hnode : ∀ l : Loc, l.path ≠ [] → (emptyStore clock pathMax).fs.disk.node l = none := by
    intro l hl
    rw [Disk.node_of_ne_nil _ hl]
    rfl
  have hsome : ∀ l : Loc, ((emptyStore clock pathMax).fs.disk.node l).isSome → l.path = [] := by
    intro l hl
    by_contra hne
    rw [hnode l hne] at hl
    cases hl
  refine ⟨⟨fun a name rest hs => ?_, fun a name rest hs => ?_, fun l hs => ?_⟩, fun kind m _ => ?_, fun l hl hne => ?_,
    ⟨fun e he => (nomatch he), fun user p data hp => ?_, List.nodup_nil, List.nodup_nil⟩, fun e he => (nomatch he)⟩
  · cases hsome _ hs
  · cases hsome _ hs
  · have hp := hsome l hs
    unfold Disk.pathTooLong
    split
    · rw [hp]
      simp
    · rfl
  · exact hnode _ (undoLoc_path_ne_nil kind m)
  · rw [hnode l hne] at hl
    cases hl
  · by_cases hne : p = []
    · subst hne
      cases hp
    · rw [hnode ⟨.users user, p⟩ hne] at hp
      cases hp

theorem runCalls_consistent {calls : List Call} (hw : Consistent w) (h : FaithfulRun w calls) :
    Consistent (runCalls calls w) ∧ ∀ e ∈ (runCalls calls w).catalog.entries,
      (∃ e' ∈ w.catalog.entries, e'.path = e.path) ∨ ∃ call ∈ calls, call.Names e.path := by
  induction calls generalizing w with
  | nil => exact ⟨hw, fun e he => .inl ⟨e, he, rfl⟩⟩
  | cons call calls ih =>
    obtain ⟨hcons, hnames⟩ := Call.run_consistent hw h.1
    obtain ⟨hend, hnames'⟩ := ih hcons h.2
    refine ⟨hend, fun e he => ?_⟩
    rcases hnames' e he with ⟨e', he', hp⟩ | ⟨call', hc', hn⟩
    · rcases hnames e' he' with ⟨e'', he'', hp'⟩ | hn
      · exact .inl ⟨e'', he'', hp'.trans hp⟩
      · exact .inr ⟨call, by simp, hp ▸ hn⟩
    · exact .inr ⟨call', List.mem_cons_of_mem _ hc', hn⟩

theorem FaithfulRun.left {pre post : List Call} (h : FaithfulRun w (pre ++ post)) : FaithfulRun w pre := by
  induction pre generalizing w with
  | nil => trivial
  | cons call pre ih => exact ⟨h.1, ih h.2⟩

end

/-! ### The defect -/

private def plain : Provenance := ⟨"test", "1", none, []⟩

/-- A put of a text for a document. -/
def putText (sourceKey path text : String) : Operation :=
  .put ⟨path, sourceKey, "1", .editable, "text", text, plain⟩

/-- A move of a document whose text is known. -/
def moveText (sourceKey path text : String) : Operation :=
  .move ⟨sourceKey, path, "2", contentHash text.toUTF8⟩

def sampleCalls : List Call :=
  [.register "user" "writer" "d", .submit "user" "writer" [putText "1" "d/a" "x", putText "2" "d/b" "y"] none,
    .submit "user" "writer" [moveText "1" "d/b" "x", moveText "2" "d/a" "y"] (some 9)]

def selfMoveCalls : List Call :=
  [.register "user" "writer" "d", .submit "user" "writer" [putText "1" "d/a" "x"] none,
    .submit "user" "writer" [moveText "1" "d/a" "x"] none]

end Ctxd

import Ctxd.Submit

/-!
# Where a submission puts documents

A submission puts a document only at a path that one of its operations names for it, and a decision gets no other path
than that of its operation (`submit_lands`).  While a batch of moves runs, the documents on its cycles have paths of
their own; each of them is moved on before the batch ends, or the transaction is rolled back.
-/

namespace Ctxd

open Program

/-- Which documents may be at which paths, and which paths the decision for a source may have. -/
structure Placement where
  entry : SourceId → String → Prop
  decision : SourceId → String → Prop

namespace Placement

variable {A : Placement} {c c' : Catalog} {loose loose' : Set SourceId} {user writer : String}

/-- Every document is where it may be, but perhaps for some that are on the move, and so is every decision. -/
structure ClearBut (A : Placement) (loose : Set SourceId) (c : Catalog) : Prop where
  entries : ∀ e ∈ c.entries, A.entry e.source e.path ∨ e.source ∈ loose
  decisions : ∀ r ∈ c.decisions, ∀ path, r.path = some path → A.decision (r.userId, r.writerId, r.sourceKey) path

def Clear (A : Placement) (c : Catalog) : Prop := A.ClearBut ∅ c

/-- What the operation names may be there. -/
def Allows (A : Placement) (user writer : String) : Operation → Prop
  | .put op => A.entry (user, writer, op.sourceKey) op.path
  | .move op => A.entry (user, writer, op.sourceKey) op.path
  | .delete _ => True
  | .decision op => ∀ path, op.path = some path → A.decision (user, writer, op.sourceKey) path

private theorem ClearBut.mono (h : A.ClearBut loose c) (hloose : loose ⊆ loose') : A.ClearBut loose' c :=
  ⟨fun e he => (h.entries e he).imp_right fun hmem => hloose hmem, h.decisions⟩

theorem ClearBut.of_eq (h : A.ClearBut loose c) (hentries : c'.entries = c.entries)
    (hdecisions : c'.decisions = c.decisions) : A.ClearBut loose c' := by
  refine ⟨?_, ?_⟩
  · rw [hentries]
    exact h.entries
  · rw [hdecisions]
    exact h.decisions

/-- What may be somewhere in one placement may be there in another. -/
theorem Clear.weaken {A' : Placement} (h : A.Clear c) (hentry : ∀ i path, A.entry i path → A'.entry i path)
    (hdecision : ∀ i path, A.decision i path → A'.decision i path) : A'.Clear c :=
  ⟨fun e he => (h.entries e he).imp_left (hentry _ _), fun r hr path hpath =>
    hdecision _ _ (h.decisions r hr path hpath)⟩

/-! ### Statements -/

private theorem ClearBut.upsertEntry (h : A.ClearBut loose c) {row : Entry} (hrow : A.entry row.source row.path)
    (hc : c.upsertEntry row = .ok c') : A.ClearBut loose c' := by
  unfold Catalog.upsertEntry at hc
  split at hc
  · cases hc
  split at hc
  · cases hc
    refine ⟨fun e he => ?_, h.decisions⟩
    obtain ⟨e0, he0, rfl⟩ := List.mem_map.1 he
    split
    · exact .inl hrow
    · exact h.entries e0 he0
  · cases hc
    refine ⟨fun e he => ?_, h.decisions⟩
    rcases List.mem_append.1 he with he | he
    · exact h.entries e he
    · rw [List.mem_singleton.1 he]
      exact .inl hrow

/-- The document gets a place where it may be, or it is on the move. -/
private theorem ClearBut.updateEntry (h : A.ClearBut loose c) {sourceKey path : String} {f : Entry → Entry}
    (hc : c.updateEntry user writer sourceKey path f = .ok c') (hf : ∀ e, (f e).source = e.source)
    (hother : ∀ i ∈ loose, i ≠ (user, writer, sourceKey) → i ∈ loose')
    (hnew : A.entry (user, writer, sourceKey) path ∨ (user, writer, sourceKey) ∈ loose') : A.ClearBut loose' c' := by
  unfold Catalog.updateEntry at hc
  split at hc
  · cases hc
  cases hc
  refine ⟨fun e he => ?_, h.decisions⟩
  obtain ⟨e0, he0, rfl⟩ := List.mem_map.1 he
  by_cases hsource : e0.isSource user writer sourceKey = true
  · rw [if_pos hsource]
    rw [e0.isSource_iff] at hsource
    show A.entry (f e0).source path ∨ (f e0).source ∈ loose'
    rw [hf, hsource]
    exact hnew
  · rw [if_neg hsource]
    rw [e0.isSource_iff] at hsource
    exact (h.entries e0 he0).imp_right fun hmem => hother _ hmem hsource

private theorem ClearBut.deleteEntry (h : A.ClearBut loose c) (user writer sourceKey : String) :
    A.ClearBut loose (c.deleteEntry user writer sourceKey) :=
  ⟨fun e he => h.entries e (List.mem_filter.1 he).1, h.decisions⟩

private theorem ClearBut.upsertDecision (h : A.ClearBut loose c) {row : Decision}
    (hrow : ∀ path, row.path = some path → A.decision (row.userId, row.writerId, row.sourceKey) path) :
    A.ClearBut loose (c.upsertDecision row) := by
  unfold Catalog.upsertDecision
  dsimp only
  split
  · refine ⟨h.entries, fun r hr => ?_⟩
    obtain ⟨r0, hr0, rfl⟩ := List.mem_map.1 hr
    split
    · exact hrow
    · exact h.decisions r0 hr0
  · refine ⟨h.entries, fun r hr => ?_⟩
    rcases List.mem_append.1 hr with hr | hr
    · exact h.decisions r hr
    · rw [List.mem_singleton.1 hr]
      exact hrow

/-! ### Programs -/

/-- A program that is started when only `loose` may be out of place ends, if it does not raise, when only `loose'`
may. -/
def Lands {α : Type} (A : Placement) (loose loose' : Set SourceId) (P : α → Prop) (m : StoreM α) : Prop :=
  ∀ w, A.ClearBut loose w.catalog → Ends m (fun a w' => A.ClearBut loose' w'.catalog ∧ P a) (fun _ _ => True) w

namespace Lands

variable {α β : Type} {P : α → Prop} {Q : β → Prop} {m m' : StoreM α} {loose'' : Set SourceId}

private theorem bind {f : α → StoreM β} (h : Lands A loose loose' P m)
    (hf : ∀ a, P a → Lands A loose' loose'' Q (f a)) :
    Lands A loose loose'' Q (m >>= f) := by
  intro w hw
  rw [ends_bind]
  exact (h w hw).mono (fun a w' ha => hf a ha.2 w' ha.1) fun _ _ _ => trivial

private theorem pure {a : α} (ha : P a) : Lands A loose loose P (Pure.pure a) := fun _ hw => ⟨hw, ha⟩

private theorem pure_bind {a : α} {f : α → StoreM β} (h : Lands A loose loose' Q (f a)) :
    Lands A loose loose' Q (Pure.pure a >>= f) := h

/-- Less may be out of place at the start. -/
private theorem loosen {loose0 : Set SourceId} (h : Lands A loose loose' P m) (hloose : loose0 ⊆ loose) :
    Lands A loose0 loose' P m := fun w hw => h w (hw.mono hloose)

private theorem ite {p : Prop} [Decidable p] (h : p → Lands A loose loose' P m) (h' : ¬p → Lands A loose loose' P m') :
    Lands A loose loose' P (if p then m else m') := by
  split
  · exact h ‹_›
  · exact h' ‹_›

private theorem orRaise {x : Except StoreError α} (hP : ∀ a, x = .ok a → P a) :
    Lands A loose loose P (Program.orRaise x) := by
  intro w hw
  rw [ends_orRaise]
  exact ⟨fun a ha => ⟨hw, hP a ha⟩, fun _ _ => trivial⟩

private theorem onDisk {m : FsM α} : Lands A loose loose (fun _ => True) (Ctxd.onDisk m) := by
  intro w hw
  rw [ends_onDisk]
  unfold Ends
  split
  · exact ⟨hw, trivial⟩
  · trivial

private theorem now : Lands A loose loose (fun _ => True) Ctxd.now := fun _ hw => ⟨hw, trivial⟩

private theorem catalog : Lands A loose loose (fun _ => True) Ctxd.catalog := fun _ hw => ⟨hw, trivial⟩

private theorem execute {statement : Catalog → Except StoreError Catalog}
    (h : ∀ c c', A.ClearBut loose c → statement c = .ok c' → A.ClearBut loose' c') :
    Lands A loose loose' (fun _ => True) (Ctxd.execute statement) := by
  intro w hw
  rw [ends_execute]
  exact ⟨fun c hc => ⟨h _ _ hw hc, trivial⟩, fun _ _ => trivial⟩

/-- The loop runs over what is left; what is loose depends on it. -/
private theorem forM {γ : Type} {f : γ → StoreM PUnit} {xs : List γ} (looseIn : List γ → Set SourceId)
    (h : ∀ x rest, x ∈ xs → Lands A (looseIn (x :: rest)) (looseIn rest) (fun _ => True) (f x)) :
    Lands A (looseIn xs) (looseIn []) (fun _ => True) (xs.forM f) := by
  induction xs with
  | nil => exact pure trivial
  | cons x xs ih =>
    show Lands A _ _ _ (f x >>= fun _ => xs.forM f)
    refine bind (h x xs (List.mem_cons_self ..)) fun _ _ => ih fun y rest hy => ?_
    exact h y rest (List.mem_cons_of_mem _ hy)

end Lands

/-! ### Operations -/

private theorem putOperation_lands {op : PutOperation} (hop : A.Allows user writer (.put op)) :
    Lands A ∅ ∅ (fun _ => True) (putOperation user writer op) := by
  unfold putOperation
  refine .bind (.orRaise fun path => normalizePath_eq) fun path hpath => ?_
  refine .bind .catalog fun c _ => ?_
  refine .bind (.orRaise fun _ _ => trivial) fun _ _ => ?_
  refine .bind (.orRaise fun _ _ => trivial) fun text _ => ?_
  refine .bind .now fun time _ => ?_
  have hrow : ∀ row : Entry, row.source = (user, writer, op.sourceKey) → row.path = path →
      Lands A ∅ ∅ (fun _ => True) (execute fun c => c.upsertEntry row) := by
    intro row hsource hrowPath
    refine .execute fun c c' hc heq => hc.upsertEntry ?_ heq
    rw [hsource, hrowPath, hpath]
    exact hop
  dsimp only
  cases c.entryBySourceKey user writer op.sourceKey with
  | some entry =>
    refine .ite (fun _ => .ite (fun _ => ?_) fun _ => ?_) fun _ => ?_
    · exact .bind .onDisk fun _ _ => .pure_bind (hrow _ rfl rfl)
    · exact .pure_bind (hrow _ rfl rfl)
    · refine .bind .onDisk fun objectId _ => .bind .onDisk fun _ _ => ?_
      refine .bind .onDisk fun _ _ => .bind .onDisk fun _ _ => ?_
      refine .ite (fun _ => .bind .onDisk fun _ _ => ?_) fun _ => ?_
      · exact .bind .onDisk fun _ _ => .pure_bind (hrow _ rfl rfl)
      · exact .bind .onDisk fun _ _ => .pure_bind (hrow _ rfl rfl)
  | none =>
    refine .bind .onDisk fun objectId _ => .bind .onDisk fun _ _ => ?_
    refine .bind .onDisk fun _ _ => .bind .onDisk fun _ _ => ?_
    exact .pure_bind (hrow _ rfl rfl)

private theorem deleteOperation_lands (op : DeleteOperation) :
    Lands A ∅ ∅ (fun _ => True) (deleteOperation user writer op) := by
  unfold deleteOperation
  refine .bind .catalog fun c _ => ?_
  cases c.entryBySourceKey user writer op.sourceKey with
  | none => exact .pure trivial
  | some existing =>
    refine .bind (.orRaise fun _ _ => trivial) fun _ _ => ?_
    refine .bind .onDisk fun _ _ => .execute fun c c' hc heq => ?_
    cases heq
    exact hc.deleteEntry _ _ _

private theorem decisionOperation_lands {op : DecisionOperation} (hop : A.Allows user writer (.decision op)) :
    Lands A ∅ ∅ (fun _ => True) (decisionOperation user writer op) := by
  unfold decisionOperation
  refine .bind .catalog fun c _ => ?_
  have hrow : ∀ path : Option String, (∀ p, path = some p → op.path = some p) → Lands A ∅ ∅ (fun _ => True) (do
      let time ← now
      let createdAt := (c.decisionCreatedAt user writer op.sourceKey).getD time
      execute fun c => .ok (c.upsertDecision
        { userId := user, writerId := writer, sourceKey := op.sourceKey, sourceVersion := op.sourceVersion,
          path := path, state := op.state, failureCode := op.failureCode, failureMessage := op.failureMessage,
          retryAfterSeconds := op.retryAfterSeconds, createdAt := createdAt, updatedAt := time })) := by
    intro path hpath
    refine .bind .now fun time _ => .execute fun c c' hc heq => ?_
    cases heq
    exact hc.upsertDecision fun p hp => hop p (hpath p hp)
  dsimp only
  cases hpath : op.path with
  | none =>
    refine .bind (P := fun path => path = none) (.pure rfl) fun path hnone => hrow path fun p hp => ?_
    rw [hnone] at hp
    cases hp
  | some text =>
    refine .ite (fun _ => ?_) (fun _ => ?_)
    · refine .bind (P := fun path => path = none) (.pure rfl) fun path hnone => hrow path fun p hp => ?_
      rw [hnone] at hp
      cases hp
    · refine .bind (.orRaise fun path => normalizePath_eq) fun path hsame => ?_
      refine .bind (.orRaise fun _ _ => trivial) fun _ _ => ?_
      refine .bind (P := fun path' => path' = some path) (.pure rfl) fun path' hsome => hrow path' fun p hp => ?_
      rw [hpath, ← hp, hsome, hsame]

/-! ### Batches of moves -/

private theorem breakMoveCycles_lands (user : String) (destinations : Dict String String) (cycles : List (List String))
    (locations : Dict String Loc) (temps : Dict String TempLocation) :
    Lands A loose loose (fun _ => True) (breakMoveCycles user destinations cycles locations temps) := by
  induction cycles generalizing locations temps with
  | nil => exact .pure trivial
  | cons cycle rest ih =>
    unfold breakMoveCycles
    refine .bind (.orRaise fun _ _ => trivial) fun sourcePath _ => ?_
    refine .bind (.orRaise fun _ _ => trivial) fun source _ => ?_
    refine .bind .onDisk fun present _ => .ite (fun _ => ?_) fun _ => ih _ _
    refine .bind .onDisk fun temp _ => .bind .onDisk fun uuid _ => ?_
    exact .bind .onDisk fun _ _ => ih _ _

/-- The sources of planned moves. -/
def sourcesOf (user writer : String) (plans : List PlannedMove) : Set SourceId :=
  {i | ∃ plan ∈ plans, i = (user, writer, plan.operation.sourceKey)}

/-- A parked document is one of the batch. -/
private theorem parkEntry_lands {plans : List PlannedMove} {sourceKeyByPath : Dict String String}
    (hkeys : ∀ path key, sourceKeyByPath.get? path = some key → (user, writer, key) ∈ sourcesOf user writer plans)
    (item : String × TempLocation) :
    Lands A (sourcesOf user writer plans) (sourcesOf user writer plans) (fun _ => True)
      (parkEntry user writer sourceKeyByPath item) := by
  unfold parkEntry
  refine .bind (P := fun key => (user, writer, key) ∈ sourcesOf user writer plans)
    (.orRaise fun key hkey => hkeys _ _ (lookupKey_ok hkey)) fun key hkey => ?_
  · refine .bind .now fun time _ => .execute fun c c' hc heq => ?_
    exact hc.updateEntry heq (fun _ => rfl) (fun i hi _ => hi) (.inr hkey)

/-- A document that has been moved on is where it may be. -/
private theorem moveEntry_lands {temps : Dict String TempLocation} {plan : PlannedMove} {rest : List PlannedMove}
    (hplan : A.entry (user, writer, plan.operation.sourceKey) plan.destination) :
    Lands A (sourcesOf user writer (plan :: rest)) (sourcesOf user writer rest) (fun _ => True)
      (moveEntry user writer temps plan) := by
  have hrow : Lands A (sourcesOf user writer (plan :: rest)) (sourcesOf user writer rest) (fun _ => True) (do
      let time ← now
      execute fun c => c.updateEntry user writer plan.operation.sourceKey plan.destination fun e =>
        { e with sourceVersion := plan.operation.sourceVersion, updatedAt := time }) := by
    refine .bind .now fun time _ => .execute fun c c' hc heq => ?_
    refine hc.updateEntry heq (fun _ => rfl) (fun i hi hne => ?_) (.inl hplan)
    obtain ⟨other, hother, rfl⟩ := hi
    rcases List.mem_cons.1 hother with rfl | hother
    · exact absurd rfl hne
    · exact ⟨other, hother, rfl⟩
  unfold moveEntry
  dsimp only
  refine .ite (fun _ => .bind .onDisk fun present _ => .ite (fun _ => ?_) fun _ => hrow) fun _ => hrow
  exact .bind .onDisk fun _ _ => hrow

private theorem moveBatch_lands {ops : List MoveOperation} (hops : ∀ op ∈ ops, A.Allows user writer (.move op)) :
    Lands A ∅ ∅ (fun _ => True) (moveBatch user writer ops) := by
  unfold moveBatch
  refine .bind .catalog fun c _ => ?_
  refine .bind (.orRaise fun plans hplans => planMoves_ok hplans) fun plans hplans => ?_
  obtain ⟨hoperations, hplanned⟩ := hplans
  have hallowed : ∀ plan ∈ plans, A.entry (user, writer, plan.operation.sourceKey) plan.destination := by
    intro plan hplan
    have hmem : plan.operation ∈ ops := hoperations ▸ List.mem_map_of_mem hplan
    rw [(hplanned plan hplan).destination]
    exact hops _ hmem
  have hkeys : ∀ path key,
      (plans.foldl (fun (d : Dict String String) p => d.set p.entry.path p.operation.sourceKey) []).get? path =
        some key →
        (user, writer, key) ∈ sourcesOf user writer plans := by
    intro path key hget
    rcases Dict.get?_foldl_set hget with hnone | ⟨plan, hplan, -, rfl⟩
    · cases hnone
    · exact ⟨plan, hplan, rfl⟩
  refine .bind (breakMoveCycles_lands _ _ _ _ _) fun temps _ => ?_
  have hempty : sourcesOf user writer [] = ∅ := by
    ext i
    exact ⟨fun ⟨_, hplan, _⟩ => absurd hplan List.not_mem_nil, fun h => h.elim⟩
  rw [← hempty]
  have hparked : Lands A (sourcesOf user writer plans) (sourcesOf user writer plans) (fun _ => True)
      (temps.forM (parkEntry user writer
        (plans.foldl (fun (d : Dict String String) p => d.set p.entry.path p.operation.sourceKey) []))) :=
    .forM (fun _ => sourcesOf user writer plans) fun item _ _ => parkEntry_lands hkeys item
  refine .bind (hparked.loosen ?_) fun _ _ => ?_
  · rw [hempty]
    exact Set.empty_subset _
  · exact .forM (sourcesOf user writer) fun plan rest hplan => moveEntry_lands (hallowed plan hplan)

/-! ### Submissions -/

/-- The operations of a step. -/
def stepOperations : Step → List Operation
  | .put op => [.put op]
  | .moves ops => ops.map .move
  | .delete op => [.delete op]
  | .decision op => [.decision op]

theorem runStep_lands {step : Step} (hstep : ∀ op ∈ stepOperations step, A.Allows user writer op) :
    Lands A ∅ ∅ (fun _ => True) (runStep user writer step) := by
  cases step with
  | put op => exact putOperation_lands (hstep _ (List.mem_singleton.2 rfl))
  | moves ops => exact moveBatch_lands fun op hop => hstep _ (List.mem_map_of_mem hop)
  | delete op => exact deleteOperation_lands op
  | decision op => exact decisionOperation_lands (hstep _ (List.mem_singleton.2 rfl))

theorem mem_of_groupSteps {operations : List Operation} {step : Step} (hstep : step ∈ groupSteps operations)
    {op : Operation} (hop : op ∈ stepOperations step) : op ∈ operations := by
  induction operations generalizing step with
  | nil => cases hstep
  | cons operation rest ih =>
    have hsingle : ∀ s : Step, stepOperations s = [operation] → step ∈ s :: groupSteps rest →
      op ∈ operation :: rest := by
      intro s hs hmem
      rcases List.mem_cons.1 hmem with rfl | hmem
      · rw [hs] at hop
        exact List.mem_cons.2 (.inl (List.mem_singleton.1 hop))
      · exact List.mem_cons_of_mem _ (ih hmem hop)
    cases operation with
    | put op => exact hsingle (.put op) rfl hstep
    | delete op => exact hsingle (.delete op) rfl hstep
    | decision op => exact hsingle (.decision op) rfl hstep
    | move move =>
      unfold groupSteps at hstep
      split at hstep
      · rename_i moves steps hrest
        rcases List.mem_cons.1 hstep with rfl | hstep
        · rcases List.mem_cons.1 hop with rfl | hop
          · exact List.mem_cons_self ..
          · have hmoves : Step.moves moves ∈ groupSteps rest := by
              rw [hrest]
              exact List.mem_cons_self ..
            exact List.mem_cons_of_mem _ (ih hmoves hop)
        · refine List.mem_cons_of_mem _ (ih ?_ hop)
          rw [hrest]
          exact List.mem_cons_of_mem _ hstep
      · exact hsingle (.moves [move]) rfl hstep

private theorem mem_of_orderedOperations {c : Catalog} {operations ordered : List Operation}
    (hdup : Catalog.rejectDuplicateMoveSources operations = .ok ())
    (h : c.orderedOperations user writer operations = .ok ordered) {op : Operation} (hop : op ∈ ordered) :
    op ∈ operations := by
  obtain ⟨moves, hmoves, h⟩ := bind_eq_ok.1 h
  cases h
  have hperm := Catalog.orderedMoves_perm (Catalog.rejectDuplicates_ok hdup).1 hmoves
  rcases List.mem_append.1 hop with hop | hop
  · rcases List.mem_append.1 hop with hop | hop
    · rcases List.mem_append.1 hop with hop | hop
      · obtain ⟨d, hd, rfl⟩ := List.mem_map.1 hop
        obtain ⟨op', hop', heq⟩ := List.mem_filterMap.1 hd
        cases op' <;> cases heq
        exact hop'
      · obtain ⟨d, hd, rfl⟩ := List.mem_map.1 hop
        obtain ⟨op', hop', heq⟩ := List.mem_filterMap.1 (hperm.subset hd)
        cases op' <;> cases heq
        exact hop'
    · obtain ⟨d, hd, rfl⟩ := List.mem_map.1 hop
      obtain ⟨op', hop', heq⟩ := List.mem_filterMap.1 hd
      cases op' <;> cases heq
      exact hop'
  · obtain ⟨d, hd, rfl⟩ := List.mem_map.1 hop
    obtain ⟨op', hop', heq⟩ := List.mem_filterMap.1 hd
    cases op' <;> cases heq
    exact hop'

/-- The rows of the submissions do not matter. -/
private theorem updateSubmission_lands (submissionId : Nat) (f : SubmissionRow → SubmissionRow) :
    Lands A loose loose (fun _ => True) (execute fun c => .ok (c.updateSubmission submissionId f)) := by
  refine .execute fun c c' hc heq => ?_
  cases heq
  exact hc.of_eq rfl rfl

/-- What passes the checks of a submission may be where it is put. -/
def AllowsChecked (A : Placement) (user writer : String) (operations : List Operation) (rows : List WriterPrefix) :
    Prop :=
  ∀ c ordered, c.writerPrefixes = rows → checked c user writer operations = .ok ordered →
    ∀ op ∈ ordered, A.Allows user writer op

theorem AllowsChecked.of_operations {operations : List Operation} (hops : ∀ op ∈ operations, A.Allows user writer op)
    (rows : List WriterPrefix) : A.AllowsChecked user writer operations rows := by
  intro c ordered _ hok op hop
  obtain ⟨hdup, hordered, -⟩ := checked_ok hok
  exact hops op (mem_of_orderedOperations hdup hordered hop)

/-- Every path of an operation is authorised before the first one is applied. -/
theorem AllowsChecked.of_authorized {rows : List WriterPrefix}
    (h : ∀ c : Catalog, c.writerPrefixes = rows → ∀ path, Normalized path →
      c.requireAuthorizedPath user writer path = .ok () → ∀ sourceKey,
        A.entry (user, writer, sourceKey) path ∧ A.decision (user, writer, sourceKey) path)
    (operations : List Operation) : A.AllowsChecked user writer operations rows := by
  intro c ordered hrows hok op hop
  obtain ⟨-, -, hpreflight⟩ := checked_ok hok
  unfold Catalog.preflightSubmission at hpreflight
  obtain ⟨maps, hfold, -⟩ := bind_eq_ok.1 hpreflight
  obtain ⟨before, after, hone⟩ := of_foldlM_ok hfold op hop
  unfold Catalog.preflightOperation at hone
  cases op with
  | put op =>
    obtain ⟨path, hpath, hone⟩ := bind_eq_ok.1 hone
    obtain ⟨_, hauthorized, -⟩ := bind_eq_ok.1 hone
    obtain rfl := normalizePath_eq hpath
    exact (h c hrows _ (.of_ok hpath) hauthorized _).1
  | move op =>
    obtain ⟨path, hpath, hone⟩ := bind_eq_ok.1 hone
    obtain ⟨_, hauthorized, -⟩ := bind_eq_ok.1 hone
    obtain rfl := normalizePath_eq hpath
    exact (h c hrows _ (.of_ok hpath) hauthorized _).1
  | delete op => trivial
  | decision op =>
    intro path hsome
    dsimp only at hone
    rw [hsome] at hone
    obtain ⟨path', hpath, hone⟩ := bind_eq_ok.1 hone
    obtain ⟨_, hauthorized, -⟩ := bind_eq_ok.1 hone
    obtain rfl := normalizePath_eq hpath
    exact (h c hrows _ (.of_ok hpath) hauthorized _).2

/-- When the operations raise, the catalog is as before. -/
private theorem applySubmission_clear {operations : List Operation} (submissionId : Nat) {w : World}
    (h : A.Clear w.catalog) (hops : A.AllowsChecked user writer operations w.catalog.writerPrefixes) :
    Ends (applySubmission user writer operations submissionId) (fun _ w' => A.Clear w'.catalog)
      (fun _ w' => A.Clear w'.catalog) w := by
  refine ends_applySubmission (fun _ _ => h) fun ordered hok => ?_
  have hsteps : Lands A ∅ ∅ (fun _ => True) ((groupSteps ordered).forM (runStep user writer)) :=
    .forM (fun _ => ∅) fun step _ hstep => runStep_lands fun op hop =>
      hops _ _ rfl hok op (mem_of_groupSteps hstep hop)
  have hbody := hsteps.bind fun _ _ => Lands.bind .now fun time _ =>
    updateSubmission_lands submissionId fun r => { r with state := .applied, updatedAt := time }
  exact (hbody w h).mono (fun _ _ hw => hw.1) fun _ _ _ => h

/-- Reading the row of a submission changes nothing. -/
private theorem submission_clear (submissionId : Nat) {w : World} (h : A.Clear w.catalog) :
    Ends (submission submissionId) (fun _ w' => A.Clear w'.catalog) (fun _ w' => A.Clear w'.catalog) w := by
  unfold submission
  rw [ends_bind, ends_catalog]
  split
  · exact h
  · exact h

private theorem onDisk_catalog {α : Type} (m : FsM α) (w : World) :
    Ends (Ctxd.onDisk m) (fun _ w' => w'.catalog = w.catalog) (fun _ w' => w'.catalog = w.catalog) w := by
  rw [ends_onDisk]
  unfold Ends
  split
  · rfl
  · rfl

private theorem abandonSubmission_clear (submissionId : Nat) (e : StoreError) {w : World} (h : A.Clear w.catalog) :
    Ends (abandonSubmission submissionId e) (fun _ w' => A.Clear w'.catalog) (fun _ w' => A.Clear w'.catalog) w := by
  unfold abandonSubmission
  rw [ends_bind]
  refine (onDisk_catalog _ w).mono (fun failed w1 hw1 => ?_) fun _ w1 hw1 => hw1 ▸ h
  rw [ends_bind, ends_now, ends_bind, ends_transaction, ends_execute]
  refine ⟨fun c hc => ?_, fun _ _ => hw1 ▸ h⟩
  cases hc
  have hclear : A.Clear (w1.catalog.updateSubmission submissionId fun r =>
      { r with state := .failed, error := some e, updatedAt := w1.clock w1.ticks }) := by
    rw [hw1]
    exact ClearBut.of_eq h rfl rfl
  rw [ends_bind]
  refine (onDisk_catalog _ _).mono (fun _ w2 hw2 => ?_) fun _ w2 hw2 => hw2 ▸ hclear
  rw [ends_throw]
  exact hw2 ▸ hclear

/-- However a submission ends, documents and decisions are where they were or where its operations want them. -/
theorem submit_clear {operations : List Operation} {w : World} (h : A.Clear w.catalog)
    (hops : A.AllowsChecked user writer operations w.catalog.writerPrefixes) :
    Ends (Ctxd.submit user writer operations) (fun _ w' => A.Clear w'.catalog) (fun _ w' => A.Clear w'.catalog) w := by
  unfold Ctxd.submit recordSubmission
  rw [ends_bind, ends_bind]
  refine (onDisk_catalog _ w).mono (fun submissionId w1 hw1 => ?_) fun _ w1 hw1 => hw1 ▸ h
  rw [ends_bind, ends_now, ends_bind, ends_transaction, ends_execute]
  refine ⟨fun c hc => ?_, fun _ _ => hw1 ▸ h⟩
  have hrows : c.writerPrefixes = w.catalog.writerPrefixes := by
    rw [Catalog.insertSubmission_ok hc, hw1]
  have hclear : A.Clear c := by
    rw [Catalog.insertSubmission_ok hc, hw1]
    exact ClearBut.of_eq h rfl rfl
  rw [ends_pure, ends_bind]
  refine (onDisk_catalog _ _).mono (fun _ w2 hw2 => ?_) fun _ w2 hw2 => hw2 ▸ hclear
  have hcatalog : w2.catalog = c := hw2
  have hclear2 : A.Clear w2.catalog := hcatalog ▸ hclear
  have hops2 : A.AllowsChecked user writer operations w2.catalog.writerPrefixes := by
    rw [hcatalog, hrows]
    exact hops
  rw [ends_bind, ends_tryCatch]
  refine (applySubmission_clear submissionId hclear2 hops2).mono (fun _ w3 hw3 => ?_) fun e w3 hw3 => ?_
  · rw [ends_bind]
    refine (onDisk_catalog _ _).mono (fun _ w4 hw4 => ?_) fun _ w4 hw4 => hw4 ▸ hw3
    exact submission_clear submissionId (hw4 ▸ hw3)
  · refine (abandonSubmission_clear submissionId e hw3).mono (fun _ w4 hw4 => ?_) fun _ _ hw4 => hw4
    rw [ends_bind]
    refine (onDisk_catalog _ _).mono (fun _ w5 hw5 => ?_) fun _ w5 hw5 => hw5 ▸ hw4
    exact submission_clear submissionId (hw5 ▸ hw4)

end Placement

end Ctxd

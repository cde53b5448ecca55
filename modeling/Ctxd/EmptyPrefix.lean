import Ctxd.DeletionRefusals
import Ctxd.DeletionReruns
import Ctxd.Placing
import Ctxd.Queue

/-!
# A deleted prefix stays empty

After a deletion no queued operation of the writer puts a document or a decision inside the prefix, so what the applier
finds there later was put there by a submission that was accepted later (`stays_empty`).
-/

namespace Ctxd

open Program

/-! ### What operations name -/

namespace Operation

/-- The operation puts the source at the path, or moves it there. -/
def PlacesAt (sourceKey path : String) : Operation → Prop
  | .put op => op.sourceKey = sourceKey ∧ op.path = path
  | .move op => op.sourceKey = sourceKey ∧ op.path = path
  | .delete _ => False
  | .decision _ => False

/-- The operation decides on the source, with the path. -/
def DecidesAt (sourceKey path : String) : Operation → Prop
  | .put _ => False
  | .move _ => False
  | .delete _ => False
  | .decision op => op.sourceKey = sourceKey ∧ op.path = some path

end Operation

open Operation

/-- A submission of the writer that is not queued any more has an operation that does so. -/
def Named (does : Operation → Prop) (user writer : String) (rows : List ServiceRow) : Prop :=
  ∃ r ∈ rows, r.userId = user ∧ r.writerId = writer ∧ Service.isQueued r = false ∧ ∃ op ∈ r.operations, does op

/-- The operation names no path inside the prefix. -/
def Spares (pre : String) (op : Operation) : Prop :=
  ∀ sourceKey path, PlacesAt sourceKey path op ∨ DecidesAt sourceKey path op → ¬Inside pre path

/-- Inside the prefix the writer has only what the submissions name. -/
def onlyNamed (user writer pre : String) (rows : List ServiceRow) : Placement where
  entry i path := ∀ sourceKey, i = (user, writer, sourceKey) → Inside pre path →
    Named (PlacesAt sourceKey path) user writer rows
  decision i path := ∀ sourceKey, i = (user, writer, sourceKey) → Inside pre path →
    Named (DecidesAt sourceKey path) user writer rows

section

variable {user writer pre : String} {rows rows' : List ServiceRow} {c : Catalog} {op : Operation}

private theorem onlyNamed_mono (h : (onlyNamed user writer pre rows).Clear c)
    (hnamed : ∀ does, Named does user writer rows → Named does user writer rows') :
    (onlyNamed user writer pre rows').Clear c :=
  h.weaken (fun _ _ hentry sourceKey hi hin => hnamed _ (hentry sourceKey hi hin))
    fun _ _ hdecision sourceKey hi hin => hnamed _ (hdecision sourceKey hi hin)

/-- The operations of a submission that is not queued any more may place what they name. -/
private theorem onlyNamed_allows {r : ServiceRow} (hr : r ∈ rows) (hstate : Service.isQueued r = false)
    (hop : op ∈ r.operations) : (onlyNamed user writer pre rows).Allows r.userId r.writerId op := by
  have hnamed : ∀ (does : Operation → Prop) (sourceKey sourceKey' : String), does op →
      (r.userId, r.writerId, sourceKey) = (user, writer, sourceKey') → Named does user writer rows := by
    intro does sourceKey sourceKey' hdoes hi
    simp only [Prod.mk.injEq] at hi
    exact ⟨r, hr, hi.1, hi.2.1, hstate, op, hop, hdoes⟩
  cases op with
  | put op =>
    intro sourceKey hi _
    refine hnamed _ op.sourceKey sourceKey ?_ hi
    simp only [Prod.mk.injEq] at hi
    exact ⟨hi.2.2, rfl⟩
  | move op =>
    intro sourceKey hi _
    refine hnamed _ op.sourceKey sourceKey ?_ hi
    simp only [Prod.mk.injEq] at hi
    exact ⟨hi.2.2, rfl⟩
  | delete op => trivial
  | decision op =>
    intro path hpath sourceKey hi _
    refine hnamed _ op.sourceKey sourceKey ?_ hi
    simp only [Prod.mk.injEq] at hi
    exact ⟨hi.2.2, hpath⟩

/-- An operation that spares the prefix may place what it names. -/
private theorem onlyNamed_allows_spared {user' writer' : String} (h : user' = user → writer' = writer → Spares pre op) :
    (onlyNamed user writer pre rows).Allows user' writer' op := by
  have hspared : ∀ sourceKey sourceKey' path : String, (PlacesAt sourceKey path op ∨ DecidesAt sourceKey path op) →
      (user', writer', sourceKey) = (user, writer, sourceKey') → ¬Inside pre path := by
    intro sourceKey sourceKey' path hdoes hi
    simp only [Prod.mk.injEq] at hi
    exact h hi.1 hi.2.1 sourceKey path hdoes
  cases op with
  | put op => exact fun sourceKey hi hin => absurd hin (hspared op.sourceKey sourceKey op.path (.inl ⟨rfl, rfl⟩) hi)
  | move op => exact fun sourceKey hi hin => absurd hin (hspared op.sourceKey sourceKey op.path (.inl ⟨rfl, rfl⟩) hi)
  | delete op => trivial
  | decision op =>
    exact fun path hpath sourceKey hi hin =>
      absurd hin (hspared op.sourceKey sourceKey path (.inr ⟨rfl, hpath⟩) hi)

end

namespace Service

variable {user writer pre : String} {s s' : Service} {receipt : Option String} {n : Nat}

/-! ### Calls -/

/-- Everything of the writer inside the prefix is named by submissions after the first `n`, and of these none that is
still queued names anything there. -/
structure Emptied (user writer pre : String) (n : Nat) (s : Service) : Prop where
  length : n ≤ s.rows.length
  clear : (onlyNamed user writer pre (s.rows.drop n)).Clear s.world.catalog
  queue : ∀ r ∈ s.rows.take n, isQueued r = true → r.userId = user → r.writerId = writer →
    ∀ op ∈ r.operations, Spares pre op

/-- A row is taken out of the queue, with its operations. -/
def Finishes (g : ServiceRow → ServiceRow) : Prop := ∀ r, ServiceRow.Settles r (g r) ∧ (g r).operations = r.operations

private theorem settle_operations {g : ServiceRow → ServiceRow} (hg : Finishes g) (submissionId : String)
    (r : ServiceRow) :
    (settle submissionId g r).userId = r.userId ∧ (settle submissionId g r).writerId = r.writerId ∧
      (settle submissionId g r).operations = r.operations ∧
      (isQueued (settle submissionId g r) = true → isQueued r = true) := by
  unfold settle
  split
  · obtain ⟨hsettles, hoperations⟩ := hg r
    refine ⟨hsettles.userId, hsettles.writerId, hoperations, fun hqueued => ?_⟩
    rw [hsettles.state] at hqueued
    cases hqueued
  · exact ⟨rfl, rfl, rfl, id⟩

private theorem named_settle {does : Operation → Prop} {rows : List ServiceRow} (h : Named does user writer rows)
    {g : ServiceRow → ServiceRow} (hg : Finishes g) (submissionId : String) :
    Named does user writer (rows.map (settle submissionId g)) := by
  obtain ⟨r, hr, hu, hw, hstate, op, hop, hdoes⟩ := h
  obtain ⟨huser, hwriter, hoperations, hqueued⟩ := settle_operations hg submissionId r
  refine ⟨_, List.mem_map_of_mem hr, huser.trans hu, hwriter.trans hw, ?_, op, ?_, hdoes⟩
  · rw [← Bool.not_eq_true] at hstate ⊢
    exact fun h => hstate (hqueued h)
  · rw [hoperations]
    exact hop

/-- It does not matter how a row has left the queue. -/
private theorem named_settle_congr {does : Operation → Prop} {rows : List ServiceRow} {g g' : ServiceRow → ServiceRow}
    (hg : Finishes g) (hg' : Finishes g') {submissionId : String}
    (h : Named does user writer (rows.map (settle submissionId g))) :
    Named does user writer (rows.map (settle submissionId g')) := by
  obtain ⟨r', hr', hu, hw, hstate, op, hop, hdoes⟩ := h
  obtain ⟨r, hr, rfl⟩ := List.mem_map.1 hr'
  obtain ⟨huser, hwriter, hoperations, -⟩ := settle_operations hg submissionId r
  obtain ⟨huser', hwriter', hoperations', -⟩ := settle_operations hg' submissionId r
  refine ⟨_, List.mem_map_of_mem hr, huser'.trans (huser.symm.trans hu), hwriter'.trans (hwriter.symm.trans hw), ?_, op,
    ?_, hdoes⟩
  · unfold settle at hstate ⊢
    split
    · exact (hg' r).1.state
    · rename_i hne
      rwa [if_neg hne] at hstate
  · rw [hoperations']
    rwa [hoperations] at hop

/-- `apply_next` gives the operations of the first queued row to the store, and takes the row out of the queue. -/
private theorem applyNext_clear {A : Placement} (fault : Option Nat) (h : A.Clear s.world.catalog)
    (hops : ∀ row, firstRow (s.rows.filter isQueued) = some row → ∀ op ∈ row.operations,
      A.Allows row.userId row.writerId op) :
    Ends (applyNext fault)
      (fun _ s' => A.Clear s'.world.catalog ∧ ((firstRow (s.rows.filter isQueued) = none ∧ s'.rows = s.rows) ∨
        ∃ row g, firstRow (s.rows.filter isQueued) = some row ∧ Finishes g ∧
          s'.rows = s.rows.map (settle row.submissionId g)))
      (fun _ _ => False) s := by
  unfold applyNext
  rw [ends_bind, ends_get]
  cases hfirst : firstRow (s.rows.filter isQueued) with
  | none =>
    rw [ends_pure]
    exact ⟨h, .inl ⟨rfl, rfl⟩⟩
  | some row =>
    rw [ends_bind]
    have hattempt : Ends (attempt row fault) (fun _ s' => s'.rows = s.rows ∧ A.Clear s'.world.catalog)
        (fun _ _ => False) s := by
      rw [ends_attempt]
      refine (Placement.submit_clear ?_ (.of_operations (hops row hfirst) _)).mono (fun _ w' hw' => ⟨rfl, hw'⟩)
        fun _ w' hw' => ⟨rfl, hw'⟩
      exact h
    refine hattempt.mono (fun result s1 hs1 => ?_) fun _ _ h => h
    obtain ⟨hrows, hclear⟩ := hs1
    cases result with
    | ok applied =>
      dsimp only
      unfold markApplied updateRow
      rw [ends_bind, ends_bind, ends_time, ends_bind, ends_modify, ends_pure, ends_pure]
      refine ⟨hclear, .inr ⟨row, fun r => { r with
        state := .applied, appliedSubmissionId := some applied.submissionId, error := none, updatedAt := s1.time }, rfl,
        fun r => ⟨⟨rfl, rfl, rfl, rfl⟩, rfl⟩, ?_⟩⟩
      rw [← hrows]
      rfl
    | error e =>
      dsimp only
      unfold markFailed updateRow
      rw [ends_bind, ends_bind, ends_time, ends_bind, ends_modify, ends_pure, ends_pure]
      refine ⟨hclear, .inr ⟨row, fun r => { r with
        state := .failed, error := some (.raised e), updatedAt := s1.time }, rfl,
        fun r => ⟨⟨rfl, rfl, rfl, rfl⟩, rfl⟩, ?_⟩⟩
      rw [← hrows]
      rfl

/-- The state of a row that the store has been given; what it was is not asked (`named_settle_congr`). -/
def given (r : ServiceRow) : ServiceRow := { r with state := .applied }

private theorem finishes_given : Finishes given := fun _ => ⟨⟨rfl, rfl, rfl, rfl⟩, rfl⟩

private theorem Emptied.applyNext (h : Emptied user writer pre n s) (fault : Option Nat) :
    Ends (applyNext fault) (fun _ s' => Emptied user writer pre n s') (fun _ _ => False) s := by
  cases hfirst : firstRow (s.rows.filter isQueued) with
  | none =>
    refine (applyNext_clear fault h.clear fun row hrow => ?_).mono (fun _ s1 hs1 => ?_) fun _ _ h => h
    · rw [hfirst] at hrow
      cases hrow
    · obtain ⟨hclear, hrows⟩ := hs1
      rcases hrows with ⟨-, hrows⟩ | ⟨row, -, hsome, -⟩
      · rw [← hrows] at hclear
        refine ⟨?_, hclear, ?_⟩
        · rw [hrows]
          exact h.length
        · rw [hrows]
          exact h.queue
      · rw [hfirst] at hsome
        cases hsome
  | some row =>
    obtain ⟨hmem, hqueued⟩ := List.mem_filter.1 (firstRow_spec hfirst).1
    -- The row counts among those that name something from the beginning, so that its operations may do so.
    have hclear : (onlyNamed user writer pre ((s.rows.drop n).map (settle row.submissionId given))).Clear
        s.world.catalog := onlyNamed_mono h.clear fun _ hnamed => named_settle hnamed finishes_given _
    have hallows : ∀ op ∈ row.operations,
        (onlyNamed user writer pre ((s.rows.drop n).map (settle row.submissionId given))).Allows row.userId row.writerId
          op := by
      intro op hop
      rw [← List.take_append_drop n s.rows] at hmem
      rcases List.mem_append.1 hmem with hold | hnew
      · exact onlyNamed_allows_spared fun hu hw => h.queue row hold hqueued hu hw op hop
      · have hgiven : given row ∈ (s.rows.drop n).map (settle row.submissionId given) :=
          List.mem_map.2 ⟨row, hnew, if_pos rfl⟩
        exact (onlyNamed_allows hgiven rfl hop :)
    refine (applyNext_clear fault hclear fun row' hrow' => ?_).mono (fun _ s1 hs1 => ?_) fun _ _ h => h
    · rw [hfirst] at hrow'
      cases hrow'
      exact hallows
    · obtain ⟨hclear, hrows⟩ := hs1
      rcases hrows with ⟨hnone, -⟩ | ⟨row', g, hsome, hg, hrows⟩
      · rw [hfirst] at hnone
        cases hnone
      · rw [hfirst] at hsome
        cases hsome
        refine ⟨?_, ?_, fun r hr hstate hu hw op hop => ?_⟩
        · rw [hrows, List.length_map]
          exact h.length
        · rw [hrows, ← List.map_drop]
          exact onlyNamed_mono hclear fun _ hnamed => named_settle_congr finishes_given hg hnamed
        · rw [hrows, ← List.map_take] at hr
          obtain ⟨r0, hr0, rfl⟩ := List.mem_map.1 hr
          obtain ⟨huser, hwriter, hoperations, hqueued0⟩ := settle_operations hg row.submissionId r0
          rw [hoperations] at hop
          exact h.queue r0 hr0 (hqueued0 hstate) (huser.symm.trans hu) (hwriter.symm.trans hw) op hop

private theorem Emptied.drainLoop (limit : Option Int) (fault : Nat → Option Nat) (rounds : Nat)
    (applied : List ServiceSubmission) (h : Emptied user writer pre n s) :
    Ends (drainLoop limit fault rounds applied) (fun _ s' => Emptied user writer pre n s') (fun _ _ => False) s := by
  induction rounds generalizing applied s with
  | zero => exact h
  | succ rounds ih =>
    unfold Service.drainLoop
    refine Ends.ite (fun _ => ?_) fun _ => h
    rw [ends_bind]
    refine (h.applyNext _).mono (fun result s1 hs1 => ?_) fun _ _ h => h
    cases result with
    | none => exact hs1
    | some submission => exact ih _ hs1

private theorem Emptied.submit (user' writer' : String) (operations : List Operation)
    (h : Emptied user writer pre n s) :
    Ends (submit user' writer' operations) (fun _ s' => Emptied user writer pre n s')
      (fun _ s' => Emptied user writer pre n s') s := by
  unfold Service.submit
  rw [ends_bind, ends_draw, ends_bind, ends_time, ends_bind, ends_get]
  refine Ends.ite (fun _ => ?_) fun _ => ?_
  · rw [ends_bind, ends_throw]
    exact ⟨h.length, h.clear, h.queue⟩
  · unfold setRows
    rw [ends_bind, ends_modify, ends_pure]
    have hlength := h.length
    refine ⟨?_, ?_, fun r hr => ?_⟩
    · show n ≤ (s.rows ++ _).length
      rw [List.length_append]
      omega
    · show (onlyNamed user writer pre ((s.rows ++ _).drop n)).Clear _
      rw [List.drop_append_of_le_length hlength]
      refine onlyNamed_mono h.clear fun _ hnamed => ?_
      obtain ⟨r, hr, hrest⟩ := hnamed
      exact ⟨r, List.mem_append_left _ hr, hrest⟩
    · change r ∈ (s.rows ++ _).take n at hr
      rw [List.take_append_of_le_length hlength] at hr
      exact h.queue r hr

private theorem Emptied.outcome (c : QueueCall) (h : Emptied user writer pre n s) :
    Emptied user writer pre n (c.outcome s).1 := by
  have hcall : Ends c.call (fun _ s' => Emptied user writer pre n s') (fun _ s' => Emptied user writer pre n s') s := by
    cases c with
    | submit user' writer' operations =>
      unfold QueueCall.call
      rw [ends_bind]
      exact h.submit user' writer' operations
    | applyNext fault =>
      unfold QueueCall.call
      rw [ends_bind]
      exact (h.applyNext fault).mono (fun _ _ hs1 => hs1) fun _ _ h => h.elim
    | drain limit fault =>
      unfold QueueCall.call drain
      refine Ends.ite (fun _ => ?_) fun _ => ?_
      · rw [ends_bind, ends_throw]
        exact h
      · rw [ends_bind, ends_get]
        exact (h.drainLoop limit fault _ []).mono (fun _ _ hs1 => hs1) fun _ _ h => h.elim
  unfold QueueCall.outcome
  unfold Ends at hcall
  split at hcall
  · rename_i heq
    rw [heq]
    exact hcall
  · rename_i heq
    rw [heq]
    exact hcall

private theorem Emptied.runQueue (calls : List QueueCall) (h : Emptied user writer pre n s) :
    Emptied user writer pre n (runQueue calls s).1 := by
  induction calls generalizing s with
  | nil => exact h
  | cons c calls ih => exact ih (h.outcome c)

/-! ### The deletion -/

private theorem spares_of_keeps {keys : List String} {op : Operation} (hpre : Normalized pre)
    (h : keeps pre keys op = true) :
    Spares pre op := by
  rw [keeps_iff] at h
  have houtside : ∀ path, pathIsWithinPrefix path pre = .ok false → ¬Inside pre path := by
    intro path hwithin hin
    rw [within_eq (pathIsWithinPrefix_ok hwithin).1 hpre] at hwithin
    exact of_decide_eq_false (Except.ok.inj hwithin) hin
  intro sourceKey path hdoes
  cases op with
  | put op =>
    obtain ⟨-, rfl⟩ := hdoes.resolve_right id
    exact houtside _ h
  | move op =>
    obtain ⟨-, rfl⟩ := hdoes.resolve_right id
    obtain ⟨b, hb, hrest⟩ := bind_eq_ok.1 h
    cases b with
    | true => cases hrest
    | false => exact houtside _ hb
  | delete op => exact absurd hdoes (by simp [PlacesAt, DecidesAt])
  | decision op =>
    obtain ⟨-, hpath⟩ := hdoes.resolve_left id
    unfold operationTargetsPrefix at h
    dsimp only at h
    rw [hpath] at h
    exact houtside _ h

private theorem emptied_of_effect {rows : List Entry} (hs : s.Sound) (hallowed : Allowed user writer pre rows s)
    (hvalid : AllValid user writer pre rows s) (heffect : Effect (prefixEffect user writer pre rows) s s') :
    Emptied user writer pre s'.rows.length s' := by
  have hentries : s'.world.catalog.entries =
      s.world.catalog.entries.filter fun e => !rows.any fun row => e.isSource user row.writerId row.sourceKey :=
    congrArg Stock.entries heffect.stock
  have hdecisions : s'.world.catalog.decisions =
      s.world.catalog.decisions.filter fun r => !inDecisionScope user writer pre (rows.map (·.sourceKey)) r :=
    congrArg Stock.decisions heffect.stock
  have hrows : s'.stock.rows = s.stock.rows.map (onQueued user writer (keptRow pre (rows.map (·.sourceKey)))) :=
    congrArg Stock.rows heffect.stock
  refine ⟨le_rfl, ⟨fun e he => ?_, fun r hr path hpath => ?_⟩, fun r hr hqueued hu hw op hop => ?_⟩
  · refine .inl fun sourceKey hi hin => ?_
    rw [hentries] at he
    obtain ⟨hmem, hkept⟩ := List.mem_filter.1 he
    have hscope : inEntryScope user writer pre e = true := by
      simp only [Entry.source, Prod.mk.injEq] at hi
      simp [inEntryScope, hi.1, hi.2.1, hin]
    rw [hallowed.any_isSource hs.distinct hmem, hscope] at hkept
    cases hkept
  · intro sourceKey hi hin
    rw [hdecisions] at hr
    have hscope : inDecisionScope user writer pre (rows.map (·.sourceKey)) r = true := by
      simp only [Prod.mk.injEq] at hi
      have hlike := likePrefix_of_inside hin
      rw [← hpath] at hlike
      simp [inDecisionScope, hi.1, hi.2.1, hlike]
    obtain ⟨-, hkept⟩ := List.mem_filter.1 hr
    rw [hscope] at hkept
    cases hkept
  · have hmem : r.untimed ∈ s'.stock.rows := List.mem_map_of_mem (List.mem_of_mem_take hr)
    have hof : queuedFor user writer r.untimed = true := by
      unfold queuedFor
      rw [Bool.and_eq_true, Bool.and_eq_true]
      exact ⟨⟨decide_eq_true hu, decide_eq_true hw⟩, hqueued⟩
    rw [hrows] at hmem
    obtain ⟨r0, hr0, heq⟩ := List.mem_map.1 hmem
    have hof0 : queuedFor user writer r0 = true := by
      unfold onQueued at heq
      by_cases h0 : queuedFor user writer r0 = true
      · exact h0
      · rw [if_neg h0] at heq
        exact absurd (heq ▸ hof) h0
    obtain ⟨kept, hkept⟩ := allValid_iff.1 hvalid r0 hr0 hof0
    unfold onQueued at heq
    rw [if_pos hof0] at heq
    have hkeeps := keeps_of_keptRow hkept (by rw [heq]; exact isQueued_of_queuedFor hof)
    rw [heq] at hkeeps
    exact spares_of_keeps hallowed.normal (hkeeps op hop)

/-- Whatever calls follow a deletion that has returned: a document or a decision of the writer inside the prefix was put
there by a submission that was accepted after the deletion. -/
theorem stays_empty (hs : s.Sound) {result : DeletionResult}
    (hrun : deletePrefix user writer pre receipt s = .ok result s') (calls : List QueueCall) :
    (∀ e ∈ (runQueue calls s').1.world.catalog.entries, e.userId = user → e.writerId = writer → Inside pre e.path →
        Named (PlacesAt e.sourceKey e.path) user writer ((runQueue calls s').1.rows.drop s'.rows.length)) ∧
      ∀ r ∈ (runQueue calls s').1.world.catalog.decisions, r.userId = user → r.writerId = writer →
        ∀ path, r.path = some path → Inside pre path →
          Named (DecidesAt r.sourceKey path) user writer ((runQueue calls s').1.rows.drop s'.rows.length) := by
  obtain ⟨rows, hallowed, hvalid, heffect⟩ := (deletePrefix_spec user writer pre receipt hs).of_ok hrun
  have hemptied := (emptied_of_effect hs hallowed hvalid heffect).runQueue calls
  constructor
  · intro e he hu hw hin
    refine (hemptied.clear.entries e he).resolve_right (Set.notMem_empty _) e.sourceKey ?_ hin
    rw [Entry.source, hu, hw]
  · intro r hr hu hw path hpath hin
    refine hemptied.clear.decisions r hr path hpath r.sourceKey ?_ hin
    rw [hu, hw]

/-- A queue with a document under `d` and one elsewhere. -/
def halfInside : Service :=
  { serviceOf registered with rows := [rowOf "0" [putText "1" "d/a" "x", putText "2" "e/a" "x"]] }

private theorem halfInside_sound :
    halfInside.Sound := ⟨registered_consistent.wf, registered_consistent.distinct, by decide⟩

/-- The queue is drained after the deletion, and then a later submission is applied. -/
theorem stays_empty_drained :
    ∃ result s', deletePrefix "user" "writer" "d" none halfInside = .ok result s' ∧
      ∀ e ∈ (runQueue [.drain none fun _ => none, .submit "user" "writer" [putText "3" "d/b" "y"], .applyNext none]
          s').1.world.catalog.entries, e.userId = "user" → e.writerId = "writer" → Inside "d" e.path →
        Named (PlacesAt e.sourceKey e.path) "user" "writer"
          ((runQueue [.drain none fun _ => none, .submit "user" "writer" [putText "3" "d/b" "y"], .applyNext none]
            s').1.rows.drop s'.rows.length) := by
  have hallowed : Allowed "user" "writer" "d" [] halfInside := ⟨by decide +kernel, by decide +kernel, registered_rows⟩
  have hkept : keptOperations "d" [] (rowOf "0" [putText "1" "d/a" "x", putText "2" "e/a" "x"]).operations =
      .ok [putText "2" "e/a" "x"] := by decide +kernel
  obtain ⟨result, s', hrun⟩ : ∃ result s', deletePrefix "user" "writer" "d" none halfInside = .ok result s' := by
    refine deletePrefix_returns halfInside_sound rfl hallowed (fun r hr => ?_) fun l hl => ?_
    · rw [List.mem_singleton.1 (List.mem_filter.1 hr).1]
      exact ⟨_, hkept⟩
    · cases hl
  exact ⟨result, s', hrun, (stays_empty halfInside_sound hrun _).1⟩

end Service

end Ctxd

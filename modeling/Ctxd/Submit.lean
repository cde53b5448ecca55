import Ctxd.FileSteps
import Ctxd.OperationFrame

/-!
# Submissions

A submission that returns has the effect of its operations on the documents, one after the other (`effect`); one that
raises leaves the documents as they were.  Both hold in every consistent store, as long as no step can leave behind
directories that a rollback cannot get past (`Unnested`).  Without that condition, a submission that raises leaves the
documents as they were if the rollback gets past the directories that are there when it begins (`submit_cases`).
-/

namespace Ctxd

open Program

/-! ### The effect on the documents -/

section

variable (user writer : String)

def deleteDoc (D : Docs) (op : DeleteOperation) : Docs := Function.update D (user, writer, op.sourceKey) none

def putDoc (D : Docs) (op : PutOperation) : Docs :=
  Function.update D (user, writer, op.sourceKey)
    (some (op.path, some (putData (D (user, writer, op.sourceKey)) (lineFeedText op.text).toUTF8)))

/-- The effect of the ordered operations. -/
def effect (ordered : List Operation) (D : Docs) : Docs :=
  (Catalog.putsOf ordered).foldl (putDoc user writer)
    ((Catalog.movesOf ordered).foldl (moveDoc user writer)
      ((Catalog.deletesOf ordered).foldl (deleteDoc user writer) D))

end

def Docs.paths (D : Docs) : Paths := fun i => (D i).map Prod.fst

private theorem docs_paths (c : Catalog) (d : Disk) (parked : SourceId → Option Loc) :
    Docs.paths (docs c d parked) = c.paths := by
  funext i
  unfold Docs.paths docs Catalog.paths
  rw [Option.map_map]
  rfl

private theorem Docs.paths_update (D : Docs) (i : SourceId) (x : Option (String × Option ByteArray)) :
    Docs.paths (Function.update D i x) = Function.update D.paths i (x.map Prod.fst) := by
  funext j
  unfold Docs.paths
  rw [Function.update_apply, Function.update_apply]
  split <;> rfl

private theorem Docs.paths_deletes {user writer : String} (ops : List DeleteOperation) (D : Docs) :
    Docs.paths (ops.foldl (deleteDoc user writer) D) = ops.foldl (deletePath user writer) D.paths := by
  refine (List.foldl_hom Docs.paths fun D op => ?_).symm
  rw [deleteDoc, Docs.paths_update]
  rfl

private theorem Docs.paths_moves {user writer : String} (ops : List MoveOperation) (D : Docs) :
    Docs.paths (ops.foldl (moveDoc user writer) D) = ops.foldl (movePath user writer) D.paths := by
  refine (List.foldl_hom Docs.paths fun D op => ?_).symm
  rw [moveDoc, Docs.paths_update, movePath]
  congr 1
  show Option.map _ (Option.map _ _) = _
  rw [Option.map_map, Option.map_map]
  rfl

private theorem Docs.paths_put {user writer : String} (op : PutOperation) (y : Option ByteArray) (D : Docs) :
    Docs.paths (Function.update D (user, writer, op.sourceKey) (some (op.path, y))) =
      putPath user writer D.paths op := Docs.paths_update D _ _

/-! ### The loops -/

section

variable {user writer : String} {d0 : Disk} {G K : Prop} {V V' : Set TreePath} {lost : Set SourceId} {w : World}
  {s : Fs}

private theorem deleteSteps_append (paths : Paths) (ops ops' : List DeleteOperation) :
    deleteSteps user writer paths (ops ++ ops') =
      deleteSteps user writer paths ops ++ deleteSteps user writer (ops.foldl (deletePath user writer) paths) ops' := by
  induction ops generalizing paths with
  | nil => rfl
  | cons op ops ih =>
    rw [List.cons_append, deleteSteps, ih]
    rfl

private theorem putSteps_append (paths : Paths) (ops ops' : List PutOperation) :
    putSteps user writer paths (ops ++ ops') =
      putSteps user writer paths ops ++ putSteps user writer (ops.foldl (putPath user writer) paths) ops' := by
  induction ops generalizing paths with
  | nil => rfl
  | cons op ops ih =>
    rw [List.cons_append, putSteps, ih]
    rfl

/-- The state of a submission between two operations, none of which is a move in progress. -/
structure Between (user : String) (d0 : Disk) (K : Prop) (V : Set TreePath) (lost : Set SourceId) (w0 w : World) :
    Prop where
  running : Running user d0 K V (fun _ => none) lost w
  forward : Forward w0 w.fs
  tables : w0.catalog.SameTables w.catalog

private theorem Between.trans {K' : Prop} {w0 w1 : World} (h : Between user d0 K V lost w0 w1) {w2 : World}
    (h' : Between user d0 K' V' lost w1 w2) : Between user d0 K' V' lost w0 w2 :=
  ⟨h'.running, h.forward.trans h'.forward, h.tables.trans h'.tables⟩

private theorem deletes_spec (ops : List DeleteOperation) (h : Running user d0 K V (fun _ => none) lost w) :
    Ends (ops.forM (deleteOperation user writer))
      (fun _ w' => ∃ V', V' ⊆ V ∪ freed (deleteSteps user writer w.catalog.paths ops) ∧ Between user d0 K V' lost w w' ∧
        w'.catalog = ops.foldl (fun c op => c.deleteEntry user writer op.sourceKey) w.catalog ∧
        docs w'.catalog w'.fs.disk (fun _ => none) =
          ops.foldl (deleteDoc user writer) (docs w.catalog w.fs.disk fun _ => none))
      (fun _ w' => Failing user d0 G w'.fs ∧ ∃ op ∈ ops, ∃ w1 : World, w.catalog.SameTables w1.catalog ∧
        (w1.fs.fault ≠ none → w.fs.fault ≠ none) ∧ (∀ e ∈ w1.catalog.entries, e ∈ w.catalog.entries) ∧
        DeleteRefused w1 user writer op lost) w := by
  refine (Ends.forM ops
    (I := fun done w' => ∃ V', V' ⊆ V ∪ freed (deleteSteps user writer w.catalog.paths done) ∧
      Between user d0 K V' lost w w' ∧
      w'.catalog = done.foldl (fun c op => c.deleteEntry user writer op.sourceKey) w.catalog ∧
      docs w'.catalog w'.fs.disk (fun _ => none) =
        done.foldl (deleteDoc user writer) (docs w.catalog w.fs.disk fun _ => none))
    (fun done op rest hops w1 hw1 => ?_) ⟨V, Set.subset_union_left, ⟨h, .refl w, .refl _⟩, rfl, rfl⟩)
  obtain ⟨V1, hV1, hb, hcat, hdocs⟩ := hw1
  refine (deleteOperation_spec hb.running).mono (fun _ w2 hw2 => ?_) (fun _ w2 hw2 => ⟨hw2.1, op, by simp [hops], w1,
    hb.tables, fun hf hq => hf (hb.forward.quiet hq), ?_, hw2.2⟩)
  · obtain ⟨hrun, hfor, hcat2, hdocs2⟩ := hw2
    refine ⟨_, ?_, hb.trans ⟨hrun, hfor, by rw [hcat2]; exact ⟨rfl, rfl⟩⟩, ?_, ?_⟩
    · rw [deleteSteps_append, freed_append]
      refine Set.union_subset (hV1.trans ?_) ?_
      · exact Set.union_subset_union_right _ Set.subset_union_left
      · rintro r ⟨e, he, rfl⟩
        refine .inr (.inr ⟨_, List.mem_singleton_self _, e.path, ?_, rfl⟩)
        rw [← docs_paths _ w.fs.disk fun _ => none, ← Docs.paths_deletes, ← hdocs, docs_paths]
        exact congrArg (Option.map (·.path)) he
    · rw [hcat2, hcat, List.foldl_append]
      rfl
    · rw [hdocs2, hdocs, List.foldl_append]
      rfl
  · rw [hcat]
    clear hcat hdocs hV1 hops
    intro e he
    induction done using List.reverseRecOn with
    | nil => exact he
    | append_singleton done op ih =>
      rw [List.foldl_append] at he
      exact ih (Catalog.mem_deleteEntry.1 he).1

private theorem puts_spec {pre : List FileStep} (ops : List PutOperation)
    (h : Running user d0 K V (fun _ => none) lost w) (hV : V ⊆ freed pre)
    (hsafe : G → Risky user w.fs lost (pre ++ putSteps user writer w.catalog.paths ops) →
      Unnested (pre ++ putSteps user writer w.catalog.paths ops)) (hK : K ↔ G ∧ lost.Nonempty) :
    Ends (ops.forM (putOperation user writer))
      (fun _ w' => Astray G user w' ∨
        (∀ op ∈ ops, normalizeText op.text = .ok (lineFeedText op.text) ∧ Normalized op.path) ∧
        ∃ V', Between user d0 K V' lost w w' ∧ (lost = ∅ → docs w'.catalog w'.fs.disk (fun _ => none) =
          ops.foldl (putDoc user writer) (docs w.catalog w.fs.disk fun _ => none)))
      (fun _ w' => Astray G user w' ∨ Failing user d0 G w'.fs ∧ ∃ done op rest V1 w1, ops = done ++ op :: rest ∧
        Between user d0 K V1 lost w w1 ∧ (lost = ∅ → docs w1.catalog w1.fs.disk (fun _ => none) =
          done.foldl (putDoc user writer) (docs w.catalog w.fs.disk fun _ => none)) ∧
        PutRefused w1 user writer op lost) w := by
  refine (Ends.forM ops
    (I := fun done w' => Astray G user w' ∨
      (∀ op ∈ done, normalizeText op.text = .ok (lineFeedText op.text) ∧ Normalized op.path) ∧
      ∃ V', V' ⊆ freed (pre ++ putSteps user writer w.catalog.paths done) ∧ Between user d0 K V' lost w w' ∧
        w'.catalog.paths = done.foldl (putPath user writer) w.catalog.paths ∧
        (lost = ∅ → docs w'.catalog w'.fs.disk (fun _ => none) =
          done.foldl (putDoc user writer) (docs w.catalog w.fs.disk fun _ => none)))
    (fun done op rest hops w1 hw1 => ?_) (.inr ⟨by simp, V, ?_, ⟨h, .refl w, .refl _⟩, rfl, fun _ => rfl⟩)).mono
    (fun _ w' hw' => hw'.imp id fun hw' => ?_) (fun _ _ hw' => hw')
  · rcases hw1 with hastray | ⟨hnorm, V1, hV1, hb, hpaths, hdocs⟩
    · exact (putOperation_grows op w1).mono (fun _ _ hs => .inl (hastray.of_suffix hs))
        (fun _ _ hs => .inl (hastray.of_suffix hs))
    set step : FileStep :=
      ⟨(w1.catalog.paths (user, writer, op.sourceKey)).filter (· ≠ op.path), some op.path⟩ with hstep
    have hsteps : pre ++ putSteps user writer w.catalog.paths ops =
        (pre ++ putSteps user writer w.catalog.paths done) ++
          step :: putSteps user writer (putPath user writer w1.catalog.paths op) rest := by
      rw [hops, putSteps_append, ← hpaths, List.append_assoc]
      rfl
    have hsafe1 : G → Safe w1.fs V1 lost (treeLoc user op.path) := by
      intro hG
      rw [hsteps] at hsafe
      exact safe_of_unnested (fun hr => hsafe hG (hr.back hb.forward)) rfl hV1
    refine (putOperation_spec hb.running hsafe1 hK).mono (fun _ w2 hw2 => hw2.imp id fun hw2 => ?_)
      (fun _ w2 hw2 => hw2.imp id fun hw2 => ⟨hw2.1, done, op, rest, V1, w1, hops, hb, hdocs, hw2.2⟩)
    obtain ⟨text, htext, hn, hrun, hfor, htab, y, hd2, hy⟩ := hw2
    have htext' := normalizeText_ok htext
    refine ⟨fun op' hop' => ?_, _, ?_, hb.trans ⟨hrun, hfor, htab⟩, ?_, fun hl => ?_⟩
    · rcases List.mem_append.1 hop' with hop' | hop'
      · exact hnorm op' hop'
      · rw [List.mem_singleton.1 hop', ← htext']
        exact ⟨htext, hn⟩
    · rw [putSteps_append, ← List.append_assoc, freed_append]
      refine Set.union_subset_union hV1 ?_
      rintro r ⟨e, he, hne, rfl⟩
      refine ⟨_, List.mem_singleton_self _, e.path, ?_, rfl⟩
      rw [← hpaths]
      unfold Catalog.paths
      rw [he]
      simp [hne]
    · rw [← docs_paths _ w2.fs.disk fun _ => none, hd2, Docs.paths_put, docs_paths, hpaths, List.foldl_append]
      rfl
    · rw [hd2, hy hl, hdocs hl, List.foldl_append, htext']
      rfl
  · rw [putSteps, List.append_nil]
    exact hV
  · obtain ⟨hnorm, V1, -, hb, -, hdocs⟩ := hw'
    exact ⟨hnorm, V1, hb, hdocs⟩

private theorem decisions_spec (ops : List DecisionOperation) (h : Running user d0 K V (fun _ => none) lost w) :
    Ends (ops.forM (decisionOperation user writer))
      (fun _ w' => Between user d0 K V lost w w' ∧ w'.fs = w.fs ∧ w'.catalog.entries = w.catalog.entries)
      (fun _ w' => Failing user d0 G w'.fs ∧ ∃ op ∈ ops, ∃ w1 : World, w.catalog.SameTables w1.catalog ∧
        DecisionRefused w1 user writer op) w := by
  refine Ends.forM_inv
    (I := fun w' => Between user d0 K V lost w w' ∧ w'.fs = w.fs ∧ w'.catalog.entries = w.catalog.entries)
    (fun op hop w1 hw1 => ?_) ⟨⟨h, .refl w, .refl _⟩, rfl, rfl⟩
  obtain ⟨hb, hfs, hent⟩ := hw1
  refine (decisionOperation_spec hb.running).mono (fun _ w2 hw2 => ?_) (fun _ w2 hw2 => ⟨hw2.1, op, hop, w1, hb.tables,
    hw2.2⟩)
  obtain ⟨hrun, hfs2, hent2, htab⟩ := hw2
  refine ⟨hb.trans ⟨hrun, ?_, htab⟩, hfs2.trans hfs, hent2.trans hent⟩
  rw [hfs2]
  exact .refl w1

/-! ### The steps of a submission -/

/-- Ordered operations: deletes, moves, puts, decisions. -/
def Ordered (ordered : List Operation) : Prop :=
  ordered = (Catalog.deletesOf ordered).map .delete ++ (Catalog.movesOf ordered).map .move ++
    (Catalog.putsOf ordered).map .put ++ (Catalog.decisionsOf ordered).map .decision

private theorem groupSteps_others (deletes : List DeleteOperation) (puts : List PutOperation)
    (decisions : List DecisionOperation) (ops : List Operation) :
    groupSteps (deletes.map .delete ++ ops) = deletes.map .delete ++ groupSteps ops ∧
      groupSteps (puts.map .put ++ ops) = puts.map .put ++ groupSteps ops ∧
      groupSteps (decisions.map .decision) = decisions.map .decision := by
  refine ⟨?_, ?_, ?_⟩
  · induction deletes with
    | nil => rfl
    | cons op deletes ih => exact congrArg _ ih
  · induction puts with
    | nil => rfl
    | cons op puts ih => exact congrArg _ ih
  · induction decisions with
    | nil => rfl
    | cons op decisions ih => exact congrArg _ ih

private theorem groupSteps_moves (moves : List MoveOperation) {ops : List Operation}
    (h : ∀ ms rest, groupSteps ops ≠ .moves ms :: rest) :
    groupSteps (moves.map .move ++ ops) = (if moves = [] then [] else [.moves moves]) ++ groupSteps ops := by
  induction moves with
  | nil => rfl
  | cons op moves ih =>
    rw [List.map_cons, List.cons_append, groupSteps, ih, if_neg (List.cons_ne_nil _ _)]
    cases moves with
    | nil =>
      simp only [if_pos, List.nil_append]
      rfl
    | cons op' moves => rfl

private theorem groupSteps_tail (puts : List PutOperation) (decisions : List DecisionOperation)
    (ms : List MoveOperation) (rest : List Step) :
    groupSteps (puts.map Operation.put ++ decisions.map Operation.decision) ≠ .moves ms :: rest := by
  rw [(groupSteps_others [] puts decisions _).2.1, (groupSteps_others [] puts decisions []).2.2]
  cases puts with
  | nil => cases decisions <;> simp
  | cons op puts => simp

/-- The steps of ordered operations, run one kind after the other. -/
private theorem forM_groupSteps {ordered : List Operation} (h : Ordered ordered) {Q : Unit → World → Prop}
    {E : StoreError → World → Prop}
    (hrun : Ends ((Catalog.deletesOf ordered).forM (deleteOperation user writer)) (fun _ w1 =>
      Ends (if Catalog.movesOf ordered = [] then pure () else moveBatch user writer (Catalog.movesOf ordered))
      (fun _ w2 =>
        Ends ((Catalog.putsOf ordered).forM (putOperation user writer)) (fun _ w3 =>
          Ends ((Catalog.decisionsOf ordered).forM (decisionOperation user writer)) Q E w3) E w2) E w1) E w) :
    Ends ((groupSteps ordered).forM (runStep user writer)) Q E w := by
  have hsteps : groupSteps ordered = (Catalog.deletesOf ordered).map Step.delete ++
      ((if Catalog.movesOf ordered = [] then [] else [Step.moves (Catalog.movesOf ordered)]) ++
        ((Catalog.putsOf ordered).map Step.put ++ (Catalog.decisionsOf ordered).map Step.decision)) := by
    conv_lhs => rw [h]
    rw [List.append_assoc, List.append_assoc, (groupSteps_others _ [] [] _).1,
      groupSteps_moves _ fun ms rest => groupSteps_tail _ _ ms rest, (groupSteps_others [] _ [] _).2.1,
      (groupSteps_others [] [] _ []).2.2]
  rw [hsteps]
  simp only [List.forM_eq_forM, List.forM_append, List.forM_map, ends_bind]
  refine hrun.mono (fun _ w1 hw1 => ?_) (fun _ _ h => h)
  split
  · rename_i hnil
    rw [if_pos hnil] at hw1
    exact hw1
  · rename_i hnil
    rw [if_neg hnil] at hw1
    rw [List.forM_cons, ends_bind]
    exact hw1

/-- The planned moves of the ordered operations, which run after the deletes. -/
def plannedMoves (c : Catalog) (user writer : String) (ordered : List Operation) :
    Except StoreError (List PlannedMove) :=
  planMoves ((Catalog.deletesOf ordered).foldl (fun c op => c.deleteEntry user writer op.sourceKey) c) user writer
    (Catalog.movesOf ordered)

/-- The documents that are moved to the path they already have. -/
def selfMoved (c : Catalog) (user writer : String) (ordered : List Operation) : Set SourceId :=
  {i | ∃ plans, plannedMoves c user writer ordered = .ok plans ∧
    ∃ p ∈ plans, p.entry.source = i ∧ p.entry.path = p.destination}

/-- Whatever call faults, the operations can be rolled back. -/
def Undoable (user writer : String) (w : World) (ordered : List Operation) : Prop :=
  ∀ plans, plannedMoves w.catalog user writer ordered = .ok plans →
    Risky user w.fs (selfMoved w.catalog user writer ordered) (fileSteps user writer w.catalog.paths ordered plans) →
      Unnested (fileSteps user writer w.catalog.paths ordered plans)

/-- Why the operations are refused: the state in which one of them raises. -/
def StepsRefused (user writer : String) (d0 : Disk) (K : Prop) (lost : Set SourceId) (ordered : List Operation)
    (w : World) : Prop :=
  (∃ op ∈ Catalog.deletesOf ordered, ∃ w1 : World, w.catalog.SameTables w1.catalog ∧
    (w1.fs.fault ≠ none → w.fs.fault ≠ none) ∧ (∀ e ∈ w1.catalog.entries, e ∈ w.catalog.entries) ∧
    DeleteRefused w1 user writer op lost) ∨
  ∃ V w1, Between user d0 True V lost w w1 ∧
    w1.catalog = (Catalog.deletesOf ordered).foldl (fun c op => c.deleteEntry user writer op.sourceKey) w.catalog ∧
    docs w1.catalog w1.fs.disk (fun _ => none) =
      (Catalog.deletesOf ordered).foldl (deleteDoc user writer) (docs w.catalog w.fs.disk fun _ => none) ∧
    ((∃ e, planMoves w1.catalog user writer (Catalog.movesOf ordered) = .error e) ∨
      ∃ plans, planMoves w1.catalog user writer (Catalog.movesOf ordered) = .ok plans ∧
        (BatchRefused user writer d0 K lost plans w1 ∨
          ∃ V' w2, Between user d0 K V' lost w1 w2 ∧ (lost = ∅ → docs w2.catalog w2.fs.disk (fun _ => none) =
            (Catalog.movesOf ordered).foldl (moveDoc user writer) (docs w1.catalog w1.fs.disk fun _ => none)) ∧
            ((∃ done op rest V2 w3, Catalog.putsOf ordered = done ++ op :: rest ∧ Between user d0 K V2 lost w2 w3 ∧
              (lost = ∅ → docs w3.catalog w3.fs.disk (fun _ => none) =
                done.foldl (putDoc user writer) (docs w2.catalog w2.fs.disk fun _ => none)) ∧
              PutRefused w3 user writer op lost) ∨
            ∃ op ∈ Catalog.decisionsOf ordered, ∃ w3 : World, w2.catalog.SameTables w3.catalog ∧
              DecisionRefused w3 user writer op)))

/-- The moves of the ordered operations, if there are any. -/
private theorem moves_spec {ordered : List Operation} {w1 : World} {V : Set TreePath} {pre post : List FileStep}
    (h : Running user d0 True V (fun _ => none) (selfMoved w.catalog user writer ordered) w1)
    (hcat : w1.catalog =
      (Catalog.deletesOf ordered).foldl (fun c op => c.deleteEntry user writer op.sourceKey) w.catalog)
    (hdup : ((Catalog.movesOf ordered).map (·.sourceKey)).Nodup) (hV : V ⊆ freed pre)
    (hsafe : G → ∀ plans, plannedMoves w.catalog user writer ordered = .ok plans →
      Risky user w1.fs (selfMoved w.catalog user writer ordered) (pre ++ moveSteps plans ++ post) →
        Unnested (pre ++ moveSteps plans ++ post)) :
    Ends (if Catalog.movesOf ordered = [] then pure () else moveBatch user writer (Catalog.movesOf ordered))
      (fun _ w' => ∃ plans, plannedMoves w.catalog user writer ordered = .ok plans ∧
        ∃ V', V' ⊆ freed (pre ++ moveSteps plans) ∧
          Between user d0 (G ∧ (selfMoved w.catalog user writer ordered).Nonempty) V'
            (selfMoved w.catalog user writer ordered) w1 w' ∧
          w'.catalog.paths = (Catalog.movesOf ordered).foldl (movePath user writer) w1.catalog.paths ∧
          (selfMoved w.catalog user writer ordered = ∅ → docs w'.catalog w'.fs.disk (fun _ => none) =
            (Catalog.movesOf ordered).foldl (moveDoc user writer) (docs w1.catalog w1.fs.disk (fun _ => none))))
      (fun _ w' => Failing user d0 G w'.fs ∧
        ((∃ e, planMoves w1.catalog user writer (Catalog.movesOf ordered) = .error e) ∨
        ∃ plans, planMoves w1.catalog user writer (Catalog.movesOf ordered) = .ok plans ∧
          BatchRefused user writer d0 (G ∧ (selfMoved w.catalog user writer ordered).Nonempty)
            (selfMoved w.catalog user writer ordered) plans w1)) w1 := by
  have hplan : plannedMoves w.catalog user writer ordered =
      planMoves w1.catalog user writer (Catalog.movesOf ordered) := by
    rw [hcat]
    rfl
  have hparks : ∀ plans r, r ∈ parkedPaths (destinationsOf plans) (moveCycles (destinationsOf plans)) →
      r ∈ freed (moveSteps plans) := by
    rintro plans r ⟨cycle, hc, q, hq, rfl⟩
    refine ⟨⟨(destinationsOf plans).get? (cycle.headD ""), none⟩, ?_, q, hq, rfl⟩
    exact List.mem_append_left _ (List.mem_map.2 ⟨cycle, hc, rfl⟩)
  have hmoved : ∀ (plans : List PlannedMove) r,
    (∃ q ∈ plans, q.entry.path ≠ q.destination ∧ r = treePath q.entry.path) →
      r ∈ freed (plans.map moveStep) := by
    rintro plans r ⟨q, hq, hne, rfl⟩
    refine ⟨moveStep q, List.mem_map_of_mem hq, q.entry.path, ?_, rfl⟩
    rw [moveStep, if_pos hne]
    rfl
  refine Ends.ite (fun hnil => ?_) (fun _ => ?_)
  · refine ⟨[], by rw [hplan, hnil]; rfl, V, ?_, ⟨h.weaken fun _ => trivial, .refl w1, .refl _⟩, by rw [hnil]; rfl,
      fun _ => by rw [hnil]; rfl⟩
    rw [freed_append]
    exact hV.trans Set.subset_union_left
  · refine (moveBatch_spec h hdup (fun plans hp p hmem => ⟨?_, fun hs => ⟨plans, hplan ▸ hp, p, hmem, rfl, hs⟩⟩)
      (fun hG plans hp moved p rest hxs hne => ?_)).mono (fun _ w2 hw2 => ?_) (fun _ _ hw' => hw')
    · rintro ⟨plans', hp', p', hmem', hs, hpath⟩
      rw [hplan, hp] at hp'
      cases hp'
      obtain ⟨hops, hplanned⟩ := planMoves_ok hp
      have hplans : Plans w1.catalog user writer plans := ⟨hplanned, by rw [← hops, List.map_map] at hdup; exact hdup⟩
      rw [← hplans.eq_of_source hmem' hmem hs]
      exact hpath
    · -- the moves before this one, and the documents taken to temporary places, are steps before it
      have hsteps : pre ++ moveSteps plans ++ post =
          (pre ++ ((moveCycles (destinationsOf plans)).map fun cycle =>
            (⟨(destinationsOf plans).get? (cycle.headD ""), none⟩ : FileStep)) ++ moved.map moveStep) ++
            moveStep p :: (rest.map moveStep ++ post) := by
        rw [moveSteps]
        conv_lhs => rw [hxs]
        rw [List.map_append, List.map_cons, ← hxs]
        simp only [List.append_assoc, List.cons_append]
      have hsafe' := hsafe hG plans (hplan ▸ hp)
      rw [hsteps] at hsafe'
      refine safe_of_unnested hsafe' (by rw [moveStep, if_pos hne]) ?_
      rw [freed_append, freed_append]
      rintro r (hr | hr | hr)
      · exact .inl (.inl (hV hr))
      · obtain ⟨cycle, hc, q, hq, rfl⟩ := hr
        exact .inl (.inr ⟨_, List.mem_map.2 ⟨cycle, hc, rfl⟩, q, hq, rfl⟩)
      · exact .inr (hmoved moved r hr)
    · obtain ⟨plans, hp, V', hV', hrun, hfor, htab, hpaths, hdocs⟩ := hw2
      refine ⟨plans, hplan.trans hp, V', ?_, ⟨hrun, hfor, htab⟩, ?_, hdocs⟩
      · rw [freed_append]
        refine hV'.trans (Set.union_subset (hV.trans Set.subset_union_left) ?_)
        rintro r (hr | hr)
        · exact .inr (hparks plans r hr)
        · refine .inr ?_
          rw [moveSteps, freed_append]
          exact .inr (hmoved plans r hr)
      · rw [← docs_paths _ w2.fs.disk fun _ => none, ← docs_paths w1.catalog w1.fs.disk fun _ => none,
          ← Docs.paths_moves]
        exact funext hpaths

/-- The steps of a submission: they have the effect of the operations, or they can be rolled back. -/
private theorem steps_spec {ordered : List Operation} (hord : Ordered ordered)
    (hdup : ((Catalog.movesOf ordered).map (·.sourceKey)).Nodup)
    (h : Running user d0 True ∅ (fun _ => none) (selfMoved w.catalog user writer ordered) w)
    (hsafe : G → Undoable user writer w ordered) :
    Ends ((groupSteps ordered).forM (runStep user writer))
      (fun _ w' => Astray G user w' ∨ (∃ plans, plannedMoves w.catalog user writer ordered = .ok plans) ∧
        (∀ op ∈ Catalog.putsOf ordered, normalizeText op.text = .ok (lineFeedText op.text) ∧ Normalized op.path) ∧
        ∃ V, Between user d0 (G ∧ (selfMoved w.catalog user writer ordered).Nonempty) V
          (selfMoved w.catalog user writer ordered) w w' ∧
          (selfMoved w.catalog user writer ordered = ∅ → docs w'.catalog w'.fs.disk (fun _ => none) =
            effect user writer ordered (docs w.catalog w.fs.disk fun _ => none)))
      (fun _ w' => Astray G user w' ∨ Failing user d0 G w'.fs ∧
        StepsRefused user writer d0 (G ∧ (selfMoved w.catalog user writer ordered).Nonempty)
          (selfMoved w.catalog user writer ordered) ordered w) w := by
  refine forM_groupSteps hord ?_
  refine (deletes_spec _ h).mono (fun _ w1 hw1 => ?_) (fun _ w' hw' => .inr ⟨hw'.1, .inl hw'.2⟩)
  obtain ⟨V1, hV1, hb1, hcat, hdocs1⟩ := hw1
  rw [Set.empty_union] at hV1
  have hpaths1 : w1.catalog.paths = (Catalog.deletesOf ordered).foldl (deletePath user writer) w.catalog.paths := by
    rw [← docs_paths _ w1.fs.disk fun _ => none, hdocs1, Docs.paths_deletes, docs_paths]
  have hsafe1 : G → ∀ plans, plannedMoves w.catalog user writer ordered = .ok plans → ∀ s, Forward w s →
      Risky user s (selfMoved w.catalog user writer ordered)
        (deleteSteps user writer w.catalog.paths (Catalog.deletesOf ordered) ++ moveSteps plans ++
          putSteps user writer ((Catalog.movesOf ordered).foldl (movePath user writer) w1.catalog.paths)
            (Catalog.putsOf ordered)) →
      Unnested (deleteSteps user writer w.catalog.paths (Catalog.deletesOf ordered) ++ moveSteps plans ++
          putSteps user writer ((Catalog.movesOf ordered).foldl (movePath user writer) w1.catalog.paths)
            (Catalog.putsOf ordered)) := by
    intro hG plans hp s hs hr
    have hu := hsafe hG plans hp
    unfold fileSteps at hu
    simp only [← hpaths1] at hu
    exact hu (hr.back hs)
  refine (moves_spec hb1.running hcat hdup hV1 fun hG plans hp => hsafe1 hG plans hp _ hb1.forward).mono
    (fun _ w2 hw2 => ?_) (fun _ w' hw' => .inr ⟨hw'.1, ?_⟩)
  · obtain ⟨plans, hp, V2, hV2, hb2, hpaths2, hdocs2⟩ := hw2
    have hp1 : planMoves w1.catalog user writer (Catalog.movesOf ordered) = .ok plans := by
      rw [hcat]
      exact hp
    refine (puts_spec _ hb2.running hV2 (by
      rw [hpaths2]
      exact fun hG => hsafe1 hG plans hp _ (hb1.forward.trans hb2.forward)) Iff.rfl).mono (fun _ w3 hw3 => ?_)
      (fun _ w' hw' => hw'.imp id fun hw' => ⟨hw'.1, .inr ⟨V1, w1, hb1, hcat, hdocs1, .inr ⟨plans, hp1, .inr ⟨V2, w2,
        hb2, hdocs2, .inl hw'.2⟩⟩⟩⟩)
    rcases hw3 with hastray | ⟨hnorm, V3, hb3, hdocs3⟩
    · refine (Ends.forM_inv (I := Astray G user) (E := fun _ => Astray G user) (fun op _ w4 hw4 => ?_) hastray).mono
        (fun _ _ hw' => .inl hw') (fun _ _ hw' => .inl hw')
      exact (decisionOperation_grows op w4).mono (fun _ _ hs => hw4.of_suffix hs) (fun _ _ hs => hw4.of_suffix hs)
    refine (decisions_spec (G := G) _ hb3.running).mono (fun _ w4 hw4 => .inr ?_) (fun _ w' hw' => .inr ?_)
    · obtain ⟨hb4, hfs, hent⟩ := hw4
      refine ⟨⟨plans, hp⟩, hnorm, V3, ((hb1.trans hb2).trans hb3).trans hb4, fun hl => ?_⟩
      rw [docs_of_entries hent, hfs, hdocs3 hl, hdocs2 hl, hdocs1]
      rfl
    · obtain ⟨hf, op, hop, w4, htab, hr⟩ := hw'
      exact ⟨hf, .inr ⟨V1, w1, hb1, hcat, hdocs1, .inr ⟨plans, hp1, .inr ⟨V2, w2, hb2, hdocs2,
        .inr ⟨op, hop, w4, hb3.tables.trans htab, hr⟩⟩⟩⟩⟩
  · refine .inr ⟨V1, w1, hb1, hcat, hdocs1, ?_⟩
    rcases hw'.2 with he | ⟨plans, hp, hr⟩
    · exact .inl he
    · exact .inr ⟨plans, hp, .inl hr⟩

/-! ### Rollback and clean-up -/

/-- Everything but the undo files and the objects is kept. -/
structure Swept (n : Nat) (d e : Disk) : Prop where
  wf : e.WF
  pathMax : e.pathMax = d.pathMax
  files : ∀ v p, e.file ⟨.users v, p⟩ = d.file ⟨.users v, p⟩
  fresh : e.FreshFrom n
  flat : e.Flat

/-- Unlinking a file outside the trees. -/
private theorem unlink_swept {n : Nat} {d : Disk} {s : Fs} {l : Option Loc}
    (hl : ∀ x, l = some x → ∀ v, x.area ≠ .users v) (h : Swept n d s.disk) :
    Ends (unlinkIfExists l) (fun _ s' => s.SameJournal s' ∧ Swept n d s'.disk)
      (fun _ s' => s.SameJournal s' ∧ Swept n d s'.disk) s := by
  cases l with
  | none => exact ⟨.refl s, h⟩
  | some l =>
    refine (unlinkIfExists_edit (u := "") h.wf l).mono (fun _ s' hs' => ⟨hs'.1, ?_⟩)
      (fun _ s' hs' => ⟨hs'.1.toSameJournal, ?_⟩)
    · have hedit := hs'.2.1
      refine ⟨hedit.wf, hedit.pathMax.trans h.pathMax, fun v p => ?_,
        hedit.freshFrom h.fresh (update_undrawn h.fresh.file (.inl rfl)), hedit.flat h.flat⟩
      rw [hedit.file, Function.update_of_ne, h.files]
      rintro rfl
      exact hl _ rfl v rfl
    · rw [hs'.1.disk]
      exact h

private theorem cleanupFilesystem_spec {n : Nat} {d : Disk} (ht : Tidy s) (h : Swept n d s.disk) :
    Ends cleanupFilesystem (fun _ s' => s'.fault = none ∧ s'.uuids = s.uuids ∧ Swept n d s'.disk) (fun _ _ => False)
      s := by
  unfold cleanupFilesystem
  rw [ends_bind, ends_modify, ends_bind, ends_get]
  refine Ends.forM_inv (I := fun s' : Fs => s'.fault = none ∧ s'.uuids = s.uuids ∧ Swept n d s'.disk)
    (fun c hc s1 hs1 => ?_) ⟨rfl, rfl, h⟩
  obtain ⟨hq, hu, hsw⟩ := hs1
  have keep : ∀ {l : Option Loc}, (∀ x, l = some x → ∀ v, x.area ≠ .users v) →
      Ends (tryCatch (unlinkIfExists l) fun _ => pure ())
        (fun _ s' => s'.fault = none ∧ s'.uuids = s.uuids ∧ Swept n d s'.disk) (fun _ _ => False) s1 := by
    intro l hl
    rw [ends_tryCatch]
    exact (unlink_swept hl hsw).mono (fun _ s2 hs2 => ⟨hs2.1.quiet hq, hs2.1.uuids.trans hu, hs2.2⟩)
      (fun _ s2 hs2 => ⟨hs2.1.quiet hq, hs2.1.uuids.trans hu, hs2.2⟩)
  have htc := ht c hc
  cases c with
  | unlinkBackup backup =>
    refine keep fun x hx v hv => ?_
    have := htc x hx
    rw [hv] at this
    cases this
  | removeObject object =>
    obtain ⟨user, objectId, rfl⟩ := htc
    refine keep (l := some (objectLoc user objectId)) fun x hx v hv => ?_
    cases hx
    cases hv

private theorem rollbackFilesystem_spec (h : Failing user d0 G s) (hd : d0.Flat) (hu : Unobstructed user s) :
    Ends rollbackFilesystem
      (fun failed s' => failed = false ∧ Tidy s' ∧ Swept s'.uuids d0 s'.disk) (fun _ _ => False) s := by
  obtain ⟨T, d, hbelow, hrev⟩ := h.recoverable hu
  unfold rollbackFilesystem
  rw [ends_bind, ends_modify, ends_bind, ends_get]
  refine (hrev { s with fault := none } rfl hbelow).mono (fun failed s' hs' => ?_) (fun _ _ hf => hf)
  obtain ⟨hfailed, hj, hb⟩ := hs'
  refine ⟨hfailed, h.tidy.of_eq hj.cleanupStack, hb.wf, hb.pathMax, hb.files, ?_, hb.flat hd⟩
  have hu : s'.uuids = s.uuids := hj.uuids
  rw [hu]
  exact hb.fresh

/-- A directory in the way makes the rollback fail. -/
private theorem rollbackFilesystem_jammed (h : Failing user d0 G s) (hu : ¬Unobstructed user s) :
    Ends rollbackFilesystem
      (fun failed s' => failed = true ∧ Tidy s' ∧ (Originals user s.undoStack → Missing user d0 s'.disk))
      (fun _ _ => False) s := by
  unfold rollbackFilesystem
  rw [ends_bind, ends_modify, ends_bind, ends_get]
  refine ((h.jammed hu).and (runUndos_total s.undoStack _)).mono (fun _ s' hs' => ?_) (fun _ _ hf => hf.1)
  obtain ⟨⟨hfailed, hmissing⟩, hcleanup⟩ := hs'
  exact ⟨hfailed, h.tidy.of_eq hcleanup, hmissing⟩

/-- The clean-up is run to its end, whatever becomes of it, and leaves the trees alone. -/
private theorem cleanupFilesystem_total (h : Tidy s) :
    Ends cleanupFilesystem (fun _ s' => s.disk.SameOutside OffTree s'.disk) (fun _ _ => False) s := by
  have hrun : ∀ c ∈ s.cleanupStack, Keeps (Fs.SameFiles OffTree) (fun _ => True) c.run := by
    intro c hc
    have hplace := h c hc
    have hframe := sameFiles_frame zone_offTree
    cases c with
    | unlinkBackup backup =>
      refine hframe.unlinkIfExists fun l hl v hv => ?_
      rw [hplace l hl] at hv
      cases hv
    | removeObject object =>
      obtain ⟨v, objectId, rfl⟩ := hplace
      exact hframe.unlinkFile fun v' hv => by cases hv
  unfold cleanupFilesystem
  rw [ends_bind, ends_modify, ends_bind, ends_get]
  refine Ends.forM_inv (I := fun s' : Fs => s.disk.SameOutside OffTree s'.disk) (fun c hc s1 hs1 => ?_) fun _ _ => rfl
  rw [ends_tryCatch]
  refine ((hrun c hc).ends s1).mono (fun _ s2 hs2 => ?_) (fun _ s2 hs2 => ?_)
  · exact hs1.trans hs2.files
  · exact hs1.trans hs2.files

/-- The error of an operation is raised again, or another one. -/
private theorem abandonSubmission_raises {submissionId : Nat} {e : StoreError} :
    Ends (abandonSubmission submissionId e) (fun _ _ => False) (fun _ _ => True) w := by
  unfold abandonSubmission
  rw [ends_bind]
  refine (Ends.any _ _).mono (fun failed w1 _ => ?_) fun _ _ _ => trivial
  rw [ends_bind, ends_now, ends_bind]
  refine (Ends.any _ _).mono (fun _ w2 _ => ?_) fun _ _ _ => trivial
  rw [ends_bind]
  refine (Ends.any _ _).mono (fun _ w3 _ => ?_) fun _ _ _ => trivial
  rw [ends_throw]
  exact trivial

private theorem abandonSubmission_jammed {submissionId : Nat} {e : StoreError} (h : Failing user d0 G w.fs)
    (hu : ¬Unobstructed user w.fs) :
    Ends (abandonSubmission submissionId e) (fun _ _ => False)
      (fun e' w' => e' = .rollbackFailed ∧ (Originals user w.fs.undoStack → Missing user d0 w'.fs.disk)) w := by
  unfold abandonSubmission
  rw [ends_bind, ends_onDisk]
  refine (rollbackFilesystem_jammed h hu).mono (fun failed s hs => ?_) (fun _ _ hf => hf.elim)
  obtain ⟨rfl, htidy, hmissing⟩ := hs
  rw [ends_bind, ends_now, ends_bind, ends_transaction, ends_execute]
  refine ⟨fun c _ => ?_, fun err herr => by cases herr⟩
  rw [ends_bind, ends_onDisk]
  refine (cleanupFilesystem_total htidy).mono (fun _ s' hs' => ?_) (fun _ _ hf => hf.elim)
  rw [ends_throw]
  refine ⟨rfl, fun ho => ?_⟩
  obtain ⟨p, hold, hgone⟩ := hmissing ho
  exact ⟨p, hold, (hs' _ fun hoff => hoff user rfl).trans hgone⟩

private theorem abandonSubmission_spec {submissionId : Nat} {e : StoreError} (h : Failing user d0 G w.fs)
    (hd : d0.Flat) (hu : Unobstructed user w.fs) :
    Ends (abandonSubmission submissionId e) (fun _ _ => False)
      (fun _ w' => w'.catalog.entries = w.catalog.entries ∧ w'.catalog.decisions = w.catalog.decisions ∧
        w'.catalog.writerPrefixes = w.catalog.writerPrefixes ∧ Swept w'.fs.uuids d0 w'.fs.disk) w := by
  unfold abandonSubmission
  rw [ends_bind, ends_onDisk]
  refine (rollbackFilesystem_spec h hd hu).mono (fun failed s hs => ?_) (fun _ _ hf => hf.elim)
  obtain ⟨rfl, htidy, hsw⟩ := hs
  rw [ends_bind, ends_now, ends_bind, ends_transaction, ends_execute]
  refine ⟨fun c hc => ?_, fun err herr => by cases herr⟩
  cases hc
  rw [ends_bind, ends_onDisk]
  refine (cleanupFilesystem_spec htidy hsw).mono (fun _ s' hs' => ?_) (fun _ _ hf => hf.elim)
  rw [ends_throw]
  obtain ⟨-, hu, hsw'⟩ := hs'
  refine ⟨rfl, rfl, rfl, ?_⟩
  show Swept s'.uuids d0 s'.disk
  rw [hu]
  exact hsw'

/-! ### The submission -/

/-- Rows and tree files belong together. -/
structure Agrees (c : Catalog) (d : Disk) : Prop where
  /-- Every row has its file. -/
  files : ∀ e ∈ c.entries, ∃ data, d.node (treeLoc e.userId e.path) = some (.file data) ∧
    contentHash data = e.contentHash
  /-- Every file of a tree is the file of exactly one row. -/
  owned : ∀ user p data, d.node ⟨.users user, p⟩ = some (.file data) →
    ∃! e, e ∈ c.entries ∧ treeLoc e.userId e.path = ⟨.users user, p⟩
  paths : (c.entries.map fun e => (e.userId, e.path)).Nodup
  sources : (c.entries.map Entry.source).Nodup

/-- A store between two calls: a file system without duplicate uuids, and a catalog that agrees with it. -/
structure Consistent (w : World) : Prop where
  wf : w.fs.disk.WF
  fresh : w.fs.disk.FreshFrom w.fs.uuids
  flat : w.fs.disk.Flat
  agrees : Agrees w.catalog w.fs.disk
  normal : ∀ e ∈ w.catalog.entries, Normalized e.path

theorem Consistent.distinct (h : Consistent w) : w.catalog.Distinct := ⟨h.agrees.paths, h.agrees.sources⟩

theorem Agrees.of_files {c c' : Catalog} {d d' : Disk} (h : Agrees c d) (hc : c'.entries = c.entries)
    (hf : ∀ v p, d'.file ⟨.users v, p⟩ = d.file ⟨.users v, p⟩) : Agrees c' d' := by
  have hnode : ∀ v p x, d'.node ⟨.users v, p⟩ = some (.file x) ↔ d.node ⟨.users v, p⟩ = some (.file x) := by
    intro v p x
    rw [← Disk.file_eq_some_iff, ← Disk.file_eq_some_iff, hf]
  refine ⟨?_, ?_, ?_, ?_⟩ <;> rw [hc]
  · intro e he
    obtain ⟨x, hx, hhash⟩ := h.files e he
    exact ⟨x, (hnode _ _ _).2 hx, hhash⟩
  · exact fun user p x hx => h.owned user p x ((hnode _ _ _).1 hx)
  · exact h.paths
  · exact h.sources

/-- The start of a submission. -/
private theorem Consistent.running {w' : World} (h : Consistent w) (hl : ∀ i ∈ lost, i.1 = user)
    (hc : w'.catalog.entries = w.catalog.entries) (hd : w'.fs.disk = w.fs.disk) (hn : w.fs.uuids ≤ w'.fs.uuids)
    (hu : w'.fs.undoStack = []) (hclean : w'.fs.cleanupStack = []) :
    Running user w.fs.disk True ∅ (fun _ => none) lost w' := by
  refine ⟨by rw [hd]; exact h.wf, by rw [hd]; exact h.fresh.mono hn, by rw [hd]; exact h.flat, ?_, ?_, ?_,
    fun i l hi => (nomatch hi), hl, fun _ p hp => hp.elim⟩
  · rw [hd]
    refine ⟨⟨by rw [hc]; exact h.agrees.paths, by rw [hc]; exact h.agrees.sources⟩, ?_, fun _ _ _ hi => (nomatch hi),
      fun _ _ hi => (nomatch hi), ?_, fun v p hf => ?_⟩ <;> rw [hc]
    · exact fun e he _ => h.normal e he
    · intro e he
      obtain ⟨x, hx, hhash⟩ := h.agrees.files e he
      exact .inl ⟨x, Disk.file_eq_some_iff.2 hx, hhash⟩
    · obtain ⟨x, hx⟩ := Option.ne_none_iff_exists'.1 hf
      obtain ⟨e, ⟨he, hloc⟩, -⟩ := h.agrees.owned v p x (Disk.file_eq_some_iff.1 hx)
      exact ⟨e, he, rfl, hloc⟩
  · rw [← hd]
    exact .start hu
  · unfold Tidy
    rw [hclean]
    exact fun c hc => (nomatch hc)

/-- The end of a submission that has lost nothing. -/
private theorem Running.consistent {w' : World} (h : Running user d0 K V (fun _ => none) ∅ w)
    (hc : w'.catalog.entries = w.catalog.entries) (hs : Swept w'.fs.uuids w.fs.disk w'.fs.disk) : Consistent w' := by
  have hsync := h.synced
  have hfiles : ∀ e ∈ w.catalog.entries, ∃ x, w.fs.disk.file (treeLoc e.userId e.path) = some x ∧
      contentHash x = e.contentHash := by
    intro e he
    rcases hsync.files e he with hf | ⟨hl, -⟩
    · exact hf
    · exact hl.elim
  refine ⟨hs.wf, hs.fresh, hs.flat, Agrees.of_files (c := w.catalog) (d := w.fs.disk) ⟨?_, ?_, hsync.distinct.paths,
    hsync.distinct.sources⟩ hc hs.files, ?_⟩
  · intro e he
    obtain ⟨x, hx, hhash⟩ := hfiles e he
    exact ⟨x, Disk.file_eq_some_iff.1 hx, hhash⟩
  · intro v p x hx
    obtain ⟨e, he, -, hloc⟩ := hsync.owned v p (by rw [Disk.file_eq_some_iff.2 hx]; simp)
    refine ⟨e, ⟨he, hloc⟩, fun e' ⟨he', hloc'⟩ => ?_⟩
    have heq := hloc'.trans hloc.symm
    rw [treeLoc_inj (hsync.normal e' he' rfl) (hsync.normal e he rfl)] at heq
    exact hsync.distinct.eq_of_path he' he heq.1 heq.2
  · rw [hc]
    exact fun e he => hsync.normal e he rfl

/-- The checks of a submission and the order of its operations. -/
def checked (c : Catalog) (user writer : String) (operations : List Operation) :
    Except StoreError (List Operation) := do
  Catalog.rejectDuplicateMoveSources operations
  let ordered ← c.orderedOperations user writer operations
  c.preflightSubmission user writer ordered
  return ordered

theorem checked_ok {c : Catalog} {operations ordered : List Operation}
    (h : checked c user writer operations = .ok ordered) :
    Catalog.rejectDuplicateMoveSources operations = .ok () ∧ c.orderedOperations user writer operations = .ok ordered ∧
      c.preflightSubmission user writer ordered = .ok () := by
  unfold checked at h
  simp only [bind, Except.bind] at h
  split at h
  · cases h
  · rename_i h1
    split at h
    · cases h
    · rename_i h2
      split at h
      · cases h
      · rename_i h3
        cases h
        exact ⟨h1, h2, h3⟩

/-- What `orderedOperations` puts together. -/
theorem orderedOperations_ok {c : Catalog} {operations ordered : List Operation}
    (hdup : Catalog.rejectDuplicateMoveSources operations = .ok ())
    (h : c.orderedOperations user writer operations = .ok ordered) :
    Ordered ordered ∧ Catalog.deletesOf ordered = Catalog.deletesOf operations ∧
      (Catalog.movesOf ordered).Perm (Catalog.movesOf operations) ∧
      Catalog.putsOf ordered = Catalog.putsOf operations ∧
      ((Catalog.movesOf ordered).map (·.sourceKey)).Nodup := by
  have hnd := (Catalog.rejectDuplicates_ok hdup).1
  unfold Catalog.orderedOperations at h
  simp only [bind, Except.bind] at h
  split at h
  · cases h
  · rename_i moves hmoves
    cases h
    have hperm := Catalog.orderedMoves_perm hnd hmoves
    have hdel : ∀ (ds : List DeleteOperation) (ms : List MoveOperation) (ps : List PutOperation)
        (es : List DecisionOperation),
        Catalog.deletesOf (ds.map Operation.delete ++ ms.map Operation.move ++ ps.map Operation.put ++
          es.map Operation.decision) = ds ∧
        Catalog.movesOf (ds.map Operation.delete ++ ms.map Operation.move ++ ps.map Operation.put ++
          es.map Operation.decision) = ms ∧
        Catalog.putsOf (ds.map Operation.delete ++ ms.map Operation.move ++ ps.map Operation.put ++
          es.map Operation.decision) = ps ∧
        Catalog.decisionsOf (ds.map Operation.delete ++ ms.map Operation.move ++ ps.map Operation.put ++
          es.map Operation.decision) = es := by
      intro ds ms ps es
      unfold Catalog.deletesOf Catalog.movesOf Catalog.putsOf Catalog.decisionsOf
      simp only [List.filterMap_append, List.filterMap_map]
      refine ⟨?_, ?_, ?_, ?_⟩ <;> simp
    obtain ⟨h1, h2, h3, h4⟩ := hdel (Catalog.deletesOf operations) moves (Catalog.putsOf operations)
      (Catalog.decisionsOf operations)
    refine ⟨?_, h1, by rw [h2]; exact hperm, h3, ?_⟩
    · unfold Ordered
      rw [h1, h2, h3, h4]
    · rw [h2]
      exact (hperm.map _).nodup_iff.2 hnd

private theorem foldl_deleteEntry_submissions (c : Catalog) (rows : List SubmissionRow) (ops : List DeleteOperation) :
    ops.foldl (fun c op => c.deleteEntry user writer op.sourceKey) { c with submissions := rows } =
      { ops.foldl (fun c op => c.deleteEntry user writer op.sourceKey) c with submissions := rows } := by
  induction ops generalizing c with
  | nil => rfl
  | cons op ops ih => exact ih (c.deleteEntry user writer op.sourceKey)

private theorem planMoves_submissions (c : Catalog) (rows : List SubmissionRow) (ops : List MoveOperation) :
    planMoves { c with submissions := rows } user writer ops = planMoves c user writer ops := by
  induction ops with
  | nil => rfl
  | cons op ops ih =>
    unfold planMoves
    rw [ih]
    rfl

/-- The table of submissions plays no part in planning. -/
private theorem plannedMoves_submissions (c : Catalog) (rows : List SubmissionRow) (ordered : List Operation) :
    plannedMoves { c with submissions := rows } user writer ordered = plannedMoves c user writer ordered := by
  unfold plannedMoves
  rw [foldl_deleteEntry_submissions, planMoves_submissions]

private theorem selfMoved_user {c : Catalog} {ordered : List Operation} {i : SourceId}
    (h : i ∈ selfMoved c user writer ordered) :
    i.1 = user := by
  obtain ⟨plans, hp, p, hmem, rfl, -⟩ := h
  exact ((planMoves_ok hp).2 p hmem).userId

/-- What a submission that raises leaves as it was. -/
structure Restored (w w' : World) : Prop where
  entries : w'.catalog.entries = w.catalog.entries
  decisions : w'.catalog.decisions = w.catalog.decisions
  writerPrefixes : w'.catalog.writerPrefixes = w.catalog.writerPrefixes
  files : ∀ v p, w'.fs.disk.file ⟨.users v, p⟩ = w.fs.disk.file ⟨.users v, p⟩

/-- Why a submission is refused. -/
def SubmitRefused (G : Prop) (user writer : String) (operations : List Operation) (w : World) : Prop :=
  (∃ r ∈ w.catalog.submissions, r.submissionId = w.fs.uuids) ∨
    (∃ e, checked w.catalog user writer operations = .error e) ∨
    ∃ ordered w1, checked w.catalog user writer operations = .ok ordered ∧
      (∃ rows, w1.catalog = { w.catalog with submissions := rows }) ∧ w1.fs.disk = w.fs.disk ∧
      w1.fs.fault = w.fs.fault ∧ w1.fs.uuids = w.fs.uuids + 1 ∧
      StepsRefused user writer w.fs.disk (G ∧ (selfMoved w.catalog user writer ordered).Nonempty)
        (selfMoved w.catalog user writer ordered) ordered w1

/-- The store in which a submission is recorded, before its operations. -/
def recorded (user writer : String) (operationCount : Nat) (w : World) : World :=
  { w with
    catalog := { w.catalog with submissions := w.catalog.submissions ++
      [⟨w.fs.uuids, user, writer, .queued, operationCount, none, w.clock w.ticks, w.clock w.ticks⟩] }
    fs := { w.fs with uuids := w.fs.uuids + 1, undoStack := [], cleanupStack := [] }
    ticks := w.ticks + 1 }

/-- The store in which the submission is applied, after its operations. -/
def marked (submissionId : Nat) (w : World) : World :=
  { w with
    catalog := w.catalog.updateSubmission submissionId fun r =>
      { r with state := .applied, updatedAt := w.clock w.ticks }
    ticks := w.ticks + 1 }

private theorem plannedMoves_recorded (n : Nat) (ordered : List Operation) :
    plannedMoves (recorded user writer n w).catalog user writer ordered = plannedMoves w.catalog user writer ordered :=
  plannedMoves_submissions _ _ _

private theorem selfMoved_recorded (n : Nat) (ordered : List Operation) :
    selfMoved (recorded user writer n w).catalog user writer ordered = selfMoved w.catalog user writer ordered := by
  unfold selfMoved
  rw [plannedMoves_recorded]

private theorem Consistent.running_recorded (h : Consistent w) (n : Nat) (ordered : List Operation) :
    Running user w.fs.disk True ∅ (fun _ => none) (selfMoved (recorded user writer n w).catalog user writer ordered)
      (recorded user writer n w) := by
  refine h.running (fun i hi => ?_) rfl rfl (Nat.le_succ _) rfl rfl
  rw [selfMoved_recorded] at hi
  exact selfMoved_user hi

private theorem Undoable.recorded {ordered : List Operation} (h : Undoable user writer w ordered) (n : Nat) :
    Undoable user writer (recorded user writer n w) ordered := by
  intro plans hplans
  rw [plannedMoves_recorded] at hplans
  rw [selfMoved_recorded]
  exact h plans hplans

/-- A consistent store stays so while only undo files and objects come and go. -/
private theorem Consistent.of_swept {w' : World} (h : Consistent w) (hc : w'.catalog.entries = w.catalog.entries)
    (hs : Swept w'.fs.uuids w.fs.disk w'.fs.disk) : Consistent w' := by
  refine ⟨hs.wf, hs.fresh, hs.flat, h.agrees.of_files hc hs.files, ?_⟩
  rw [hc]
  exact h.normal

/-- The checks come first, and leave everything as it is. -/
theorem ends_applySubmission {submissionId : Nat} {operations : List Operation} {Q : Unit → World → Prop}
    {E : StoreError → World → Prop} (hrefused : ∀ e, checked w.catalog user writer operations = .error e → E e w)
    (hchecked : ∀ ordered, checked w.catalog user writer operations = .ok ordered →
      Ends (do
        (groupSteps ordered).forM (runStep user writer)
        let time ← now
        execute fun c => .ok (c.updateSubmission submissionId fun r => { r with state := .applied, updatedAt := time }))
        Q (fun e w' => E e { w' with catalog := w.catalog }) w) :
    Ends (applySubmission user writer operations submissionId) Q E w := by
  unfold applySubmission
  rw [ends_bind, ends_orRaise]
  refine ⟨fun _ hdup => ?_, fun e he => hrefused e ?_⟩
  · rw [ends_bind, ends_catalog, ends_bind, ends_orRaise]
    refine ⟨fun ordered hord => ?_, fun e he => hrefused e ?_⟩
    · rw [ends_bind, ends_orRaise]
      refine ⟨fun _ hpre => ?_, fun e he => hrefused e ?_⟩
      · rw [ends_transaction]
        refine hchecked ordered ?_
        unfold checked
        rw [hdup, hord]
        simp only [bind, Except.bind]
        rw [hpre]
        rfl
      · unfold checked
        rw [hdup, hord]
        simp only [bind, Except.bind]
        rw [he]
    · unfold checked
      rw [hdup, he]
      rfl
  · unfold checked
    rw [he]
    rfl

/-- Applying the operations: the checks refuse them, or all of them are run, or one of them raises. -/
private theorem applySubmission_spec (submissionId : Nat) {operations : List Operation}
    (h : ∀ ordered, Running user d0 True ∅ (fun _ => none) (selfMoved w.catalog user writer ordered) w)
    (hsafe : G → ∀ ordered, checked w.catalog user writer operations = .ok ordered → Undoable user writer w ordered) :
    Ends (applySubmission user writer operations submissionId)
      (fun _ w' => Astray G user w' ∨ ∃ ordered w2, w' = marked submissionId w2 ∧
        checked w.catalog user writer operations = .ok ordered ∧
        (∃ plans, plannedMoves w.catalog user writer ordered = .ok plans) ∧
        (∀ op ∈ Catalog.putsOf ordered, normalizeText op.text = .ok (lineFeedText op.text) ∧ Normalized op.path) ∧
        ∃ V, Between user d0 (G ∧ (selfMoved w.catalog user writer ordered).Nonempty) V
          (selfMoved w.catalog user writer ordered) w w2 ∧
          (selfMoved w.catalog user writer ordered = ∅ → docs w2.catalog w2.fs.disk (fun _ => none) =
            effect user writer ordered (docs w.catalog w.fs.disk fun _ => none)))
      (fun _ w' => Astray G user w' ∨ Failing user d0 G w'.fs ∧ w'.catalog = w.catalog ∧
        ((∃ e, checked w.catalog user writer operations = .error e) ∨
          ∃ ordered, checked w.catalog user writer operations = .ok ordered ∧
            StepsRefused user writer d0 (G ∧ (selfMoved w.catalog user writer ordered).Nonempty)
              (selfMoved w.catalog user writer ordered) ordered w)) w := by
  refine ends_applySubmission (fun e he => .inr ⟨(h []).failing, rfl, .inl ⟨e, he⟩⟩) fun ordered hok => ?_
  obtain ⟨hdup, hord, -⟩ := checked_ok hok
  obtain ⟨hordered, -, -, -, hnodup⟩ := orderedOperations_ok hdup hord
  rw [ends_bind]
  refine (steps_spec hordered hnodup (h ordered) fun hG => hsafe hG ordered hok).mono (fun _ w2 hw2 => ?_)
    (fun _ w2 hw2 => hw2.imp id fun hw2 => ⟨hw2.1, rfl, .inr ⟨ordered, hok, hw2.2⟩⟩)
  rw [ends_bind, ends_now, ends_execute]
  refine ⟨fun c hc => hw2.imp id fun hw2 => ?_, fun e he => by cases he⟩
  cases hc
  obtain ⟨hplans, hnormal, V, hbetween, hdocs⟩ := hw2
  exact ⟨ordered, w2, rfl, hok, hplans, hnormal, V, hbetween, hdocs⟩

/-- The row of a submission is found after its operations. -/
private theorem find?_marked {submissionId : Nat} {row : SubmissionRow} (hrow : row ∈ w.catalog.submissions)
    (hid : row.submissionId = submissionId) :
    ∃ row, (marked submissionId w).catalog.submissions.find? (fun r => r.submissionId = submissionId) = some row := by
  rw [← Option.isSome_iff_exists, List.find?_isSome]
  refine ⟨_, List.mem_map_of_mem hrow, ?_⟩
  simp [hid]

/-- The documents after the operations are those that the submission leaves. -/
private theorem docs_marked {submissionId : Nat} {d : Disk}
    (hfiles : ∀ v p, d.file ⟨.users v, p⟩ = w.fs.disk.file ⟨.users v, p⟩) :
    docs (marked submissionId w).catalog d (fun _ => none) = docs w.catalog w.fs.disk fun _ => none := by
  rw [docs_of_entries (show (marked submissionId w).catalog.entries = w.catalog.entries from rfl)]
  funext i
  unfold docs
  cases w.catalog.row i with
  | none => rfl
  | some e =>
    simp only [Option.map_some, place_of_none]
    rw [show d.file (treeLoc e.userId e.path) = w.fs.disk.file (treeLoc e.userId e.path) from hfiles _ _]

/-- The state a program leaves, whether it returns or raises. -/
def finalState {α : Type} (m : StoreM α) (w : World) : World :=
  match m w with
  | .ok _ w' => w'
  | .error _ w' => w'

/-- The files when the operations of a submission have raised, before they are rolled back. -/
def stopped (user writer : String) (operations : List Operation) (w : World) : Fs :=
  (finalState (applySubmission user writer operations w.fs.uuids) (recorded user writer operations.length w)).fs

/-- No directory has been renamed, and none is in the way of the rollback, if there is one: a submission under a number
that is taken is not even recorded. -/
def RollsBack (user writer : String) (operations : List Operation) (w : World) : Prop :=
  (∃ r ∈ w.catalog.submissions, r.submissionId = w.fs.uuids) ∨
    ¬Misplaces user (stopped user writer operations w).undoStack ∧ Unobstructed user (stopped user writer operations w)

instance (user writer : String) (operations : List Operation) (w : World) :
    Decidable (RollsBack user writer operations w) := by
  unfold RollsBack
  infer_instance

/-- What a submission has done that returns. -/
def Applied (user writer : String) (operations : List Operation) (w w' : World) : Prop :=
  ∃ ordered, checked w.catalog user writer operations = .ok ordered ∧
    (∃ plans, plannedMoves w.catalog user writer ordered = .ok plans) ∧
    (∀ op ∈ Catalog.putsOf ordered, normalizeText op.text = .ok (lineFeedText op.text) ∧ Normalized op.path) ∧
    w'.catalog.writerPrefixes = w.catalog.writerPrefixes ∧ w'.fs.disk.pathMax = w.fs.disk.pathMax ∧
    (selfMoved w.catalog user writer ordered = ∅ → Consistent w' ∧
      docs w'.catalog w'.fs.disk (fun _ => none) =
        effect user writer ordered (docs w.catalog w.fs.disk fun _ => none))

/-- Where a directory has been renamed nothing is known of the rest. -/
private theorem Astray.ends {α : Type} {operations : List Operation} {w' : World} (h : Astray G user w')
    (hfree : ∀ r ∈ w.catalog.submissions, r.submissionId ≠ w.fs.uuids)
    (hstopped : stopped user writer operations w = w'.fs) (m : StoreM α) :
    Ends m (fun _ _ => ¬G) (fun _ _ => ¬G ∧ ¬RollsBack user writer operations w ∧
      Misplaces user (stopped user writer operations w).undoStack) w' := by
  obtain ⟨hG, hmis⟩ := h
  rw [← hstopped] at hmis
  refine (Ends.any m w').mono (fun _ _ _ => hG) (fun _ _ _ => ⟨hG, ?_, hmis⟩)
  rintro (⟨r, hr, hid⟩ | ⟨hno, -⟩)
  · exact hfree r hr hid
  · exact hno hmis

/-- A submission has the effect of its operations, or none, or it cannot be rolled back, or it has gone astray. -/
theorem submit_cases {operations : List Operation} (h : Consistent w)
    (hsafe : G → ∀ ordered, checked w.catalog user writer operations = .ok ordered → Undoable user writer w ordered) :
    Ends (submit user writer operations) (fun _ w' => ¬G ∨ Applied user writer operations w w')
      (fun e w' => (¬G ∧ ¬RollsBack user writer operations w ∧
          Misplaces user (stopped user writer operations w).undoStack) ∨
        ((Restored w w' ∧ Consistent w' ∧ RollsBack user writer operations w) ∨
          (¬G ∧ ¬RollsBack user writer operations w ∧ e = .rollbackFailed ∧
            (Originals user (stopped user writer operations w).undoStack → Missing user w.fs.disk w'.fs.disk))) ∧
        SubmitRefused G user writer operations w) w := by
  unfold submit
  rw [ends_bind]
  unfold recordSubmission
  rw [ends_bind, ends_onDisk, ends_uuid4, ends_bind, ends_now, ends_bind, ends_transaction, ends_execute]
  refine ⟨fun c hc => ?_, fun e he => ?_⟩
  · have hfree := Catalog.insertSubmission_free hc
    obtain rfl := Catalog.insertSubmission_ok hc
    rw [ends_pure, ends_bind, ends_onDisk, ends_modify, ends_bind, ends_tryCatch]
    show Ends _ _ _ (recorded user writer operations.length w)
    have happly := applySubmission_spec (G := G) w.fs.uuids (h.running_recorded operations.length)
      fun hG ordered hok => (hsafe hG ordered hok).recorded operations.length
    refine happly.result.mono (fun _ w' hw' => ?_) (fun e w' hw' => ?_)
    · obtain ⟨happlied, hresult⟩ := hw'
      have hstopped : stopped user writer operations w = w'.fs := by
        unfold stopped finalState
        rw [hresult]
      rcases happlied with hastray | ⟨ordered, w2, rfl, hok, hplans, hnormal, V, hbetween, hdocs⟩
      · exact (hastray.ends hfree hstopped _).mono (fun _ _ hw' => .inl hw') (fun _ _ hw' => .inl hw')
      have hswept : Swept w2.fs.uuids w2.fs.disk w2.fs.disk :=
        ⟨hbetween.running.wf, rfl, fun _ _ => rfl, hbetween.running.fresh, hbetween.running.flat⟩
      rw [ends_bind, ends_onDisk]
      refine (cleanupFilesystem_spec hbetween.running.tidy hswept).mono (fun _ s hs => ?_) (fun _ _ hf => hf.elim)
      obtain ⟨-, huuids, hswept'⟩ := hs
      unfold submission
      rw [ends_bind, ends_catalog]
      have hrow : ∃ row ∈ w2.catalog.submissions, row.submissionId = w.fs.uuids := by
        rw [hbetween.tables.submissions]
        exact ⟨_, List.mem_append_right _ (List.mem_singleton_self _), rfl⟩
      obtain ⟨row, hmem, hid⟩ := hrow
      obtain ⟨found, hfound⟩ := find?_marked hmem hid
      simp only [hfound]
      rw [ends_pure]
      rw [plannedMoves_recorded] at hplans
      rw [selfMoved_recorded] at hbetween hdocs
      refine .inr ⟨ordered, hok, hplans, hnormal, ?_, ?_, fun hnone => ⟨?_, ?_⟩⟩
      · exact hbetween.tables.writerPrefixes
      · exact hswept'.pathMax.trans hbetween.forward.pathMax
      · rw [hnone] at hbetween
        refine hbetween.running.consistent rfl ?_
        show Swept s.uuids _ _
        rw [huuids]
        exact hswept'
      · refine (docs_marked hswept'.files).trans ((hdocs hnone).trans ?_)
        rw [show docs (recorded user writer operations.length w).catalog
          (recorded user writer operations.length w).fs.disk
          (fun _ => none) = docs w.catalog w.fs.disk (fun _ => none) from docs_of_entries rfl]
    · obtain ⟨hraised, hresult⟩ := hw'
      have hstopped : stopped user writer operations w = w'.fs := by
        unfold stopped finalState
        rw [hresult]
      rcases hraised with hastray | ⟨hfailing, hcatalog, hwhy⟩
      · exact (abandonSubmission_raises.and (hastray.ends hfree hstopped _)).mono (fun _ _ hw' => hw'.1.elim)
          (fun _ _ hw' => .inl hw'.2)
      have hrefused : SubmitRefused G user writer operations w := by
        rcases hwhy with ⟨e, he⟩ | ⟨ordered, hok, hsteps⟩
        · exact .inr (.inl ⟨e, he⟩)
        · rw [selfMoved_recorded] at hsteps
          exact .inr (.inr ⟨ordered, recorded user writer operations.length w, hok, ⟨_, rfl⟩, rfl, rfl, rfl, hsteps⟩)
      by_cases hu : Unobstructed user w'.fs
      · refine (abandonSubmission_spec hfailing h.flat hu).mono (fun _ _ hf => hf.elim) (fun _ w'' hw'' => ?_)
        obtain ⟨hentries, hdecisions, hprefixes, hswept⟩ := hw''
        rw [hcatalog] at hentries hdecisions hprefixes
        refine .inr ⟨.inl ⟨⟨hentries, hdecisions, hprefixes, hswept.files⟩, h.of_swept hentries hswept, .inr ?_⟩,
          hrefused⟩
        rw [hstopped]
        exact ⟨hfailing.straight, hu⟩
      · refine (abandonSubmission_jammed hfailing hu).mono (fun _ _ hf => hf.elim) (fun _ w'' hw'' => ?_)
        refine .inr ⟨.inr ⟨fun hG => hu (hfailing.unobstructed hG), ?_, by rwa [hstopped]⟩, hrefused⟩
        rintro (⟨r, hr, hid⟩ | ⟨-, hall⟩)
        · exact hfree r hr hid
        · rw [hstopped] at hall
          exact hu hall
  · have hswept : Swept (w.fs.uuids + 1) w.fs.disk w.fs.disk :=
      ⟨h.wf, rfl, fun _ _ => rfl, h.fresh.mono (Nat.le_succ _), h.flat⟩
    have htaken := Catalog.insertSubmission_error he
    exact .inr ⟨.inl ⟨⟨rfl, rfl, rfl, fun _ _ => rfl⟩, h.of_swept rfl hswept, .inl htaken⟩, .inl htaken⟩

/-- A submission has the effect of its operations, or none. -/
theorem submit_spec {operations : List Operation} (h : Consistent w)
    (hsafe : ∀ ordered, checked w.catalog user writer operations = .ok ordered → Undoable user writer w ordered) :
    Ends (submit user writer operations) (fun _ w' => Applied user writer operations w w')
      (fun _ w' => Restored w w' ∧ Consistent w' ∧ SubmitRefused True user writer operations w) w := by
  refine (submit_cases (G := True) h fun _ => hsafe).mono
    (fun _ _ hw' => hw'.resolve_left fun hG => absurd trivial hG) (fun _ w' hw' => ?_)
  obtain ⟨⟨hrestored, hconsistent, -⟩ | ⟨hG, -⟩, hrefused⟩ := hw'.resolve_left fun hw' => absurd trivial hw'.1
  · exact ⟨hrestored, hconsistent, hrefused⟩
  · exact absurd trivial hG

end

end Ctxd

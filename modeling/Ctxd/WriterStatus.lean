import Ctxd.Inside
import Ctxd.ListingSources
import Ctxd.Runs

/-!
# `CtxfsStore.writer_status_summary`

The summary of a writer counts its submissions and decisions, and every entry of its user inside the prefix, whoever
wrote it.  So its counts are those of the writer exactly when no other writer has an entry there, and no decision of the
writer outside the prefix matches the SQL pattern; two stores that differ in what belongs to other writers have the same
summary exactly when the other writers have as many entries inside the prefix, and as many without a file
(`writer_status_own_iff`).
-/

namespace Ctxd

open Program Service

structure WriterStatusSummary where
  submissionStateCounts : SubmissionState → Nat
  decisionStateCounts : DecisionState → Option Nat
  entryCount : Nat
  incompleteEntryCount : Nat
  queueDepth : Nat
  oldestUnappliedSubmissionAgeSeconds : Option Int
  latestSubmissionUpdatedAt : Option Int

/-- `SELECT state, COUNT(*) ... GROUP BY state`: a state without rows is not in the result. -/
def groupCounts (rows : List Decision) (state : DecisionState) : Option Nat :=
  let n := rows.countP (·.state = state)
  if n = 0 then none else some n

/-- `_decision_state_counts`. -/
def decisionStateCounts (user writer : String) (pre : Option String) (c : Catalog) : DecisionState → Option Nat :=
  groupCounts (c.decisions.filter fun r =>
    r.userId = user && r.writerId = writer && pre.all fun p => likePrefix p r.path)

/-- `_normalize_path(prefix) if prefix else None`. -/
def statusPrefix : Option String → Except StoreError (Option String)
  | none => .ok none
  | some pre => if pre = "" then .ok none else (normalizePath pre).map some

/-- The summary from the submissions of the writer and the counts. -/
def summaryOf (submissions : List SubmissionRow) (decisions : DecisionState → Option Nat) (entryCount missing : Nat)
    (clock : Int) : WriterStatusSummary :=
  let stateCounts := fun state => submissions.countP (·.state = state)
  let oldestUnapplied := ((submissions.filter fun r => r.state ≠ .applied).map (·.createdAt)).min?
  { submissionStateCounts := stateCounts
    decisionStateCounts := decisions
    entryCount := entryCount
    incompleteEntryCount := missing
    queueDepth := stateCounts .queued
    oldestUnappliedSubmissionAgeSeconds := oldestUnapplied.map fun time => max 0 (clock - time)
    latestSubmissionUpdatedAt := (submissions.map (·.updatedAt)).max? }

def writerStatusSummary (user writer : String) (pre : Option String) (clock : Int) (w : World) :
    Except StoreError WriterStatusSummary := do
  let normalized ← statusPrefix pre
  let submissions := w.catalog.submissions.filter fun r => r.userId = user && r.writerId = writer
  let entries ← entriesUnderPrefix user (normalized.getD "") w.catalog
  let missing ← entries.filterM fun e => do return !(← w.fs.disk.present (treeLoc user e.path))
  let summary := summaryOf submissions (decisionStateCounts user writer normalized w.catalog)
    entries.length missing.length
    clock
  -- the model of the summary wants a positive time
  if summary.latestSubmissionUpdatedAt.any (· ≤ 0) then throw (.valueError "Input should be greater than 0")
  return summary

/-! ### What is the writer's own -/

/-- An empty prefix is none. -/
def givenPrefix : Option String → Option String
  | none => none
  | some pre => if pre = "" then none else some pre

/-- The path is inside the prefix, if there is one. -/
def insidePrefix (pre path : Option String) : Bool := pre.all fun p => path.any fun q => decide (Inside p q)

section

variable (user writer : String) (pre : Option String)

def isOwnEntry (e : Entry) : Bool := e.userId = user && e.writerId = writer && insidePrefix pre (some e.path)

def isForeignEntry (e : Entry) : Bool := e.userId = user && e.writerId ≠ writer && insidePrefix pre (some e.path)

def isOwnDecision (r : Decision) : Bool := r.userId = user && r.writerId = writer && insidePrefix pre r.path

/-- A decision of the writer outside the prefix that the pattern takes for one inside. -/
def isMisread (r : Decision) : Bool :=
  r.userId = user && r.writerId = writer && (pre.all fun p => likePrefix p r.path) && !insidePrefix pre r.path

/-- The file of the entry is missing. -/
def isMissing (w : World) (e : Entry) : Bool :=
  match w.fs.disk.present (treeLoc e.userId e.path) with
  | .ok here => !here
  | .error _ => false

/-- The counts are those of the writer's own decisions and entries. -/
structure CountsOwn (w : World) (s : WriterStatusSummary) : Prop where
  decisions : s.decisionStateCounts = groupCounts (w.catalog.decisions.filter (isOwnDecision user writer pre))
  entries : s.entryCount = w.catalog.entries.countP (isOwnEntry user writer pre)
  incomplete : s.incompleteEntryCount =
    w.catalog.entries.countP fun e => isOwnEntry user writer pre e && isMissing w e

/-- No other writer has an entry inside the prefix, and no decision of the writer outside it matches the pattern. -/
structure Undisturbed (w : World) : Prop where
  entries : ∀ e ∈ w.catalog.entries, isForeignEntry user writer pre e = false
  decisions : ∀ r ∈ w.catalog.decisions, r.userId = user → r.writerId = writer →
    (∀ p, pre = some p → likePrefix p r.path = true) → insidePrefix pre r.path = true

/-- Two stores that differ only in rows of other writers and in their files. -/
structure SameOwn (w w' : World) : Prop where
  entries : (w'.catalog.entries.filter fun e => e.userId = user && e.writerId = writer) =
    w.catalog.entries.filter fun e => e.userId = user && e.writerId = writer
  decisions : (w'.catalog.decisions.filter fun r => r.userId = user && r.writerId = writer) =
    w.catalog.decisions.filter fun r => r.userId = user && r.writerId = writer
  submissions : (w'.catalog.submissions.filter fun r => r.userId = user && r.writerId = writer) =
    w.catalog.submissions.filter fun r => r.userId = user && r.writerId = writer
  files : ∀ e ∈ w.catalog.entries, e.userId = user → e.writerId = writer → isMissing w' e = isMissing w e

end

/-! ### Counting -/

section

variable {α : Type} {xs : List α} {p q r : α → Bool}

private theorem countP_split (h : ∀ x ∈ xs, p x = (q x || r x)) (hdisjoint : ∀ x ∈ xs, q x = true → r x = false) :
    xs.countP p = xs.countP q + xs.countP r := by
  induction xs with
  | nil => rfl
  | cons x xs ih =>
    have hrest := ih (fun y hy => h y (List.mem_cons_of_mem _ hy)) fun y hy => hdisjoint y (List.mem_cons_of_mem _ hy)
    have hx := h x (List.mem_cons_self ..)
    have hx' := hdisjoint x (List.mem_cons_self ..)
    rw [List.countP_cons, List.countP_cons, List.countP_cons, hrest, hx]
    by_cases hq : q x = true
    · simp [hq, hx' hq]
      omega
    · by_cases hr : r x = true <;> simp [hq, hr]
      omega

end

/-! ### The summary -/

private theorem statusPrefix_ok {pre normalized : Option String} (h : statusPrefix pre = .ok normalized) :
    normalized = givenPrefix pre ∧ ∀ p, normalized = some p → Normalized p := by
  cases pre with
  | none =>
    cases h
    exact ⟨rfl, fun p hp => by cases hp⟩
  | some pre =>
    unfold statusPrefix at h
    dsimp only at h
    by_cases hempty : pre = ""
    · rw [if_pos hempty] at h
      cases h
      exact ⟨by simp [givenPrefix, hempty], fun p hp => by cases hp⟩
    · rw [if_neg hempty] at h
      cases hnormal : normalizePath pre with
      | error e =>
        rw [hnormal] at h
        cases h
      | ok p =>
        obtain rfl := normalizePath_eq hnormal
        rw [hnormal] at h
        cases h
        refine ⟨by simp [givenPrefix, hempty], fun p' hp => ?_⟩
        cases hp
        exact hnormal

section

variable {user writer : String} {pre : Option String} {w : World}

private theorem own_or_foreign (writer : String) (e : Entry) :
    (e.userId = user && insidePrefix pre (some e.path) : Bool) =
      (isOwnEntry user writer pre e || isForeignEntry user writer pre e) := by
  unfold isOwnEntry isForeignEntry
  by_cases hw : e.writerId = writer <;> simp [hw]

private theorem not_foreign_of_own {e : Entry} (h : isOwnEntry user writer pre e = true) :
    isForeignEntry user writer pre e = false := by
  simp only [isOwnEntry, Bool.and_eq_true, decide_eq_true_eq] at h
  simp [isForeignEntry, h.1.2]

/-- The rows are those of the user inside the prefix. -/
private theorem entriesUnderPrefix_perm {rows : List Entry} (hpre : ∀ p, pre = some p → Normalized p)
    (h : entriesUnderPrefix user (pre.getD "") w.catalog = .ok rows) :
    rows.Perm (w.catalog.entries.filter fun e => e.userId = user && insidePrefix pre (some e.path)) := by
  unfold entriesUnderPrefix at h
  obtain ⟨hall, rfl⟩ := filterM_eq_ok_iff.1 h
  have hholds : ∀ e ∈ ((w.catalog.entries.filter fun e => e.userId = user).mergeSort fun e e' => e.path ≤ e'.path),
      holds (if pre.getD "" = "" then .ok true else pathIsWithinPrefix e.path (pre.getD "") : Except StoreError Bool) =
        insidePrefix pre (some e.path) := by
    intro e he
    cases hp : pre with
    | none => rfl
    | some p =>
      have hnormal : Normalized p := hpre p hp
      obtain ⟨b, hb⟩ := hall e he
      rw [hp] at hb
      simp only [Option.getD_some, if_neg hnormal.ne_empty] at hb ⊢
      obtain ⟨hpath, -⟩ := pathIsWithinPrefix_ok hb
      rw [within_eq hpath hnormal]
      simp [insidePrefix, holds]
  have hfilter : (w.catalog.entries.filter fun e => e.userId = user && insidePrefix pre (some e.path)) =
      (w.catalog.entries.filter fun e => e.userId = user).filter fun e => insidePrefix pre (some e.path) := by
    rw [List.filter_filter]
    exact List.filter_congr fun e _ => Bool.and_comm _ _
  rw [List.filter_congr hholds, hfilter]
  exact (List.mergeSort_perm _ _).filter _

/-- What a summary that is returned says. -/
private theorem writerStatusSummary_ok {clock : Int} {s : WriterStatusSummary}
    (h : writerStatusSummary user writer pre clock w = .ok s) :
    s = summaryOf (w.catalog.submissions.filter fun r => r.userId = user && r.writerId = writer)
      (decisionStateCounts user writer (givenPrefix pre) w.catalog)
      (w.catalog.entries.countP (isOwnEntry user writer (givenPrefix pre)) +
        w.catalog.entries.countP (isForeignEntry user writer (givenPrefix pre)))
      ((w.catalog.entries.countP fun e => isOwnEntry user writer (givenPrefix pre) e && isMissing w e) +
        w.catalog.entries.countP (fun e => isForeignEntry user writer (givenPrefix pre) e && isMissing w e)) clock := by
  unfold writerStatusSummary at h
  obtain ⟨normalized, hnormalized, h⟩ := bind_eq_ok.1 h
  obtain ⟨rfl, hpre⟩ := statusPrefix_ok hnormalized
  dsimp only at h
  obtain ⟨rows, hrows, h⟩ := bind_eq_ok.1 h
  obtain ⟨missing, hmissing, h⟩ := bind_eq_ok.1 h
  have hperm := entriesUnderPrefix_perm hpre hrows
  obtain ⟨hall, rfl⟩ := filterM_eq_ok_iff.1 hmissing
  have hholds : ∀ e ∈ rows, holds (do return !(← w.fs.disk.present (treeLoc user e.path)) : Except StoreError Bool) =
      isMissing w e := by
    intro e he
    have huser : e.userId = user := by
      have hmem := hperm.mem_iff.1 he
      simp only [List.mem_filter, Bool.and_eq_true, decide_eq_true_eq] at hmem
      exact hmem.2.1
    obtain ⟨b, hb⟩ := hall e he
    unfold isMissing
    rw [huser]
    cases hpresent : w.fs.disk.present (treeLoc user e.path) with
    | ok here => rfl
    | error e' => rfl
  have hrows : rows.length = w.catalog.entries.countP (isOwnEntry user writer (givenPrefix pre)) +
      w.catalog.entries.countP (isForeignEntry user writer (givenPrefix pre)) := by
    rw [hperm.length_eq, ← List.countP_eq_length_filter]
    exact countP_split (fun e _ => own_or_foreign writer e) fun e _ => not_foreign_of_own
  have hmissing : (rows.filter (isMissing w)).length =
      (w.catalog.entries.countP fun e => isOwnEntry user writer (givenPrefix pre) e && isMissing w e) +
        w.catalog.entries.countP (fun e => isForeignEntry user writer (givenPrefix pre) e && isMissing w e) := by
    rw [(hperm.filter (isMissing w)).length_eq, List.filter_filter, ← List.countP_eq_length_filter]
    refine countP_split (fun e _ => ?_) fun e _ hown => ?_
    · rw [own_or_foreign writer e, Bool.and_or_distrib_left]
      cases isMissing w e <;> simp
    · rw [Bool.and_eq_true] at hown
      rw [not_foreign_of_own hown.1, Bool.false_and]
  rw [List.filter_congr hholds] at h
  split at h
  · cases h
  · cases h
    rw [hrows, hmissing]

/-! ### Whose counts they are -/

private theorem groupCounts_eq_iff {rows rows' : List Decision} : groupCounts rows = groupCounts rows' ↔
    ∀ state : DecisionState, rows.countP (·.state = state) = rows'.countP (·.state = state) := by
  constructor
  · intro h state
    have hstate := congrFun h state
    unfold groupCounts at hstate
    dsimp only at hstate
    by_cases hn : rows.countP (·.state = state) = 0 <;> by_cases hn' : rows'.countP (·.state = state) = 0
    · rw [hn, hn']
    · rw [if_pos hn, if_neg hn'] at hstate
      cases hstate
    · rw [if_neg hn, if_pos hn'] at hstate
      cases hstate
    · rw [if_neg hn, if_neg hn'] at hstate
      exact Option.some.inj hstate
  · intro h
    funext state
    unfold groupCounts
    rw [h state]

/-- The pattern takes every path inside the prefix. -/
private theorem likePrefix_of_insidePrefix {path : Option String} (h : insidePrefix pre path = true) :
    (pre.all fun p => likePrefix p path) = true := by
  cases pre with
  | none => rfl
  | some p =>
    cases path with
    | none => cases h
    | some path => exact likePrefix_of_inside (of_decide_eq_true h)

/-- The decisions that the pattern takes are the writer's inside the prefix, and those it misreads. -/
private theorem countP_pattern (c : Catalog) (state : DecisionState) :
    (c.decisions.filter fun r =>
        r.userId = user && r.writerId = writer && pre.all fun p => likePrefix p r.path).countP (·.state = state) =
      (c.decisions.filter (isOwnDecision user writer pre)).countP (·.state = state) +
        c.decisions.countP fun r => r.state = state && isMisread user writer pre r := by
  rw [List.countP_filter, List.countP_filter]
  refine countP_split (fun r _ => ?_) fun r _ hown => ?_
  · unfold isOwnDecision isMisread
    by_cases hin : insidePrefix pre r.path = true
    · simp [hin, likePrefix_of_insidePrefix hin]
    · simp [hin]
  · simp only [isOwnDecision, Bool.and_eq_true] at hown
    simp [isMisread, hown.2.2]

private theorem isMisread_eq_false_iff {r : Decision} : isMisread user writer pre r = false ↔
    (r.userId = user → r.writerId = writer → (∀ p, pre = some p → likePrefix p r.path = true) →
      insidePrefix pre r.path = true) := by
  have hall : (pre.all fun p => likePrefix p r.path) = true ↔ ∀ p, pre = some p → likePrefix p r.path = true := by
    cases pre with
    | none => simp
    | some p => simp
  rw [← hall]
  unfold isMisread
  by_cases hu : r.userId = user <;> by_cases hw : r.writerId = writer <;> simp [hu, hw]

/-- The decisions that the pattern takes are the writer's inside the prefix exactly when it misreads none. -/
private theorem decisionStateCounts_eq_iff (c : Catalog) :
    decisionStateCounts user writer pre c = groupCounts (c.decisions.filter (isOwnDecision user writer pre)) ↔
      ∀ r ∈ c.decisions, r.userId = user → r.writerId = writer → (∀ p, pre = some p → likePrefix p r.path = true) →
        insidePrefix pre r.path = true := by
  unfold decisionStateCounts
  rw [groupCounts_eq_iff]
  constructor
  · intro h r hr
    rw [← isMisread_eq_false_iff]
    have hzero : (c.decisions.countP fun r' => r'.state = r.state && isMisread user writer pre r') = 0 := by
      have hstate := h r.state
      rw [countP_pattern] at hstate
      omega
    simpa using List.countP_eq_zero.1 hzero r hr
  · intro h state
    have hzero : (c.decisions.countP fun r => r.state = state && isMisread user writer pre r) = 0 := by
      rw [List.countP_eq_zero]
      intro r hr
      simp [isMisread_eq_false_iff.2 (h r hr)]
    rw [countP_pattern, hzero, Nat.add_zero]

/-- The counts are the writer's own exactly when nothing disturbs them. -/
private theorem countsOwn_iff {clock : Int} {s : WriterStatusSummary}
    (h : writerStatusSummary user writer pre clock w = .ok s) :
    CountsOwn user writer (givenPrefix pre) w s ↔ Undisturbed user writer (givenPrefix pre) w := by
  obtain rfl := writerStatusSummary_ok h
  constructor
  · rintro ⟨hdecisions, hentries, -⟩
    refine ⟨fun e he => ?_, (decisionStateCounts_eq_iff w.catalog).1 hdecisions⟩
    simp only [summaryOf] at hentries
    simpa using List.countP_eq_zero.1 (by omega :
      w.catalog.entries.countP (isForeignEntry user writer (givenPrefix pre)) = 0) e he
  · rintro ⟨hentries, hdecisions⟩
    have hforeign : w.catalog.entries.countP (isForeignEntry user writer (givenPrefix pre)) = 0 :=
      List.countP_eq_zero.2 fun e he => by simp [hentries e he]
    have hmissing : (w.catalog.entries.countP fun e =>
      isForeignEntry user writer (givenPrefix pre) e && isMissing w e) = 0 :=
      List.countP_eq_zero.2 fun e he => by simp [hentries e he]
    refine ⟨(decisionStateCounts_eq_iff w.catalog).2 hdecisions, ?_, ?_⟩
    · simp only [summaryOf, hforeign, Nat.add_zero]
    · simp only [summaryOf, hmissing, Nat.add_zero]

/-! ### Two stores that differ in what belongs to others -/

private theorem SameOwn.entryCount {w' : World} (h : SameOwn user writer w w') :
    w'.catalog.entries.countP (isOwnEntry user writer pre) = w.catalog.entries.countP (isOwnEntry user writer pre) := by
  have hcount : ∀ xs : List Entry, xs.countP (isOwnEntry user writer pre) =
      (xs.filter fun e => e.userId = user && e.writerId = writer).countP fun e => insidePrefix pre (some e.path) := by
    intro xs
    rw [List.countP_filter]
    exact List.countP_congr fun e _ => by rw [isOwnEntry, Bool.and_comm]
  rw [hcount, hcount, h.entries]

private theorem SameOwn.incompleteCount {w' : World} (h : SameOwn user writer w w') :
    (w'.catalog.entries.countP fun e => isOwnEntry user writer pre e && isMissing w' e) =
      w.catalog.entries.countP fun e => isOwnEntry user writer pre e && isMissing w e := by
  have hcount : ∀ (w : World) (xs : List Entry), (xs.countP fun e => isOwnEntry user writer pre e && isMissing w e) =
      (xs.filter fun e => e.userId = user && e.writerId = writer).countP fun e =>
        insidePrefix pre (some e.path) && isMissing w e := by
    intro w xs
    rw [List.countP_filter]
    refine List.countP_congr fun e _ => ?_
    rw [isOwnEntry, Bool.and_comm (insidePrefix pre (some e.path) && isMissing w e), Bool.and_assoc]
  rw [hcount, hcount, h.entries]
  refine List.countP_congr fun e he => ?_
  simp only [List.mem_filter, Bool.and_eq_true, decide_eq_true_eq] at he
  rw [h.files e he.1 he.2.1 he.2.2]

private theorem SameOwn.decisionStateCounts {w' : World} (h : SameOwn user writer w w') :
    Ctxd.decisionStateCounts user writer pre w'.catalog = Ctxd.decisionStateCounts user writer pre w.catalog := by
  have hfilter : ∀ xs : List Decision,
      (xs.filter fun r => r.userId = user && r.writerId = writer && pre.all fun p => likePrefix p r.path) =
        (xs.filter fun r => r.userId = user && r.writerId = writer).filter fun r =>
          pre.all fun p => likePrefix p r.path := by
    intro xs
    rw [List.filter_filter]
    exact List.filter_congr fun r _ => Bool.and_comm _ _
  unfold Ctxd.decisionStateCounts
  rw [hfilter, hfilter, h.decisions]

/-- The summaries of two such stores agree exactly when the other writers' entries count the same. -/
private theorem SameOwn.summary_eq_iff {w' : World} (hsame : SameOwn user writer w w') {clock : Int}
    {s s' : WriterStatusSummary} (h : writerStatusSummary user writer pre clock w = .ok s)
    (h' : writerStatusSummary user writer pre clock w' = .ok s') :
    s = s' ↔
      w.catalog.entries.countP (isForeignEntry user writer (givenPrefix pre)) =
          w'.catalog.entries.countP (isForeignEntry user writer (givenPrefix pre)) ∧
        (w.catalog.entries.countP fun e => isForeignEntry user writer (givenPrefix pre) e && isMissing w e) =
          w'.catalog.entries.countP fun e => isForeignEntry user writer (givenPrefix pre) e && isMissing w' e := by
  obtain rfl := writerStatusSummary_ok h
  obtain rfl := writerStatusSummary_ok h'
  rw [hsame.submissions, hsame.decisionStateCounts, hsame.entryCount, hsame.incompleteCount]
  constructor
  · intro heq
    have hentries := congrArg WriterStatusSummary.entryCount heq
    have hmissing := congrArg WriterStatusSummary.incompleteEntryCount heq
    simp only [summaryOf] at hentries hmissing
    exact ⟨by omega, by omega⟩
  · rintro ⟨hentries, hmissing⟩
    rw [hentries, hmissing]

private theorem statusPrefix_given (hpre : ∀ p, givenPrefix pre = some p → Normalized p) :
    statusPrefix pre = .ok (givenPrefix pre) := by
  cases pre with
  | none => rfl
  | some p =>
    unfold statusPrefix givenPrefix
    by_cases hempty : p = ""
    · simp only [if_pos hempty]
    · have hnormal : normalizePath p = .ok p := hpre p (by simp [givenPrefix, hempty])
      simp only [if_neg hempty, hnormal]
      rfl

/-- Every path in the catalog is normal, so none of the rows stops the filter. -/
private theorem entriesUnderPrefix_returns (user : String) (h : Consistent w)
    (hpre : ∀ p, pre = some p → Normalized p) :
    ∃ rows, entriesUnderPrefix user (pre.getD "") w.catalog = .ok rows ∧
      ∀ e ∈ rows, e ∈ w.catalog.entries ∧ e.userId = user := by
  refine ⟨_, Program.filterM_eq_ok_iff.2 ⟨fun e he => ?_, rfl⟩, fun e he => ?_⟩
  · have hmem : e ∈ w.catalog.entries ∧ e.userId = user := by simpa using he
    by_cases hempty : pre.getD "" = ""
    · exact ⟨true, by rw [if_pos hempty]⟩
    · cases hp : pre with
      | none => exact absurd (by rw [hp]; rfl) hempty
      | some p =>
        refine ⟨decide (Inside p e.path), ?_⟩
        rw [hp] at hempty
        rw [if_neg hempty]
        exact within_eq (h.normal e hmem.1) (hpre p hp)
  · simpa using (List.mem_filter.1 he).1

/-- Between two calls every entry has its file. -/
private theorem Consistent.present (h : Consistent w) {e : Entry} (he : e ∈ w.catalog.entries) :
    w.fs.disk.present (treeLoc e.userId e.path) = .ok true := by
  obtain ⟨data, hdata, -⟩ := h.agrees.files e he
  have hfit : w.fs.disk.Fits (treeLoc e.userId e.path) := h.wf.fits (by rw [hdata]; rfl)
  rw [present_of_fits h.wf hfit, hdata]
  rfl

/-- A store between two calls gives a summary. -/
private theorem writerStatusSummary_returns (h : Consistent w) (hpre : ∀ p, givenPrefix pre = some p → Normalized p)
    (htimes : ∀ r ∈ w.catalog.submissions, r.userId = user → r.writerId = writer → 0 < r.updatedAt) (clock : Int) :
    ∃ s, writerStatusSummary user writer pre clock w = .ok s := by
  obtain ⟨rows, hrows, hmem⟩ := entriesUnderPrefix_returns user h hpre
  have hpresent : ∀ e ∈ rows, (do return !(← w.fs.disk.present (treeLoc user e.path)) : Except StoreError Bool) =
      .ok false := by
    intro e he
    obtain ⟨hentry, rfl⟩ := hmem e he
    rw [h.present hentry]
    rfl
  have hlatest : ((w.catalog.submissions.filter fun r => r.userId = user && r.writerId = writer).map
      (·.updatedAt)).max?.any (· ≤ 0) = false := by
    cases hmax : ((w.catalog.submissions.filter fun r => r.userId = user && r.writerId = writer).map
        (·.updatedAt)).max? with
    | none => rfl
    | some time =>
      obtain ⟨r, hr, rfl⟩ := List.mem_map.1 (List.max?_mem hmax)
      have hown : r ∈ w.catalog.submissions ∧ r.userId = user ∧ r.writerId = writer := by simpa using hr
      have hpositive := htimes r hown.1 hown.2.1 hown.2.2
      simp only [Option.any_some, decide_eq_false_iff_not]
      omega
  refine ⟨summaryOf (w.catalog.submissions.filter fun r => r.userId = user && r.writerId = writer)
    (decisionStateCounts user writer (givenPrefix pre) w.catalog) rows.length (rows.filter fun _ => false).length
      clock, ?_⟩
  refine bind_eq_ok.2 ⟨givenPrefix pre, statusPrefix_given hpre, ?_⟩
  refine bind_eq_ok.2 ⟨rows, hrows, ?_⟩
  refine bind_eq_ok.2 ⟨rows.filter fun _ => false, filterM_ok hpresent, ?_⟩
  dsimp only
  rw [if_neg (by simpa [summaryOf] using hlatest)]
  rfl

/-- The counts are the writer's own exactly when no other writer has an entry inside the prefix and the pattern misreads
no decision; two stores that differ in what belongs to others have one summary exactly when the others' entries count
the same. -/
theorem writer_status_own_iff {w' : World} {clock : Int} {s s' : WriterStatusSummary}
    (h : writerStatusSummary user writer pre clock w = .ok s)
    (h' : writerStatusSummary user writer pre clock w' = .ok s') (hsame : SameOwn user writer w w') :
    (CountsOwn user writer (givenPrefix pre) w s ↔ Undisturbed user writer (givenPrefix pre) w) ∧
      (s = s' ↔
        w.catalog.entries.countP (isForeignEntry user writer (givenPrefix pre)) =
            w'.catalog.entries.countP (isForeignEntry user writer (givenPrefix pre)) ∧
          (w.catalog.entries.countP fun e => isForeignEntry user writer (givenPrefix pre) e && isMissing w e) =
            w'.catalog.entries.countP fun e => isForeignEntry user writer (givenPrefix pre) e && isMissing w' e) :=
  ⟨countsOwn_iff h, hsame.summary_eq_iff h h'⟩

end

/-! ### A shared tenant -/

def tenantCalls : List Call :=
  [.register "user" "agent" "d", .register "user" "other" "e", .submit "user" "agent" [putText "1" "d/a" "x"] none]

/-- One document of the agent, and none of the other writer. -/
@[irreducible] def tenant : World := runCalls tenantCalls (emptyStore (fun _ => 1) 4000)

/-- The other writer has put a document. -/
@[irreducible] def sharedTenant : World :=
  runCalls (tenantCalls ++ [.submit "user" "other" [putText "1" "e/b" "y"] none]) (emptyStore (fun _ => 1) 4000)

/-- The calls that the sample stores come from leave a store that gives a summary. -/
private theorem runCalls_returns {calls : List Call} (hcalls : FaithfulRun (emptyStore (fun _ => 1) 4000) calls)
    {pre : Option String} (hpre : ∀ p, givenPrefix pre = some p → Normalized p)
    (htimes : ∀ r ∈ (runCalls calls (emptyStore (fun _ => 1) 4000)).catalog.submissions,
      r.userId = "user" → r.writerId = "agent" → 0 < r.updatedAt) :
    ∃ s, writerStatusSummary "user" "agent" pre 2 (runCalls calls (emptyStore (fun _ => 1) 4000)) = .ok s :=
  writerStatusSummary_returns (runCalls_consistent (emptyStore_consistent _ _) hcalls).1 hpre htimes 2

private theorem tenant_returns {pre : Option String} (hpre : ∀ p, givenPrefix pre = some p → Normalized p) :
    ∃ s, writerStatusSummary "user" "agent" pre 2 tenant = .ok s := by
  unfold tenant
  exact runCalls_returns (by decide +kernel) hpre (by decide +kernel)

private theorem sharedTenant_returns {pre : Option String} (hpre : ∀ p, givenPrefix pre = some p → Normalized p) :
    ∃ s, writerStatusSummary "user" "agent" pre 2 sharedTenant = .ok s := by
  unfold sharedTenant
  exact runCalls_returns (by decide +kernel) hpre (by decide +kernel)

private theorem sharedTenant_sameOwn : SameOwn "user" "agent" sharedTenant tenant :=
  ⟨by decide +kernel, by decide +kernel, by decide +kernel, by decide +kernel⟩

/-- Inside its own prefix the agent is alone. -/
theorem writer_status_own_prefix :
    ∃ s s', writerStatusSummary "user" "agent" (some "d") 2 sharedTenant = .ok s ∧
      writerStatusSummary "user" "agent" (some "d") 2 tenant = .ok s' ∧
      CountsOwn "user" "agent" (givenPrefix (some "d")) sharedTenant s ∧ s = s' := by
  have hpre : ∀ p, givenPrefix (some "d") = some p → Normalized p := by
    intro p hp
    obtain rfl : "d" = p := by simpa [givenPrefix] using hp
    decide
  obtain ⟨s, hs⟩ := sharedTenant_returns hpre
  obtain ⟨s', hs'⟩ := tenant_returns hpre
  obtain ⟨hown, heq⟩ := writer_status_own_iff hs hs' sharedTenant_sameOwn
  have hdecisions : sharedTenant.catalog.decisions = [] := by decide +kernel
  refine ⟨s, s', hs, hs', hown.2 ⟨by decide +kernel, fun r hr => ?_⟩, heq.2 (by decide +kernel)⟩
  rw [hdecisions] at hr
  cases hr

/-- Without a prefix the document of the other writer is counted. -/
theorem other_writer_counted :
    ∃ s s', writerStatusSummary "user" "agent" none 2 sharedTenant = .ok s ∧
      writerStatusSummary "user" "agent" none 2 tenant = .ok s' ∧ SameOwn "user" "agent" sharedTenant tenant ∧
      ¬CountsOwn "user" "agent" none sharedTenant s ∧ s ≠ s' := by
  have hpre : ∀ p, givenPrefix none = some p → Normalized p := by
    intro p hp
    cases hp
  obtain ⟨s, hs⟩ := sharedTenant_returns hpre
  obtain ⟨s', hs'⟩ := tenant_returns hpre
  have hforeign : ∃ e ∈ sharedTenant.catalog.entries, isForeignEntry "user" "agent" none e = true := by decide +kernel
  refine ⟨s, s', hs, hs', sharedTenant_sameOwn, fun hown => ?_, fun heq => ?_⟩
  · obtain ⟨e, he, htrue⟩ := hforeign
    have hfalse := ((countsOwn_iff hs).1 hown).entries e he
    exact absurd (htrue.symm.trans hfalse) (by decide)
  · have hcount := ((sharedTenant_sameOwn.summary_eq_iff hs hs').1 heq).1
    exact absurd hcount (by decide +kernel)

end Ctxd

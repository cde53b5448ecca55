import Ctxd.Operations

/-!
# Registrations that run at the same time

Every request registers its prefix on a connection of its own.  Outside a transaction a `SELECT` reads the rows that
are committed, and the transaction of `register_prefix` opens only at its `INSERT`, which waits for the other writers;
so a call compares its prefix with the rows it selected, and not with those that were committed since.  Prefixes of
two writers overlap in some state of a run exactly when a call commits although an overlapping registration of another
writer was committed after its `SELECT` (`registered_disjoint_iff`).
-/

namespace Ctxd

open Program

/-! ### The statements of a call -/

/-- The arguments of a call of `register_prefix`. -/
structure PrefixCall where
  userId : String
  writerId : String
  pre : String
  deriving DecidableEq, Repr

def prefixOverlap (writer normalized : String) (row : WriterPrefix) : StoreError :=
  let owner := row.writerId
  let existing := row.prefixPath
  .prefixAuthorization s!"writer {writer} prefix {normalized} overlaps writer {owner} prefix {existing}"

/-- `SELECT writer_id, prefix FROM writer_prefixes WHERE user_id = ? AND writer_id != ?`. -/
def otherPrefixes (user writer : String) (rows : List WriterPrefix) : List WriterPrefix :=
  rows.filter fun r => r.userId = user && r.writerId ≠ writer

/-- The loop over the selected rows. -/
def rejectOverlaps (writer normalized : String) : List WriterPrefix → Except StoreError Unit
  | [] => .ok ()
  | row :: rest => do
    if ← prefixesOverlap normalized row.prefixPath then throw (prefixOverlap writer normalized row)
    rejectOverlaps writer normalized rest

/-- `INSERT OR IGNORE INTO writer_prefixes`, on the rows of the table. -/
def insertPrefixRow (row : WriterPrefix) (rows : List WriterPrefix) : List WriterPrefix :=
  if (rows.any fun r => r.userId = row.userId && r.writerId = row.writerId && r.prefixPath = row.prefixPath) then rows
  else rows ++ [row]

/-- The `SELECT` of a call with the checks before and after it: the rows it found and the row to insert. -/
def PrefixCall.select (call : PrefixCall) (rows : List WriterPrefix) (time : Int) :
    Except StoreError (List WriterPrefix × WriterPrefix) := do
  let normalized ← normalizePath call.pre
  let selected := otherPrefixes call.userId call.writerId rows
  rejectOverlaps call.writerId normalized selected
  return (selected, ⟨call.userId, call.writerId, normalized, time⟩)

/-- How far a call has come: the rows it has selected and the row it inserts go with it. -/
inductive Phase
  | called
  | checked (selected : List WriterPrefix) (row : WriterPrefix)
  | inserted (selected : List WriterPrefix) (row : WriterPrefix)
  | returned
  | raised (e : StoreError)
  | abandoned
  deriving DecidableEq, Repr

/-- The committed rows of `writer_prefixes`, the calls on their connections, and the call whose transaction is open. -/
structure Registry (ι : Type) where
  rows : List WriterPrefix
  phase : ι → Phase
  writing : Option ι

/-- A statement of one call, or the end of its connection: by the timeout of a locked database, by a fault, or by the
death of its process. -/
inductive Statement (ι : Type)
  | select (call : ι) (time : Int)
  | insert (call : ι)
  | commit (call : ι)
  | abandon (call : ι)

section

variable {ι : Type} [DecidableEq ι] (calls : ι → PrefixCall)

namespace Registry

def setPhase (s : Registry ι) (i : ι) (phase : Phase) : Registry ι :=
  { s with phase := fun j => if j = i then phase else s.phase j }

/-- A statement out of turn changes nothing; an `INSERT` waits while another transaction is open. -/
def step (s : Registry ι) : Statement ι → Registry ι
  | .select i time =>
    match s.phase i with
    | .called =>
      match (calls i).select s.rows time with
      | .ok (selected, row) => s.setPhase i (.checked selected row)
      | .error e => s.setPhase i (.raised e)
    | _ => s
  | .insert i =>
    match s.phase i, s.writing with
    | .checked selected row, none => { s.setPhase i (.inserted selected row) with writing := some i }
    | _, _ => s
  | .commit i =>
    match s.phase i with
    | .inserted _ row => { s.setPhase i .returned with rows := insertPrefixRow row s.rows, writing := none }
    | _ => s
  | .abandon i =>
    match s.phase i with
    | .called | .checked _ _ => s.setPhase i .abandoned
    | .inserted _ _ => { s.setPhase i .abandoned with writing := none }
    | _ => s

def start (rows : List WriterPrefix) : Registry ι := ⟨rows, fun _ => .called, none⟩

/-- The state after some statements, from a new catalog. -/
def run (statements : List (Statement ι)) : Registry ι := statements.foldl (step calls) (start [])

end Registry

/-! ### Overlapping registrations -/

/-- Equal, or one an ancestor of the other, component by component. -/
def Overlapping (p q : String) : Prop := posixParts p <+: posixParts q ∨ posixParts q <+: posixParts p

instance (p q : String) : Decidable (Overlapping p q) := by
  unfold Overlapping
  infer_instance

theorem Overlapping.symm {p q : String} (h : Overlapping p q) : Overlapping q p := Or.symm h

/-- Rows of different writers of one user whose prefixes overlap. -/
def WriterPrefix.Conflicts (r r' : WriterPrefix) : Prop :=
  r.userId = r'.userId ∧ r.writerId ≠ r'.writerId ∧ Overlapping r.prefixPath r'.prefixPath

instance (r r' : WriterPrefix) : Decidable (r.Conflicts r') := by
  unfold WriterPrefix.Conflicts
  infer_instance

private theorem WriterPrefix.Conflicts.symm {r r' : WriterPrefix} (h : r.Conflicts r') : r'.Conflicts r :=
  ⟨h.1.symm, Ne.symm h.2.1, h.2.2.symm⟩

/-- No prefixes of different writers of one user overlap. -/
def PrefixesDisjoint (rows : List WriterPrefix) : Prop := ∀ r ∈ rows, ∀ r' ∈ rows, ¬r.Conflicts r'

instance (rows : List WriterPrefix) : Decidable (PrefixesDisjoint rows) := by
  unfold PrefixesDisjoint
  infer_instance

/-- A call has inserted its row, and a conflicting row is committed that was not among those it selected. -/
def Registry.Overtaken (s : Registry ι) (i : ι) : Prop :=
  ∃ selected row, s.phase i = .inserted selected row ∧ ∃ r ∈ s.rows, r ∉ selected ∧ row.Conflicts r

/-! ### What the check finds -/

theorem prefixesOverlap_eq {p q : String} (hp : Normalized p) (hq : Normalized q) :
    prefixesOverlap p q = .ok (decide (Overlapping p q)) := by
  unfold prefixesOverlap
  rw [pathIsWithinPrefix_eq hp hq, pathIsWithinPrefix_eq hq hp]
  by_cases h : posixParts q <+: posixParts p
  · have hover : Overlapping p q := .inr h
    simp [h, hover]
    rfl
  · by_cases h' : posixParts p <+: posixParts q
    · have hover : Overlapping p q := .inl h'
      simp [h, h', hover]
      rfl
    · have hover : ¬Overlapping p q := by
        rintro (h1 | h1)
        · exact h' h1
        · exact h h1
      simp [h, h', hover]
      rfl

theorem rejectOverlaps_ok {writer normalized : String} {rows : List WriterPrefix} (hp : Normalized normalized)
    (hrows : ∀ r ∈ rows, Normalized r.prefixPath) (h : rejectOverlaps writer normalized rows = .ok ()) :
    ∀ r ∈ rows, ¬Overlapping normalized r.prefixPath := by
  induction rows with
  | nil => simp
  | cons row rest ih =>
    intro r hr
    unfold rejectOverlaps at h
    rw [prefixesOverlap_eq hp (hrows row (by simp))] at h
    by_cases hover : Overlapping normalized row.prefixPath
    · simp [hover, bind, Except.bind, throw, throwThe, MonadExceptOf.throw] at h
    · simp only [hover, decide_false] at h
      rcases List.mem_cons.1 hr with rfl | hr
      · exact hover
      · exact ih (fun r hr => hrows r (List.mem_cons_of_mem _ hr)) h r hr

theorem mem_insertPrefixRow {row r : WriterPrefix} {rows : List WriterPrefix} (h : r ∈ insertPrefixRow row rows) :
    r ∈ rows ∨ r = row := by
  unfold insertPrefixRow at h
  split at h
  · exact .inl h
  · simpa using h

theorem mem_insertPrefixRow_of_mem {row r : WriterPrefix} {rows : List WriterPrefix} (h : r ∈ rows) :
    r ∈ insertPrefixRow row rows := by
  unfold insertPrefixRow
  split
  · exact h
  · exact List.mem_append_left _ h

/-- The inserted prefix is in the table, perhaps by an earlier row. -/
theorem exists_mem_insertPrefixRow (row : WriterPrefix) (rows : List WriterPrefix) :
    ∃ r ∈ insertPrefixRow row rows, r.userId = row.userId ∧ r.writerId = row.writerId ∧ r.prefixPath =
      row.prefixPath := by
  unfold insertPrefixRow
  split
  · rename_i h
    obtain ⟨r, hr, hsame⟩ := List.any_eq_true.1 h
    simp only [Bool.and_eq_true, decide_eq_true_eq] at hsame
    exact ⟨r, hr, hsame.1.1, hsame.1.2, hsame.2⟩
  · exact ⟨row, by simp, rfl, rfl, rfl⟩

/-! ### What every state of a run has -/

/-- The row is normalised and conflicts with none of the rows its call selected. -/
structure Passed (selected : List WriterPrefix) (row : WriterPrefix) : Prop where
  normalized : Normalized row.prefixPath
  disjoint : ∀ r ∈ selected, ¬row.Conflicts r

/-- A call that passes its checks conflicts with none of the rows it selected. -/
private theorem PrefixCall.select_passed {call : PrefixCall} {rows selected : List WriterPrefix} {time : Int}
    {row : WriterPrefix} (hrows : ∀ r ∈ rows, Normalized r.prefixPath)
    (hselect : call.select rows time = .ok (selected, row)) : Passed selected row := by
  unfold PrefixCall.select at hselect
  cases hpath : normalizePath call.pre with
  | error e =>
    rw [hpath] at hselect
    cases hselect
  | ok normalized =>
    have hnormalized : Normalized normalized := normalizePath_eq hpath ▸ Normalized.of_ok hpath
    cases hcheck : rejectOverlaps call.writerId normalized (otherPrefixes call.userId call.writerId rows) with
    | error e =>
      simp [hpath, hcheck, bind, Except.bind] at hselect
    | ok u =>
      simp only [hpath, hcheck, bind, Except.bind, pure, Except.pure, Except.ok.injEq, Prod.mk.injEq] at hselect
      obtain ⟨rfl, rfl⟩ := hselect
      refine ⟨hnormalized, fun r hr hconflict => ?_⟩
      have hothers : ∀ r ∈ otherPrefixes call.userId call.writerId rows, Normalized r.prefixPath :=
        fun r hr => hrows r (List.mem_of_mem_filter hr)
      exact rejectOverlaps_ok hnormalized hothers hcheck r hr hconflict.2.2

def Phase.Sound : Phase → Prop
  | .checked selected row | .inserted selected row => Passed selected row
  | .called | .returned | .raised _ | .abandoned => True

namespace Registry

structure Inv (s : Registry ι) : Prop where
  normalized : ∀ r ∈ s.rows, Normalized r.prefixPath
  sound : ∀ i, (s.phase i).Sound

omit [DecidableEq ι] in
private theorem start_inv : (start [] : Registry ι).Inv := by
  constructor
  · simp [start]
  · intro i
    trivial

private theorem Inv.setPhase {s : Registry ι} (h : s.Inv) (i : ι) (phase : Phase) (hphase : phase.Sound) :
    (s.setPhase i phase).Inv := by
  refine ⟨h.normalized, fun j => ?_⟩
  unfold Registry.setPhase
  by_cases hj : j = i
  · simpa [hj] using hphase
  · simpa [hj] using h.sound j

private theorem Inv.step {s : Registry ι} (h : s.Inv) (statement : Statement ι) : (s.step calls statement).Inv := by
  cases statement with
  | select i time =>
    simp only [Registry.step]
    split
    · split
      · rename_i selected row hselect
        exact h.setPhase i _ (PrefixCall.select_passed h.normalized hselect)
      · exact h.setPhase i _ trivial
    · exact h
  | insert i =>
    simp only [Registry.step]
    split
    · rename_i selected row hphase _
      have hpassed : Passed selected row := by simpa [Phase.Sound, hphase] using h.sound i
      have hset := h.setPhase i (.inserted selected row) hpassed
      exact ⟨hset.normalized, hset.sound⟩
    · exact h
  | commit i =>
    simp only [Registry.step]
    split
    · rename_i selected row hphase
      have hpassed : Passed selected row := by simpa [Phase.Sound, hphase] using h.sound i
      refine ⟨fun r hr => ?_, (h.setPhase i .returned trivial).sound⟩
      rcases mem_insertPrefixRow hr with hr | rfl
      · exact h.normalized r hr
      · exact hpassed.normalized
    · exact h
  | abandon i =>
    simp only [Registry.step]
    split
    · exact h.setPhase i _ trivial
    · exact h.setPhase i _ trivial
    · have hset := h.setPhase i .abandoned trivial
      exact ⟨hset.normalized, hset.sound⟩
    · exact h

private theorem run_concat (done : List (Statement ι)) (statement : Statement ι) :
    run calls (done ++ [statement]) = (run calls done).step calls statement := by
  simp [run]

private theorem run_inv (statements : List (Statement ι)) : (run calls statements).Inv := by
  induction statements using List.reverseRecOn with
  | nil => exact start_inv
  | append_singleton done statement ih =>
    rw [run_concat]
    exact ih.step calls statement

/-! ### Disjoint prefixes -/

/-- A step changes the committed rows only when a call commits. -/
private theorem step_rows (s : Registry ι) (statement : Statement ι) :
    (s.step calls statement).rows = s.rows ∨
      ∃ i selected row, statement = .commit i ∧ s.phase i = .inserted selected row ∧
        (s.step calls statement).rows = insertPrefixRow row s.rows := by
  cases statement with
  | select i time =>
    left
    simp only [step]
    split
    · split <;> rfl
    · rfl
  | insert i =>
    left
    simp only [step]
    split <;> rfl
  | abandon i =>
    left
    simp only [step]
    split <;> rfl
  | commit i =>
    cases hphase : s.phase i with
    | inserted selected row => exact .inr ⟨i, selected, row, rfl, hphase, by simp [step, hphase]⟩
    | called | checked | returned | raised | abandoned =>
      left
      simp [step, hphase]

/-- A call that was not overtaken keeps the prefixes disjoint. -/
private theorem Inv.disjoint_step {s : Registry ι} (h : s.Inv) (hdisjoint : PrefixesDisjoint s.rows)
    {statement : Statement ι}
    (hnot : ∀ i, statement = .commit i → ¬s.Overtaken i) : PrefixesDisjoint (s.step calls statement).rows := by
  rcases step_rows calls s statement with hrows | ⟨i, selected, row, hcommit, hphase, hrows⟩
  · rw [hrows]
    exact hdisjoint
  · have hpassed : Passed selected row := by simpa [Phase.Sound, hphase] using h.sound i
    have hnew : ∀ r ∈ s.rows, ¬row.Conflicts r := by
      intro r hr hconflict
      by_cases hselected : r ∈ selected
      · exact hpassed.disjoint r hselected hconflict
      · exact hnot i hcommit ⟨selected, row, hphase, r, hr, hselected, hconflict⟩
    rw [hrows]
    intro r hr r' hr'
    rcases mem_insertPrefixRow hr with hold | rfl <;> rcases mem_insertPrefixRow hr' with hold' | rfl
    · exact hdisjoint r hold r' hold'
    · exact fun hconflict => hnew r hold hconflict.symm
    · exact hnew r' hold'
    · exact fun hconflict => hconflict.2.1 rfl

/-- A call that commits after it was overtaken leaves overlapping prefixes. -/
private theorem Overtaken.not_disjoint {s : Registry ι} {i : ι} (h : s.Overtaken i) :
    ¬PrefixesDisjoint (s.step calls (.commit i)).rows := by
  obtain ⟨selected, row, hphase, r, hr, -, huser, hwriter, hover⟩ := h
  have hrows : (s.step calls (.commit i)).rows = insertPrefixRow row s.rows := by simp [step, hphase]
  obtain ⟨r', hr', huser', hwriter', hpath'⟩ := exists_mem_insertPrefixRow row s.rows
  intro hdisjoint
  rw [hrows] at hdisjoint
  refine hdisjoint r' hr' r (mem_insertPrefixRow_of_mem hr) ⟨?_, ?_, ?_⟩
  · rw [huser', huser]
  · rw [hwriter']
    exact hwriter
  · rw [hpath']
    exact hover

/-- Prefixes stay disjoint exactly in the runs in which no call commits after it was overtaken. -/
theorem registered_disjoint_iff (statements : List (Statement ι)) :
    (∀ done, done <+: statements → PrefixesDisjoint (run calls done).rows) ↔
      ∀ done i, done ++ [.commit i] <+: statements → ¬(run calls done).Overtaken i := by
  constructor
  · intro h done i hdone hovertaken
    have hafter := h _ hdone
    rw [run_concat] at hafter
    exact hovertaken.not_disjoint calls hafter
  · intro h done hdone
    induction done using List.reverseRecOn with
    | nil => simp [run, start, PrefixesDisjoint]
    | append_singleton done statement ih =>
      have hbefore : PrefixesDisjoint (run calls done).rows := ih ((List.prefix_append done _).trans hdone)
      rw [run_concat]
      refine (run_inv calls done).disjoint_step calls hbefore fun i hi => ?_
      rw [hi] at hdone
      exact h done i hdone

/-! ### A call on its own -/

end Registry

private theorem forM_rejectOverlaps (writer normalized : String) (rows : List WriterPrefix) :
    (rows.forM fun row => do
      if ← orRaise (prefixesOverlap normalized row.prefixPath) then
        throw (prefixOverlap writer normalized row)) =
      (orRaise (rejectOverlaps writer normalized rows) : StoreM Unit) := by
  induction rows with
  | nil => rfl
  | cons row rest ih =>
    show (_ >>= fun _ => rest.forM _) = _
    rw [ih, rejectOverlaps]
    beta_reduce
    cases prefixesOverlap normalized row.prefixPath with
    | error e => rfl
    | ok overlap => cases overlap <;> rfl

/-- What `register_prefix` does to the rows. -/
theorem registerPrefix_spec (user writer pre : String) (w : World) :
    Ends (registerPrefix user writer pre)
      (fun _ w' => normalizePath pre = .ok pre ∧
        rejectOverlaps writer pre (otherPrefixes user writer w.catalog.writerPrefixes) = .ok () ∧
        w'.catalog.writerPrefixes = insertPrefixRow ⟨user, writer, pre, w.clock w.ticks⟩ w.catalog.writerPrefixes)
      (fun e w' => (normalizePath pre = .error e ∨ normalizePath pre = .ok pre ∧
          rejectOverlaps writer pre (otherPrefixes user writer w.catalog.writerPrefixes) = .error e) ∧
        w'.catalog.writerPrefixes = w.catalog.writerPrefixes) w := by
  unfold registerPrefix
  rw [ends_bind, ends_orRaise]
  refine ⟨fun normalized hpath => ?_, fun e hpath => ⟨.inl hpath, rfl⟩⟩
  obtain rfl := normalizePath_eq hpath
  rw [ends_bind, ends_now, ends_transaction, ends_bind, ends_catalog]
  simp only
  rw [ends_bind]
  show Ends (List.forM (otherPrefixes _ _ _) fun row => do
    if ← orRaise (prefixesOverlap normalized row.prefixPath) then throw (prefixOverlap writer normalized row)) _ _ _
  rw [forM_rejectOverlaps, ends_orRaise]
  refine ⟨fun u hcheck => ?_, fun e hcheck => ⟨.inr ⟨hpath, hcheck⟩, trivial⟩⟩
  rw [ends_execute]
  refine ⟨fun c hc => ⟨hpath, hcheck, ?_⟩, fun e he => by cases he⟩
  cases hc
  show (Catalog.insertPrefix _ _).writerPrefixes = _
  unfold Catalog.insertPrefix insertPrefixRow
  split <;> rfl

namespace Registry

/-- The state after the statements of one call that meets no other. -/
def alone (rows : List WriterPrefix) (i : ι) (time : Int) : Registry ι :=
  (((start rows).step calls (.select i time)).step calls (.insert i)).step calls (.commit i)

private theorem alone_of_error {rows : List WriterPrefix} {i : ι} {time : Int} {e : StoreError}
    (h : (calls i).select rows time = .error e) :
    (alone calls rows i time).phase i = .raised e ∧ (alone calls rows i time).rows = rows := by
  have hselect : (start rows).step calls (.select i time) = (start rows).setPhase i (.raised e) := by
    simp [step, h, start]
  rw [alone, hselect]
  simp [step, setPhase, start]

private theorem alone_of_ok {rows selected : List WriterPrefix} {i : ι} {time : Int} {row : WriterPrefix}
    (h : (calls i).select rows time = .ok (selected, row)) :
    (alone calls rows i time).phase i = .returned ∧ (alone calls rows i time).rows = insertPrefixRow row rows := by
  have hselect : (start rows).step calls (.select i time) = (start rows).setPhase i (.checked selected row) := by
    simp [step, h, start]
  rw [alone, hselect]
  simp [step, setPhase, start]

/-- `registerPrefix` is its statements, one after the other. -/
theorem registerPrefix_alone (i : ι) (w : World) :
    Ends (registerPrefix (calls i).userId (calls i).writerId (calls i).pre)
      (fun _ w' => (alone calls w.catalog.writerPrefixes i (w.clock w.ticks)).phase i = .returned ∧
        w'.catalog.writerPrefixes = (alone calls w.catalog.writerPrefixes i (w.clock w.ticks)).rows)
      (fun e w' => (alone calls w.catalog.writerPrefixes i (w.clock w.ticks)).phase i = .raised e ∧
        w'.catalog.writerPrefixes = (alone calls w.catalog.writerPrefixes i (w.clock w.ticks)).rows) w := by
  have hselect : (calls i).select w.catalog.writerPrefixes (w.clock w.ticks) =
      (normalizePath (calls i).pre).bind fun normalized =>
        (rejectOverlaps (calls i).writerId normalized
          (otherPrefixes (calls i).userId (calls i).writerId w.catalog.writerPrefixes)).bind fun _ =>
            .ok (otherPrefixes (calls i).userId (calls i).writerId w.catalog.writerPrefixes,
              ⟨(calls i).userId, (calls i).writerId, normalized, w.clock w.ticks⟩) := rfl
  refine (registerPrefix_spec _ _ _ w).mono (fun _ w' hw => ?_) (fun e w' hw => ?_)
  · obtain ⟨hpath, hcheck, hrows⟩ := hw
    rw [hpath, Except.bind, hcheck] at hselect
    obtain ⟨hphase, hafter⟩ := alone_of_ok calls hselect
    exact ⟨hphase, hrows.trans hafter.symm⟩
  · obtain ⟨hraised, hrows⟩ := hw
    have hselect' : (calls i).select w.catalog.writerPrefixes (w.clock w.ticks) = .error e := by
      rcases hraised with hpath | ⟨hpath, hcheck⟩
      · rw [hselect, hpath]
        rfl
      · rw [hselect, hpath, Except.bind, hcheck]
        rfl
    obtain ⟨hphase, hafter⟩ := alone_of_error calls hselect'
    exact ⟨hphase, hrows.trans hafter.symm⟩

end Registry

end

namespace Registry

/-- Writers of one user that register a directory and a directory in it. -/
def nestedCalls : Bool → PrefixCall
  | false => ⟨"user", "first", "notes"⟩
  | true => ⟨"user", "second", "notes/work"⟩

/-- Both select before either inserts. -/
def nestedStatements : List (Statement Bool) :=
  [.select false 0, .select true 0, .insert false, .commit false, .insert true, .commit true]

theorem nested_registered : ¬∀ done, done <+: nestedStatements → PrefixesDisjoint (run nestedCalls done).rows := by
  intro h
  exact absurd (h nestedStatements (List.prefix_refl _)) (by decide +kernel)

end Registry

end Ctxd

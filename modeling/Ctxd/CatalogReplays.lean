import Ctxd.CatalogRuns

/-!
# Registrations that are made again

In every run of calls of `register_machine` and `register_folder`, whatever the order of their statements, every call
ends after boundedly many statements, the tables keep their keys, no key changes, a call that is repeated returns the
same record, and a call that comes with other metadata raises and changes nothing (`registrations_hold`).
-/

namespace Ctxd

open Sessions

/-! ### Termination -/

/-- No more statements are left to a call at this stage. -/
def CallStage.rank : CallStage → ℕ
  | .called => 2 * maxRows + 13
  | .searching => 2 * maxRows + 12
  | .inserting n => 2 * (maxRows + 2 - n) + 8
  | .refused n => 2 * (maxRows + 2 - n) + 7
  | .adopting _ => 5
  | .adopted _ => 4
  | .inserted _ => 4
  | .returning _ => 1
  | .raising _ => 1

private theorem CallStage.rank_pos (stage : CallStage) : 0 < stage.rank := by
  cases stage <;> simp [rank]

namespace Registering

variable {R Ω : Type} [DecidableEq Ω] {q : Registering R Ω} {K : R → R → Prop} {draw : ℕ → String}
  {t t' : CatalogTables} {r : R}

omit [DecidableEq Ω] in
private theorem rank_judge (q : Registering R Ω) (r : R) : (q.judge r).rank = 1 := by
  unfold judge
  split <;> rfl

omit [DecidableEq Ω] in
private theorem rank_settle_le (q : Registering R Ω) (r : R) : (q.settle r).rank ≤ 5 := by
  unfold settle
  split
  · exact le_rfl
  · rw [rank_judge]
    omega

private theorem Lawful.rank_read (h : q.Lawful K) {inside : Bool} {stage : CallStage} {next : CatalogTables → CallStage}
    (hinv : t.Kept) (hasserts : q.stageAsserts draw inside t stage) (hact : q.act draw stage = .read next) :
    (next t).rank < stage.rank := by
  have hafter := h.read hinv hasserts hact
  cases stage with
  | called =>
    cases hact
    dsimp only
    cases q.guard t with
    | ok u => exact Nat.lt_succ_self _
    | error e => simp [CallStage.rank]
  | searching =>
    cases hact
    dsimp only
    cases q.columns.byRegistration (q.rows t) q.owner q.registration with
    | some r =>
      have hle := rank_settle_le q r
      show (q.settle r).rank < 2 * maxRows + 12
      omega
    | none =>
      show 2 * (maxRows + 2 - 1) + 8 < 2 * maxRows + 12
      omega
  | inserting n => cases hact
  | refused n =>
    cases hact
    dsimp only at hafter ⊢
    cases hfound : q.columns.byRegistration (q.rows t) q.owner q.registration with
    | some r =>
      have hle := rank_settle_le q r
      show (q.settle r).rank < 2 * (maxRows + 2 - n) + 7
      omega
    | none =>
      rw [hfound] at hafter
      have hle := h.inserting_le hinv hafter.2.2.1
      show 2 * (maxRows + 2 - (n + 1)) + 8 < 2 * (maxRows + 2 - n) + 7
      omega
  | adopting id => cases hact
  | adopted id =>
    cases hact
    dsimp only
    cases q.columns.byId (q.rows t) q.owner id with
    | some r =>
      rw [rank_judge]
      simp [CallStage.rank]
    | none => simp [CallStage.rank]
  | inserted id =>
    cases hact
    dsimp only
    cases q.columns.byId (q.rows t) q.owner id with
    | some r => simp [CallStage.rank]
    | none => simp [CallStage.rank]
  | returning record => cases hact
  | raising e => cases hact

private theorem rank_write {stage : CallStage} {run : CatalogTables → CatalogTables × CallStage}
    (hact : q.act draw stage = .write run) : (run t).2.rank < stage.rank := by
  cases stage with
  | inserting n =>
    cases hact
    unfold insert
    split
    · simp [CallStage.rank]
    · dsimp only
      split
      · simp [CallStage.rank]
      · simp [CallStage.rank]
  | adopting id =>
    cases hact
    simp [CallStage.rank]
  | called => cases hact
  | searching => cases hact
  | refused n => cases hact
  | adopted id => cases hact
  | inserted id => cases hact
  | returning record => cases hact
  | raising e => cases hact

/-! ### Calls that find their row -/

/-- The registration has a row of which `P` is true. -/
def Known (q : Registering R Ω) (P : R → Prop) (t : CatalogTables) : Prop :=
  q.guard t = .ok () ∧ ∃ r, q.Owned t r ∧ P r

omit [DecidableEq Ω] in
/-- A row of the table of the registration that has its owner and its id is its row. -/
theorem owned_iff {rows : CatalogTables → List R} {columns : Columns R Ω} (hrows : q.rows = rows)
    (hcolumns : q.columns = columns) {t : CatalogTables} {r : R} :
    q.Owned t r ↔ r ∈ rows t ∧ columns.owner r = q.owner ∧ columns.registration r = q.registration := by
  unfold Owned
  rw [hrows, hcolumns]

/-- A call that finds its row does not insert, and it ends as the row makes it end. -/
def stageFinds (q : Registering R Ω) (P : R → Prop) (t : CatalogTables) : CallStage → Prop
  | .called | .searching => True
  | .inserting _ | .refused _ | .inserted _ => False
  | .adopting id => q.adopts = true ∧ ∃ r, q.Owned t r ∧ P r ∧ q.columns.id r = id
  | .adopted id => ∃ r, q.Owned t r ∧ P r ∧ q.columns.id r = id
  | .returning record => ∃ r, P r ∧ q.verdict r = .ok record
  | .raising e => ∃ r, P r ∧ q.verdict r = .error e

def finds (q : Registering R Ω) (P : R → Prop) (_inside : Bool) (status : Status CallStage Outcome)
    (t : CatalogTables) :
    Prop :=
  match status with
  | .running stage => q.Known P t ∧ q.stageFinds P t stage
  | .ended outcome => ∃ r, P r ∧ q.verdict r = outcome
  | .abandoned => True

variable {P : R → Prop}

omit [DecidableEq Ω] in
private theorem finds_judge (hP : P r) : q.stageFinds P t (q.judge r) := by
  unfold judge
  cases hverdict : q.verdict r with
  | ok record => exact ⟨r, hP, hverdict⟩
  | error e => exact ⟨r, hP, hverdict⟩

omit [DecidableEq Ω] in
private theorem finds_settle (howned : q.Owned t r) (hP : P r) : q.stageFinds P t (q.settle r) := by
  unfold settle
  split
  · rename_i hadopts
    rw [Bool.and_eq_true] at hadopts
    exact ⟨hadopts.1, r, howned, hP, rfl⟩
  · exact finds_judge hP

private theorem Lawful.known_grows (h : q.Lawful K) (hP : ∀ {r r'}, K r r' → P r → P r') {fresh : String → Prop}
    (hgrows : TablesGrow fresh t t') (hknown : q.Known P t) : q.Known P t' := by
  obtain ⟨hguard, r, howned, hr⟩ := hknown
  obtain ⟨r', howned', hkeeps⟩ := h.owned_grows hgrows howned
  exact ⟨h.guard_grows hgrows hguard, r', howned', hP hkeeps hr⟩

private theorem Lawful.finds_grows (h : q.Lawful K) (hP : ∀ {r r'}, K r r' → P r → P r') {fresh : String → Prop}
    {stage : CallStage} (hgrows : TablesGrow fresh t t') (hfinds : q.stageFinds P t stage) :
    q.stageFinds P t' stage := by
  have hrow : ∀ {id}, (∃ r, q.Owned t r ∧ P r ∧ q.columns.id r = id) →
      ∃ r, q.Owned t' r ∧ P r ∧ q.columns.id r = id := by
    intro id hex
    obtain ⟨r, howned, hr, hid⟩ := hex
    obtain ⟨r', howned', hkeeps⟩ := h.owned_grows hgrows howned
    exact ⟨r', howned', hP hkeeps hr, (h.columns hkeeps).2.1.trans hid⟩
  cases stage with
  | adopting id => exact ⟨hfinds.1, hrow hfinds.2⟩
  | adopted id => exact hrow hfinds
  | _ => exact hfinds

/-- The only row of the registration is found. -/
private theorem Lawful.byRegistration_known (h : q.Lawful K) (hinv : t.Kept) (howned : q.Owned t r) :
    q.columns.byRegistration (q.rows t) q.owner q.registration = some r :=
  (h.kept hinv).byRegistration_of_mem howned.1 howned.2.1 howned.2.2

private theorem Lawful.keeps_finds (h : q.Lawful K) (hP : ∀ {r r'}, K r r' → P r → P r')
    {rely : CatalogTables → CatalogTables → Prop} (hrely : ∀ t t', rely t t' → ∃ fresh, TablesGrow fresh t t') :
    Keeps CatalogTables.Kept (TablesGrow fun id => ∃ n, id = draw n) rely (q.act draw) (q.finds P) where
  read := by
    intro inside stage next t hinv hfinds hact
    obtain ⟨hknown, hstage⟩ := hfinds
    refine ⟨hknown, ?_⟩
    obtain ⟨hguard, r, howned, hr⟩ := id hknown
    cases stage with
    | called =>
      cases hact
      dsimp only
      rw [hguard]
      trivial
    | searching =>
      cases hact
      dsimp only
      rw [h.byRegistration_known hinv howned]
      exact finds_settle howned hr
    | inserting n => exact hstage.elim
    | refused n => exact hstage.elim
    | inserted id => exact hstage.elim
    | adopting id => cases hact
    | adopted id =>
      cases hact
      obtain ⟨r', howned', hr', hid⟩ := hstage
      dsimp only
      rw [(h.kept hinv).byId_of_mem howned'.1 howned'.2.1 hid]
      exact finds_judge hr'
    | returning record => cases hact
    | raising e => cases hact
  write := by
    intro inside stage run t hinv hfinds hact
    obtain ⟨hknown, hstage⟩ := hfinds
    cases stage with
    | adopting id =>
      cases hact
      obtain ⟨hadopts, hrow⟩ := hstage
      have hkeeps := h.adoptRow_keeps hadopts id
      have hgrows : TablesGrow (fun id => ∃ n, id = draw n) t (q.setRows t ((q.rows t).map (q.adoptRow id))) :=
        h.grows_setRows (.map hkeeps)
      have hkept : q.columns.Kept ((q.rows t).map (q.adoptRow id)) :=
        (h.kept hinv).map (fun r => (h.columns (hkeeps r)).1) (fun r => (h.columns (hkeeps r)).2.1)
          (fun r => (h.columns (hkeeps r)).2.2.1) fun r => (h.columns (hkeeps r)).2.2.2
      have hafter : q.stageFinds P _ (.adopted id) := h.finds_grows hP hgrows hrow
      exact ⟨h.kept_setRows hinv hkept, hgrows, h.known_grows hP hgrows hknown, hafter⟩
    | inserting n => exact hstage.elim
    | refused n => exact hstage.elim
    | inserted id => exact hstage.elim
    | called => cases hact
    | searching => cases hact
    | adopted id => cases hact
    | returning record => cases hact
    | raising e => cases hact
  commit := by
    intro inside stage out t hinv hfinds hact
    cases stage <;> cases hact
    exact hfinds.2
  rollback := by
    intro inside stage out t t' hinv hfinds hact
    cases stage <;> cases hact
    exact hfinds.2
  abandon _ := trivial
  stable := by
    intro status t t' hinv hfinds hrelies
    obtain ⟨fresh, hgrows⟩ := hrely t t' hrelies
    cases status with
    | running stage => exact ⟨h.known_grows hP hgrows hfinds.1, h.finds_grows hP hgrows hfinds.2⟩
    | ended outcome => exact hfinds
    | abandoned => trivial

end Registering

/-! ### Calls of both methods -/

/-- What a call registers. -/
inductive CallFacts
  | machine (user : String) (requested : Machines.Requested)
  | folder (user machineId : String) (requested : RequestedFolder)
  deriving DecidableEq, Repr

/-- The user, the machine of a folder and the registration id. -/
def CallFacts.registration : CallFacts → String × Option String × String
  | .machine user requested => (user, none, requested.registrationId)
  | .folder user machineId requested => (user, some machineId, requested.registrationId)

namespace CatalogCall

def facts : CatalogCall → Except StoreError CallFacts
  | .machine user request _ _ now => do
    let requested ← Machines.requested request
    let _ ← registrationTime now
    return .machine user requested
  | .folder user machineId request now => do
    let requested ← requestedFolder request
    let _ ← registrationTime now
    return .folder user machineId requested

def enrollment : CatalogCall → Option String
  | .machine _ _ enrollmentKeyId _ _ => enrollmentKeyId
  | .folder .. => none

/-- The second call comes with the same metadata, and with no other enrolment key. -/
def Repeats (c c' : CatalogCall) : Prop :=
  ∃ f, c.facts = .ok f ∧ c'.facts = .ok f ∧ (c'.enrollment = none ∨ c'.enrollment = c.enrollment)

/-- The second call comes with the registration id of the first one, and with other metadata. -/
def Reuses (c c' : CatalogCall) : Prop :=
  ∃ f, c.facts = .ok f ∧ ∀ f', c'.facts = .ok f' → f'.registration = f.registration ∧ f' ≠ f

def asserts (nfkd : String → String) (draw : ℕ → String) (c : CatalogCall) (inside : Bool)
    (status : Status CallStage Outcome) (t : CatalogTables) : Prop :=
  match c with
  | .machine user request enrollmentKeyId enrollmentRecovered now =>
    match registeringMachine nfkd user request enrollmentKeyId enrollmentRecovered now with
    | .ok q => q.asserts draw inside status t
    | .error _ => ∀ record, status ≠ .ended (.ok record)
  | .folder user machineId request now =>
    match registeringFolder nfkd user machineId request now with
    | .ok q => q.asserts draw inside status t
    | .error _ => ∀ record, status ≠ .ended (.ok record)

/-- The call makes the statements of this registration. -/
structure Performs {R Ω : Type} [DecidableEq Ω] (nfkd : String → String) (c : CatalogCall) (q : Registering R Ω)
    (K : R → R → Prop) : Prop where
  act : ∀ draw, c.act nfkd draw = q.act draw
  asserts : ∀ draw, c.asserts nfkd draw = q.asserts draw
  start : c.start = .called ∨ c.start = .searching ∧ ∀ t, q.guard t = .ok ()
  lawful : q.Lawful K
  empty : q.rows ⟨[], []⟩ = []

/-- The texts of the call are not valid. -/
structure Refused (nfkd : String → String) (c : CatalogCall) : Prop where
  act : ∃ e, ∀ draw stage, c.act nfkd draw stage = .rollback (.error e)
  asserts : ∀ draw inside status t, c.asserts nfkd draw inside status t ↔ ∀ record, status ≠ .ended (.ok record)

theorem facts_machine {nfkd : String → String} {c : CatalogCall} {user : String} {requested : Machines.Requested}
    (h : c.facts = .ok (.machine user requested)) : ∃ q : Registering MachineRow String,
      c.Performs nfkd q MachineRow.Keeps ∧ q.owner = user ∧ q.registration = requested.registrationId ∧
        q.verdict = machineVerdict requested c.enrollment ∧ q.rows = CatalogTables.machines ∧
        q.columns = machineColumns ∧ (∀ t, q.guard t = .ok ()) ∧
        ∀ r, q.adopt r = { r with enrollmentKeyId := c.enrollment } := by
  cases c with
  | folder user' machineId request now =>
    obtain ⟨requested', -, h⟩ := Program.bind_eq_ok.1 h
    obtain ⟨registeredAt, -, h⟩ := Program.bind_eq_ok.1 h
    cases h
  | machine user' request enrollmentKeyId enrollmentRecovered now =>
    obtain ⟨requested', hrequested, h⟩ := Program.bind_eq_ok.1 h
    obtain ⟨registeredAt, htime, h⟩ := Program.bind_eq_ok.1 h
    cases h
    cases hq : registeringMachine nfkd user request enrollmentKeyId enrollmentRecovered now with
    | error e =>
      unfold registeringMachine at hq
      rw [hrequested, htime] at hq
      cases hq
    | ok q =>
      obtain ⟨hlawful, requested', hrequested', howner, hregistration, hverdict, hrows, hcolumns, hguard, hadopt⟩ :=
        registeringMachine_ok hq
      rw [hrequested] at hrequested'
      cases hrequested'
      refine ⟨q, ⟨fun draw => ?_, fun draw => ?_, .inr ⟨rfl, hguard⟩, hlawful, ?_⟩, howner, hregistration, hverdict,
        hrows, hcolumns, hguard, hadopt⟩
      · funext stage
        unfold act
        dsimp only
        rw [hq]
      · funext inside status t
        unfold asserts
        dsimp only
        rw [hq]
      · rw [hrows]

theorem facts_folder {nfkd : String → String} {c : CatalogCall} {user machineId : String} {requested : RequestedFolder}
    (h : c.facts = .ok (.folder user machineId requested)) : ∃ q : Registering FolderRow (String × String),
      c.Performs nfkd q Eq ∧ q.owner = (user, machineId) ∧ q.registration = requested.registrationId ∧
        (q.verdict = fun r => ((replayFolder r requested).map Record.folder).mapError RegistrationError.raised) ∧
        q.rows = CatalogTables.folders ∧ q.columns = folderColumns ∧
        ∀ t, q.guard t = ((Machines.machine t.machines user machineId).map fun _ => ()).mapError .raised := by
  cases c with
  | machine user' request enrollmentKeyId enrollmentRecovered now =>
    obtain ⟨requested', -, h⟩ := Program.bind_eq_ok.1 h
    obtain ⟨registeredAt, -, h⟩ := Program.bind_eq_ok.1 h
    cases h
  | folder user' machineId' request now =>
    obtain ⟨requested', hrequested, h⟩ := Program.bind_eq_ok.1 h
    obtain ⟨registeredAt, htime, h⟩ := Program.bind_eq_ok.1 h
    cases h
    cases hq : registeringFolder nfkd user machineId request now with
    | error e =>
      unfold registeringFolder at hq
      rw [hrequested, htime] at hq
      cases hq
    | ok q =>
      obtain ⟨hlawful, requested', hrequested', howner, hregistration, hverdict, hrows, hcolumns, hguard⟩ :=
        registeringFolder_ok hq
      rw [hrequested] at hrequested'
      cases hrequested'
      refine ⟨q, ⟨fun draw => ?_, fun draw => ?_, .inl rfl, hlawful, ?_⟩, howner, hregistration, hverdict,
        hrows, hcolumns, hguard⟩
      · funext stage
        unfold act
        dsimp only
        rw [hq]
      · funext inside status t
        unfold asserts
        dsimp only
        rw [hq]
      · rw [hrows]

theorem facts_error {nfkd : String → String} {c : CatalogCall} {e : StoreError} (h : c.facts = .error e) :
    c.Refused nfkd := by
  cases c with
  | machine user request enrollmentKeyId enrollmentRecovered now =>
    cases hq : registeringMachine nfkd user request enrollmentKeyId enrollmentRecovered now with
    | ok q =>
      obtain ⟨requested, hrequested, hq⟩ := Program.bind_eq_ok.1 hq
      obtain ⟨registeredAt, htime, -⟩ := Program.bind_eq_ok.1 hq
      unfold facts at h
      dsimp only at h
      rw [hrequested, htime] at h
      cases h
    | error e' =>
      refine ⟨⟨.raised (.raised e'), fun draw stage => ?_⟩, fun draw inside status t => ?_⟩
      · unfold act
        dsimp only
        rw [hq]
      · unfold asserts
        dsimp only
        rw [hq]
  | folder user machineId request now =>
    cases hq : registeringFolder nfkd user machineId request now with
    | ok q =>
      obtain ⟨requested, hrequested, hq⟩ := Program.bind_eq_ok.1 hq
      obtain ⟨registeredAt, htime, -⟩ := Program.bind_eq_ok.1 hq
      unfold facts at h
      dsimp only at h
      rw [hrequested, htime] at h
      cases h
    | error e' =>
      refine ⟨⟨.raised (.raised e'), fun draw stage => ?_⟩, fun draw inside status t => ?_⟩
      · unfold act
        dsimp only
        rw [hq]
      · unfold asserts
        dsimp only
        rw [hq]

theorem performs_or_refused (nfkd : String → String) (c : CatalogCall) :
    (∃ (R Ω : Type) (_ : DecidableEq Ω) (q : Registering R Ω) (K : R → R → Prop), c.Performs nfkd q K) ∨
      c.Refused nfkd := by
  cases hfacts : c.facts with
  | error e => exact .inr (facts_error hfacts)
  | ok f =>
    left
    cases f with
    | machine user requested =>
      obtain ⟨q, hperforms, -⟩ := facts_machine hfacts
      exact ⟨_, _, _, q, _, hperforms⟩
    | folder user machineId requested =>
      obtain ⟨q, hperforms, -⟩ := facts_folder hfacts
      exact ⟨_, _, _, q, _, hperforms⟩

variable {R Ω : Type} [DecidableEq Ω] {nfkd : String → String} {c : CatalogCall} {q : Registering R Ω}
    {K : R → R → Prop}
  {draw : ℕ → String} {t : CatalogTables}

private theorem Refused.keeps (h : c.Refused nfkd) {guarantee rely : CatalogTables → CatalogTables → Prop} :
    Keeps CatalogTables.Kept guarantee rely (c.act nfkd draw) (c.asserts nfkd draw) := by
  obtain ⟨e, hact⟩ := h.act
  have hnot : ∀ {status : Status CallStage Outcome} {inside t}, (∀ record, status ≠ .ended (.ok record)) →
      c.asserts nfkd draw inside status t := fun hne => (h.asserts _ _ _ _).2 hne
  refine ⟨fun _ _ hread => ?_, fun _ _ hwrite => ?_, fun _ _ hcommit => ?_, fun _ _ hrollback => ?_, fun _ => ?_,
    fun _ hasserts _ => ?_⟩
  · rw [hact] at hread
    cases hread
  · rw [hact] at hwrite
    cases hwrite
  · rw [hact] at hcommit
    cases hcommit
  · rw [hact] at hrollback
    cases hrollback
    exact hnot fun record => by simp
  · exact hnot fun record => by simp
  · exact hnot ((h.asserts _ _ _ _).1 hasserts)

private theorem keeps (c : CatalogCall) {rely : CatalogTables → CatalogTables → Prop}
    (hrely : ∀ t t', rely t t' → ∃ fresh : String → Prop, (∀ n, ¬fresh (draw n)) ∧ TablesGrow fresh t t') :
    Keeps CatalogTables.Kept (TablesGrow fun id => ∃ n, id = draw n) rely (c.act nfkd draw) (c.asserts nfkd draw) := by
  rcases performs_or_refused nfkd c with ⟨R, Ω, hdec, q, K, hperforms⟩ | hrefused
  · rw [hperforms.act, hperforms.asserts]
    exact hperforms.lawful.keeps hrely
  · exact hrefused.keeps

private theorem asserts_start (c : CatalogCall) : c.asserts nfkd draw false (.running c.start) ⟨[], []⟩ := by
  rcases performs_or_refused nfkd c with ⟨R, Ω, hdec, q, K, hperforms⟩ | hrefused
  · rw [hperforms.asserts]
    have hunused : q.Unused draw ⟨[], []⟩ := by
      intro r hr
      rw [hperforms.empty] at hr
      cases hr
    rcases hperforms.start with hstart | ⟨hstart, hguard⟩
    · rw [hstart]
      exact ⟨rfl, hunused⟩
    · rw [hstart]
      exact ⟨rfl, hunused, hguard _⟩
  · exact (hrefused.asserts _ _ _ _).2 fun record => by simp

/-- A call begins outside a transaction. -/
private theorem Performs.not_inside (h : c.Performs nfkd q K) : ¬c.asserts nfkd draw true (.running c.start) t := by
  intro hasserts
  rw [h.asserts] at hasserts
  rcases h.start with hstart | ⟨hstart, -⟩
  · rw [hstart] at hasserts
    cases hasserts.1
  · rw [hstart] at hasserts
    cases hasserts.1

private theorem rank_start_le (c : CatalogCall) : c.start.rank ≤ 2 * maxRows + 13 := by
  cases c with
  | machine user request enrollmentKeyId enrollmentRecovered now => exact Nat.le_succ _
  | folder user machineId request now => exact le_rfl

end CatalogCall

section

variable {ι : Type} [DecidableEq ι] {nfkd : String → String} {draw : ι × ℕ ↪ String} {calls : ι → CatalogCall}

/-- Every call guarantees that it only comes with uuids of its own. -/
def catalogOutline (nfkd : String → String) (draw : ι × ℕ ↪ String) (calls : ι → CatalogCall) :
    Outline (catalogAct nfkd draw calls) where
  inv := CatalogTables.Kept
  guarantee i := TablesGrow fun id => ∃ n, id = draw (i, n)
  asserts i := (calls i).asserts nfkd fun n => draw (i, n)
  refl _ := TablesGrow.refl
  trans := TablesGrow.trans
  keeps i := by
    refine (calls i).keeps fun t t' hrely => ?_
    obtain ⟨j, hj, hgrows⟩ := hrely
    refine ⟨_, fun n hfresh => ?_, hgrows⟩
    obtain ⟨m, heq⟩ := hfresh
    have hsame : (i, n) = (j, m) := draw.injective heq
    cases hsame
    exact hj rfl

omit [DecidableEq ι] in
theorem catalogOutline_asserts (i : ι) :
    (catalogOutline nfkd draw calls).asserts i = (calls i).asserts nfkd fun n => draw (i, n) := by
  unfold catalogOutline
  rfl

omit [DecidableEq ι] in
private theorem catalogOutline_start : (catalogOutline nfkd draw calls).Holds (catalogStart calls) := by
  refine ⟨⟨⟨.nil, Nat.zero_le _, ?_⟩, .nil, Nat.zero_le _, ?_⟩, ?_, ?_⟩
  · intro r hr
    cases hr
  · intro r hr
    cases hr
  · intro i _
    rw [catalogOutline_asserts]
    exact (calls i).asserts_start
  · intro i d hwriter
    cases hwriter

theorem catalogOutline_run (events : List (Event ι)) :
    (catalogOutline nfkd draw calls).Holds (catalogRun nfkd draw calls events) := catalogOutline_start.run events

/-! ### Every call ends -/

theorem catalog_taken_le (i : ι) (events : List (Event ι)) :
    State.taken (catalogAct nfkd draw calls) i events (catalogStart calls) ≤ 2 * maxRows + 13 := by
  have hstart : (catalogOutline nfkd draw calls).Holds (catalogStart calls) := catalogOutline_start
  refine le_trans (hstart.taken_le ?_ ?_ CallStage.rank_pos events) (calls i).rank_start_le
  · intro inside stage next t hinv hasserts hact
    rcases CatalogCall.performs_or_refused nfkd (calls i) with ⟨R, Ω, hdec, q, K, hperforms⟩ | hrefused
    · have hasserts : (calls i).asserts nfkd (fun n => draw (i, n)) inside (.running stage) t := hasserts
      have hact : (calls i).act nfkd (fun n => draw (i, n)) stage = .read next := hact
      rw [hperforms.asserts] at hasserts
      rw [hperforms.act] at hact
      exact hperforms.lawful.rank_read hinv hasserts hact
    · obtain ⟨e, hrollback⟩ := hrefused.act
      have hact : (calls i).act nfkd (fun n => draw (i, n)) stage = .read next := hact
      rw [hrollback] at hact
      cases hact
  · intro inside stage run t hinv hasserts hact
    rcases CatalogCall.performs_or_refused nfkd (calls i) with ⟨R, Ω, hdec, q, K, hperforms⟩ | hrefused
    · have hact : (calls i).act nfkd (fun n => draw (i, n)) stage = .write run := hact
      rw [hperforms.act] at hact
      exact Registering.rank_write hact
    · obtain ⟨e, hrollback⟩ := hrefused.act
      have hact : (calls i).act nfkd (fun n => draw (i, n)) stage = .write run := hact
      rw [hrollback] at hact
      cases hact

/-! ### Calls that come again -/

private theorem replay_outcome {R Ω : Type} [DecidableEq Ω] {q : Registering R Ω} {K : R → R → Prop} {P : R → Prop}
    {j : ι} (hperforms : (calls j).Performs nfkd q K) (hP : ∀ {r r'}, K r r' → P r → P r') {s : CatalogState ι}
    (hs : (catalogOutline nfkd draw calls).Holds s) (hbegun : s.status j = .running (calls j).start)
    (hknown : q.Known P s.committed) (events : List (Event ι)) :
    ∀ outcome, (s.run (catalogAct nfkd draw calls) events).status j = .ended outcome →
      ∃ r, P r ∧ q.verdict r = outcome := by
  have hact : catalogAct nfkd draw calls j = q.act fun n => draw (j, n) := hperforms.act _
  have hkeeps : Keeps CatalogTables.Kept (TablesGrow fun id => ∃ n, id = draw (j, n))
      (fun t t' => ∃ k, k ≠ j ∧ TablesGrow (fun id => ∃ n, id = draw (k, n)) t t') (catalogAct nfkd draw calls j)
      (q.finds P) := by
    rw [hact]
    refine hperforms.lawful.keeps_finds hP fun t t' hrely => ?_
    obtain ⟨k, -, hgrows⟩ := hrely
    exact ⟨_, hgrows⟩
  have hout : ∀ d, s.writer ≠ some (j, d) := by
    intro d hwriter
    obtain ⟨-, -, stage, hrunning, hasserts⟩ := hs.inside j d hwriter
    rw [hbegun] at hrunning
    cases hrunning
    rw [catalogOutline_asserts] at hasserts
    exact hperforms.not_inside hasserts
  have hfinds : q.finds P false (s.status j) s.committed := by
    rw [hbegun]
    refine ⟨hknown, ?_⟩
    rcases hperforms.start with hstart | ⟨hstart, -⟩
    · rw [hstart]
      trivial
    · rw [hstart]
      trivial
  have hruns : ((catalogOutline nfkd draw calls).replace j (q.finds P) hkeeps).Holds
      (s.run (catalogAct nfkd draw calls) events) := (hs.replace hout hfinds).run events
  have hasserts : ((catalogOutline nfkd draw calls).replace j (q.finds P) hkeeps).asserts j = q.finds P :=
    Function.update_self _ _ _
  intro outcome hended
  have houtcome := hruns.ended hended
  rw [hasserts] at houtcome
  exact houtcome

omit [DecidableEq ι] in
/-- What the record of a call that has ended tells of the tables, for the call that comes again. -/
theorem known_of_ended {i : ι} {s : CatalogState ι} {record : Record} {f : CallFacts}
    (hs : (catalogOutline nfkd draw calls).Holds s) (hended : s.status i = .ended (.ok record))
    (hfacts : (calls i).facts = .ok f) :
    (∀ user requested, f = .machine user requested → ∃ r ∈ s.committed.machines, r.userId = user ∧
      r.localRegistrationId = requested.registrationId ∧ machineVerdict requested (calls i).enrollment r = .ok record) ∧
    (∀ user machineId requested, f = .folder user machineId requested → ∃ r ∈ s.committed.folders,
      (r.userId, r.machineId) = (user, machineId) ∧ r.localRegistrationId = requested.registrationId ∧
      ((replayFolder r requested).map Record.folder).mapError RegistrationError.raised = .ok record ∧
      ((Machines.machine s.committed.machines user machineId).map fun _ => ()).mapError RegistrationError.raised =
        .ok ()) := by
  have hasserts := hs.ended hended
  rw [catalogOutline_asserts] at hasserts
  constructor
  · intro user requested hf
    rw [hf] at hfacts
    obtain ⟨q, hperforms, howner, hregistration, hverdict, hrows, hcolumns, -⟩ := CatalogCall.facts_machine hfacts
    rw [hperforms.asserts] at hasserts
    obtain ⟨-, r, hown, hrecord⟩ := hasserts
    obtain ⟨hr, hro, hrr⟩ := (Registering.owned_iff hrows hcolumns).1 hown
    rw [hverdict] at hrecord
    exact ⟨r, hr, hro.trans howner, hrr.trans hregistration, hrecord⟩
  · intro user machineId requested hf
    rw [hf] at hfacts
    obtain ⟨q, hperforms, howner, hregistration, hverdict, hrows, hcolumns, hguards⟩ :=
      CatalogCall.facts_folder hfacts
    rw [hperforms.asserts] at hasserts
    obtain ⟨hguard, r, hown, hrecord⟩ := hasserts
    obtain ⟨hr, hro, hrr⟩ := (Registering.owned_iff hrows hcolumns).1 hown
    rw [hverdict] at hrecord
    rw [hguards] at hguard
    exact ⟨r, hr, hro.trans howner, hrr.trans hregistration, hrecord, hguard⟩

theorem repeats_outcome {i j : ι} {s : CatalogState ι} {record : Record}
    (hs : (catalogOutline nfkd draw calls).Holds s) (hended : s.status i = .ended (.ok record))
    (hbegun : s.status j = .running (calls j).start) (hrepeats : (calls i).Repeats (calls j)) (events : List (Event ι))
    {outcome : Outcome} (houtcome : (s.run (catalogAct nfkd draw calls) events).status j = .ended outcome) :
    outcome = .ok record := by
  obtain ⟨f, hfacts, hfacts', hkey⟩ := hrepeats
  obtain ⟨hmachine, hfolder⟩ := known_of_ended hs hended hfacts
  cases f with
  | machine user requested =>
    obtain ⟨r, hr, howner, hregistration, hrecord⟩ := hmachine user requested rfl
    obtain ⟨q, hperforms, howner', hregistration', hverdict, hrows, hcolumns, hguard, -⟩ :=
      CatalogCall.facts_machine hfacts'
    have hagain : q.verdict r = .ok record := by
      obtain ⟨hsame, hreplays, hshown⟩ := machineVerdict_ok.1 hrecord
      rw [hverdict]
      refine machineVerdict_ok.2 ⟨?_, hreplays, hshown⟩
      rcases hkey with hnone | heq
      · exact .inl hnone
      · rw [heq]
        exact hsame
    have hown : q.Owned s.committed r := (Registering.owned_iff hrows hcolumns).2
      ⟨hr, howner.trans howner'.symm, hregistration.trans hregistration'.symm⟩
    have hknown : q.Known (fun r => q.verdict r = .ok record) s.committed := ⟨hguard _, r, hown, hagain⟩
    obtain ⟨r', hr', hverdict'⟩ :=
      replay_outcome hperforms hperforms.lawful.verdict_kept hs hbegun hknown events outcome houtcome
    exact hverdict'.symm.trans hr'
  | folder user machineId requested =>
    obtain ⟨r, hr, howner, hregistration, hrecord, hguard⟩ := hfolder user machineId requested rfl
    obtain ⟨q, hperforms, howner', hregistration', hverdict, hrows, hcolumns, hguard'⟩ :=
      CatalogCall.facts_folder hfacts'
    have hagain : q.verdict r = .ok record := by
      rw [hverdict]
      exact hrecord
    have hown : q.Owned s.committed r := (Registering.owned_iff hrows hcolumns).2
      ⟨hr, howner.trans howner'.symm, hregistration.trans hregistration'.symm⟩
    have hknown : q.Known (fun r => q.verdict r = .ok record) s.committed :=
      ⟨(hguard' _).trans hguard, r, hown, hagain⟩
    obtain ⟨r', hr', hverdict'⟩ :=
      replay_outcome hperforms hperforms.lawful.verdict_kept hs hbegun hknown events outcome houtcome
    exact hverdict'.symm.trans hr'

/-- A row that replays one registration replays no other with the same id. -/
theorem replays_eq {r r' : MachineRow} {q q' : Machines.Requested} (hkeeps : r.Keeps r') (h : Machines.Replays r q)
    (h' : Machines.Replays r' q') (hid : q'.registrationId = q.registrationId) : q' = q := by
  rw [hkeeps.1] at h'
  obtain ⟨hname, hdescription, hplatform, hversion⟩ := h
  obtain ⟨hname', hdescription', hplatform', hversion'⟩ := h'
  cases q
  cases q'
  rw [Machines.Requested.mk.injEq]
  exact ⟨hid, hname'.symm.trans hname, hdescription'.symm.trans hdescription, hplatform'.symm.trans hplatform,
    hversion'.symm.trans hversion⟩

theorem replaysFolder_eq {r : FolderRow} {q q' : RequestedFolder}
    (h : r.registrationName = q.name ∧ r.registrationDescription = q.description)
    (h' : r.registrationName = q'.name ∧ r.registrationDescription = q'.description)
    (hid : q'.registrationId = q.registrationId) : q' = q := by
  obtain ⟨hname, hdescription⟩ := h
  obtain ⟨hname', hdescription'⟩ := h'
  cases q
  cases q'
  rw [RequestedFolder.mk.injEq]
  exact ⟨hid, hname'.symm.trans hname, hdescription'.symm.trans hdescription⟩

end

end Ctxd

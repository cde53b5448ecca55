import Ctxd.CatalogReplays

/-!
# Registrations that overlap

Two calls of one registration may both look for its row before either has inserted it.  The one that comes too late
finds the row when its insertion breaks a key of the table, and answers as a call that comes again.  A call raises only
for what is committed at one of its statements: its table is full, or it does not take the row of its registration
(`Registering.Lawful.raises`).  With this, whatever the order of the statements of all calls, every call ends after
boundedly many statements, the tables keep their keys, no key changes, calls with the same metadata return the same
record, and of two calls with other metadata one raises and changes nothing (`registrations_hold`).
-/

namespace Ctxd

open Sessions

/-! ### What a call has done -/

namespace Registering

variable {R Ω : Type} [DecidableEq Ω] {q : Registering R Ω} {K : R → R → Prop} {draw : ℕ → String}
  {t d : CatalogTables} {r : R}

/-- Before its first write. -/
def out (q : Registering R Ω) : CallStage → Prop
  | .refused _ | .adopted _ | .inserted _ => False
  | .adopting _ => q.adopts = true
  | .called | .searching | .inserting _ | .returning _ | .raising _ => True

/-- What the call has done to the tables `t`, in which it sees `d`. -/
def did (q : Registering R Ω) (stage : CallStage) (t d : CatalogTables) : Prop :=
  match stage with
  | .called | .searching | .inserting _ | .refused _ => d = t
  | .adopting _ => q.adopts = true ∧ d = t
  | .adopted id => q.adopts = true ∧ d = q.setRows t ((q.rows t).map (q.adoptRow id))
  | .inserted _ | .returning _ | .raising _ => True

omit [DecidableEq Ω] in
private theorem out_judge (r : R) : q.out (q.judge r) := by
  unfold judge
  split <;> trivial

omit [DecidableEq Ω] in
private theorem out_settle (r : R) : q.out (q.settle r) := by
  unfold settle
  split
  · rename_i hadopts
    rw [Bool.and_eq_true] at hadopts
    exact hadopts.1
  · exact out_judge r

private theorem did_judge (r : R) : q.did (q.judge r) t d := by
  unfold judge
  split <;> trivial

private theorem did_settle (r : R) : q.did (q.settle r) t t := by
  unfold settle
  split
  · rename_i hadopts
    rw [Bool.and_eq_true] at hadopts
    exact ⟨hadopts.1, rfl⟩
  · exact did_judge r

private theorem tracks (q : Registering R Ω) : Tracks (q.act draw) q.out q.did where
  start := by
    intro stage t hout
    cases stage with
    | called => rfl
    | searching => rfl
    | inserting n => rfl
    | adopting id => exact ⟨hout, rfl⟩
    | returning record => trivial
    | raising e => trivial
    | refused n => exact hout.elim
    | adopted id => exact hout.elim
    | inserted id => exact hout.elim
  read_out := by
    intro stage next t hout hact
    cases stage with
    | called =>
      cases hact
      dsimp only
      split <;> trivial
    | searching =>
      cases hact
      dsimp only
      split
      · exact out_settle _
      · trivial
    | refused n => exact hout.elim
    | adopted id => exact hout.elim
    | inserted id => exact hout.elim
    | inserting n => cases hact
    | adopting id => cases hact
    | returning record => cases hact
    | raising e => cases hact
  read := by
    intro stage next t d hdid hact
    cases stage with
    | called =>
      cases hact
      dsimp only
      split
      · exact hdid
      · trivial
    | searching =>
      cases hact
      obtain rfl : d = t := hdid
      dsimp only
      split
      · exact did_settle _
      · rfl
    | refused n =>
      cases hact
      obtain rfl : d = t := hdid
      dsimp only
      split
      · exact did_settle _
      · rfl
    | adopted id =>
      cases hact
      dsimp only
      split
      · exact did_judge _
      · trivial
    | inserted id =>
      cases hact
      dsimp only
      split <;> trivial
    | inserting n => cases hact
    | adopting id => cases hact
    | returning record => cases hact
    | raising e => cases hact
  write := by
    intro stage run t d hdid hact
    cases stage with
    | inserting n =>
      cases hact
      unfold insert
      split
      · trivial
      · dsimp only
        split
        · exact hdid
        · trivial
    | adopting id =>
      cases hact
      obtain ⟨hadopts, rfl⟩ := hdid
      exact ⟨hadopts, rfl⟩
    | called => cases hact
    | searching => cases hact
    | refused n => cases hact
    | adopted id => cases hact
    | inserted id => cases hact
    | returning record => cases hact
    | raising e => cases hact

/-! ### Why a call raises -/

/-- What is committed while a call raises: its table is full, or it does not take the row of its registration, as it is
or as the call adopts it. -/
def Blames (q : Registering R Ω) (e : RegistrationError) (t : CatalogTables) : Prop :=
  e = .full ∧ maxRows ≤ (q.rows t).length ∨
    ∃ r, q.Owned t r ∧ (q.verdict r = .error e ∨
      (q.adopts = true ∧ q.vacant r = true) ∧ q.verdict (q.adopt r) = .error e)

omit [DecidableEq Ω] in
private theorem verdict_of_judge {e : RegistrationError} (h : q.judge r = .raising e) : q.verdict r = .error e := by
  unfold judge at h
  cases hverdict : q.verdict r with
  | ok record =>
    rw [hverdict] at h
    cases h
  | error e' =>
    rw [hverdict] at h
    cases h
    rfl

omit [DecidableEq Ω] in
private theorem verdict_of_settle {e : RegistrationError} (h : q.settle r = .raising e) : q.verdict r = .error e := by
  unfold settle at h
  split at h
  · cases h
  · exact verdict_of_judge h

private theorem Lawful.raises (h : q.Lawful K) {inside : Bool} {stage : CallStage} {e : RegistrationError}
    (hinv : d.Kept)
    (hasserts : q.stageAsserts draw inside d stage) (hguard : q.guard d = .ok ()) (hdid : q.did stage t d)
    (hafter : (q.act draw stage).after d = .running (.raising e)) : q.Blames e t := by
  have hfound : ∀ {r}, d = t → q.columns.byRegistration (q.rows d) q.owner q.registration = some r →
      q.settle r = .raising e → q.Blames e t := by
    rintro r rfl hr hsettle
    exact .inr ⟨r, Columns.mem_of_byRegistration hr, .inl (verdict_of_settle hsettle)⟩
  cases stage with
  | called =>
    have hnext := Status.running.inj hafter
    dsimp only at hnext
    rw [hguard] at hnext
    cases hnext
  | searching =>
    have hnext := Status.running.inj hafter
    dsimp only at hnext
    cases hr : q.columns.byRegistration (q.rows d) q.owner q.registration with
    | some r =>
      rw [hr] at hnext
      exact hfound hdid hr hnext
    | none =>
      rw [hr] at hnext
      cases hnext
  | refused n =>
    have hnext := Status.running.inj hafter
    dsimp only at hnext
    cases hr : q.columns.byRegistration (q.rows d) q.owner q.registration with
    | some r =>
      rw [hr] at hnext
      exact hfound hdid hr hnext
    | none =>
      rw [hr] at hnext
      cases hnext
  | inserting n =>
    obtain rfl : d = t := hdid
    have hnext := Status.running.inj hafter
    unfold insert at hnext
    split at hnext
    · rename_i hfull
      cases hnext
      exact .inl ⟨rfl, hfull⟩
    · dsimp only at hnext
      split at hnext <;> cases hnext
  | adopting id => cases hafter
  | adopted id =>
    obtain ⟨hadopts, rfl⟩ := hdid
    obtain ⟨-, -, r, howned, hid⟩ := hasserts
    have hnext := Status.running.inj hafter
    dsimp only at hnext
    rw [(h.kept hinv).byId_of_mem howned.1 howned.2.1 hid] at hnext
    have hverdict := verdict_of_judge hnext
    obtain ⟨hr, howner, hregistration⟩ := howned
    rw [h.rows_setRows] at hr
    obtain ⟨r₀, hr₀, rfl⟩ := List.mem_map.1 hr
    obtain ⟨howner', -, -, hregistration'⟩ := h.columns (h.adoptRow_keeps hadopts id r₀)
    refine .inr ⟨r₀, ⟨hr₀, howner'.symm.trans howner, hregistration'.symm.trans hregistration⟩, ?_⟩
    unfold adoptRow at hverdict
    split at hverdict
    · rename_i hrow
      rw [Bool.and_eq_true] at hrow
      exact .inr ⟨⟨hadopts, hrow.2⟩, hverdict⟩
    · exact .inl hverdict
  | inserted id =>
    obtain ⟨-, -, r, howned, hid, -⟩ := hasserts
    have hnext := Status.running.inj hafter
    dsimp only at hnext
    rw [(h.kept hinv).byId_of_mem howned.1 howned.2.1 hid] at hnext
    cases hnext
  | returning record => cases hafter
  | raising e' => cases hafter

/-- A table does not get smaller. -/
private theorem Lawful.length_le (h : q.Lawful K) {fresh : String → Prop} (hinv : t.Kept)
    (hgrows : TablesGrow fresh t d) :
    (q.rows t).length ≤ (q.rows d).length := by
  have hnodup : ((q.rows t).map fun r => (q.columns.owner r, q.columns.id r)).Nodup := by
    refine List.pairwise_map.2 ((h.kept hinv).apart.imp fun {r r'} hfalse heq => ?_)
    rw [← Bool.not_eq_true, Columns.clash_iff] at hfalse
    rw [Prod.mk.injEq] at heq
    exact hfalse ⟨heq.1.symm, .inl heq.2.symm⟩
  have hsubset : ((q.rows t).map fun r => (q.columns.owner r, q.columns.id r)) ⊆
      (q.rows d).map fun r => (q.columns.owner r, q.columns.id r) := by
    intro p hp
    obtain ⟨r, hr, rfl⟩ := List.mem_map.1 hp
    obtain ⟨r', hr', hkeeps⟩ := (h.grows hgrows).kept r hr
    obtain ⟨howner, hid, -⟩ := h.columns hkeeps
    exact List.mem_map.2 ⟨r', hr', by rw [howner, hid]⟩
  simpa using hnodup.length_le_of_subset hsubset

end Registering

/-! ### Calls in a run -/

private theorem TablesGrow.any {fresh : String → Prop} {t t' : CatalogTables} (h : TablesGrow fresh t t') :
    TablesGrow (fun _ => True) t t' :=
  ⟨⟨h.machines.kept, fun r hr => (h.machines.came r hr).imp_right fun _ => trivial⟩,
    ⟨h.folders.kept, fun r hr => (h.folders.came r hr).imp_right fun _ => trivial⟩⟩

namespace CatalogCall

/-- The machine of a folder is registered. -/
def Addressed (c : CatalogCall) (t : CatalogTables) : Prop :=
  match c with
  | .machine .. => True
  | .folder user machineId _ _ => ∃ r ∈ t.machines, r.userId = user ∧ r.machineId = machineId

/-- The table of the call is full. -/
def Full (c : CatalogCall) (t : CatalogTables) : Prop :=
  match c with
  | .machine .. => t.machines.length = maxRows
  | .folder .. => t.folders.length = maxRows

/-- Only a record is committed. -/
private theorem commit_ok {nfkd : String → String} {draw : ℕ → String} {c : CatalogCall} {stage : CallStage}
    {out : Outcome} (h : c.act nfkd draw stage = .commit out) : ∃ record, out = .ok record := by
  rcases performs_or_refused nfkd c with ⟨R, Ω, hdec, q, K, hperforms⟩ | hrefused
  · rw [hperforms.act] at h
    cases stage <;> cases h
    exact ⟨_, rfl⟩
  · obtain ⟨e, hact⟩ := hrefused.act
    rw [hact] at h
    cases h

end CatalogCall

section

variable {ι : Type} [DecidableEq ι] {nfkd : String → String} {draw : ι × ℕ ↪ String} {calls : ι → CatalogCall}
  {i j : ι}

private theorem catalogRun_append (events events' : List (Event ι)) : catalogRun nfkd draw calls (events ++ events') =
    (catalogRun nfkd draw calls events).run (catalogAct nfkd draw calls) events' := State.run_append _ _ _ _

private theorem grows_run (events events' : List (Event ι)) : TablesGrow (fun _ => True)
    (catalogRun nfkd draw calls events).committed (catalogRun nfkd draw calls (events ++ events')).committed := by
  rw [catalogRun_append]
  have hs : (catalogOutline nfkd draw calls).Holds (catalogRun nfkd draw calls events) := catalogOutline_run events
  refine hs.run_committed TablesGrow.refl (fun h h' => h.trans h') (fun {k t t'} hguarantee => ?_) events'
  have hgrows : TablesGrow (fun id => ∃ n, id = draw (k, n)) t t' := hguarantee
  exact hgrows.any

/-- Only of one call it is said what it has done. -/
private theorem catalog_tracks {R Ω : Type} [DecidableEq Ω] {q : Registering R Ω} {K : R → R → Prop}
    (hperforms : (calls j).Performs nfkd q K) (k : ι) :
    Tracks (catalogAct nfkd draw calls k) (Function.update (fun _ _ => True) j q.out k)
      (Function.update (fun _ _ _ _ => True) j q.did k) := by
  by_cases hk : k = j
  · subst hk
    rw [Function.update_self, Function.update_self]
    have hact : catalogAct nfkd draw calls k = q.act fun n => draw (k, n) := hperforms.act _
    rw [hact]
    exact q.tracks
  · rw [Function.update_of_ne hk, Function.update_of_ne hk]
    exact ⟨fun _ => trivial, fun _ _ => trivial, fun _ _ => trivial, fun _ _ => trivial⟩

private theorem did_of_running {R Ω : Type} [DecidableEq Ω] {q : Registering R Ω} {K : R → R → Prop}
    (hperforms : (calls j).Performs nfkd q K) {events : List (Event ι)} {stage : CallStage}
    (hrunning : (catalogRun nfkd draw calls events).status j = .running stage) :
    q.did stage (catalogRun nfkd draw calls events).committed ((catalogRun nfkd draw calls events).view j) := by
  have hstart : Tracked (Function.update (fun _ _ => True) j q.out) (Function.update (fun _ _ _ _ => True) j q.did)
      (catalogStart calls) := by
    refine ⟨fun k stage hbegun _ => ?_, fun k d stage hwriter => by cases hwriter⟩
    by_cases hk : k = j
    · subst hk
      rw [Function.update_self]
      cases hbegun
      rcases hperforms.start with hstart | ⟨hstart, -⟩
      · rw [hstart]
        trivial
      · rw [hstart]
        trivial
    · rw [Function.update_of_ne hk]
      trivial
  have htracks : ∀ k, Tracks (catalogAct nfkd draw calls k) (Function.update (fun _ _ => True) j q.out k)
      (Function.update (fun _ _ _ _ => True) j q.did k) := catalog_tracks hperforms
  have hview := (hstart.run htracks events).view htracks hrunning
  rw [Function.update_self] at hview
  exact hview

/-- A call that has raised has done so for what was committed at one of its statements. -/
private theorem blames_of_raised {R Ω : Type} [DecidableEq Ω] {q : Registering R Ω} {K : R → R → Prop}
    (hperforms : (calls j).Performs nfkd q K) {done rest : List (Event ι)} {e : RegistrationError}
    (hbegun : (catalogRun nfkd draw calls done).status j = .running (calls j).start)
    (hguard : q.guard (catalogRun nfkd draw calls done).committed = .ok ())
    (hraised : (catalogRun nfkd draw calls (done ++ rest)).status j = .ended (.error e)) :
    ∃ mid, mid <+: rest ∧ q.Blames e (catalogRun nfkd draw calls (done ++ mid)).committed := by
  have hact : ∀ stage, catalogAct nfkd draw calls j stage = q.act (fun n => draw (j, n)) stage := by
    intro stage
    exact congrFun (hperforms.act _) stage
  have hnot : (calls j).start ≠ .raising e := by
    rcases hperforms.start with hstart | ⟨hstart, -⟩ <;> simp [hstart]
  rw [catalogRun_append] at hraised
  -- the statement that ends the call, and before it the one that makes it raise
  obtain ⟨last, event, hlast, hnotended, hended⟩ := State.exists_step
    (P := fun s : CatalogState ι => s.status j = .ended (.error e)) (by simp [hbegun]) hraised
  have hraising : ((catalogRun nfkd draw calls done).run (catalogAct nfkd draw calls) last).status j =
      .running (.raising e) := by
    rcases State.status_step (catalogAct nfkd draw calls) _ j event with
      hsame | habandoned | ⟨stage, -, hrunning, hafter⟩
    · exact absurd (hsame.symm.trans hended) hnotended
    · rw [habandoned] at hended
      cases hended
    · rw [hended, hact] at hafter
      cases stage <;> cases hafter
      exact hrunning
  obtain ⟨mid, event', hmid, hnotraising, hbecomes⟩ := State.exists_step
    (P := fun s : CatalogState ι => s.status j = .running (.raising e)) (by simpa [hbegun] using hnot) hraising
  have hprefix : mid <+: rest :=
    (List.prefix_append _ _).trans (hmid.trans ((List.prefix_append _ _).trans hlast))
  refine ⟨mid, hprefix, ?_⟩
  rw [← catalogRun_append] at hnotraising hbecomes
  rcases State.status_step (catalogAct nfkd draw calls) _ j event' with
    hsame | habandoned | ⟨stage, -, hrunning, hafter⟩
  · exact absurd (hsame.symm.trans hbecomes) hnotraising
  · rw [habandoned] at hbecomes
    cases hbecomes
  · rw [hbecomes, hact] at hafter
    have hs : (catalogOutline nfkd draw calls).Holds (catalogRun nfkd draw calls (done ++ mid)) := catalogOutline_run _
    obtain ⟨hinv, hguarantee, inside, hasserts⟩ := hs.view hrunning
    rw [catalogOutline_asserts, hperforms.asserts] at hasserts
    have hguards : q.guard ((catalogRun nfkd draw calls (done ++ mid)).view j) = .ok () :=
      hperforms.lawful.guard_grows hguarantee (hperforms.lawful.guard_grows (grows_run done mid) hguard)
    exact hperforms.lawful.raises hinv hasserts hguards (did_of_running hperforms hrunning) hafter.symm

/-! ### Rows of calls without an enrolment key -/

/-- A machine without an enrolment key was registered by a call without one. -/
def Sourced (calls : ι → CatalogCall) (t : CatalogTables) : Prop :=
  ∀ r ∈ t.machines, r.enrollmentKeyId = none → ∃ k requested, (calls k).facts = .ok (.machine r.userId requested) ∧
    r.localRegistrationId = requested.registrationId ∧ Machines.Replays r requested ∧ (calls k).enrollment = none

omit [DecidableEq ι] in
private theorem Sourced.machine {k : ι} {user : String} {request : MachineRegistrationRequest} {key : Option String}
    {recovered : Bool} {now : Int} {q : Registering MachineRow String} {stage : CallStage}
    {run : CatalogTables → CatalogTables × CallStage} {t : CatalogTables} (h : Sourced calls t)
    (hcall : calls k = .machine user request key recovered now)
    (hq : registeringMachine nfkd user request key recovered now = .ok q)
    (hact : q.act (fun n => draw (k, n)) stage = .write run) : Sourced calls (run t).1 := by
  obtain ⟨requested, hrequested, hq⟩ := Program.bind_eq_ok.1 hq
  obtain ⟨registeredAt, htime, hq⟩ := Program.bind_eq_ok.1 hq
  cases hq
  have hfacts : (calls k).facts = .ok (.machine user requested) := by
    rw [hcall]
    unfold CatalogCall.facts
    dsimp only
    rw [hrequested, htime]
    rfl
  have hkey : (calls k).enrollment = key := by
    rw [hcall]
    rfl
  cases stage <;> cases hact
  · unfold Registering.insert
    split
    · exact h
    · dsimp only
      split
      · exact h
      · intro r hr hnone
        rcases List.mem_append.1 hr with hr | hr
        · exact h r hr hnone
        · rw [List.mem_singleton.1 hr] at hnone ⊢
          exact ⟨k, requested, hfacts, rfl, ⟨rfl, rfl, rfl, rfl⟩, hkey.trans hnone⟩
  · intro r hr hnone
    obtain ⟨r₀, hr₀, rfl⟩ := List.mem_map.1 hr
    unfold Registering.adoptRow at hnone ⊢
    split at hnone
    · rename_i hrow
      rw [if_pos hrow]
      rw [Bool.and_eq_true] at hrow
      exact h r₀ hr₀ (Option.isNone_iff_eq_none.1 hrow.2)
    · rename_i hrow
      rw [if_neg hrow]
      exact h r₀ hr₀ hnone

omit [DecidableEq ι] in
private theorem Sourced.folder {k : ι} {user machineId : String} {request : FolderRegistrationRequest} {now : Int}
    {q : Registering FolderRow (String × String)} {stage : CallStage}
    {run : CatalogTables → CatalogTables × CallStage} {t : CatalogTables} (h : Sourced calls t)
    (hq : registeringFolder nfkd user machineId request now = .ok q)
    (hact : q.act (fun n => draw (k, n)) stage = .write run) : Sourced calls (run t).1 := by
  obtain ⟨requested, -, hq⟩ := Program.bind_eq_ok.1 hq
  obtain ⟨registeredAt, -, hq⟩ := Program.bind_eq_ok.1 hq
  cases hq
  cases stage <;> cases hact
  · unfold Registering.insert
    split
    · exact h
    · dsimp only
      split
      · exact h
      · exact h
  · exact h

private theorem sourced_run (events : List (Event ι)) :
    Sourced calls (catalogRun nfkd draw calls events).committed := by
  refine (State.run_keeps (P := Sourced calls) (fun {k stage run t} hact h => ?_) ⟨?_, ?_⟩ events).1
  · unfold catalogAct CatalogCall.act at hact
    cases hcall : calls k with
    | machine user request key recovered now =>
      rw [hcall] at hact
      dsimp only at hact
      split at hact
      · exact h.machine hcall ‹_› hact
      · cases hact
    | folder user machineId request now =>
      rw [hcall] at hact
      dsimp only at hact
      split at hact
      · exact h.folder ‹_› hact
      · cases hact
  · intro r hr
    cases hr
  · intro p hp
    cases hp

/-! ### Calls of one registration -/

/-- What the call answers when another call of the same registration has returned the record: the same record, unless
its table is full, or a call without an enrolment key has registered the machine, and this one, which comes with a key,
has looked at the row before it got the key. -/
inductive Answers (calls : ι → CatalogCall) (j : ι) (record : Record) (t : CatalogTables) : Outcome → Prop
  | returns : Answers calls j record t (.ok record)
  | full (full : (calls j).Full t) : Answers calls j record t (.error .full)
  | keyless {k : ι} (same : (calls k).facts = (calls j).facts) (without : (calls k).enrollment = none)
      (comes : (calls j).enrollment ≠ none) : Answers calls j record t
        (.error (.raised (.catalogConflict "local_registration_id belongs to another enrollment")))

private theorem machineVerdict_error {q : Machines.Requested} {key : Option String} {r : MachineRow}
    {e : RegistrationError} (hreplays : Machines.Replays r q) (h : machineVerdict q key r = .error e) :
    key ≠ none ∧ r.enrollmentKeyId ≠ key ∧
      e = .raised (.catalogConflict "local_registration_id belongs to another enrollment") := by
  unfold machineVerdict at h
  split at h
  · rename_i hother
    cases h
    exact ⟨Option.isSome_iff_ne_none.1 hother.1, hother.2, rfl⟩
  · rw [Machines.replayMachine_ok.2 ⟨hreplays, rfl⟩] at h
    cases h

private theorem CatalogTables.Kept.machine_eq {t : CatalogTables} (h : t.Kept) {r r' : MachineRow} (hr : r ∈ t.machines)
    (hr' : r' ∈ t.machines) (huser : r.userId = r'.userId) (hid : r.localRegistrationId = r'.localRegistrationId) :
    r = r' :=
  h.machines.eq hr hr' (Columns.clash_iff.2 ⟨huser.symm, .inr (.inr hid.symm)⟩)

private theorem CatalogTables.Kept.folder_eq {t : CatalogTables} (h : t.Kept) {r r' : FolderRow} (hr : r ∈ t.folders)
    (hr' : r' ∈ t.folders) (howner : (r.userId, r.machineId) = (r'.userId, r'.machineId))
    (hid : r.localRegistrationId = r'.localRegistrationId) : r = r' :=
  h.folders.eq hr hr' (Columns.clash_iff.2 ⟨howner.symm, .inr (.inr hid.symm)⟩)

omit [DecidableEq ι] in
/-- Two calls with the same metadata return the same record. -/
private theorem record_eq {s : CatalogState ι} {record record' : Record} {f : CallFacts}
    (hs : (catalogOutline nfkd draw calls).Holds s) (hi : s.status i = .ended (.ok record))
    (hj : s.status j = .ended (.ok record')) (hfacts : (calls i).facts = .ok f) (hfacts' : (calls j).facts = .ok f) :
    record' = record := by
  have hinv : s.committed.Kept := hs.inv
  obtain ⟨hmachine, hfolder⟩ := known_of_ended hs hi hfacts
  obtain ⟨hmachine', hfolder'⟩ := known_of_ended hs hj hfacts'
  cases f with
  | machine user requested =>
    obtain ⟨r, hr, huser, hid, hrecord⟩ := hmachine user requested rfl
    obtain ⟨r', hr', huser', hid', hrecord'⟩ := hmachine' user requested rfl
    obtain rfl := hinv.machine_eq hr hr' (huser.trans huser'.symm) (hid.trans hid'.symm)
    exact (machineVerdict_ok.1 hrecord').2.2.trans (machineVerdict_ok.1 hrecord).2.2.symm
  | folder user machineId requested =>
    obtain ⟨r, hr, howner, hid, hrecord, -⟩ := hfolder user machineId requested rfl
    obtain ⟨r', hr', howner', hid', hrecord', -⟩ := hfolder' user machineId requested rfl
    obtain rfl := hinv.folder_eq hr hr' (howner.trans howner'.symm) (hid.trans hid'.symm)
    exact (folderVerdict_ok.1 hrecord').2.trans (folderVerdict_ok.1 hrecord).2.symm

omit [DecidableEq ι] in
/-- Two calls that return a record do not use one registration id with different metadata. -/
private theorem not_reuses {s : CatalogState ι} {record record' : Record}
    (hs : (catalogOutline nfkd draw calls).Holds s)
    (hi : s.status i = .ended (.ok record)) (hj : s.status j = .ended (.ok record')) :
    ¬(calls i).Reuses (calls j) := by
  rintro ⟨f, hfacts, hother⟩
  have hinv : s.committed.Kept := hs.inv
  cases hfacts' : (calls j).facts with
  | error e =>
    have hasserts := hs.ended hj
    rw [catalogOutline_asserts] at hasserts
    exact ((CatalogCall.facts_error hfacts').asserts _ _ _ _).1 hasserts record' rfl
  | ok f' =>
    obtain ⟨hsame, hne⟩ := hother f' hfacts'
    obtain ⟨hmachine, hfolder⟩ := known_of_ended hs hi hfacts
    obtain ⟨hmachine', hfolder'⟩ := known_of_ended hs hj hfacts'
    cases f with
    | machine user requested =>
      cases f' with
      | folder user' machineId' requested' => cases hsame
      | machine user' requested' =>
        simp only [CallFacts.registration, Prod.mk.injEq, true_and] at hsame
        obtain ⟨rfl, hids⟩ := hsame
        obtain ⟨r, hr, huser, hid, hrecord⟩ := hmachine _ requested rfl
        obtain ⟨r', hr', huser', hid', hrecord'⟩ := hmachine' _ requested' rfl
        obtain rfl := hinv.machine_eq hr hr' (huser.trans huser'.symm) (hid.trans (hids.symm.trans hid'.symm))
        have heq := replays_eq (.refl r) (machineVerdict_ok.1 hrecord).2.1 (machineVerdict_ok.1 hrecord').2.1 hids
        exact hne (by rw [heq])
    | folder user machineId requested =>
      cases f' with
      | machine user' requested' => cases hsame
      | folder user' machineId' requested' =>
        simp only [CallFacts.registration, Prod.mk.injEq, Option.some.injEq] at hsame
        obtain ⟨rfl, rfl, hids⟩ := hsame
        obtain ⟨r, hr, howner, hid, hrecord, -⟩ := hfolder _ _ requested rfl
        obtain ⟨r', hr', howner', hid', hrecord', -⟩ := hfolder' _ _ requested' rfl
        obtain rfl := hinv.folder_eq hr hr' (howner.trans howner'.symm) (hid.trans (hids.symm.trans hid'.symm))
        have heq := replaysFolder_eq (folderVerdict_ok.1 hrecord).1 (folderVerdict_ok.1 hrecord').1 hids
        exact hne (by rw [heq])

private theorem replays_of_keeps {r r' : MachineRow} {q : Machines.Requested} (hkeeps : r.Keeps r')
    (h : Machines.Replays r' q) : Machines.Replays r q := by
  rw [hkeeps.1] at h
  exact h

private theorem CatalogCall.facts_machine_eq {c : CatalogCall} {user : String} {requested : Machines.Requested}
    (h : c.facts = .ok (.machine user requested)) :
    ∃ request key recovered now, c = .machine user request key recovered now := by
  cases c with
  | machine user' request key recovered now =>
    obtain ⟨_, -, h⟩ := Program.bind_eq_ok.1 h
    obtain ⟨_, -, h⟩ := Program.bind_eq_ok.1 h
    cases h
    exact ⟨request, key, recovered, now, rfl⟩
  | folder user' machineId request now =>
    obtain ⟨_, -, h⟩ := Program.bind_eq_ok.1 h
    obtain ⟨_, -, h⟩ := Program.bind_eq_ok.1 h
    cases h

private theorem CatalogCall.facts_folder_eq {c : CatalogCall} {user machineId : String} {requested : RequestedFolder}
    (h : c.facts = .ok (.folder user machineId requested)) : ∃ request now, c = .folder user machineId request now := by
  cases c with
  | machine user' request key recovered now =>
    obtain ⟨_, -, h⟩ := Program.bind_eq_ok.1 h
    obtain ⟨_, -, h⟩ := Program.bind_eq_ok.1 h
    cases h
  | folder user' machineId' request now =>
    obtain ⟨_, -, h⟩ := Program.bind_eq_ok.1 h
    obtain ⟨_, -, h⟩ := Program.bind_eq_ok.1 h
    cases h
    exact ⟨request, now, rfl⟩

variable (nfkd draw calls) in
private theorem kept_grows (done : List (Event ι)) {mid rest : List (Event ι)} (h : mid <+: rest) :
    (catalogRun nfkd draw calls (done ++ mid)).committed.Kept ∧ TablesGrow (fun _ => True)
      (catalogRun nfkd draw calls (done ++ mid)).committed (catalogRun nfkd draw calls (done ++ rest)).committed := by
  obtain ⟨others, rfl⟩ := h
  rw [← List.append_assoc]
  exact ⟨(catalogOutline_run (done ++ mid)).inv, grows_run _ _⟩

/-- What a call of `register_machine` raises that overlaps with another one of its registration. -/
private theorem overlaps_machine {done rest : List (Event ι)} {record : Record} {user : String}
    {requested : Machines.Requested} (hi : (catalogRun nfkd draw calls (done ++ rest)).status i = .ended (.ok record))
    (hfacts : (calls i).facts = .ok (.machine user requested))
    (hfacts' : (calls j).facts = .ok (.machine user requested))
    (hkey : (calls j).enrollment = none ∨ (calls j).enrollment = (calls i).enrollment)
    (hbegun : (catalogRun nfkd draw calls done).status j = .running (calls j).start) {e : RegistrationError}
    (hj : (catalogRun nfkd draw calls (done ++ rest)).status j = .ended (.error e)) :
    Answers calls j record (catalogRun nfkd draw calls (done ++ rest)).committed (.error e) := by
  have hs : (catalogOutline nfkd draw calls).Holds (catalogRun nfkd draw calls (done ++ rest)) := catalogOutline_run _
  have hinv : (catalogRun nfkd draw calls (done ++ rest)).committed.Kept := hs.inv
  obtain ⟨q, hperforms, howner, hregistration, hverdict, hrows, hcolumns, hguard, hadopt⟩ :=
    @CatalogCall.facts_machine nfkd _ _ _ hfacts'
  obtain ⟨mid, hmid, hblames⟩ := blames_of_raised hperforms hbegun (hguard _) hj
  obtain ⟨hkept, hgrows⟩ := kept_grows nfkd draw calls done hmid
  rcases hblames with ⟨rfl, hfull⟩ | ⟨r₁, howned, hrefused⟩
  · refine .full ?_
    have hle := hperforms.lawful.length_le hkept hgrows
    rw [hrows] at hfull hle
    obtain ⟨request, key, recovered, now, hcall⟩ := CatalogCall.facts_machine_eq hfacts'
    rw [hcall]
    exact le_antisymm hinv.machines.length_le (hfull.trans hle)
  · -- the row that the call found is an earlier form of the one that the record is of
    obtain ⟨hr₁, howner₁, hid₁⟩ := (Registering.owned_iff hrows hcolumns).1 howned
    have huser₁ : r₁.userId = user := howner₁.trans howner
    obtain ⟨r, hr, huser, hid, hrecord⟩ := (known_of_ended hs hi hfacts).1 user requested rfl
    obtain ⟨r', hr', hkeeps⟩ := hgrows.machines.kept r₁ hr₁
    obtain ⟨huser', -, -, hid'⟩ := hkeeps.columns
    obtain rfl := hinv.machine_eq hr hr' (huser.trans (huser₁.symm.trans huser'.symm))
      (hid.trans ((hid₁.trans hregistration).symm.trans hid'.symm))
    obtain ⟨hsame, hreplays, -⟩ := machineVerdict_ok.1 hrecord
    have hreplays₁ : Machines.Replays r₁ requested := replays_of_keeps hkeeps hreplays
    rw [hverdict] at hrefused
    rcases hrefused with herror | ⟨-, herror⟩
    · obtain ⟨hcomes, hother, rfl⟩ := machineVerdict_error hreplays₁ herror
      have hsame' : r.enrollmentKeyId = (calls j).enrollment := by
        rcases hkey with hnone | heq
        · exact absurd hnone hcomes
        · rw [heq] at hcomes ⊢
          exact hsame.resolve_left hcomes
      have hvacant : r₁.enrollmentKeyId = none := by
        by_contra hsome
        exact hother ((hkeeps.2 hsome).symm.trans hsame')
      obtain ⟨k, requested', hk, hidk, hreplaysk, hnone⟩ := sourced_run _ r₁ hr₁ hvacant
      have hrequested : requested' = requested :=
        replays_eq (.refl r₁) hreplays₁ hreplaysk (hidk.symm.trans (hid₁.trans hregistration))
      refine .keyless ?_ hnone hcomes
      rw [hk, hfacts', hrequested, huser₁]
    · have hadopted : Machines.Replays (q.adopt r₁) requested := by
        rw [hadopt]
        exact hreplays₁
      obtain ⟨-, hother, -⟩ := machineVerdict_error hadopted herror
      rw [hadopt] at hother
      exact absurd rfl hother

/-- What a call of `register_folder` raises that overlaps with another one of its registration. -/
private theorem overlaps_folder {done rest : List (Event ι)} {record : Record} {user machineId : String}
    {requested : RequestedFolder}
    (hi : (catalogRun nfkd draw calls (done ++ rest)).status i = .ended (.ok record))
    (hfacts : (calls i).facts = .ok (.folder user machineId requested))
    (hfacts' : (calls j).facts = .ok (.folder user machineId requested))
    (hbegun : (catalogRun nfkd draw calls done).status j = .running (calls j).start)
    (haddressed : (calls j).Addressed (catalogRun nfkd draw calls done).committed) {e : RegistrationError}
    (hj : (catalogRun nfkd draw calls (done ++ rest)).status j = .ended (.error e)) :
    Answers calls j record (catalogRun nfkd draw calls (done ++ rest)).committed (.error e) := by
  have hs : (catalogOutline nfkd draw calls).Holds (catalogRun nfkd draw calls (done ++ rest)) := catalogOutline_run _
  have hinv : (catalogRun nfkd draw calls (done ++ rest)).committed.Kept := hs.inv
  obtain ⟨q, hperforms, howner, hregistration, hverdict, hrows, hcolumns, hguards⟩ :=
    @CatalogCall.facts_folder nfkd _ _ _ _ hfacts'
  obtain ⟨request, now, hcall⟩ := CatalogCall.facts_folder_eq hfacts'
  rw [hcall] at haddressed
  have hguard : q.guard (catalogRun nfkd draw calls done).committed = .ok () :=
    (hguards _).trans (guard_folder.2 haddressed)
  obtain ⟨mid, hmid, hblames⟩ := blames_of_raised hperforms hbegun hguard hj
  obtain ⟨hkept, hgrows⟩ := kept_grows nfkd draw calls done hmid
  rcases hblames with ⟨rfl, hfull⟩ | ⟨r₁, howned, hrefused⟩
  · refine .full ?_
    have hle := hperforms.lawful.length_le hkept hgrows
    rw [hrows] at hfull hle
    rw [hcall]
    exact le_antisymm hinv.folders.length_le (hfull.trans hle)
  · obtain ⟨hr₁, howner₁, hid₁⟩ := (Registering.owned_iff hrows hcolumns).1 howned
    obtain ⟨r, hr, hro, hid, hrecord, -⟩ := (known_of_ended hs hi hfacts).2 user machineId requested rfl
    obtain ⟨r', hr', rfl⟩ := hgrows.folders.kept r₁ hr₁
    obtain rfl := hinv.folder_eq hr hr' (hro.trans (howner₁.trans howner).symm)
      (hid.trans (hid₁.trans hregistration).symm)
    have hverdict' : q.verdict r = .ok record := by
      rw [hverdict]
      exact hrecord
    rcases hrefused with herror | ⟨⟨hadopts, hvacant⟩, herror⟩
    · rw [hverdict'] at herror
      cases herror
    · rw [← hperforms.lawful.adopt hadopts hvacant, hverdict'] at herror
      cases herror

private theorem overlaps_answers {done rest : List (Event ι)} {record : Record}
    (hi : (catalogRun nfkd draw calls (done ++ rest)).status i = .ended (.ok record))
    (hrepeats : (calls i).Repeats (calls j))
    (hbegun : (catalogRun nfkd draw calls done).status j = .running (calls j).start)
    (haddressed : (calls j).Addressed (catalogRun nfkd draw calls done).committed) {outcome : Outcome}
    (hj : (catalogRun nfkd draw calls (done ++ rest)).status j = .ended outcome) :
    Answers calls j record (catalogRun nfkd draw calls (done ++ rest)).committed outcome := by
  obtain ⟨f, hfacts, hfacts', hkey⟩ := hrepeats
  cases outcome with
  | ok record' =>
    rw [record_eq (catalogOutline_run _) hi hj hfacts hfacts']
    exact .returns
  | error e =>
    cases f with
    | machine user requested => exact overlaps_machine hi hfacts hfacts' hkey hbegun hj
    | folder user machineId requested => exact overlaps_folder hi hfacts hfacts' hbegun haddressed hj

/-! ### Every order of statements -/

/-- No two machines of a user and no two folders of a machine share their id, their registration or their key. -/
structure CatalogTables.Registered (t : CatalogTables) : Prop where
  machines : t.machines.Pairwise fun r r' => r.userId = r'.userId →
    r.machineId ≠ r'.machineId ∧ r.localRegistrationId ≠ r'.localRegistrationId ∧ r.machineKey ≠ r'.machineKey ∧
      prefixesOverlap ("machines/" ++ r.machineKey) ("machines/" ++ r'.machineKey) = .ok false
  folders : t.folders.Pairwise fun r r' => r.userId = r'.userId → r.machineId = r'.machineId →
    r.folderId ≠ r'.folderId ∧ r.localRegistrationId ≠ r'.localRegistrationId ∧ r.folderKey ≠ r'.folderKey
  machineKeys : ∀ r ∈ t.machines, Machines.ValidKey r.machineKey
  folderKeys : ∀ r ∈ t.folders, Machines.ValidKey r.folderKey

/-- The rows stay, with all that they have but the enrolment key of a machine that has none. -/
structure CatalogTables.Stays (t t' : CatalogTables) : Prop where
  machines : ∀ r ∈ t.machines, ∃ r' ∈ t'.machines, r.Keeps r'
  folders : ∀ r ∈ t.folders, r ∈ t'.folders

private theorem CatalogTables.Kept.registered {t : CatalogTables} (h : t.Kept) : t.Registered := by
  refine ⟨?_, ?_, h.machines.keys, h.folders.keys⟩
  · refine h.machines.apart.imp_of_mem fun {r r'} hr hr' hfalse huser => ?_
    rw [← Bool.not_eq_true, Columns.clash_iff] at hfalse
    have hid : r.machineId ≠ r'.machineId := fun heq => hfalse ⟨huser.symm, .inl heq.symm⟩
    have hkey : r.machineKey ≠ r'.machineKey := fun heq => hfalse ⟨huser.symm, .inr (.inl heq.symm)⟩
    have hregistration : r.localRegistrationId ≠ r'.localRegistrationId :=
      fun heq => hfalse ⟨huser.symm, .inr (.inr heq.symm)⟩
    exact ⟨hid, hregistration, hkey,
      Machines.prefixesOverlap_machines (h.machines.keys r hr) (h.machines.keys r' hr') hkey⟩
  · refine h.folders.apart.imp fun {r r'} hfalse huser hmachine => ?_
    rw [← Bool.not_eq_true, Columns.clash_iff] at hfalse
    have howner : folderColumns.owner r' = folderColumns.owner r := Prod.ext huser.symm hmachine.symm
    exact ⟨fun heq => hfalse ⟨howner, .inl heq.symm⟩, fun heq => hfalse ⟨howner, .inr (.inr heq.symm)⟩,
      fun heq => hfalse ⟨howner, .inr (.inl heq.symm)⟩⟩

private theorem TablesGrow.stays {fresh : String → Prop} {t t' : CatalogTables} (h : TablesGrow fresh t t') :
    t.Stays t' := by
  refine ⟨h.machines.kept, fun r hr => ?_⟩
  obtain ⟨r', hr', rfl⟩ := h.folders.kept r hr
  exact hr'

/-- Whatever the order of the statements of the calls: a call takes boundedly many of them, and one that runs can take
its next one, or waits for one that can; the registrations and the keys are unique, and the keys valid; no row goes, and
no key changes.  When a call has returned a record, a call that repeats it returns the same record if it comes
afterwards, and if the two overlap it answers so too, but for what `Answers` says; and a call that uses its registration
id with other metadata has not returned and does not return a record, and its statements change nothing. -/
theorem registrations_hold (nfkd : String → String) (draw : ι × ℕ ↪ String) (calls : ι → CatalogCall)
    (events : List (Event ι)) :
    (∀ i, State.taken (catalogAct nfkd draw calls) i events (catalogStart calls) ≤ 2 * maxRows + 13 ∧
      ∀ stage, (catalogRun nfkd draw calls events).status i = .running stage →
        (catalogRun nfkd draw calls events).ready (catalogAct nfkd draw calls) i = true ∨
          ∃ j t, (catalogRun nfkd draw calls events).writer = some (j, t) ∧ j ≠ i ∧
            (catalogRun nfkd draw calls events).ready (catalogAct nfkd draw calls) j = true) ∧
    (catalogRun nfkd draw calls events).committed.Registered ∧
    (∀ events', (catalogRun nfkd draw calls events).committed.Stays
      (catalogRun nfkd draw calls (events ++ events')).committed) ∧
    ∀ i j record, (catalogRun nfkd draw calls events).status i = .ended (.ok record) →
      ((calls i).Repeats (calls j) → (catalogRun nfkd draw calls events).status j = .running (calls j).start →
        ∀ events' outcome, (catalogRun nfkd draw calls (events ++ events')).status j = .ended outcome →
          outcome = .ok record) ∧
      ((calls i).Repeats (calls j) → ∀ done, done <+: events →
        (catalogRun nfkd draw calls done).status j = .running (calls j).start →
        (calls j).Addressed (catalogRun nfkd draw calls done).committed →
        ∀ outcome, (catalogRun nfkd draw calls events).status j = .ended outcome →
          Answers calls j record (catalogRun nfkd draw calls events).committed outcome) ∧
      ((calls i).Reuses (calls j) →
        (∀ record', (catalogRun nfkd draw calls events).status j ≠ .ended (.ok record')) ∧
        ∀ done, done ++ [.next j] <+: events →
          (catalogRun nfkd draw calls (done ++ [.next j])).committed =
          (catalogRun nfkd draw calls done).committed) := by
  have hs : (catalogOutline nfkd draw calls).Holds (catalogRun nfkd draw calls events) := catalogOutline_run events
  refine ⟨fun i => ⟨catalog_taken_le i events, fun stage hrunning => hs.progress hrunning⟩, hs.inv.registered,
    fun events' => (grows_run events events').stays, fun i j record hended =>
      ⟨fun hrepeats hbegun events' outcome houtcome => ?_,
      fun hrepeats done hdone hbegun haddressed outcome houtcome => ?_, fun hreuses =>
        ⟨fun record' hended' => ?_, fun done hdone => ?_⟩⟩⟩
  · rw [catalogRun_append] at houtcome
    exact repeats_outcome hs hended hbegun hrepeats events' houtcome
  · obtain ⟨rest, rfl⟩ := hdone
    exact overlaps_answers hended hrepeats hbegun haddressed houtcome
  · exact not_reuses hs hended hended' hreuses
  · obtain ⟨rest, rfl⟩ := hdone
    have hstep : (catalogRun nfkd draw calls (done ++ [.next j])) =
        (catalogRun nfkd draw calls done).step (catalogAct nfkd draw calls) (.next j) := catalogRun_append _ _
    have hbefore : (catalogOutline nfkd draw calls).Holds (catalogRun nfkd draw calls done) := catalogOutline_run done
    rcases hbefore.committed_step (.next j) with hsame | ⟨k, stage, out, hk, hrunning, hcommit, -⟩
    · rw [hstep, hsame]
    · -- a commit would end the call with a record
      cases hk
      obtain ⟨record', rfl⟩ := CatalogCall.commit_ok hcommit
      suffices hother : (catalogRun nfkd draw calls (done ++ [.next j] ++ rest)).status j = .ended (.ok record') from
        absurd hreuses (not_reuses hs hended hother)
      rw [catalogRun_append]
      refine State.run_ended ?_ rest
      rw [hstep]
      unfold State.step
      dsimp only
      rw [hrunning]
      dsimp only
      rw [hcommit]
      exact Function.update_self _ _ _

end

end Ctxd

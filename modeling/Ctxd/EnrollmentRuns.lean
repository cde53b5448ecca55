import Ctxd.Installation
import Ctxd.Rotations

/-!
# Enrolment over runs

An enrolment key has one machine for the whole of a run: what it has obtained belongs to the machine of its first
registration, which no other key or administrator has introduced (`enrollment_authority`).  A registration whose
response was lost may be made again until it is through (`enrollment_recovers`).
-/

namespace Ctxd

open Program

namespace Coordinator

variable {nfkd : String → String} {user : String} {s : Databases} {a : Attempt} {attempts : List Attempt}

private theorem enrollmentKeyOf_eq {principal : Principal} {key : String} (h : .enroll ∈ principal.scopes)
    (hk : principal.keyId = some key) : enrollmentKeyOf principal = some key := by
  unfold enrollmentKeyOf
  rw [if_neg (principal.enrolls_alone h).1, hk]

/-! ### The states of a run -/

/-- The databases before the attempt with number `i`. -/
def stateAt (nfkd : String → String) (user : String) (s : Databases) (attempts : List Attempt) (i : Nat) : Databases :=
  runAttempts nfkd user s (attempts.take i)

private theorem stateAt_succ {i : Nat} (h : attempts[i]? = some a) :
    stateAt nfkd user s attempts (i + 1) = a.after nfkd user (stateAt nfkd user s attempts i) := by
  unfold stateAt runAttempts
  rw [List.take_add_one, h, List.foldl_append]
  rfl

private theorem FreshRun.at {i : Nat} (h : FreshRun nfkd user s attempts) (ha : attempts[i]? = some a) :
    (stateAt nfkd user s attempts i).Fresh a.draw := by
  induction attempts generalizing s i with
  | nil => simp at ha
  | cons b rest ih =>
    cases i with
    | zero =>
      obtain rfl : b = a := by simpa using ha
      exact h.1
    | succ i => exact ih h.2 (by simpa using ha)

private theorem FreshRun.take (h : FreshRun nfkd user s attempts) (i : Nat) :
    FreshRun nfkd user s (attempts.take i) := by
  induction attempts generalizing s i with
  | nil => simpa using h
  | cons b rest ih =>
    cases i with
    | zero => trivial
    | succ i => exact ⟨h.1, ih h.2 i⟩

private theorem stateAt_wf (hw : s.WF user) (h : FreshRun nfkd user s attempts) (i : Nat) :
    (stateAt nfkd user s attempts i).WF user :=
  (runAttempts_keeps (P := fun _ => True) (fun _ _ _ _ _ => trivial) hw trivial (h.take i)).1

/-- What every move keeps holds in all later states. -/
private theorem stateAt_keeps {P : Databases → Prop} (hw : s.WF user) (h : FreshRun nfkd user s attempts)
    (hstep : ∀ (s : Databases) (a : Attempt), s.WF user → s.Fresh a.draw → P s → P (a.after nfkd user s)) {i j : Nat}
    (hij : i ≤ j) (hp : P (stateAt nfkd user s attempts i)) : P (stateAt nfkd user s attempts j) := by
  induction j, hij using Nat.le_induction with
  | base => exact hp
  | succ j _ ih =>
    cases ha : attempts[j]? with
    | none =>
      have hlen := List.getElem?_eq_none_iff.1 ha
      unfold stateAt at ih ⊢
      rwa [List.take_of_length_le (by omega)] at ih ⊢
    | some b =>
      rw [stateAt_succ ha]
      exact hstep _ b (stateAt_wf hw h j) (h.at ha) ih

/-! ### What an enrolment key obtains -/

def Call.principal : Call → Principal
  | .register principal _ => principal
  | .prepare principal _ => principal
  | .confirm principal _ _ => principal
  | .revoke principal _ => principal

/-- An attempt under the enrolment key adds a credential of the machine. -/
def Obtains (nfkd : String → String) (user : String) (s : Databases) (a : Attempt) (key machineId : String) : Prop :=
  .enroll ∈ a.call.principal.scopes ∧ a.call.principal.keyId = some key ∧
    ∃ c ∈ (a.after nfkd user s).credentials, c.machineId = some machineId ∧ ∀ d ∈ s.credentials, d.keyId ≠ c.keyId

/-- An attempt adds the machine. -/
def Introduces (nfkd : String → String) (user : String) (s : Databases) (a : Attempt) (machineId : String) : Prop :=
  (∀ r ∈ s.machines, r.machineId ≠ machineId) ∧ ∃ r ∈ (a.after nfkd user s).machines, r.machineId = machineId

/-- Uses that are recorded stay. -/
private theorem Move.use_stays {s' : Databases} (h : Move user a s s') {u : EnrollmentUse} (hu : u ∈ s.enrollmentUses) :
    u ∈ s'.enrollmentUses := by
  cases h with
  | stay hm hc h => exact h ▸ hu
  | tornRegister principal request q r machines ha hscope hq hreg hm hc h => exact h ▸ hu
  | registered principal request r machines result ha h =>
    rcases h.uses with ⟨-, h⟩ | ⟨key, -, ⟨h, -⟩ | ⟨-, h⟩⟩
    · exact h ▸ hu
    · exact h ▸ hu
    · rw [h]
      exact List.mem_append_left _ hu
  | prepared principal r ha hrow hcur hm h => exact h ▸ hu
  | tornConfirm r k hconf hc h => exact h ▸ hu
  | confirmed principal r b k m h => exact h.uses ▸ hu
  | tornRevoke r b hrow hb hm hc h => exact h ▸ hu
  | revoked principal r m h => exact h.uses ▸ hu

/-- An enrolment key obtains credentials by a registration only. -/
private theorem Move.registered_of_obtains {s' : Databases} (h : Move user a s s')
    (henroll : .enroll ∈ a.call.principal.scopes)
    {c : Credential} (hc : c ∈ s'.credentials) (hnew : ∀ d ∈ s.credentials, d.keyId ≠ c.keyId) :
    ∃ principal request r machines result, a.call = .register principal request ∧
      Registered s s' user a.draw principal request r machines result ∧ c.machineId = some r.machineId := by
  have old : ∀ successor p, c ∉ Credentials.revokeWhere s.credentials a.draw.now successor p := by
    intro successor p hmem
    obtain ⟨d, hd, hdc⟩ := Credentials.mem_revokeWhere.1 hmem
    refine hnew d hd ?_
    split at hdc <;> subst hdc <;> rfl
  have same : s'.credentials = s.credentials → False := fun hsame => hnew c (hsame ▸ hc) rfl
  cases h with
  | stay hm hsame => exact (same hsame).elim
  | tornRegister principal request q r machines ha hscope hq hreg hm hsame => exact (same hsame).elim
  | registered principal request r machines result ha h =>
    refine ⟨principal, request, r, machines, result, ha, h, ?_⟩
    rcases h.credentials.rows c hc with ⟨-, hm⟩ | ⟨d, hd, hdk, -⟩
    · exact hm
    · exact absurd hdk (hnew d hd)
  | prepared principal r ha hrow hcur hm hu hcs =>
    -- an enrolment key is no machine's key
    rw [ha] at henroll
    obtain ⟨hadmin, hmachine⟩ := principal.enrolls_alone henroll
    rcases hcur with hyes | ⟨hyes, -⟩
    · exact absurd hyes hadmin
    · rw [hmachine] at hyes
      cases hyes
  | tornConfirm r k hconf hsame => exact (same hsame).elim
  | confirmed principal r b k m h => exact absurd (h.credentials ▸ hc) (old _ _)
  | tornRevoke r b hrow hb hm hsame => exact (same hsame).elim
  | revoked principal r m h =>
    rcases h.binding with ⟨-, -, hcs⟩ | ⟨b, -, -, -, hcs⟩
    · exact absurd (hcs ▸ hc) (old _ _)
    · exact absurd (hcs ▸ hc) (old _ _)

/-- What a run keeps of an enrolment key once it has obtained a credential: the use it was recorded with, and the row
of its machine. -/
structure Owns (s : Databases) (key machineId : String) : Prop where
  use : ∃ u ∈ s.enrollmentUses, u.enrollmentKeyId = key ∧ u.machineId = some machineId
  row : ∃ r ∈ s.machines, r.machineId = machineId ∧ r.enrollmentKeyId = some key

private theorem Owns.after {key machineId : String} (h : Owns s key machineId) (hw : s.WF user) (hf : s.Fresh a.draw) :
    Owns (a.after nfkd user s) key machineId := by
  have hmove := @Attempt.move nfkd user s a hw hf
  obtain ⟨u, hu, huk, hum⟩ := h.use
  obtain ⟨r, hr, hid, hkey⟩ := h.row
  obtain ⟨r', hr', hsame⟩ := hmove.row_stays hr
  exact ⟨⟨u, hmove.use_stays hu, huk, hum⟩, ⟨r', hr', by rw [hsame]; exact hid, by rw [hsame]; exact hkey⟩⟩

private theorem owns_of_obtains (hw : s.WF user) (hf : s.Fresh a.draw) {key machineId : String}
    (h : Obtains nfkd user s a key machineId) : Owns (a.after nfkd user s) key machineId := by
  obtain ⟨henroll, hkey, c, hc, hcm, hnew⟩ := h
  obtain ⟨principal, request, r, machines, result, ha, hreg, hm⟩ :=
    (@Attempt.move nfkd user s a hw hf).registered_of_obtains henroll hc hnew
  obtain rfl : machineId = r.machineId := Option.some.inj (hcm.symm.trans hm)
  rw [ha] at henroll hkey
  have hof : enrollmentKeyOf principal = some key := enrollmentKeyOf_eq henroll hkey
  obtain ⟨q, -, hregisters⟩ := hreg.registers
  constructor
  · rcases hreg.uses with ⟨hadmin, -⟩ | ⟨key', hkey', huse⟩
    · exact absurd hadmin (principal.enrolls_alone henroll).1
    · obtain rfl : key = key' := Option.some.inj (hof.symm.trans hkey')
      rcases huse with ⟨hsame, u, hu, huk, -, -, hum⟩ | ⟨-, happend⟩
      · exact ⟨u, hsame ▸ hu, huk, hum⟩
      · exact ⟨_, happend ▸ List.mem_append_right _ (List.mem_singleton.2 rfl), rfl, rfl⟩
  · obtain ⟨r', hr', hsame⟩ := @exists_mem_setBinding user machines r.machineId (some a.draw.key) r hregisters.mem
    refine ⟨r', hreg.machines ▸ hr', by rw [hsame], ?_⟩
    rw [hsame]
    exact (hregisters.key (by rw [hof]; rfl)).trans hof

/-- An attempt that adds a machine is a registration, and the row keeps its key. -/
private theorem register_of_introduces (hw : s.WF user) (hf : s.Fresh a.draw) {machineId : String}
    (h : Introduces nfkd user s a machineId) : ∃ principal request, a.call = .register principal request ∧
      ∀ r ∈ (a.after nfkd user s).machines, r.machineId = machineId → r.enrollmentKeyId =
        enrollmentKeyOf principal := by
  obtain ⟨hnone, r, hr, hid⟩ := h
  have hw' := (@Attempt.move nfkd user s a hw hf).wf hw hf
  rcases (@Attempt.move nfkd user s a hw hf).row_comes hr with ⟨r0, hr0, hsame⟩ | ⟨principal, request, ha, hkey, -⟩
  · refine absurd ?_ (hnone r0 hr0)
    rw [← hid, hsame]
  · refine ⟨principal, request, ha, fun r' hr' hid' => ?_⟩
    rw [hw'.machines.eq_of_machineId hr' hr (hid'.trans hid.symm)]
    exact hkey

/-- The machine of an enrolment key: whatever the key obtains in a run belongs to it, and it was added to the catalog by
a registration under the key, and by no other. -/
theorem enrollment_authority (hinit : Initial s) (hrun : FreshRun nfkd user s attempts) {i : Nat}
    {key machineId : String}
    (hi : attempts[i]? = some a) (h : Obtains nfkd user (stateAt nfkd user s attempts i) a key machineId) :
    (∀ j b other, attempts[j]? = some b → Obtains nfkd user (stateAt nfkd user s attempts j) b key other →
      other = machineId) ∧
    (∃ j b, attempts[j]? = some b ∧ Introduces nfkd user (stateAt nfkd user s attempts j) b machineId) ∧
    ∀ j b, attempts[j]? = some b → Introduces nfkd user (stateAt nfkd user s attempts j) b machineId →
      ∃ principal request, b.call = .register principal request ∧ enrollmentKeyOf principal = some key := by
  have hw : s.WF user := hinit.wf
  have howns : ∀ {i a machineId}, attempts[i]? = some a →
      Obtains nfkd user (stateAt nfkd user s attempts i) a key machineId → ∀ j, i + 1 ≤ j →
        Owns (stateAt nfkd user s attempts j) key machineId := by
    intro i a machineId hi h j hij
    refine stateAt_keeps (P := fun s => Owns s key machineId) hw hrun (fun s a hw hf h => h.after hw hf) hij ?_
    rw [stateAt_succ hi]
    exact owns_of_obtains (stateAt_wf hw hrun i) (hrun.at hi) h
  refine ⟨fun j b other hj hb => ?_, ?_, fun j b hj hb => ?_⟩
  · -- both uses of the key are recorded in the later state
    have hfirst := howns hi h (max (i + 1) (j + 1)) (by omega)
    have hsecond := howns hj hb (max (i + 1) (j + 1)) (by omega)
    obtain ⟨u, hu, huk, hum⟩ := hfirst.use
    obtain ⟨v, hv, hvk, hvm⟩ := hsecond.use
    have huv := List.inj_on_of_nodup_map (stateAt_wf hw hrun _).uses hu hv (huk.trans hvk.symm)
    rw [huv, hvm] at hum
    exact Option.some.inj hum
  · -- the first state that has the machine is not the first of the run
    by_contra hnone
    have hnever : ∀ j, ∀ r ∈ (stateAt nfkd user s attempts j).machines, r.machineId ≠ machineId := by
      intro j
      induction j with
      | zero =>
        intro r hr
        have hr' : r ∈ s.machines := hr
        rw [hinit.machines] at hr'
        cases hr'
      | succ j ih =>
        cases hj : attempts[j]? with
        | none =>
          have hlen := List.getElem?_eq_none_iff.1 hj
          unfold stateAt at ih ⊢
          rw [List.take_of_length_le (by omega)] at ih ⊢
          exact ih
        | some b =>
          rw [stateAt_succ hj]
          intro r hr hid
          exact hnone ⟨j, b, hj, ih, r, hr, hid⟩
    obtain ⟨r, hr, hid, -⟩ := (howns hi h (i + 1) le_rfl).row
    exact hnever _ r hr hid
  · obtain ⟨principal, request, hcall, hrow⟩ := register_of_introduces (stateAt_wf hw hrun j) (hrun.at hj) hb
    refine ⟨principal, request, hcall, ?_⟩
    have hpresent : ∀ k, i + 1 ≤ k → ∃ r ∈ (stateAt nfkd user s attempts k).machines, r.machineId = machineId ∧
        r.enrollmentKeyId = some key := fun k hk => (howns hi h k hk).row
    have hji : j < i + 1 := by
      by_contra hlt
      obtain ⟨r, hr, hid, -⟩ := hpresent j (by omega)
      exact hb.1 r hr hid
    -- the row that was added then is the row of the key, as rows stay and identifiers are unique
    have hkeeps : ∃ r ∈ (stateAt nfkd user s attempts (i + 1)).machines, r.machineId = machineId ∧
        r.enrollmentKeyId = enrollmentKeyOf principal := by
      refine stateAt_keeps (P := fun s => ∃ r ∈ s.machines, r.machineId = machineId ∧
        r.enrollmentKeyId = enrollmentKeyOf principal) (i := j + 1) hw hrun (fun s b hw hf hr => ?_) (by omega) ?_
      · obtain ⟨r, hr, hid, hkey⟩ := hr
        obtain ⟨r', hr', hsame⟩ := (@Attempt.move nfkd user s b hw hf).row_stays hr
        exact ⟨r', hr', by rw [hsame]; exact hid, by rw [hsame]; exact hkey⟩
      · rw [stateAt_succ hj]
        obtain ⟨-, r, hr, hid⟩ := hb
        exact ⟨r, hr, hid, hrow r hr hid⟩
    obtain ⟨r, hr, hid, hkey⟩ := hkeeps
    obtain ⟨r', hr', hid', hkey'⟩ := hpresent (i + 1) le_rfl
    rw [← hkey, (stateAt_wf hw hrun _).machines.eq_of_machineId hr hr' (hid.trans hid'.symm)]
    exact hkey'

/-- The holder of an enrolment key. -/
def enroller : Principal :=
  { principalId := "enroller", kind := .apiKey, scopes := {.enroll}, keyId := some (sampleDraw 9).key, prefixes := [],
    machineId := none, valid := by decide +kernel }

/-- The holder of another one. -/
def otherEnroller : Principal :=
  { principalId := "other", kind := .apiKey, scopes := {.enroll}, keyId := some (sampleDraw 8).key, prefixes := [],
    machineId := none, valid := by decide +kernel }

def sampleRequest : MachineRegistrationRequest := ⟨"registration", "host", none, none, none⟩

/-- The first registration dies between its two commits to the catalog. -/
def tornEnrollment : Attempt := ⟨.register enroller sampleRequest, sampleDraw 1, some 0⟩

def otherEnrollment : Attempt := ⟨.register otherEnroller ⟨"other", "host", none, none, none⟩, sampleDraw 3, none⟩

def retriedEnrollment : Attempt := ⟨.register enroller sampleRequest, sampleDraw 2, none⟩

/-- The torn registration, another one, and the retry: the machine that the retry obtains is the one that the torn
registration has added. -/
def enrollments : List Attempt := [tornEnrollment, otherEnrollment, retriedEnrollment]

theorem enrollment_authority_sample :
    (∃ j b, enrollments[j]? = some b ∧
      Introduces id "user" (stateAt id "user" emptyDatabases enrollments j) b (sampleDraw 1).uuid) ∧
    ∀ j b, enrollments[j]? = some b →
      Introduces id "user" (stateAt id "user" emptyDatabases enrollments j) b (sampleDraw 1).uuid →
        ∃ principal request, b.call = .register principal request ∧
          enrollmentKeyOf principal = some (sampleDraw 9).key := by
  have hadds : ((retriedEnrollment.after id "user" (stateAt id "user" emptyDatabases enrollments 2)).credentials.any
      fun c => c.machineId = some (sampleDraw 1).uuid ∧
        ∀ d ∈ (stateAt id "user" emptyDatabases enrollments 2).credentials, d.keyId ≠ c.keyId) =
          true := by decide +kernel
  obtain ⟨c, hc, hm⟩ := List.any_eq_true.1 hadds
  obtain ⟨hmachine, hnew⟩ := of_decide_eq_true hm
  have hobtains : Obtains id "user" (stateAt id "user" emptyDatabases enrollments 2)
    retriedEnrollment (sampleDraw 9).key
      (sampleDraw 1).uuid := ⟨by decide, rfl, c, hc, hmachine, hnew⟩
  exact (enrollment_authority emptyDatabases_initial (by decide +kernel) (show enrollments[2]? = _ from rfl) hobtains).2

/-! ### A registration is made again -/

open Installation (SameRequest Repeats)

/-- No different request is committed under the enrolment key. -/
def OnlyRequest (nfkd : String → String) (user key : String) (request : MachineRegistrationRequest) :
    Databases → List Attempt → Prop
  | _, [] => True
  | s, a :: rest => (∀ principal other response s', a.call = .register principal other →
      enrollmentKeyOf principal = some key → a.run nfkd user s = .ok response s' → SameRequest request other) ∧
        OnlyRequest nfkd user key request (a.after nfkd user s) rest

/-- What a registration under the enrolment key leaves behind once it has reached the catalog: the row of the request,
and no use of the key for a different one. -/
structure Recoverable (s : Databases) (key : String) (request : MachineRegistrationRequest) (q : Machines.Requested)
    (r : MachineRow) : Prop where
  row : ∃ r' ∈ s.machines, SameRegistration r r'
  registration : r.localRegistrationId = q.registrationId
  owner : r.enrollmentKeyId = some key
  replays : Machines.Replays r q
  used : UsedFor s (some key) request

theorem SameRegistration.trans {r r' r'' : MachineRow} (h : SameRegistration r r') (h' : SameRegistration r' r'') :
    SameRegistration r r'' := by
  unfold SameRegistration at *
  rw [h', h]

private theorem UsedFor.of_uses {s' : Databases} {now : Int} {key machineId : String}
    {request : MachineRegistrationRequest}
    (h : Uses s s' now key request machineId) (hw : (s.enrollmentUses.map (·.enrollmentKeyId)).Nodup) :
    UsedFor s' (some key) request := by
  intro u hu huk
  rcases h with ⟨hsame, v, hv, hvk, hid, hfp, -⟩ | ⟨hnone, happend⟩
  · rw [hsame] at hu
    rw [List.inj_on_of_nodup_map hw hu hv ((Option.some.inj huk).symm.trans hvk.symm)]
    exact ⟨hid, hfp⟩
  · rw [happend, List.mem_append, List.mem_singleton] at hu
    rcases hu with hu | rfl
    · exact absurd (Option.some.inj huk).symm (hnone u hu)
    · exact ⟨rfl, rfl⟩

/-- The row of a registration replays the request it was made with. -/
private theorem Registers.replays {q : Machines.Requested} {key : Option String} {draw : Draw} {r : MachineRow}
    {machines : List MachineRow} (h : Registers s user q key draw r machines) : Machines.Replays r q := by
  rcases h.found with ⟨-, -, -, hreplays⟩ | ⟨-, -, ⟨machineKey, rfl⟩, -⟩
  · exact hreplays
  · exact ⟨rfl, rfl, rfl, rfl⟩

private theorem Registers.recoverable {q : Machines.Requested} {key : String} {draw : Draw} {r : MachineRow}
    {machines : List MachineRow} (h : Registers s user q (some key) draw r machines) {s' : Databases}
    {keyId : Option String}
    (hm : s'.machines = machines ∨ s'.machines = Machines.setBinding machines user r.machineId keyId)
    {request : MachineRegistrationRequest} (hused : UsedFor s' (some key) request) :
    ∃ r' ∈ s'.machines, r'.machineId = r.machineId ∧ Recoverable s' key request q r' := by
  have hrow : ∃ r' ∈ s'.machines, SameRegistration r r' := by
    rcases hm with hm | hm <;> rw [hm]
    · exact ⟨r, h.mem, .refl r⟩
    · exact exists_mem_setBinding h.mem
  obtain ⟨r', hr', hsame⟩ := hrow
  refine ⟨r', hr', by rw [hsame], ⟨r', hr', .refl r'⟩, ?_, ?_, ?_, hused⟩ <;> rw [hsame]
  · exact h.registration
  · exact h.key rfl
  · exact h.replays

/-- A registration that was not refused, whether its response came or not. -/
private theorem recoverable_of_reached (hw : s.WF user) (hf : s.Fresh a.draw) {principal : Principal}
    {request : MachineRegistrationRequest} {key : String} (ha : a.call = .register principal request)
    (hkey : enrollmentKeyOf principal = some key)
    (hreached : (∃ response s', a.run nfkd user s = .ok response s') ∨ ∃ s', a.run nfkd user s = .error .died s') :
    ∃ q, Machines.requested request = .ok q ∧ ∃ r ∈ (a.after nfkd user s).machines,
      Recoverable (a.after nfkd user s) key request q r ∧
      ∀ result s', a.run nfkd user s = .ok (.registered result) s' → result.machine.machineId = r.machineId := by
  have hspec := @register_spec nfkd user a.draw principal _ (Databases.WF.of_dies user hw a.dies)
    (Databases.Fresh.of_dies hf a.dies) request
  rw [hkey] at hspec
  have hrun : a.run nfkd user s =
    Call.program nfkd user a.draw (.register principal request) { s with dies := a.dies } := by
    unfold Attempt.run
    rw [ha]
  have hends : Ends (Call.program nfkd user a.draw (.register principal request))
      (fun response s' => ∃ q, Machines.requested request = .ok q ∧ ∃ r ∈ s'.machines, Recoverable s' key request q r ∧
        ∀ result, response = .registered result → result.machine.machineId = r.machineId)
      (fun e s' => e = .died → ∃ q, Machines.requested request = .ok q ∧ ∃ r ∈ s'.machines,
        Recoverable s' key request q r) { s with dies := a.dies } := by
    unfold Call.program
    rw [ends_map]
    refine hspec.mono (fun result s' hs' => ?_) fun e s' hs' he => ?_
    · obtain ⟨r, machines, h⟩ := hs'
      obtain ⟨q, hq, hreg⟩ := h.registers
      rw [hkey] at hreg
      have hused : UsedFor s' (some key) request := by
        rcases h.uses with ⟨hadmin, -⟩ | ⟨key', hkey', huse⟩
        · unfold enrollmentKeyOf at hkey
          rw [if_pos hadmin] at hkey
          cases hkey
        · obtain rfl : key = key' := Option.some.inj (hkey.symm.trans hkey')
          exact .of_uses huse hw.uses
      obtain ⟨r', hr', hid, hrec⟩ := hreg.recoverable (.inr h.machines) hused
      refine ⟨q, hq, r', hr', hrec, fun result' hresult => ?_⟩
      cases hresult
      rw [h.machine]
      exact hid.symm
    · obtain ⟨-, hu, ⟨hne, -⟩ | ⟨-, -, -, hused, q, r, machines, hq, hreg, hm⟩⟩ := hs'
      · exact absurd he hne
      · have hused' : UsedFor s' (some key) request := by
          intro u hmem
          exact hused u (hu ▸ hmem)
        obtain ⟨r', hr', -, hrec⟩ := hreg.recoverable hm hused'
        exact ⟨q, hq, r', hr', hrec⟩
  rcases hreached with ⟨response, s', hok⟩ | ⟨s', hdied⟩
  · obtain ⟨q, hq, r, hr, hrec, hresult⟩ := hends.of_ok (hrun.symm.trans hok)
    rw [Attempt.after_of_ok hok]
    refine ⟨q, hq, r, hr, hrec, fun result s1 hs1 => hresult result ?_⟩
    rw [hok] at hs1
    cases hs1
    rfl
  · obtain ⟨q, hq, r, hr, hrec⟩ := hends.of_error (hrun.symm.trans hdied) rfl
    have hafter : a.after nfkd user s = s' := by
      unfold Attempt.run at hdied
      unfold Attempt.after endState
      rw [hdied]
    rw [hafter]
    refine ⟨q, hq, r, hr, hrec, fun result s1 hs1 => ?_⟩
    rw [hdied] at hs1
    cases hs1

/-- The uses of enrolment keys change when a registration returns, and not otherwise. -/
private theorem uses_after (hw : s.WF user) (hf : s.Fresh a.draw) :
    (a.after nfkd user s).enrollmentUses = s.enrollmentUses ∨
      ∃ principal request response s' key machineId, a.call = .register principal request ∧
        a.run nfkd user s = .ok response s' ∧ enrollmentKeyOf principal = some key ∧
        Uses s (a.after nfkd user s) a.draw.now key request machineId := by
  have hmove := @Attempt.move nfkd user s a hw hf
  cases hmove with
  | stay hm hc hu => exact .inl hu
  | tornRegister principal request q r machines ha hscope hq hreg hm hc hu => exact .inl hu
  | registered principal request r machines result ha h =>
    cases hrun : a.run nfkd user s with
    | ok response s' =>
      rcases h.uses with ⟨-, hu⟩ | ⟨key, hkey, huse⟩
      · exact .inl hu
      · exact .inr ⟨principal, request, response, s', key, r.machineId, ha, rfl, hkey, huse⟩
    | error e s' =>
      left
      have hspec := @register_spec nfkd user a.draw principal _ (Databases.WF.of_dies user hw a.dies)
        (Databases.Fresh.of_dies hf a.dies) request
      unfold Attempt.run at hrun
      unfold Attempt.after endState
      rw [hrun]
      rw [ha] at hrun
      have hends : Ends (Call.program nfkd user a.draw (.register principal request)) (fun _ _ => True)
          (fun _ s' => s'.enrollmentUses = s.enrollmentUses) { s with dies := a.dies } := by
        unfold Call.program
        rw [ends_map]
        exact hspec.mono (fun _ _ _ => trivial) fun _ _ hs' => hs'.2.1
      exact hends.of_error hrun
  | prepared principal r ha hrow hcur hm hu => exact .inl hu
  | tornConfirm r k h hc hu => exact .inl hu
  | confirmed principal r b k m h => exact .inl h.uses
  | tornRevoke r b hrow hb hm hc hu => exact .inl hu
  | revoked principal r m h => exact .inl h.uses

private theorem Recoverable.after {key : String} {request : MachineRegistrationRequest} {q : Machines.Requested}
    {r : MachineRow} (h : Recoverable s key request q r) (hw : s.WF user) (hf : s.Fresh a.draw)
    (honly : ∀ principal other response s', a.call = .register principal other → enrollmentKeyOf principal = some key →
      a.run nfkd user s = .ok response s' → SameRequest request other) :
    Recoverable (a.after nfkd user s) key request q r := by
  refine ⟨?_, h.registration, h.owner, h.replays, ?_⟩
  · obtain ⟨r', hr', hsame⟩ := h.row
    obtain ⟨r'', hr'', hsame'⟩ := (@Attempt.move nfkd user s a hw hf).row_stays hr'
    exact ⟨r'', hr'', hsame.trans hsame'⟩
  · rcases @uses_after nfkd user s a hw hf with
      hu | ⟨principal, other, response, s', key', machineId, ha, hrun, hkey, huse⟩
    · intro u hmem
      exact h.used u (hu ▸ hmem)
    · by_cases hk : key' = key
      · subst hk
        have hsame := honly principal other response s' ha hkey hrun
        have hused := UsedFor.of_uses huse hw.uses
        intro u hmem hukey
        rw [hsame.registration, hsame.fingerprint]
        exact hused u hmem hukey
      · -- the use of another key is recorded
        intro u hmem hukey
        rcases huse with ⟨hu, -⟩ | ⟨-, hu⟩
        · exact h.used u (hu ▸ hmem) hukey
        · rw [hu, List.mem_append, List.mem_singleton] at hmem
          rcases hmem with hmem | rfl
          · exact h.used u hmem hukey
          · exact absurd (Option.some.inj hukey).symm hk

private theorem OnlyRequest.recoverable {key : String} {request : MachineRegistrationRequest} {q : Machines.Requested}
    {r : MachineRow} (hw : s.WF user) (hf : FreshRun nfkd user s attempts) (h : Recoverable s key request q r)
    (honly : OnlyRequest nfkd user key request s attempts) :
    Recoverable (runAttempts nfkd user s attempts) key request q r ∧ (runAttempts nfkd user s attempts).WF user := by
  induction attempts generalizing s with
  | nil => exact ⟨h, hw⟩
  | cons a rest ih => exact ih ((Attempt.move hw hf.1).wf hw hf.1) hf.2 (h.after hw hf.1 honly.1) honly.2

private theorem FreshRun.of_append {xs ys : List Attempt} (h : FreshRun nfkd user s (xs ++ ys)) :
    FreshRun nfkd user s xs ∧ FreshRun nfkd user (runAttempts nfkd user s xs) ys := by
  induction xs generalizing s with
  | nil => exact ⟨trivial, h⟩
  | cons a xs ih => exact ⟨⟨h.1, (ih h.2).1⟩, (ih h.2).2⟩

/-- What a registration that is made again ends with. -/
def Recovers (user : String) (dies : Option Nat) (r : MachineRow) :
    EStateM.Result LifecycleError Databases Response → Prop
  | .ok response s' => ∃ result, response = .registered result ∧
      result.machine = { r.toMachine with credentialKeyId := some result.keyId } ∧
      Machines.boundKey s'.machines user r.machineId = some result.keyId ∧
      ∀ now, activeKeys s' now r.machineId = {result.keyId}
  | .error e _ => e = .died ∧ dies ≠ none

/-- A registration that has left a recoverable state behind is not refused when it is made again. -/
private theorem Recoverable.register (hw : s.WF user) (hf : s.Fresh a.draw) {key : String}
    {request other : MachineRegistrationRequest}
    {q : Machines.Requested} {r : MachineRow} (h : Recoverable s key request q r)
    (hq : Machines.requested request = .ok q) {principal : Principal} (ha : a.call = .register principal other)
    (hscope : .enroll ∈ principal.scopes) (hkey : principal.keyId = some key) (hsame : SameRequest request other) :
    Recovers user a.dies r (a.run nfkd user s) := by
  have hof := enrollmentKeyOf_eq hscope hkey
  have hq' : Machines.requested other = .ok q := hsame.requested ▸ hq
  obtain ⟨r', hr', hreg'⟩ := h.row
  have hfound : Machines.registration? s.machines user q.registrationId = some r' := by
    rw [← h.registration]
    have := hw.machines.registration?_of_mem hr'
    rwa [show r'.localRegistrationId = r.localRegistrationId by rw [hreg']] at this
  have hspec := @register_spec nfkd user a.draw principal _ (Databases.WF.of_dies user hw a.dies)
    (Databases.Fresh.of_dies hf a.dies) other
  have hrun : a.run nfkd user s =
    Call.program nfkd user a.draw (.register principal other) { s with dies := a.dies } := by
    unfold Attempt.run
    rw [ha]
  have hends : Ends (Call.program nfkd user a.draw (.register principal other))
      (fun response s' => s'.WF user → Recovers user a.dies r (.ok response s'))
      (fun e s' => Recovers user a.dies r (.error e s')) { s with dies := a.dies } := by
    unfold Call.program
    rw [ends_map]
    refine hspec.mono (fun result s' hs' hw' => ?_) fun e s' hs' => ?_
    · obtain ⟨r1, machines, hregistered⟩ := hs'
      obtain ⟨q1, hq1, hregisters⟩ := hregistered.registers
      obtain rfl : q = q1 := by
        rw [hq'] at hq1
        exact Except.ok.inj hq1
      -- the row is found, not added
      obtain rfl : r1 = r' := by
        rcases hregisters.found with ⟨hr1, -⟩ | ⟨hr1, -⟩
        · exact Option.some.inj (hr1.symm.trans hfound)
        · rw [show Machines.registration? s.machines user q.registrationId = none from hr1] at hfound
          cases hfound
      have hid : r1.machineId = r.machineId := by rw [hreg']
      have hholder := hregistered.holder
      unfold Databases.holder at hholder
      rw [hid] at hholder
      refine ⟨result, rfl, ?_, ?_, fun now => ?_⟩
      · rw [hregistered.machine, hregistered.key, hreg']
      · rw [hregistered.key]
        exact congrArg Rotation.Holder.bound hholder
      · rw [activeKeys_eq hw'.credentials, hregistered.key]
        exact congrArg Rotation.Holder.live hholder
    · obtain ⟨-, -, ⟨-, -, hrefused⟩ | ⟨he, hdies, -⟩⟩ := hs'
      · exfalso
        cases hrefused with
        | authority hadmin hno =>
          rcases hno with hno | hno
          · exact hno hscope
          · rw [hkey] at hno
            cases hno
        | consumed u hu huk hbad =>
          rw [hof] at huk
          obtain ⟨hid, hfp⟩ := h.used u hu huk
          rcases hbad with hbad | hbad
          · exact hbad (hid.trans hsame.registration)
          · exact hbad (hfp.trans hsame.fingerprint)
        | texts e h =>
          rw [hq'] at h
          cases h
        | conflict q1 r1 hq1 hr1 hbad =>
          rw [hq'] at hq1
          cases hq1
          obtain rfl : r' = r1 := Option.some.inj (hfound.symm.trans hr1)
          rcases hbad with ⟨-, hbad⟩ | hbad
          · refine hbad ?_
            rw [hof, hreg']
            exact h.owner
          · refine hbad ?_
            rw [hreg']
            exact h.replays
        | exhausted q1 hq1 hr1 =>
          rw [hq'] at hq1
          cases hq1
          rw [show Machines.registration? s.machines user q.registrationId = none from hr1] at hfound
          cases hfound
      · exact ⟨he, hdies⟩
  cases hres : a.run nfkd user s with
  | ok response s' =>
    have hw' := (@Attempt.move nfkd user s a hw hf).wf hw hf
    rw [Attempt.after_of_ok hres] at hw'
    exact hends.of_ok (hrun.symm.trans hres) hw'
  | error e s' => exact hends.of_error (hrun.symm.trans hres)

/-- A registration that has reached the catalog, and whose response may be lost, may be made again after whatever else
happens, as long as no other request is committed under its key: it is not refused, unless it dies in turn, and it
returns the same machine with the only active key of the machine, to which the catalog binds it. -/
theorem enrollment_recovers (h : Reachable nfkd user s) {first retry : Attempt} {rest : List Attempt}
    {principal principal' : Principal} {request request' : MachineRegistrationRequest} {key : String}
    (hfirst : first.call = .register principal request) (hscope : .enroll ∈ principal.scopes)
    (hkey : principal.keyId = some key)
    (hreached : (∃ response s', first.run nfkd user s = .ok response s') ∨ ∃ s', first.run nfkd user s =
      .error .died s')
    (hfresh : FreshRun nfkd user s (first :: (rest ++ [retry])))
    (honly : OnlyRequest nfkd user key request (first.after nfkd user s) rest)
    (hretry : retry.call = .register principal' request') (hscope' : .enroll ∈ principal'.scopes)
    (hkey' : principal'.keyId = some key) (hrepeats : Repeats request request') :
    ∃ r ∈ (first.after nfkd user s).machines, r.localRegistrationId = Strip.strip request.localRegistrationId ∧
      (∀ result s', first.run nfkd user s = .ok (.registered result) s' → result.machine.machineId = r.machineId) ∧
      Recovers user retry.dies r (retry.run nfkd user (runAttempts nfkd user (first.after nfkd user s) rest)) := by
  obtain ⟨hw, -⟩ := h.invariant
  obtain ⟨hf, hrest⟩ := hfresh
  obtain ⟨hfrest, hfretry⟩ := hrest.of_append
  obtain ⟨q, hq, r, hr, hrec, hresult⟩ :=
    recoverable_of_reached hw hf hfirst (enrollmentKeyOf_eq hscope hkey) hreached
  have hw1 := (@Attempt.move nfkd user s first hw hf).wf hw hf
  obtain ⟨hrec', hw'⟩ := honly.recoverable hw1 hfrest hrec
  refine ⟨r, hr, ?_, hresult, hrec'.register hw' hfretry.1 hq hretry hscope' hkey' hrepeats.sameRequest⟩
  rw [hrec.registration, (Machines.requested_ok hq).1]

theorem enrollment_recovers_torn : ∃ r ∈ (tornEnrollment.after id "user" emptyDatabases).machines,
    r.localRegistrationId = Strip.strip sampleRequest.localRegistrationId ∧
    (∀ result s', tornEnrollment.run id "user" emptyDatabases = .ok (.registered result) s' →
      result.machine.machineId = r.machineId) ∧
    Recovers "user" none r (retriedEnrollment.run id "user" (tornEnrollment.after id "user" emptyDatabases)) := by
  have hdied : ∃ s', tornEnrollment.run id "user" emptyDatabases = .error .died s' := by
    have hraised : (match tornEnrollment.run id "user" emptyDatabases with
      | .ok _ _ => false
      | .error e _ => decide (e = .died)) = true := by decide +kernel
    cases hrun : tornEnrollment.run id "user" emptyDatabases with
    | ok response s' =>
      rw [hrun] at hraised
      cases hraised
    | error e s' =>
      rw [hrun] at hraised
      exact ⟨s', by rw [of_decide_eq_true hraised]⟩
  have hempty : Reachable id "user" emptyDatabases := ⟨emptyDatabases, [], emptyDatabases_initial, trivial, rfl⟩
  exact @enrollment_recovers id "user" _ hempty tornEnrollment retriedEnrollment [] enroller enroller sampleRequest
    sampleRequest _ rfl (by decide) rfl (.inr hdied) (by decide +kernel) trivial rfl (by decide) rfl (.same _)

end Coordinator

end Ctxd

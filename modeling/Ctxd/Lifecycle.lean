import Ctxd.Enrollment

/-!
# What the calls of the coordinator do

One specification for each of the four calls, in a well-formed state: the databases after it returns, and after it
raises or dies.  A call that does not return leaves the credential store as it was, so that what is left to say is
which of its commits to the catalog it has made.

`Databases.holder` reads a machine's keys off the two databases; `Rotation.Step` is what one call can do to it.
-/

namespace Ctxd

open Program

/-- The two databases agree on what they share. -/
structure Databases.WF (user : String) (s : Databases) : Prop where
  machines : Machines.WF user s.machines
  credentials : Credentials.WF s.credentials
  uses : (s.enrollmentUses.map (·.enrollmentKeyId)).Nodup
  /-- A recorded use led to the machine that is registered for it under its key. -/
  ledger : ∀ u ∈ s.enrollmentUses, ∃ r ∈ s.machines, r.localRegistrationId = u.localRegistrationId ∧
    r.enrollmentKeyId = some u.enrollmentKeyId ∧ u.machineId = some r.machineId
  bindings : ∀ r ∈ s.machines, ∀ k, r.credentialKeyId = some k → ∀ c ∈ s.credentials, c.keyId = k →
    c.machineId = some r.machineId

/-- What a call draws occurs nowhere in the databases. -/
structure Databases.Fresh (s : Databases) (draw : Draw) : Prop where
  key : ∀ c ∈ s.credentials, c.keyId ≠ draw.key ∧ c.rotationFrom ≠ some draw.key
  bound : ∀ r ∈ s.machines, r.credentialKeyId ≠ some draw.key
  rows : ∀ r ∈ s.machines, r.machineId ≠ draw.uuid
  machine : ∀ c ∈ s.credentials, c.machineId ≠ some draw.uuid

/-- The keys of a machine. -/
def Databases.holder (s : Databases) (user machineId : String) : Rotation.Holder String :=
  ⟨Machines.boundKey s.machines user machineId, Credentials.live s.credentials machineId,
    Credentials.origin s.credentials machineId⟩

theorem Databases.Fresh.holder {s : Databases} {draw : Draw} (h : s.Fresh draw) (user machineId : String) :
    (s.holder user machineId).Fresh draw.key := by
  refine ⟨fun hb => ?_, ?_, fun l ho => ?_⟩
  · obtain ⟨r, hr, hk⟩ := Option.bind_eq_some_iff.1 hb
    exact h.bound r (Machines.mem_of_row? hr).1 hk
  · rintro ⟨c, hc, hk, -⟩
    exact (h.key c hc).1 hk
  · obtain ⟨c, hc, hk⟩ := Option.bind_eq_some_iff.1 ho
    exact (h.key c (List.mem_of_find?_eq_some hc)).2 hk

namespace Coordinator

/-! ### Rules -/

section

variable {α : Type} {Q : α → Databases → Prop} {E : LifecycleError → Databases → Prop} {s : Databases}

theorem ends_immediateTransaction {body : LifecycleM α} :
    Ends (immediateTransaction body) Q E s ↔ Ends body Q
      (fun e s' => E e { s' with credentials := s.credentials, enrollmentUses := s.enrollmentUses }) s := by
  unfold Ends immediateTransaction
  cases body s <;> rfl

theorem ends_committing {block : List MachineRow → Except LifecycleError (α × List MachineRow)} :
    Ends (committing block) Q E s ↔ (∀ e, block s.machines = .error e → E e s) ∧
      ∀ a machines, block s.machines = .ok (a, machines) →
        (s.dies = some 0 → E .died { s with machines := machines }) ∧
          ∀ dies, (s.dies = some 0 → False) → dies = s.dies.map (· - 1) →
            Q a { s with machines := machines, dies := dies } := by
  unfold Ends committing
  cases block s.machines with
  | error e => simp
  | ok p =>
    obtain ⟨a, machines⟩ := p
    obtain ⟨ms, cs, us, dies⟩ := s
    cases dies with
    | none => simp
    | some n =>
      cases n with
      | zero => simp
      | succ n => simp

private theorem ends_reading {query : List MachineRow → Except LifecycleError α} :
    Ends (reading query) Q E s ↔
      (∀ e, query s.machines = .error e → E e s) ∧ ∀ a, query s.machines = .ok a → Q a s := by
  unfold Ends reading
  cases query s.machines <;> simp

theorem ends_onCredentials {statement : List Credential → Except LifecycleError (α × List Credential)} :
    Ends (onCredentials statement) Q E s ↔ (∀ e, statement s.credentials = .error e → E e s) ∧
      ∀ a cs, statement s.credentials = .ok (a, cs) → Q a { s with credentials := cs } := by
  unfold Ends onCredentials
  cases statement s.credentials with
  | error e => simp
  | ok p =>
    obtain ⟨a, cs⟩ := p
    simp

private theorem ends_onUses {statement : List EnrollmentUse → Except LifecycleError (α × List EnrollmentUse)} :
    Ends (onUses statement) Q E s ↔ (∀ e, statement s.enrollmentUses = .error e → E e s) ∧
      ∀ a us, statement s.enrollmentUses = .ok (a, us) → Q a { s with enrollmentUses := us } := by
  unfold Ends onUses
  cases statement s.enrollmentUses with
  | error e => simp
  | ok p =>
    obtain ⟨a, us⟩ := p
    simp

theorem ends_credential {keyId : String} {Q : Credential → Databases → Prop} :
    Ends (credential keyId) Q E s ↔ (∀ e, Credentials.get s.credentials keyId = .error e → E e s) ∧
      ∀ c, Credentials.get s.credentials keyId = .ok c → Q c s := by
  unfold Ends credential
  cases Credentials.get s.credentials keyId <;> simp

end

/-! ### Revoking -/

section

variable {s : Databases} {now : Int} {machineId : String} {E : LifecycleError → Databases → Prop}

theorem revokeMachineKey_spec (h : Credentials.WF s.credentials) {c : Credential} (hc : c ∈ s.credentials)
    (hm : c.machineId = some machineId) (successor : Option String) {Q : Unit → Databases → Prop}
    (hQ : Q () { s with credentials :=
      Credentials.revokeWhere s.credentials now successor (Credentials.isMachineKey c.keyId machineId) }) :
    Ends (revokeMachineKey now c.keyId machineId successor) Q E s := by
  unfold revokeMachineKey
  rw [ends_onCredentials, h.revokeMachineKey_of_mem hc hm]
  refine ⟨fun e he => (by cases he), fun a cs hcs => ?_⟩
  cases hcs
  exact hQ

/-- The rows a round of the loop revokes. -/
private def revoking (now : Int) (machineId : String) (kept : Option String) (done : List Credential) (c : Credential) :
    Bool :=
  c.machineId = some machineId && done.any fun d => d.keyId = c.keyId && some d.keyId ≠ kept && d.active now

private def afterRounds (s : Databases) (now : Int) (machineId : String) (kept : Option String)
    (done : List Credential) : Databases :=
  { s with credentials := Credentials.revokeWhere s.credentials now none (revoking now machineId kept done) }

private theorem revokeWhere_revokeWhere {cs : List Credential} {p q r : Credential → Bool}
    (hr : ∀ c, r c = (p c || q c)) (hq : ∀ c, q (Credentials.revokeRow now none c) = q c) :
    Credentials.revokeWhere (Credentials.revokeWhere cs now none p) now none q =
      Credentials.revokeWhere cs now none r := by
  unfold Credentials.revokeWhere
  rw [List.map_map]
  refine List.map_congr_left fun c _ => ?_
  have htwice : Credentials.revokeRow now none (Credentials.revokeRow now none c) =
    Credentials.revokeRow now none c := by
    unfold Credentials.revokeRow
    cases c.revokedAt <;> cases c.replacedBy <;> rfl
  simp only [Function.comp_apply, hr]
  by_cases hp : p c = true
  · simp only [hp, if_true, Bool.true_or, hq]
    split
    · exact htwice
    · rfl
  · rw [Bool.not_eq_true] at hp
    simp [hp]

/-- The loop revokes the active keys of the machine, except the one that is kept. -/
private theorem revokeOthers_spec (s : Databases) (h : Credentials.WF s.credentials) (kept : Option String)
    {Q : PUnit → Databases → Prop}
    (hQ : Q ⟨⟩ { s with credentials := Credentials.revokeWhere s.credentials now none fun c =>
      c.machineId = some machineId && some c.keyId ≠ kept && c.active now }) :
    Ends (revokeOthers now machineId kept (Credentials.machineCredentials s.credentials machineId)) Q E s := by
  unfold revokeOthers
  have hloop : Ends ((Credentials.machineCredentials s.credentials machineId).forM fun c => do
      if some c.keyId ≠ kept && c.active now then revokeMachineKey now c.keyId machineId none)
      (fun _ s' => s' = afterRounds s now machineId kept
        (Credentials.machineCredentials s.credentials machineId)) E s := by
    refine Ends.forM (I := fun done s' => s' = afterRounds s now machineId kept done) _
      (fun done c rest hsplit s1 hs1 => ?_) ?_
    · obtain ⟨hc, hm⟩ := Credentials.mem_machineCredentials.1
        (by rw [hsplit]; simp : c ∈ Credentials.machineCredentials s.credentials machineId)
      subst hs1
      -- the row of this round, revoked before or not, is still the only one under its key
      have hrow : ∃ d ∈ Credentials.revokeWhere s.credentials now none (revoking now machineId kept done),
          d.keyId = c.keyId ∧ d.machineId = some machineId := by
        refine ⟨_, Credentials.mem_revokeWhere.2 ⟨c, hc, rfl⟩, ?_⟩
        split
        · exact ⟨rfl, hm⟩
        · exact ⟨rfl, hm⟩
      obtain ⟨d, hd, hdk, hdm⟩ := hrow
      refine Ends.ite (fun hcond => ?_) fun hcond => ?_
      · rw [← hdk]
        refine revokeMachineKey_spec h.revokeWhere hd hdm none ?_
        have htwice : Credentials.revokeWhere (Credentials.revokeWhere s.credentials now none
            (revoking now machineId kept done)) now none (Credentials.isMachineKey d.keyId machineId) =
            Credentials.revokeWhere s.credentials now none (revoking now machineId kept (done ++ [c])) := by
          refine revokeWhere_revokeWhere (fun x => ?_) fun _ => rfl
          unfold revoking Credentials.isMachineKey
          rw [List.any_append, List.any_cons, List.any_nil, Bool.or_false,
            Bool.and_assoc (decide (c.keyId = x.keyId)), hcond, Bool.and_true, hdk]
          by_cases hx : x.machineId = some machineId
          · simp [hx, eq_comm]
          · simp [hx]
        exact congrArg (fun cs => { s with credentials := cs }) htwice
      · rw [Bool.not_eq_true] at hcond
        refine congrArg (fun p => { s with credentials := Credentials.revokeWhere s.credentials now none p }) ?_
        funext x
        unfold revoking
        rw [List.any_append, List.any_cons, List.any_nil, Bool.or_false,
          Bool.and_assoc (decide (c.keyId = x.keyId)), hcond, Bool.and_false, Bool.or_false]
    · have hnone : revoking now machineId kept [] = fun _ => false := by
        funext c
        simp [revoking]
      rw [afterRounds, hnone]
      unfold Credentials.revokeWhere
      simp
  refine hloop.mono (fun _ s' hs' => ?_) fun _ _ he => he
  have hsame : Credentials.revokeWhere s.credentials now none
      (revoking now machineId kept (Credentials.machineCredentials s.credentials machineId)) =
      Credentials.revokeWhere s.credentials now none fun c =>
        c.machineId = some machineId && some c.keyId ≠ kept && c.active now := by
    unfold Credentials.revokeWhere
    refine List.map_congr_left fun c hc => ?_
    refine if_congr ?_ rfl rfl
    simp only [revoking, Bool.and_eq_true, List.any_eq_true, decide_eq_true_eq]
    constructor
    · rintro ⟨hm, d, hd, ⟨hk, hkept⟩, hact⟩
      rw [h.eq_of_keyId (Credentials.mem_machineCredentials.1 hd).1 hc hk] at hkept hact
      exact ⟨⟨hm, hkept⟩, hact⟩
    · rintro ⟨⟨hm, hkept⟩, hact⟩
      exact ⟨hm, c, Credentials.mem_machineCredentials.2 ⟨hc, hm⟩, ⟨rfl, hkept⟩, hact⟩
  rw [hs', afterRounds, hsame]
  exact hQ

end

/-! ### Authority -/

/-- The principal may act for the machine of the row. -/
def Current (principal : Principal) (allowCleared : Bool) (r : MachineRow) : Prop :=
  .admin ∈ principal.scopes ∨ (principal.machineId = some r.machineId ∧ principal.keyId ≠ none ∧
    (r.credentialKeyId = principal.keyId ∨ (allowCleared = true ∧ r.credentialKeyId = none)))

/-- An active credential of the machine with the grants of a machine's key. -/
def MachineCredential (now : Int) (c : Credential) (machine : Machine) : Prop :=
  c.active now = true ∧ c.machineId = some machine.machineId ∧ c.scopes = {.submit, .statusWrite} ∧
    c.prefixes = [s!"machines/{machine.machineKey}"]

section

variable {user machineId : String} {principal : Principal} {allowCleared : Bool} {s : Databases}
  {E : LifecycleError → Databases → Prop}

theorem ends_requireCurrent {Q : Machine → Databases → Prop} :
    Ends (requireCurrent user principal machineId allowCleared) Q E s ↔
      (Machines.row? s.machines user machineId = none →
        E (.raised (.keyError s!"unknown machine_id: {machineId}")) s) ∧
      ∀ r, Machines.row? s.machines user machineId = some r →
        (Current principal allowCleared r → Q r.toMachine s) ∧
          (¬Current principal allowCleared r → E .notCurrent s) := by
  unfold requireCurrent
  rw [ends_bind, ends_reading]
  unfold Machines.machine
  cases hr : Machines.row? s.machines user machineId with
  | none => simp
  | some r =>
    have hid := (Machines.mem_of_row? hr).2.2
    subst hid
    simp only [reduceCtorEq, false_implies, implies_true, Except.ok.injEq, true_and, Option.some.injEq, forall_eq']
    by_cases hadmin : .admin ∈ principal.scopes
    · simp [Current, hadmin]
    · by_cases hbad : principal.machineId ≠ some r.machineId ∨ principal.keyId = none ∨
          ¬(r.credentialKeyId = principal.keyId ∨ (allowCleared ∧ r.credentialKeyId = none))
      · have hnot : ¬Current principal allowCleared r := by
          unfold Current
          tauto
        simp only [hadmin, if_false, hbad, if_true, hnot, false_implies, not_false_eq_true, true_implies, true_and]
        exact ends_throw
      · have hcur : Current principal allowCleared r := by
          unfold Current
          tauto
        simp only [hadmin, if_false, hbad, hcur, not_true_eq_false, false_implies, true_implies, and_true]
        exact ends_pure

theorem ends_requireMachineCredential {now : Int} {c : Credential} {machine : Machine}
    {Q : Unit → Databases → Prop} :
    Ends (requireMachineCredential now c machine) Q E s ↔
      (MachineCredential now c machine → Q () s) ∧
        (¬MachineCredential now c machine → E (.value "invalid replacement machine credential") s) := by
  unfold requireMachineCredential
  by_cases hbad : c.active now = false ∨ c.machineId ≠ some machine.machineId ∨ c.scopes ≠ {.submit, .statusWrite} ∨
      c.prefixes ≠ [s!"machines/{machine.machineKey}"]
  · have hnot : ¬MachineCredential now c machine := by
      unfold MachineCredential
      rintro ⟨h1, h2, h3, h4⟩
      simp_all
    rw [if_pos hbad, ends_throw]
    tauto
  · have hyes : MachineCredential now c machine := by
      unfold MachineCredential
      simp only [not_or, Bool.not_eq_false, ne_eq, not_not] at hbad
      exact hbad
    rw [if_neg hbad, ends_pure]
    tauto

end

/-! ### The calls -/

variable {nfkd : String → String} {user machineId : String} {draw : Draw} {principal : Principal} {s : Databases}

/-- The machine of a prepared rotation keeps its binding and loses its other keys. -/
theorem prepareRotation_spec (hw : s.WF user) (hf : s.Fresh draw) :
    Ends (prepareRotation user draw principal machineId)
      (fun key s' => ∃ r, Machines.row? s.machines user machineId = some r ∧ Current principal false r ∧
        key = draw.key ∧ s'.machines = s.machines ∧ s'.enrollmentUses = s.enrollmentUses ∧
        s'.credentials = Credentials.revokeWhere s.credentials draw.now none (fun c =>
          c.machineId = some machineId && some c.keyId ≠ r.credentialKeyId && c.active draw.now) ++
            [Credentials.machineCredential draw machineId r.machineKey r.credentialKeyId])
      (fun e s' => e ≠ .died ∧ s' = s) s := by
  unfold prepareRotation
  rw [ends_immediateTransaction, ends_bind, ends_requireCurrent]
  refine ⟨fun _ => ⟨by simp, rfl⟩, fun r hr => ⟨fun hcur => ?_, fun _ => ⟨by simp, rfl⟩⟩⟩
  obtain ⟨hmem, -, rfl⟩ := Machines.mem_of_row? hr
  rw [ends_bind]
  refine (ends_bind.2 (ends_get.2 (ends_pure.2 ?_)))
  rw [ends_bind]
  refine revokeOthers_spec s hw.credentials r.credentialKeyId ?_
  rw [ends_bind, ends_onCredentials]
  rw [Credentials.issueMachine_eq r.credentialKeyId (hw.machines.uuids r hmem) (hw.machines.words r hmem) fun d hd =>
    ?_]
  · refine ⟨fun e he => (by cases he), fun issued cs hi => ?_⟩
    cases hi
    exact ends_pure.2 ⟨r, hr, hcur, rfl, rfl, rfl, rfl⟩
  · obtain ⟨d', hd', hdd⟩ := Credentials.mem_revokeWhere.1 hd
    split at hdd <;> subst hdd <;> exact (hf.key d' hd').1

/-- The replacement of a confirmed rotation: an active key of the machine, prepared from its binding. -/
structure Replacement (credentials : List Credential) (now : Int) (r : MachineRow) (b : String) (c : Credential) :
    Prop where
  mem : c ∈ credentials
  granted : MachineCredential now c r.toMachine
  prepared : c.rotationFrom = some b

/-- The binding of the machine moves to the replacement, in the catalog. -/
structure Confirms (s s' : Databases) (user : String) (now : Int) (r : MachineRow) (replacementKeyId : String) :
    Prop where
  row : Machines.row? s.machines user r.machineId = some r
  replacement : ∃ b c, r.credentialKeyId = some b ∧ c.keyId = replacementKeyId ∧ b ≠ replacementKeyId ∧
    Replacement s.credentials now r b c
  machines : s'.machines = Machines.setBinding s.machines user r.machineId (some replacementKeyId)

theorem MachineCredential.isSome {now : Int} {c : Credential} {machine : Machine}
    (h : MachineCredential now c machine) : c.machineId.isSome := by
  rw [h.2.1]
  rfl

/-- A confirmation that returned: the predecessor `b` of the replacement is revoked for it, and the binding has moved
now or had moved before. -/
structure Confirmed (s s' : Databases) (user : String) (now : Int) (principal : Principal) (r : MachineRow)
    (b replacementKeyId : String) (m : Machine) : Prop where
  uses : s'.enrollmentUses = s.enrollmentUses
  row : Machines.row? s.machines user r.machineId = some r
  current : Current principal false r
  predecessor : ∃ d ∈ s.credentials, d.keyId = b ∧ d.machineId = some r.machineId
  credentials : s'.credentials = Credentials.revokeWhere s.credentials now (some replacementKeyId)
    (Credentials.isMachineKey b r.machineId)
  machine : m = { r.toMachine with credentialKeyId := some replacementKeyId }
  binding : (r.credentialKeyId = some replacementKeyId ∧ s'.machines = s.machines ∧
      ∃ c, c.keyId = replacementKeyId ∧ Replacement s.credentials now r b c) ∨
    (r.credentialKeyId = some b ∧ Confirms s s' user now r replacementKeyId)

/-- A confirmation moves the binding, or settles the predecessor of the binding it finds. -/
theorem confirmRotation_spec (hw : s.WF user) {replacementKeyId : String} :
    Ends (confirmRotation user draw principal machineId replacementKeyId)
      (fun m s' => ∃ r b, r.machineId = machineId ∧ Confirmed s s' user draw.now principal r b replacementKeyId m)
      (fun e s' => s'.credentials = s.credentials ∧ s'.enrollmentUses = s.enrollmentUses ∧
        ((e ≠ .died ∧ s'.machines = s.machines) ∨
          ∃ r, r.machineId = machineId ∧ Confirms s s' user draw.now r replacementKeyId)) s := by
  unfold confirmRotation
  rw [ends_immediateTransaction, ends_bind, ends_requireCurrent]
  refine ⟨fun _ => ⟨rfl, rfl, .inl ⟨by simp, rfl⟩⟩, fun r hr =>
    ⟨fun hcur => ?_, fun _ => ⟨rfl, rfl, .inl ⟨by simp, rfl⟩⟩⟩⟩
  obtain ⟨hmem, -, rfl⟩ := Machines.mem_of_row? hr
  have refused : ∀ e : LifecycleError, e ≠ .died →
    (s.credentials = s.credentials ∧ s.enrollmentUses = s.enrollmentUses ∧
      ((e ≠ .died ∧ s.machines = s.machines) ∨
        ∃ r', r'.machineId = r.machineId ∧ Confirms s s user draw.now r' replacementKeyId)) :=
    fun e he => ⟨rfl, rfl, .inl ⟨he, rfl⟩⟩
  refine Ends.ite (fun hbound => ?_) fun hbound => ?_
  · -- a retry: the binding is the replacement already
    rw [ends_bind, ends_credential]
    refine ⟨fun e he => refused e (Credentials.ne_died_of_get_error he), fun c hc => ?_⟩
    obtain ⟨hcmem, hckey⟩ := Credentials.get_ok hc
    rw [ends_bind, ends_requireMachineCredential]
    refine ⟨fun hgrant => ?_, fun _ => refused _ (by simp)⟩
    cases hfrom : c.rotationFrom with
    | none => exact refused _ (by simp [invalidRetry])
    | some b =>
      refine Ends.ite (fun _ => refused _ (by simp [invalidRetry])) fun _ => ?_
      rw [ends_bind, ends_credential]
      refine ⟨fun e he => refused e (Credentials.ne_died_of_get_error he), fun d hd => ?_⟩
      obtain ⟨hdmem, hdkey⟩ := Credentials.get_ok hd
      refine Ends.ite (fun _ => refused _ (by simp [invalidRetry])) fun hgood => ?_
      simp only [not_or, not_and, ne_eq, not_not] at hgood
      obtain ⟨hdm, hactive, hinactive⟩ := hgood
      have done : ∀ cs, cs = Credentials.revokeWhere s.credentials draw.now (some replacementKeyId)
          (Credentials.isMachineKey b r.machineId) →
            Confirmed s { s with credentials := cs } user draw.now principal r b
            replacementKeyId r.toMachine := fun cs hcs =>
        ⟨rfl, hr, hcur, ⟨d, hdmem, hdkey, hdm⟩, hcs, by rw [← hbound],
          .inl ⟨hbound, rfl, c, hckey, hcmem, hgrant, hfrom⟩⟩
      refine Ends.ite (fun hact => ?_) fun hact => ?_
      · rw [ends_bind]
        refine revokeMachineKey_spec hw.credentials hdmem hdm _ ?_
        rw [hdkey]
        exact ⟨r, b, rfl, done _ rfl⟩
      · refine ⟨r, b, rfl, done _ ?_⟩
        refine (Credentials.revokeWhere_eq_self fun x hx hxk => ?_).symm
        simp only [Credentials.isMachineKey, Bool.and_eq_true, decide_eq_true_eq] at hxk
        obtain rfl := hw.credentials.eq_of_keyId hx hdmem (hxk.1.trans hdkey.symm)
        have hrevoked : x.revokedAt ≠ none := fun hn =>
          hact ((hw.credentials.active_iff hx (by rw [hdm]; rfl) draw.now).2 hn)
        exact Credentials.revokeRow_eq_self hrevoked (.inl (by rw [hinactive hact]; simp))
  · rw [ends_bind, ends_credential]
    refine ⟨fun e he => refused e (Credentials.ne_died_of_get_error he), fun c hc => ?_⟩
    obtain ⟨hcmem, hckey⟩ := Credentials.get_ok hc
    rw [ends_bind, ends_requireMachineCredential]
    refine ⟨fun hgrant => ?_, fun _ => refused _ (by simp)⟩
    cases hold : r.credentialKeyId with
    | none => exact refused _ (by simp)
    | some b =>
      refine Ends.ite (fun _ => refused _ (by simp)) fun hfrom => ?_
      rw [ne_eq, not_not] at hfrom
      have hne : b ≠ replacementKeyId := by
        rintro rfl
        exact hbound hold
      have hconfirms : ∀ s' : Databases,
          s'.machines = Machines.setBinding s.machines user r.machineId (some replacementKeyId) →
          Confirms s s' user draw.now r replacementKeyId := fun s' hs' =>
        ⟨hr, ⟨b, c, hold, hckey, hne, hcmem, hgrant, hfrom⟩, hs'⟩
      have hapart : ∀ r' ∈ s.machines, r'.credentialKeyId = some replacementKeyId → r'.machineId = r.machineId := by
        intro r' hr' hk
        have := hw.bindings r' hr' _ hk c hcmem hckey
        rw [hgrant.2.1] at this
        exact (Option.some.inj this).symm
      have hvalid : Credentials.validKeyId replacementKeyId = true := hckey ▸ hw.credentials.valid c hcmem
      have hbind := hw.machines.bindMachineCredential_eq hmem hvalid hapart
      rw [hold] at hbind
      rw [ends_bind, ends_committing, hbind]
      refine ⟨fun e he => (by cases he), fun m ms hm => ?_⟩
      cases hm
      refine ⟨fun _ => ⟨rfl, rfl, .inr ⟨r, rfl, hconfirms _ rfl⟩⟩, fun dies _ _ => ?_⟩
      -- the binding has moved; whether the former key has a row decides how the call ends
      rw [ends_bind]
      by_cases hrow : ∃ d ∈ s.credentials, d.keyId = b ∧ d.machineId = some r.machineId
      · obtain ⟨d, hdmem, rfl, hdm⟩ := hrow
        refine revokeMachineKey_spec (s := { s with machines := _, dies := dies }) hw.credentials hdmem hdm _ ?_
        exact ⟨r, d.keyId, rfl, rfl, hr, hcur, ⟨d, hdmem, rfl, hdm⟩, rfl, rfl, .inr ⟨hold, hconfirms _ rfl⟩⟩
      · unfold revokeMachineKey
        rw [ends_onCredentials, Credentials.revokeMachineKey_of_forall fun d hd => ?_]
        · refine ⟨fun e _ => ⟨rfl, rfl, .inr ⟨r, rfl, hconfirms _ rfl⟩⟩, fun a cs hcs => (by cases hcs)⟩
        · rw [← Bool.not_eq_true]
          intro hk
          simp only [Credentials.isMachineKey, Bool.and_eq_true, decide_eq_true_eq] at hk
          exact hrow ⟨d, hd, hk⟩

/-- A confirmation of the present binding settles its predecessor. -/
theorem confirmRotation_returns (hw : s.WF user) {r : MachineRow} (hr : r ∈ s.machines)
    (hcur : Current principal false r) {c d : Credential} (hb : r.credentialKeyId = some c.keyId)
    (hc : Replacement s.credentials draw.now r d.keyId c) (hd : d ∈ s.credentials)
    (hdm : d.machineId = some r.machineId) (hsettled : d.revokedAt ≠ none → d.replacedBy = some c.keyId) :
    Ends (confirmRotation user draw principal r.machineId c.keyId)
      (fun m s' => Confirmed s s' user draw.now principal r d.keyId c.keyId m ∧ s'.machines = s.machines)
      (fun _ _ => False) s := by
  have hrow := hw.machines.row?_of_mem hr
  have hspec := @confirmRotation_spec user r.machineId draw principal s hw c.keyId
  have hreturns : Ends (confirmRotation user draw principal r.machineId c.keyId) (fun _ _ => True)
      (fun _ _ => False) s := by
    unfold confirmRotation
    rw [ends_immediateTransaction, ends_bind, ends_requireCurrent]
    refine ⟨fun hn => (by rw [hrow] at hn; cases hn), fun r' hr' => ?_⟩
    rw [hrow] at hr'
    cases hr'
    refine ⟨fun _ => ?_, fun hn => hn hcur⟩
    refine Ends.ite (fun _ => ?_) fun hn => absurd hb hn
    rw [ends_bind, ends_credential, hw.credentials.get_of_mem hc.mem]
    refine ⟨fun e he => (by cases he), fun c' hc' => ?_⟩
    cases hc'
    rw [ends_bind, ends_requireMachineCredential]
    refine ⟨fun _ => ?_, fun hn => hn hc.granted⟩
    rw [hc.prepared]
    refine Ends.ite (fun hbad => ?_) fun _ => ?_
    · rcases hcur with hadmin | ⟨-, -, hkey | ⟨hcleared, -⟩⟩
      · exact hbad.1 hadmin
      · exact hbad.2 (hkey ▸ hb)
      · cases hcleared
    rw [ends_bind, ends_credential, hw.credentials.get_of_mem hd]
    refine ⟨fun e he => (by cases he), fun d' hd' => ?_⟩
    cases hd'
    have hact := hw.credentials.active_iff hd (by rw [hdm]; rfl) draw.now
    refine Ends.ite (fun hbad => ?_) fun _ => Ends.ite (fun _ => ?_) fun _ => trivial
    · rcases hbad with hbad | ⟨ha, hrep⟩ | ⟨ha, hrep⟩
      · exact hbad hdm
      · exact hrep (hw.credentials.unreplaced d hd (by rw [hdm]; rfl) (hact.1 ha))
      · exact hrep (hsettled fun hn => ha (hact.2 hn))
    · rw [ends_bind]
      exact revokeMachineKey_spec hw.credentials hd hdm _ trivial
  refine (hspec.and hreturns).mono (fun m s' hs' => ?_) fun _ _ he => he.2
  obtain ⟨⟨r', b, hid, hconf⟩, -⟩ := hs'
  have hr' := hconf.row
  rw [hid, hrow] at hr'
  cases hr'
  rcases hconf.binding with ⟨-, hms, c', hck, hc'⟩ | ⟨hold, hforward⟩
  · obtain rfl := hw.credentials.eq_of_keyId hc'.mem hc.mem hck
    have hbd : b = d.keyId := Option.some.inj (hc'.prepared.symm.trans hc.prepared)
    exact ⟨hbd ▸ hconf, hms⟩
  · obtain ⟨b', -, hb', -, hne, -⟩ := hforward.replacement
    exact absurd (Option.some.inj (hb'.symm.trans hb)) hne

/-- A key that the credential store holds for the machine. -/
def Stored (credentials : List Credential) (machineId keyId : String) : Prop :=
  ∃ c ∈ credentials, c.keyId = keyId ∧ c.machineId = some machineId

/-- A revocation that returned: the binding is gone, and with it its key, or all keys when there was no binding. -/
structure Revoked (s s' : Databases) (user : String) (now : Int) (principal : Principal) (r : MachineRow)
    (m : Machine) : Prop where
  uses : s'.enrollmentUses = s.enrollmentUses
  row : Machines.row? s.machines user r.machineId = some r
  current : Current principal true r
  machine : m = { r.toMachine with credentialKeyId := none }
  binding : (r.credentialKeyId = none ∧ s'.machines = s.machines ∧
      s'.credentials = Credentials.revokeWhere s.credentials now none fun c =>
        c.machineId = some r.machineId && some c.keyId ≠ none && c.active now) ∨
    ∃ b, r.credentialKeyId = some b ∧ Stored s.credentials r.machineId b ∧
      s'.machines = Machines.setBinding s.machines user r.machineId none ∧
      s'.credentials = Credentials.revokeWhere s.credentials now none (Credentials.isMachineKey b r.machineId)

/-- A revocation fails when the binding names a key that is not stored. -/
theorem revoke_spec (hw : s.WF user) :
    Ends (revoke user draw principal machineId)
      (fun m s' => ∃ r, r.machineId = machineId ∧ Revoked s s' user draw.now principal r m)
      (fun e s' => s'.credentials = s.credentials ∧ s'.enrollmentUses = s.enrollmentUses ∧
        ((e ≠ .died ∧ s'.machines = s.machines ∧ ∀ r, Machines.row? s.machines user machineId = some r →
            Current principal true r → ∃ b, r.credentialKeyId = some b ∧ ¬Stored s.credentials machineId b) ∨
          (s.dies = some 0 ∧ ∃ r b, Machines.row? s.machines user machineId = some r ∧ r.credentialKeyId = some b ∧
            s'.machines = Machines.setBinding s.machines user machineId none))) s := by
  unfold revoke
  rw [ends_immediateTransaction, ends_bind, ends_requireCurrent]
  refine ⟨fun hn => ⟨rfl, rfl, .inl ⟨by simp, rfl, fun r hr => (by rw [hn] at hr; cases hr)⟩⟩, fun r hr =>
    ⟨fun hcur => ?_,
    fun hnot => ⟨rfl, rfl, .inl ⟨by simp, rfl, fun r' hr' hcur => ?_⟩⟩⟩⟩
  · obtain ⟨hmem, -, rfl⟩ := Machines.mem_of_row? hr
    cases hb : r.credentialKeyId with
    | none =>
      simp only
      rw [ends_bind]
      refine ends_bind.2 (ends_get.2 (ends_pure.2 ?_))
      rw [ends_bind]
      refine revokeOthers_spec s hw.credentials none ?_
      exact ends_pure.2 ⟨r, rfl, rfl, hr, hcur, by rw [← hb], .inl ⟨hb, rfl, rfl⟩⟩
    | some b =>
      simp only
      rw [ends_bind]
      by_cases hstored : Stored s.credentials r.machineId b
      · obtain ⟨c, hc, rfl, hcm⟩ := hstored
        refine revokeMachineKey_spec hw.credentials hc hcm none ?_
        rw [ends_committing, hw.machines.clearMachineCredential_eq hmem hb]
        refine ⟨fun e he => (by cases he), fun m ms hm => ?_⟩
        cases hm
        exact ⟨fun hdies => ⟨trivial, trivial, .inr ⟨hdies, r, c.keyId, hr, hb, rfl⟩⟩, fun dies _ _ =>
          ⟨r, rfl, rfl, hr, hcur, rfl, .inr ⟨c.keyId, hb, ⟨c, hc, rfl, hcm⟩, rfl, rfl⟩⟩⟩
      · unfold revokeMachineKey
        rw [ends_onCredentials, Credentials.revokeMachineKey_of_forall fun d hd => ?_]
        · refine ⟨fun e he => ?_, fun a cs hcs => (by cases hcs)⟩
          cases he
          refine ⟨trivial, trivial, .inl ⟨by simp, rfl, fun r' hr' _ => ?_⟩⟩
          rw [hr] at hr'
          cases hr'
          exact ⟨b, hb, hstored⟩
        · rw [← Bool.not_eq_true]
          intro hk
          simp only [Credentials.isMachineKey, Bool.and_eq_true, decide_eq_true_eq] at hk
          exact hstored ⟨d, hd, hk⟩
  · rw [hr] at hr'
    cases hr'
    exact absurd hcur hnot

/-- What a registration commits to the catalog first: it finds the row of the request, or adds it. -/
structure Registers (s : Databases) (user : String) (q : Machines.Requested) (enrollmentKeyId : Option String)
    (draw : Draw) (r : MachineRow) (machines : List MachineRow) : Prop where
  registration : r.localRegistrationId = q.registrationId
  found : (Machines.registration? s.machines user q.registrationId = some r ∧ machines = s.machines ∧
      (enrollmentKeyId.isSome → r.enrollmentKeyId = enrollmentKeyId) ∧ Machines.Replays r q) ∨
    (Machines.registration? s.machines user q.registrationId = none ∧ machines = s.machines ++ [r] ∧
      (∃ machineKey, r = Machines.newRow user q enrollmentKeyId draw machineKey) ∧ r.machineId = draw.uuid)
  wf : Machines.WF user machines
  mem : r ∈ machines
  bound : ∀ id, Machines.boundKey machines user id = Machines.boundKey s.machines user id

theorem Registers.key {q : Machines.Requested} {enrollmentKeyId : Option String} {r : MachineRow}
    {machines : List MachineRow} (h : Registers s user q enrollmentKeyId draw r machines)
    (hs : enrollmentKeyId.isSome) : r.enrollmentKeyId = enrollmentKeyId := by
  rcases h.found with ⟨-, -, hkey, -⟩ | ⟨-, -, ⟨machineKey, rfl⟩, -⟩
  · exact hkey hs
  · rfl

theorem Registers.row? {q : Machines.Requested} {enrollmentKeyId : Option String} {r : MachineRow}
    {machines : List MachineRow} (h : Registers s user q enrollmentKeyId draw r machines) :
    Machines.row? machines user r.machineId = some r := h.wf.row?_of_mem h.mem

/-- The use of an enrolment key, recorded now or before. -/
def Uses (s s' : Databases) (now : Int) (keyId : String) (request : MachineRegistrationRequest)
    (machineId : String) : Prop :=
  (s'.enrollmentUses = s.enrollmentUses ∧ ∃ u ∈ s.enrollmentUses, u.enrollmentKeyId = keyId ∧
      u.localRegistrationId = Strip.strip request.localRegistrationId ∧
      u.requestFingerprint = requestFingerprint request ∧ u.machineId = some machineId) ∨
    ((∀ u ∈ s.enrollmentUses, u.enrollmentKeyId ≠ keyId) ∧ s'.enrollmentUses = s.enrollmentUses ++
      [⟨keyId, Strip.strip request.localRegistrationId, requestFingerprint request, some machineId, now⟩])

/-- The enrolment key a registration is made under. -/
def enrollmentKeyOf (principal : Principal) : Option String :=
  if .admin ∈ principal.scopes then none else principal.keyId

/-- If the enrolment key was used before, it was for this request. -/
def UsedFor (s : Databases) (enrollmentKeyId : Option String) (request : MachineRegistrationRequest) : Prop :=
  ∀ u ∈ s.enrollmentUses, enrollmentKeyId = some u.enrollmentKeyId →
    u.localRegistrationId = Strip.strip request.localRegistrationId ∧
      u.requestFingerprint = requestFingerprint request

/-- The ways in which a registration is refused. -/
inductive Refused (s : Databases) (user : String) (principal : Principal) (request : MachineRegistrationRequest) : Prop
  | authority (h : .admin ∉ principal.scopes) (h' : .enroll ∉ principal.scopes ∨ principal.keyId = none)
  | consumed (u : EnrollmentUse) (hu : u ∈ s.enrollmentUses) (hk : enrollmentKeyOf principal = some u.enrollmentKeyId)
    (h : u.localRegistrationId ≠ Strip.strip request.localRegistrationId ∨
      u.requestFingerprint ≠ requestFingerprint request)
  | texts (e : StoreError) (h : Machines.requested request = .error e)
  | conflict (q : Machines.Requested) (r : MachineRow) (hq : Machines.requested request = .ok q)
    (hr : Machines.registration? s.machines user q.registrationId = some r)
    (h : (enrollmentKeyOf principal).isSome ∧ r.enrollmentKeyId ≠ enrollmentKeyOf principal ∨ ¬Machines.Replays r q)
  | exhausted (q : Machines.Requested) (hq : Machines.requested request = .ok q)
    (hr : Machines.registration? s.machines user q.registrationId = none)

/-- A registration that returned. -/
structure Registered (s s' : Databases) (user : String) (draw : Draw) (principal : Principal)
    (request : MachineRegistrationRequest) (r : MachineRow) (machines : List MachineRow)
    (result : MachineRegistrationResult) : Prop where
  authority : .admin ∈ principal.scopes ∨ .enroll ∈ principal.scopes
  registers : ∃ q, Machines.requested request = .ok q ∧
    Registers s user q (enrollmentKeyOf principal) draw r machines
  machines : s'.machines = Machines.setBinding machines user r.machineId (some draw.key)
  credentials : Credentials.Reissued s.credentials s'.credentials r.machineId draw.key
  uses : (.admin ∈ principal.scopes ∧ s'.enrollmentUses = s.enrollmentUses) ∨
    ∃ key, enrollmentKeyOf principal = some key ∧ Uses s s' draw.now key request r.machineId
  machine : result.machine = { r.toMachine with credentialKeyId := some draw.key }
  key : result.keyId = draw.key

/-- The state of a registration after it has recorded the use of its enrolment key. -/
private structure Consumed (s s1 : Databases) (principal : Principal) (draw : Draw)
    (request : MachineRegistrationRequest) (consumed : Bool) : Prop where
  same : s1 = { s with enrollmentUses := s1.enrollmentUses }
  uses : (.admin ∈ principal.scopes ∧ consumed = false ∧ s1.enrollmentUses = s.enrollmentUses) ∨
    (.admin ∉ principal.scopes ∧ ∃ key, principal.keyId = some key ∧
      ((consumed = true ∧ s1.enrollmentUses = s.enrollmentUses ∧ ∃ u ∈ s.enrollmentUses, u.enrollmentKeyId = key ∧
          u.localRegistrationId = Strip.strip request.localRegistrationId ∧
          u.requestFingerprint = requestFingerprint request) ∨
        (consumed = false ∧ (∀ u ∈ s.enrollmentUses, u.enrollmentKeyId ≠ key) ∧ s1.enrollmentUses = s.enrollmentUses ++
          [⟨key, Strip.strip request.localRegistrationId, requestFingerprint request, none, draw.now⟩])))

private theorem Consumed.usedFor (hw : s.WF user) {s1 : Databases} {request : MachineRegistrationRequest}
    {consumed : Bool}
    (h : Consumed s s1 principal draw request consumed) : UsedFor s (enrollmentKeyOf principal) request := by
  intro u hu huk
  unfold enrollmentKeyOf at huk
  rcases h.uses with ⟨hadmin, -⟩ | ⟨hadmin, key, hkey, ⟨-, -, v, hv, hvk, hsame⟩ | ⟨-, hnone, -⟩⟩
  · rw [if_pos hadmin] at huk
    cases huk
  · rw [if_neg hadmin, hkey] at huk
    have huv : u = v := List.inj_on_of_nodup_map hw.uses hu hv ((Option.some.inj huk).symm.trans hvk.symm)
    rw [huv]
    exact hsame
  · rw [if_neg hadmin, hkey] at huk
    exact absurd (Option.some.inj huk).symm (hnone u hu)

private theorem consume_spec {request : MachineRegistrationRequest} :
    Ends (consumeEnrollment draw principal request)
      (fun consumed s1 => Consumed s s1 principal draw request consumed)
      (fun e s1 => s1 = s ∧ e ≠ .died ∧ Refused s user principal request) s := by
  unfold consumeEnrollment
  refine Ends.ite (fun hadmin => ?_) fun hadmin => ?_
  · exact ends_pure.2 ⟨rfl, .inl ⟨hadmin, rfl, rfl⟩⟩
  · rw [ends_bind]
    unfold enrollmentKey
    cases hkey : principal.keyId with
    | none => exact ends_throw.2 ⟨rfl, by simp, .authority hadmin (.inr hkey)⟩
    | some key =>
      refine ends_pure.2 (ends_onUses.2 ?_)
      have hof : enrollmentKeyOf principal = some key := by
        unfold enrollmentKeyOf
        rw [if_neg hadmin, hkey]
      unfold Credentials.consumeEnrollment
      cases hf : s.enrollmentUses.find? fun u => u.enrollmentKeyId = key with
      | none =>
        refine ⟨fun e he => (by cases he), fun consumed us hus => ?_⟩
        cases hus
        refine ⟨rfl, .inr ⟨hadmin, key, hkey, .inr ⟨rfl, fun u hu => ?_, rfl⟩⟩⟩
        simpa using List.find?_eq_none.1 hf u hu
      | some u =>
        have hu := List.mem_of_find?_eq_some hf
        have huk : u.enrollmentKeyId = key := by simpa using List.find?_some hf
        simp only
        split
        · refine ⟨fun e he => ?_, fun a us hus => (by cases hus)⟩
          cases he
          exact ⟨trivial, by simp, .consumed u hu (by rw [hof, huk]) ‹_›⟩
        · rename_i hsame
          simp only [ne_eq, not_or, not_not] at hsame
          refine ⟨fun e he => (by cases he), fun consumed us hus => ?_⟩
          cases hus
          exact ⟨rfl, .inr ⟨hadmin, key, hkey, .inl ⟨rfl, rfl, u, hu, huk, hsame⟩⟩⟩

/-- A use that was recorded before has led to the row of the request. -/
private theorem Databases.WF.row_of_use (hw : s.WF user) {request : MachineRegistrationRequest} {u : EnrollmentUse}
    (hu : u ∈ s.enrollmentUses) (hid : u.localRegistrationId = Strip.strip request.localRegistrationId)
    {q : Machines.Requested} (hq : Machines.requested request = .ok q) :
    ∃ r, Machines.registration? s.machines user q.registrationId = some r ∧
      r.enrollmentKeyId = some u.enrollmentKeyId ∧ u.machineId = some r.machineId := by
  obtain ⟨r, hr, hrid, hrk, hrm⟩ := hw.ledger u hu
  refine ⟨r, ?_, hrk, hrm⟩
  rw [(Machines.requested_ok hq).1, ← hid, ← hrid]
  exact hw.machines.registration?_of_mem hr

private theorem registers_of_ok (hw : s.WF user) {request : MachineRegistrationRequest}
    {consumed : Bool} {m : Machine} {machines : List MachineRow} {key : Option String}
    (h : Machines.registerMachine s.machines nfkd user request key consumed draw = .ok (m, machines))
    (hrec : ∀ q r, Machines.requested request = .ok q →
      Machines.registration? s.machines user q.registrationId = some r → consumed = true → r.enrollmentKeyId ≠ none) :
    ∃ q r, Machines.requested request = .ok q ∧ m = r.toMachine ∧ Registers s user q key draw r machines ∧
      (r ∈ s.machines ∨ r.credentialKeyId = none) := by
  obtain ⟨q, hq, ⟨r, hr, hm, hms, hkey, hrep⟩ | ⟨hr, machineKey, hword, hm, hms, hfree⟩⟩ :=
    Machines.registerMachine_ok h hrec
  · have hmem := Machines.mem_of_registration? hr
    refine ⟨q, r, hq, hm, ⟨hmem.2.2, .inl ⟨hr, hms, hkey, hrep⟩, ?_, ?_, ?_⟩, .inl hmem.1⟩ <;> rw [hms]
    · exact hw.machines
    · exact hmem.1
    · exact fun _ => rfl
  · refine ⟨q, _, hq, hm, ⟨rfl, .inr ⟨hr, hms, ⟨machineKey, rfl⟩, rfl⟩, ?_, ?_, ?_⟩, .inr rfl⟩ <;> rw [hms]
    · exact hw.machines.append hword hfree
    · simp
    · exact fun _ => Machines.boundKey_append

private theorem bindEnrollmentUse_eq (hw : s.WF user) {s1 : Databases} {request : MachineRegistrationRequest}
    {consumed : Bool} (hadmin : .admin ∉ principal.scopes) (hc : Consumed s s1 principal draw request consumed)
    {q : Machines.Requested} (hq : Machines.requested request = .ok q) {r : MachineRow} {machines : List MachineRow}
    {key : String} (hkey : principal.keyId = some key)
    (hreg : Registers s user q (some key) draw r machines) :
    ∃ us, Credentials.bindEnrollmentUse s1.enrollmentUses key r.machineId = .ok us ∧
      ∀ s' : Databases, s'.enrollmentUses = us → Uses s s' draw.now key request r.machineId := by
  unfold Credentials.bindEnrollmentUse
  rcases hc.uses with ⟨h, -⟩ | ⟨-, key', hkey', hcase⟩
  · exact absurd h hadmin
  rw [hkey] at hkey'
  cases hkey'
  rcases hcase with ⟨-, hus, u, hu, huk, hid, hfp⟩ | ⟨-, hnone, hus⟩
  · -- the key was used before: its row names the machine already
    obtain ⟨r', hr', -, hum⟩ := Databases.WF.row_of_use hw hu hid hq
    have hsame : r' = r := by
      rcases hreg.found with ⟨hr, -⟩ | ⟨hr, -⟩
      · rw [hr'] at hr
        exact Option.some.inj hr
      · rw [hr'] at hr
        cases hr
    rw [hsame] at hum
    have huse : ∀ v ∈ s.enrollmentUses, Credentials.isUseFor key r.machineId v = true ↔ v.enrollmentKeyId = key := by
      intro v hv
      simp only [Credentials.isUseFor, Bool.and_eq_true, decide_eq_true_eq]
      constructor
      · exact fun h => h.1
      · intro hvk
        rw [List.inj_on_of_nodup_map hw.uses hv hu (hvk.trans huk.symm), hum]
        exact ⟨huk, by simp⟩
    have hcount : s.enrollmentUses.countP (Credentials.isUseFor key r.machineId) = 1 := by
      have hone : (s.enrollmentUses.map (·.enrollmentKeyId)).count key = 1 :=
        List.count_eq_one_of_mem hw.uses (List.mem_map.2 ⟨u, hu, huk⟩)
      rw [List.count_eq_countP, List.countP_map] at hone
      rw [← hone]
      refine List.countP_congr fun v hv => ?_
      rw [huse v hv]
      simp
    rw [hus, if_neg (by rw [hcount]; simp)]
    refine ⟨_, rfl, fun s' hs' => .inl ⟨hs'.trans ?_, u, hu, huk, hid, hfp, hum⟩⟩
    refine (List.map_congr_left fun v hv => ?_).trans (List.map_id _)
    split
    · rename_i hv'
      rw [huse v hv] at hv'
      rw [List.inj_on_of_nodup_map hw.uses hv hu (hv'.trans huk.symm)]
      obtain ⟨ek, id, fp, mid, t⟩ := u
      simp only at hum
      rw [hum]
      rfl
    · rfl
  · have hfalse : ∀ v ∈ s.enrollmentUses, Credentials.isUseFor key r.machineId v = false := by
      intro v hv
      simp [Credentials.isUseFor, hnone v hv]
    have hcount : s1.enrollmentUses.countP (Credentials.isUseFor key r.machineId) = 1 := by
      rw [hus, List.countP_append, List.countP_eq_zero.2 fun v hv => by simp [hfalse v hv]]
      simp [Credentials.isUseFor]
    rw [if_neg (by rw [hcount]; simp)]
    refine ⟨_, rfl, fun s' hs' => .inr ⟨hnone, hs'.trans ?_⟩⟩
    rw [hus, List.map_append]
    congr 1
    · refine (List.map_congr_left fun v hv => ?_).trans (List.map_id _)
      rw [if_neg (by simp [hfalse v hv])]
      rfl
    · simp [Credentials.isUseFor]

private theorem bindEnrollmentUse_spec (hw : s.WF user) {s1 s2 : Databases} {request : MachineRegistrationRequest}
    {consumed : Bool} (hc : Consumed s s1 principal draw request consumed) {q : Machines.Requested}
    (hq : Machines.requested request = .ok q) {r : MachineRow} {machines : List MachineRow}
    (hreg : Registers s user q (enrollmentKeyOf principal) draw r machines)
    (hs2 : s2.enrollmentUses = s1.enrollmentUses) :
    Ends (bindEnrollmentUse principal r.machineId)
      (fun _ s3 => ∃ us, s3 = { s2 with enrollmentUses := us } ∧
        ((.admin ∈ principal.scopes ∧ us = s.enrollmentUses) ∨ ∃ key, enrollmentKeyOf principal = some key ∧
          ∀ s' : Databases, s'.enrollmentUses = us → Uses s s' draw.now key request r.machineId))
      (fun _ _ => False) s2 := by
  unfold bindEnrollmentUse
  refine Ends.ite (fun hadmin => ?_) fun hadmin => ?_
  · rcases hc.uses with ⟨-, -, hus⟩ | ⟨hno, -⟩
    · exact ends_pure.2 ⟨s.enrollmentUses, by rw [← hus, ← hs2], .inl ⟨hadmin, rfl⟩⟩
    · exact absurd hadmin hno
  · rw [ends_bind]
    unfold enrollmentKey
    cases hkey : principal.keyId with
    | none =>
      rcases hc.uses with ⟨h, -⟩ | ⟨-, key, hkey', -⟩
      · exact absurd h hadmin
      · rw [hkey] at hkey'
        cases hkey'
    | some key =>
      have hof : enrollmentKeyOf principal = some key := by
        unfold enrollmentKeyOf
        rw [if_neg hadmin, hkey]
      rw [hof] at hreg
      obtain ⟨us, hus, huses⟩ := bindEnrollmentUse_eq hw hadmin hc hq hkey hreg
      refine ends_pure.2 (ends_onUses.2 ?_)
      rw [hs2, hus]
      refine ⟨fun e he => (by cases he), fun a us' hus' => ?_⟩
      cases hus'
      exact ⟨us, rfl, .inr ⟨key, hof, huses⟩⟩

private theorem retirePrevious_spec (s : Databases) (h : Credentials.WF s.credentials) {previous : Option String}
    {credentials : List Credential} {successor : String}
    (hsnap : ∀ k, previous =
      some k → ((credentials.any fun c => c.keyId = k) = true ↔ Stored s.credentials machineId k))
    {Q : Unit → Databases → Prop} {E : LifecycleError → Databases → Prop} {now : Int}
    (hQ : Q () { s with credentials := Credentials.revokeWhere s.credentials now (some successor) fun c =>
      c.machineId = some machineId && some c.keyId = previous }) :
    Ends (retirePrevious now machineId previous credentials successor) Q E s := by
  have hnothing : (∀ c ∈ s.credentials, (c.machineId = some machineId && some c.keyId = previous) = false) →
    Q () s := by
    intro hnone
    rw [Credentials.revokeWhere_eq_self fun c hc hp => ?_] at hQ
    · exact hQ
    · rw [hnone c hc] at hp
      cases hp
  unfold retirePrevious
  cases previous with
  | none => exact hnothing fun c _ => by simp
  | some previous =>
    simp only
    refine Ends.ite (fun hany => ?_) fun hany => ?_
    · obtain ⟨c, hc, hk, hm⟩ := (hsnap previous rfl).1 hany
      subst hk
      refine revokeMachineKey_spec h hc hm _ ?_
      have hsame : (fun d : Credential => d.machineId = some machineId && some d.keyId = some c.keyId : Credential →
        Bool) =
          Credentials.isMachineKey c.keyId machineId := by
        funext d
        simp [Credentials.isMachineKey, Bool.and_comm]
      rw [hsame] at hQ
      exact hQ
    · refine hnothing fun c hc => ?_
      rw [← Bool.not_eq_true]
      intro hp
      simp only [Bool.and_eq_true, decide_eq_true_eq, Option.some.injEq] at hp
      exact hany ((hsnap previous rfl).2 ⟨c, hc, hp.2, hp.1⟩)

/-- What is left of a registration that is refused, or dies after one of its commits. -/
def Unregistered (s s' : Databases) (user : String) (draw : Draw) (principal : Principal)
    (request : MachineRegistrationRequest) (e : LifecycleError) : Prop :=
  s'.credentials = s.credentials ∧ s'.enrollmentUses = s.enrollmentUses ∧
    ((e ≠ .died ∧ s'.machines = s.machines ∧ Refused s user principal request) ∨
      (e = .died ∧ s.dies ≠ none ∧ (.admin ∈ principal.scopes ∨ .enroll ∈ principal.scopes) ∧
        UsedFor s (enrollmentKeyOf principal) request ∧ ∃ q r machines, Machines.requested request = .ok q ∧
          Registers s user q (enrollmentKeyOf principal) draw r machines ∧
          (s'.machines = machines ∨ s'.machines = Machines.setBinding machines user r.machineId (some draw.key))))

/-- A registration that returns reissues the key of the machine it finds or adds. -/
theorem register_reissues (hw : s.WF user) (hf : s.Fresh draw) {request : MachineRegistrationRequest} :
    Ends (register nfkd user draw principal request)
      (fun result s' => ∃ r machines, Registered s s' user draw principal request r machines result ∧
        s'.credentials = Credentials.reissue s.credentials draw r.machineId r.machineKey r.credentialKeyId)
      (fun e s' => Unregistered s s' user draw principal request e) s := by
  unfold register
  refine Ends.ite (fun hno => ?_) fun hscope => ?_
  · exact ⟨rfl, rfl, .inl ⟨by simp, rfl, .authority hno.1 (.inl hno.2)⟩⟩
  replace hscope : .admin ∈ principal.scopes ∨ .enroll ∈ principal.scopes := by tauto
  rw [ends_immediateTransaction, ends_bind]
  refine (@consume_spec user draw principal s request).mono (fun consumed s1 hc => ?_) (fun e s1 he => ?_)
  swap
  · obtain ⟨rfl, hne, href⟩ := he
    exact ⟨rfl, rfl, .inl ⟨hne, rfl, href⟩⟩
  obtain ⟨ms, cs, us, dies⟩ := s1
  obtain ⟨rfl, rfl, rfl⟩ : ms = s.machines ∧ cs = s.credentials ∧ dies = s.dies := by
    have := hc.same
    simpa using this
  have hrec : ∀ q r, Machines.requested request = .ok q →
      Machines.registration? s.machines user q.registrationId = some r → consumed =
        true → r.enrollmentKeyId ≠ none := by
    rintro q r hq hr rfl
    rcases hc.uses with ⟨-, h, -⟩ | ⟨-, key, -, ⟨-, -, u, hu, -, hid, -⟩ | ⟨h, -⟩⟩
    · cases h
    · obtain ⟨r', hr', hrk, -⟩ := Databases.WF.row_of_use hw hu hid hq
      rw [hr] at hr'
      cases hr'
      rw [hrk]
      simp
    · cases h
  have hkeyof : (if .admin ∈ principal.scopes then none else principal.keyId) = enrollmentKeyOf principal := rfl
  rw [ends_bind, ends_reading]
  refine ⟨fun e he => ⟨rfl, rfl, .inl ?_⟩, fun existing _ => ?_⟩
  · unfold Machines.machineForRegistration at he
    cases htext : Machines.catalogText request.localRegistrationId "local_registration_id" 128 with
    | ok id => rw [htext] at he; cases he
    | error e' =>
      rw [htext] at he
      cases he
      exact ⟨by simp, rfl, .texts e' (Machines.requested_error htext)⟩
  rw [ends_bind, ends_committing, hkeyof]
  refine ⟨fun e he => ⟨rfl, rfl, .inl ?_⟩, fun m machines hm => ?_⟩
  · obtain ⟨hne, ⟨e', htext⟩ | ⟨q, hq, ⟨r, hr, hbad⟩ | hr⟩⟩ := Machines.registerMachine_error he hrec
    · exact ⟨hne, rfl, .texts e' htext⟩
    · exact ⟨hne, rfl, .conflict q r hq hr hbad⟩
    · exact ⟨hne, rfl, .exhausted q hq hr⟩
  obtain ⟨q, r, hq, rfl, hreg, hold⟩ := registers_of_ok hw hm hrec
  refine ⟨fun hdies => ⟨rfl, rfl,
    .inr ⟨rfl, by rw [hdies]; simp, hscope, hc.usedFor hw, q, r, machines, hq, hreg, .inl rfl⟩⟩,
    fun dies1 _ hdies1 => ?_⟩
  have hunbound : ∀ r' ∈ machines, r'.credentialKeyId ≠ some draw.key := by
    intro r' hr'
    rcases hreg.found with ⟨-, hms, -⟩ | ⟨-, hms, ⟨machineKey, hnew⟩, -⟩
    · exact hf.bound r' (hms ▸ hr')
    · rw [hms, List.mem_append, List.mem_singleton] at hr'
      rcases hr' with hr' | hr'
      · exact hf.bound r' hr'
      · rw [hr', hnew]
        simp [Machines.newRow]
  have hbind := hreg.wf.bindMachineCredential_eq hreg.mem draw.key_valid
    fun r' hr' hk => absurd hk (hunbound r' hr')
  rw [ends_bind]
  refine ends_bind.2 (ends_get.2 (ends_pure.2 ?_))
  rw [ends_bind]
  dsimp only
  have hused := bindEnrollmentUse_spec hw hc hq hreg
    (rfl : (⟨machines, s.credentials, us, dies1⟩ : Databases).enrollmentUses = us)
  refine hused.mono (fun _ s2 hs2 => ?_) fun _ _ he => he.elim
  obtain ⟨us', rfl, huses⟩ := hs2
  rw [ends_bind]
  refine revokeOthers_spec ⟨machines, s.credentials, us', dies1⟩ hw.credentials r.credentialKeyId ?_
  -- the key that is issued is new
  have hkept : ∀ d ∈ Credentials.revokeWhere s.credentials draw.now none (fun c =>
      c.machineId = some r.machineId && some c.keyId ≠ r.credentialKeyId && c.active draw.now), d.keyId ≠ draw.key := by
    intro d hd
    obtain ⟨d', hd', hdd⟩ := Credentials.mem_revokeWhere.1 hd
    split at hdd <;> subst hdd <;> exact (hf.key d' hd').1
  rw [ends_bind, ends_onCredentials,
    Credentials.issueMachine_eq none (hreg.wf.uuids r hreg.mem) (hreg.wf.words r hreg.mem) hkept]
  refine ⟨fun e he => (by cases he), fun issued cs hcs => ?_⟩
  cases hcs
  rw [ends_bind, ends_committing]
  simp only [Credentials.machineCredential, hbind]
  refine ⟨fun e he => (by cases he), fun bound ms hms => ?_⟩
  cases hms
  refine ⟨fun hdies => ⟨rfl, rfl, .inr ⟨rfl, fun hn => ?_, hscope, hc.usedFor hw, q, r, machines, hq, hreg,
      .inr rfl⟩⟩,
    fun dies2 _ _ => ?_⟩
  · rw [hdies1] at hdies
    simp only [hn] at hdies
    cases hdies
  have hwf : Credentials.WF (Credentials.revokeWhere s.credentials draw.now none (fun c =>
      c.machineId = some r.machineId && some c.keyId ≠ r.credentialKeyId && c.active draw.now) ++
        [Credentials.machineCredential draw r.machineId r.machineKey none]) :=
    hw.credentials.revokeWhere.append_machineCredential hkept
  rw [ends_bind]
  refine retirePrevious_spec ⟨_, _, us', dies2⟩ hwf (fun k hk => ?_) ?_
  · -- the rows read before the revocations show which keys are stored
    have hne : k ≠ draw.key := by
      rintro rfl
      exact hunbound r hreg.mem hk
    simp only [List.any_eq_true, Credentials.mem_machineCredentials, decide_eq_true_eq]
    constructor
    · rintro ⟨c, ⟨hcmem, hcm⟩, hck⟩
      refine ⟨_, List.mem_append_left _ (Credentials.mem_revokeWhere.2 ⟨c, hcmem, rfl⟩), ?_⟩
      split
      · exact ⟨hck, hcm⟩
      · exact ⟨hck, hcm⟩
    · rintro ⟨c, hcmem, hck, hcm⟩
      rcases List.mem_append.1 hcmem with hcmem | hcmem
      · obtain ⟨d, hd, hdc⟩ := Credentials.mem_revokeWhere.1 hcmem
        split at hdc <;> subst hdc <;> exact ⟨d, ⟨hd, hcm⟩, hck⟩
      · rw [List.mem_singleton] at hcmem
        subst hcmem
        exact absurd hck.symm hne
  · refine ends_pure.2 ⟨r, machines, ⟨hscope, ⟨q, hq, hreg⟩, rfl, ?_, ?_, rfl, rfl⟩, rfl⟩
    · exact hw.credentials.reissued (fun d hd => (hf.key d hd).1) (hunbound r hreg.mem)
    · rcases huses with ⟨hadmin, hus⟩ | ⟨key, hkey, huse⟩
      · exact .inl ⟨hadmin, hus⟩
      · exact .inr ⟨key, hkey, huse _ rfl⟩

/-- A registration is refused, dies after one of its commits, or reissues the key of the machine it finds or adds. -/
theorem register_spec (hw : s.WF user) (hf : s.Fresh draw) {request : MachineRegistrationRequest} :
    Ends (register nfkd user draw principal request)
      (fun result s' => ∃ r machines, Registered s s' user draw principal request r machines result)
      (fun e s' => s'.credentials = s.credentials ∧ s'.enrollmentUses = s.enrollmentUses ∧
        ((e ≠ .died ∧ s'.machines = s.machines ∧ Refused s user principal request) ∨
          (e = .died ∧ s.dies ≠ none ∧ (.admin ∈ principal.scopes ∨ .enroll ∈ principal.scopes) ∧
            UsedFor s (enrollmentKeyOf principal) request ∧ ∃ q r machines, Machines.requested request = .ok q ∧
              Registers s user q (enrollmentKeyOf principal) draw r machines ∧
              (s'.machines = machines ∨
                s'.machines = Machines.setBinding machines user r.machineId (some draw.key))))) s := by
  refine (register_reissues hw hf).mono (fun result s' hs' => ?_) fun _ _ he => he
  obtain ⟨r, machines, h, -⟩ := hs'
  exact ⟨r, machines, h⟩

end Coordinator

end Ctxd

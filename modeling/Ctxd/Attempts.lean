import Ctxd.Lifecycle

/-!
# Attempts at the lifecycle of keys

An attempt is a call of the coordinator by some principal, in a process that may die after one of its commits to the
catalog.  `Move` lists what an attempt can do to the databases; whatever an invariant says about a run of attempts is
proved of the moves.  Each machine sees a move as a `Rotation.Step` of its keys, or not at all.
-/

namespace Ctxd

open Program

namespace Coordinator

inductive Call
  | register (principal : Principal) (request : MachineRegistrationRequest)
  | prepare (principal : Principal) (machineId : String)
  | confirm (principal : Principal) (machineId replacementKeyId : String)
  | revoke (principal : Principal) (machineId : String)

/-- What a call returns. -/
inductive Response
  | registered (result : MachineRegistrationResult)
  | prepared (keyId : String)
  | updated (machine : Machine)
  deriving DecidableEq

structure Attempt where
  call : Call
  draw : Draw
  dies : Option Nat

variable (nfkd : String → String) (user : String)

def Call.program (draw : Draw) : Call → LifecycleM Response
  | .register principal request => .registered <$> Coordinator.register nfkd user draw principal request
  | .prepare principal machineId => .prepared <$> prepareRotation user draw principal machineId
  | .confirm principal machineId replacementKeyId =>
    .updated <$> confirmRotation user draw principal machineId replacementKeyId
  | .revoke principal machineId => .updated <$> Coordinator.revoke user draw principal machineId

def Attempt.run (a : Attempt) (s : Databases) : EStateM.Result LifecycleError Databases Response :=
  a.call.program nfkd user a.draw { s with dies := a.dies }

/-- The databases after an attempt. -/
def Attempt.after (s : Databases) (a : Attempt) : Databases :=
  endState (a.call.program nfkd user a.draw) { s with dies := a.dies }

def runAttempts (s : Databases) (attempts : List Attempt) : Databases := attempts.foldl (Attempt.after nfkd user) s

/-- No attempt draws what occurs in the databases it meets. -/
def FreshRun : Databases → List Attempt → Prop
  | _, [] => True
  | s, a :: rest => s.Fresh a.draw ∧ FreshRun (a.after nfkd user s) rest

instance (s : Databases) (draw : Draw) : Decidable (s.Fresh draw) :=
  decidable_of_iff ((∀ c ∈ s.credentials, c.keyId ≠ draw.key ∧ c.rotationFrom ≠ some draw.key) ∧
      (∀ r ∈ s.machines, r.credentialKeyId ≠ some draw.key) ∧ (∀ r ∈ s.machines, r.machineId ≠ draw.uuid) ∧
      ∀ c ∈ s.credentials, c.machineId ≠ some draw.uuid)
    ⟨fun h => ⟨h.1, h.2.1, h.2.2.1, h.2.2.2⟩, fun h => ⟨h.key, h.bound, h.rows, h.machine⟩⟩

instance decidableFreshRun : (s : Databases) → (attempts : List Attempt) → Decidable (FreshRun nfkd user s attempts)
  | _, [] => inferInstanceAs (Decidable True)
  | s, a :: rest =>
    have := decidableFreshRun (a.after nfkd user s) rest
    inferInstanceAs (Decidable (s.Fresh a.draw ∧ FreshRun nfkd user (a.after nfkd user s) rest))

/-- Databases before the first registration: the credential store may hold keys of services. -/
structure Initial (s : Databases) : Prop where
  machines : s.machines = []
  uses : s.enrollmentUses = []
  credentials : Credentials.WF s.credentials
  services : ∀ c ∈ s.credentials, c.machineId = none

def Reachable (s : Databases) : Prop :=
  ∃ s0 attempts, Initial s0 ∧ FreshRun nfkd user s0 attempts ∧ s = runAttempts nfkd user s0 attempts

theorem Databases.WF.of_dies {s : Databases} (h : s.WF user) (dies : Option Nat) :
    ({ s with dies := dies } : Databases).WF user :=
  ⟨h.machines, h.credentials, h.uses, h.ledger, h.bindings⟩

theorem Databases.Fresh.of_dies {s : Databases} {draw : Draw} (h : s.Fresh draw) (dies : Option Nat) :
    ({ s with dies := dies } : Databases).Fresh draw :=
  ⟨h.key, h.bound, h.rows, h.machine⟩

/-! ### Moves -/

/-- What an attempt can do to the databases. -/
inductive Move (a : Attempt) (s s' : Databases) : Prop
  | stay (hm : s'.machines = s.machines) (hc : s'.credentials = s.credentials)
    (hu : s'.enrollmentUses = s.enrollmentUses)
  /-- A registration that died after its first commit, or after its second. -/
  | tornRegister (principal : Principal) (request : MachineRegistrationRequest) (q : Machines.Requested)
  (r : MachineRow)
    (machines : List MachineRow) (ha : a.call = .register principal request)
    (hscope : .admin ∈ principal.scopes ∨ .enroll ∈ principal.scopes)
    (hq : Machines.requested request = .ok q) (hreg : Registers s user q (enrollmentKeyOf principal) a.draw r machines)
    (hm : s'.machines = machines ∨ s'.machines = Machines.setBinding machines user r.machineId (some a.draw.key))
    (hc : s'.credentials = s.credentials) (hu : s'.enrollmentUses = s.enrollmentUses)
  | registered (principal : Principal) (request : MachineRegistrationRequest) (r : MachineRow)
    (machines : List MachineRow) (result : MachineRegistrationResult) (ha : a.call = .register principal request)
    (h : Registered s s' user a.draw principal request r machines result)
  | prepared (principal : Principal) (r : MachineRow) (ha : a.call = .prepare principal r.machineId)
    (hrow : Machines.row? s.machines user r.machineId = some r) (hcur : Current principal false r)
    (hm : s'.machines = s.machines) (hu : s'.enrollmentUses = s.enrollmentUses)
    (hc : s'.credentials = Credentials.revokeWhere s.credentials a.draw.now none (fun c =>
      c.machineId = some r.machineId && some c.keyId ≠ r.credentialKeyId && c.active a.draw.now) ++
        [Credentials.machineCredential a.draw r.machineId r.machineKey r.credentialKeyId])
  | tornConfirm (r : MachineRow) (replacementKeyId : String) (h : Confirms s s' user a.draw.now r replacementKeyId)
    (hc : s'.credentials = s.credentials) (hu : s'.enrollmentUses = s.enrollmentUses)
  | confirmed (principal : Principal) (r : MachineRow) (b replacementKeyId : String) (m : Machine)
    (h : Confirmed s s' user a.draw.now principal r b replacementKeyId m)
  | tornRevoke (r : MachineRow) (b : String) (hrow : Machines.row? s.machines user r.machineId = some r)
    (hb : r.credentialKeyId = some b) (hm : s'.machines = Machines.setBinding s.machines user r.machineId none)
    (hc : s'.credentials = s.credentials) (hu : s'.enrollmentUses = s.enrollmentUses)
  | revoked (principal : Principal) (r : MachineRow) (m : Machine)
    (h : Revoked s s' user a.draw.now principal r m)

variable {nfkd user} {s : Databases} {a : Attempt}

theorem Attempt.after_of_ok {response : Response} {s' : Databases} (h : a.run nfkd user s = .ok response s') :
    a.after nfkd user s = s' := by
  unfold Attempt.run at h
  unfold Attempt.after endState
  rw [h]

private theorem Move.of_dies {s' : Databases} {dies : Option Nat} (h : Move user a { s with dies := dies } s') :
    Move user a s s' := by
  cases h with
  | stay hm hc hu => exact .stay hm hc hu
  | tornRegister principal request q r machines ha hscope hq hreg hm hc hu =>
    exact .tornRegister principal request q r machines ha hscope hq
      ⟨hreg.registration, hreg.found, hreg.wf, hreg.mem, hreg.bound⟩ hm hc hu
  | registered principal request r machines result ha h =>
    obtain ⟨q, hq, hreg⟩ := h.registers
    exact .registered principal request r machines result ha
      ⟨h.authority, ⟨q, hq, hreg.registration, hreg.found, hreg.wf, hreg.mem, hreg.bound⟩, h.machines, h.credentials,
        h.uses, h.machine, h.key⟩
  | prepared principal r ha hrow hcur hm hu hc => exact .prepared principal r ha hrow hcur hm hu hc
  | tornConfirm r k h hc hu => exact .tornConfirm r k ⟨h.row, h.replacement, h.machines⟩ hc hu
  | confirmed principal r b k m h =>
    refine .confirmed principal r b k m ⟨h.uses, h.row, h.current, h.predecessor, h.credentials, h.machine, ?_⟩
    rcases h.binding with hretry | ⟨hb, hforward⟩
    · exact .inl hretry
    · exact .inr ⟨hb, hforward.row, hforward.replacement, hforward.machines⟩
  | tornRevoke r b hrow hb hm hc hu => exact .tornRevoke r b hrow hb hm hc hu
  | revoked principal r m h => exact .revoked principal r m ⟨h.uses, h.row, h.current, h.machine, h.binding⟩

/-- Every attempt is a move. -/
theorem Attempt.move (hw : s.WF user) (hf : s.Fresh a.draw) : Move user a s (a.after nfkd user s) := by
  have hw' := Databases.WF.of_dies user hw a.dies
  have hf' := Databases.Fresh.of_dies hf a.dies
  refine (?_ : Move user a { s with dies := a.dies } _).of_dies
  unfold Attempt.after
  refine Ends.endState (P := Move user a { s with dies := a.dies }) ?_
  cases hcall : a.call with
  | register principal request =>
    unfold Call.program
    rw [ends_map]
    refine (register_spec hw' hf').mono (fun result s' hs' => ?_) fun e s' hs' => ?_
    · obtain ⟨r, machines, h⟩ := hs'
      exact .registered principal request r machines result hcall h
    · obtain ⟨hc, hu, ⟨-, hm, -⟩ | ⟨-, -, hscope, -, q, r, machines, hq, hreg, hm⟩⟩ := hs'
      · exact .stay hm hc hu
      · exact .tornRegister principal request q r machines hcall hscope hq hreg hm hc hu
  | prepare principal machineId =>
    unfold Call.program
    rw [ends_map]
    refine (prepareRotation_spec hw' hf').mono (fun key s' hs' => ?_) fun e s' hs' => ?_
    · obtain ⟨r, hrow, hcur, -, hm, hu, hc⟩ := hs'
      obtain ⟨-, -, rfl⟩ := Machines.mem_of_row? hrow
      exact .prepared principal r hcall hrow hcur hm hu hc
    · obtain ⟨-, rfl⟩ := hs'
      exact .stay rfl rfl rfl
  | confirm principal machineId replacementKeyId =>
    unfold Call.program
    rw [ends_map]
    refine (confirmRotation_spec hw').mono (fun m s' hs' => ?_) fun e s' hs' => ?_
    · obtain ⟨r, b, -, h⟩ := hs'
      exact .confirmed principal r b replacementKeyId m h
    · obtain ⟨hc, hu, ⟨-, hm⟩ | ⟨r, -, h⟩⟩ := hs'
      · exact .stay hm hc hu
      · exact .tornConfirm r replacementKeyId h hc hu
  | revoke principal machineId =>
    unfold Call.program
    rw [ends_map]
    refine (revoke_spec hw').mono (fun m s' hs' => ?_) fun e s' hs' => ?_
    · obtain ⟨r, -, h⟩ := hs'
      exact .revoked principal r m h
    · obtain ⟨hc, hu, ⟨-, hm, -⟩ | ⟨-, r, b, hrow, hb, hm⟩⟩ := hs'
      · exact .stay hm hc hu
      · obtain ⟨-, -, rfl⟩ := Machines.mem_of_row? hrow
        exact .tornRevoke r b hrow hb hm hc hu

/-! ### Rows of machines stay -/

/-- Two rows of one registration, which may differ in the key they are bound to. -/
def SameRegistration (r r' : MachineRow) : Prop := r' = { r with credentialKeyId := r'.credentialKeyId }

theorem SameRegistration.refl (r : MachineRow) : SameRegistration r r := rfl

private theorem mem_setBinding {machines : List MachineRow} {machineId : String} {keyId : Option String}
    {r' : MachineRow}
    (h : r' ∈ Machines.setBinding machines user machineId keyId) : ∃ r ∈ machines, SameRegistration r r' ∧
      (r' = r ∨ (r.machineId = machineId ∧ r'.credentialKeyId = keyId)) := by
  obtain ⟨r, hr, hr'⟩ := List.mem_map.1 h
  refine ⟨r, hr, ?_⟩
  split at hr'
  · subst hr'
    rename_i hcond
    simp only [Bool.and_eq_true, decide_eq_true_eq] at hcond
    exact ⟨rfl, .inr ⟨hcond.2, rfl⟩⟩
  · subst hr'
    exact ⟨rfl, .inl rfl⟩

theorem exists_mem_setBinding {machines : List MachineRow} {machineId : String} {keyId : Option String} {r : MachineRow}
    (h : r ∈ machines) : ∃ r' ∈ Machines.setBinding machines user machineId keyId, SameRegistration r r' := by
  refine ⟨_, List.mem_map.2 ⟨r, h, rfl⟩, ?_⟩
  split <;> rfl

private theorem Registers.mem_or {q : Machines.Requested} {key : Option String} {draw : Draw} {r r' : MachineRow}
    {machines : List MachineRow} (h : Registers s user q key draw r machines) (hr' : r' ∈ machines) :
    r' ∈ s.machines ∨ (r' = r ∧ r.credentialKeyId = none ∧ r.enrollmentKeyId = key ∧ r.machineId = draw.uuid) := by
  rcases h.found with ⟨-, hms, -⟩ | ⟨-, hms, ⟨machineKey, hnew⟩, hid⟩
  · exact .inl (hms ▸ hr')
  · rw [hms, List.mem_append, List.mem_singleton] at hr'
    rcases hr' with hr' | rfl
    · exact .inl hr'
    · exact .inr ⟨rfl, by rw [hnew]; rfl, by rw [hnew]; rfl, hid⟩

private theorem Registers.of_mem {q : Machines.Requested} {key : Option String} {draw : Draw} {r r' : MachineRow}
    {machines : List MachineRow} (h : Registers s user q key draw r machines) (hr' : r' ∈ s.machines) :
    r' ∈ machines := by
  rcases h.found with ⟨-, hms, -⟩ | ⟨-, hms, -⟩ <;> rw [hms]
  · exact hr'
  · exact List.mem_append_left _ hr'

/-- A row stays, with its registration. -/
theorem Move.row_stays {s' : Databases} (h : Move user a s s') {r : MachineRow} (hr : r ∈ s.machines) :
    ∃ r' ∈ s'.machines, SameRegistration r r' := by
  cases h with
  | stay hm => exact ⟨r, hm ▸ hr, .refl r⟩
  | tornRegister principal request q r0 machines ha hscope hq hreg hm =>
    rcases hm with hm | hm <;> rw [hm]
    · exact ⟨r, hreg.of_mem hr, .refl r⟩
    · exact exists_mem_setBinding (hreg.of_mem hr)
  | registered principal request r0 machines result ha h =>
    obtain ⟨q, -, hreg⟩ := h.registers
    rw [h.machines]
    exact exists_mem_setBinding (hreg.of_mem hr)
  | prepared principal r0 ha hrow hcur hm => exact ⟨r, hm ▸ hr, .refl r⟩
  | tornConfirm r0 k h =>
    rw [h.machines]
    exact exists_mem_setBinding hr
  | confirmed principal r0 b k m h =>
    rcases h.binding with ⟨-, hm, -⟩ | ⟨-, hforward⟩
    · exact ⟨r, hm ▸ hr, .refl r⟩
    · rw [hforward.machines]
      exact exists_mem_setBinding hr
  | tornRevoke r0 b hrow hb hm =>
    rw [hm]
    exact exists_mem_setBinding hr
  | revoked principal r0 m h =>
    rcases h.binding with ⟨-, hm, -⟩ | ⟨b, -, -, hm, -⟩
    · exact ⟨r, hm ▸ hr, .refl r⟩
    · rw [hm]
      exact exists_mem_setBinding hr

/-- A row that was not there belongs to a registration, under the key of its principal. -/
theorem Move.row_comes {s' : Databases} (h : Move user a s s') {r' : MachineRow} (hr' : r' ∈ s'.machines) :
    (∃ r ∈ s.machines, SameRegistration r r') ∨ ∃ principal request, a.call = .register principal request ∧
      r'.enrollmentKeyId = enrollmentKeyOf principal ∧ r'.machineId = a.draw.uuid := by
  have back : ∀ machines machineId keyId, (∀ r ∈ machines, r ∈ s.machines) →
      r' ∈ Machines.setBinding machines user machineId keyId → ∃ r ∈ s.machines, SameRegistration r r' := by
    intro machines machineId keyId hsub hmem
    obtain ⟨r, hr, hsame, -⟩ := mem_setBinding hmem
    exact ⟨r, hsub r hr, hsame⟩
  have registering : ∀ principal request q r0 machines, a.call = .register principal request →
      Registers s user q (enrollmentKeyOf principal) a.draw r0 machines →
      (∃ r ∈ machines, SameRegistration r r') →
      (∃ r ∈ s.machines, SameRegistration r r') ∨ ∃ principal request, a.call = .register principal request ∧
        r'.enrollmentKeyId = enrollmentKeyOf principal ∧ r'.machineId = a.draw.uuid := by
    rintro principal request q r0 machines ha hreg ⟨r, hr, hsame⟩
    rcases hreg.mem_or hr with hr | ⟨rfl, -, hkey, hid⟩
    · exact .inl ⟨r, hr, hsame⟩
    · refine .inr ⟨principal, request, ha, ?_, ?_⟩ <;> rw [hsame] <;> assumption
  cases h with
  | stay hm => exact .inl ⟨r', hm ▸ hr', .refl r'⟩
  | tornRegister principal request q r0 machines ha hscope hq hreg hm =>
    refine registering principal request q r0 machines ha hreg ?_
    rcases hm with hm | hm <;> rw [hm] at hr'
    · exact ⟨r', hr', .refl r'⟩
    · obtain ⟨r, hr, hsame, -⟩ := mem_setBinding hr'
      exact ⟨r, hr, hsame⟩
  | registered principal request r0 machines result ha h =>
    obtain ⟨q, -, hreg⟩ := h.registers
    refine registering principal request q r0 machines ha hreg ?_
    rw [h.machines] at hr'
    obtain ⟨r, hr, hsame, -⟩ := mem_setBinding hr'
    exact ⟨r, hr, hsame⟩
  | prepared principal r0 ha hrow hcur hm => exact .inl ⟨r', hm ▸ hr', .refl r'⟩
  | tornConfirm r0 k h => exact .inl (back _ _ _ (fun _ hr => hr) (h.machines ▸ hr'))
  | confirmed principal r0 b k m h =>
    rcases h.binding with ⟨-, hm, -⟩ | ⟨-, hforward⟩
    · exact .inl ⟨r', hm ▸ hr', .refl r'⟩
    · exact .inl (back _ _ _ (fun _ hr => hr) (hforward.machines ▸ hr'))
  | tornRevoke r0 b hrow hb hm => exact .inl (back _ _ _ (fun _ hr => hr) (hm ▸ hr'))
  | revoked principal r0 m h =>
    rcases h.binding with ⟨-, hm, -⟩ | ⟨b, -, -, hm, -⟩
    · exact .inl ⟨r', hm ▸ hr', .refl r'⟩
    · exact .inl (back _ _ _ (fun _ hr => hr) (hm ▸ hr'))

/-! ### What every attempt keeps -/

/-- A credential after a move comes from one with the same key and machine, or is the one that was issued. -/
private theorem Move.credential_comes {s' : Databases} (h : Move user a s s') {c' : Credential}
    (hc' : c' ∈ s'.credentials) :
    (∃ c ∈ s.credentials, c.keyId = c'.keyId ∧ c.machineId = c'.machineId) ∨ c'.keyId = a.draw.key := by
  have back : ∀ successor p, c' ∈ Credentials.revokeWhere s.credentials a.draw.now successor p →
      ∃ c ∈ s.credentials, c.keyId = c'.keyId ∧ c.machineId = c'.machineId := by
    intro successor p hmem
    obtain ⟨c, hc, hcc⟩ := Credentials.mem_revokeWhere.1 hmem
    refine ⟨c, hc, ?_⟩
    split at hcc <;> subst hcc <;> exact ⟨rfl, rfl⟩
  have same : s'.credentials = s.credentials → (∃ c ∈ s.credentials, c.keyId = c'.keyId ∧ c.machineId = c'.machineId) :=
    fun hc => ⟨c', hc ▸ hc', rfl, rfl⟩
  cases h with
  | stay hm hc => exact .inl (same hc)
  | tornRegister principal request q r0 machines ha hscope hq hreg hm hc => exact .inl (same hc)
  | registered principal request r0 machines result ha h =>
    rcases h.credentials.rows c' hc' with ⟨hk, -⟩ | hold
    · exact .inr hk
    · exact .inl hold
  | prepared principal r0 ha hrow hcur hm hu hc =>
    rw [hc, List.mem_append, List.mem_singleton] at hc'
    rcases hc' with hc' | rfl
    · exact .inl (back _ _ hc')
    · exact .inr rfl
  | tornConfirm r0 k h hc => exact .inl (same hc)
  | confirmed principal r0 b k m h => exact .inl (back _ _ (h.credentials ▸ hc'))
  | tornRevoke r0 b hrow hb hm hc => exact .inl (same hc)
  | revoked principal r0 m h =>
    rcases h.binding with ⟨-, -, hc⟩ | ⟨b, -, -, -, hc⟩ <;> exact .inl (back _ _ (hc ▸ hc'))

/-- The key a machine is bound to after a move: as before, a key of the credential store, or the one that was drawn. -/
private theorem Move.binding_comes {s' : Databases} (h : Move user a s s') (hf : s.Fresh a.draw) {r' : MachineRow}
    (hr' : r' ∈ s'.machines) {k : String} (hk : r'.credentialKeyId = some k) :
    (∃ r ∈ s.machines, r.machineId = r'.machineId ∧ r.credentialKeyId = some k) ∨
      (∃ c ∈ s.credentials, c.keyId = k ∧ c.machineId = some r'.machineId) ∨
      (k = a.draw.key ∧ ∀ c ∈ s'.credentials, c.keyId = k → c.machineId = some r'.machineId) := by
  have same : s'.machines = s.machines →
      ∃ r ∈ s.machines, r.machineId = r'.machineId ∧ r.credentialKeyId = some k :=
    fun hm => ⟨r', hm ▸ hr', rfl, hk⟩
  have setting : ∀ machines machineId keyId, s'.machines = Machines.setBinding machines user machineId keyId →
      (∀ r ∈ machines, r.credentialKeyId = some k → r ∈ s.machines) →
      (∃ r ∈ s.machines, r.machineId = r'.machineId ∧ r.credentialKeyId = some k) ∨
        (r'.machineId = machineId ∧ keyId = some k) := by
    intro machines machineId keyId hm hsub
    obtain ⟨r, hr, hsame, rfl | ⟨hid, hkey⟩⟩ := mem_setBinding (hm ▸ hr')
    · exact .inl ⟨r', hsub r' hr hk, rfl, hk⟩
    · exact .inr ⟨by rw [hsame]; exact hid, hkey.symm.trans hk⟩
  have moved : ∀ r0 rep, Confirms s s' user a.draw.now r0 rep →
      (∃ r ∈ s.machines, r.machineId = r'.machineId ∧ r.credentialKeyId = some k) ∨
        ∃ c ∈ s.credentials, c.keyId = k ∧ c.machineId = some r'.machineId := by
    intro r0 rep hforward
    rcases setting _ _ _ hforward.machines fun r hr _ => hr with hold | ⟨hid, hkey⟩
    · exact .inl hold
    · obtain ⟨b, c, -, hck, -, hc⟩ := hforward.replacement
      exact .inr ⟨c, hc.mem, hck.trans (Option.some.inj hkey), by rw [hid]; exact hc.granted.2.1⟩
  have bound : ∀ q key r0 machines, Registers s user q key a.draw r0 machines →
      ∀ r ∈ machines, r.credentialKeyId = some k → r ∈ s.machines := by
    intro q key r0 machines hreg r hr hrk
    rcases hreg.mem_or hr with hr | ⟨rfl, hnone, -⟩
    · exact hr
    · rw [hnone] at hrk
      cases hrk
  cases h with
  | stay hm => exact .inl (same hm)
  | tornRegister principal request q r0 machines ha hscope hq hreg hm hc hu =>
    rcases hm with hm | hm
    · exact .inl ⟨r', bound _ _ _ _ hreg r' (hm ▸ hr') hk, rfl, hk⟩
    · rcases setting _ _ _ hm (bound _ _ _ _ hreg) with hold | ⟨-, hkey⟩
      · exact .inl hold
      · have hkd : k = a.draw.key := (Option.some.inj hkey).symm
        refine .inr (.inr ⟨hkd, fun c hcmem hck => ?_⟩)
        exact absurd (hck.trans hkd) (hf.key c (hc ▸ hcmem)).1
  | registered principal request r0 machines result ha h =>
    obtain ⟨q, -, hreg⟩ := h.registers
    rcases setting _ _ _ h.machines (bound _ _ _ _ hreg) with hold | ⟨hid, hkey⟩
    · exact .inl hold
    · have hkd : k = a.draw.key := (Option.some.inj hkey).symm
      refine .inr (.inr ⟨hkd, fun c hcmem hck => ?_⟩)
      rcases h.credentials.rows c hcmem with ⟨-, hcm⟩ | ⟨d, hd, hdk, -⟩
      · rw [hcm, hid]
      · exact absurd (hdk.trans (hck.trans hkd)) (hf.key d hd).1
  | prepared principal r0 ha hrow hcur hm => exact .inl (same hm)
  | tornConfirm r0 rep h => exact (moved r0 rep h).imp_right .inl
  | confirmed principal r0 b rep m h =>
    rcases h.binding with ⟨-, hm, -⟩ | ⟨-, hforward⟩
    · exact .inl (same hm)
    · exact (moved r0 rep hforward).imp_right .inl
  | tornRevoke r0 b hrow hb hm =>
    rcases setting _ _ _ hm fun r hr _ => hr with hold | ⟨-, hkey⟩
    · exact .inl hold
    · cases hkey
  | revoked principal r0 m h =>
    rcases h.binding with ⟨-, hm, -⟩ | ⟨b, -, -, hm, -⟩
    · exact .inl (same hm)
    · rcases setting _ _ _ hm fun r hr _ => hr with hold | ⟨-, hkey⟩
      · exact .inl hold
      · cases hkey

/-- An attempt keeps the databases well formed. -/
theorem Move.wf {s' : Databases} (h : Move user a s s') (hw : s.WF user) (hf : s.Fresh a.draw) : s'.WF user := by
  have hbindings : ∀ r' ∈ s'.machines, ∀ k, r'.credentialKeyId = some k → ∀ c ∈ s'.credentials, c.keyId = k →
      c.machineId = some r'.machineId := by
    intro r' hr' k hk c hc hck
    rcases h.binding_comes hf hr' hk with ⟨r, hr, hid, hrk⟩ | ⟨d, hd, hdk, hdm⟩ | ⟨-, hall⟩
    · rcases h.credential_comes hc with ⟨e, he, hek, hem⟩ | hnew
      · rw [← hem, ← hid]
        exact hw.bindings r hr k hrk e he (hek.trans hck)
      · exact absurd (hrk.trans (by rw [← hck, hnew])) (hf.bound r hr)
    · rcases h.credential_comes hc with ⟨e, he, hek, hem⟩ | hnew
      · rw [← hem, hw.credentials.eq_of_keyId he hd (hek.trans (hck.trans hdk.symm)), hdm]
      · exact absurd (hdk.trans (hck.symm.trans hnew)) (hf.key d hd).1
    · exact hall c hc hck
  -- a recorded use keeps the machine it names, as rows stay
  have hkept : ∀ u ∈ s.enrollmentUses, ∃ r ∈ s'.machines, r.localRegistrationId = u.localRegistrationId ∧
      r.enrollmentKeyId = some u.enrollmentKeyId ∧ u.machineId = some r.machineId := by
    intro u hu
    obtain ⟨r, hr, hid, hkey, hm⟩ := hw.ledger u hu
    obtain ⟨r', hr', hsame⟩ := h.row_stays hr
    refine ⟨r', hr', ?_, ?_, ?_⟩ <;> rw [hsame] <;> assumption
  have hstored : ∀ k, (∃ c ∈ s.credentials, c.keyId = k) → Credentials.validKeyId k = true := by
    rintro k ⟨c, hc, rfl⟩
    exact hw.credentials.valid c hc
  have hrevoked : ∀ successor p, s'.credentials = Credentials.revokeWhere s.credentials a.draw.now successor p →
      Credentials.WF s'.credentials := by
    intro successor p hc
    rw [hc]
    exact hw.credentials.revokeWhere
  have hmoved : ∀ r rep, Confirms s s' user a.draw.now r rep → Machines.WF user s'.machines := by
    intro r rep hforward
    rw [hforward.machines]
    refine hw.machines.setBinding fun k hk => ?_
    obtain ⟨b, c, -, hck, -, hc⟩ := hforward.replacement
    exact hstored k ⟨c, hc.mem, hck.trans (Option.some.inj hk)⟩
  have hcleared : ∀ id, s'.machines = Machines.setBinding s.machines user id none → Machines.WF user s'.machines := by
    intro id hm
    rw [hm]
    exact hw.machines.setBinding fun k hk => (by cases hk)
  have hbound : ∀ machines id, Machines.WF user machines →
      Machines.WF user (Machines.setBinding machines user id (some a.draw.key)) := by
    intro machines id hwf
    refine hwf.setBinding fun k hk => ?_
    cases hk
    exact a.draw.key_valid
  have same : s'.credentials = s.credentials → Credentials.WF s'.credentials := fun hc => hc ▸ hw.credentials
  have uses : s'.enrollmentUses = s.enrollmentUses → (s'.enrollmentUses.map (·.enrollmentKeyId)).Nodup ∧
      ∀ u ∈ s'.enrollmentUses, ∃ r ∈ s'.machines, r.localRegistrationId = u.localRegistrationId ∧
        r.enrollmentKeyId = some u.enrollmentKeyId ∧ u.machineId = some r.machineId :=
    fun hu => ⟨hu ▸ hw.uses, fun u hmem => hkept u (hu ▸ hmem)⟩
  suffices hparts : Machines.WF user s'.machines ∧ Credentials.WF s'.credentials ∧
      (s'.enrollmentUses.map (·.enrollmentKeyId)).Nodup ∧
      ∀ u ∈ s'.enrollmentUses, ∃ r ∈ s'.machines, r.localRegistrationId = u.localRegistrationId ∧
        r.enrollmentKeyId = some u.enrollmentKeyId ∧ u.machineId = some r.machineId from
    ⟨hparts.1, hparts.2.1, hparts.2.2.1, hparts.2.2.2, hbindings⟩
  cases h with
  | stay hm hc hu => exact ⟨hm ▸ hw.machines, same hc, uses hu⟩
  | tornRegister principal request q r machines ha hscope hq hreg hm hc hu =>
    refine ⟨?_, same hc, uses hu⟩
    rcases hm with hm | hm <;> rw [hm]
    · exact hreg.wf
    · exact hbound _ _ hreg.wf
  | registered principal request r machines result ha h =>
    obtain ⟨q, hq, hreg⟩ := h.registers
    refine ⟨h.machines ▸ hbound _ _ hreg.wf, h.credentials.wf, ?_⟩
    rcases h.uses with ⟨-, hu⟩ | ⟨key, hkey, ⟨hu, -⟩ | ⟨hnone, hu⟩⟩
    · exact uses hu
    · exact uses hu
    · rw [hu, List.map_append, List.nodup_append]
      refine ⟨⟨hw.uses, by simp, ?_⟩, fun u hmem => ?_⟩
      · rintro k hk k' hk' rfl
        obtain ⟨u, hmem, rfl⟩ := List.mem_map.1 hk
        rw [List.map_singleton, List.mem_singleton] at hk'
        exact hnone u hmem hk'
      · rcases List.mem_append.1 hmem with hmem | hmem
        · exact hkept u hmem
        · rw [List.mem_singleton] at hmem
          subst hmem
          -- the row of the request is under the key that is recorded
          obtain ⟨r', hr', hsame⟩ := @exists_mem_setBinding user machines r.machineId (some a.draw.key) r hreg.mem
          refine ⟨r', h.machines ▸ hr', ?_, ?_, ?_⟩ <;> rw [hsame]
          · exact hreg.registration.trans (Machines.requested_ok hq).1
          · exact (hreg.key (by rw [hkey]; rfl)).trans hkey
  | prepared principal r ha hrow hcur hm hu hc =>
    refine ⟨hm ▸ hw.machines, ?_, uses hu⟩
    rw [hc]
    refine hw.credentials.revokeWhere.append_machineCredential fun d hd => ?_
    obtain ⟨d', hd', hdd⟩ := Credentials.mem_revokeWhere.1 hd
    split at hdd <;> subst hdd <;> exact (hf.key d' hd').1
  | tornConfirm r rep h hc hu => exact ⟨hmoved r rep h, same hc, uses hu⟩
  | confirmed principal r b rep m h =>
    refine ⟨?_, hrevoked _ _ h.credentials, uses h.uses⟩
    rcases h.binding with ⟨-, hm, -⟩ | ⟨-, hforward⟩
    · exact hm ▸ hw.machines
    · exact hmoved r rep hforward
  | tornRevoke r b hrow hb hm hc hu => exact ⟨hcleared _ hm, same hc, uses hu⟩
  | revoked principal r m h =>
    rcases h.binding with ⟨-, hm, hc⟩ | ⟨b, -, -, hm, hc⟩
    · exact ⟨hm ▸ hw.machines, hrevoked _ _ hc, uses h.uses⟩
    · exact ⟨hcleared _ hm, hrevoked _ _ hc, uses h.uses⟩

/-! ### What a machine sees of an attempt -/

theorem boundKey_of_row? {machines : List MachineRow} {machineId : String} {r : MachineRow}
    (h : Machines.row? machines user machineId = some r) : Machines.boundKey machines user machineId =
      r.credentialKeyId := by
  unfold Machines.boundKey
  rw [h]
  rfl

/-- The binding of the machine is replaced, and no other. -/
theorem boundKey_setBinding {machines : List MachineRow} {machineId : String} {r : MachineRow}
    (h : Machines.row? machines user machineId = some r) (keyId : Option String) (other : String) :
    Machines.boundKey (Machines.setBinding machines user machineId keyId) user other =
      if other = machineId then keyId else Machines.boundKey machines user other := by
  split
  · subst_vars
    exact Machines.boundKey_setBinding_self (by rw [h]; rfl) keyId
  · exact Machines.boundKey_setBinding_of_ne ‹_› keyId

/-- The keys of a machine after one of them is revoked. -/
theorem live_revoke_key {credentials : List Credential} {now : Int} {successor : Option String}
    {b machineId : String} (other : String) :
    Credentials.live (Credentials.revokeWhere credentials now successor (Credentials.isMachineKey b machineId)) other =
      if other = machineId then Credentials.live credentials other \ {b} else Credentials.live credentials other := by
  ext k
  rw [Credentials.live_revokeWhere]
  by_cases ho : other = machineId
  · subst ho
    rw [if_pos rfl]
    constructor
    · rintro ⟨c, hc, hk, hm, hr, hp⟩
      refine ⟨⟨c, hc, hk, hm, hr⟩, fun hb => ?_⟩
      simp only [Credentials.isMachineKey, hm, decide_true, Bool.and_true, decide_eq_false_iff_not] at hp
      exact hp (hk.trans hb)
    · rintro ⟨⟨c, hc, hk, hm, hr⟩, hb⟩
      refine ⟨c, hc, hk, hm, hr, ?_⟩
      have hne : c.keyId ≠ b := fun hcb => hb (hk.symm.trans hcb)
      simp [Credentials.isMachineKey, hne]
  · rw [if_neg ho]
    constructor
    · rintro ⟨c, hc, hk, hm, hr, -⟩
      exact ⟨c, hc, hk, hm, hr⟩
    · rintro ⟨c, hc, hk, hm, hr⟩
      exact ⟨c, hc, hk, hm, hr, by simp [Credentials.isMachineKey, hm, ho]⟩

/-- The keys of a machine after all but one of them are revoked. -/
theorem live_revoke_others {credentials : List Credential} (hw : Credentials.WF credentials) {now : Int}
    {kept : Option String} {machineId : String} (other : String) :
    Credentials.live (Credentials.revokeWhere credentials now none fun c =>
        c.machineId = some machineId && some c.keyId ≠ kept && c.active now) other =
      if other = machineId then {k | k ∈ Credentials.live credentials other ∧ kept = some k}
      else Credentials.live credentials other := by
  ext k
  rw [Credentials.live_revokeWhere]
  by_cases ho : other = machineId
  · subst ho
    rw [if_pos rfl]
    constructor
    · rintro ⟨c, hc, hk, hm, hr, hp⟩
      have hact := (hw.active_iff hc (by rw [hm]; rfl) now).2 hr
      simp only [hm, hact, decide_true, Bool.true_and, Bool.and_true, decide_eq_false_iff_not, ne_eq, not_not] at hp
      exact ⟨⟨c, hc, hk, hm, hr⟩, by rw [← hp, hk]⟩
    · rintro ⟨⟨c, hc, hk, hm, hr⟩, hkept⟩
      exact ⟨c, hc, hk, hm, hr, by simp [hkept, hk]⟩
  · rw [if_neg ho]
    constructor
    · rintro ⟨c, hc, hk, hm, hr, -⟩
      exact ⟨c, hc, hk, hm, hr⟩
    · rintro ⟨c, hc, hk, hm, hr⟩
      exact ⟨c, hc, hk, hm, hr, by simp [hm, ho]⟩

private theorem mem_live {credentials : List Credential} (hw : Credentials.WF credentials) {c : Credential} {now : Int}
    {machine : Machine} (hc : c ∈ credentials) (h : MachineCredential now c machine) :
    c.keyId ∈ Credentials.live credentials machine.machineId :=
  ⟨c, hc, rfl, h.2.1, (hw.active_iff hc h.isSome now).1 h.1⟩

theorem origin_eq {credentials : List Credential} (hw : Credentials.WF credentials) {c : Credential}
    {machineId : String} (hc : c ∈ credentials) (hm : c.machineId = some machineId) :
    Credentials.origin credentials machineId c.keyId = c.rotationFrom := by
  unfold Credentials.origin
  cases hf : credentials.find? (Credentials.isMachineKey c.keyId machineId) with
  | none =>
    have := List.find?_eq_none.1 hf c hc
    simp [Credentials.isMachineKey, hm] at this
  | some d =>
    have hd := List.find?_some hf
    simp only [Credentials.isMachineKey, Bool.and_eq_true, decide_eq_true_eq] at hd
    rw [hw.eq_of_keyId (List.mem_of_find?_eq_some hf) hc hd.1]
    rfl

/-- The keys of a machine after a registration. -/
theorem Registered.holder {s' : Databases} {draw : Draw} {principal : Principal} {request : MachineRegistrationRequest}
    {r : MachineRow} {machines : List MachineRow} {result : MachineRegistrationResult}
    (h : Registered s s' user draw principal request r machines result) :
    s'.holder user r.machineId = ⟨some draw.key, {draw.key},
      Rotation.Holder.record (s.holder user r.machineId).origin draw.key none⟩ := by
  obtain ⟨q, -, hreg⟩ := h.registers
  unfold Databases.holder
  rw [h.machines, boundKey_setBinding hreg.row?, if_pos rfl, h.credentials.live_self, h.credentials.origin_self]

/-- The keys of a machine once a replacement is prepared. -/
theorem holder_of_prepared (hw : s.WF user) {s' : Databases} {draw : Draw} (hf : s.Fresh draw) {r : MachineRow}
    (hrow : Machines.row? s.machines user r.machineId = some r) (hm : s'.machines = s.machines)
    (hc : s'.credentials = Credentials.revokeWhere s.credentials draw.now none (fun c =>
      c.machineId = some r.machineId && some c.keyId ≠ r.credentialKeyId && c.active draw.now) ++
        [Credentials.machineCredential draw r.machineId r.machineKey r.credentialKeyId]) :
    s'.holder user r.machineId = ⟨(s.holder user r.machineId).bound,
      {l | l ∈ (s.holder user r.machineId).live ∧ (s.holder user r.machineId).bound = some l} ∪ {draw.key},
      Rotation.Holder.record (s.holder user r.machineId).origin draw.key (s.holder user r.machineId).bound⟩ := by
  have hkeys : ∀ d ∈ Credentials.revokeWhere s.credentials draw.now none (fun c =>
      c.machineId = some r.machineId && some c.keyId ≠ r.credentialKeyId && c.active draw.now), d.keyId ≠ draw.key := by
    intro d hd
    obtain ⟨d', hd', hdd⟩ := Credentials.mem_revokeWhere.1 hd
    split at hdd <;> subst hdd <;> exact (hf.key d' hd').1
  unfold Databases.holder
  rw [hm, hc, Credentials.live_append_self rfl rfl, Credentials.origin_append_self rfl hkeys,
    Credentials.origin_revokeWhere, live_revoke_others hw.credentials, if_pos rfl, boundKey_of_row? hrow]
  rfl

/-- The keys of a machine after a confirmation: the predecessor is gone, and the binding is the replacement. -/
theorem Confirmed.holder {s' : Databases} {now : Int} {principal : Principal} {r : MachineRow}
    {b replacementKeyId : String} {m : Machine} (hw : s.WF user)
    (h : Confirmed s s' user now principal r b replacementKeyId m) :
    s'.holder user r.machineId = ⟨some replacementKeyId, (s.holder user r.machineId).live \ {b},
      (s.holder user r.machineId).origin⟩ ∧ replacementKeyId ∈ (s.holder user r.machineId).live ∧
    (s.holder user r.machineId).origin replacementKeyId = some b ∧
    ((s.holder user r.machineId).bound = some replacementKeyId ∨ (s.holder user r.machineId).bound = some b) := by
  have hbound : (s.holder user r.machineId).bound = r.credentialKeyId := boundKey_of_row? h.row
  have hkeys : ∀ c, c.keyId = replacementKeyId → Replacement s.credentials now r b c →
      replacementKeyId ∈ (s.holder user r.machineId).live ∧
        (s.holder user r.machineId).origin replacementKeyId = some b := by
    rintro c rfl hc
    exact ⟨mem_live hw.credentials hc.mem hc.granted,
      (origin_eq hw.credentials hc.mem hc.granted.2.1).trans hc.prepared⟩
  rw [hbound]
  unfold Databases.holder at hkeys ⊢
  rw [h.credentials, live_revoke_key, if_pos rfl, Credentials.origin_revokeWhere]
  rcases h.binding with ⟨hb, hm, c, hck, hrep⟩ | ⟨hb, hforward⟩
  · rw [hm, boundKey_of_row? h.row, hb]
    exact ⟨rfl, (hkeys c hck hrep).1, (hkeys c hck hrep).2, .inl rfl⟩
  · obtain ⟨b', c, hb', hck, -, hrep⟩ := hforward.replacement
    obtain rfl : b' = b := Option.some.inj (hb'.symm.trans hb)
    rw [hforward.machines, boundKey_setBinding h.row, if_pos rfl]
    exact ⟨rfl, (hkeys c hck hrep).1, (hkeys c hck hrep).2, .inr hb⟩

/-- A machine sees a move as a step of its keys, or not at all. -/
private theorem Move.step {s' : Databases} (h : Move user a s s') (hw : s.WF user) (hf : s.Fresh a.draw)
    (machineId : String) :
    s'.holder user machineId = s.holder user machineId ∨
      Rotation.Step (s.holder user machineId) (s'.holder user machineId) := by
  have hfresh := hf.holder user machineId
  -- an attempt is about one machine, and the keys of the other machines stay as they are
  cases h with
  | stay hm hc hu =>
    left
    unfold Databases.holder
    rw [hm, hc]
  | tornRegister principal request q r machines ha hscope hq hreg hm hc hu =>
    have hsame : Machines.boundKey machines user machineId = Machines.boundKey s.machines user machineId :=
      hreg.bound machineId
    unfold Databases.holder at hfresh ⊢
    rcases hm with hm | hm <;> rw [hm, hc]
    · exact .inl (by rw [hsame])
    · rw [boundKey_setBinding hreg.row?]
      by_cases hid : machineId = r.machineId
      · rw [if_pos hid]
        exact .inr (.tornReissue _ a.draw.key hfresh)
      · rw [if_neg hid, hsame]
        exact .inl rfl
  | registered principal request r machines result ha h =>
    by_cases hid : machineId = r.machineId
    · subst hid
      rw [h.holder]
      exact .inr (.reissue _ a.draw.key hfresh)
    · left
      obtain ⟨q, -, hreg⟩ := h.registers
      unfold Databases.holder
      rw [h.machines, boundKey_setBinding hreg.row?, if_neg hid, hreg.bound machineId,
        h.credentials.live_other _ hid, h.credentials.origin_other _ hid]
  | prepared principal r ha hrow hcur hm hu hc =>
    by_cases hid : machineId = r.machineId
    · subst hid
      rw [holder_of_prepared hw hf hrow hm hc]
      exact .inr (.prepare _ a.draw.key hfresh)
    · left
      have hne : (Credentials.machineCredential a.draw r.machineId r.machineKey r.credentialKeyId).machineId ≠
          some machineId := by
        simpa [Credentials.machineCredential] using Ne.symm hid
      unfold Databases.holder
      rw [hm, hc, Credentials.live_append_of_ne hne, Credentials.origin_append_of_ne hne,
        Credentials.origin_revokeWhere, live_revoke_others hw.credentials, if_neg hid]
  | tornConfirm r rep h hc hu =>
    unfold Databases.holder
    rw [h.machines, hc, boundKey_setBinding h.row]
    by_cases hid : machineId = r.machineId
    · subst hid
      rw [if_pos rfl]
      right
      obtain ⟨b, c, hb, rfl, -, hrep⟩ := h.replacement
      exact .tornConfirm ⟨_, _, _⟩ c.keyId b ((boundKey_of_row? h.row).trans hb)
        (mem_live hw.credentials hrep.mem hrep.granted)
        ((origin_eq hw.credentials hrep.mem hrep.granted.2.1).trans hrep.prepared)
    · rw [if_neg hid]
      exact .inl rfl
  | confirmed principal r b rep m h =>
    by_cases hid : machineId = r.machineId
    · subst hid
      right
      obtain ⟨hholder, hlive, horigin, hb | hb⟩ := h.holder hw <;> rw [hholder]
      · rw [← hb]
        exact .settle _ rep b hb hlive horigin
      · exact .confirm _ rep b hb hlive horigin
    · left
      unfold Databases.holder
      rw [h.credentials, live_revoke_key, if_neg hid, Credentials.origin_revokeWhere]
      rcases h.binding with ⟨-, hm, -⟩ | ⟨-, hforward⟩
      · rw [hm]
      · rw [hforward.machines, boundKey_setBinding h.row, if_neg hid]
  | tornRevoke r b hrow hb hm hc hu =>
    unfold Databases.holder
    rw [hm, hc, boundKey_setBinding hrow]
    by_cases hid : machineId = r.machineId
    · rw [if_pos hid]
      exact .inr (.tornClear ⟨_, _, _⟩)
    · rw [if_neg hid]
      exact .inl rfl
  | revoked principal r m h =>
    unfold Databases.holder
    rcases h.binding with ⟨hb, hm, hc⟩ | ⟨b, hb, -, hm, hc⟩
    · rw [hm, hc, live_revoke_others hw.credentials, Credentials.origin_revokeWhere]
      by_cases hid : machineId = r.machineId
      · subst hid
        rw [if_pos rfl]
        right
        have hnone : Machines.boundKey s.machines user r.machineId = none := (boundKey_of_row? h.row).trans hb
        have hempty : {k | k ∈ Credentials.live s.credentials r.machineId ∧ none = some k} = (∅ : Set String) := by
          ext k
          simp
        have hsweep := Rotation.Step.sweep ⟨Machines.boundKey s.machines user r.machineId,
          Credentials.live s.credentials r.machineId, Credentials.origin s.credentials r.machineId⟩ hnone
        rw [hempty]
        rw [hnone] at hsweep ⊢
        exact hsweep
      · rw [if_neg hid]
        exact .inl rfl
    · rw [hm, hc, boundKey_setBinding h.row, live_revoke_key, Credentials.origin_revokeWhere]
      by_cases hid : machineId = r.machineId
      · subst hid
        rw [if_pos rfl, if_pos rfl]
        exact .inr (.clear ⟨_, _, _⟩ b ((boundKey_of_row? h.row).trans hb))
      · rw [if_neg hid, if_neg hid]
        exact .inl rfl

/-! ### Runs -/

theorem Initial.wf (h : Initial s) : s.WF user := by
  refine ⟨?_, h.credentials, ?_, ?_, ?_⟩
  · rw [h.machines]
    exact Machines.WF.nil user
  · simp [h.uses]
  · simp [h.uses]
  · simp [h.machines]

private theorem Initial.tidy (h : Initial s) (machineId : String) : Rotation.Tidy (s.holder user machineId) := by
  have hlive : Credentials.live s.credentials machineId = ∅ := by
    rw [Set.eq_empty_iff_forall_notMem]
    rintro k ⟨c, hc, -, hm, -⟩
    rw [h.services c hc] at hm
    cases hm
  have hbound : Machines.boundKey s.machines user machineId = none := by
    rw [h.machines]
    rfl
  have horigin : ∀ k, Credentials.origin s.credentials machineId k = none := by
    intro k
    unfold Credentials.origin
    rw [List.find?_eq_none.2 fun c hc => by simp [Credentials.isMachineKey, h.services c hc]]
    rfl
  unfold Databases.holder
  rw [hlive, hbound]
  refine Rotation.Tidy.initial _ fun k l hk => ?_
  rw [horigin k] at hk
  cases hk

theorem runAttempts_keeps {P : Databases → Prop}
    (hstep : ∀ (s : Databases) (a : Attempt), s.WF user → P s → s.Fresh a.draw → P (a.after nfkd user s))
    {attempts : List Attempt}
    (hw : s.WF user) (hp : P s) (hf : FreshRun nfkd user s attempts) :
    (runAttempts nfkd user s attempts).WF user ∧ P (runAttempts nfkd user s attempts) := by
  induction attempts generalizing s with
  | nil => exact ⟨hw, hp⟩
  | cons a rest ih => exact ih ((Attempt.move hw hf.1).wf hw hf.1) (hstep s a hw hp hf.1) hf.2

/-- In every state that can be reached the databases are well formed and the keys of each machine are tidy. -/
theorem Reachable.invariant (h : Reachable nfkd user s) :
    s.WF user ∧ ∀ machineId, Rotation.Tidy (s.holder user machineId) := by
  obtain ⟨s0, attempts, hinit, hf, rfl⟩ := h
  refine runAttempts_keeps (P := fun s => ∀ machineId, Rotation.Tidy (s.holder user machineId))
    (fun s a hw ht hfresh machineId => ?_) hinit.wf hinit.tidy hf
  rcases (@Attempt.move nfkd _ _ _ hw hfresh).step hw hfresh machineId with hsame | hstep
  · rw [hsame]
    exact ht machineId
  · exact hstep.tidy (ht machineId)

private theorem FreshRun.append {xs ys : List Attempt} (h : FreshRun nfkd user s xs)
    (h' : FreshRun nfkd user (runAttempts nfkd user s xs) ys) : FreshRun nfkd user s (xs ++ ys) := by
  induction xs generalizing s with
  | nil => exact h'
  | cons a xs ih => exact ⟨h.1, ih h.2 h'⟩

theorem Reachable.after (h : Reachable nfkd user s) (hf : s.Fresh a.draw) :
    Reachable nfkd user (a.after nfkd user s) := by
  obtain ⟨s0, attempts, hinit, hrun, rfl⟩ := h
  refine ⟨s0, attempts ++ [a], hinit, hrun.append ⟨hf, trivial⟩, ?_⟩
  unfold runAttempts
  rw [List.foldl_append]
  rfl

/-! ### Sample runs -/

def emptyDatabases : Databases := ⟨[], [], [], none⟩

def administrator : Principal :=
  { principalId := "administrator", kind := .localSocket, scopes := {.admin}, keyId := none, prefixes := [],
    machineId := none, valid := by decide }

private theorem sampleKey_valid {n : Nat} (h : n < 10) :
    Credentials.validKeyId ("key-0000-0000-0" ++ Nat.repr n) = true := by
  decide +revert +kernel

private theorem sampleUuid_valid {n : Nat} (h : n < 10) :
    Credentials.isUuid ("00000000-0000-4000-8000-00000000000" ++ Nat.repr n) = true := by
  decide +revert +kernel

def sampleDraw (n : Nat) : Draw where
  key := "key-0000-0000-0" ++ Nat.repr (n % 10)
  uuid := "00000000-0000-4000-8000-00000000000" ++ Nat.repr (n % 10)
  now := 1
  key_valid := sampleKey_valid (Nat.mod_lt n (by decide))
  uuid_valid := sampleUuid_valid (Nat.mod_lt n (by decide))
  now_pos := Int.one_pos

theorem emptyDatabases_initial : Initial emptyDatabases :=
  ⟨rfl, rfl, ⟨List.nodup_nil, by simp [emptyDatabases], by simp [emptyDatabases], by simp [emptyDatabases]⟩,
    by simp [emptyDatabases]⟩

/-- An administrator registers a machine. -/
def registration : Attempt :=
  ⟨.register administrator ⟨"registration", "host", none, none, none⟩, sampleDraw 1, none⟩

def registered : Databases :=
  ⟨[{ Machines.newRow "user" ⟨"registration", "host", none, none, none⟩ none (sampleDraw 1) "host" with
      credentialKeyId := some (sampleDraw 1).key }],
    [Credentials.machineCredential (sampleDraw 1) (sampleDraw 1).uuid "host" none], [], none⟩

theorem registered_reachable : Reachable id "user" registered := by
  have hempty : Reachable id "user" emptyDatabases := ⟨emptyDatabases, [], emptyDatabases_initial, trivial, rfl⟩
  have hafter : registration.after id "user" emptyDatabases = registered := by decide +kernel
  exact hafter ▸ hempty.after (by decide +kernel)

end Coordinator

end Ctxd

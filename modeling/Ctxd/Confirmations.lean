import Ctxd.Rotations

/-!
# What `confirm_rotation` raises

The assertion that a machine has a bound key, when a confirmation finds a valid replacement, fails for an administrator
whose replacement has outlived the binding: revoking a machine's key leaves a prepared replacement active.  In every
other state that calls can reach, a confirmation returns or raises one of its declared errors
(`confirm_declared_iff`).
-/

namespace Ctxd

open Program

namespace Coordinator

/-- `MachineCredentialNotCurrentError`, `ValueError`, `KeyError` and `CatalogBindingConflictError`. -/
def Declared : LifecycleError → Prop
  | .notCurrent | .bindingConflict | .raised (.valueError _) | .raised (.keyError _) => True
  | _ => False

/-- An administrator names a key that is still active for a machine whose binding has been cleared. -/
def Stranded (s : Databases) (user : String) (now : Int) (principal : Principal) (machineId keyId : String) : Prop :=
  .admin ∈ principal.scopes ∧ ∃ r, Machines.row? s.machines user machineId = some r ∧ r.credentialKeyId = none ∧
    ∃ c ∈ s.credentials, c.keyId = keyId ∧ MachineCredential now c r.toMachine

/-- How a call ends that may have died. -/
def Raises (e : LifecycleError) : Prop := Declared e ∨ e = .died

private theorem declared_of_get_error {credentials : List Credential} {keyId : String} {e : LifecycleError}
    (h : Credentials.get credentials keyId = .error e) : Declared e := by
  unfold Credentials.get Credentials.validateKeyId Auth.require at h
  split at h
  · cases hf : credentials.find? (fun c => decide (c.keyId = keyId)) with
    | none =>
      simp only [lift, hf] at h
      cases h
      trivial
    | some d =>
      simp only [lift, hf] at h
      cases h
  · cases h
    trivial

private theorem declared_of_revokeMachineKey_error {credentials : List Credential} {now : Int}
    {keyId machineId : String} {successor : Option String} {e : LifecycleError}
    (h : Credentials.revokeMachineKey credentials now keyId machineId successor = .error e) : Declared e := by
  unfold Credentials.revokeMachineKey at h
  split at h
  · cases h
    trivial
  · simp only [bind, Except.bind] at h
    split at h
    · rename_i herr
      cases h
      exact declared_of_get_error herr
    · cases h

variable {nfkd : String → String} {user : String} {s : Databases} {draw : Draw} {principal : Principal}
  {machineId keyId : String}

/-- The errors of a confirmation. -/
private theorem confirmRotation_raises (hw : s.WF user) :
    Ends (confirmRotation user draw principal machineId keyId)
    (fun _ _ => ¬Stranded s user draw.now principal machineId keyId)
      (fun e _ => (e = .assertion ∧ Stranded s user draw.now principal machineId keyId) ∨
        (Raises e ∧ ¬Stranded s user draw.now principal machineId keyId)) s := by
  have unbound : ∀ {r : MachineRow}, Machines.row? s.machines user machineId = some r → r.credentialKeyId ≠ none →
      ¬Stranded s user draw.now principal machineId keyId := by
    rintro r hr hbound ⟨-, r', hr', hnone, -⟩
    rw [hr] at hr'
    cases hr'
    exact hbound hnone
  unfold confirmRotation
  rw [ends_immediateTransaction, ends_bind, ends_requireCurrent]
  refine ⟨fun hrow => .inr ⟨.inl trivial, ?_⟩, fun r hr => ⟨fun hcur => ?_, fun hcur => .inr ⟨.inl trivial, ?_⟩⟩⟩
  · rintro ⟨-, r, hr, -⟩
    rw [hrow] at hr
    cases hr
  swap
  · exact fun h => hcur (.inl h.1)
  refine Ends.ite (fun hbound => ?_) fun hbound => ?_
  · -- a retry: nothing can be asserted there
    have hnot := unbound hr (by rw [show r.credentialKeyId = some keyId from hbound]; simp)
    have raised : ∀ {e : LifecycleError}, Declared e →
        (e = .assertion ∧ Stranded s user draw.now principal machineId keyId) ∨
          (Raises e ∧ ¬Stranded s user draw.now principal machineId keyId) := fun he => .inr ⟨.inl he, hnot⟩
    rw [ends_bind, ends_credential]
    refine ⟨fun e he => raised (declared_of_get_error he), fun c hc => ?_⟩
    rw [ends_bind, ends_requireMachineCredential]
    refine ⟨fun _ => ?_, fun _ => raised trivial⟩
    cases c.rotationFrom with
    | none => exact raised trivial
    | some b =>
      refine Ends.ite (fun _ => raised trivial) fun _ => ?_
      rw [ends_bind, ends_credential]
      refine ⟨fun e he => raised (declared_of_get_error he), fun d hd => ?_⟩
      refine Ends.ite (fun _ => raised trivial) fun hgood => ?_
      refine Ends.ite (fun _ => ?_) fun _ => hnot
      rw [ends_bind]
      simp only [not_or, ne_eq, not_not] at hgood
      exact revokeMachineKey_spec hw.credentials (Credentials.get_ok hd).1 hgood.1 _ hnot
  · obtain ⟨hmem, -, rfl⟩ := Machines.mem_of_row? hr
    rw [ends_bind, ends_credential]
    refine ⟨fun e he => .inr ⟨.inl (declared_of_get_error he), ?_⟩, fun c hc => ?_⟩
    · rintro ⟨-, r', -, -, c, hc, rfl, -⟩
      rw [hw.credentials.get_of_mem hc] at he
      cases he
    obtain ⟨hcmem, hckey⟩ := Credentials.get_ok hc
    rw [ends_bind, ends_requireMachineCredential]
    refine ⟨fun hgrant => ?_, fun hgrant => .inr ⟨.inl trivial, ?_⟩⟩
    swap
    · rintro ⟨-, r', hr', -, c', hc', hkey, hgrant'⟩
      rw [hr] at hr'
      cases hr'
      rw [hw.credentials.eq_of_keyId hc' hcmem (hkey.trans hckey.symm)] at hgrant'
      exact hgrant hgrant'
    cases hold : r.credentialKeyId with
    | none =>
      -- only an administrator gets past the check of the binding
      have hadmin : .admin ∈ principal.scopes := by
        rcases hcur with hadmin | ⟨-, hkey, hbinding | ⟨hcleared, -⟩⟩
        · exact hadmin
        · exact absurd (hbinding.symm.trans hold) hkey
        · cases hcleared
      exact .inl ⟨rfl, hadmin, r, hr, hold, c, hcmem, hckey, hgrant⟩
    | some b =>
      have hnot := unbound hr (by rw [hold]; simp)
      refine Ends.ite (fun _ => .inr ⟨.inl trivial, hnot⟩) fun _ => ?_
      have hapart : ∀ r' ∈ s.machines, r'.credentialKeyId = some keyId → r'.machineId = r.machineId := by
        intro r' hr' hk
        have hid := hw.bindings r' hr' _ hk c hcmem hckey
        rw [hgrant.2.1] at hid
        exact (Option.some.inj hid).symm
      have hvalid : Credentials.validKeyId keyId = true := hckey ▸ hw.credentials.valid c hcmem
      have hbind := hw.machines.bindMachineCredential_eq hmem hvalid hapart
      rw [hold] at hbind
      rw [ends_bind, ends_committing, hbind]
      refine ⟨fun e he => (by cases he), fun m ms hm => ⟨fun _ => .inr ⟨.inr rfl, hnot⟩, fun dies _ _ => ?_⟩⟩
      rw [ends_bind]
      unfold revokeMachineKey
      rw [ends_onCredentials]
      refine ⟨fun e he => .inr ⟨.inl ?_, hnot⟩, fun _ _ _ => hnot⟩
      cases herr : Credentials.revokeMachineKey s.credentials draw.now b r.machineId (some keyId) with
      | error e' =>
        rw [herr] at he
        cases he
        exact declared_of_revokeMachineKey_error herr
      | ok cs =>
        rw [herr] at he
        cases he

/-- Where calls have led, a confirmation returns, raises a declared error or dies on the way, unless it names a key that
has outlived its machine's binding. -/
theorem confirm_declared_iff (h : Reachable nfkd user s) {a : Attempt}
    (ha : a.call = .confirm principal machineId keyId) :
    (∀ e s', a.run nfkd user s = .error e s' → Declared e ∨ e = .died) ↔
      ¬Stranded s user a.draw.now principal machineId keyId := by
  have hw : s.WF user := h.invariant.1
  have hspec : Ends (a.call.program nfkd user a.draw)
      (fun _ _ => ¬Stranded s user a.draw.now principal machineId keyId)
      (fun e _ => (e = .assertion ∧ Stranded s user a.draw.now principal machineId keyId) ∨
        (Raises e ∧ ¬Stranded s user a.draw.now principal machineId keyId)) { s with dies := a.dies } := by
    rw [ha]
    unfold Call.program
    rw [ends_map]
    exact confirmRotation_raises (s := { s with dies := a.dies }) (Databases.WF.of_dies user hw a.dies)
  change Ends (a.run nfkd user) _ _ s at hspec
  unfold Ends at hspec
  constructor
  · intro hraises hstranded
    cases hrun : a.run nfkd user s with
    | ok response s' =>
      rw [hrun] at hspec
      exact hspec hstranded
    | error e s' =>
      rw [hrun] at hspec
      rcases hspec with ⟨rfl, -⟩ | ⟨-, hnot⟩
      · rcases hraises _ _ hrun with hdeclared | hdied
        · exact hdeclared
        · cases hdied
      · exact hnot hstranded
  · intro hnot e s' hrun
    rw [hrun] at hspec
    rcases hspec with ⟨-, hstranded⟩ | ⟨hraises, -⟩
    · exact absurd hstranded hnot
    · exact hraises

/-- An administrator confirms the replacement. -/
def confirmation : Attempt :=
  ⟨.confirm administrator (sampleDraw 1).uuid (sampleDraw 2).key, sampleDraw 3, none⟩

theorem confirm_declared_prepared : Reachable id "user" prepared ∧
    ∀ e s', confirmation.run id "user" prepared = .error e s' → Declared e ∨ e = .died := by
  refine ⟨prepared_reachable, (confirm_declared_iff prepared_reachable rfl).2 ?_⟩
  rintro ⟨-, r, hr, hnone, -⟩
  have hbound : (Machines.row? prepared.machines "user" (sampleDraw 1).uuid).bind (·.credentialKeyId) ≠ none := by
    decide +kernel
  rw [hr] at hbound
  exact hbound hnone

/-- An administrator revokes the key of the sample machine. -/
def revocation : Attempt := ⟨.revoke administrator (sampleDraw 1).uuid, sampleDraw 3, none⟩

/-- After a preparation and a revocation, the confirmation of the replacement fails the assertion. -/
theorem confirm_fails_assertion :
    ¬∀ s, Reachable id "user" s → ∀ a : Attempt,
      (∃ principal machineId keyId, a.call = .confirm principal machineId keyId) →
        ∀ e s', a.run id "user" s = .error e s' → Declared e ∨ e = .died := by
  intro h
  have hreachable : Reachable id "user" (revocation.after id "user" prepared) :=
    prepared_reachable.after (by decide +kernel)
  have hraised : (match confirmation.run id "user" (revocation.after id "user" prepared) with
      | .ok _ _ => none
      | .error e _ => some e) = some .assertion := by
    decide +kernel
  split at hraised
  · cases hraised
  rename_i e s' hrun
  cases hraised
  rcases h _ hreachable confirmation ⟨_, _, _, rfl⟩ _ _ hrun with hdeclared | hdied
  · exact hdeclared
  · cases hdied

end Coordinator

end Ctxd

import Ctxd.EnrollmentRuns

/-!
# The grants of the keys of a machine

A key that is issued for a machine may submit below the place of the machine and report its status.  The rows of the
credential store keep their grants, and machines keep their keys; so in every state that can be reached all keys of one
machine have the same grants (`Reachable.granted`).
-/

namespace Ctxd

open Program

/-- Two rows of one key, of which one may be revoked. -/
structure Credential.SameKey (c c' : Credential) : Prop where
  keyId : c.keyId = c'.keyId
  machineId : c.machineId = c'.machineId
  scopes : c.scopes = c'.scopes
  prefixes : c.prefixes = c'.prefixes

theorem Credentials.sameKey_of_mem_revokeWhere {credentials : List Credential} {now : Int} {successor : Option String}
    {p : Credential → Bool} {c' : Credential} (h : c' ∈ revokeWhere credentials now successor p) :
    ∃ c ∈ credentials, c.SameKey c' := by
  obtain ⟨c, hc, hcc⟩ := mem_revokeWhere.1 h
  refine ⟨c, hc, ?_⟩
  split at hcc <;> subst hcc <;> exact ⟨rfl, rfl, rfl, rfl⟩

namespace Coordinator

variable {nfkd : String → String} {user : String} {s s' : Databases} {a : Attempt}

/-- The grants with which keys are issued for a machine. -/
structure IssuedFor (r : MachineRow) (c : Credential) : Prop where
  machineId : c.machineId = some r.machineId
  scopes : c.scopes = Auth.machineScopes
  prefixes : c.prefixes = ["machines/" ++ r.machineKey]

theorem SameRegistration.issuedFor {r r' : MachineRow} (h : SameRegistration r r') {c : Credential}
    (hc : IssuedFor r c) :
    IssuedFor r' c := by
  rw [h]
  exact ⟨hc.machineId, hc.scopes, hc.prefixes⟩

theorem IssuedFor.of_sameKey {r : MachineRow} {c c' : Credential} (h : IssuedFor r c) (hsame : c.SameKey c') :
    IssuedFor r c' :=
  ⟨hsame.machineId ▸ h.machineId, hsame.scopes ▸ h.scopes, hsame.prefixes ▸ h.prefixes⟩

private theorem issuedFor_machineCredential (draw : Draw) (r : MachineRow) (rotationFrom : Option String) :
    IssuedFor r (Credentials.machineCredential draw r.machineId r.machineKey rotationFrom) := ⟨rfl, rfl, rfl⟩

/-- The principal that the server makes of a key of a machine passes its checks. -/
theorem IssuedFor.valid {r : MachineRow} {c : Credential} (h : IssuedFor r c)
    (hkey : Credentials.validKeyId c.keyId = true)
    (hid : Credentials.isUuid r.machineId = true) (hword : Credentials.IsWord r.machineKey) :
    Auth.credentialGrant c.keyId c.keyId c.scopes c.prefixes c.machineId =
      .ok ⟨c.keyId, c.keyId, c.scopes, c.prefixes, c.machineId⟩ := by
  have hkeyWord := Credentials.isWord_of_validKeyId hkey
  have hidWord := Credentials.isWord_of_isUuid hid
  rw [h.machineId, h.scopes, h.prefixes]
  exact Auth.credentialGrant_machine hkeyWord.1 hkeyWord.2 hidWord.1 hidWord.2 hword.1 hword.2

/-- Where a row of the credential store comes from: from a row of the same key, or it was issued for a machine. -/
def Comes (s s' : Databases) (c' : Credential) : Prop :=
  (∃ c ∈ s.credentials, c.SameKey c') ∨ ∃ r ∈ s'.machines, IssuedFor r c'

private theorem comes_of_same (hc : s'.credentials = s.credentials) {c' : Credential} (hc' : c' ∈ s'.credentials) :
    Comes s s' c' :=
  .inl ⟨c', hc ▸ hc', rfl, rfl, rfl, rfl⟩

private theorem comes_of_revoked {now : Int} {successor : Option String} {p : Credential → Bool}
    (hc : s'.credentials = Credentials.revokeWhere s.credentials now successor p) {c' : Credential}
    (hc' : c' ∈ s'.credentials) : Comes s s' c' :=
  .inl (Credentials.sameKey_of_mem_revokeWhere (hc ▸ hc'))

/-- The one row that is not of a key that was there was issued for a machine of the catalog. -/
private theorem Attempt.comes (hw : s.WF user) (hf : s.Fresh a.draw) :
    ∀ c' ∈ (a.after nfkd user s).credentials, Comes s (a.after nfkd user s) c' := by
  have hw' := Databases.WF.of_dies user hw a.dies
  have hf' := Databases.Fresh.of_dies hf a.dies
  unfold Attempt.after
  refine Ends.endState (P := fun s' => ∀ c' ∈ s'.credentials, Comes s s' c') ?_
  cases hcall : a.call with
  | register principal request =>
    unfold Call.program
    rw [ends_map]
    refine (register_reissues hw' hf').mono (fun result s' hs' c' hc' => ?_) fun e s' hs' c' hc' =>
      comes_of_same hs'.1 hc'
    obtain ⟨r, machines, h, hcredentials⟩ := hs'
    obtain ⟨q, -, hreg⟩ := h.registers
    rw [hcredentials] at hc'
    obtain ⟨c, hc, hsame⟩ := Credentials.sameKey_of_mem_revokeWhere hc'
    rcases List.mem_append.1 hc with hc | hc
    · obtain ⟨d, hd, hd'⟩ := Credentials.sameKey_of_mem_revokeWhere hc
      exact .inl ⟨d, hd, hd'.keyId.trans hsame.keyId, hd'.machineId.trans hsame.machineId,
        hd'.scopes.trans hsame.scopes,
        hd'.prefixes.trans hsame.prefixes⟩
    · rw [List.mem_singleton] at hc
      subst hc
      obtain ⟨r', hr', hregistration⟩ := @exists_mem_setBinding user machines r.machineId (some a.draw.key) r hreg.mem
      exact .inr ⟨r', h.machines ▸ hr', hregistration.issuedFor
        ((issuedFor_machineCredential a.draw r none).of_sameKey hsame)⟩
  | prepare principal machineId =>
    unfold Call.program
    rw [ends_map]
    refine (prepareRotation_spec hw' hf').mono (fun key s' hs' c' hc' => ?_)
      fun e s' hs' c' hc' => comes_of_same (congrArg _ hs'.2) hc'
    obtain ⟨r, hrow, -, -, hm, -, hcredentials⟩ := hs'
    obtain ⟨hr, -, rfl⟩ := Machines.mem_of_row? hrow
    rw [hcredentials] at hc'
    rcases List.mem_append.1 hc' with hc' | hc'
    · exact .inl (Credentials.sameKey_of_mem_revokeWhere hc')
    · rw [List.mem_singleton.1 hc']
      exact .inr ⟨r, hm ▸ hr, issuedFor_machineCredential a.draw r r.credentialKeyId⟩
  | confirm principal machineId replacementKeyId =>
    unfold Call.program
    rw [ends_map]
    refine (confirmRotation_spec hw').mono (fun m s' hs' c' hc' => ?_) fun e s' hs' c' hc' => comes_of_same hs'.1 hc'
    obtain ⟨r, b, -, h⟩ := hs'
    exact comes_of_revoked h.credentials hc'
  | revoke principal machineId =>
    unfold Call.program
    rw [ends_map]
    refine (revoke_spec hw').mono (fun m s' hs' c' hc' => ?_) fun e s' hs' c' hc' => comes_of_same hs'.1 hc'
    obtain ⟨r, -, h⟩ := hs'
    rcases h.binding with ⟨-, -, hc⟩ | ⟨b, -, -, -, hc⟩ <;> exact comes_of_revoked hc hc'

/-- All keys of a machine have the grants of the machine. -/
def MachinesGranted (s : Databases) : Prop :=
  ∀ c ∈ s.credentials, ∀ r ∈ s.machines, c.machineId = some r.machineId → IssuedFor r c

theorem MachinesGranted.after (h : MachinesGranted s) (hw : s.WF user) (hf : s.Fresh a.draw) :
    MachinesGranted (a.after nfkd user s) := by
  have hmove : Move user a s (a.after nfkd user s) := Attempt.move hw hf
  intro c' hc' r' hr' hid
  rcases Attempt.comes hw hf c' hc' with ⟨c, hc, hsame⟩ | ⟨r, hr, hissued⟩
  · rcases hmove.row_comes hr' with ⟨r, hr, hregistration⟩ | ⟨principal, request, -, -, hnew⟩
    · have hrid : r'.machineId = r.machineId := by rw [hregistration]
      have hissued := h c hc r hr (by rw [hsame.machineId, hid, hrid])
      exact hregistration.issuedFor (hissued.of_sameKey hsame)
    · -- the machine is new, and no key was issued for it before
      exact absurd (by rw [hsame.machineId, hid, hnew]) (hf.machine c hc)
  · have hrr : r = r' := (hmove.wf hw hf).machines.eq_of_machineId hr hr'
      (Option.some.inj (hissued.machineId.symm.trans hid))
    exact hrr ▸ hissued

theorem Reachable.granted (h : Reachable nfkd user s) : MachinesGranted s := by
  obtain ⟨s0, attempts, hinit, hf, rfl⟩ := h
  refine (runAttempts_keeps (P := MachinesGranted) (fun s a hw hgranted hfresh => hgranted.after hw hfresh) hinit.wf
    (fun c hc r hr => ?_) hf).2
  rw [hinit.machines] at hr
  cases hr

end Coordinator

end Ctxd

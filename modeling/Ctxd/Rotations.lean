import Ctxd.Attempts
import Ctxd.Server

/-!
# Rotations

What holds of the keys of one machine after a call returned, in every state that runs of attempts reach: a
registration leaves its new key alone (`returned_clean`), a confirmation may be repeated until it is through
(`confirmation_repeats`), and a revocation removes every key exactly when the binding names a key that is stored and
no other key is active (`revokesAll_iff`).
-/

namespace Ctxd

open Program

namespace Coordinator

variable {nfkd : String → String} {user : String} {s : Databases} {a : Attempt}

/-- The active keys of a machine. -/
def activeKeys (s : Databases) (now : Int) (machineId : String) : Set String :=
  {k | ∃ c ∈ s.credentials, c.keyId = k ∧ c.machineId = some machineId ∧ c.active now = true}

/-- Keys of machines do not expire. -/
theorem activeKeys_eq (h : Credentials.WF s.credentials) (now : Int) (machineId : String) :
    activeKeys s now machineId = Credentials.live s.credentials machineId := by
  ext k
  constructor
  · rintro ⟨c, hc, hk, hm, ha⟩
    exact ⟨c, hc, hk, hm, (h.active_iff hc (by rw [hm]; rfl) now).1 ha⟩
  · rintro ⟨c, hc, hk, hm, hr⟩
    exact ⟨c, hc, hk, hm, (h.active_iff hc (by rw [hm]; rfl) now).2 hr⟩

/-! ### No stale key -/

/-- An administrator prepares a replacement for the key of the sample machine. -/
def preparation : Attempt := ⟨.prepare administrator (sampleDraw 1).uuid, sampleDraw 2, none⟩

def prepared : Databases :=
  ⟨registered.machines, registered.credentials ++
    [Credentials.machineCredential (sampleDraw 2) (sampleDraw 1).uuid "host" (some (sampleDraw 1).key)], [], none⟩

theorem preparation_run : preparation.run id "user" registered = .ok (.prepared (sampleDraw 2).key) prepared := by
  have hrun : preparation.run id "user" registered = .ok (.prepared (sampleDraw 2).key)
    (endState (preparation.run id "user") registered) := ok_of_answers (by decide +kernel)
  have hend : endState (preparation.run id "user") registered = prepared := by decide +kernel
  rw [hrun, hend]

theorem prepared_reachable : Reachable id "user" prepared :=
  Attempt.after_of_ok preparation_run ▸ registered_reachable.after (by decide +kernel)

/-- What the keys of a machine are once a call has returned. -/
def Clean (user : String) (s : Databases) (now : Int) : Call → Response → Prop
  | .register _ _, .registered result =>
    Machines.boundKey s.machines user result.machine.machineId = some result.keyId ∧
      activeKeys s now result.machine.machineId = {result.keyId}
  | .register _ _, _ => False
  | .prepare _ machineId, _ | .confirm _ machineId _, _ =>
    ∀ c ∈ s.credentials, c.machineId = some machineId → c.active now = true →
      Machines.boundKey s.machines user machineId = some c.keyId ∨
        c.rotationFrom = Machines.boundKey s.machines user machineId
  | .revoke _ _, _ => True

private theorem rows_of_settled (h : Credentials.WF s.credentials) {machineId : String}
    (hs : Rotation.Settled (s.holder user machineId)) {c : Credential} {now : Int} (hc : c ∈ s.credentials)
    (hm : c.machineId = some machineId) (ha : c.active now = true) :
    Machines.boundKey s.machines user machineId = some c.keyId ∨
      c.rotationFrom = Machines.boundKey s.machines user machineId := by
  rw [← origin_eq h hc hm]
  exact hs c.keyId ⟨c, hc, rfl, hm, (h.active_iff hc (by rw [hm]; rfl) now).1 ha⟩

/-- After a call has returned, no key of its machine is active that the call should have revoked. -/
theorem returned_clean (h : Reachable nfkd user s) (hf : s.Fresh a.draw) {response : Response} {s' : Databases}
    (hr : a.run nfkd user s = .ok response s') (now : Int) : Clean user s' now a.call response := by
  obtain ⟨hw, htidy⟩ := h.invariant
  have hw' : s'.WF user := by
    have := (@Attempt.move nfkd user s a hw hf).wf hw hf
    rwa [Attempt.after_of_ok hr] at this
  suffices hends : Ends (a.call.program nfkd user a.draw)
      (fun response s' => s'.WF user → Clean user s' now a.call response) (fun _ _ => True) { s with dies := a.dies }
        from
    hends.of_ok hr hw'
  have hwd := Databases.WF.of_dies user hw a.dies
  have hfd := Databases.Fresh.of_dies hf a.dies
  cases hcall : a.call with
  | register principal request =>
    unfold Call.program
    rw [ends_map]
    refine (register_spec hwd hfd).mono (fun result s1 hs1 hw1 => ?_) fun _ _ _ => trivial
    obtain ⟨r, machines, hreg⟩ := hs1
    have hid : result.machine.machineId = r.machineId := by rw [hreg.machine]
    have hholder := hreg.holder
    unfold Databases.holder at hholder
    simp only [Clean]
    rw [activeKeys_eq hw1.credentials, hid, hreg.key]
    exact ⟨congrArg Rotation.Holder.bound hholder, congrArg Rotation.Holder.live hholder⟩
  | prepare principal machineId =>
    unfold Call.program
    rw [ends_map]
    refine (prepareRotation_spec hwd hfd).mono (fun key s1 hs1 hw1 c hc hm ha => ?_) fun _ _ _ => trivial
    obtain ⟨r, hrow, -, -, hms, -, hcs⟩ := hs1
    obtain ⟨-, -, rfl⟩ := Machines.mem_of_row? hrow
    refine rows_of_settled hw1.credentials ?_ hc hm ha
    rw [holder_of_prepared hwd hfd hrow hms hcs]
    exact Rotation.settled_of_prepare
  | confirm principal machineId replacementKeyId =>
    unfold Call.program
    rw [ends_map]
    refine (confirmRotation_spec hwd).mono (fun m s1 hs1 hw1 c hc hm ha => ?_) fun _ _ _ => trivial
    obtain ⟨r, b, rfl, hconf⟩ := hs1
    refine rows_of_settled hw1.credentials ?_ hc hm ha
    obtain ⟨hholder, hlive, horigin, hb⟩ := hconf.holder hwd
    have ht : Rotation.Tidy (Databases.holder { s with dies := a.dies } user r.machineId) := htidy r.machineId
    rw [hholder]
    rcases hb with hb | hb
    · rw [← hb]
      exact ht.settled_of_settle hb hlive horigin
    · exact ht.settled_of_confirm hb hlive horigin
  | revoke principal machineId =>
    unfold Call.program
    rw [ends_map]
    exact (revoke_spec hwd).mono (fun _ _ _ _ => trivial) fun _ _ _ => trivial

theorem returned_clean_prepare : Clean "user" prepared 0 preparation.call (.prepared (sampleDraw 2).key) :=
  returned_clean registered_reachable (by decide +kernel) preparation_run 0

/-! ### Revocation -/

variable {principal : Principal} {draw : Draw} {machineId : String}

/-- A revocation returns, and leaves the machine neither a binding nor an active key. -/
def RevokesAll (user : String) (draw : Draw) (principal : Principal) (s : Databases) (machineId : String) : Prop :=
  ∃ m s', revoke user draw principal machineId { s with dies := none } = .ok m s' ∧
    Machines.boundKey s'.machines user machineId = none ∧ ∀ now, activeKeys s' now machineId = ∅

/-- The keys of a machine after a revocation: there are none, or the binding was cleared and only its key revoked. -/
private theorem Revoked.activeKeys {s' : Databases} {now : Int} {r : MachineRow} {m : Machine} (hw : s.WF user)
    (h : Revoked s s' user now principal r m) :
    (r.credentialKeyId = none ∧ ∀ now, activeKeys s' now r.machineId = ∅) ∨
      ∃ b, r.credentialKeyId = some b ∧ Stored s.credentials r.machineId b ∧
        ∀ now, activeKeys s' now r.machineId = Coordinator.activeKeys s now r.machineId \ {b} := by
  rcases h.binding with ⟨hb, -, hc⟩ | ⟨b, hb, hstored, -, hc⟩
  · left
    have hw' : Credentials.WF s'.credentials := hc ▸ hw.credentials.revokeWhere
    refine ⟨hb, fun now => ?_⟩
    rw [activeKeys_eq hw', hc, live_revoke_others hw.credentials, if_pos rfl]
    ext k
    simp
  · right
    have hw' : Credentials.WF s'.credentials := hc ▸ hw.credentials.revokeWhere
    refine ⟨b, hb, hstored, fun now => ?_⟩
    rw [activeKeys_eq hw', activeKeys_eq hw.credentials, hc, live_revoke_key, if_pos rfl]

private theorem Revoked.boundKey {s' : Databases} {now : Int} {r : MachineRow} {m : Machine}
    (h : Revoked s s' user now principal r m) : Machines.boundKey s'.machines user r.machineId = none := by
  rcases h.binding with ⟨hb, hm, -⟩ | ⟨b, -, -, hm, -⟩
  · rw [hm, boundKey_of_row? h.row, hb]
  · rw [hm, boundKey_setBinding h.row, if_pos rfl]

/-- A revocation removes every key exactly when the machine has no binding, or the binding names a key that is stored
and that no other key is active beside. -/
theorem revokesAll_iff (h : Reachable nfkd user s) (hadmin : .admin ∈ principal.scopes)
    (hreg : (Machines.row? s.machines user machineId).isSome) :
    RevokesAll user draw principal s machineId ↔ ∀ b, Machines.boundKey s.machines user machineId = some b →
      Stored s.credentials machineId b ∧ ∀ now, activeKeys s now machineId ⊆ {b} := by
  obtain ⟨hw, -⟩ := h.invariant
  obtain ⟨r, hrow⟩ := Option.isSome_iff_exists.1 hreg
  obtain ⟨-, -, rfl⟩ := Machines.mem_of_row? hrow
  have hwd := Databases.WF.of_dies user hw none
  have hspec := @revoke_spec user r.machineId draw principal _ hwd
  rw [boundKey_of_row? hrow]
  constructor
  · rintro ⟨m, s', hrun, -, hnone⟩ b hb
    obtain ⟨r', hid, hrev⟩ := hspec.of_ok hrun
    have hrow' := hrev.row
    rw [hid] at hrow'
    obtain rfl : r = r' := Option.some.inj (hrow.symm.trans hrow')
    rcases hrev.activeKeys hwd with ⟨hb', -⟩ | ⟨b', hb', hstored, hkeys⟩
    · rw [hb] at hb'
      cases hb'
    · obtain rfl : b = b' := Option.some.inj (hb.symm.trans hb')
      refine ⟨hstored, fun now => ?_⟩
      have hempty := (hkeys now).symm.trans (hnone now)
      exact Set.sdiff_eq_empty.1 hempty
  · intro hcond
    cases hrun : revoke user draw principal r.machineId { s with dies := none } with
    | error e s' =>
      -- a call that does not die is refused only when the binding names a key that is not stored
      obtain ⟨-, -, ⟨-, -, hlost⟩ | ⟨hdies, -⟩⟩ := hspec.of_error hrun
      · obtain ⟨b, hb, hno⟩ := hlost r hrow (.inl hadmin)
        exact absurd (hcond b hb).1 hno
      · cases hdies
    | ok m s' =>
      obtain ⟨r', hid, hrev⟩ := hspec.of_ok hrun
      have hrow' := hrev.row
      rw [hid] at hrow'
      obtain rfl : r = r' := Option.some.inj (hrow.symm.trans hrow')
      refine ⟨m, s', hrun, hrev.boundKey, fun now => ?_⟩
      rcases hrev.activeKeys hwd with ⟨-, hnone⟩ | ⟨b, hb, -, hkeys⟩
      · exact hnone now
      · rw [hkeys now]
        exact Set.sdiff_eq_empty.2 ((hcond b hb).2 now)

theorem revokesAll_iff_registered : RevokesAll "user" (sampleDraw 3) administrator registered (sampleDraw 1).uuid := by
  refine (revokesAll_iff registered_reachable (by decide) (by decide +kernel)).2 fun b hb => ?_
  obtain rfl : b = (sampleDraw 1).key := by
    have hbound : Machines.boundKey registered.machines "user" (sampleDraw 1).uuid = some (sampleDraw 1).key := by
      decide +kernel
    exact Option.some.inj (hb.symm.trans hbound)
  refine ⟨⟨_, List.mem_singleton.2 rfl, rfl, rfl⟩, fun now k hk => ?_⟩
  obtain ⟨c, hc, rfl, -⟩ := hk
  rw [List.mem_singleton.1 hc]
  rfl

/-- A replacement that was prepared stays active when the machine's keys are revoked. -/
theorem revoke_leaves_replacement : ∃ s, Reachable id "user" s ∧
    (Machines.row? s.machines "user" (sampleDraw 1).uuid).isSome ∧ .admin ∈ administrator.scopes ∧
    ¬RevokesAll "user" (sampleDraw 3) administrator s (sampleDraw 1).uuid := by
  refine ⟨prepared, prepared_reachable, by decide +kernel, by decide, ?_⟩
  rintro ⟨m, s', hrun, -, hnone⟩
  have hleft : (endState (revoke "user" (sampleDraw 3) administrator (sampleDraw 1).uuid)
      { prepared with dies := none }).credentials.any (fun c =>
        c.machineId = some (sampleDraw 1).uuid && c.active 0) = true := by decide +kernel
  unfold endState at hleft
  rw [hrun, List.any_eq_true] at hleft
  obtain ⟨c, hc, hactive⟩ := hleft
  simp only [Bool.and_eq_true, decide_eq_true_eq] at hactive
  have hmem : c.keyId ∈ activeKeys s' 0 (sampleDraw 1).uuid := ⟨c, hc, rfl, hactive⟩
  rw [hnone 0] at hmem
  exact hmem

/-! ### Confirmation -/

/-- The keys of a machine between the preparation of the replacement `k` of `b` and the end of its confirmation. -/
structure Rotating (credentials : List Credential) (r : MachineRow) (b k : String) : Prop where
  ne : b ≠ k
  replacement : ∃ c ∈ credentials, c.keyId = k ∧ c.rotationFrom = some b ∧ ∀ now, MachineCredential now c r.toMachine
  predecessor : ∃ d ∈ credentials, d.keyId = b ∧ d.machineId = some r.machineId ∧
    ((d.revokedAt = none ∧ d.replacedBy = none) ∨ (d.revokedAt ≠ none ∧ d.replacedBy = some k))
  keys : ∀ l ∈ Credentials.live credentials r.machineId, l = k ∨ l = b

/-- A rotation that is through. -/
structure Rotated (user : String) (s : Databases) (machineId b k : String) : Prop where
  bound : Machines.boundKey s.machines user machineId = some k
  active : ∀ now, activeKeys s now machineId = {k}
  revoked : ∃ d ∈ s.credentials, d.keyId = b ∧ d.machineId = some machineId ∧ d.revokedAt ≠ none ∧ d.replacedBy = some k

private theorem rotating_of_prepared (hw : s.WF user) {s' : Databases} (hf : s.Fresh draw) {r : MachineRow} {b : String}
    (hrow : Machines.row? s.machines user r.machineId = some r) (hb : r.credentialKeyId = some b)
    (hlive : b ∈ Credentials.live s.credentials r.machineId) (hm : s'.machines = s.machines)
    (hc : s'.credentials = Credentials.revokeWhere s.credentials draw.now none (fun c =>
      c.machineId = some r.machineId && some c.keyId ≠ r.credentialKeyId && c.active draw.now) ++
        [Credentials.machineCredential draw r.machineId r.machineKey r.credentialKeyId]) :
    Rotating s'.credentials r b draw.key := by
  obtain ⟨d, hd, hdk, hdm, hdr⟩ := hlive
  have hkeys := congrArg Rotation.Holder.live (holder_of_prepared hw hf hrow hm hc)
  refine ⟨?_, ?_, ?_, fun l hl => ?_⟩
  · rw [← hdk]
    exact (hf.key d hd).1
  · refine ⟨_, hc ▸ List.mem_append_right _ (List.mem_singleton.2 rfl), rfl, hb, fun now => ⟨rfl, rfl, rfl, rfl⟩⟩
  · -- the key the machine is bound to is spared
    refine ⟨d, hc ▸ List.mem_append_left _ (Credentials.mem_revokeWhere.2 ⟨d, hd, ?_⟩), hdk, hdm,
      .inl ⟨hdr, hw.credentials.unreplaced d hd (by rw [hdm]; rfl) hdr⟩⟩
    rw [if_neg]
    simp [hb, hdk]
  · have hl' : l ∈ (s'.holder user r.machineId).live := hl
    rw [hkeys] at hl'
    rcases hl' with ⟨-, hbound⟩ | hnew
    · right
      have : Machines.boundKey s.machines user r.machineId = some l := hbound
      rw [boundKey_of_row? hrow, hb] at this
      exact (Option.some.inj this).symm
    · exact .inl hnew

/-- Revoking the predecessor for its replacement ends the rotation, and may be repeated. -/
private theorem Rotating.revoke {credentials : List Credential} {r : MachineRow} {b k : String}
    (h : Rotating credentials r b k) (now : Int) {revoked : List Credential}
    (hr : revoked = Credentials.revokeWhere credentials now (some k) (Credentials.isMachineKey b r.machineId)) :
    Rotating revoked r b k ∧ Credentials.live revoked r.machineId = {k} ∧
      ∃ d ∈ revoked, d.keyId = b ∧ d.machineId = some r.machineId ∧ d.revokedAt ≠ none ∧ d.replacedBy = some k := by
  obtain ⟨c, hc, hck, hcb, hgrant⟩ := h.replacement
  obtain ⟨d, hd, hdk, hdm, hsettled⟩ := h.predecessor
  have hc' : c ∈ revoked := by
    rw [hr]
    refine Credentials.mem_revokeWhere.2 ⟨c, hc, ?_⟩
    rw [if_neg]
    simp [Credentials.isMachineKey, hck, h.ne.symm]
  have hd' : Credentials.revokeRow now (some k) d ∈ revoked := by
    rw [hr]
    refine Credentials.mem_revokeWhere.2 ⟨d, hd, ?_⟩
    rw [if_pos]
    simp [Credentials.isMachineKey, hdk, hdm]
  have hreplaced : (Credentials.revokeRow now (some k) d).replacedBy = some k := by
    unfold Credentials.revokeRow
    rcases hsettled with ⟨-, hnone⟩ | ⟨-, hsome⟩
    · simp [hnone]
    · simp [hsome]
  have hrevoked := Credentials.revokeRow_revokedAt now (some k) d
  have hlive : Credentials.live revoked r.machineId = {k} := by
    rw [hr, live_revoke_key, if_pos rfl]
    ext l
    constructor
    · rintro ⟨hl, hne⟩
      exact (h.keys l hl).resolve_right hne
    · intro hl
      rw [Set.mem_singleton_iff] at hl
      subst hl
      have hactive := (hgrant 0).1
      simp only [Credential.active, Bool.and_eq_true, Option.isNone_iff_eq_none] at hactive
      exact ⟨⟨c, hc, hck, (hgrant 0).2.1, hactive.1⟩, h.ne.symm⟩
  refine ⟨⟨h.ne, ⟨c, hc', hck, hcb, hgrant⟩, ⟨_, hd', hdk, hdm, .inr ⟨hrevoked, hreplaced⟩⟩, fun l hl => ?_⟩, hlive,
    _, hd', hdk, hdm, hrevoked, hreplaced⟩
  rw [hlive] at hl
  exact .inl hl

/-- A retry of a confirmation returns, and the rotation is through. -/
private theorem Rotating.retry (hw : s.WF user) {r : MachineRow} (hr : r ∈ s.machines) {b k : String}
    (hb : r.credentialKeyId = some k) (h : Rotating s.credentials r b k) (hcur : Current principal false r) :
    Ends (confirmRotation user draw principal r.machineId k)
      (fun _ s' => s'.machines = s.machines ∧ Rotating s'.credentials r b k ∧ Rotated user s' r.machineId b k)
      (fun _ _ => False) s := by
  obtain ⟨c, hc, rfl, hcb, hgrant⟩ := h.replacement
  obtain ⟨d, hd, rfl, hdm, hsettled⟩ := h.predecessor
  have hreturns := confirmRotation_returns hw hr hcur hb ⟨hc, hgrant draw.now, hcb⟩ hd hdm
    fun hrevoked => (hsettled.resolve_left fun hn => hrevoked hn.1).2
  refine hreturns.mono (fun _ s' hs' => ?_) fun _ _ he => he
  obtain ⟨hconf, hms⟩ := hs'
  obtain ⟨hrot, hlive, hd'⟩ := h.revoke draw.now hconf.credentials
  have hbound : Machines.boundKey s'.machines user r.machineId = some c.keyId := by
    rw [hms, boundKey_of_row? (hw.machines.row?_of_mem hr), hb]
  refine ⟨hms, hrot, hbound, fun now => ?_, hd'⟩
  rw [activeKeys_eq (hconf.credentials ▸ hw.credentials.revokeWhere), hlive]

/-- Whom the server admits to confirm a rotation holds the key the machine is bound to, or is an administrator. -/
private theorem current_of_admits (hw : s.WF user) {r : MachineRow} (hr : r ∈ s.machines)
    (h : Server.admitsConfirmation s.machines user principal r.machineId = true) : Current principal false r := by
  unfold Server.admitsConfirmation Server.admits Server.requireCurrentMachine at h
  simp only [Bool.and_eq_true, Bool.or_eq_true, decide_eq_true_eq] at h
  obtain ⟨hallowed, hcurrent⟩ := h
  rcases hcurrent with hadmin | hmachine
  · exact .inl hadmin
  · right
    have hadmissible := hallowed.resolve_left (by rw [hmachine]; simp)
    unfold Server.machineCredentialIsAdmissible at hadmissible
    rw [hmachine] at hadmissible
    simp only [hw.machines.machine_of_mem hr] at hadmissible
    split at hadmissible
    · cases hadmissible
    · rename_i hkey
      split at hadmissible
      · rename_i hbound
        exact ⟨hmachine, hkey, .inl hbound⟩
      · simp at hadmissible

/-- Retries of a confirmation by principals the server admits at that time. -/
def Retries (nfkd : String → String) (user machineId k : String) : Databases → List Attempt → Prop
  | _, [] => True
  | s, a :: rest => (∃ principal, a.call = .confirm principal machineId k ∧
      Server.admitsConfirmation s.machines user principal machineId = true) ∧
        Retries nfkd user machineId k (a.after nfkd user s) rest

private theorem Rotating.attempt (hw : s.WF user) {r : MachineRow} (hr : r ∈ s.machines) {b k : String}
    (hb : r.credentialKeyId = some k) (h : Rotating s.credentials r b k)
    (hcall : ∃ principal, a.call = .confirm principal r.machineId k ∧
      Server.admitsConfirmation s.machines user principal r.machineId = true) :
    (∃ m, a.run nfkd user s = .ok (.updated m) (a.after nfkd user s)) ∧ (a.after nfkd user s).machines = s.machines ∧
      Rotating (a.after nfkd user s).credentials r b k ∧ Rotated user (a.after nfkd user s) r.machineId b k := by
  obtain ⟨principal, hcall, hallowed⟩ := hcall
  have hends : Ends (a.call.program nfkd user a.draw)
      (fun response s' => (∃ m, response = .updated m) ∧ s'.machines = s.machines ∧ Rotating s'.credentials r b k ∧
        Rotated user s' r.machineId b k) (fun _ _ => False) { s with dies := a.dies } := by
    rw [hcall]
    unfold Call.program
    rw [ends_map]
    have hretry := @Rotating.retry user _ principal a.draw (Databases.WF.of_dies user hw a.dies) r hr b k hb h
      (current_of_admits hw hr hallowed)
    exact hretry.mono (fun m s' hs' => ⟨⟨m, rfl⟩, hs'⟩) fun _ _ he => he
  cases hrun : a.run nfkd user s with
  | error e s' => exact (hends.of_error hrun).elim
  | ok response s' =>
    obtain ⟨⟨m, rfl⟩, hs'⟩ := hends.of_ok hrun
    rw [Attempt.after_of_ok hrun]
    exact ⟨⟨m, rfl⟩, hs'⟩

/-- Every retry returns; the one that comes last shows that the rotation is through. -/
private theorem Rotating.retries {r : MachineRow} {b k : String} {retries : List Attempt} {retry : Attempt}
    (hw : s.WF user) (hr : r ∈ s.machines) (hb : r.credentialKeyId = some k) (h : Rotating s.credentials r b k)
    (hf : FreshRun nfkd user s (retries ++ [retry]))
    (hretries : Retries nfkd user r.machineId k s (retries ++ [retry])) :
    ∃ m s', retry.run nfkd user (runAttempts nfkd user s retries) = .ok (.updated m) s' ∧
      Rotated user s' r.machineId b k := by
  induction retries generalizing s with
  | nil =>
    obtain ⟨⟨m, hrun⟩, -, -, hrotated⟩ := h.attempt hw hr hb hretries.1
    exact ⟨m, _, hrun, hrotated⟩
  | cons a rest ih =>
    obtain ⟨-, hms, hrot, -⟩ := h.attempt hw hr hb hretries.1
    exact ih ((Attempt.move hw hf.1).wf hw hf.1) (hms ▸ hr) hrot hf.2 hretries.2

/-- A confirmation that has reached the catalog leaves a rotation that its retries bring to an end. -/
private theorem rotating_of_committed (hw : s.WF user) {r : MachineRow} (hr : r ∈ s.machines) {b k : String}
    (hb : r.credentialKeyId = some b) (h : Rotating s.credentials r b k)
    (hcall : a.call = .confirm principal r.machineId k)
    (hcommit : Machines.boundKey (a.after nfkd user s).machines user r.machineId = some k) :
    ∃ r' ∈ (a.after nfkd user s).machines, r'.machineId = r.machineId ∧ r'.credentialKeyId = some k ∧
      Rotating (a.after nfkd user s).credentials r' b k := by
  have hrow := hw.machines.row?_of_mem hr
  have hmoved : ∀ ms, ms = Machines.setBinding s.machines user r.machineId (some k) →
      { r with credentialKeyId := some k } ∈ ms := by
    intro ms hms
    rw [hms]
    refine List.mem_map.2 ⟨r, hr, ?_⟩
    rw [if_pos (by simp [hw.machines.users r hr])]
  have hends : Ends (a.call.program nfkd user a.draw)
      (fun _ s' => { r with credentialKeyId := some k } ∈ s'.machines ∧ Rotating s'.credentials r b k)
      (fun _ s' => Machines.boundKey s'.machines user r.machineId = some k →
        { r with credentialKeyId := some k } ∈ s'.machines ∧ Rotating s'.credentials r b k)
          { s with dies := a.dies } := by
    rw [hcall]
    unfold Call.program
    rw [ends_map]
    refine (confirmRotation_spec (Databases.WF.of_dies user hw a.dies)).mono (fun m s' hs' => ?_)
      fun e s' hs' hbound => ?_
    · obtain ⟨r', b', hid, hconf⟩ := hs'
      have hrow' := hconf.row
      rw [hid] at hrow'
      obtain rfl : r = r' := Option.some.inj (hrow.symm.trans hrow')
      rcases hconf.binding with ⟨hk, -⟩ | ⟨hb', hforward⟩
      · exact absurd (Option.some.inj (hb.symm.trans hk)) h.ne
      · obtain rfl : b = b' := Option.some.inj (hb.symm.trans hb')
        exact ⟨hmoved _ hforward.machines, (h.revoke a.draw.now hconf.credentials).1⟩
    · obtain ⟨hc, -, ⟨-, hm⟩ | ⟨r', hid, hforward⟩⟩ := hs'
      · rw [hm] at hbound
        have : Machines.boundKey s.machines user r.machineId = some k := hbound
        rw [boundKey_of_row? hrow, hb] at this
        exact absurd (Option.some.inj this) h.ne
      · rw [hc]
        have hms := hforward.machines
        rw [hid] at hms
        exact ⟨hmoved _ hms, h⟩
  have hafter := Ends.endState (P := fun s' : Databases => Machines.boundKey s'.machines user r.machineId = some k →
    { r with credentialKeyId := some k } ∈ s'.machines ∧ Rotating s'.credentials r b k)
    (hends.mono (fun _ _ hs' _ => hs') fun _ _ hs' => hs') hcommit
  exact ⟨_, hafter.1, rfl, rfl, hafter.2.ne, hafter.2.replacement, hafter.2.predecessor, hafter.2.keys⟩

/-- Once a confirmation has moved the binding, wherever it stopped, every retry that the server admits returns: the
replacement is then the only active key, and its predecessor is revoked for it. -/
theorem confirmation_repeats (h : Reachable nfkd user s) {prepared first retry : Attempt} {retries : List Attempt}
    {operator confirmer : Principal} {machineId b k : String} {s1 : Databases} {now : Int}
    (hbound : Machines.boundKey s.machines user machineId = some b) (hactive : b ∈ activeKeys s now machineId)
    (hprepare : prepared.call = .prepare operator machineId) (hf : s.Fresh prepared.draw)
    (hrun : prepared.run nfkd user s = .ok (.prepared k) s1) (hfirst : first.call = .confirm confirmer machineId k)
    (hcommit : Machines.boundKey (first.after nfkd user s1).machines user machineId = some k)
    (hfresh : FreshRun nfkd user s1 (first :: (retries ++ [retry])))
    (hretries : Retries nfkd user machineId k (first.after nfkd user s1) (retries ++ [retry])) :
    ∃ m s', retry.run nfkd user (runAttempts nfkd user (first.after nfkd user s1) retries) = .ok (.updated m) s' ∧
      Rotated user s' machineId b k := by
  obtain ⟨hw, -⟩ := h.invariant
  obtain ⟨r, hrow, hb⟩ := Option.bind_eq_some_iff.1 hbound
  obtain ⟨hmem, -, rfl⟩ := Machines.mem_of_row? hrow
  have hlive : b ∈ Credentials.live s.credentials r.machineId := activeKeys_eq hw.credentials now _ ▸ hactive
  have hends : Ends (prepared.call.program nfkd user prepared.draw)
      (fun response s1 => response = .prepared prepared.draw.key ∧ s1.machines = s.machines ∧
        Rotating s1.credentials r b prepared.draw.key) (fun _ _ => True) { s with dies := prepared.dies } := by
    rw [hprepare]
    unfold Call.program
    rw [ends_map]
    refine (prepareRotation_spec (Databases.WF.of_dies user hw _) (Databases.Fresh.of_dies hf _)).mono
      (fun key s1 hs1 => ?_) fun _ _ _ => trivial
    obtain ⟨r', hrow', -, rfl, hms, -, hcs⟩ := hs1
    obtain rfl : r = r' := Option.some.inj (hrow.symm.trans hrow')
    exact ⟨rfl, hms, rotating_of_prepared hw hf hrow hb hlive hms hcs⟩
  obtain ⟨hk, hms, hrot⟩ := hends.of_ok hrun
  cases hk
  have hw1 : s1.WF user := by
    have := (@Attempt.move nfkd user s prepared hw hf).wf hw hf
    rwa [Attempt.after_of_ok hrun] at this
  obtain ⟨r', hr', hid, hb', hrot'⟩ := rotating_of_committed hw1 (hms ▸ hmem) hb hrot hfirst hcommit
  have hw2 := (@Attempt.move nfkd user s1 first hw1 hfresh.1).wf hw1 hfresh.1
  rw [← hid] at hretries ⊢
  exact hrot'.retries hw2 hr' hb' hfresh.2 hretries

/-- A confirmation that dies after its commit to the catalog. -/
def tornConfirmation : Attempt :=
  ⟨.confirm administrator (sampleDraw 1).uuid (sampleDraw 2).key, sampleDraw 3, some 0⟩

def retriedConfirmation : Attempt :=
  ⟨.confirm administrator (sampleDraw 1).uuid (sampleDraw 2).key, sampleDraw 4, none⟩

theorem confirmation_repeats_torn :
    ∃ m s', retriedConfirmation.run id "user" (tornConfirmation.after id "user" prepared) = .ok (.updated m) s' ∧
      Rotated "user" s' (sampleDraw 1).uuid (sampleDraw 1).key (sampleDraw 2).key :=
  @confirmation_repeats id "user" _ registered_reachable preparation tornConfirmation retriedConfirmation []
    administrator administrator _ _ _ _ 0 (by decide +kernel) ⟨_, List.mem_singleton.2 rfl, rfl, rfl, rfl⟩ rfl
    (by decide +kernel) preparation_run rfl (by decide +kernel) (by decide +kernel)
    ⟨⟨administrator, rfl, by decide +kernel⟩, trivial⟩

end Coordinator

end Ctxd

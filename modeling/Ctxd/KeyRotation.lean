import Ctxd.Confirmations
import Ctxd.GrantWriters
import Ctxd.MachineGrants

/-!
# Submissions after a rotation

The writer that the server derives from a request carries the id of the key in its name, and its registered prefix
stays when the key is rotated.  The replacement has another id, so that its requests come from another writer; whatever
was accepted under the former key is refused under its replacement (`rotated_refused`).
-/

namespace Ctxd

open Program

/-! ### The rows that a request leaves -/

namespace Server

/-- A request of some principal: the prefix it claims and its operations. -/
structure Request where
  principal : Principal
  claimed : String
  operations : List Operation

/-- The store after a request. -/
def after (user : String) (w : World) (request : Request) : World :=
  endState (submitOperations user request.principal request.claimed request.operations) w

def serve (user : String) (w : World) (requests : List Request) : World := requests.foldl (after user) w

end Server

/-- The registered prefixes have passed the check of `register_prefix`. -/
def NormalPrefixes (rows : List WriterPrefix) : Prop := ∀ r ∈ rows, Normalized r.prefixPath

instance (rows : List WriterPrefix) : Decidable (NormalPrefixes rows) := by
  unfold NormalPrefixes
  infer_instance

/-- Prefixes are registered for a writer of a principal, and nothing else happens to the rows. -/
structure RegistersFor (user : String) (p : Principal) (claimed g : String) (rows rows' : List WriterPrefix) :
    Prop where
  authorized : (Auth.authorize (some p) .submit (some claimed)).map (·.allowed) = .ok true
  granted : Server.submissionPrefix p claimed = .ok g
  normalized : Normalized g
  rows : ∃ time, rows' = insertPrefixRow ⟨user, Server.writerId p g, g, time⟩ rows

section

variable {user claimed g : String} {p p' : Principal} {rows rows' : List WriterPrefix} {w : World}

/-- The row of the writer is there, whether it is new or not. -/
private theorem RegistersFor.mem (h : RegistersFor user p claimed g rows rows') :
    ∃ r ∈ rows', r.userId = user ∧ r.writerId = Server.writerId p g ∧ r.prefixPath = g := by
  obtain ⟨time, rfl⟩ := h.rows
  exact exists_mem_insertPrefixRow _ rows

private theorem RegistersFor.normal (h : RegistersFor user p claimed g rows rows') (hrows : NormalPrefixes rows) :
    NormalPrefixes rows' := by
  obtain ⟨time, rfl⟩ := h.rows
  intro r hr
  rcases mem_insertPrefixRow hr with hr | rfl
  · exact hrows r hr
  · exact h.normalized

/-- An accepted request has registered its grant, and one that is refused has done so or left the rows alone. -/
private theorem Server.submitOperations_rows (operations : List Operation) :
    Ends (Server.submitOperations user p claimed operations)
      (fun _ w' => ∃ g, RegistersFor user p claimed g w.catalog.writerPrefixes w'.catalog.writerPrefixes)
      (fun _ w' => w'.catalog.writerPrefixes = w.catalog.writerPrefixes ∨
        ∃ g, RegistersFor user p claimed g w.catalog.writerPrefixes w'.catalog.writerPrefixes) w := by
  unfold Server.submitOperations Server.onStore
  rw [ends_bind, ends_focus, ends_orRaise]
  refine ⟨fun decision hdecision => ?_, fun e _ => .inl rfl⟩
  refine Ends.ite (fun _ => ?_) fun hallowed => ?_
  · rw [ends_bind, ends_throw]
    exact .inl rfl
  have hauthorized : (Auth.authorize (some p) .submit (some claimed)).map (·.allowed) = .ok true := by
    rw [hdecision]
    simpa [Except.map] using hallowed
  rw [ends_bind, ends_focus, ends_orRaise]
  refine ⟨fun granted hgranted => ?_, fun e _ => .inl rfl⟩
  rw [ends_bind, ends_focus]
  refine (registerPrefix_spec user (Server.writerId p granted) granted w).mono (fun _ w1 hw1 => ?_)
    (fun e w1 hw1 => .inl hw1.2)
  obtain ⟨hnormal, -, hrows⟩ := hw1
  have hregisters : ∀ w2 : World, w2.catalog.writerPrefixes = w1.catalog.writerPrefixes →
      ∃ g, RegistersFor user p claimed g w.catalog.writerPrefixes w2.catalog.writerPrefixes :=
    fun w2 hw2 => ⟨granted, hauthorized, hgranted, hnormal, _, hw2.trans hrows⟩
  rw [ends_focus]
  exact (SamePrefixes.submit operations w1).mono (fun _ w2 hw2 => hregisters w2 hw2.1)
    (fun e w2 hw2 => .inr (hregisters w2 hw2))

/-- No request takes a registered prefix away. -/
private theorem Server.serve_rows (user : String) (w : World) (requests : List Server.Request) :
    (∀ r ∈ w.catalog.writerPrefixes, r ∈ (Server.serve user w requests).catalog.writerPrefixes) ∧
      (NormalPrefixes w.catalog.writerPrefixes →
        NormalPrefixes (Server.serve user w requests).catalog.writerPrefixes) := by
  induction requests generalizing w with
  | nil => exact ⟨fun _ hr => hr, fun h => h⟩
  | cons request rest ih =>
    have hstep : (∀ r ∈ w.catalog.writerPrefixes, r ∈ (Server.after user w request).catalog.writerPrefixes) ∧
        (NormalPrefixes w.catalog.writerPrefixes →
          NormalPrefixes (Server.after user w request).catalog.writerPrefixes) := by
      have hregisters : ∀ w' :
        World, (∃ g, RegistersFor user request.principal request.claimed g w.catalog.writerPrefixes
          w'.catalog.writerPrefixes) → (∀ r ∈ w.catalog.writerPrefixes, r ∈ w'.catalog.writerPrefixes) ∧
            (NormalPrefixes w.catalog.writerPrefixes → NormalPrefixes w'.catalog.writerPrefixes) := by
        rintro w' ⟨g, h⟩
        obtain ⟨time, hrows⟩ := h.rows
        exact ⟨fun r hr => hrows ▸ mem_insertPrefixRow_of_mem hr, h.normal⟩
      refine Ends.endState ((Server.submitOperations_rows request.operations).mono (fun _ w' hw' => hregisters w' hw')
        fun _ w' hw' => ?_)
      rcases hw' with hsame | hnew
      · rw [hsame]
        exact ⟨fun _ hr => hr, fun h => h⟩
      · exact hregisters w' hnew
    obtain ⟨hrest, hnormal⟩ := ih (Server.after user w request)
    exact ⟨fun r hr => hrest r (hstep.1 r hr), fun h => hnormal (hstep.2 h)⟩

/-! ### A writer that meets the row of another one -/

private theorem rejectOverlaps_of_overlap (writer : String) {normalized : String} {row : WriterPrefix}
    (hrow : row ∈ rows) (hover : prefixesOverlap normalized row.prefixPath = .ok true) :
    ∃ e, rejectOverlaps writer normalized rows = .error e ∧
      (Normalized normalized → NormalPrefixes rows → ∃ message, e = .prefixAuthorization message) := by
  induction rows with
  | nil => cases hrow
  | cons first rest ih =>
    unfold rejectOverlaps
    cases hfirst : prefixesOverlap normalized first.prefixPath with
    | error e =>
      refine ⟨e, rfl, fun hnormal hnormals => ?_⟩
      rw [prefixesOverlap_eq hnormal (hnormals first (List.mem_cons_self ..))] at hfirst
      cases hfirst
    | ok overlap =>
      cases overlap with
      | true => exact ⟨_, rfl, fun _ _ => ⟨_, rfl⟩⟩
      | false =>
        have hin : row ∈ rest := by
          rcases List.mem_cons.1 hrow with rfl | hin
          · rw [hover] at hfirst
            cases hfirst
          · exact hin
        obtain ⟨e, he, hmessage⟩ := ih hin
        exact ⟨e, he, fun hnormal hnormals => hmessage hnormal fun r hr => hnormals r (List.mem_cons_of_mem _ hr)⟩

/-- Two principals with the same grants. -/
structure SameGrants (p p' : Principal) : Prop where
  scopes : p'.scopes = p.scopes
  prefixes : p'.prefixes = p.prefixes

private theorem SameGrants.authorize (h : SameGrants p p') (scope : Scope) (path : Option String) :
    (Auth.authorize (some p') scope path).map (·.allowed) = (Auth.authorize (some p) scope path).map (·.allowed) := by
  unfold Auth.authorize
  dsimp only
  rw [h.scopes, h.prefixes]
  by_cases hadmin : .admin ∈ p.scopes
  · rw [if_pos hadmin, if_pos hadmin]
    rfl
  rw [if_neg hadmin, if_neg hadmin]
  by_cases hscope : scope ∉ p.scopes
  · rw [if_pos hscope, if_pos hscope]
    rfl
  rw [if_neg hscope, if_neg hscope]
  by_cases hsubmit : scope ≠ .submit
  · rw [if_pos hsubmit, if_pos hsubmit]
    rfl
  rw [if_neg hsubmit, if_neg hsubmit]
  cases path with
  | none => rfl
  | some path =>
    cases hpath : Auth.normalizePath path with
    | error e => simp [hpath, bind, Except.bind, Except.map]
    | ok normalized =>
      cases hany : p.prefixes.any fun pre => Auth.within normalized pre
      · simp [hpath, hany, bind, Except.bind, Except.map, pure, Except.pure, Auth.deny]
      · simp [hpath, hany, bind, Except.bind, Except.map, pure, Except.pure, Auth.allow]

private theorem SameGrants.submissionPrefix (h : SameGrants p p') (claimed : String) :
    Server.submissionPrefix p' claimed = Server.submissionPrefix p claimed := by
  unfold Server.submissionPrefix
  rw [h.scopes, h.prefixes]

/-- The grant of one writer is registered: a request for it that comes from another writer is refused. -/
private theorem RegistersFor.refused (h : RegistersFor user p claimed g rows rows') (hsame : SameGrants p p')
    (hwriter : Server.writerId p g ≠ Server.writerId p' g) (hrows : rows' ⊆ w.catalog.writerPrefixes)
    (operations : List Operation) :
    Ends (Server.submitOperations user p' claimed operations) (fun _ _ => False)
      (fun refusal _ => ∃ e, refusal = .registration e ∧
        (NormalPrefixes w.catalog.writerPrefixes → ∃ message, e = .prefixAuthorization message)) w := by
  have hauthorized := h.authorized
  rw [← hsame.authorize] at hauthorized
  unfold Server.submitOperations Server.onStore
  rw [ends_bind, ends_focus, ends_orRaise]
  refine ⟨fun decision hdecision => ?_, fun e he => ?_⟩
  swap
  · rw [he] at hauthorized
    cases hauthorized
  rw [hdecision] at hauthorized
  refine Ends.ite (fun hdenied => ?_) fun _ => ?_
  · have hallowed : decision.allowed = true := by simpa [Except.map] using hauthorized
    rw [hdenied] at hallowed
    cases hallowed
  rw [ends_bind, ends_focus, hsame.submissionPrefix, h.granted, ends_orRaise]
  refine ⟨fun granted hgranted => ?_, fun e he => by cases he⟩
  cases hgranted
  obtain ⟨r, hr, huser, hid, hpath⟩ := h.mem
  have hother : r ∈ otherPrefixes user (Server.writerId p' g) w.catalog.writerPrefixes :=
    List.mem_filter.2 ⟨hrows hr, by simpa [huser, hid] using hwriter⟩
  have hover : prefixesOverlap g r.prefixPath = .ok true := by
    rw [hpath, prefixesOverlap_eq h.normalized h.normalized]
    exact congrArg _ (decide_eq_true (.inl List.prefix_rfl))
  obtain ⟨e, he, hmessage⟩ := rejectOverlaps_of_overlap (Server.writerId p' g) hother hover
  rw [ends_bind, ends_focus]
  refine (registerPrefix_spec user (Server.writerId p' g) g w).mono (fun _ w1 hw1 => ?_) (fun e' w1 hw1 => ?_)
  · rw [he] at hw1
    cases hw1.2.1
  · obtain ⟨hnormal | ⟨-, hraised⟩, -⟩ := hw1
    · rw [h.normalized] at hnormal
      cases hnormal
    · rw [he] at hraised
      cases hraised
      exact ⟨e, rfl, fun hrows => hmessage h.normalized fun r hr => hrows r (List.mem_filter.1 hr).1⟩

end

/-! ### Rotations -/

namespace Coordinator

variable {nfkd : String → String} {user : String} {s : Databases}

/-- The row of a machine stays through a run, but for the key it is bound to. -/
private theorem row_stays_run {r : MachineRow} (hr : r ∈ s.machines) (hw : s.WF user) {attempts : List Attempt}
    (hf : FreshRun nfkd user s attempts) :
    ∃ r' ∈ (runAttempts nfkd user s attempts).machines, SameRegistration r r' := by
  refine (runAttempts_keeps (P := fun s => ∃ r' ∈ s.machines, SameRegistration r r') (fun s a hw hrow hfresh => ?_) hw
    ⟨r, hr, .refl r⟩ hf).2
  obtain ⟨r', hr', hsame⟩ := hrow
  obtain ⟨r'', hr'', hsame'⟩ := (Attempt.move hw hfresh).row_stays hr'
  exact ⟨r'', hr'', hsame.trans hsame'⟩

variable {a : Attempt} {principal : Principal} {machineId key : String}

/-- The key of a prepared rotation is the one that was drawn. -/
private theorem key_of_prepared (hw : s.WF user) (hf : s.Fresh a.draw) (hcall : a.call = .prepare principal machineId)
    {s' : Databases} (h : a.run nfkd user s = .ok (.prepared key) s') :
    key = a.draw.key ∧ ∃ r ∈ s.machines, r.machineId = machineId := by
  have hends : Ends (a.call.program nfkd user a.draw)
      (fun response _ => ∀ key, response = .prepared key → key = a.draw.key ∧ ∃ r ∈ s.machines, r.machineId = machineId)
      (fun _ _ => True) { s with dies := a.dies } := by
    rw [hcall]
    unfold Call.program
    rw [ends_map]
    refine (prepareRotation_spec (Databases.WF.of_dies user hw a.dies) (Databases.Fresh.of_dies hf a.dies)).mono
      (fun drawn s1 hs1 key hkey => ?_) fun _ _ _ => trivial
    cases hkey
    obtain ⟨r, hrow, -, hdrawn, -⟩ := hs1
    obtain ⟨hr, -, hid⟩ := Machines.mem_of_row? hrow
    exact ⟨hdrawn, r, hr, hid⟩
  exact hends.of_ok h key rfl

/-- The key of a confirmed rotation was issued for the machine. -/
private theorem issuedFor_of_confirmed (hw : s.WF user) (hcall : a.call = .confirm principal machineId key)
    {m : Machine}
    {s' : Databases} (h : a.run nfkd user s = .ok (.updated m) s') {c : Credential} (hc : c ∈ s'.credentials)
    (hkey : c.keyId = key) :
    Credentials.validKeyId c.keyId = true ∧ ∃ r ∈ s.machines, r.machineId = machineId ∧ IssuedFor r c := by
  have hends : Ends (a.call.program nfkd user a.draw)
      (fun _ s' => ∀ c ∈ s'.credentials, c.keyId = key → Credentials.validKeyId c.keyId = true ∧
        ∃ r ∈ s.machines, r.machineId = machineId ∧ IssuedFor r c)
      (fun _ _ => True) { s with dies := a.dies } := by
    rw [hcall]
    unfold Call.program
    rw [ends_map]
    refine (confirmRotation_spec (Databases.WF.of_dies user hw a.dies)).mono (fun m s1 hs1 c hc hk => ?_)
      fun _ _ _ => trivial
    obtain ⟨r, b, hid, hconfirmed⟩ := hs1
    obtain ⟨d, hd, hsame⟩ := Credentials.sameKey_of_mem_revokeWhere (hconfirmed.credentials ▸ hc)
    have hreplacement : ∃ predecessor e, e.keyId = key ∧ Replacement s.credentials a.draw.now r predecessor e := by
      rcases hconfirmed.binding with ⟨-, -, e, hek, he⟩ | ⟨-, hforward⟩
      · exact ⟨b, e, hek, he⟩
      · obtain ⟨predecessor, e, -, hek, -, he⟩ := hforward.replacement
        exact ⟨predecessor, e, hek, he⟩
    obtain ⟨predecessor, e, hek, he⟩ := hreplacement
    obtain rfl := hw.credentials.eq_of_keyId hd he.mem (hsame.keyId.trans (hk.trans hek.symm))
    have hissued : IssuedFor r d := ⟨he.granted.2.1, he.granted.2.2.1, he.granted.2.2.2⟩
    exact ⟨hsame.keyId ▸ hw.credentials.valid d hd, r, (Machines.mem_of_row? hconfirmed.row).1, hid,
      hissued.of_sameKey hsame⟩
  exact hends.of_ok h c hc hkey

end Coordinator

open Coordinator in
/-- The ways in which a key `c` is replaced by a key `c'`: `CredentialStore.rotate` for the key of a service, and for a
key of a machine a rotation that is prepared and, after other calls, confirmed. -/
inductive Rotates (nfkd : String → String) (user : String) (c c' : Credential) : Prop
  | service {credentials credentials' : List Credential} {draw : Draw}
      (hc : Credentials.get credentials c.keyId = .ok c)
      (h : Credentials.rotate credentials draw c.keyId = .ok (c', credentials'))
  | machine {s s1 s' : Databases} {prepare confirm : Attempt} {between : List Attempt}
  {principal principal' : Principal}
      {machineId : String} {m : Machine} (hs : Reachable nfkd user s)
      (hfresh : FreshRun nfkd user s (prepare :: between)) (hc : c ∈ s.credentials) (hm : c.machineId = some machineId)
      (hprepare : prepare.call = .prepare principal machineId)
      (hprepared : prepare.run nfkd user s = .ok (.prepared c'.keyId) s1)
      (hconfirm : confirm.call = .confirm principal' machineId c'.keyId)
      (hconfirmed : confirm.run nfkd user (runAttempts nfkd user s (prepare :: between)) = .ok (.updated m) s')
      (hc' : c' ∈ s'.credentials)

/-- A key and its replacement: they differ in their ids, and have the same grants. -/
structure Replaced (c c' : Credential) : Prop where
  keyId : c.keyId ≠ c'.keyId
  scopes : c'.scopes = c.scopes
  prefixes : c'.prefixes = c.prefixes
  valid : Auth.validatePrincipal c'.keyId .apiKey c'.scopes (some c'.keyId) c'.prefixes c'.machineId = .ok c'.prefixes

private theorem Credentials.rotate_replaced {credentials credentials' : List Credential} {draw : Draw}
    {c c' : Credential}
    (hc : get credentials c.keyId = .ok c) (h : rotate credentials draw c.keyId = .ok (c', credentials')) :
    Replaced c c' := by
  unfold rotate at h
  rw [hc] at h
  obtain ⟨old, hold, h⟩ := bind_eq_ok.1 h
  cases hold
  dsimp only at h
  split at h
  · cases h
  split at h
  · cases h
  obtain ⟨issued, hprepare, h⟩ := bind_eq_ok.1 h
  obtain ⟨inserted, hinsert, h⟩ := bind_eq_ok.1 h
  split at h
  · cases h
  cases h
  obtain ⟨⟨-, hscopes, hprefixes, -⟩, hvalid⟩ := prepare_grants hprepare
  refine ⟨fun heq => ?_, hscopes, hprefixes, hvalid⟩
  -- the former key has a row, so that an insertion under its id fails
  have htaken : (credentials.any fun d => d.keyId = c'.keyId) = true :=
    List.any_eq_true.2 ⟨c, (get_ok hc).1, by simpa using heq⟩
  unfold insert at hinsert
  rw [if_pos htaken] at hinsert
  cases hinsert

/-- A key and its replacement, whichever way it came to be replaced. -/
private theorem Rotates.replaced {nfkd : String → String} {user : String} {c c' : Credential}
    (h : Rotates nfkd user c c') :
    Replaced c c' := by
  cases h with
  | service hc h => exact Credentials.rotate_replaced hc h
  | @machine s s1 s' prepare confirm between principal principal' machineId m hs hfresh hc hm hprepare hprepared
    hconfirm
      hconfirmed hc' =>
    have hw := hs.invariant.1
    obtain ⟨hdrawn, r, hr, rfl⟩ := Coordinator.key_of_prepared hw hfresh.1 hprepare hprepared
    obtain ⟨hw', hgranted⟩ := Coordinator.runAttempts_keeps (P := Coordinator.MachinesGranted)
      (fun s a hw hgranted hf => hgranted.after hw hf) hw hs.granted hfresh
    obtain ⟨hvalid, r', hr', hid, hissued'⟩ := Coordinator.issuedFor_of_confirmed hw' hconfirm hconfirmed hc' rfl
    -- the row of the machine has stayed, with its key
    obtain ⟨r'', hr'', hsame⟩ := Coordinator.row_stays_run hr hw hfresh
    obtain rfl := hw'.machines.eq_of_machineId hr' hr'' (by rw [hid, hsame])
    have hissued := hsame.issuedFor (hs.granted c hc r hr hm)
    refine ⟨fun heq => (hfresh.1.key c hc).1 (heq.trans hdrawn), hissued'.scopes.trans hissued.scopes.symm,
      hissued'.prefixes.trans hissued.prefixes.symm, ?_⟩
    exact (Auth.validatePrincipal_of_grant
      (hissued'.valid hvalid (hw'.machines.uuids r' hr') (hw'.machines.words r' hr'))).2

/-! ### Requests under the replacement -/

private theorem Server.writerId_principal (c : Credential)
    (h : Auth.validatePrincipal c.keyId .apiKey c.scopes (some c.keyId) c.prefixes c.machineId = .ok c.prefixes)
    (g : String) : Server.writerId (c.principal h) g = s!"{c.keyId}:{g}" := by
  have hkey : ((some c.keyId).filter (· ≠ "")).getD c.keyId = c.keyId := by
    by_cases hempty : c.keyId = "" <;> simp [Option.filter, hempty]
  unfold Server.writerId Credential.principal
  dsimp only
  rw [hkey]

private theorem Replaced.writerId_ne {c c' : Credential} (h : Replaced c c')
    (hvalid : Auth.validatePrincipal c.keyId .apiKey c.scopes (some c.keyId) c.prefixes c.machineId = .ok c.prefixes)
    (g : String) : Server.writerId (c.principal hvalid) g ≠ Server.writerId (c'.principal h.valid) g := by
  rw [Server.writerId_principal, Server.writerId_principal]
  intro heq
  have hlists := congrArg String.toList heq
  simp only [toString, String.toList_append, List.append_cancel_right_eq] at hlists
  exact h.keyId (String.toList_inj.1 hlists)

/-- Whatever a key was accepted for is refused under its replacement, also after other requests: the prefix stays
registered for the writer of the former key. -/
theorem rotated_refused {nfkd : String → String} {user : String} {c c' : Credential} (h : Rotates nfkd user c c')
    (hvalid : Auth.validatePrincipal c.keyId .apiKey c.scopes (some c.keyId) c.prefixes c.machineId = .ok c.prefixes)
    {claimed : String} {operations : List Operation} {w w' : World} {submission : Submission}
    (haccepted : Server.submitOperations user (c.principal hvalid) claimed operations w = .ok submission w')
    (later : List Server.Request) (operations' : List Operation) :
    ∃ e w'', Server.submitOperations user (c'.principal h.replaced.valid) claimed operations'
        (Server.serve user w' later) = .error (.registration e) w'' ∧
      (NormalPrefixes w.catalog.writerPrefixes → ∃ message, e = .prefixAuthorization message) := by
  have hreplaced := h.replaced
  obtain ⟨g, hregisters⟩ := (Server.submitOperations_rows operations).of_ok haccepted
  obtain ⟨hrows, hnormal⟩ := Server.serve_rows user w' later
  have hgrants : SameGrants (c.principal hvalid) (c'.principal hreplaced.valid) :=
    ⟨hreplaced.scopes, hreplaced.prefixes⟩
  have hrefused := hregisters.refused hgrants (hreplaced.writerId_ne hvalid g) hrows operations'
  cases hanswer : Server.submitOperations user (c'.principal hreplaced.valid) claimed operations'
      (Server.serve user w' later) with
  | ok submission' w'' => exact (hrefused.of_ok hanswer).elim
  | error refusal w'' =>
    obtain ⟨e, rfl, hmessage⟩ := hrefused.of_error hanswer
    exact ⟨e, w'', rfl, fun hnormals => hmessage (hnormal (hregisters.normal hnormals))⟩

/-! ### Sample rotations -/

section

open Coordinator

/-- The first key of the sample machine. -/
def machineKey : Credential := Credentials.machineCredential (sampleDraw 1) (sampleDraw 1).uuid "host" none

/-- The key that is prepared for it. -/
def preparedKey : Credential :=
  Credentials.machineCredential (sampleDraw 2) (sampleDraw 1).uuid "host" (some (sampleDraw 1).key)

private theorem rotates_machineKey : Rotates id "user" machineKey preparedKey := by
  have hprepared : runAttempts id "user" registered [preparation] = prepared := Attempt.after_of_ok preparation_run
  have hconfirmed : (match confirmation.run id "user" prepared with
      | .ok (.updated _) s' => decide (preparedKey ∈ s'.credentials)
      | _ => false) = true := by
    decide +kernel
  split at hconfirmed
  · rename_i m s' hrun
    exact .machine registered_reachable (show FreshRun id "user" registered [preparation] by decide +kernel)
      (List.mem_singleton.2 rfl) rfl rfl preparation_run rfl (hprepared ▸ hrun) (of_decide_eq_true hconfirmed)
  · cases hconfirmed

private theorem machineKey_valid : Auth.validatePrincipal machineKey.keyId .apiKey machineKey.scopes
    (some machineKey.keyId)
    machineKey.prefixes machineKey.machineId = .ok machineKey.prefixes := by
  have hkey := Credentials.isWord_of_validKeyId (sampleDraw 1).key_valid
  have hid := Credentials.isWord_of_isUuid (sampleDraw 1).uuid_valid
  have hletters : "host".toList.all Strip.isWordChar = true := by decide
  have hhost : Credentials.IsWord "host" := ⟨by decide, List.all_eq_true.1 hletters⟩
  exact (Auth.validatePrincipal_of_grant
    (Auth.credentialGrant_machine hkey.1 hkey.2 hid.1 hid.2 hhost.1 hhost.2)).2

theorem rotated_refused_machine :
    ∃ submission w', Server.submitOperations "user" (machineKey.principal machineKey_valid) "machines/host"
        [putText "notes" "machines/host/notes.md" "text"] (emptyStore (fun _ => 0) 4000) = .ok submission w' ∧
      ∃ message w'', Server.submitOperations "user" (preparedKey.principal rotates_machineKey.replaced.valid)
        "machines/host" [putText "notes" "machines/host/notes.md" "new text"] w' =
          .error (.registration (.prefixAuthorization message)) w'' := by
  have haccepted : returns (Server.submitOperations "user" (machineKey.principal machineKey_valid) "machines/host"
      [putText "notes" "machines/host/notes.md" "text"]) (emptyStore (fun _ => 0) 4000) = true := by
    decide +kernel
  have hstart : NormalPrefixes (emptyStore (fun _ => 0) 4000).catalog.writerPrefixes := by decide
  obtain ⟨submission, haccepted⟩ := ok_of_returns haccepted
  generalize endState _ _ = w' at haccepted
  obtain ⟨e, w'', hrefused, hmessage⟩ := rotated_refused rotates_machineKey machineKey_valid haccepted []
    [putText "notes" "machines/host/notes.md" "new text"]
  obtain ⟨message, rfl⟩ := hmessage hstart
  exact ⟨submission, w', haccepted, message, w'', hrefused⟩

def freshDraw : Draw where
  key := "agent-1111111111"
  uuid := "00000000-0000-4000-8000-000000000000"
  now := 2
  key_valid := by decide +kernel
  uuid_valid := Credentials.isUuid_zero
  now_pos := by decide

/-- The replacement of the key of the sample agent. -/
def freshAgent : Credential := { agent ["notes"] with keyId := "agent-1111111111", createdAt := 2 }

private theorem agent_rotated : ∃ credentials, Credentials.rotate [agent ["notes"]] freshDraw (agent ["notes"]).keyId =
    .ok (freshAgent, credentials) :=
  ⟨[{ agent ["notes"] with revokedAt := some 2, replacedBy := some "agent-1111111111" }, freshAgent], by decide +kernel⟩

private theorem agent_valid : Auth.validatePrincipal (agent ["notes"]).keyId .apiKey (agent ["notes"]).scopes
    (some (agent ["notes"]).keyId) (agent ["notes"]).prefixes (agent ["notes"]).machineId =
      .ok (agent ["notes"]).prefixes := by
  decide +kernel

private theorem freshAgent_valid : Auth.validatePrincipal freshAgent.keyId .apiKey freshAgent.scopes
    (some freshAgent.keyId)
    freshAgent.prefixes freshAgent.machineId = .ok freshAgent.prefixes := by
  decide +kernel

/-- The agent has written a document below its prefix; after a rotation it cannot write there any more. -/
theorem rotation_takes_prefix :
    (∃ credentials, Credentials.rotate [agent ["notes"]] freshDraw (agent ["notes"]).keyId =
      .ok (freshAgent, credentials)) ∧
      ¬∀ submission w', Server.submitOperations "local" ((agent ["notes"]).principal agent_valid) "notes"
          [putText "a" "notes/a.md" "text"] (emptyStore (fun _ => 0) 4000) = .ok submission w' →
        ∃ submission' w'', Server.submitOperations "local" (freshAgent.principal freshAgent_valid) "notes"
          [putText "a" "notes/a.md" "new text"] w' = .ok submission' w'' := by
  refine ⟨agent_rotated, fun h => ?_⟩
  have haccepted : returns (Server.submitOperations "local" ((agent ["notes"]).principal agent_valid) "notes"
      [putText "a" "notes/a.md" "text"]) (emptyStore (fun _ => 0) 4000) = true := by
    decide +kernel
  have hrefused : returns (Server.submitOperations "local" (freshAgent.principal freshAgent_valid) "notes"
      [putText "a" "notes/a.md" "new text"]) (endState (Server.submitOperations "local"
        ((agent ["notes"]).principal agent_valid) "notes" [putText "a" "notes/a.md" "text"])
          (emptyStore (fun _ => 0) 4000)) = false := by
    decide +kernel
  obtain ⟨submission, haccepted⟩ := ok_of_returns haccepted
  obtain ⟨submission', w'', hagain⟩ := h submission _ haccepted
  rw [returns_of_ok hagain] at hrefused
  cases hrefused

end

end Ctxd

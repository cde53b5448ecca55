import Ctxd.Credentials
import Ctxd.Registrations
import Ctxd.Runs
import Ctxd.ServerPaths
import Ctxd.SubmitFrame

/-!
# Submissions of one credential

The server submits the operations of a request for the writer of a grant: the key of the credential with the longest of
its prefixes that the claimed prefix is within.  It registers that prefix for the writer first, and prefixes of
different writers may not overlap.  So the writers of a credential keep out of each other's way exactly when no prefix
of the credential is within another one (`grants_registered_iff`).
-/

namespace Ctxd

open Program

/-! ### What leaves the registered prefixes alone -/

def World.SamePrefixes (w w' : World) : Prop := w'.catalog.writerPrefixes = w.catalog.writerPrefixes

def Catalog.SamePrefixes (c c' : Catalog) : Prop := c'.writerPrefixes = c.writerPrefixes

instance : IsPreorder Catalog Catalog.SamePrefixes where
  refl _ := rfl
  trans _ _ _ h h' := Eq.trans h' h

private theorem Catalog.samePrefixes_rows (user writer : String) : WriterRows user writer Catalog.SamePrefixes where
  updateEntry _ hc := by
    unfold Catalog.updateEntry at hc
    split at hc
    · cases hc
    · cases hc
      rfl
  upsertDecision c row _ _ := (upsertDecision_entries c row).2.writerPrefixes
  upsertEntry _ _ hc := by
    unfold Catalog.upsertEntry at hc
    split at hc
    · cases hc
    · split at hc <;> cases hc <;> rfl
  deleteEntry _ _ := rfl
  submissions _ _ := rfl

/-- A submission registers no prefix. -/
theorem SamePrefixes.submit {user writer : String} (operations : List Operation) :
    Keeps World.SamePrefixes (fun _ => True) (submit user writer operations) :=
  (Catalog.samePrefixes_rows user writer).submit operations

/-! ### The endpoint -/

namespace Server

/-- Where a submission is refused. -/
inductive Refusal
  | claim (e : StoreError)
  | denied (decision : AuthorizationDecision)
  | registration (e : StoreError)
  | operations (e : StoreError)
  deriving DecidableEq, Repr

/-- The writer that a principal is below one of its prefixes. -/
def writerId (principal : Principal) (granted : String) : String :=
  let key := (principal.keyId.filter (· ≠ "")).getD principal.principalId
  s!"{key}:{granted}"

def onStore {α : Type} (refuse : StoreError → Refusal) (m : StoreM α) : EStateM Refusal World α :=
  focus id (fun _ w => w) refuse m

/-- `submit_ctxfs_operations`, for a principal that has the scope. -/
def submitOperations (user : String) (principal : Principal) (claimed : String) (operations : List Operation) :
    EStateM Refusal World Submission := do
  let decision ← onStore .claim (orRaise (Auth.authorize (some principal) .submit (some claimed)))
  if decision.allowed = false then throw (.denied decision)
  let granted ← onStore .claim (orRaise (submissionPrefix principal claimed))
  onStore .registration (registerPrefix user (writerId principal granted) granted)
  onStore .operations (Ctxd.submit user (writerId principal granted) operations)

/-- The answers to requests of one principal, a claimed prefix and operations each. -/
def answers (user : String) (principal : Principal) : List (String × List Operation) → World →
    List (Except Refusal Submission)
  | [], _ => []
  | (claimed, operations) :: rest, w =>
    match submitOperations user principal claimed operations w with
    | .ok submission w' => .ok submission :: answers user principal rest w'
    | .error refusal w' => .error refusal :: answers user principal rest w'

/-! ### The grant of a claim -/

private theorem longest_mem {texts : List String} {text : String} (h : longest texts = some text) : text ∈ texts := by
  induction texts generalizing text with
  | nil => cases h
  | cons first rest ih =>
    unfold longest at h
    cases hrest : longest rest with
    | none =>
      rw [hrest] at h
      cases h
      exact List.mem_cons_self ..
    | some other =>
      rw [hrest] at h
      dsimp only at h
      split at h
      · cases h
        exact List.mem_cons_of_mem _ (ih hrest)
      · cases h
        exact List.mem_cons_self ..

/-- A text that is longer than all others is the longest one. -/
private theorem longest_eq {texts : List String} {text : String} (hmem : text ∈ texts)
    (h : ∀ t ∈ texts, t ≠ text → t.length < text.length) : longest texts = some text := by
  induction texts with
  | nil => cases hmem
  | cons first rest ih =>
    unfold longest
    by_cases hrest : text ∈ rest
    · rw [ih hrest fun t ht => h t (List.mem_cons_of_mem _ ht)]
      dsimp only
      by_cases hfirst : first = text
      · rw [hfirst, if_neg (Nat.lt_irrefl _)]
      · rw [if_pos (h first (List.mem_cons_self ..) hfirst)]
    · have hfirst : first = text := by
        rcases List.mem_cons.1 hmem with heq | hin
        · exact heq.symm
        · exact absurd hin hrest
      cases hlongest : longest rest with
      | none => rw [hfirst]
      | some other =>
        have hin := longest_mem hlongest
        have hne : other ≠ text := fun heq => hrest (heq ▸ hin)
        have hlt := h other (List.mem_cons_of_mem _ hin) hne
        dsimp only
        rw [hfirst, if_neg (by omega)]

end Server

/-! ### The principal of a credential -/

private theorem Auth.normalizePrefix_ok {pre q : String} (h : Auth.normalizePrefix pre = .ok q) :
    q = pre ∧ Normalized pre := by
  obtain ⟨normalized, hpath, h⟩ := bind_eq_ok.1 h
  obtain ⟨-, -, h⟩ := bind_eq_ok.1 h
  cases h
  exact Auth.normalizePath_ok hpath

private theorem Auth.mapM_normalizePrefix {prefixes normalized : List String}
    (h : prefixes.mapM Auth.normalizePrefix = .ok normalized) : normalized =
      prefixes ∧ ∀ p ∈ prefixes, Normalized p := by
  induction prefixes generalizing normalized with
  | nil =>
    cases h
    simp
  | cons pre rest ih =>
    rw [List.mapM_cons] at h
    obtain ⟨q, hq, h⟩ := bind_eq_ok.1 h
    obtain ⟨qs, hqs, h⟩ := bind_eq_ok.1 h
    cases h
    obtain ⟨rfl, hpre⟩ := Auth.normalizePrefix_ok hq
    obtain ⟨rfl, hrest⟩ := ih hqs
    exact ⟨rfl, fun p hp => (List.mem_cons.1 hp).elim (fun heq => heq ▸ hpre) (hrest p)⟩

/-- The grants that pass their checks are as they were, each of them another path. -/
theorem Auth.validateGrants_prefixes {scopes : Finset Scope} {prefixes normalized : List String}
    {machineId : Option String} (h : Auth.validateGrants scopes prefixes machineId = .ok normalized) :
    normalized = prefixes ∧ (∀ p ∈ prefixes, Normalized p) ∧ prefixes.Nodup ∧ (prefixes ≠ [] → .submit ∈ scopes) := by
  unfold Auth.validateGrants at h
  simp only [bind_eq_ok, Auth.require_ok] at h
  obtain ⟨normalized', hnormal, _, hunique, _, hsubmit, _, -, _, -, _, -, _, -, _, -, h⟩ := h
  cases h
  obtain ⟨rfl, hpaths⟩ := Auth.mapM_normalizePrefix hnormal
  simp only [decide_eq_true_eq, Bool.or_eq_true] at hunique hsubmit
  exact ⟨rfl, hpaths, hunique, fun hne => hsubmit.resolve_left hne⟩

/-- A grant that passes its checks makes a principal that passes them. -/
theorem Auth.validatePrincipal_of_grant {key : String} {scopes : Finset Scope} {prefixes : List String}
    {machineId : Option String} {grant : CredentialGrant}
    (h : Auth.credentialGrant key key scopes prefixes machineId = .ok grant) :
    grant = ⟨key, key, scopes, prefixes, machineId⟩ ∧
      Auth.validatePrincipal key .apiKey scopes (some key) prefixes machineId = .ok prefixes := by
  unfold Auth.credentialGrant at h
  obtain ⟨_, hprincipal, h⟩ := bind_eq_ok.1 h
  obtain ⟨_, hkey, h⟩ := bind_eq_ok.1 h
  have hrest : (∀ machine ∈ machineId, Auth.requireIdentifier machine "machine_id" = .ok ()) ∧
      ∃ normalized, Auth.validateGrants scopes prefixes machineId = .ok normalized ∧
        grant = ⟨key, key, scopes, normalized, machineId⟩ := by
    cases machineId with
    | none =>
      obtain ⟨normalized, hvalid, h⟩ := bind_eq_ok.1 h
      cases h
      exact ⟨fun _ hmachine => (by cases hmachine), normalized, hvalid, rfl⟩
    | some machine =>
      obtain ⟨_, hmachine, h⟩ := bind_eq_ok.1 h
      obtain ⟨normalized, hvalid, h⟩ := bind_eq_ok.1 h
      cases h
      exact ⟨fun other hother => Option.some.inj hother ▸ hmachine, normalized, hvalid, rfl⟩
  obtain ⟨hmachine, normalized, hvalid, rfl⟩ := hrest
  obtain ⟨rfl, -⟩ := Auth.validateGrants_prefixes hvalid
  refine ⟨rfl, ?_⟩
  have hne : key ≠ "" := by
    rintro rfl
    cases hkey
  have hkeyed : (decide (PrincipalKind.apiKey ≠ .apiKey) || decide ((some key).getD "" ≠ "")) = true := by
    simpa using hne
  have hremote : (decide (PrincipalKind.apiKey ≠ .localSocket) || (some key).isNone) = true := rfl
  unfold Auth.validatePrincipal
  rw [hprincipal, Auth.require_of hkeyed, Auth.require_of hremote]
  dsimp only
  rw [hkey]
  cases machineId with
  | none =>
    rw [hvalid]
    rfl
  | some machine =>
    dsimp only
    rw [hmachine machine rfl, hvalid]
    rfl

namespace Credentials

variable {credentials credentials' : List Credential} {draw : Draw} {name : String} {scopes : Finset Scope}
  {prefixes : List String} {expiresAt : Option Int} {c : Credential}

/-- A prepared key has the grants it was prepared with. -/
theorem prepare_grants {machineId rotationFrom : Option String}
    (h : prepare draw name scopes prefixes expiresAt machineId rotationFrom = .ok c) :
    (c.keyId = draw.key ∧ c.scopes = scopes ∧ c.prefixes = prefixes ∧ c.machineId = machineId) ∧
      Auth.validatePrincipal c.keyId .apiKey c.scopes (some c.keyId) c.prefixes c.machineId = .ok c.prefixes := by
  unfold prepare at h
  simp only [bind_eq_ok] at h
  obtain ⟨_, -, _, -, _, -, _, -, grant, hgrant, _, -, h⟩ := h
  cases h
  cases hchecked : Auth.credentialGrant draw.key draw.key scopes prefixes machineId with
  | ok checked =>
    rw [hchecked] at hgrant
    cases hgrant
    obtain ⟨rfl, hvalid⟩ := Auth.validatePrincipal_of_grant hchecked
    exact ⟨⟨rfl, rfl, rfl, rfl⟩, hvalid⟩
  | error e =>
    rw [hchecked] at hgrant
    cases hgrant

/-- The checks of the principal pass that `verify` makes of a created credential. -/
theorem create_valid (h : create credentials draw name scopes prefixes expiresAt = .ok (c, credentials')) :
    Auth.validatePrincipal c.keyId .apiKey c.scopes (some c.keyId) c.prefixes c.machineId = .ok c.prefixes := by
  obtain ⟨issued, hprepare, h⟩ := bind_eq_ok.1 h
  obtain ⟨inserted, -, h⟩ := bind_eq_ok.1 h
  cases h
  exact (prepare_grants hprepare).2

end Credentials

/-- `CredentialGrant.principal` of the grant of a credential. -/
def Credential.principal (c : Credential)
    (h : Auth.validatePrincipal c.keyId .apiKey c.scopes (some c.keyId) c.prefixes c.machineId = .ok c.prefixes) :
    Principal := ⟨c.keyId, .apiKey, c.scopes, some c.keyId, c.prefixes, c.machineId, h⟩

/-! ### Requests of one credential -/

section

variable {user : String} {p : Principal} {w : World} {g g' : String}

private theorem Server.writerId_injective (h : Server.writerId p g = Server.writerId p g') : g = g' := by
  unfold Server.writerId at h
  have hlists := congrArg String.toList h
  simp only [toString, String.toList_append, List.append_cancel_left_eq] at hlists
  exact String.toList_inj.1 hlists

/-- The grants of a principal that has any. -/
structure Granted (p : Principal) : Prop where
  admin : .admin ∉ p.scopes
  submit : .submit ∈ p.scopes
  normalized : ∀ g ∈ p.prefixes, Normalized g
  nodup : p.prefixes.Nodup

private theorem Principal.granted (p : Principal) (h : p.prefixes ≠ []) : Granted p := by
  have hgrants := Auth.validatePrincipal_ok p.valid
  obtain ⟨-, hnormalized, hnodup, hsubmit⟩ := Auth.validateGrants_prefixes hgrants
  obtain ⟨hadmin, -, -⟩ := Auth.validateGrants_ok hgrants
  refine ⟨fun hin => ?_, hsubmit h, hnormalized, hnodup⟩
  obtain ⟨scope, hone⟩ := Finset.card_eq_one.1 (hadmin hin)
  have hs := hsubmit h
  rw [hone, Finset.mem_singleton] at hin hs
  rw [← hs] at hin
  cases hin

theorem Server.submissionPrefix_mem (hadmin : .admin ∉ p.scopes) {claimed : String}
    (h : Server.submissionPrefix p claimed = .ok g) : g ∈ p.prefixes := by
  unfold Server.submissionPrefix at h
  rw [if_neg hadmin] at h
  cases hlongest : Server.longest (p.prefixes.filter (Server.claims claimed)) with
  | none =>
    rw [hlongest] at h
    cases h
  | some pre =>
    rw [hlongest] at h
    cases h
    exact (List.mem_filter.1 (Server.longest_mem hlongest)).1

/-- A grant that is claimed itself is the longest one. -/
private theorem Server.submissionPrefix_grant (hp : Granted p) (hg : g ∈ p.prefixes) :
    Server.submissionPrefix p g = .ok g := by
  have hlongest : Server.longest (p.prefixes.filter (Server.claims g)) = some g := by
    refine Server.longest_eq (List.mem_filter.2 ⟨hg, by simp [Server.claims]⟩) fun t ht hne => ?_
    have hclaims := (List.mem_filter.1 ht).2
    unfold Server.claims startsBelow at hclaims
    rw [Bool.or_eq_true, decide_eq_true_eq, List.isPrefixOf_iff_prefix] at hclaims
    rcases hclaims with heq | hbelow
    · exact absurd heq.symm hne
    · have hle := hbelow.length_le
      rw [List.length_append, List.length_singleton, String.length_toList, String.length_toList] at hle
      omega
  unfold Server.submissionPrefix
  rw [if_neg hp.admin, hlongest]

/-- A request for a grant registers it and submits. -/
private theorem Server.submitOperations_grant (hp : Granted p) (hg : g ∈ p.prefixes) (operations : List Operation) :
    Server.submitOperations user p g operations =
      Server.onStore .registration (registerPrefix user (Server.writerId p g) g) >>= fun _ =>
        Server.onStore .operations (Ctxd.submit user (Server.writerId p g) operations) := by
  have hauthorize : Auth.authorize (some p) .submit (some g) = .ok (Auth.allow p .submit) := by
    have hany : (p.prefixes.any fun pre => Auth.within g pre) = true :=
      List.any_eq_true.2 ⟨g, hg, by simp [Auth.within]⟩
    unfold Auth.authorize
    dsimp only
    rw [if_neg hp.admin, if_neg (by simpa using hp.submit), if_neg (by simp),
      Auth.normalizePath_of_normalized (hp.normalized g hg)]
    simp [hany, bind, Except.bind, pure, Except.pure]
  unfold Server.submitOperations
  rw [hauthorize, Server.submissionPrefix_grant hp hg]
  rfl

private theorem rejectOverlaps_of_disjoint {writer normalized : String} {rows : List WriterPrefix}
    (hp : Normalized normalized)
    (hrows : ∀ r ∈ rows, Normalized r.prefixPath ∧ ¬Overlapping normalized r.prefixPath) :
    rejectOverlaps writer normalized rows = .ok () := by
  induction rows with
  | nil => rfl
  | cons row rest ih =>
    obtain ⟨hnormal, hover⟩ := hrows row (List.mem_cons_self ..)
    have hrest := ih fun r hr => hrows r (List.mem_cons_of_mem _ hr)
    unfold rejectOverlaps
    rw [prefixesOverlap_eq hp hnormal]
    simp [hover, hrest, bind, Except.bind]

/-- The registered prefixes are grants, each registered for its own writer. -/
def OwnGrants (user : String) (p : Principal) (w : World) : Prop :=
  ∀ r ∈ w.catalog.writerPrefixes, r.userId = user ∧ r.prefixPath ∈ p.prefixes ∧
    r.writerId = Server.writerId p r.prefixPath

private theorem OwnGrants.of_same {w' : World} (h : OwnGrants user p w) (hsame : w.SamePrefixes w') :
    OwnGrants user p w' := by
  unfold OwnGrants
  rw [hsame]
  exact h

/-- A request keeps the registered prefixes in order, and no registration is refused, when the grants are disjoint. -/
private theorem Server.submitOperations_spec (hp : Granted p)
    (hdisjoint : p.prefixes.Pairwise fun g g' => ¬Overlapping g g')
    (h : OwnGrants user p w) (claimed : String) (operations : List Operation) :
    Ends (Server.submitOperations user p claimed operations) (fun _ w' => OwnGrants user p w')
      (fun e w' => OwnGrants user p w' ∧ ∀ message, e ≠ .registration (.prefixAuthorization message)) w := by
  unfold Server.submitOperations Server.onStore
  rw [ends_bind, ends_focus, ends_orRaise]
  refine ⟨fun decision _ => ?_, fun e _ => ⟨h, fun _ => by simp⟩⟩
  refine Ends.ite (fun _ => ?_) fun _ => ?_
  · rw [ends_bind, ends_throw]
    exact ⟨h, fun _ => by simp⟩
  rw [ends_bind, ends_focus, ends_orRaise]
  refine ⟨fun granted hgranted => ?_, fun e _ => ⟨h, fun _ => by simp⟩⟩
  have hmem := Server.submissionPrefix_mem hp.admin hgranted
  have hnormal := hp.normalized granted hmem
  have hfree : rejectOverlaps (Server.writerId p granted) granted
      (otherPrefixes user (Server.writerId p granted) w.catalog.writerPrefixes) = .ok () := by
    refine rejectOverlaps_of_disjoint hnormal fun r hr => ?_
    obtain ⟨hrow, hother⟩ := List.mem_filter.1 hr
    obtain ⟨-, hgrant, hwriter⟩ := h r hrow
    have hne : granted ≠ r.prefixPath := by
      intro heq
      rw [hwriter, ← heq] at hother
      simp at hother
    have : Std.Symm fun g g' => ¬Overlapping g g' := ⟨fun g g' hover hover' => hover hover'.symm⟩
    exact ⟨hp.normalized _ hgrant, hdisjoint.forall hmem hgrant hne⟩
  rw [ends_bind, ends_focus]
  refine (registerPrefix_spec user (Server.writerId p granted) granted w).mono (fun _ w1 hw1 => ?_) (fun e w1 hw1 => ?_)
  · obtain ⟨-, -, hrows⟩ := hw1
    have h1 : OwnGrants user p w1 := by
      unfold OwnGrants
      rw [hrows]
      intro r hr
      unfold insertPrefixRow at hr
      split at hr
      · exact h r hr
      · rcases List.mem_append.1 hr with hr | hr
        · exact h r hr
        · rw [List.mem_singleton.1 hr]
          exact ⟨rfl, hmem, rfl⟩
    rw [ends_focus]
    refine (SamePrefixes.submit operations w1).mono (fun _ w2 hw2 => h1.of_same hw2.1) (fun e w2 hw2 => ?_)
    exact ⟨h1.of_same hw2, fun _ => by simp⟩
  · obtain ⟨hraised, hrows⟩ := hw1
    rcases hraised with hpath | ⟨-, hcheck⟩
    · rw [hnormal] at hpath
      cases hpath
    · rw [hfree] at hcheck
      cases hcheck

private theorem Server.answers_spec (hp : Granted p) (hdisjoint : p.prefixes.Pairwise fun g g' => ¬Overlapping g g')
    (requests : List (String × List Operation)) (h : OwnGrants user p w) (message : String) :
    .error (.registration (.prefixAuthorization message)) ∉ Server.answers user p requests w := by
  induction requests generalizing w with
  | nil => simp [Server.answers]
  | cons request rest ih =>
    have hstep := Server.submitOperations_spec hp hdisjoint h request.1 request.2
    unfold Server.answers
    cases hanswer : Server.submitOperations user p request.1 request.2 w with
    | ok submission w' =>
      have hw' := hstep.of_ok hanswer
      simp [ih hw']
    | error refusal w' =>
      obtain ⟨hw', hrefusal⟩ := hstep.of_error hanswer
      simp [ih hw', (hrefusal message).symm]

/-- Two grants that overlap keep each other out. -/
private theorem Server.answers_nested (hp : Granted p) (hg : g ∈ p.prefixes) (hg' : g' ∈ p.prefixes) (hne : g ≠ g')
    (hover : Overlapping g g') (hw : w.catalog.writerPrefixes = []) :
    ∃ message, .error (.registration (.prefixAuthorization message)) ∈ Server.answers user p [(g, []), (g', [])] w := by
  have hnormal := hp.normalized g hg
  have hnormal' := hp.normalized g' hg'
  -- whatever the first submission answers, its prefix is registered
  have hfirst : Ends (Server.submitOperations user p g [])
      (fun _ w' => ∃ time, w'.catalog.writerPrefixes = [⟨user, Server.writerId p g, g, time⟩])
      (fun _ w' => ∃ time, w'.catalog.writerPrefixes = [⟨user, Server.writerId p g, g, time⟩]) w := by
    rw [Server.submitOperations_grant hp hg, ends_bind]
    unfold Server.onStore
    rw [ends_focus]
    refine (registerPrefix_spec user (Server.writerId p g) g w).mono (fun _ w1 hw1 => ?_) (fun e w1 hw1 => ?_)
    · obtain ⟨-, -, hrows⟩ := hw1
      rw [hw] at hrows
      rw [ends_focus]
      refine (SamePrefixes.submit [] w1).mono (fun _ w2 hw2 => ⟨_, hw2.1.trans hrows⟩)
        (fun e w2 hw2 => ⟨_, hw2.trans hrows⟩)
    · obtain ⟨hraised, -⟩ := hw1
      rw [hw] at hraised
      rcases hraised with hpath | ⟨-, hcheck⟩
      · rw [hnormal] at hpath
        cases hpath
      · cases hcheck
  have hsecond : ∀ w' : World, (∃ time, w'.catalog.writerPrefixes = [⟨user, Server.writerId p g, g, time⟩]) →
      ∃ message w2, Server.submitOperations user p g' [] w' =
        .error (.registration (.prefixAuthorization message)) w2 := by
    intro w' hrow
    obtain ⟨time, hrows⟩ := hrow
    have hwriters : Server.writerId p g ≠ Server.writerId p g' := fun heq => hne (Server.writerId_injective heq)
    have hcheck : rejectOverlaps (Server.writerId p g')
      g' (otherPrefixes user (Server.writerId p g') w'.catalog.writerPrefixes) =
        .error (prefixOverlap (Server.writerId p g') g' ⟨user, Server.writerId p g, g, time⟩) := by
      rw [hrows]
      unfold otherPrefixes
      rw [List.filter_cons_of_pos (by simpa using hwriters)]
      unfold rejectOverlaps
      rw [prefixesOverlap_eq hnormal' hnormal]
      simp [hover.symm, bind, Except.bind, throw, throwThe, MonadExceptOf.throw]
    have hrefused : Ends (Server.submitOperations user p g' []) (fun _ _ => False)
        (fun e _ => ∃ message, e = .registration (.prefixAuthorization message)) w' := by
      rw [Server.submitOperations_grant hp hg', ends_bind]
      unfold Server.onStore
      rw [ends_focus]
      refine (registerPrefix_spec user (Server.writerId p g') g' w').mono (fun _ w2 hw2 => ?_) (fun e w2 hw2 => ?_)
      · rw [hcheck] at hw2
        cases hw2.2.1
      · obtain ⟨hpath | ⟨-, hraised⟩, -⟩ := hw2
        · rw [hnormal'] at hpath
          cases hpath
        · rw [hcheck] at hraised
          cases hraised
          exact ⟨_, rfl⟩
    cases hanswer : Server.submitOperations user p g' [] w' with
    | ok submission w2 => exact (hrefused.of_ok hanswer).elim
    | error e w2 =>
      obtain ⟨message, rfl⟩ := hrefused.of_error hanswer
      exact ⟨message, w2, rfl⟩
  unfold Server.answers
  cases hanswer : Server.submitOperations user p g [] w with
  | ok submission w' =>
    obtain ⟨message, w2, hlast⟩ := hsecond w' (hfirst.of_ok hanswer)
    refine ⟨message, List.mem_cons_of_mem _ ?_⟩
    unfold Server.answers
    rw [hlast]
    exact List.mem_cons_self ..
  | error e w' =>
    obtain ⟨message, w2, hlast⟩ := hsecond w' (hfirst.of_error hanswer)
    refine ⟨message, List.mem_cons_of_mem _ ?_⟩
    unfold Server.answers
    rw [hlast]
    exact List.mem_cons_self ..

end

/-- No request of a created credential is refused for a prefix that is registered for another writer exactly when its
grants do not overlap. -/
theorem grants_registered_iff {credentials credentials' : List Credential} {draw : Draw} {name : String}
    {scopes : Finset Scope} {prefixes : List String} {expiresAt : Option Int} {c : Credential}
    (hcreate : Credentials.create credentials draw name scopes prefixes expiresAt = .ok (c, credentials'))
    (user : String) {w : World} (hw : w.catalog.writerPrefixes = []) :
    (∀ requests : List (String × List Operation), (∀ r ∈ requests, ∃ g ∈ c.prefixes, Auth.within r.1 g = true) →
      ∀ message, .error (.registration (.prefixAuthorization message)) ∉
        Server.answers user (c.principal (Credentials.create_valid hcreate)) requests w) ↔
      c.prefixes.Pairwise fun g g' => ¬Overlapping g g' := by
  by_cases hnone : c.prefixes = []
  · rw [hnone]
    refine ⟨fun _ => .nil, fun _ requests hrequests message => ?_⟩
    cases requests with
    | nil => simp [Server.answers]
    | cons r rest =>
      obtain ⟨g, hg, -⟩ := hrequests r (List.mem_cons_self ..)
      cases hg
  · have hp : Granted (c.principal (Credentials.create_valid hcreate)) := Principal.granted _ hnone
    constructor
    · intro h
      refine hp.nodup.pairwise_of_forall_ne fun g hg g' hg' hne hover => ?_
      obtain ⟨message, hanswer⟩ := Server.answers_nested hp hg hg' hne hover hw
      refine h [(g, []), (g', [])] (fun r hr => ?_) message hanswer
      have hself : ∀ pre : String, Auth.within pre pre = true := fun pre => by simp [Auth.within]
      rcases List.mem_cons.1 hr with rfl | hr
      · exact ⟨g, hg, hself g⟩
      · rw [List.mem_singleton.1 hr]
        exact ⟨g', hg', hself g'⟩
    · intro hdisjoint requests _ message
      refine Server.answers_spec hp hdisjoint requests (fun r hr => ?_) message
      rw [hw] at hr
      cases hr

def agentDraw : Draw where
  key := "agent-0000000000"
  uuid := "00000000-0000-4000-8000-000000000000"
  now := 1
  key_valid := by decide +kernel
  uuid_valid := Credentials.isUuid_zero
  now_pos := Int.one_pos

/-- What `create` makes of grants for submissions. -/
def agent (prefixes : List String) : Credential :=
  ⟨"agent-0000000000", "agent", {.submit}, prefixes, 1, none, none, none, none, none⟩

theorem agent_created : Credentials.create [] agentDraw "agent" {.submit} ["notes", "work"] none =
    .ok (agent ["notes", "work"], [agent ["notes", "work"]]) := by
  decide +kernel

private theorem nestedAgent_created : Credentials.create [] agentDraw "agent" {.submit} ["notes", "notes/work"] none =
    .ok (agent ["notes", "notes/work"], [agent ["notes", "notes/work"]]) := by
  decide +kernel

theorem grants_registered_agent : ["notes", "work"].Pairwise (fun g g' => ¬Overlapping g g') ∧
    ∀ requests : List (String × List Operation),
      (∀ r ∈ requests, ∃ g ∈ (agent ["notes", "work"]).prefixes, Auth.within r.1 g = true) →
        ∀ message, .error (.registration (.prefixAuthorization message)) ∉
          Server.answers "local" ((agent ["notes", "work"]).principal (Credentials.create_valid agent_created)) requests
            (emptyStore (fun _ => 0) 4000) := by
  have hdisjoint : ["notes", "work"].Pairwise (fun g g' => ¬Overlapping g g') := by decide +kernel
  exact ⟨hdisjoint, (grants_registered_iff agent_created "local" rfl).2 hdisjoint⟩

/-- The second request is refused for the prefix that the first one has registered. -/
theorem nested_grants_refused : ¬∀ requests : List (String × List Operation),
    (∀ r ∈ requests, ∃ g ∈ (agent ["notes", "notes/work"]).prefixes, Auth.within r.1 g = true) →
      ∀ message, .error (.registration (.prefixAuthorization message)) ∉
        Server.answers "local" ((agent ["notes", "notes/work"]).principal
          (Credentials.create_valid nestedAgent_created))
          requests (emptyStore (fun _ => 0) 4000) := by
  intro h
  have hp : Granted ((agent ["notes", "notes/work"]).principal (Credentials.create_valid nestedAgent_created)) :=
    Principal.granted _ (by decide)
  have hnotes : "notes" ∈
      ((agent ["notes", "notes/work"]).principal (Credentials.create_valid nestedAgent_created)).prefixes :=
    List.mem_cons_self ..
  have hwork : "notes/work" ∈
      ((agent ["notes", "notes/work"]).principal (Credentials.create_valid nestedAgent_created)).prefixes :=
    List.mem_cons_of_mem _ (List.mem_cons_self ..)
  have hempty : (emptyStore (fun _ => 0) 4000).catalog.writerPrefixes = [] := rfl
  obtain ⟨message, hanswer⟩ := Server.answers_nested hp hnotes hwork (by decide) (by decide +kernel) hempty
  refine h [("notes", []), ("notes/work", [])] (fun r hr => ?_) message hanswer
  rcases List.mem_cons.1 hr with rfl | hr
  · exact ⟨"notes", hnotes, by decide +kernel⟩
  · rw [List.mem_singleton.1 hr]
    exact ⟨"notes/work", hwork, by decide +kernel⟩

end Ctxd

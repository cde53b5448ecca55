import Ctxd.Containment

/-!
# Tokens

A key is drawn with a secret, and its token is shown once: the table keeps a salt and what `scrypt` derives from the
token.  `verify` finds the row by the id in the token.  After any calls that issue, rotate and revoke keys a request is
let in with the tokens that were issued, as long as their keys are neither revoked nor expired, and with no others but
those of the same digest (`authenticate_iff`).

The columns `salt` and `verifier`, which only the insertion of a row writes, are kept apart from the other columns under
the id of the key.  What is derived from a token and a salt is left open, and calls run one after the other.
-/

namespace Ctxd

open Program

namespace Credentials

def tokenPrefix : String := "ctxfs"

/-- `SECRET_PATTERN`. -/
def validSecret (secret : String) : Bool :=
  secret.toList.length = 43 && secret.toList.all fun c => c.isAlphanum || c = '_' || c = '-'

/-- `_parse_token`: the id of the key in a token. -/
def parseToken (token : String) : Option String :=
  match token.toList.splitOn '.' with
  | [first, keyId, secret] =>
    if String.ofList first = tokenPrefix && validKeyId (String.ofList keyId) && validSecret (String.ofList secret) then
      some (String.ofList keyId)
    else none
  | _ => none

/-- What is drawn for a token besides the id of its key: `secrets.token_urlsafe(32)` and the salt. -/
structure Secret (σ : Type) where
  text : String
  salt : σ
  valid : validSecret text = true

/-- A new key with its token and salt; the verifier is derived from them. -/
structure Issued (σ : Type) where
  credential : Credential
  token : String
  salt : σ

/-- The database: the rows without two of their columns, and these columns. -/
structure Vault (σ δ : Type) where
  credentials : List Credential
  verifiers : Dict String (σ × δ)

section

variable {σ δ : Type} (derive : String → σ → δ)

def tokenOf (keyId : String) (secret : Secret σ) : String := tokenPrefix ++ "." ++ keyId ++ "." ++ secret.text

/-- A call that changes the table of keys. -/
inductive KeyWrite (σ : Type)
  | create (draw : Draw) (secret : Secret σ) (name : String) (scopes : Finset Scope) (prefixes : List String)
      (expiresAt : Option Int)
  | issueMachine (draw : Draw) (secret : Secret σ) (machineId machineKey : String) (rotationFrom : Option String)
  | rotate (draw : Draw) (secret : Secret σ) (keyId : String)
  | revoke (now : Int) (keyId : String)
  | revokeMachineKey (now : Int) (keyId machineId : String) (replacedBy : Option String)

/-- The row of a new key is inserted with its salt and its verifier. -/
def Vault.issue (v : Vault σ δ) (secret : Secret σ) (result : Except LifecycleError (Credential × List Credential)) :
    Except LifecycleError (Option (Issued σ) × Vault σ δ) := do
  let (credential, credentials) ← result
  let token := tokenOf credential.keyId secret
  return (some ⟨credential, token, secret.salt⟩,
    ⟨credentials, v.verifiers.set credential.keyId (secret.salt, derive token secret.salt)⟩)

def KeyWrite.run (v : Vault σ δ) : KeyWrite σ → Except LifecycleError (Option (Issued σ) × Vault σ δ)
  | .create draw secret name scopes prefixes expiresAt =>
    v.issue derive secret (Credentials.create v.credentials draw name scopes prefixes expiresAt)
  | .issueMachine draw secret machineId machineKey rotationFrom =>
    v.issue derive secret (Credentials.issueMachine v.credentials draw machineId machineKey rotationFrom)
  | .rotate draw secret keyId => v.issue derive secret (Credentials.rotate v.credentials draw keyId)
  | .revoke now keyId => do return (none, { v with credentials := ← Credentials.revoke v.credentials now keyId })
  | .revokeMachineKey now keyId machineId replacedBy => do
    return (none, { v with credentials := ← Credentials.revokeMachineKey v.credentials now keyId machineId replacedBy })

/-- The database after a call, which a call that raises leaves as it was. -/
def KeyWrite.after (v : Vault σ δ) (call : KeyWrite σ) : Vault σ δ :=
  match call.run derive v with
  | .ok (_, v') => v'
  | .error _ => v

/-- The database after some calls. -/
def vault (calls : List (KeyWrite σ)) : Vault σ δ := calls.foldl (KeyWrite.after derive) ⟨[], []⟩

/-- `CredentialStore.verify`. -/
def verify [DecidableEq δ] (v : Vault σ δ) (token : String) (now : Int) : Except StoreError (Option CredentialGrant) :=
  match parseToken token with
  | none => .ok none
  | some keyId =>
    match v.credentials.find? fun c => c.keyId = keyId, v.verifiers.get? keyId with
    | some c, some (salt, verifier) =>
      if derive token salt ≠ verifier then .ok none
      else if c.revokedAt.isSome || c.expiresAt.any (fun expiry => expiry ≤ now) then .ok none
      else do return some (← Auth.credentialGrant c.keyId c.keyId c.scopes c.prefixes c.machineId)
    | _, _ => .ok none

end

end Credentials

/-- `CredentialGrant.principal`. -/
def CredentialGrant.principal (g : CredentialGrant) : Except StoreError Principal :=
  match h : Auth.validatePrincipal g.principalId .apiKey g.scopes (some g.keyId) g.prefixes g.machineId with
  | .error e => .error e
  | .ok normalized =>
    .ok ⟨g.principalId, .apiKey, g.scopes, some g.keyId, normalized, g.machineId, by
      have hsame : normalized = g.prefixes := (Auth.validateGrants_prefixes (Auth.validatePrincipal_ok h)).1
      rw [hsame] at h ⊢
      exact h⟩

namespace Server

inductive CtxfsAuthMode
  | trustedLocal | bearer
  deriving DecidableEq, Repr

/-- `_bearer_token`; `lower` is the one of ASCII letters, and no other character is lowered to one. -/
def bearerToken (authorization : Option String) : Option String :=
  match authorization with
  | none => none
  | some text =>
    match text.toList.span (· ≠ ' ') with
    | (_, []) => none
    | (scheme, _ :: rest) =>
      let token := String.ofList rest
      if scheme.map Char.toLower ≠ "bearer".toList || token = "" then none
      else if Strip.strip token ≠ token || rest.contains ' ' then none
      else some token

/-- What `authenticate_request` answers with, if it does not pass the request on. -/
inductive Admission
  | refused (status : Nat) (detail : String)
  | passed (principal : Principal)

section

variable {σ δ : Type} [DecidableEq δ] (derive : String → σ → δ) (v : Credentials.Vault σ δ)
  (machines : List MachineRow) (user : String)

/-- Whom a request comes from. -/
def requestPrincipal (mode : CtxfsAuthMode) (authorization : Option String) (now : Int) :
    Except StoreError (Option Principal) :=
  match mode with
  | .trustedLocal => .ok (some localSocketPrincipal)
  | .bearer =>
    match bearerToken authorization with
    | none => .ok none
    | some token =>
      match Credentials.verify derive v token now with
      | .error e => .error e
      | .ok none => .ok none
      | .ok (some grant) => grant.principal.map some

def authenticateRequest (mode : CtxfsAuthMode) (authorization : Option String) (method path : String) (now : Int) :
    Except StoreError Admission := do
  match ← requestPrincipal derive v mode authorization now with
  | none => return .refused 401 "missing or invalid bearer credential"
  | some p =>
    if admits machines user p method path then return .passed p
    else return .refused 403 "machine_credential_not_current"

end

end Server

/-! ### The shape of tokens -/

namespace Credentials

section

variable {σ : Type}

private theorem not_dot_of_word {word : String}
    (h : word.toList.all (fun c => c.isAlphanum || c = '_' || c = '-') = true) : '.' ∉ word.toList := by
  intro hdot
  have hchar := List.all_eq_true.1 h '.' hdot
  revert hchar
  decide

private theorem toList_tokenOf (keyId : String) (secret : Secret σ) :
    (tokenOf keyId secret).toList = ['.'].intercalate [tokenPrefix.toList, keyId.toList, secret.text.toList] := by
  unfold tokenOf
  simp [String.toList_append, List.intercalate]

/-- The id of a key is read back from its token. -/
private theorem parseToken_tokenOf {keyId : String} (h : validKeyId keyId = true) (secret : Secret σ) :
    parseToken (tokenOf keyId secret) = some keyId := by
  have hkey := h
  have hsecret := secret.valid
  unfold validKeyId at hkey
  unfold validSecret at hsecret
  rw [Bool.and_eq_true] at hkey hsecret
  have hsplit : (tokenOf keyId secret).toList.splitOn '.' = [tokenPrefix.toList, keyId.toList, secret.text.toList] := by
    rw [toList_tokenOf]
    refine List.splitOn_intercalate _ (fun word hword => ?_) (by simp)
    simp only [List.mem_cons, List.not_mem_nil, or_false] at hword
    rcases hword with rfl | rfl | rfl
    · simp [tokenPrefix]
    · exact not_dot_of_word hkey.2
    · exact not_dot_of_word hsecret.2
  unfold parseToken
  rw [hsplit]
  simp only [String.ofList_toList, h, secret.valid, decide_true, Bool.and_self, if_true]

/-- A token has no white space. -/
private theorem isSpace_of_mem_tokenOf {keyId : String} (h : validKeyId keyId = true) (secret : Secret σ) {c : Char}
    (hc : c ∈ (tokenOf keyId secret).toList) : Strip.isSpace c = false := by
  have hsecret := secret.valid
  unfold validKeyId at h
  unfold validSecret at hsecret
  rw [Bool.and_eq_true, List.all_eq_true] at h hsecret
  have hword : (c.isAlphanum || c = '_' || c = '-') = true → Strip.isSpace c = false := by
    intro hchar
    refine Strip.isSpace_of_isWordChar ?_
    simp only [Strip.isWordChar, Bool.or_eq_true, decide_eq_true_eq] at hchar ⊢
    tauto
  have hfirst : ∀ c ∈ tokenPrefix.toList, Strip.isSpace c = false := by simp [tokenPrefix, Strip.isSpace]
  have hdot : ∀ c ∈ ".".toList, Strip.isSpace c = false := by simp [Strip.isSpace]
  unfold tokenOf at hc
  simp only [String.toList_append, List.mem_append] at hc
  rcases hc with (((hc | hc) | hc) | hc) | hc
  · exact hfirst c hc
  · exact hdot c hc
  · exact hword (h.2 c hc)
  · exact hdot c hc
  · exact hword (hsecret.2 c hc)

private theorem tokenOf_ne_empty (keyId : String) (secret : Secret σ) : tokenOf keyId secret ≠ "" := by
  intro hempty
  have hlist := congrArg String.toList hempty
  rw [toList_tokenOf] at hlist
  simp [List.intercalate, tokenPrefix] at hlist

end

end Credentials

/-- A token without white space is read from a header with any spelling of the scheme. -/
private theorem Server.bearerToken_header {scheme token : String}
    (hscheme : scheme.toList.map Char.toLower = "bearer".toList)
    (hne : token ≠ "") (hspace : ∀ c ∈ token.toList, Strip.isSpace c = false) :
    bearerToken (some (scheme ++ " " ++ token)) = some token := by
  have hword : ∀ c ∈ scheme.toList, decide (c ≠ ' ') = true := by
    intro c hc
    have hlower : c.toLower ∈ "bearer".toList := hscheme ▸ List.mem_map_of_mem hc
    rw [decide_eq_true_iff]
    rintro rfl
    simp at hlower
  have hspan : (scheme ++ " " ++ token).toList.span (fun c => decide (c ≠ ' ')) =
    (scheme.toList, ' ' :: token.toList) := by
    rw [String.toList_append, String.toList_append, List.append_assoc, List.span_eq_takeWhile_dropWhile,
      List.takeWhile_append_of_pos hword, List.dropWhile_append_of_pos hword]
    simp
  unfold bearerToken
  dsimp only
  rw [hspan]
  dsimp only
  rw [String.ofList_toList, if_neg (by simp [hscheme, hne]), Strip.strip_of_noSpace hspace]
  have hnone : token.toList.contains ' ' = false := by
    rw [Bool.eq_false_iff, ne_eq, List.contains_iff_mem]
    intro hmem
    have hfalse := hspace ' ' hmem
    revert hfalse
    decide
  rw [hnone]
  simp

namespace Credentials

/-! ### What a call writes -/

/-- Two rows of one key, of which the second may be revoked. -/
structure SameTerms (c c' : Credential) : Prop where
  keyId : c.keyId = c'.keyId
  machineId : c.machineId = c'.machineId
  scopes : c.scopes = c'.scopes
  prefixes : c.prefixes = c'.prefixes
  expiresAt : c.expiresAt = c'.expiresAt

private theorem SameTerms.trans {c c' c'' : Credential} (h : SameTerms c c') (h' : SameTerms c' c'') :
    SameTerms c c'' :=
  ⟨h.keyId.trans h'.keyId, h.machineId.trans h'.machineId, h.scopes.trans h'.scopes, h.prefixes.trans h'.prefixes,
    h.expiresAt.trans h'.expiresAt⟩

section

variable {σ δ : Type} {derive : String → σ → δ} {v v' : Vault σ δ} {call : KeyWrite σ}
  {issued : Option (Issued σ)} {i : Issued σ}

/-- The key that a call revokes, or replaces, when it returns. -/
def KeyWrite.revokes (keyId : String) : KeyWrite σ → Prop
  | .rotate _ _ k => k = keyId
  | .revoke _ k => k = keyId
  | .revokeMachineKey _ k _ _ => k = keyId
  | _ => False

/-- The grant of a key. -/
def grantOf (c : Credential) : CredentialGrant := ⟨c.keyId, c.keyId, c.scopes, c.prefixes, c.machineId⟩

/-- The issued key has a token of its own, and its grants are those of a principal. -/
structure IsKey (i : Issued σ) : Prop where
  valid : validKeyId i.credential.keyId = true
  token : ∃ secret : Secret σ, i.token = tokenOf i.credential.keyId secret
  grants : Auth.credentialGrant i.credential.keyId i.credential.keyId i.credential.scopes i.credential.prefixes
    i.credential.machineId = .ok (grantOf i.credential)

/-- The key was not there before. -/
structure IsNew (derive : String → σ → δ) (v v' : Vault σ δ) (call : KeyWrite σ) (i : Issued σ) : Prop where
  key : IsKey i
  fresh : ∀ c ∈ v.credentials, c.keyId ≠ i.credential.keyId
  standing : i.credential.revokedAt = none
  other : ¬call.revokes i.credential.keyId
  verifiers : v'.verifiers = v.verifiers.set i.credential.keyId (i.salt, derive i.token i.salt)

/-- A call that returns has appended the key that it issued, and revoked the one that it revokes. -/
structure Writes (derive : String → σ → δ) (v : Vault σ δ) (call : KeyWrite σ) (issued : Option (Issued σ))
    (v' : Vault σ δ) : Prop where
  rows : ∃ f : Credential → Credential,
    v'.credentials = (v.credentials ++ (issued.map (·.credential)).toList).map f ∧
      ∀ c ∈ v.credentials ++ (issued.map (·.credential)).toList, SameTerms c (f c) ∧
        ((f c).revokedAt = none ↔ c.revokedAt = none ∧ ¬call.revokes c.keyId)
  new : ∀ i, issued = some i → IsNew derive v v' call i
  kept : issued = none → v'.verifiers = v.verifiers
  revoked : ∀ k, call.revokes k → ∃ c ∈ v.credentials, c.keyId = k

private theorem insert_eq_ok {credentials credentials' : List Credential} {c : Credential}
    (h : insert credentials c = .ok credentials') :
    credentials' = credentials ++ [c] ∧ ∀ d ∈ credentials, d.keyId ≠ c.keyId := by
  unfold insert at h
  split at h
  · cases h
  · rename_i hnone
    cases h
    rw [Bool.not_eq_true, List.any_eq_false] at hnone
    exact ⟨rfl, fun d hd => by simpa using hnone d hd⟩

private theorem prepare_new {draw : Draw} {name : String} {scopes : Finset Scope} {prefixes : List String}
    {expiresAt : Option Int} {machineId rotationFrom : Option String} {c : Credential}
    (h : prepare draw name scopes prefixes expiresAt machineId rotationFrom = .ok c) (secret : Secret σ) :
    IsKey ⟨c, tokenOf c.keyId secret, secret.salt⟩ ∧ c.revokedAt = none := by
  unfold prepare at h
  simp only [bind_eq_ok] at h
  obtain ⟨_, -, _, -, _, -, _, -, grant, hgrant, _, -, h⟩ := h
  cases h
  cases hchecked : Auth.credentialGrant draw.key draw.key scopes prefixes machineId with
  | error e =>
    rw [hchecked] at hgrant
    cases hgrant
  | ok checked =>
    rw [hchecked] at hgrant
    cases hgrant
    obtain ⟨rfl, -⟩ := Auth.validatePrincipal_of_grant hchecked
    exact ⟨⟨draw.key_valid, ⟨secret, rfl⟩, hchecked⟩, rfl⟩

/-- A key that is inserted, while no other row changes. -/
private theorem writes_insert {secret : Secret σ} {credentials' : List Credential} {c : Credential}
    (hkey : IsKey ⟨c, tokenOf c.keyId secret, secret.salt⟩) (hstanding : c.revokedAt = none)
    (hinsert : insert v.credentials c = .ok credentials') (hcall : ∀ k, ¬call.revokes k) :
    Writes derive v call (some ⟨c, tokenOf c.keyId secret, secret.salt⟩)
      ⟨credentials', v.verifiers.set c.keyId (secret.salt, derive (tokenOf c.keyId secret) secret.salt)⟩ := by
  obtain ⟨rfl, hfresh⟩ := insert_eq_ok hinsert
  refine ⟨⟨id, by simp, fun d _ => ⟨⟨rfl, rfl, rfl, rfl, rfl⟩, ?_⟩⟩, ?_, fun hnone => (by cases hnone),
    fun k hk => absurd hk (hcall k)⟩
  · exact (and_iff_left (hcall _)).symm
  · rintro _ ⟨⟩
    exact ⟨hkey, hfresh, hstanding, hcall _, rfl⟩

/-- Rows of the key are revoked. -/
private theorem writes_revoke {now : Int} {successor : Option String} {p : Credential → Bool} {k : String}
    (hp : ∀ c ∈ v.credentials, p c = true ↔ c.keyId = k) (hcall : ∀ k', call.revokes k' ↔ k = k')
    (hmem : ∃ c ∈ v.credentials, c.keyId = k) :
    Writes derive v call none { v with credentials := revokeWhere v.credentials now successor p } := by
  refine ⟨⟨fun c => if p c then revokeRow now successor c else c, by simp [revokeWhere], fun c hc => ?_⟩,
    fun i hi => (by cases hi), fun _ => rfl, fun k' hk' => ?_⟩
  · have hc : c ∈ v.credentials := by simpa using hc
    rw [hcall]
    dsimp only
    split
    · rename_i htrue
      refine ⟨⟨rfl, rfl, rfl, rfl, rfl⟩, ⟨fun hnone => absurd hnone (revokeRow_revokedAt now successor c), fun h => ?_⟩⟩
      exact absurd ((hp c hc).1 htrue).symm h.2
    · rename_i hfalse
      refine ⟨⟨rfl, rfl, rfl, rfl, rfl⟩, (and_iff_left fun hk => hfalse ((hp c hc).2 hk.symm)).symm⟩
  · rw [← (hcall k').1 hk']
    exact hmem

/-- A key that is inserted in place of another one. -/
private theorem writes_rotate {draw : Draw} (secret : Secret σ) {keyId : String} {credentials' : List Credential}
    {c : Credential} (h : Credentials.rotate v.credentials draw keyId = .ok (c, credentials')) :
    Writes derive v (.rotate draw secret keyId) (some ⟨c, tokenOf c.keyId secret, secret.salt⟩)
      ⟨credentials', v.verifiers.set c.keyId (secret.salt, derive (tokenOf c.keyId secret) secret.salt)⟩ := by
  unfold Credentials.rotate at h
  obtain ⟨old, hget, h⟩ := bind_eq_ok.1 h
  dsimp only at h
  split at h
  · cases h
  split at h
  · cases h
  obtain ⟨issued, hprepare, h⟩ := bind_eq_ok.1 h
  obtain ⟨inserted, hinsert, h⟩ := bind_eq_ok.1 h
  split at h
  · cases h
  cases h
  obtain ⟨hkey, hstanding⟩ := prepare_new hprepare secret
  obtain ⟨rfl, hfresh⟩ := insert_eq_ok hinsert
  have hold : ∀ k, KeyWrite.revokes k (.rotate draw secret keyId) ↔ keyId = k := fun _ => Iff.rfl
  refine ⟨⟨_, rfl, fun d _ => ?_⟩, ?_, fun hnone => (by cases hnone), fun k hk => ?_⟩
  · rw [hold]
    split
    · rename_i hreplaced
      simp only [Bool.and_eq_true, decide_eq_true_eq] at hreplaced
      exact ⟨⟨rfl, rfl, rfl, rfl, rfl⟩, ⟨fun hnone => (by cases hnone), fun h => absurd hreplaced.1.symm h.2⟩⟩
    · rename_i hkept
      simp only [Bool.and_eq_true, decide_eq_true_eq, Option.isNone_iff_eq_none, not_and] at hkept
      exact ⟨⟨rfl, rfl, rfl, rfl, rfl⟩, ⟨fun hnone => ⟨hnone, fun hk => hkept hk.symm hnone⟩, fun h => h.1⟩⟩
  · rintro _ ⟨⟩
    refine ⟨hkey, hfresh, hstanding, fun hk => ?_, rfl⟩
    exact hfresh old (get_ok hget).1 ((get_ok hget).2.trans ((hold _).1 hk))
  · exact ⟨old, (get_ok hget).1, (get_ok hget).2.trans ((hold k).1 hk)⟩

private theorem KeyWrite.writes (hdistinct : (v.credentials.map (·.keyId)).Nodup)
    (h : call.run derive v = .ok (issued, v')) :
    Writes derive v call issued v' := by
  cases call with
  | create draw secret name scopes prefixes expiresAt =>
    obtain ⟨⟨c, credentials'⟩, hcreate, h⟩ := bind_eq_ok.1 h
    cases h
    obtain ⟨issued, hprepare, hcreate⟩ := bind_eq_ok.1 hcreate
    obtain ⟨inserted, hinsert, hcreate⟩ := bind_eq_ok.1 hcreate
    cases hcreate
    obtain ⟨hkey, hstanding⟩ := prepare_new hprepare secret
    exact writes_insert hkey hstanding hinsert fun k hk => hk
  | issueMachine draw secret machineId machineKey rotationFrom =>
    obtain ⟨⟨c, credentials'⟩, hissue, h⟩ := bind_eq_ok.1 h
    cases h
    obtain ⟨issued, hprepare, hissue⟩ := bind_eq_ok.1 hissue
    obtain ⟨inserted, hinsert, hissue⟩ := bind_eq_ok.1 hissue
    cases hissue
    obtain ⟨hkey, hstanding⟩ := prepare_new hprepare secret
    exact writes_insert hkey hstanding hinsert fun k hk => hk
  | rotate draw secret keyId =>
    obtain ⟨⟨c, credentials'⟩, hrotate, h⟩ := bind_eq_ok.1 h
    cases h
    exact writes_rotate secret hrotate
  | revoke now keyId =>
    obtain ⟨credentials', hrevoke, h⟩ := bind_eq_ok.1 h
    cases h
    unfold Credentials.revoke at hrevoke
    obtain ⟨_, -, hrevoke⟩ := bind_eq_ok.1 hrevoke
    obtain ⟨old, hget, hrevoke⟩ := bind_eq_ok.1 hrevoke
    dsimp only at hrevoke
    split at hrevoke
    · cases hrevoke
    split at hrevoke
    · cases hrevoke
    cases hrevoke
    exact writes_revoke (fun c _ => by simp) (fun _ => Iff.rfl) ⟨old, get_ok hget⟩
  | revokeMachineKey now keyId machineId replacedBy =>
    obtain ⟨credentials', hrevoke, h⟩ := bind_eq_ok.1 h
    cases h
    unfold Credentials.revokeMachineKey at hrevoke
    dsimp only at hrevoke
    split at hrevoke
    · cases hrevoke
    rename_i hcount
    obtain ⟨_, -, hrevoke⟩ := bind_eq_ok.1 hrevoke
    cases hrevoke
    rw [not_not] at hcount
    obtain ⟨c, hc, hmachine⟩ := List.countP_pos_iff.1 (hcount ▸ Nat.one_pos)
    have hone := hmachine
    simp only [isMachineKey, Bool.and_eq_true, decide_eq_true_eq] at hone
    refine writes_revoke (fun d hd => ⟨fun h => ?_, fun hd' => ?_⟩) (fun _ => Iff.rfl) ⟨c, hc, hone.1⟩
    · simp only [isMachineKey, Bool.and_eq_true, decide_eq_true_eq] at h
      exact h.1
    · rw [List.inj_on_of_nodup_map hdistinct hd hc (hd'.trans hone.1.symm)]
      exact hmachine

/-! ### Runs -/

/-- Some call of the run does this where it stands. -/
def CalledIn (derive : String → σ → δ) (calls : List (KeyWrite σ)) (P : Vault σ δ → KeyWrite σ → Prop) : Prop :=
  ∃ earlier call later, calls = earlier ++ call :: later ∧ P (vault derive earlier) call

/-- Some call of the run has returned this key. -/
def IssuedIn (derive : String → σ → δ) (calls : List (KeyWrite σ)) (i : Issued σ) : Prop :=
  CalledIn derive calls fun v call => ∃ v', call.run derive v = .ok (some i, v')

/-- Some call of the run has revoked the key, or replaced it. -/
def RevokedIn (derive : String → σ → δ) (calls : List (KeyWrite σ)) (keyId : String) : Prop :=
  CalledIn derive calls fun v call => call.revokes keyId ∧ ∃ result, call.run derive v = .ok result

variable {calls : List (KeyWrite σ)}

private theorem calledIn_append {P : Vault σ δ → KeyWrite σ → Prop} :
    CalledIn derive (calls ++ [call]) P ↔ CalledIn derive calls P ∨ P (vault derive calls) call := by
  constructor
  · rintro ⟨earlier, first, later, heq, h⟩
    rcases List.eq_nil_or_concat later with rfl | ⟨later, last, rfl⟩
    · obtain ⟨rfl, hcall⟩ := List.append_inj' heq rfl
      cases hcall
      exact .inr h
    · rw [List.concat_eq_append, ← List.cons_append, ← List.append_assoc] at heq
      obtain ⟨rfl, hcall⟩ := List.append_inj' heq rfl
      exact .inl ⟨earlier, first, later, rfl, h⟩
  · rintro (⟨earlier, first, later, rfl, h⟩ | h)
    · exact ⟨earlier, first, later ++ [call], by simp, h⟩
    · exact ⟨calls, call, [], rfl, h⟩

/-- What the row of an issued key is after the run. -/
structure Row (derive : String → σ → δ) (calls : List (KeyWrite σ)) (v : Vault σ δ) (i : Issued σ) (c : Credential) :
    Prop where
  terms : SameTerms i.credential c
  verifier : v.verifiers.get? c.keyId = some (i.salt, derive i.token i.salt)
  standing : c.revokedAt = none ↔ ¬RevokedIn derive calls c.keyId

private theorem Row.standing_none {v : Vault σ δ} {i : Issued σ} {c : Credential} (h : Row derive calls v i c)
    (hstanding : ¬RevokedIn derive calls i.credential.keyId) : c.revokedAt = none := by
  rw [h.standing, ← h.terms.keyId]
  exact hstanding

/-- The rows after a run are those of the keys that it issued. -/
structure Recorded (derive : String → σ → δ) (calls : List (KeyWrite σ)) (v : Vault σ δ) : Prop where
  distinct : (v.credentials.map (·.keyId)).Nodup
  rows : ∀ c ∈ v.credentials, ∃ i, IssuedIn derive calls i ∧ Row derive calls v i c
  issued : ∀ i, IssuedIn derive calls i → IsKey i ∧ ∃ c ∈ v.credentials, Row derive calls v i c
  revoked : ∀ k, RevokedIn derive calls k → ∃ c ∈ v.credentials, c.keyId = k

/-- One more call that returns. -/
private theorem Recorded.returned (h : Recorded derive calls (vault derive calls))
    (hrun : call.run derive (vault derive calls) = .ok (issued, v')) : Recorded derive (calls ++ [call]) v' := by
  obtain ⟨⟨f, hrows, hf⟩, hnew, hkept, hrevokes⟩ := KeyWrite.writes h.distinct hrun
  have hrevoked : ∀ k, RevokedIn derive (calls ++ [call]) k ↔ RevokedIn derive calls k ∨ call.revokes k := fun k =>
    calledIn_append.trans (or_congr_right (and_iff_left ⟨_, hrun⟩))
  have hissued : ∀ i, IssuedIn derive (calls ++ [call]) i ↔ IssuedIn derive calls i ∨ issued = some i := by
    intro i
    refine calledIn_append.trans (or_congr_right ⟨?_, ?_⟩)
    · rintro ⟨_, hsome⟩
      rw [hrun] at hsome
      cases hsome
      rfl
    · rintro rfl
      exact ⟨_, hrun⟩
  have hold : ∀ i c, c ∈ (vault derive calls).credentials → Row derive calls (vault derive calls) i c →
      Row derive (calls ++ [call]) v' i (f c) := by
    intro i c hc hrow
    obtain ⟨hterms, hstanding⟩ := hf c (List.mem_append_left _ hc)
    refine ⟨hrow.terms.trans hterms, ?_, ?_⟩
    · rw [← hterms.keyId]
      cases hcase : issued with
      | none => rw [hkept hcase, hrow.verifier]
      | some i' =>
        rw [(hnew i' hcase).verifiers, Dict.get?_set_of_ne ((hnew i' hcase).fresh c hc), hrow.verifier]
    · rw [hstanding, ← hterms.keyId, hrevoked, hrow.standing, not_or]
  have hlast : ∀ i, issued = some i → Row derive (calls ++ [call]) v' i (f i.credential) := by
    rintro i rfl
    have hi := hnew i rfl
    obtain ⟨hterms, hstanding⟩ := hf i.credential (by simp)
    refine ⟨hterms, ?_, ?_⟩
    · rw [← hterms.keyId, hi.verifiers, Dict.get?_set_self]
    · rw [hstanding, ← hterms.keyId, hrevoked, not_or]
      refine and_congr_left fun _ => ⟨fun _ hbefore => ?_, fun _ => hi.standing⟩
      obtain ⟨c, hc, hk⟩ := h.revoked _ hbefore
      exact hi.fresh c hc hk
  have hmem : ∀ c', c' ∈ v'.credentials ↔
      (∃ c ∈ (vault derive calls).credentials, f c = c') ∨ ∃ i, issued = some i ∧ f i.credential = c' := by
    intro c'
    rw [hrows, List.map_append, List.mem_append]
    refine or_congr List.mem_map ?_
    cases issued <;> simp [eq_comm]
  refine ⟨?_, fun c' hc' => ?_, fun i hi => ?_, fun k hk => ?_⟩
  · have hkeys : v'.credentials.map (·.keyId) =
        ((vault derive calls).credentials ++ (issued.map (·.credential)).toList).map (·.keyId) := by
      rw [hrows, List.map_map]
      exact List.map_congr_left fun c hc => (hf c hc).1.keyId.symm
    rw [hkeys, List.map_append, List.nodup_append]
    refine ⟨h.distinct, by cases issued <;> simp, ?_⟩
    rintro k hk k' hk' rfl
    obtain ⟨c, hc, hck⟩ := List.mem_map.1 hk
    cases hcase : issued with
    | none => simp [hcase] at hk'
    | some i =>
      rw [hcase] at hk'
      exact (hnew i hcase).fresh c hc (hck.trans (by simpa using hk'))
  · rcases (hmem c').1 hc' with ⟨c, hc, rfl⟩ | ⟨i, hi, rfl⟩
    · obtain ⟨i, hi, hrow⟩ := h.rows c hc
      exact ⟨i, (hissued i).2 (.inl hi), hold i c hc hrow⟩
    · exact ⟨i, (hissued i).2 (.inr hi), hlast i hi⟩
  · rcases (hissued i).1 hi with hi | hi
    · obtain ⟨hkey, c, hc, hrow⟩ := h.issued i hi
      exact ⟨hkey, f c, (hmem _).2 (.inl ⟨c, hc, rfl⟩), hold i c hc hrow⟩
    · exact ⟨(hnew i hi).key, f i.credential, (hmem _).2 (.inr ⟨i, hi, rfl⟩), hlast i hi⟩
  · have hbefore : ∃ c ∈ (vault derive calls).credentials, c.keyId = k := by
      rcases (hrevoked k).1 hk with hk | hk
      · exact h.revoked k hk
      · exact hrevokes k hk
    obtain ⟨c, hc, rfl⟩ := hbefore
    exact ⟨f c, (hmem _).2 (.inl ⟨c, hc, rfl⟩), (hf c (List.mem_append_left _ hc)).1.keyId.symm⟩

/-- One more call that raises. -/
private theorem Recorded.raised (h : Recorded derive calls (vault derive calls)) {e : LifecycleError}
    (hrun : call.run derive (vault derive calls) = .error e) :
    Recorded derive (calls ++ [call]) (vault derive calls) := by
  have hsame : ∀ {P : Vault σ δ → KeyWrite σ → Prop}, ¬P (vault derive calls) call →
      (CalledIn derive (calls ++ [call]) P ↔ CalledIn derive calls P) := fun hP => by
    rw [calledIn_append]
    exact or_iff_left hP
  have hissued : ∀ i, IssuedIn derive (calls ++ [call]) i ↔ IssuedIn derive calls i := fun i =>
    hsame fun ⟨_, hok⟩ => by rw [hrun] at hok; cases hok
  have hrevoked : ∀ k, RevokedIn derive (calls ++ [call]) k ↔ RevokedIn derive calls k := fun k =>
    hsame fun ⟨_, _, hok⟩ => by rw [hrun] at hok; cases hok
  have hrow : ∀ {i c}, Row derive calls (vault derive calls) i c →
    Row derive (calls ++ [call]) (vault derive calls) i c :=
    fun hrow => ⟨hrow.terms, hrow.verifier, by rw [hrevoked, hrow.standing]⟩
  refine ⟨h.distinct, fun c hc => ?_, fun i hi => ?_, fun k hk => h.revoked k ((hrevoked k).1 hk)⟩
  · obtain ⟨i, hi, hc⟩ := h.rows c hc
    exact ⟨i, (hissued i).2 hi, hrow hc⟩
  · obtain ⟨hkey, c, hc, hi⟩ := h.issued i ((hissued i).1 hi)
    exact ⟨hkey, c, hc, hrow hi⟩

private theorem recorded_run (derive : String → σ → δ) (calls : List (KeyWrite σ)) :
    Recorded derive calls (vault derive calls) := by
  induction calls using List.reverseRecOn with
  | nil =>
    have hnone : ∀ {P : Vault σ δ → KeyWrite σ → Prop}, ¬CalledIn derive [] P := by
      rintro P ⟨earlier, call, later, h, -⟩
      simp at h
    exact ⟨List.nodup_nil, fun c hc => (by cases hc), fun i hi => absurd hi hnone, fun k hk => absurd hk hnone⟩
  | append_singleton calls call ih =>
    have hafter : vault derive (calls ++ [call]) = call.after derive (vault derive calls) := by
      unfold vault
      rw [List.foldl_append]
      rfl
    rw [hafter]
    unfold KeyWrite.after
    cases hrun : call.run derive (vault derive calls) with
    | ok result => exact ih.returned hrun
    | error e => exact ih.raised hrun

/-- The token has the id of the issued key, and the digest of its token. -/
def Opens (derive : String → σ → δ) (token : String) (i : Issued σ) : Prop :=
  parseToken token = some i.credential.keyId ∧ derive token i.salt = derive i.token i.salt

/-- The key has not expired at this time. -/
def Unexpired (i : Issued σ) (now : Int) : Prop := ∀ expiry, i.credential.expiresAt = some expiry → now < expiry

private theorem IsKey.opens (h : IsKey i) (derive : String → σ → δ) : Opens derive i.token i := by
  obtain ⟨secret, htoken⟩ := h.token
  refine ⟨?_, rfl⟩
  rw [htoken]
  exact parseToken_tokenOf h.valid secret

private theorem SameTerms.grantOf_eq {c c' : Credential} (h : SameTerms c c') : grantOf c' = grantOf c := by
  unfold grantOf
  rw [h.keyId, h.scopes, h.prefixes, h.machineId]

private theorem find?_keyId {credentials : List Credential} (hdistinct : (credentials.map (·.keyId)).Nodup)
    {c : Credential} (hc : c ∈ credentials) : credentials.find? (fun d => d.keyId = c.keyId) = some c := by
  cases hfind : credentials.find? (fun d => decide (d.keyId = c.keyId)) with
  | none => simpa using List.find?_eq_none.1 hfind c hc
  | some d =>
    rw [List.inj_on_of_nodup_map hdistinct (List.mem_of_find?_eq_some hfind) hc (by simpa using List.find?_some hfind)]

/-- What a token is answered with after any run of calls. -/
private theorem verify_iff [DecidableEq δ] (derive : String → σ → δ) (calls : List (KeyWrite σ)) (token : String)
    (now : Int) :
    ∃ answer, verify derive (vault derive calls) token now = .ok answer ∧ ∀ grant, answer = some grant ↔
      ∃ i, IssuedIn derive calls i ∧ Opens derive token i ∧ ¬RevokedIn derive calls i.credential.keyId ∧
        Unexpired i now ∧ grant = grantOf i.credential := by
  have h := recorded_run derive calls
  unfold verify
  cases hparse : parseToken token with
  | none =>
    refine ⟨none, rfl, fun grant => ⟨fun hnone => (by cases hnone), ?_⟩⟩
    rintro ⟨i, -, ⟨hopens, -⟩, -⟩
    rw [hparse] at hopens
    cases hopens
  | some keyId =>
    dsimp only
    -- the keys that the token can open have the row of its id
    have hrow : ∀ i, IssuedIn derive calls i → Opens derive token i → ∃ c,
        (vault derive calls).credentials.find? (fun c => decide (c.keyId = keyId)) = some c ∧
          Row derive calls (vault derive calls) i c := by
      intro i hi hopens
      obtain ⟨-, c, hc, hrow⟩ := h.issued i hi
      have hkey : c.keyId = keyId := by
        have hid := hopens.1
        rw [hparse] at hid
        exact hrow.terms.keyId.symm.trans (Option.some.inj hid).symm
      exact ⟨c, hkey ▸ find?_keyId h.distinct hc, hrow⟩
    cases hfind : (vault derive calls).credentials.find? (fun c => decide (c.keyId = keyId)) with
    | none =>
      refine ⟨none, rfl, fun grant => ⟨fun hnone => (by cases hnone), ?_⟩⟩
      rintro ⟨i, hi, hopens, -⟩
      obtain ⟨c, hc, -⟩ := hrow i hi hopens
      rw [hfind] at hc
      cases hc
    | some c =>
      obtain ⟨i, hi, hc⟩ := h.rows c (List.mem_of_find?_eq_some hfind)
      have hid : c.keyId = keyId := by simpa using List.find?_some hfind
      obtain ⟨hkey, -⟩ := h.issued i hi
      have hverifier := hc.verifier
      rw [hid] at hverifier
      rw [hverifier]
      dsimp only
      -- every key that the token can open has this row
      have hsame : ∀ j, IssuedIn derive calls j → Opens derive token j → Row derive calls (vault derive calls) j c ∧
          derive token i.salt = derive i.token i.salt := by
        intro j hj hopens
        obtain ⟨d, hd, hrow⟩ := hrow j hj hopens
        rw [hfind] at hd
        cases hd
        have hboth := hrow.verifier
        rw [hid, hverifier, Option.some.injEq, Prod.mk.injEq] at hboth
        refine ⟨hrow, ?_⟩
        rw [hboth.2, hboth.1]
        exact hopens.2
      have hnone : (∀ j, IssuedIn derive calls j → Opens derive token j →
            ¬RevokedIn derive calls j.credential.keyId → Unexpired j now → False) →
          ∀ grant, (none : Option CredentialGrant) = some grant ↔ ∃ j, IssuedIn derive calls j ∧ Opens derive token j ∧
            ¬RevokedIn derive calls j.credential.keyId ∧ Unexpired j now ∧ grant = grantOf j.credential := by
        intro hfalse grant
        constructor
        · intro hgrant
          cases hgrant
        · rintro ⟨j, hj, hopens, hstanding, hexpiry, -⟩
          exact (hfalse j hj hopens hstanding hexpiry).elim
      by_cases hdigest : derive token i.salt ≠ derive i.token i.salt
      · rw [if_pos hdigest]
        exact ⟨none, rfl, hnone fun j hj hopens _ _ => hdigest (hsame j hj hopens).2⟩
      rw [if_neg hdigest]
      by_cases hended : (c.revokedAt.isSome || c.expiresAt.any fun expiry => decide (expiry ≤ now)) = true
      · rw [if_pos hended]
        refine ⟨none, rfl, hnone fun j hj hopens hstanding hexpiry => ?_⟩
        obtain ⟨hrow, -⟩ := hsame j hj hopens
        rw [hrow.standing_none hstanding, ← hrow.terms.expiresAt] at hended
        cases hexpires : j.credential.expiresAt with
        | none => simp [hexpires] at hended
        | some expiry =>
          have hlater := hexpiry expiry hexpires
          rw [hexpires] at hended
          simp only [Option.isSome_none, Option.any_some, Bool.false_or, decide_eq_true_eq] at hended
          omega
      rw [if_neg hended]
      rw [Bool.not_eq_true, Bool.or_eq_false_iff] at hended
      obtain ⟨hstanding, hexpiry⟩ := hended
      have hgrant : Auth.credentialGrant c.keyId c.keyId c.scopes c.prefixes c.machineId =
        .ok (grantOf i.credential) := by
        rw [← hc.terms.keyId, ← hc.terms.scopes, ← hc.terms.prefixes, ← hc.terms.machineId]
        exact hkey.grants
      rw [hgrant]
      refine ⟨some (grantOf i.credential), rfl, fun grant => ⟨?_, ?_⟩⟩
      · intro heq
        cases heq
        refine ⟨i, hi, ⟨?_, not_not.1 hdigest⟩, ?_, fun expiry hexpires => ?_, rfl⟩
        · rw [hparse, hc.terms.keyId, hid]
        · rw [hc.terms.keyId, ← hc.standing]
          simpa using hstanding
        · rw [hc.terms.expiresAt] at hexpires
          rw [hexpires] at hexpiry
          simpa using hexpiry
      · rintro ⟨j, hj, hopens, -, -, rfl⟩
        rw [← hc.terms.grantOf_eq, (hsame j hj hopens).1.terms.grantOf_eq]

end

end Credentials

namespace Server

open Credentials

section

variable {σ δ : Type} [DecidableEq δ]

/-- The principal of the grant of a key. -/
private theorem principal_grantOf {i : Issued σ} (h : IsKey i) :
    ∃ hvalid, (grantOf i.credential).principal = .ok (i.credential.principal hvalid) := by
  obtain ⟨-, hvalid⟩ := Auth.validatePrincipal_of_grant h.grants
  refine ⟨hvalid, ?_⟩
  unfold CredentialGrant.principal grantOf Credential.principal
  split
  · rename_i e herror
    rw [hvalid] at herror
    cases herror
  · rename_i normalized hnormalized
    rw [hvalid] at hnormalized
    cases hnormalized
    rfl

/-- The requests that come from a principal in bearer mode. -/
private theorem requestPrincipal_iff (derive : String → σ → δ) (calls : List (KeyWrite σ))
    (authorization : Option String) (now : Int) :
    ∃ answer, requestPrincipal derive (vault derive calls) .bearer authorization now = .ok answer ∧
      ∀ p, answer = some p ↔ ∃ token i, bearerToken authorization = some token ∧ IssuedIn derive calls i ∧
        Opens derive token i ∧ ¬RevokedIn derive calls i.credential.keyId ∧ Unexpired i now ∧
        (grantOf i.credential).principal = .ok p := by
  unfold requestPrincipal
  dsimp only
  cases htoken : bearerToken authorization with
  | none =>
    refine ⟨none, rfl, fun p => ⟨fun h => (by cases h), ?_⟩⟩
    rintro ⟨token, i, hsome, -⟩
    cases hsome
  | some token =>
    obtain ⟨answer, hverify, hanswer⟩ := verify_iff derive calls token now
    dsimp only
    rw [hverify]
    cases answer with
    | none =>
      refine ⟨none, rfl, fun p => ⟨fun h => (by cases h), ?_⟩⟩
      rintro ⟨_, i, ⟨⟩, hi, hopens, hstanding, hexpiry, -⟩
      cases (hanswer (grantOf i.credential)).2 ⟨i, hi, hopens, hstanding, hexpiry, rfl⟩
    | some grant =>
      obtain ⟨i, hi, hopens, hstanding, hexpiry, rfl⟩ := (hanswer grant).1 rfl
      obtain ⟨hvalid, hprincipal⟩ := principal_grantOf ((recorded_run derive calls).issued i hi).1
      dsimp only
      rw [hprincipal]
      refine ⟨some (i.credential.principal hvalid), rfl, fun p => ⟨fun h => ?_, ?_⟩⟩
      · cases h
        exact ⟨token, i, rfl, hi, hopens, hstanding, hexpiry, hprincipal⟩
      · rintro ⟨_, j, ⟨⟩, hj, hjopens, hjstanding, hjexpiry, hjprincipal⟩
        have hsame := (hanswer (grantOf j.credential)).2 ⟨j, hj, hjopens, hjstanding, hjexpiry, rfl⟩
        rw [← Option.some.inj hsame, hprincipal] at hjprincipal
        rw [Except.ok.inj hjprincipal]

/-- A request passes in bearer mode exactly when its token opens a key that the calls so far have issued, that none of
them has revoked or replaced, and that has not expired.  The key of a machine must be the one that its row names, or,
when the row names none, the request must be the one that revokes it (`admits`).  The token of an issued key opens
it, and whoever passes is an authenticated principal. -/
theorem authenticate_iff (derive : String → σ → δ) (calls : List (KeyWrite σ)) (machines : List MachineRow)
    (user : String) (authorization : Option String) (method path : String) (now : Int) :
    (∃ answer, authenticateRequest derive (vault derive calls) machines user .bearer authorization method path now =
        .ok answer ∧ ∀ p, answer = .passed p ↔
          (∃ token i, bearerToken authorization = some token ∧ IssuedIn derive calls i ∧ Opens derive token i ∧
            ¬RevokedIn derive calls i.credential.keyId ∧ Unexpired i now ∧ (grantOf i.credential).principal = .ok p) ∧
          admits machines user p method path = true) ∧
      ∀ i, IssuedIn derive calls i → Opens derive i.token i ∧
        (∃ p, (grantOf i.credential).principal = .ok p ∧ Authenticated p) ∧
        ∀ scheme : String, scheme.toList.map Char.toLower = "bearer".toList →
          bearerToken (some (scheme ++ " " ++ i.token)) = some i.token := by
  constructor
  · obtain ⟨answer, hanswer, hiff⟩ := requestPrincipal_iff derive calls authorization now
    unfold authenticateRequest
    rw [hanswer]
    cases answer with
    | none =>
      refine ⟨_, rfl, fun p => ⟨fun h => (by cases h), fun h => ?_⟩⟩
      cases (hiff p).2 h.1
    | some p =>
      by_cases hadmits : admits machines user p method path = true
      · refine ⟨.passed p, ?_, fun p' => ⟨fun h => ?_, fun h => ?_⟩⟩
        · show (if admits machines user p method path = true then _ else _) = _
          rw [if_pos hadmits]
          rfl
        · cases h
          exact ⟨(hiff p).1 rfl, hadmits⟩
        · cases (hiff p').2 h.1
          rfl
      · refine ⟨.refused 403 "machine_credential_not_current", ?_, fun p' => ⟨fun h => (by cases h), fun h => ?_⟩⟩
        · show (if admits machines user p method path = true then _ else _) = _
          rw [if_neg hadmits]
          rfl
        · cases (hiff p').2 h.1
          exact absurd h.2 hadmits
  · intro i hi
    obtain ⟨hkey, -⟩ := (recorded_run derive calls).issued i hi
    obtain ⟨hvalid, hprincipal⟩ := principal_grantOf hkey
    refine ⟨hkey.opens derive, ⟨_, hprincipal, .apiKey _ hkey.valid hvalid⟩, fun scheme hscheme => ?_⟩
    obtain ⟨secret, htoken⟩ := hkey.token
    rw [htoken]
    exact bearerToken_header hscheme (tokenOf_ne_empty _ secret) fun c hc => isSpace_of_mem_tokenOf hkey.valid secret hc

end

/-! ### One key -/

/-- A secret of one letter, with its salt. -/
def plainSecret : Secret Nat where
  text := "aaaaaaaaaaaaaaaaaaaaaaaaaaaaaaaaaaaaaaaaaaa"
  salt := 7
  valid := by decide +kernel

/-- The digest of a token is the token with its salt. -/
def plainDigest (token : String) (salt : Nat) : String × Nat := (token, salt)

def agentCall : KeyWrite Nat := .create agentDraw plainSecret "agent" {.submit} ["notes", "work"] none

/-- The new key opens the server, whatever the scheme looks like. -/
theorem authenticate_agent : ∃ p, authenticateRequest plainDigest (vault plainDigest [agentCall]) [] "local" .bearer
    (some ("BEARER" ++ " " ++ tokenOf "agent-0000000000" plainSecret)) "GET" "/health" 5 = .ok (.passed p) := by
  let i : Issued Nat := ⟨agent ["notes", "work"], tokenOf "agent-0000000000" plainSecret, 7⟩
  have hrun : ∃ v', agentCall.run plainDigest ⟨[], []⟩ = .ok (some i, v') := by
    show ∃ v', Vault.issue plainDigest ⟨[], []⟩ plainSecret
      (Credentials.create [] agentDraw "agent" {.submit} ["notes", "work"] none) = .ok (some i, v')
    rw [agent_created]
    exact ⟨_, rfl⟩
  have hissued : IssuedIn plainDigest [agentCall] i := ⟨[], agentCall, [], rfl, hrun⟩
  have hstanding : ¬RevokedIn plainDigest [agentCall] i.credential.keyId := by
    rintro ⟨earlier, call, later, heq, hrevokes, -⟩
    have hcall : call ∈ [agentCall] := heq ▸ List.mem_append_right _ (List.mem_cons_self ..)
    rw [List.mem_singleton.1 hcall] at hrevokes
    exact hrevokes
  obtain ⟨⟨answer, hanswer, hiff⟩, htokens⟩ := authenticate_iff plainDigest [agentCall] [] "local"
    (some ("BEARER" ++ " " ++ tokenOf "agent-0000000000" plainSecret)) "GET" "/health" 5
  obtain ⟨hopens, ⟨p, hp, -⟩, hheader⟩ := htokens i hissued
  have hmachine : p.machineId = none := by
    unfold CredentialGrant.principal at hp
    split at hp
    · cases hp
    · cases hp
      rfl
  have hadmits : admits [] "local" p "GET" "/health" = true := by
    unfold admits
    rw [hmachine]
    rfl
  have hexpiry : Unexpired i 5 := by
    rintro expiry ⟨⟩
  have hpassed := (hiff p).2 ⟨⟨_, i, hheader "BEARER" (by simp), hissued, hopens, hstanding, hexpiry, hp⟩, hadmits⟩
  exact ⟨p, hpassed ▸ hanswer⟩

end Server

end Ctxd

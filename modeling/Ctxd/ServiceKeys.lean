import Ctxd.Credentials
import Ctxd.Lib.Sessions
import Mathlib.Logic.Relation

/-!
# Service keys on several connections

`CredentialStore.create`, `rotate` and `revoke`, statement by statement, each call with a connection of its own.  A
rotation reads the old row outside its transaction, and learns from the row count of its update whether the key has been
revoked since.

A call that writes commits one of three changes, all at once (`KeyChange`); so every change keeps the chains of
rotations to one key that is not revoked, and the keys of the table are those that the calls have returned
(`service_keys_hold`).
-/

namespace Ctxd

open Sessions Credentials

/-- What a call returns or raises. -/
inductive KeyOutcome
  | issued (credential : Credential)
  | revoked (credential : Credential)
  | raised (e : LifecycleError)

inductive KeyCall
  | create (draw : Draw) (name : String) (scopes : Finset Scope) (prefixes : List String) (expiresAt : Option Int)
  | rotate (draw : Draw) (now : Int) (keyId : String)
  | revoke (now : Int) (keyId : String)

/-- How far a call has come: the statement it makes next. -/
inductive KeyStage
  | called
  | inserting (issued : Credential)
  | inserted (issued : Credential)
  /-- The update of the old row has changed so many rows. -/
  | replaced (issued : Credential) (rowcount : Nat)
  | revoking
  | revoked (rowcount : Nat)
  | returning (outcome : KeyOutcome)
  | raising (e : LifecycleError)

abbrev KeyStatement := Statement (List Credential) KeyStage KeyOutcome

namespace KeyCall

/-- The checks of a rotation, and the key that it issues. -/
def rotation (draw : Draw) (keyId : String) (t : List Credential) : Except LifecycleError Credential := do
  let old ← get t keyId
  if old.machineId ≠ none then throw (.coordinated "machine credentials require coordinated rotation")
  if old.revokedAt ≠ none then throw (.value "cannot rotate a revoked credential")
  prepare draw old.name old.scopes old.prefixes old.expiresAt none none

def revocation (keyId : String) (t : List Credential) : Except LifecycleError Unit := do
  validateKeyId keyId
  let old ← get t keyId
  if old.machineId ≠ none then throw (.coordinated "machine credentials require coordinated revocation")

/-- `_insert`. -/
def insertion (issued : Credential) (t : List Credential) : List Credential × KeyStage :=
  match insert t issued with
  | .ok t' => (t', .inserted issued)
  | .error e => (t, .raising e)

/-- `WHERE key_id = ? AND revoked_at IS NULL`. -/
def isReplaced (keyId : String) (c : Credential) : Bool := c.keyId = keyId && c.revokedAt.isNone

/-- `UPDATE credentials SET revoked_at = ?, replaced_by = ?`. -/
def replaceWhere (now : Int) (keyId successor : String) (t : List Credential) : List Credential :=
  t.map fun c => if isReplaced keyId c then { c with revokedAt := some now, replacedBy := some successor } else c

/-- The old row has been read. -/
def rotating (draw : Draw) (keyId : String) (t : List Credential) : KeyStage :=
  match rotation draw keyId t with
  | .ok issued => .inserting issued
  | .error e => .raising e

def revoking (keyId : String) (t : List Credential) : KeyStage :=
  match revocation keyId t with
  | .ok () => .revoking
  | .error e => .raising e

/-- The row is read again, in the code after the commit: nothing changes it any more. -/
def rereading (keyId : String) (t : List Credential) : KeyStage :=
  match get t keyId with
  | .ok c => .returning (.revoked c)
  | .error e => .returning (.raised e)

def act (call : KeyCall) : KeyStage → KeyStatement
  | .called =>
    match call with
    | .create draw name scopes prefixes expiresAt =>
      match prepare draw name scopes prefixes expiresAt none none with
      | .ok issued => .write (insertion issued)
      | .error e => .rollback (.raised e)
    | .rotate draw _ keyId => .read (rotating draw keyId)
    | .revoke _ keyId => .read (revoking keyId)
  | .inserting issued => .write (insertion issued)
  | .inserted issued =>
    match call with
    | .rotate _ now keyId => .write fun t =>
      (replaceWhere now keyId issued.keyId t, .replaced issued (t.countP (isReplaced keyId)))
    | _ => .commit (.issued issued)
  | .replaced issued rowcount =>
    if rowcount = 1 then .commit (.issued issued)
    else .rollback (.raised (.value "credential was revoked during rotation"))
  | .revoking =>
    match call with
    | .revoke now keyId => .write fun t =>
      (revokeWhere t now none fun c => c.keyId = keyId, .revoked (t.countP fun c => c.keyId = keyId))
    | _ => .rollback (.raised .assertion)
  | .revoked rowcount =>
    match call with
    | .revoke _ keyId =>
      if rowcount = 1 then .read (rereading keyId)
      else .rollback (.raised (.value s!"unknown credential: {keyId}"))
    | _ => .rollback (.raised .assertion)
  | .returning outcome => .commit outcome
  | .raising e => .rollback (.raised e)

/-- The statements of the calls; one that rolls back raises. -/
inductive Sends : KeyCall → KeyStage → KeyStatement → Prop
  | raises {call : KeyCall} {stage : KeyStage} {e : LifecycleError} : Sends call stage (.rollback (.raised e))
  | creates {draw : Draw} {name : String} {scopes : Finset Scope} {prefixes : List String} {expiresAt : Option Int}
      {issued : Credential} (prepared : prepare draw name scopes prefixes expiresAt none none = .ok issued) :
      Sends (.create draw name scopes prefixes expiresAt) .called (.write (insertion issued))
  | rotates {draw : Draw} {now : Int} {keyId : String} :
      Sends (.rotate draw now keyId) .called (.read (rotating draw keyId))
  | revokes {now : Int} {keyId : String} : Sends (.revoke now keyId) .called (.read (revoking keyId))
  | inserts {call : KeyCall} {issued : Credential} : Sends call (.inserting issued) (.write (insertion issued))
  | replaces {draw : Draw} {now : Int} {keyId : String} {issued : Credential} :
      Sends (.rotate draw now keyId) (.inserted issued)
        (.write fun t => (replaceWhere now keyId issued.keyId t, .replaced issued (t.countP (isReplaced keyId))))
  | created {call : KeyCall} {issued : Credential} (notRotation : ∀ draw now keyId, call ≠ .rotate draw now keyId) :
      Sends call (.inserted issued) (.commit (.issued issued))
  | rotated {call : KeyCall} {issued : Credential} : Sends call (.replaced issued 1) (.commit (.issued issued))
  | updates {now : Int} {keyId : String} :
      Sends (.revoke now keyId) .revoking
        (.write fun t => (revokeWhere t now none fun c => c.keyId =
          keyId, .revoked (t.countP fun c => c.keyId = keyId)))
  | rereads {now : Int} {keyId : String} : Sends (.revoke now keyId) (.revoked 1) (.read (rereading keyId))
  | returns {call : KeyCall} {outcome : KeyOutcome} : Sends call (.returning outcome) (.commit outcome)

private theorem sends_act (call : KeyCall) (stage : KeyStage) : Sends call stage (call.act stage) := by
  cases stage with
  | called =>
    cases call with
    | create draw name scopes prefixes expiresAt =>
      unfold act
      dsimp only
      split
      · rename_i issued hprepare
        exact .creates hprepare
      · exact .raises
    | rotate draw now keyId => exact .rotates
    | revoke now keyId => exact .revokes
  | inserting issued => exact .inserts
  | inserted issued =>
    cases call with
    | create draw name scopes prefixes expiresAt => exact .created fun draw now keyId h => by cases h
    | rotate draw now keyId => exact .replaces
    | revoke now keyId => exact .created fun draw now keyId h => by cases h
  | replaced issued rowcount =>
    unfold act
    dsimp only
    by_cases hone : rowcount = 1
    · subst hone
      exact .rotated
    · rw [if_neg hone]
      exact .raises
  | revoking =>
    cases call with
    | create draw name scopes prefixes expiresAt => exact .raises
    | rotate draw now keyId => exact .raises
    | revoke now keyId => exact .updates
  | revoked rowcount =>
    cases call with
    | create draw name scopes prefixes expiresAt => exact .raises
    | rotate draw now keyId => exact .raises
    | revoke now keyId =>
      unfold act
      dsimp only
      by_cases hone : rowcount = 1
      · subst hone
        exact .rereads
      · rw [if_neg hone]
        exact .raises
  | returning outcome => exact .returns
  | raising e => exact .raises

end KeyCall

/-! ### What a call changes -/

/-- The row of a key that has just been issued. -/
structure IsNew (c : Credential) : Prop where
  unrevoked : c.revokedAt = none
  unreplaced : c.replacedBy = none

/-- No row has the key. -/
def IsFree (k : String) (t : List Credential) : Prop := ∀ c ∈ t, c.keyId ≠ k

/-- The change that a call makes when it ends with an outcome. -/
inductive KeyChange (t : List Credential) : KeyCall → KeyOutcome → List Credential → Prop
  | created {draw : Draw} {name : String} {scopes : Finset Scope} {prefixes : List String} {expiresAt : Option Int}
      {c : Credential} (new : IsNew c) (free : IsFree c.keyId t) :
      KeyChange t (.create draw name scopes prefixes expiresAt) (.issued c) (t ++ [c])
  | rotated {draw : Draw} {now : Int} {keyId : String} {c : Credential} (new : IsNew c) (free : IsFree c.keyId t)
      (rowcount : (t ++ [c]).countP (KeyCall.isReplaced keyId) = 1) :
      KeyChange t (.rotate draw now keyId) (.issued c) (KeyCall.replaceWhere now keyId c.keyId (t ++ [c]))
  | revoked {now : Int} {keyId : String} {outcome : KeyOutcome} (returned : ∀ c, outcome ≠ .issued c) :
      KeyChange t (.revoke now keyId) outcome (revokeWhere t now none fun c => c.keyId = keyId)

namespace KeyCall

/-- Before its first write. -/
def out (call : KeyCall) : KeyStage → Prop
  | .called | .revoking | .raising _ => True
  | .inserting c => IsNew c ∧ ∃ draw now keyId, call = .rotate draw now keyId
  | _ => False

/-- What the call has done to the table `t`, in which it sees `d`. -/
def did (call : KeyCall) (stage : KeyStage) (t d : List Credential) : Prop :=
  match stage with
  | .called | .revoking => d = t
  | .inserting c => d = t ∧ IsNew c ∧ ∃ draw now keyId, call = .rotate draw now keyId
  | .inserted c => d = t ++ [c] ∧ IsNew c ∧ IsFree c.keyId t ∧ ∀ now keyId, call ≠ .revoke now keyId
  | .replaced c rowcount => IsNew c ∧ IsFree c.keyId t ∧ ∃ draw now keyId, call = .rotate draw now keyId ∧
      rowcount = (t ++ [c]).countP (isReplaced keyId) ∧ d = replaceWhere now keyId c.keyId (t ++ [c])
  | .revoked _ => ∃ now keyId, call = .revoke now keyId ∧ d = revokeWhere t now none fun c => c.keyId = keyId
  | .returning outcome => (∀ c, outcome ≠ .issued c) ∧
      ∃ now keyId, call = .revoke now keyId ∧ d = revokeWhere t now none fun c => c.keyId = keyId
  | .raising _ => True

private theorem isNew_of_prepare {draw : Draw} {name : String} {scopes : Finset Scope} {prefixes : List String}
    {expiresAt : Option Int} {machineId rotationFrom : Option String} {c : Credential}
    (h : prepare draw name scopes prefixes expiresAt machineId rotationFrom = .ok c) : IsNew c := by
  unfold prepare at h
  simp only [Program.bind_eq_ok] at h
  obtain ⟨_, -, _, -, _, -, _, -, grant, -, _, -, h⟩ := h
  cases h
  exact ⟨rfl, rfl⟩

private theorem isNew_of_rotation {draw : Draw} {keyId : String} {t : List Credential} {c : Credential}
    (h : rotation draw keyId t = .ok c) : IsNew c := by
  unfold rotation at h
  obtain ⟨old, -, h⟩ := Program.bind_eq_ok.1 h
  dsimp only at h
  split at h
  · cases h
  split at h
  · cases h
  exact isNew_of_prepare h

/-- An insertion adds the row, or raises. -/
private theorem did_insertion {call : KeyCall} {c : Credential} {t : List Credential} (hnew : IsNew c)
    (hcall : ∀ now keyId, call ≠ .revoke now keyId) : call.did (insertion c t).2 t (insertion c t).1 := by
  unfold insertion Credentials.insert
  by_cases htaken : (t.any fun d => d.keyId = c.keyId) = true
  · rw [if_pos htaken]
    trivial
  · rw [if_neg htaken]
    refine ⟨rfl, hnew, fun d hd heq => htaken ?_, hcall⟩
    exact List.any_eq_true.2 ⟨d, hd, decide_eq_true heq⟩

private theorem tracks (call : KeyCall) : Tracks call.act call.out call.did := by
  refine ⟨fun {stage t} hout => ?_, fun {stage next t} hout hact => ?_, fun {stage next t d} hdid hact => ?_,
    fun {stage run t d} hdid hact => ?_⟩
  · cases stage with
    | called => rfl
    | revoking => rfl
    | raising e => trivial
    | inserting c => exact ⟨rfl, hout⟩
    | inserted c => cases hout
    | replaced c rowcount => cases hout
    | revoked rowcount => cases hout
    | returning outcome => cases hout
  all_goals
    have hsends := sends_act call stage
    rw [hact] at hsends
  · cases hsends with
    | @rotates draw now keyId =>
      unfold rotating
      cases hrotation : rotation draw keyId t with
      | ok c => exact ⟨isNew_of_rotation hrotation, draw, now, keyId, rfl⟩
      | error e => trivial
    | @revokes now keyId =>
      unfold revoking
      cases revocation keyId t with
      | ok u => trivial
      | error e => trivial
    | rereads => cases hout
  · cases hsends with
    | @rotates draw now keyId =>
      unfold rotating
      cases hrotation : rotation draw keyId d with
      | ok c => exact ⟨hdid, isNew_of_rotation hrotation, draw, now, keyId, rfl⟩
      | error e => trivial
    | @revokes now keyId =>
      unfold revoking
      cases revocation keyId d with
      | ok u => exact hdid
      | error e => trivial
    | @rereads now keyId =>
      unfold rereading
      cases get d keyId with
      | ok c => exact ⟨fun c h => (by cases h), hdid⟩
      | error e => exact ⟨fun c h => (by cases h), hdid⟩
  · cases hsends with
    | creates hprepare =>
      obtain rfl : d = t := hdid
      exact did_insertion (isNew_of_prepare hprepare) fun now keyId h => by cases h
    | inserts =>
      obtain ⟨rfl, hnew, draw, now, keyId, rfl⟩ := hdid
      exact did_insertion hnew fun now keyId h => by cases h
    | @replaces draw now keyId =>
      obtain ⟨rfl, hnew, hfree, -⟩ := hdid
      exact ⟨hnew, hfree, draw, now, keyId, rfl, rfl, rfl⟩
    | @updates now keyId =>
      obtain rfl : d = t := hdid
      exact ⟨now, keyId, rfl, rfl⟩

/-- A call commits one of the changes. -/
private theorem change_of_commit {call : KeyCall} {stage : KeyStage} {outcome : KeyOutcome} {t t' : List Credential}
    (hact : call.act stage = .commit outcome) (hdid : call.did stage t t') : KeyChange t call outcome t' := by
  have hsends := sends_act call stage
  rw [hact] at hsends
  cases hsends with
  | created hcall =>
    obtain ⟨rfl, hnew, hfree, hnot⟩ := hdid
    cases call with
    | create draw name scopes prefixes expiresAt => exact .created hnew hfree
    | rotate draw now keyId => exact absurd rfl (hcall draw now keyId)
    | revoke now keyId => exact absurd rfl (hnot now keyId)
  | rotated =>
    obtain ⟨hnew, hfree, draw, now, keyId, rfl, hrowcount, rfl⟩ := hdid
    exact .rotated hnew hfree hrowcount.symm
  | returns =>
    obtain ⟨hreturned, now, keyId, rfl, rfl⟩ := hdid
    exact .revoked hreturned

/-- A call that rolls back raises. -/
private theorem raised_of_rollback {call : KeyCall} {stage : KeyStage} {outcome : KeyOutcome}
    (hact : call.act stage = .rollback outcome) : ∃ e, outcome = .raised e := by
  have hsends := sends_act call stage
  rw [hact] at hsends
  cases hsends with
  | raises => exact ⟨_, rfl⟩

end KeyCall

/-! ### Chains of rotations -/

/-- No two rows have one key, and a key that is replaced is revoked. -/
structure KeptKeys (t : List Credential) : Prop where
  distinct : (t.map (·.keyId)).Nodup
  replaced : ∀ c ∈ t, c.replacedBy ≠ none → c.revokedAt ≠ none

/-- The key `k` has been replaced by `k'`. -/
def Link (t : List Credential) (k k' : String) : Prop := ∃ c ∈ t, c.keyId = k ∧ c.replacedBy = some k'

/-- A chain of rotations has at most one key that is not revoked. -/
def SingleKeys (t : List Credential) : Prop :=
  ∀ c ∈ t, ∀ d ∈ t, Relation.EqvGen (Link t) c.keyId d.keyId → c.revokedAt = none → d.revokedAt = none → c = d

/-- Every row stays, and as it is when it is revoked. -/
def KeysStay (t t' : List Credential) : Prop :=
  ∀ c ∈ t, ∃ c' ∈ t', c'.keyId = c.keyId ∧ (c.revokedAt ≠ none → c' = c)

def KeyOutcome.keys : KeyOutcome → List String
  | .issued c => [c.keyId]
  | _ => []

section

variable {t t' : List Credential} {call : KeyCall} {outcome : KeyOutcome}

private theorem KeptKeys.eq (h : KeptKeys t) {c d : Credential} (hc : c ∈ t) (hd : d ∈ t) (hk : c.keyId = d.keyId) :
    c = d :=
  List.inj_on_of_nodup_map h.distinct hc hd hk

/-- Two keys of a chain lead to a common one, and a key that is not revoked leads to no other. -/
private theorem KeptKeys.single (h : KeptKeys t) : SingleKeys t := by
  have hunique : ∀ {k k₁ k₂ : String}, Link t k k₁ → Link t k k₂ → k₁ = k₂ := by
    rintro k k₁ k₂ ⟨c, hc, hk, hk₁⟩ ⟨d, hd, hk', hk₂⟩
    obtain rfl := h.eq hc hd (hk.trans hk'.symm)
    exact Option.some.inj (hk₁.symm.trans hk₂)
  have hend : ∀ {c : Credential} {k : String}, c ∈ t → c.revokedAt = none →
      Relation.ReflTransGen (Link t) c.keyId k → c.keyId = k := by
    intro c k hc hunrevoked hpath
    rcases Relation.ReflTransGen.cases_head hpath with heq | ⟨k', ⟨d, hd, hk, hk'⟩, -⟩
    · exact heq
    · obtain rfl := h.eq hd hc hk
      exact absurd hunrevoked (h.replaced d hd (by rw [hk']; simp))
  intro c hc d hd hchain hc' hd'
  have hconfluent : ∀ k k₁ k₂, Link t k k₁ → Link t k k₂ →
      ∃ k', Relation.ReflGen (Link t) k₁ k' ∧ Relation.ReflTransGen (Link t) k₂ k' := by
    intro k k₁ k₂ hk₁ hk₂
    obtain rfl := hunique hk₁ hk₂
    exact ⟨k₁, .refl, .refl⟩
  have hequivalence := Relation.equivalence_join_reflTransGen hconfluent
  have hjoin : Relation.Join (Relation.ReflTransGen (Link t)) c.keyId d.keyId := by
    rw [← hequivalence.eqvGen_iff]
    refine Relation.EqvGen.mono (fun k k' hlink => ?_) _ _ hchain
    exact ⟨k', .single hlink, .refl⟩
  obtain ⟨k, hck, hdk⟩ := hjoin
  exact h.eq hc hd ((hend hc hc' hck).trans (hend hd hd' hdk).symm)

private theorem KeysStay.refl (t : List Credential) : KeysStay t t := fun c hc => ⟨c, hc, rfl, fun _ => rfl⟩

private theorem KeysStay.trans {t'' : List Credential} (h : KeysStay t t') (h' : KeysStay t' t'') : KeysStay t t'' := by
  intro c hc
  obtain ⟨c', hc', hk, heq⟩ := h c hc
  obtain ⟨c'', hc'', hk', heq'⟩ := h' c' hc'
  refine ⟨c'', hc'', hk'.trans hk, fun hrevoked => ?_⟩
  obtain rfl := heq hrevoked
  exact heq' hrevoked

/-- A link stays, since its key is revoked. -/
private theorem KeysStay.link (h : KeysStay t t') (hkept : KeptKeys t) {k k' : String} (hlink : Link t k k') :
    Link t' k k' := by
  obtain ⟨c, hc, hk, hk'⟩ := hlink
  obtain ⟨c', hc', -, heq⟩ := h c hc
  obtain rfl := heq (hkept.replaced c hc (by rw [hk']; simp))
  exact ⟨c', hc', hk, hk'⟩

namespace KeyCall

variable {now : Int} {keyId successor : String}

private theorem isReplaced_iff {c : Credential} : isReplaced keyId c = true ↔ c.keyId = keyId ∧ c.revokedAt = none := by
  simp [isReplaced]

private theorem mem_replaceWhere {c : Credential} : c ∈ replaceWhere now keyId successor t ↔
    ∃ d ∈ t, (if isReplaced keyId d then { d with revokedAt := some now, replacedBy := some successor } else d) =
      c := by
  simp [replaceWhere]

private theorem map_keyId_replaceWhere : (replaceWhere now keyId successor t).map (·.keyId) = t.map (·.keyId) := by
  unfold replaceWhere
  rw [List.map_map]
  refine List.map_congr_left fun c _ => ?_
  simp only [Function.comp_apply]
  split <;> rfl

private theorem replaceWhere_stay : KeysStay t (replaceWhere now keyId successor t) := by
  intro c hc
  refine ⟨_, mem_replaceWhere.2 ⟨c, hc, rfl⟩, ?_, fun hrevoked => ?_⟩
  · split <;> rfl
  · have hnot : ¬isReplaced keyId c = true := fun h => hrevoked (isReplaced_iff.1 h).2
    rw [if_neg hnot]

end KeyCall

private theorem revokeWhere_stay {now : Int} {p : Credential → Bool} : KeysStay t (revokeWhere t now none p) := by
  intro c hc
  refine ⟨_, mem_revokeWhere.2 ⟨c, hc, rfl⟩, ?_, fun hrevoked => ?_⟩
  · split <;> rfl
  · split
    · exact revokeRow_eq_self hrevoked (.inr rfl)
    · rfl

private theorem append_stay (c : Credential) : KeysStay t (t ++ [c]) :=
  fun d hd => ⟨d, List.mem_append_left _ hd, rfl, fun _ => rfl⟩

private theorem KeptKeys.append (h : KeptKeys t) {c : Credential} (hnew : IsNew c) (hfree : IsFree c.keyId t) :
    KeptKeys (t ++ [c]) := by
  refine ⟨?_, fun d hd hreplaced => ?_⟩
  · rw [List.map_append, List.nodup_append]
    refine ⟨h.distinct, List.nodup_singleton _, fun k hk k' hk' => ?_⟩
    obtain ⟨d, hd, rfl⟩ := List.mem_map.1 hk
    rw [List.map_singleton, List.mem_singleton] at hk'
    rw [hk']
    exact hfree d hd
  · rcases List.mem_append.1 hd with hd | hd
    · exact h.replaced d hd hreplaced
    · rw [List.mem_singleton.1 hd] at hreplaced
      exact absurd hnew.unreplaced hreplaced

/-! ### What a change keeps -/

private theorem KeyChange.kept (hchange : KeyChange t call outcome t') (h : KeptKeys t) : KeptKeys t' := by
  cases hchange with
  | created hnew hfree => exact h.append hnew hfree
  | rotated hnew hfree _ =>
    have happend := h.append hnew hfree
    refine ⟨by rw [KeyCall.map_keyId_replaceWhere]; exact happend.distinct, fun d hd hreplaced => ?_⟩
    obtain ⟨d', hd', rfl⟩ := KeyCall.mem_replaceWhere.1 hd
    split at hreplaced
    · rw [if_pos ‹_›]
      simp
    · rw [if_neg ‹_›]
      exact happend.replaced d' hd' hreplaced
  | revoked _ =>
    refine ⟨by rw [map_keyId_revokeWhere]; exact h.distinct, fun d hd hreplaced => ?_⟩
    obtain ⟨d', hd', rfl⟩ := mem_revokeWhere.1 hd
    split at hreplaced
    · rw [if_pos ‹_›]
      exact revokeRow_revokedAt _ _ _
    · rw [if_neg ‹_›]
      exact h.replaced d' hd' hreplaced

private theorem KeyChange.stay (hchange : KeyChange t call outcome t') : KeysStay t t' := by
  cases hchange with
  | created _ _ => exact append_stay _
  | rotated _ _ _ => exact (append_stay _).trans KeyCall.replaceWhere_stay
  | revoked _ => exact revokeWhere_stay

/-- The keys that a call adds are those that it returns. -/
private theorem KeyChange.keys (hchange : KeyChange t call outcome t') :
    t'.map (·.keyId) = t.map (·.keyId) ++ outcome.keys := by
  cases hchange with
  | created _ _ => rw [List.map_append]; rfl
  | rotated _ _ _ => rw [KeyCall.map_keyId_replaceWhere, List.map_append]; rfl
  | revoked hreturned =>
    rw [map_keyId_revokeWhere]
    cases outcome with
    | issued c => exact absurd rfl (hreturned c)
    | revoked c => exact (List.append_nil _).symm
    | raised e => exact (List.append_nil _).symm

/-- The key that a call returns was not there. -/
private theorem KeyChange.free (hchange : KeyChange t call outcome t') {k : String} (hk : k ∈ outcome.keys) :
    IsFree k t := by
  cases hchange with
  | created _ hfree =>
    obtain rfl := List.mem_singleton.1 hk
    exact hfree
  | rotated _ hfree _ =>
    obtain rfl := List.mem_singleton.1 hk
    exact hfree
  | revoked hreturned =>
    cases outcome with
    | issued c => exact absurd rfl (hreturned c)
    | revoked c => cases hk
    | raised e => cases hk

/-- The new links are those of the rotations that return. -/
private theorem KeyChange.link_iff (hchange : KeyChange t call outcome t') (h : KeptKeys t) (k k' : String) :
    Link t' k k' ↔ Link t k k' ∨ ∃ draw now, call = .rotate draw now k ∧ k' ∈ outcome.keys := by
  constructor
  -- a row of the new table is an old one, the new one, or the one that the rotation has replaced
  · rintro ⟨c, hc, rfl, hk'⟩
    cases hchange with
    | @created _ _ _ _ _ d hnew hfree =>
      rcases List.mem_append.1 hc with hc | hc
      · exact .inl ⟨c, hc, rfl, hk'⟩
      · rw [List.mem_singleton.1 hc, hnew.unreplaced] at hk'
        cases hk'
    | @rotated draw now keyId d hnew hfree hcount =>
      obtain ⟨c', hc', rfl⟩ := KeyCall.mem_replaceWhere.1 hc
      by_cases hreplaced : KeyCall.isReplaced keyId c' = true
      · rw [if_pos hreplaced] at hk' ⊢
        have hkey : c'.keyId = keyId := (KeyCall.isReplaced_iff.1 hreplaced).1
        refine .inr ⟨draw, now, by rw [← hkey], ?_⟩
        rw [← Option.some.inj hk']
        exact List.mem_singleton.2 rfl
      · rw [if_neg hreplaced] at hk' ⊢
        rcases List.mem_append.1 hc' with hc' | hc'
        · exact .inl ⟨c', hc', rfl, hk'⟩
        · rw [List.mem_singleton.1 hc', hnew.unreplaced] at hk'
          cases hk'
    | revoked hreturned =>
      obtain ⟨c', hc', rfl⟩ := mem_revokeWhere.1 hc
      refine .inl ⟨c', hc', by split <;> rfl, ?_⟩
      rw [← hk']
      split
      · show c'.replacedBy = c'.replacedBy.orElse fun _ => none
        cases c'.replacedBy <;> rfl
      · rfl
  · rintro (hlink | ⟨draw, now, rfl, hk'⟩)
    · exact hchange.stay.link h hlink
    · cases hchange with
      | @rotated _ _ _ d hnew hfree hcount =>
        obtain rfl := List.mem_singleton.1 hk'
        -- the rotation has checked that its update has changed a row
        have hpos : 0 < (t ++ [d]).countP (KeyCall.isReplaced k) := by omega
        obtain ⟨old, hold, hreplaced⟩ := List.countP_pos_iff.1 hpos
        refine ⟨_, KeyCall.mem_replaceWhere.2 ⟨old, hold, rfl⟩, ?_, ?_⟩
        · rw [if_pos hreplaced]
          exact (KeyCall.isReplaced_iff.1 hreplaced).1
        · rw [if_pos hreplaced]

end

/-! ### Runs -/

section

variable {ι : Type} [DecidableEq ι]

abbrev KeyState (ι : Type) := Sessions.State ι (List Credential) KeyStage KeyOutcome

/-- No call has begun. -/
def keyStart (t : List Credential) : KeyState ι := ⟨t, none, fun _ => .running .called⟩

/-- The state after some statements of the calls. -/
def keyRun (calls : ι → KeyCall) (t : List Credential) (events : List (Event ι)) : KeyState ι :=
  (keyStart t).run (fun i => (calls i).act) events

/-- The key that a call returns in this step. -/
def keysReturned (s s' : KeyState ι) : Event ι → List String
  | .next i =>
    match s.status i, s'.status i with
    | .running _, .ended outcome => outcome.keys
    | _, _ => []
  | .abandon _ => []

/-- The call has returned the key. -/
def Returned (s : KeyState ι) (i : ι) (k : String) : Prop := ∃ outcome, s.status i = .ended outcome ∧ k ∈ outcome.keys

/-- What has become of the table `t` and of the calls. -/
structure KeyHistory (calls : ι → KeyCall) (t : List Credential) (s : KeyState ι) : Prop where
  kept : KeptKeys s.committed
  /-- The links are those of the rotations that have returned. -/
  links : ∀ k k', Link s.committed k k' ↔ Link t k k' ∨ ∃ i draw now, calls i = .rotate draw now k ∧ Returned s i k'
  keys : ∀ k, k ∈ s.committed.map (·.keyId) ↔ k ∈ t.map (·.keyId) ∨ ∃ i, Returned s i k
  /-- A key is returned once, and was not there before. -/
  once : ∀ i k, Returned s i k → k ∉ t.map (·.keyId) ∧ ∀ j, Returned s j k → j = i

variable {calls : ι → KeyCall} {t : List Credential} {s s' : KeyState ι} {e : Event ι}

omit [DecidableEq ι] in
private theorem tracked_start (calls : ι → KeyCall) (t : List Credential) :
    Tracked (fun i => (calls i).out) (fun i => (calls i).did) (keyStart t) := by
  refine ⟨fun i l hrunning _ => ?_, fun i d l hwriter _ => by cases hwriter⟩
  cases hrunning
  trivial

private theorem tracked_run (calls : ι → KeyCall) (t : List Credential) (events : List (Event ι)) :
    Tracked (fun i => (calls i).out) (fun i => (calls i).did) (keyRun calls t events) :=
  (tracked_start calls t).run (fun i => (calls i).tracks) events

omit [DecidableEq ι] in
private theorem not_returned {i : ι} {stage : KeyStage} (hrunning : s.status i = .running stage) (k : String) :
    ¬Returned s i k := by
  rintro ⟨outcome, hended, -⟩
  rw [hrunning] at hended
  cases hended

/-- A step makes the change of the call that ends, or none. -/
private theorem keyStep_cases (h : Committed (fun i => (calls i).act) (fun i => (calls i).did) s e s') :
    (∃ i stage outcome, e = .next i ∧ s.status i = .running stage ∧ s'.status i = .ended outcome ∧
      KeyChange s.committed (calls i) outcome s'.committed ∧
      ∀ j k, Returned s' j k ↔ Returned s j k ∨ j = i ∧ k ∈ outcome.keys) ∨
    s'.committed = s.committed ∧ ∀ j k, Returned s' j k ↔ Returned s j k := by
  cases h with
  | @commit i stage outcome hevent hrunning hends hstatus hdone =>
    have hself : s'.status i = .ended outcome := by rw [hstatus, Function.update_self]
    refine .inl ⟨i, stage, outcome, hevent, hrunning, hself, KeyCall.change_of_commit hends hdone, fun j k => ?_⟩
    by_cases hj : j = i
    · subst hj
      constructor
      · rintro ⟨outcome', hended, hk⟩
        rw [hself] at hended
        cases hended
        exact .inr ⟨rfl, hk⟩
      · rintro (hreturned | ⟨-, hk⟩)
        · exact absurd hreturned (not_returned hrunning k)
        · exact ⟨outcome, hself, hk⟩
    · have hother : s'.status j = s.status j := by rw [hstatus, Function.update_of_ne hj]
      unfold Returned
      rw [hother]
      simp [hj]
  | nothing hcommitted hended hstays =>
    refine .inr ⟨hcommitted, fun j k => ⟨?_, ?_⟩⟩
    · rintro ⟨outcome, hj, hk⟩
      rcases hended j outcome hj with hj | ⟨stage, hrunning, hrollback⟩
      · exact ⟨outcome, hj, hk⟩
      · obtain ⟨e', rfl⟩ := KeyCall.raised_of_rollback hrollback
        cases hk
    · rintro ⟨outcome, hj, hk⟩
      exact ⟨outcome, hstays j outcome hj, hk⟩

private theorem keyStep_stay (h : Committed (fun i => (calls i).act) (fun i => (calls i).did) s e s') :
    KeysStay s.committed s'.committed := by
  rcases keyStep_cases h with ⟨i, stage, outcome, -, -, -, hchange, -⟩ | ⟨hcommitted, -⟩
  · exact hchange.stay
  · rw [hcommitted]
    exact .refl _

/-- A step adds the key that its call returns. -/
private theorem keyStep_keys (h : Committed (fun i => (calls i).act) (fun i => (calls i).did) s e s') :
    s'.committed.map (·.keyId) = s.committed.map (·.keyId) ++ keysReturned s s' e := by
  rcases keyStep_cases h with ⟨i, stage, outcome, rfl, hrunning, hended, hchange, -⟩ | ⟨hcommitted, hreturned⟩
  · have hkeys : keysReturned s s' (.next i) = outcome.keys := by
      unfold keysReturned
      simp only [hrunning, hended]
    rw [hkeys]
    exact hchange.keys
  · have hkeys : keysReturned s s' e = [] := by
      cases e with
      | abandon i => rfl
      | next i =>
        unfold keysReturned
        dsimp only
        split
        · rename_i stage outcome hrunning hended
          refine List.eq_nil_iff_forall_not_mem.2 fun k hk => ?_
          exact not_returned hrunning k ((hreturned i k).1 ⟨outcome, hended, hk⟩)
        · rfl
    rw [hcommitted, hkeys, List.append_nil]

private theorem KeyHistory.step (h : KeyHistory calls t s)
    (hstep : Committed (fun i => (calls i).act) (fun i => (calls i).did) s e s') : KeyHistory calls t s' := by
  rcases keyStep_cases hstep with ⟨i, stage, outcome, -, hrunning, -, hchange, hreturned⟩ | ⟨hcommitted, hreturned⟩
  · have hfresh : ∀ k ∈ outcome.keys, k ∉ s.committed.map (·.keyId) := by
      intro k hk hmem
      obtain ⟨c, hc, hkey⟩ := List.mem_map.1 hmem
      exact hchange.free hk c hc hkey
    refine ⟨hchange.kept h.kept, fun k k' => ?_, fun k => ?_, fun j k hj => ?_⟩
    · rw [hchange.link_iff h.kept, h.links, or_assoc]
      refine or_congr_right ⟨?_, ?_⟩
      · rintro (⟨j, draw, now, hcall, hj⟩ | ⟨draw, now, hcall, hk⟩)
        · exact ⟨j, draw, now, hcall, (hreturned j k').2 (.inl hj)⟩
        · exact ⟨i, draw, now, hcall, (hreturned i k').2 (.inr ⟨rfl, hk⟩)⟩
      · rintro ⟨j, draw, now, hcall, hj⟩
        rcases (hreturned j k').1 hj with hj | ⟨rfl, hk⟩
        · exact .inl ⟨j, draw, now, hcall, hj⟩
        · exact .inr ⟨draw, now, hcall, hk⟩
    · rw [hchange.keys, List.mem_append, h.keys, or_assoc]
      refine or_congr_right ⟨?_, ?_⟩
      · rintro (⟨j, hj⟩ | hk)
        · exact ⟨j, (hreturned j k).2 (.inl hj)⟩
        · exact ⟨i, (hreturned i k).2 (.inr ⟨rfl, hk⟩)⟩
      · rintro ⟨j, hj⟩
        rcases (hreturned j k).1 hj with hj | ⟨-, hk⟩
        · exact .inl ⟨j, hj⟩
        · exact .inr hk
    · -- the key of this call was not in the table, where those of the others are
      have hnew : ∀ j, Returned s j k → k ∉ outcome.keys := fun j hj hk => hfresh k hk ((h.keys k).2 (.inr ⟨j, hj⟩))
      rcases (hreturned j k).1 hj with hj | ⟨rfl, hk⟩
      · refine ⟨(h.once j k hj).1, fun j' hj' => ?_⟩
        rcases (hreturned j' k).1 hj' with hj' | ⟨-, hk⟩
        · exact (h.once j k hj).2 j' hj'
        · exact absurd hk (hnew j hj)
      · refine ⟨fun hmem => hfresh k hk ((h.keys k).2 (.inl hmem)), fun j' hj' => ?_⟩
        rcases (hreturned j' k).1 hj' with hj' | ⟨rfl, -⟩
        · exact absurd hk (hnew j' hj')
        · rfl
  · refine ⟨by rw [hcommitted]; exact h.kept, ?_, ?_, ?_⟩
    · simpa only [hcommitted, hreturned] using h.links
    · simpa only [hcommitted, hreturned] using h.keys
    · simpa only [hreturned] using h.once

omit [DecidableEq ι] in
private theorem keyHistory_start (h : KeptKeys t) : KeyHistory calls t (keyStart t) := by
  have hnone : ∀ i k, ¬Returned (keyStart t : KeyState ι) i k := by
    intro i k
    have hrunning : (keyStart t : KeyState ι).status i = .running .called := rfl
    exact not_returned hrunning k
  refine ⟨h, fun k k' => ?_, fun k => ?_, fun i k hi => absurd hi (hnone i k)⟩
  · refine ⟨.inl, fun hlink => hlink.resolve_right ?_⟩
    rintro ⟨i, draw, now, -, hi⟩
    exact hnone i k' hi
  · refine ⟨.inl, fun hmem => hmem.resolve_right ?_⟩
    rintro ⟨i, hi⟩
    exact hnone i k hi

private theorem keyRun_append (calls : ι → KeyCall) (t : List Credential) (events events' : List (Event ι)) :
    keyRun calls t (events ++ events') = (keyRun calls t events).run (fun i => (calls i).act) events' :=
  State.run_append _ _ _ _

private theorem keyRun_committed (calls : ι → KeyCall) (t : List Credential) (events : List (Event ι)) (e : Event ι) :
    Committed (fun i => (calls i).act) (fun i => (calls i).did) (keyRun calls t events) e
      (keyRun calls t (events ++ [e])) := by
  rw [keyRun_append]
  exact (tracked_run calls t events).committed (fun i => (calls i).tracks) e

private theorem keyHistory_run (h : KeptKeys t) (events : List (Event ι)) :
    KeyHistory calls t (keyRun calls t events) := by
  induction events using List.reverseRecOn with
  | nil => exact keyHistory_start h
  | append_singleton events e ih => exact ih.step (keyRun_committed calls t events e)

private theorem keyRun_stay (calls : ι → KeyCall) (t : List Credential) (events later : List (Event ι)) :
    KeysStay (keyRun calls t events).committed (keyRun calls t (events ++ later)).committed := by
  induction later using List.reverseRecOn with
  | nil =>
    rw [List.append_nil]
    exact .refl _
  | append_singleton later e ih =>
    rw [← List.append_assoc]
    exact ih.trans (keyStep_stay (keyRun_committed calls t (events ++ later) e))

/-- Whatever the order of the statements of any calls: a chain of rotations has at most one key that is not revoked; the
row of a key that is revoked or replaced stays as it is; a step adds the key that its call returns, and no other; and
the keys and the links of the table are those that calls have returned. -/
theorem service_keys_hold (calls : ι → KeyCall) (h : KeptKeys t) (events later : List (Event ι)) :
    KeyHistory calls t (keyRun calls t events) ∧ SingleKeys (keyRun calls t events).committed ∧
      (∀ c ∈ (keyRun calls t events).committed, c.revokedAt ≠ none ∨ c.replacedBy ≠ none →
        c ∈ (keyRun calls t (events ++ later)).committed) ∧
      ∀ e, (keyRun calls t (events ++ [e])).committed.map (·.keyId) = (keyRun calls t events).committed.map (·.keyId) ++
        keysReturned (keyRun calls t events) (keyRun calls t (events ++ [e])) e := by
  have hhistory : KeyHistory calls t (keyRun calls t events) := keyHistory_run h events
  refine ⟨hhistory, hhistory.kept.single, fun c hc hrevoked => ?_, fun e => ?_⟩
  · obtain ⟨c', hc', -, heq⟩ := keyRun_stay calls t events later c hc
    rw [← heq (hrevoked.elim id (hhistory.kept.replaced c hc))]
    exact hc'
  · exact keyStep_keys (keyRun_committed calls t events e)

end

/-! ### Two rotations of one key -/

def keyDraw (n : Fin 10) : Draw where
  key := "service-0000000" ++ Nat.repr n
  uuid := "00000000-0000-4000-8000-000000000000"
  now := 1
  key_valid := by revert n; decide +kernel
  uuid_valid := Credentials.isUuid_zero
  now_pos := Int.one_pos

/-- The first call creates a key, which the others rotate. -/
def racingCalls : Fin 3 → KeyCall
  | 0 => .create (keyDraw 0) "agent" {.submit} ["notes"] none
  | 1 => .rotate (keyDraw 1) 2 (keyDraw 0).key
  | 2 => .rotate (keyDraw 2) 2 (keyDraw 0).key

/-- Both rotations read the key before one of them replaces it. -/
def racingEvents : List (Event (Fin 3)) :=
  [.next 0, .next 0, .next 1, .next 2, .next 1, .next 1, .next 1, .next 2, .next 2, .next 2]

theorem service_keys_race :
    (keyRun racingCalls [] racingEvents).committed.map (·.keyId) = [(keyDraw 0).key, (keyDraw 1).key] ∧
      KeyHistory racingCalls [] (keyRun racingCalls [] racingEvents) ∧
      SingleKeys (keyRun racingCalls [] racingEvents).committed := by
  have hempty : KeptKeys [] := ⟨List.nodup_nil, fun c hc => by cases hc⟩
  obtain ⟨hhistory, hsingle, -, -⟩ := service_keys_hold racingCalls hempty racingEvents []
  exact ⟨by decide +kernel, hhistory, hsingle⟩

end Ctxd

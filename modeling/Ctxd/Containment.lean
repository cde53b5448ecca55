import Ctxd.GrantWriters
import Ctxd.TreeZone

/-!
# Submissions stay within the grants

The server derives the writer of a submission from the principal and the longest of its prefixes that the claimed
prefix is within; nothing else of the transport metadata is looked at.  The name of a writer ends with the prefix that
is registered for it, since the id of a key has no colon.  So in every state that posts lead to, the documents and
decisions of such a writer are inside that prefix (`StoreReachable.inv`), and a post of a principal that is no
administrator changes rows of its own writers and files inside its own prefixes only (`submission_contained`).
-/

namespace Ctxd

open Program

namespace Server

/-! ### The endpoint -/

/-- `CtxfsSubmissionRequest` with its body.  What an operation is before its validation is left open. -/
structure SubmissionRequest (ρ : Type) where
  userId : Option String
  writerId : String
  writerPrefix : String
  runId : String
  sequence : Nat
  isFullScan : Bool
  operations : List ρ
  writerId_ne : writerId ≠ ""
  writerPrefix_ne : writerPrefix ≠ ""
  runId_ne : runId ≠ ""

section

variable {ρ : Type} (parse : ρ → Except StoreError Operation) (user : String) (principal : Principal)

/-- `submit_ctxfs_operations` behind `require(Scope.SUBMIT)`; `parse` is `_operation_from_payload`. -/
def postSubmission (payload : SubmissionRequest ρ) : EStateM Refusal World Submission := do
  let admitted ← onStore .claim (orRaise (Auth.authorize (some principal) .submit principal.prefixes.head?))
  if admitted.allowed = false then throw (.denied admitted)
  let decision ← onStore .claim (orRaise (Auth.authorize (some principal) .submit (some payload.writerPrefix)))
  if decision.allowed = false then throw (.denied decision)
  let granted ← onStore .claim (orRaise (submissionPrefix principal payload.writerPrefix))
  onStore .registration (registerPrefix user (writerId principal granted) granted)
  let operations ← onStore .operations (orRaise (payload.operations.mapM parse))
  onStore .operations (submit user (writerId principal granted) operations)

/-- The store after a post, answered or refused. -/
def afterPost (payload : SubmissionRequest ρ) (w : World) : World :=
  endState (postSubmission parse user principal payload) w

end

/-- `local_socket_principal`. -/
def localSocketPrincipal : Principal :=
  { principalId := "local-socket", kind := .localSocket, scopes := {.admin}, keyId := none, prefixes := [],
    machineId := none, valid := by decide }

/-- The principals of authenticated requests: that of a key, whose id `CredentialStore` has drawn, and that of the local
socket. -/
inductive Authenticated : Principal → Prop
  | apiKey (c : Credential) (hkey : Credentials.validKeyId c.keyId = true)
      (hvalid : Auth.validatePrincipal c.keyId .apiKey c.scopes (some c.keyId) c.prefixes c.machineId =
        .ok c.prefixes) :
      Authenticated (c.principal hvalid)
  | localSocket : Authenticated localSocketPrincipal

/-- The states of the server's store: posts of any principals lead there, and any of their filesystem calls may fail. -/
inductive StoreReachable {ρ : Type} (parse : ρ → Except StoreError Operation) (user : String) : World → Prop
  | opened (clock : Nat → Int) (pathMax : Nat) : StoreReachable parse user (emptyStore clock pathMax)
  | faulty {w : World} (h : StoreReachable parse user w) (fault : Option Nat) :
      StoreReachable parse user { w with fs := { w.fs with fault := fault } }
  | post {w : World} (h : StoreReachable parse user w) {p : Principal} (hp : Authenticated p)
      (payload : SubmissionRequest ρ) : StoreReachable parse user (afterPost parse user p payload w)

/-- What differs between two stores are rows of the principal's writers, inside their prefixes, and files there. -/
structure Contained (user : String) (p : Principal) (w w' : World) : Prop where
  entries : ∀ e, (e ∈ w'.catalog.entries ↔ e ∈ w.catalog.entries) ∨
    ∃ g ∈ p.prefixes, e.userId = user ∧ e.writerId = writerId p g ∧ posixParts g <+: posixParts e.path
  decisions : ∀ r, (r ∈ w'.catalog.decisions ↔ r ∈ w.catalog.decisions) ∨
    ∃ g ∈ p.prefixes, r.userId = user ∧ r.writerId = writerId p g ∧
      ∀ path, r.path = some path → posixParts g <+: posixParts path
  files : ∀ v p', w'.fs.disk.file ⟨.users v, p'⟩ = w.fs.disk.file ⟨.users v, p'⟩ ∨
    v = user ∧ ∃ g ∈ p.prefixes, treePath g <:+ p'

private theorem Contained.refl (user : String) (p : Principal) (w : World) : Contained user p w w :=
  ⟨fun _ => .inl .rfl, fun _ => .inl .rfl, fun _ _ => .inl rfl⟩

/-! ### Names of writers -/

/-- A writer's name: a key without a colon, and the writer's prefix. -/
def NamedFor (writer g : String) : Prop := ∃ key : String, ':' ∉ key.toList ∧ writer = s!"{key}:{g}"

private theorem append_colon_inj {k k' g g' : List Char} (hk : ':' ∉ k) (hk' : ':' ∉ k')
    (h : k ++ ':' :: g = k' ++ ':' :: g') : g = g' := by
  induction k generalizing k' with
  | nil =>
    cases k' with
    | nil => exact (List.cons.inj h).2
    | cons c k' => exact absurd ((List.cons.inj h).1 ▸ List.mem_cons_self ..) hk'
  | cons c k ih =>
    cases k' with
    | nil => exact absurd ((List.cons.inj h).1 ▸ List.mem_cons_self ..) hk
    | cons c' k' =>
      have hrest : ':' ∉ k := fun hc => hk (List.mem_cons_of_mem _ hc)
      have hrest' : ':' ∉ k' := fun hc => hk' (List.mem_cons_of_mem _ hc)
      exact ih hrest hrest' (List.cons.inj h).2

/-- The name tells the prefix. -/
private theorem NamedFor.unique {writer g g' : String} (h : NamedFor writer g) (h' : NamedFor writer g') : g = g' := by
  obtain ⟨key, hkey, rfl⟩ := h
  obtain ⟨key', hkey', heq⟩ := h'
  have hlists := congrArg String.toList heq
  simp only [toString, String.toList_append] at hlists
  have hcolon : ":".toList = [':'] := rfl
  rw [hcolon, List.append_assoc, List.append_assoc] at hlists
  exact String.toList_inj.1 (append_colon_inj hkey hkey' hlists)

private theorem Authenticated.namedFor {p : Principal} (hp : Authenticated p) (g : String) :
    NamedFor (writerId p g) g := by
  refine ⟨(p.keyId.filter (· ≠ "")).getD p.principalId, ?_, rfl⟩
  cases hp with
  | apiKey c hkey hvalid =>
    have hword := Credentials.isWord_of_validKeyId hkey
    have hsome : ((some c.keyId).filter (· ≠ "")).getD c.keyId = c.keyId := by
      simp [Option.filter, hword.1]
    have hname : (((c.principal hvalid).keyId.filter (· ≠ "")).getD (c.principal hvalid).principalId) = c.keyId := hsome
    rw [hname]
    intro hcolon
    exact absurd (hword.2 _ hcolon) (by decide)
  | localSocket => decide

/-! ### Where the documents of the server's writers are -/

/-- Inside the prefix that the writer is named for. -/
def InsideNamed (writer path : String) : Prop :=
  ∃ g, NamedFor writer g ∧ Normalized g ∧ Normalized path ∧ posixParts g <+: posixParts path

def named : Placement where
  entry i path := InsideNamed i.2.1 path
  decision i path := InsideNamed i.2.1 path

structure StoreInv (w : World) : Prop where
  clear : named.Clear w.catalog
  registered : ∀ r ∈ w.catalog.writerPrefixes, NamedFor r.writerId r.prefixPath ∧ Normalized r.prefixPath

theorem withinAny_ok {path : String} {prefixes : List String} (h : Catalog.withinAny path prefixes = .ok true) :
    ∃ g ∈ prefixes, pathIsWithinPrefix path g = .ok true := by
  induction prefixes with
  | nil => cases h
  | cons g rest ih =>
    unfold Catalog.withinAny at h
    obtain ⟨found, hfound, h⟩ := bind_eq_ok.1 h
    cases found with
    | true => exact ⟨g, List.mem_cons_self .., hfound⟩
    | false =>
      obtain ⟨g', hmem, hwithin⟩ := ih h
      exact ⟨g', List.mem_cons_of_mem _ hmem, hwithin⟩

/-- A path that is authorised for a writer is inside the prefix that it is named for. -/
private theorem insideNamed_of_authorized {c : Catalog} {user writer path : String}
    (hrows : ∀ r ∈ c.writerPrefixes, NamedFor r.writerId r.prefixPath ∧ Normalized r.prefixPath)
    (hpath : Normalized path) (h : c.requireAuthorizedPath user writer path = .ok ()) : InsideNamed writer path := by
  unfold Catalog.requireAuthorizedPath at h
  obtain ⟨found, hfound, h⟩ := bind_eq_ok.1 h
  cases found with
  | false => cases h
  | true =>
    obtain ⟨g, hg, hwithin⟩ := withinAny_ok hfound
    obtain ⟨r, hr, rfl⟩ := List.mem_map.1 hg
    obtain ⟨hmem, hown⟩ := List.mem_filter.1 hr
    simp only [Bool.and_eq_true, decide_eq_true_eq] at hown
    obtain ⟨hnamed, hnormal⟩ := hrows r hmem
    rw [pathIsWithinPrefix_eq hpath hnormal] at hwithin
    exact ⟨r.prefixPath, hown.2 ▸ hnamed, hnormal, hpath, of_decide_eq_true (Except.ok.inj hwithin)⟩

private theorem allowsChecked {rows : List WriterPrefix}
    (hrows : ∀ r ∈ rows, NamedFor r.writerId r.prefixPath ∧ Normalized r.prefixPath) (user writer : String)
    (operations : List Operation) : named.AllowsChecked user writer operations rows := by
  refine .of_authorized (fun c hc path hpath hauthorized sourceKey => ?_) operations
  have hinside := insideNamed_of_authorized (hc ▸ hrows) hpath hauthorized
  exact ⟨hinside, hinside⟩

/-! ### Rows of other writers -/

/-- The documents and decisions of other writers are the same. -/
structure SameOthers (user writer : String) (c c' : Catalog) : Prop where
  entries : ∀ e : Entry, ¬(e.userId = user ∧ e.writerId = writer) → (e ∈ c'.entries ↔ e ∈ c.entries)
  decisions : ∀ r : Decision, ¬(r.userId = user ∧ r.writerId = writer) → (r ∈ c'.decisions ↔ r ∈ c.decisions)

instance (user writer : String) : IsPreorder Catalog (SameOthers user writer) where
  refl _ := ⟨fun _ _ => .rfl, fun _ _ => .rfl⟩
  trans _ _ _ h h' :=
    ⟨fun e he => (h'.entries e he).trans (h.entries e he), fun r hr => (h'.decisions r hr).trans (h.decisions r hr)⟩

/-- Rows that are changed belong to the writer before and after. -/
private theorem mem_map_of_own {α : Type} {P : α → Prop} {changed : α → Bool} {f : α → α} {rows : List α}
    (hchanged : ∀ a, changed a = true → P a ∧ P (f a)) {a : α} (ha : ¬P a) :
    (a ∈ rows.map fun b => if changed b then f b else b) ↔ a ∈ rows := by
  rw [List.mem_map]
  constructor
  · rintro ⟨b, hb, heq⟩
    split at heq
    · rename_i hc
      exact absurd (heq ▸ (hchanged b hc).2) ha
    · exact heq ▸ hb
  · intro hmem
    refine ⟨a, hmem, if_neg fun hc => ha (hchanged a hc).1⟩

private theorem sameOthers_rows (user writer : String) : WriterRows user writer (SameOthers user writer) where
  updateEntry {c c' sourceKey path f} hf hc := by
    unfold Catalog.updateEntry at hc
    split at hc
    · cases hc
    cases hc
    refine ⟨fun e he => mem_map_of_own (P := fun e => e.userId = user ∧ e.writerId = writer) (fun b hb => ?_) he,
      fun _ _ => .rfl⟩
    rw [Entry.isSource_iff] at hb
    obtain ⟨version, time, heq⟩ := hf b
    have hown : b.userId = user ∧ b.writerId = writer :=
      ⟨congrArg Prod.fst hb, congrArg (fun i => i.2.1) hb⟩
    refine ⟨hown, ?_⟩
    rw [heq]
    exact hown
  upsertDecision c row hu hw := by
    subst hu hw
    unfold Catalog.upsertDecision
    dsimp only
    split
    · refine ⟨fun _ _ => .rfl, fun r hr => mem_map_of_own
        (P := fun r => r.userId = row.userId ∧ r.writerId = row.writerId) (fun b hb => ?_) hr⟩
      simp only [Bool.and_eq_true, decide_eq_true_eq] at hb
      exact ⟨hb.1, rfl, rfl⟩
    · refine ⟨fun _ _ => .rfl, fun r hr => ?_⟩
      rw [List.mem_append, or_iff_left]
      intro hmem
      exact hr (List.mem_singleton.1 hmem ▸ ⟨rfl, rfl⟩)
  upsertEntry {c c' row} hu hw hc := by
    subst hu hw
    unfold Catalog.upsertEntry at hc
    split at hc
    · cases hc
    split at hc
    · cases hc
      refine ⟨fun e he => mem_map_of_own (P := fun e => e.userId = row.userId ∧ e.writerId = row.writerId)
        (fun b hb => ?_) he, fun _ _ => .rfl⟩
      rw [Entry.isSource_iff] at hb
      exact ⟨⟨congrArg Prod.fst hb, congrArg (fun i => i.2.1) hb⟩, rfl, rfl⟩
    · cases hc
      refine ⟨fun e he => ?_, fun _ _ => .rfl⟩
      rw [List.mem_append, or_iff_left]
      intro hmem
      exact he (List.mem_singleton.1 hmem ▸ ⟨rfl, rfl⟩)
  deleteEntry c sourceKey := by
    refine ⟨fun e he => ?_, fun _ _ => .rfl⟩
    show e ∈ c.entries.filter _ ↔ _
    rw [List.mem_filter, and_iff_left]
    rw [Bool.not_eq_true', Bool.eq_false_iff]
    intro hsource
    rw [Entry.isSource_iff] at hsource
    exact he ⟨congrArg Prod.fst hsource, congrArg (fun i => i.2.1) hsource⟩
  submissions _ _ := ⟨fun _ _ => .rfl, fun _ _ => .rfl⟩

/-! ### Files inside a prefix -/

/-- All places but those in trees of users that are not inside the prefix of this user. -/
def insidePrefix (user g : String) (l : Loc) : Prop := ∀ v, l.area = .users v → v = user ∧ treePath g <:+ l.path

private theorem zone_insidePrefix (user g : String) : Zone (insidePrefix user g) where
  below := by
    intro l l' h harea hpath v hv
    obtain ⟨huser, hinside⟩ := h v (harea ▸ hv)
    exact ⟨huser, hinside.trans hpath⟩
  undo _ _ hv := by cases hv
  objects _ _ _ hv := by cases hv

/-- The file of a document of the writer. -/
private theorem InsideNamed.insidePrefix {writer g path : String} (h : InsideNamed writer path)
    (hnamed : NamedFor writer g) (user : String) : insidePrefix user g (treeLoc user path) := by
  obtain ⟨g', hnamed', hnormal, hpath, hinside⟩ := h
  obtain rfl := hnamed'.unique hnamed
  intro v hv
  cases hv
  refine ⟨rfl, (treePath_suffix_iff hpath hnormal).2 ?_⟩
  rw [pathIsWithinPrefix_eq hpath hnormal, decide_eq_true hinside]

/-! ### One post -/

/-- Documents and decisions are the same. -/
def SameRows (c c' : Catalog) : Prop := c'.entries = c.entries ∧ c'.decisions = c.decisions

instance : IsPreorder Catalog SameRows where
  refl _ := ⟨rfl, rfl⟩
  trans _ _ _ h h' := ⟨h'.1.trans h.1, h'.2.trans h.2⟩

private theorem registerPrefix_sameRows (user writer pre : String) :
    Keeps (World.Across Eq SameRows) (fun _ => True) (registerPrefix user writer pre) := by
  have hcatalog : Keeps (World.Across Eq SameRows) (fun _ => True) catalog :=
    fun w => ⟨refl_of (World.Across Eq SameRows) w, trivial⟩
  unfold registerPrefix
  refine across_raising.bind fun normalized _ => across_now.bind fun time _ => across_transaction ?_
  refine hcatalog.bind fun c _ => (Keeps.forM fun row _ => ?_).bind fun _ _ => across_execute fun c c' hc => ?_
  · exact across_raising.bind fun overlap _ => .ite (fun _ => .throw) fun _ => .pure trivial
  · cases hc
    unfold Catalog.insertPrefix
    split
    · exact ⟨rfl, rfl⟩
    · exact ⟨rfl, rfl⟩

section

variable {user writer g : String} {w : World}

/-- What a submission of the writer of a prefix keeps, and what it leaves alone. -/
private theorem submit_step (hw : StoreInv w) (hnamed : NamedFor writer g) (operations : List Operation) :
    Ends (submit user writer operations)
      (fun _ w' => StoreInv w' ∧ World.Across (Fs.Confined (insidePrefix user g)) (SameOthers user writer) w w')
      (fun _ w' => StoreInv w' ∧ World.Across (Fs.Confined (insidePrefix user g)) (SameOthers user writer) w w') w := by
  have hallowed := allowsChecked hw.registered user writer operations
  have hclear := Placement.submit_clear hw.clear hallowed
  have hprefixes := (@SamePrefixes.submit user writer operations).ends w
  have hacross := (confined_frame (zone_insidePrefix user g)).submit (sameOthers_rows user writer)
    (fun _ _ hinside => InsideNamed.insidePrefix hinside hnamed user) hw.clear hallowed
  have hinv : ∀ w' : World, named.Clear w'.catalog → World.SamePrefixes w w' → StoreInv w' := by
    intro w' hclear' hsame
    exact ⟨hclear', hsame ▸ hw.registered⟩
  refine ((hclear.and hprefixes).and hacross).mono (fun _ w' h => ?_) fun _ w' h => ?_
  · exact ⟨hinv w' h.1.1 h.1.2, h.2⟩
  · exact ⟨hinv w' h.1.1 h.1.2, h.2⟩

/-- Registering the prefix that a writer is named for. -/
private theorem register_step (hw : StoreInv w) (hnamed : NamedFor writer g) :
    Ends (registerPrefix user writer g)
      (fun _ w' => StoreInv w' ∧ World.Across (Fs.Confined (insidePrefix user g)) (SameOthers user writer) w w')
      (fun _ w' => StoreInv w' ∧ World.Across (Fs.Confined (insidePrefix user g)) (SameOthers user writer) w w') w := by
  have hacross : ∀ w' : World, World.Across Eq SameRows w w' →
      World.Across (Fs.Confined (insidePrefix user g)) (SameOthers user writer) w w' := by
    rintro w' ⟨hfs, hentries, hdecisions⟩
    refine ⟨hfs ▸ refl_of (Fs.Confined _) w.fs, fun e _ => ?_, fun r _ => ?_⟩
    · rw [hentries]
    · rw [hdecisions]
  have hclear : ∀ w' : World, World.Across Eq SameRows w w' → named.Clear w'.catalog :=
    fun w' h => Placement.ClearBut.of_eq hw.clear h.catalog.1 h.catalog.2
  refine (((registerPrefix_sameRows user writer g).ends w).and (registerPrefix_spec user writer g w)).mono
    (fun _ w' h => ?_) fun _ w' h => ?_
  · obtain ⟨hsame, hnormal, -, hrows⟩ := h
    refine ⟨⟨hclear w' hsame, fun r hr => ?_⟩, hacross w' hsame⟩
    rcases mem_insertPrefixRow (hrows ▸ hr) with hr | rfl
    · exact hw.registered r hr
    · exact ⟨hnamed, .of_ok hnormal⟩
  · exact ⟨⟨hclear w' h.1, h.2.2 ▸ hw.registered⟩, hacross w' h.1⟩

variable {ρ : Type} {parse : ρ → Except StoreError Operation} {p : Principal}

/-- A post is refused at once, or what it does is done for the writer of a prefix that it is granted. -/
private theorem postSubmission_step (hw : StoreInv w) (hp : Authenticated p) (payload : SubmissionRequest ρ) :
    StoreInv (afterPost parse user p payload w) ∧
      (afterPost parse user p payload w = w ∨ ∃ g, submissionPrefix p payload.writerPrefix = .ok g ∧
        World.Across (Fs.Confined (insidePrefix user g)) (SameOthers user (writerId p g)) w
          (afterPost parse user p payload w)) := by
  refine Ends.endState (P := fun w' => StoreInv w' ∧ (w' = w ∨ ∃ g, submissionPrefix p payload.writerPrefix = .ok g ∧
    World.Across (Fs.Confined (insidePrefix user g)) (SameOthers user (writerId p g)) w w')) ?_
  have hrefused : StoreInv w ∧ (w = w ∨ ∃ g, submissionPrefix p payload.writerPrefix = .ok g ∧
      World.Across (Fs.Confined (insidePrefix user g)) (SameOthers user (writerId p g)) w w) := ⟨hw, .inl rfl⟩
  unfold postSubmission onStore
  rw [ends_bind, ends_focus, ends_orRaise]
  refine ⟨fun admitted _ => Ends.ite (fun _ => ?_) fun _ => ?_, fun _ _ => hrefused⟩
  · rw [ends_bind, ends_throw]
    exact hrefused
  rw [ends_bind, ends_focus, ends_orRaise]
  refine ⟨fun decision _ => Ends.ite (fun _ => ?_) fun _ => ?_, fun _ _ => hrefused⟩
  · rw [ends_bind, ends_throw]
    exact hrefused
  rw [ends_bind, ends_focus, ends_orRaise]
  refine ⟨fun granted hgranted => ?_, fun _ _ => hrefused⟩
  have hnamed := hp.namedFor granted
  rw [ends_bind, ends_focus]
  refine (register_step hw hnamed).mono (fun _ w1 hw1 => ?_) fun _ w1 hw1 => ⟨hw1.1, .inr ⟨granted, hgranted, hw1.2⟩⟩
  rw [ends_bind, ends_focus, ends_orRaise]
  refine ⟨fun operations _ => ?_, fun _ _ => ⟨hw1.1, .inr ⟨granted, hgranted, hw1.2⟩⟩⟩
  rw [ends_focus]
  refine (submit_step hw1.1 hnamed operations).mono (fun _ w2 hw2 => ?_) fun _ w2 hw2 => ?_
  · exact ⟨hw2.1, .inr ⟨granted, hgranted, trans_of (World.Across _ _) hw1.2 hw2.2⟩⟩
  · exact ⟨hw2.1, .inr ⟨granted, hgranted, trans_of (World.Across _ _) hw1.2 hw2.2⟩⟩

/-- In every state of the store the documents of a writer are inside the prefix that it is named for. -/
private theorem StoreReachable.inv (h : StoreReachable parse user w) : StoreInv w := by
  induction h with
  | opened clock pathMax =>
    refine ⟨⟨fun e he => ?_, fun r hr => ?_⟩, fun r hr => ?_⟩
    · cases he
    · cases hr
    · cases hr
  | faulty _ fault ih => exact ⟨ih.clear, ih.registered⟩
  | post _ hp payload ih => exact (postSubmission_step ih hp payload).1

/-- A post of a principal that is no administrator changes documents, decisions and files inside its prefixes only, in
rows of writers that are named after its key, and what it does depends on the claimed prefix and the operations
alone. -/
theorem submission_contained (hw : StoreReachable parse user w) (hp : Authenticated p) (hadmin : .admin ∉ p.scopes)
    (payload : SubmissionRequest ρ) :
    Contained user p w (afterPost parse user p payload w) ∧
      ∀ payload' : SubmissionRequest ρ, payload'.writerPrefix = payload.writerPrefix →
        payload'.operations = payload.operations →
          postSubmission parse user p payload' w = postSubmission parse user p payload w := by
  have hpost : StoreInv (afterPost parse user p payload w) ∧ _ := postSubmission_step hw.inv hp payload
  obtain ⟨hinv', hstep⟩ := hpost
  refine ⟨?_, fun payload' hclaimed hoperations => ?_⟩
  · rcases hstep with hsame | ⟨g, hgranted, hacross⟩
    · rw [hsame]
      exact .refl user p w
    have hmem : g ∈ p.prefixes := submissionPrefix_mem hadmin hgranted
    have hinside : ∀ path, InsideNamed (writerId p g) path → posixParts g <+: posixParts path := by
      rintro path ⟨g', hnamed, -, -, hinside⟩
      rwa [hnamed.unique (hp.namedFor g)] at hinside
    refine ⟨fun e => ?_, fun r => ?_, fun v place => ?_⟩
    · by_cases hown : e.userId = user ∧ e.writerId = writerId p g
      · by_cases hrow : e ∈ w.catalog.entries ∨ e ∈ (afterPost parse user p payload w).catalog.entries
        · refine .inr ⟨g, hmem, hown.1, hown.2, hinside e.path (hown.2 ▸ ?_)⟩
          rcases hrow with hrow | hrow
          · exact (hw.inv.clear.entries e hrow).resolve_right id
          · exact (hinv'.clear.entries e hrow).resolve_right id
        · rw [not_or] at hrow
          exact .inl (iff_of_false hrow.2 hrow.1)
      · exact .inl (hacross.catalog.entries e hown)
    · by_cases hown : r.userId = user ∧ r.writerId = writerId p g
      · by_cases hrow : r ∈ w.catalog.decisions ∨ r ∈ (afterPost parse user p payload w).catalog.decisions
        · refine .inr ⟨g, hmem, hown.1, hown.2, fun path hpath => hinside path (hown.2 ▸ ?_)⟩
          rcases hrow with hrow | hrow
          · exact hw.inv.clear.decisions r hrow path hpath
          · exact hinv'.clear.decisions r hrow path hpath
        · rw [not_or] at hrow
          exact .inl (iff_of_false hrow.2 hrow.1)
      · exact .inl (hacross.catalog.decisions r hown)
    · by_cases hplace : insidePrefix user g ⟨.users v, place⟩
      · obtain ⟨huser, hbelow⟩ := hplace v rfl
        exact .inr ⟨huser, g, hmem, hbelow⟩
      · exact .inl (hacross.fs.files _ hplace)
  · unfold postSubmission
    rw [hclaimed, hoperations]

end

/-! ### A post -/

/-- The principal of the sample agent. -/
def agentPrincipal : Principal := (agent ["notes", "work"]).principal (Credentials.create_valid agent_created)

/-- A note of the agent; the writer that it claims to be is another one. -/
def samplePost : SubmissionRequest Operation where
  userId := none
  writerId := "agent-1111111111:work"
  writerPrefix := "notes/today"
  runId := "run"
  sequence := 0
  isFullScan := false
  operations := [putText "1" "notes/today/a.md" "text"]
  writerId_ne := by decide
  writerPrefix_ne := by decide
  runId_ne := by decide

theorem submission_contained_agent :
    returns (postSubmission .ok "local" agentPrincipal samplePost) (emptyStore (fun _ => 0) 4000) = true ∧
      Contained "local" agentPrincipal (emptyStore (fun _ => 0) 4000)
        (afterPost .ok "local" agentPrincipal samplePost (emptyStore (fun _ => 0) 4000)) ∧
      ∀ payload' : SubmissionRequest Operation, payload'.writerPrefix = samplePost.writerPrefix →
        payload'.operations = samplePost.operations →
          postSubmission .ok "local" agentPrincipal payload' (emptyStore (fun _ => 0) 4000) =
            postSubmission .ok "local" agentPrincipal samplePost (emptyStore (fun _ => 0) 4000) := by
  have hkey : Credentials.validKeyId (agent ["notes", "work"]).keyId = true := by decide +kernel
  exact ⟨by decide +kernel, submission_contained (.opened _ _) (.apiKey _ hkey _) (by decide) samplePost⟩

end Server

end Ctxd

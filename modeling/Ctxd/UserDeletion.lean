import Ctxd.DeletionReruns

/-!
# The deletion of a user

The rows of a user go in four transactions, the two directories of the user are removed with errors ignored, and only
then `_assert_user_removed` looks whether anything is left.  However often the call dies or meets files that it cannot
remove, it touches nothing of other users, and it returns exactly when nothing is in its way (`deleteUser_attempts`).

The root of an area is not a node of the disk: it is there as long as something is below it or it cannot be removed.
-/

namespace Ctxd

open Program

/-- How `delete_user` ends when it does not return. -/
inductive UserHalt
  | halt (h : ServiceHalt)
  | runtimeError (message : String)
  deriving DecidableEq, Repr

abbrev UserM := EStateM UserHalt Service

namespace Disk

/-- `os.scandir`: the names in a directory, in the order of the disk. -/
def names (d : Disk) (l : Loc) : List String :=
  (d.nodes.filter fun item => item.1.path ≠ [] && item.1.parent = l).filterMap fun item => item.1.path.head?

/-- The longest path on the disk. -/
def depth (d : Disk) : Nat := (d.nodes.map fun item => item.1.path.length).foldr max 0

/-- Something is below the root of the area. -/
def anyIn (d : Disk) (a : Area) : Bool := d.nodes.any fun item => item.1.area = a && item.1.path ≠ []

variable {d : Disk}

private theorem isSome_node_iff {l : Loc} (hl : l.path ≠ []) : (d.node l).isSome ↔ ∃ item ∈ d.nodes, item.1 = l := by
  rw [node_of_ne_nil d hl, Dict.get?_isSome_iff]
  exact List.mem_map

private theorem mem_names {l : Loc} {name : String} : name ∈ d.names l ↔ (d.node ⟨l.area, name :: l.path⟩).isSome := by
  rw [isSome_node_iff (by simp)]
  unfold names
  rw [List.mem_filterMap]
  constructor
  · rintro ⟨⟨⟨a, p⟩, n⟩, hmem, hhead⟩
    rw [List.mem_filter] at hmem
    obtain ⟨hmem, h⟩ := hmem
    simp only [Bool.and_eq_true, decide_eq_true_eq] at h
    obtain ⟨-, rfl⟩ := h
    cases p with
    | nil => cases hhead
    | cons x rest =>
      cases hhead
      exact ⟨_, hmem, rfl⟩
  · rintro ⟨item, hmem, hitem⟩
    refine ⟨item, List.mem_filter.2 ⟨hmem, ?_⟩, ?_⟩
    · rw [hitem]
      simp [Loc.parent]
    · rw [hitem]
      rfl

private theorem length_le_depth {l : Loc} (h : (d.node l).isSome) : l.path.length ≤ d.depth := by
  by_cases hnil : l.path = []
  · rw [hnil]
    exact Nat.zero_le _
  · obtain ⟨item, hmem, rfl⟩ := (isSome_node_iff hnil).1 h
    unfold depth
    generalize d.nodes = nodes at hmem
    induction nodes with
    | nil => cases hmem
    | cons first rest ih =>
      rw [List.map_cons, List.foldr_cons]
      rcases List.mem_cons.1 hmem with rfl | hmem
      · exact le_max_left _ _
      · exact (ih hmem).trans (le_max_right _ _)

private theorem anyIn_iff {a : Area} : d.anyIn a = true ↔ ∃ p, p ≠ [] ∧ (d.node ⟨a, p⟩).isSome := by
  unfold anyIn
  rw [List.any_eq_true]
  constructor
  · rintro ⟨item, hmem, h⟩
    simp only [Bool.and_eq_true, decide_eq_true_eq] at h
    obtain ⟨rfl, hne⟩ := h
    exact ⟨item.1.path, hne, (isSome_node_iff hne).2 ⟨item, hmem, rfl⟩⟩
  · rintro ⟨p, hne, h⟩
    obtain ⟨item, hmem, hitem⟩ := (isSome_node_iff hne).1 h
    refine ⟨item, hmem, ?_⟩
    rw [hitem]
    simpa using hne

/-- Nothing lies below what is not there. -/
private theorem WF.below_none (h : d.WF) {a : Area} {p q : TreePath} (hp : d.node ⟨a, p⟩ = none) (hq : p <:+ q) :
    d.node ⟨a, q⟩ = none := by
  rw [← Option.not_isSome_iff_eq_none]
  intro hsome
  by_cases hne : p = q
  · rw [← hne, hp] at hsome
    cases hsome
  · rw [h.ancestor hsome hq hne] at hp
    cases hp

end Disk

namespace Service

/-! ### `delete_user` -/

/-- A call of an entry that `shutil.rmtree` removes: its error is ignored; what is `held` the system does not remove. -/
def ignoreErrors (held : Loc → Bool) (l : Loc) (call : Disk → Except Errno Disk) : ServiceM Unit := do
  let s ← get
  if held l then return ()
  else
    match call s.world.fs.disk with
    | .ok d => step (setDisk d)
    | .error _ => return ()

/-- The contents of a directory are removed. -/
def rmtreeBelow (held : Loc → Bool) (a : Area) : Nat → TreePath → ServiceM Unit
  | 0, _ => return ()
  | depth + 1, p => do
    let s ← get
    (s.world.fs.disk.names ⟨a, p⟩).forM fun name => do
      let s ← get
      match s.world.fs.disk.node ⟨a, name :: p⟩ with
      | some (.file _) => ignoreErrors held ⟨a, name :: p⟩ fun d => d.unlink ⟨a, name :: p⟩
      | _ => do
        rmtreeBelow held a depth (name :: p)
        ignoreErrors held ⟨a, name :: p⟩ fun d => d.rmdir ⟨a, name :: p⟩

/-- `shutil.rmtree(root, ignore_errors=True)` on the root of an area. -/
def rmtree (held : Loc → Bool) (a : Area) : ServiceM Unit := do
  let s ← get
  rmtreeBelow held a s.world.fs.disk.depth []

def entryRowsForUser (c : Catalog) (user : String) : List Entry := byPath (c.entries.filter fun e => e.userId = user)

def deleteDecisionsForUser (user : String) : ServiceM Nat := deleteDecisionsIn fun r => r.userId = user

def deleteQueuedSubmissionsForUser (user : String) : ServiceM Nat := do
  let s ← get
  step fun s => { s with rows := s.rows.filter fun r => !(r.userId = user && isQueued r) }
  return (s.rows.filter fun r => r.userId = user && isQueued r).length

/-- The transaction that deletes the rows of the user from four tables. -/
def deleteRowsOfUser (user : String) (s : Service) : Service :=
  setCatalog (fun c => { c with
    writerPrefixes := c.writerPrefixes.filter fun r => !(r.userId = user)
    submissions := c.submissions.filter fun r => !(r.userId = user)
    entries := c.entries.filter fun r => !(r.userId = user) })
    { s with rows := s.rows.filter fun r => !(r.userId = user) }

/-- `SELECT COUNT(*) FROM table WHERE user_id = ?` for every table. -/
def userRowCounts (user : String) (s : Service) : List (String × Nat) :=
  [("entries", s.world.catalog.entries.countP fun r => r.userId = user),
    ("decisions", s.world.catalog.decisions.countP fun r => r.userId = user),
    ("submissions", s.world.catalog.submissions.countP fun r => r.userId = user),
    ("service_submissions", s.rows.countP fun r => r.userId = user),
    ("writer_prefixes", s.world.catalog.writerPrefixes.countP fun r => r.userId = user)]

/-- `Path.exists` on the root of an area. -/
def rootExists (held : Loc → Bool) (a : Area) (s : Service) : Bool := held ⟨a, []⟩ || s.world.fs.disk.anyIn a

def assertUserRemoved (user : String) (held : Loc → Bool) : UserM Unit := do
  let s ← get
  match (s.userRowCounts user).find? fun row => row.2 ≠ 0 with
  | some (table, _) => throw (.runtimeError ("ctxfs delete_user left rows in " ++ table))
  | none =>
    if s.rootExists held (.users user) then throw (.runtimeError "ctxfs delete_user left tree files")
    else if s.rootExists held (.objects user) then throw (.runtimeError "ctxfs delete_user left object files")
    else return ()

/-- The body of `delete_user` up to the final check. -/
def eraseUser (user receipt : String) (held : Loc → Bool) : ServiceM DeletionResult := do
  let s ← get
  let rows := entryRowsForUser s.world.catalog user
  let decisionCount ← deleteDecisionsForUser user
  let queuedCount ← deleteQueuedSubmissionsForUser user
  let registrations := s.world.catalog.writerPrefixes.countP fun r => r.userId = user
  step (deleteRowsOfUser user)
  rmtree held (.users user)
  rmtree held (.objects user)
  let result := ⟨"user", user, none, none, some receipt, rows.length, decisionCount, queuedCount, registrations⟩
  recordDeletion result
  return result

def deleteUser (user receipt : String) (held : Loc → Bool) : UserM DeletionResult := do
  if receipt = "" then throw (.halt (.raised (.valueError "delete_user requires a receipt")))
  else do
    let result ← focus id (fun _ s => s) .halt (eraseUser user receipt held)
    assertUserRemoved user held
    return result

/-! ### What `shutil.rmtree` removes -/

section

variable {held : Loc → Bool} {a : Area} {s s' s'' : Service} {p q : TreePath}

/-- Nodes of the area were removed that are not held, and nothing else. -/
structure Swept (held : Loc → Bool) (a : Area) (s s' : Service) : Prop where
  same : s' = setDisk s'.world.fs.disk { s with crash := s'.crash }
  prunes : s.world.fs.disk.Prunes s'.world.fs.disk
  outside : ∀ l, l.area ≠ a → s'.world.fs.disk.node l = s.world.fs.disk.node l
  held : ∀ l, held l = true → s'.world.fs.disk.node l = s.world.fs.disk.node l
  crash : s.crash = none → s'.crash = none

private theorem Swept.refl (held : Loc → Bool) (a : Area) (s : Service) : Swept held a s s :=
  ⟨rfl, .refl _, fun _ _ => rfl, fun _ _ => rfl, id⟩

private theorem Swept.trans (h : Swept held a s s') (h' : Swept held a s' s'') : Swept held a s s'' := by
  refine ⟨?_, h.prunes.trans h'.prunes, fun l hl => (h'.outside l hl).trans (h.outside l hl),
    fun l hl => (h'.held l hl).trans (h.held l hl), h'.crash ∘ h.crash⟩
  have heq := h'.same
  rw [h.same] at heq
  exact heq

private theorem Swept.dies (h : Swept held a s s') {halt : ServiceHalt} (hd : s'.Dies halt) : s.Dies halt :=
  ⟨hd.1, fun hc => hd.2 (h.crash hc)⟩

private theorem Swept.isSome (h : Swept held a s s') {l : Loc} (hl : (s'.world.fs.disk.node l).isSome) :
    (s.world.fs.disk.node l).isSome := by
  rcases h.prunes.node l with e | e
  · rwa [e] at hl
  · rw [e] at hl
    cases hl

/-- What is left at a location and below it stands above something that is held. -/
def Cleaned (held : Loc → Bool) (a : Area) (p : TreePath) (s : Service) : Prop :=
  ∀ q, p <:+ q → (s.world.fs.disk.node ⟨a, q⟩).isSome →
    ∃ r, q <:+ r ∧ held ⟨a, r⟩ = true ∧ (s.world.fs.disk.node ⟨a, r⟩).isSome

private theorem Cleaned.swept (hc : Cleaned held a p s) (h : Swept held a s s') : Cleaned held a p s' := by
  intro q hq hsome
  obtain ⟨r, hr, hheld, hnode⟩ := hc q hq (h.isSome hsome)
  refine ⟨r, hr, hheld, ?_⟩
  rwa [h.held _ hheld]

private theorem cleaned_of_none (hwf : s.world.fs.disk.WF) (hp : s.world.fs.disk.node ⟨a, p⟩ = none) :
    Cleaned held a p s := by
  intro q hq hsome
  rw [hwf.below_none hp hq] at hsome
  cases hsome

/-- The entry itself is held, or it stands above something that is. -/
private theorem cleaned_of_children (hp : (s.world.fs.disk.node ⟨a, p⟩).isSome →
      ∃ r, p <:+ r ∧ held ⟨a, r⟩ = true ∧ (s.world.fs.disk.node ⟨a, r⟩).isSome)
    (hchildren : ∀ name, Cleaned held a (name :: p) s) : Cleaned held a p s := by
  intro q hq hsome
  by_cases hne : p = q
  · rw [← hne] at hsome ⊢
    exact hp hsome
  · obtain ⟨above, rfl⟩ := hq
    have hcons : above ≠ [] := by
      rintro rfl
      exact hne rfl
    refine hchildren (above.getLast hcons) _ ⟨above.dropLast, ?_⟩ hsome
    rw [← List.singleton_append, ← List.append_assoc, List.dropLast_append_getLast hcons]

/-- Before the call of an entry: it is what the call removes, if it succeeds. -/
private theorem ignoreErrors_spec {l : Loc} {call : Disk → Except Errno Disk} (hwf : s.world.fs.disk.WF)
    (hcall : ∀ d, call s.world.fs.disk = .ok d →
      l.path ≠ [] ∧ (∀ name, s.world.fs.disk.node ⟨l.area, name :: l.path⟩ = none) ∧ d = s.world.fs.disk.remove l) :
    Ends (ignoreErrors held l call)
      (fun _ s' => Swept held l.area s s' ∧ (s'.world.fs.disk.node l = none ∨
        s' = s ∧ (held l = true ∨ ∃ e, call s.world.fs.disk = .error e)))
      (fun h s' => s.Dies h ∧ Swept held l.area s s') s := by
  unfold ignoreErrors
  rw [ends_bind, ends_get]
  by_cases hheld : held l = true
  · rw [if_pos hheld]
    exact ⟨.refl _ _ s, .inr ⟨rfl, .inl hheld⟩⟩
  · rw [if_neg hheld]
    cases hok : call s.world.fs.disk with
    | error e => exact ⟨.refl _ _ s, .inr ⟨rfl, .inr ⟨e, rfl⟩⟩⟩
    | ok d =>
      obtain ⟨hl, hleaf, rfl⟩ := hcall d hok
      refine ends_step (fun hd => ⟨hd, .refl _ _ s⟩) fun c hc => ?_
      have hother : ∀ l', l' ≠ l → (s.world.fs.disk.remove l).node l' = s.world.fs.disk.node l' := fun l' hne => by
        rw [Disk.node_remove _ hl, if_neg hne]
      refine ⟨⟨rfl, hwf.prunes_remove hl hleaf, fun l' hne => hother l' ?_, fun l' hh => hother l' ?_, hc⟩, .inl ?_⟩
      · rintro rfl
        exact hne rfl
      · rintro rfl
        exact hheld hh
      · show (s.world.fs.disk.remove l).node l = none
        rw [Disk.node_remove _ hl, if_pos rfl]

/-- After the call of a file the file is gone or held. -/
private theorem unlinkIgnored_spec (hwf : s.world.fs.disk.WF) {data : ByteArray}
    (hfile : s.world.fs.disk.node ⟨a, p⟩ = some (.file data)) :
    Ends (ignoreErrors held ⟨a, p⟩ fun d => d.unlink ⟨a, p⟩) (fun _ s' => Swept held a s s' ∧ Cleaned held a p s')
      (fun h s' => s.Dies h ∧ Swept held a s s') s := by
  have hp : p ≠ [] := Disk.path_ne_nil_of_file (Disk.file_eq_some_iff.2 hfile)
  have hleaf := hwf.file_leaf hfile
  refine (ignoreErrors_spec hwf fun d hd => ?_).mono (fun _ s' h => ?_) (fun _ _ h => h)
  · rw [hwf.unlink_of_file hfile] at hd
    exact ⟨hp, hleaf, (Except.ok.inj hd).symm⟩
  · obtain ⟨hswept, hnone | ⟨rfl, hheld | ⟨e, he⟩⟩⟩ := h
    · exact ⟨hswept, cleaned_of_none (hswept.prunes.wf hwf) hnone⟩
    · refine ⟨hswept, cleaned_of_children (fun hsome => ⟨p, List.suffix_refl p, hheld, hsome⟩) fun name => ?_⟩
      exact cleaned_of_none hwf (hleaf name)
    · rw [hwf.unlink_of_file hfile] at he
      cases he

/-- After the call of a directory whose contents were removed, what is left stands above something held. -/
private theorem rmdirIgnored_spec (hwf : s.world.fs.disk.WF) (hp : p ≠ [])
    (hfile : ∀ data, s.world.fs.disk.node ⟨a, p⟩ ≠ some (.file data))
    (hchildren : ∀ name, Cleaned held a (name :: p) s) :
    Ends (ignoreErrors held ⟨a, p⟩ fun d => d.rmdir ⟨a, p⟩) (fun _ s' => Swept held a s s' ∧ Cleaned held a p s')
      (fun h s' => s.Dies h ∧ Swept held a s s') s := by
  refine (ignoreErrors_spec hwf fun d hd => ?_).mono (fun _ s' h => ?_) (fun _ _ h => h)
  · obtain ⟨hne, -, hleaf, hd⟩ := hwf.rmdir_ok hd
    exact ⟨hne, hleaf, hd⟩
  · obtain ⟨hswept, hnone | ⟨rfl, hheld | ⟨e, he⟩⟩⟩ := h
    · exact ⟨hswept, cleaned_of_none (hswept.prunes.wf hwf) hnone⟩
    · exact ⟨hswept, cleaned_of_children (fun hsome => ⟨p, List.suffix_refl p, hheld, hsome⟩) hchildren⟩
    · refine ⟨hswept, cleaned_of_children (fun hsome => ?_) hchildren⟩
      obtain ⟨n, hn⟩ := Option.isSome_iff_exists.1 hsome
      -- a directory that cannot be removed has an entry left, and below that something is held
      have hentry : ∃ name, (s'.world.fs.disk.node ⟨a, name :: p⟩).isSome := by
        by_contra hempty
        have hdir : s'.world.fs.disk.node ⟨a, p⟩ = some .dir := by
          cases n with
          | dir => exact hn
          | file data => exact absurd hn (hfile data)
        rw [hwf.rmdir_of_empty (l := ⟨a, p⟩) hp hdir fun name => ?_] at he
        · cases he
        · rw [← Option.not_isSome_iff_eq_none]
          exact fun h => hempty ⟨name, h⟩
      obtain ⟨name, hname⟩ := hentry
      obtain ⟨r, hr, hheld, hnode⟩ := hchildren name _ (List.suffix_refl _) hname
      exact ⟨r, (List.suffix_cons name p).trans hr, hheld, hnode⟩

/-- No node below the location is deeper than this. -/
def Within (a : Area) (p : TreePath) (depth : Nat) (s : Service) : Prop :=
  ∀ q, p <:+ q → (s.world.fs.disk.node ⟨a, q⟩).isSome → q.length ≤ p.length + depth

private theorem Within.swept {depth : Nat} (h : Within a p depth s) (hs : Swept held a s s') : Within a p depth s' :=
  fun q hq hsome => h q hq (hs.isSome hsome)

private theorem Within.child {depth : Nat} (h : Within a p (depth + 1) s) (name : String) :
    Within a (name :: p) depth s := by
  intro q hq hsome
  have hlength := h q ((List.suffix_cons name p).trans hq) hsome
  rw [List.length_cons]
  omega

private theorem rmtreeBelow_spec (held : Loc → Bool) (a : Area) (depth : Nat) (p : TreePath) (hwf : s.world.fs.disk.WF)
    (hdepth : Within a p depth s) :
    Ends (rmtreeBelow held a depth p) (fun _ s' => Swept held a s s' ∧ ∀ name, Cleaned held a (name :: p) s')
      (fun h s' => s.Dies h ∧ Swept held a s s') s := by
  induction depth generalizing p s with
  | zero =>
    refine ⟨.refl _ _ s, fun name q hq hsome => ?_⟩
    have hlength := hdepth q ((List.suffix_cons name p).trans hq) hsome
    have hlonger := hq.length_le
    rw [List.length_cons] at hlonger
    omega
  | succ depth ih =>
    unfold rmtreeBelow
    rw [ends_bind, ends_get]
    refine (Ends.forM (I := fun done s' => Swept held a s s' ∧ ∀ name ∈ done, Cleaned held a (name :: p) s') _ ?_
      ⟨.refl _ _ s, by simp⟩).mono (fun _ s' h => ?_) (fun _ _ h => h)
    · rintro done name rest - s1 ⟨hswept, hdone⟩
      rw [ends_bind, ends_get]
      have hwf1 := hswept.prunes.wf hwf
      have hlast : ∀ s2, Swept held a s1 s2 ∧ Cleaned held a (name :: p) s2 →
          Swept held a s s2 ∧ ∀ x ∈ done ++ [name], Cleaned held a (x :: p) s2 := by
        rintro s2 ⟨h12, hname⟩
        refine ⟨hswept.trans h12, fun x hx => ?_⟩
        rcases List.mem_append.1 hx with hx | hx
        · exact (hdone x hx).swept h12
        · rw [List.mem_singleton.1 hx]
          exact hname
      have hbefore : ∀ h s2, s1.Dies h ∧ Swept held a s1 s2 → s.Dies h ∧ Swept held a s s2 :=
        fun h s2 hd => ⟨hswept.dies hd.1, hswept.trans hd.2⟩
      have hsubtree : (∀ data, s1.world.fs.disk.node ⟨a, name :: p⟩ ≠ some (.file data)) →
          Ends (rmtreeBelow held a depth (name :: p) >>= fun _ =>
              ignoreErrors held ⟨a, name :: p⟩ fun d => d.rmdir ⟨a, name :: p⟩)
            (fun _ s2 => Swept held a s s2 ∧ ∀ x ∈ done ++ [name], Cleaned held a (x :: p) s2)
            (fun h s2 => s.Dies h ∧ Swept held a s s2) s1 := by
        intro hfile
        rw [ends_bind]
        refine (ih (name :: p) hwf1 ((hdepth.swept hswept).child name)).mono (fun _ s2 h2 => ?_) hbefore
        obtain ⟨h12, hbelow⟩ := h2
        have hdir : ∀ data, s2.world.fs.disk.node ⟨a, name :: p⟩ ≠ some (.file data) := by
          intro data hdata
          rcases h12.prunes.node ⟨a, name :: p⟩ with e | e
          · exact hfile data (e.symm.trans hdata)
          · rw [e] at hdata
            cases hdata
        refine (rmdirIgnored_spec (h12.prunes.wf hwf1) (List.cons_ne_nil _ _) hdir hbelow).mono (fun _ s3 h3 => ?_)
          (fun h s3 h3 => ?_)
        · exact hlast s3 ⟨h12.trans h3.1, h3.2⟩
        · exact hbefore h s3 ⟨h12.dies h3.1, h12.trans h3.2⟩
      cases hnode : s1.world.fs.disk.node ⟨a, name :: p⟩ with
      | none => exact hsubtree fun data hdata => by rw [hnode] at hdata; cases hdata
      | some n =>
        cases n with
        | dir => exact hsubtree fun data hdata => by rw [hnode] at hdata; cases hdata
        | file data => exact (unlinkIgnored_spec hwf1 hnode).mono (fun _ s2 h2 => hlast s2 h2) hbefore
    · obtain ⟨hswept, hall⟩ := h
      refine ⟨hswept, fun name q hq hsome => ?_⟩
      have hname : (s.world.fs.disk.node ⟨a, name :: p⟩).isSome := by
        by_contra hnone
        rw [Option.not_isSome_iff_eq_none] at hnone
        have hsome := hswept.isSome hsome
        rw [hwf.below_none hnone hq] at hsome
        cases hsome
      exact hall name (Disk.mem_names.2 hname) q hq hsome

/-- What `shutil.rmtree` leaves stands above something that is held. -/
private theorem rmtree_spec (held : Loc → Bool) (a : Area) (hwf : s.world.fs.disk.WF) :
    Ends (rmtree held a) (fun _ s' => Swept held a s s' ∧ ∀ name, Cleaned held a [name] s')
      (fun h s' => s.Dies h ∧ Swept held a s s') s := by
  unfold rmtree
  rw [ends_bind, ends_get]
  refine rmtreeBelow_spec held a _ [] hwf fun q _ hsome => ?_
  rw [List.length_nil, Nat.zero_add]
  exact Disk.length_le_depth hsome

end

/-! ### What is left of the user and of others -/

/-- Rows of one owner are gone, and nothing else. -/
structure Trimmed {α : Type} (owner : α → String) (user : String) (rows rows' : List α) : Prop where
  sublist : rows'.Sublist rows
  others : rows'.filter (fun r => !(owner r = user)) = rows.filter fun r => !(owner r = user)

namespace Trimmed

variable {α : Type} {owner : α → String} {user : String} {rows rows' rows'' : List α}

private theorem refl (owner : α → String) (user : String) (rows : List α) :
    Trimmed owner user rows rows := ⟨.refl _, rfl⟩

private theorem trans (h : Trimmed owner user rows rows') (h' : Trimmed owner user rows' rows'') :
    Trimmed owner user rows rows'' :=
  ⟨h'.sublist.trans h.sublist, h'.others.trans h.others⟩

private theorem filter {keep : α → Bool} (hkeep : ∀ r, owner r ≠ user → keep r = true) (rows : List α) :
    Trimmed owner user rows (rows.filter keep) := by
  refine ⟨List.filter_sublist, ?_⟩
  rw [List.filter_filter]
  refine List.filter_congr fun r _ => ?_
  by_cases hr : owner r = user
  · simp [hr]
  · simp [hr, hkeep r hr]

private theorem countP_eq_zero (h : Trimmed owner user rows rows') {p : α → Bool} (hrows : rows.countP p = 0) :
    rows'.countP p = 0 :=
  Nat.eq_zero_of_le_zero (hrows ▸ h.sublist.countP_le)

end Trimmed

section

variable {user receipt : String} {held : Loc → Bool} {a : Area} {s s' s'' : Service}

/-- What other users have is as it was, and the user has got nothing. -/
structure SparesOthers (user : String) (s s' : Service) : Prop where
  entries : Trimmed Entry.userId user s.world.catalog.entries s'.world.catalog.entries
  decisions : Trimmed Decision.userId user s.world.catalog.decisions s'.world.catalog.decisions
  submissions : Trimmed SubmissionRow.userId user s.world.catalog.submissions s'.world.catalog.submissions
  writerPrefixes : Trimmed WriterPrefix.userId user s.world.catalog.writerPrefixes s'.world.catalog.writerPrefixes
  rows : Trimmed ServiceRow.userId user s.rows s'.rows
  prunes : s.world.fs.disk.Prunes s'.world.fs.disk
  node : ∀ l, l.area ≠ .users user → l.area ≠ .objects user → s'.world.fs.disk.node l = s.world.fs.disk.node l

private theorem SparesOthers.trans (h : SparesOthers user s s') (h' : SparesOthers user s' s'') :
    SparesOthers user s s'' :=
  ⟨h.entries.trans h'.entries, h.decisions.trans h'.decisions, h.submissions.trans h'.submissions,
    h.writerPrefixes.trans h'.writerPrefixes, h.rows.trans h'.rows, h.prunes.trans h'.prunes,
    fun l hu ho => (h'.node l hu ho).trans (h.node l hu ho)⟩

/-- The same, and the process is not to die later unless it was before. -/
structure Spares (user : String) (s s' : Service) : Prop extends SparesOthers user s s' where
  crash : s.crash = none → s'.crash = none

private theorem Spares.trans (h : Spares user s s') (h' : Spares user s' s'') : Spares user s s'' :=
  ⟨h.toSparesOthers.trans h'.toSparesOthers, h'.crash ∘ h.crash⟩

/-- A change of the rows that leaves the disk alone. -/
private theorem spares_of_disk (hdisk : s'.world.fs.disk = s.world.fs.disk)
    (hentries : Trimmed Entry.userId user s.world.catalog.entries s'.world.catalog.entries)
    (hdecisions : Trimmed Decision.userId user s.world.catalog.decisions s'.world.catalog.decisions)
    (hsubmissions : Trimmed SubmissionRow.userId user s.world.catalog.submissions s'.world.catalog.submissions)
    (hprefixes : Trimmed WriterPrefix.userId user s.world.catalog.writerPrefixes s'.world.catalog.writerPrefixes)
    (hrows : Trimmed ServiceRow.userId user s.rows s'.rows) (hcrash : s.crash = none → s'.crash = none) :
    Spares user s s' :=
  ⟨⟨hentries, hdecisions, hsubmissions, hprefixes, hrows, hdisk ▸ .refl _, fun _ _ _ => by rw [hdisk]⟩, hcrash⟩

private theorem Spares.refl (user : String) (s : Service) : Spares user s s :=
  spares_of_disk rfl (.refl ..) (.refl ..) (.refl ..) (.refl ..) (.refl ..) id

/-- When the process is to die does not matter for the others. -/
private theorem sparesOthers_crash (user : String) (c : Option Nat) (s : Service) :
    SparesOthers user s { s with crash := c } :=
  ⟨.refl .., .refl .., .refl .., .refl .., .refl .., .refl _, fun _ _ _ => rfl⟩

private theorem Swept.spares (h : Swept held a s s') (ha : a = .users user ∨ a = .objects user) : Spares user s s' := by
  have hcatalog : s'.world.catalog = s.world.catalog := by rw [h.same]; rfl
  have hrows : s'.rows = s.rows := by rw [h.same]; rfl
  refine ⟨⟨?_, ?_, ?_, ?_, ?_, h.prunes, fun l hu ho => h.outside l ?_⟩, h.crash⟩
  all_goals try rw [hcatalog]
  all_goals try rw [hrows]
  all_goals try exact .refl ..
  rintro rfl
  rcases ha with ha | ha
  · exact hu ha
  · exact ho ha

def NoRows (user : String) (s : Service) : Prop := ∀ row ∈ s.userRowCounts user, row.2 = 0

private theorem noRows_iff : s.NoRows user ↔ s.world.catalog.entries.countP (fun r => r.userId = user) = 0 ∧
    s.world.catalog.decisions.countP (fun r => r.userId = user) = 0 ∧
    s.world.catalog.submissions.countP (fun r => r.userId = user) = 0 ∧
    s.rows.countP (fun r => r.userId = user) = 0 ∧
    s.world.catalog.writerPrefixes.countP (fun r => r.userId = user) = 0 := by
  unfold NoRows userRowCounts
  simp only [List.forall_mem_cons, List.not_mem_nil, false_implies, implies_true, and_true]

private theorem SparesOthers.noRows (h : SparesOthers user s s') (hs : s.NoRows user) : s'.NoRows user := by
  rw [noRows_iff] at hs ⊢
  obtain ⟨hentries, hdecisions, hsubmissions, hrows, hprefixes⟩ := hs
  exact ⟨h.entries.countP_eq_zero hentries, h.decisions.countP_eq_zero hdecisions,
    h.submissions.countP_eq_zero hsubmissions, h.rows.countP_eq_zero hrows, h.writerPrefixes.countP_eq_zero hprefixes⟩

/-- No row and no file of the user is left. -/
structure Removed (user : String) (s : Service) : Prop where
  rows : s.NoRows user
  files : ∀ l, l.area = .users user ∨ l.area = .objects user → l.path ≠ [] → s.world.fs.disk.node l = none

private theorem SparesOthers.removed (h : SparesOthers user s s') (hs : s.Removed user) : s'.Removed user := by
  refine ⟨h.noRows hs.rows, fun l hl hne => ?_⟩
  rcases h.prunes.node l with e | e
  · exact e.trans (hs.files l hl hne)
  · exact e

/-- Something that is there is held, the root or what is below it. -/
def blocked (held : Loc → Bool) (a : Area) (s : Service) : Bool :=
  held ⟨a, []⟩ || s.world.fs.disk.nodes.any fun item => item.1.area = a && item.1.path ≠ [] && held item.1

private theorem blocked_iff : s.blocked held a = true ↔ ∃ p, held ⟨a, p⟩ = true ∧
    (s.world.fs.disk.node ⟨a, p⟩).isSome := by
  unfold blocked
  rw [Bool.or_eq_true, List.any_eq_true]
  constructor
  · rintro (hroot | ⟨item, hmem, h⟩)
    · exact ⟨[], hroot, rfl⟩
    · simp only [Bool.and_eq_true, decide_eq_true_eq] at h
      obtain ⟨⟨rfl, hne⟩, hheld⟩ := h
      exact ⟨item.1.path, hheld, (Disk.isSome_node_iff hne).2 ⟨item, hmem, rfl⟩⟩
  · rintro ⟨p, hheld, hsome⟩
    by_cases hne : p = []
    · rw [hne] at hheld
      exact .inl hheld
    · obtain ⟨item, hmem, hitem⟩ := (Disk.isSome_node_iff (l := ⟨a, p⟩) hne).1 hsome
      refine .inr ⟨item, hmem, ?_⟩
      rw [hitem]
      simp [hne, hheld]

private theorem rootExists_iff : s.rootExists held a = true ↔
    held ⟨a, []⟩ = true ∨ ∃ p, p ≠ [] ∧ (s.world.fs.disk.node ⟨a, p⟩).isSome := by
  unfold rootExists
  rw [Bool.or_eq_true, Disk.anyIn_iff]

/-- After `shutil.rmtree` the root exists if and only if something was held before. -/
private theorem Swept.rootExists_eq (h : Swept held a s s') (hclean : ∀ name, Cleaned held a [name] s') :
    s'.rootExists held a = s.blocked held a := by
  rw [Bool.eq_iff_iff, rootExists_iff, blocked_iff]
  constructor
  · rintro (hroot | ⟨p, hne, hsome⟩)
    · exact ⟨[], hroot, rfl⟩
    · obtain ⟨r, -, hheld, hnode⟩ := hclean (p.getLast hne) p ⟨p.dropLast, List.dropLast_append_getLast hne⟩ hsome
      exact ⟨r, hheld, h.isSome hnode⟩
  · rintro ⟨p, hheld, hsome⟩
    by_cases hne : p = []
    · rw [hne] at hheld
      exact .inl hheld
    · refine .inr ⟨p, hne, ?_⟩
      rwa [h.held _ hheld]

private theorem rootExists_congr (h : ∀ p, s'.world.fs.disk.node ⟨a, p⟩ = s.world.fs.disk.node ⟨a, p⟩) :
    s'.rootExists held a = s.rootExists held a := by
  rw [Bool.eq_iff_iff, rootExists_iff, rootExists_iff]
  simp only [h]

private theorem blocked_congr (h : ∀ p, s'.world.fs.disk.node ⟨a, p⟩ = s.world.fs.disk.node ⟨a, p⟩) :
    s'.blocked held a = s.blocked held a := by
  rw [Bool.eq_iff_iff, blocked_iff, blocked_iff]
  simp only [h]

end

/-! ### How a call ends -/

section

variable {user receipt : String} {held : Loc → Bool} {s s' : Service}

/-- The result of a call that starts in this service. -/
def deletionOf (user receipt : String) (s : Service) : DeletionResult where
  scope := "user"
  userId := user
  writerId := none
  prefixPath := none
  receipt := some receipt
  entryCount := s.world.catalog.entries.countP fun r => r.userId = user
  decisionCount := s.world.catalog.decisions.countP fun r => r.userId = user
  queuedSubmissionCount := s.rows.countP fun r => r.userId = user && isQueued r
  writerRegistrationCount := s.world.catalog.writerPrefixes.countP fun r => r.userId = user

private theorem length_entryRowsForUser (c : Catalog) (user : String) :
    (entryRowsForUser c user).length = c.entries.countP fun r => r.userId = user := by
  unfold entryRowsForUser byPath
  rw [List.length_mergeSort, List.countP_eq_length_filter]

/-- A step that takes rows of the user. -/
private theorem spares_step {u : Service → Service} (hu : ∀ s, Spares user s (u s)) {Q : PUnit → Service → Prop}
    {E : ServiceHalt → Service → Prop} (hdies : s.Dies .crashed → E .crashed s)
    (hstep : ∀ c, Spares user s (u { s with crash := c }) → Q ⟨⟩ (u { s with crash := c })) :
    Ends (step u) Q E s := by
  refine ends_step hdies fun c hc => hstep c ?_
  have hcrash : Spares user s { s with crash := c } :=
    spares_of_disk rfl (.refl ..) (.refl ..) (.refl ..) (.refl ..) (.refl ..) hc
  exact hcrash.trans (hu _)

private theorem countP_filter_not {α : Type} (p : α → Bool) (rows : List α) :
    (rows.filter fun r => !p r).countP p = 0 := by
  rw [List.countP_eq_zero]
  intro r hr
  simpa using (List.mem_filter.1 hr).2

private theorem deleteDecisionsForUser_spec (user : String) (s : Service) :
    Ends (deleteDecisionsForUser user)
      (fun n s' => n = s.world.catalog.decisions.countP (fun r => r.userId = user) ∧ Spares user s s' ∧
        s'.world.catalog.decisions.countP (fun r => r.userId = user) = 0 ∧
        s'.world.catalog.entries = s.world.catalog.entries ∧
        s'.world.catalog.writerPrefixes = s.world.catalog.writerPrefixes ∧ s'.rows = s.rows ∧ s'.world.fs = s.world.fs)
      (fun h s' => s.Dies h ∧ Spares user s s') s := by
  have hspares : ∀ s, Spares user s (setCatalog (deleteDecisions fun r => r.userId = user) s) := fun s =>
    spares_of_disk rfl (.refl ..) (.filter (fun r hr => by simp [hr]) _) (.refl ..) (.refl ..) (.refl ..) id
  unfold deleteDecisionsForUser deleteDecisionsIn
  rw [ends_bind, ends_get, ends_bind]
  refine spares_step hspares (fun hd => ⟨hd, .refl user s⟩) fun c h => ?_
  exact ⟨List.countP_eq_length_filter.symm, h, countP_filter_not _ _, rfl, rfl, rfl, rfl⟩

private theorem deleteQueuedSubmissionsForUser_spec (user : String) (s : Service) :
    Ends (deleteQueuedSubmissionsForUser user)
      (fun n s' => n = s.rows.countP (fun r => r.userId = user && isQueued r) ∧ Spares user s s' ∧
        s'.world = s.world)
      (fun h s' => s.Dies h ∧ Spares user s s') s := by
  have hspares : ∀ s : Service,
      Spares user s { s with rows := s.rows.filter fun r => !(r.userId = user && isQueued r) } := fun s =>
    spares_of_disk rfl (.refl ..) (.refl ..) (.refl ..) (.refl ..) (.filter (fun r hr => by simp [hr]) _) id
  unfold deleteQueuedSubmissionsForUser
  rw [ends_bind, ends_get, ends_bind]
  refine spares_step hspares (fun hd => ⟨hd, .refl user s⟩) fun c h => ?_
  exact ⟨List.countP_eq_length_filter.symm, h, rfl⟩

/-- The last transaction leaves no row, when the decisions are gone before. -/
private theorem deleteRowsOfUser_spec (h : s.world.catalog.decisions.countP (fun r => r.userId = user) = 0) :
    Ends (step (deleteRowsOfUser user))
      (fun _ s' => Spares user s s' ∧ s'.NoRows user ∧ s'.world.fs = s.world.fs)
      (fun h s' => s.Dies h ∧ Spares user s s') s := by
  have hspares : ∀ s, Spares user s (deleteRowsOfUser user s) := fun s =>
    spares_of_disk rfl (.filter (fun r hr => by simp [hr]) _) (.refl ..) (.filter (fun r hr => by simp [hr]) _)
      (.filter (fun r hr => by simp [hr]) _) (.filter (fun r hr => by simp [hr]) _) id
  refine spares_step hspares (fun hd => ⟨hd, .refl user s⟩) fun c hsame => ?_
  have hnone : NoRows user (deleteRowsOfUser user { s with crash := c }) := by
    rw [noRows_iff]
    exact ⟨countP_filter_not _ _, h, countP_filter_not _ _, countP_filter_not _ _, countP_filter_not _ _⟩
  exact ⟨hsame, hnone, rfl⟩

/-- The record of a deletion does not change the store. -/
private theorem recordDeletion_spares (result : DeletionResult) (s : Service) :
    Ends (recordDeletion result) (fun _ s' => Spares user s s' ∧ s'.world.fs.disk = s.world.fs.disk)
      (fun h s' => s.Dies h ∧ Spares user s s') s := by
  have hsame : ∀ s' : Service, s'.world.catalog = s.world.catalog → s'.rows = s.rows → s'.world.fs = s.world.fs →
      (s.crash = none → s'.crash = none) → Spares user s s' := by
    intro s' hcatalog hrows hfs hcrash
    refine spares_of_disk (by rw [hfs]) ?_ ?_ ?_ ?_ ?_ hcrash
    all_goals try rw [hcatalog]
    all_goals try rw [hrows]
    all_goals exact .refl ..
  unfold recordDeletion
  rw [ends_bind, ends_draw, ends_bind, ends_time]
  refine ends_step (fun hd => ⟨hd, hsame _ rfl rfl rfl id⟩) fun c hc => ?_
  exact ⟨hsame _ rfl rfl rfl hc, rfl⟩

/-- What `delete_user` does when the rows are gone. -/
private theorem eraseFiles_spec (user : String) (result : DeletionResult) (held : Loc → Bool)
    (hwf : s.world.fs.disk.WF) :
    Ends (do
        rmtree held (.users user)
        rmtree held (.objects user)
        recordDeletion result
        return result)
      (fun result' s' => result' = result ∧ Spares user s s' ∧
        s'.rootExists held (.users user) = s.blocked held (.users user) ∧
        s'.rootExists held (.objects user) = s.blocked held (.objects user))
      (fun h s' => s.Dies h ∧ Spares user s s') s := by
  have hareas : Area.users user ≠ .objects user := fun h => by cases h
  rw [ends_bind]
  refine (rmtree_spec held _ hwf).mono (fun _ s1 h1 => ?_) fun _ _ h => ⟨h.1, h.2.spares (.inl rfl)⟩
  obtain ⟨hswept1, hclean1⟩ := h1
  have h01 : Spares user s s1 := hswept1.spares (.inl rfl)
  rw [ends_bind]
  refine (rmtree_spec held _ (h01.prunes.wf hwf)).mono (fun _ s2 h2 => ?_)
    fun _ _ h => ⟨hswept1.dies h.1, h01.trans (h.2.spares (.inr rfl))⟩
  obtain ⟨hswept2, hclean2⟩ := h2
  have h02 : Spares user s s2 := h01.trans (hswept2.spares (.inr rfl))
  rw [ends_bind]
  refine (recordDeletion_spares result s2).mono (fun _ s3 h3 => ?_)
    fun _ _ h => ⟨hswept1.dies (hswept2.dies h.1), h02.trans h.2⟩
  obtain ⟨h23, hdisk⟩ := h3
  refine ⟨rfl, h02.trans h23, ?_, ?_⟩
  · rw [rootExists_congr (s := s1) fun p => ?_, hswept1.rootExists_eq hclean1]
    rw [hdisk]
    exact hswept2.outside _ hareas
  · rw [rootExists_congr (s := s2) fun p => by rw [hdisk], hswept2.rootExists_eq hclean2]
    exact blocked_congr fun p => hswept1.outside _ hareas.symm

private theorem Spares.dies (h : Spares user s s') {halt : ServiceHalt} (hd : s'.Dies halt) : s.Dies halt :=
  ⟨hd.1, fun hc => hd.2 (h.crash hc)⟩

private theorem eraseUser_spec (user receipt : String) (held : Loc → Bool) (hwf : s.world.fs.disk.WF) :
    Ends (eraseUser user receipt held)
      (fun result s' => result = s.deletionOf user receipt ∧ Spares user s s' ∧ s'.NoRows user ∧
        s'.rootExists held (.users user) = s.blocked held (.users user) ∧
        s'.rootExists held (.objects user) = s.blocked held (.objects user))
      (fun h s' => s.Dies h ∧ Spares user s s') s := by
  unfold eraseUser
  rw [ends_bind, ends_get, ends_bind]
  refine (deleteDecisionsForUser_spec user s).mono (fun decisions s1 h1 => ?_) fun _ _ h => h
  obtain ⟨hdecisions, h01, hnone, hentries1, hprefixes1, hrows1, hfs1⟩ := h1
  rw [ends_bind]
  refine (deleteQueuedSubmissionsForUser_spec user s1).mono (fun queued s2 h2 => ?_)
    fun _ _ h => ⟨h01.dies h.1, h01.trans h.2⟩
  obtain ⟨hqueued, h12, hworld2⟩ := h2
  have h02 := h01.trans h12
  rw [ends_bind]
  refine (deleteRowsOfUser_spec (by rw [hworld2]; exact hnone)).mono (fun _ s3 h3 => ?_)
    fun _ _ h => ⟨h02.dies h.1, h02.trans h.2⟩
  obtain ⟨h23, hnorows, hfs3⟩ := h3
  have h03 := h02.trans h23
  have hdisk : s3.world.fs.disk = s.world.fs.disk := by rw [hfs3, hworld2, hfs1]
  refine (eraseFiles_spec user _ held (h03.prunes.wf hwf)).mono (fun result s4 h4 => ?_)
    fun _ _ h => ⟨h03.dies h.1, h03.trans h.2⟩
  obtain ⟨hresult, h34, htree, hobjects⟩ := h4
  refine ⟨?_, h03.trans h34, h34.noRows hnorows, ?_, ?_⟩
  · rw [hresult, hdecisions, hqueued, hrows1, length_entryRowsForUser]
    rfl
  · rw [htree]
    exact blocked_congr fun p => by rw [hdisk]
  · rw [hobjects]
    exact blocked_congr fun p => by rw [hdisk]

/-- What `_assert_user_removed` finds when no row is left. -/
private theorem assertUserRemoved_spec (held : Loc → Bool) (hrows : s.NoRows user) :
    Ends (assertUserRemoved user held)
      (fun _ s' => s' = s ∧ s.rootExists held (.users user) = false ∧ s.rootExists held (.objects user) = false)
      (fun h s' => s' = s ∧
        (s.rootExists held (.users user) = true ∧ h = .runtimeError "ctxfs delete_user left tree files" ∨
          s.rootExists held (.users user) = false ∧ s.rootExists held (.objects user) = true ∧
            h = .runtimeError "ctxfs delete_user left object files")) s := by
  have hfind : (s.userRowCounts user).find? (fun row => row.2 ≠ 0) = none := by
    rw [List.find?_eq_none]
    intro row hrow
    simp [hrows row hrow]
  unfold assertUserRemoved
  rw [ends_bind, ends_get, hfind]
  dsimp only
  by_cases htree : s.rootExists held (.users user) = true
  · rw [if_pos htree]
    exact ⟨rfl, .inl ⟨htree, rfl⟩⟩
  · rw [if_neg htree]
    rw [Bool.not_eq_true] at htree
    by_cases hobjects : s.rootExists held (.objects user) = true
    · rw [if_pos hobjects]
      exact ⟨rfl, .inr ⟨htree, hobjects, rfl⟩⟩
    · rw [if_neg hobjects]
      exact ⟨rfl, htree, by simpa using hobjects⟩

/-- How a call ends that does not die, if it leaves the service `s'`. -/
def verdict (user receipt : String) (held : Loc → Bool) (s s' : Service) :
    EStateM.Result UserHalt Service DeletionResult :=
  if s.blocked held (.users user) then .error (.runtimeError "ctxfs delete_user left tree files") s'
  else if s.blocked held (.objects user) then .error (.runtimeError "ctxfs delete_user left object files") s'
  else .ok (s.deletionOf user receipt) s'

/-- When neither root is there, no file is. -/
private theorem removed_of_roots (hrows : s.NoRows user) (htree : s.rootExists held (.users user) = false)
    (hobjects : s.rootExists held (.objects user) = false) : s.Removed user := by
  refine ⟨hrows, fun l hl hne => ?_⟩
  rw [← Option.not_isSome_iff_eq_none]
  intro hsome
  have hroot : s.rootExists held l.area = true := rootExists_iff.2 (.inr ⟨l.path, hne, hsome⟩)
  rcases hl with hl | hl
  · rw [hl, htree] at hroot
    cases hroot
  · rw [hl, hobjects] at hroot
    cases hroot

/-- A call dies, if it is to, or it has deleted the rows of the user and tells what is left of the files. -/
private theorem deleteUser_ends (user : String) (hreceipt : receipt ≠ "") (held : Loc → Bool)
    (hwf : s.world.fs.disk.WF) :
    Ends (deleteUser user receipt held)
      (fun result s' => result = s.deletionOf user receipt ∧ Spares user s s' ∧ s'.Removed user ∧
        s.blocked held (.users user) = false ∧ s.blocked held (.objects user) = false)
      (fun h s' => Spares user s s' ∧ (s.Dies .crashed ∨ s'.NoRows user ∧
        (s.blocked held (.users user) = true ∧ h = .runtimeError "ctxfs delete_user left tree files" ∨
          s.blocked held (.users user) = false ∧ s.blocked held (.objects user) = true ∧
            h = .runtimeError "ctxfs delete_user left object files"))) s := by
  unfold deleteUser
  rw [if_neg hreceipt, ends_bind, ends_focus]
  refine (eraseUser_spec user receipt held hwf).mono (fun result s1 h1 => ?_) (fun h s1 h1 => ?_)
  · obtain ⟨hresult, h01, hrows, htree, hobjects⟩ := h1
    rw [ends_bind]
    refine (assertUserRemoved_spec held hrows).mono (fun _ s2 h2 => ?_) (fun h s2 h2 => ?_)
    · obtain ⟨rfl, hnotree, hnoobjects⟩ := h2
      exact ⟨hresult, h01, removed_of_roots hrows hnotree hnoobjects, htree ▸ hnotree, hobjects ▸ hnoobjects⟩
    · obtain ⟨rfl, hleft⟩ := h2
      rw [htree, hobjects] at hleft
      exact ⟨h01, .inr ⟨hrows, hleft⟩⟩
  · obtain ⟨⟨rfl, hc⟩, h01⟩ := h1
    exact ⟨h01, .inl ⟨rfl, hc⟩⟩

/-- A call that does not die has deleted the rows of the user, and its verdict is about the files. -/
private theorem deleteUser_verdict (user : String) (hreceipt : receipt ≠ "") (held : Loc → Bool)
    (hwf : s.world.fs.disk.WF) (hcrash : s.crash = none) :
    ∃ s', deleteUser user receipt held s = verdict user receipt held s s' ∧ SparesOthers user s s' ∧ s'.NoRows user ∧
      (s.blocked held (.users user) = false → s.blocked held (.objects user) = false → s'.Removed user) := by
  have hends := deleteUser_ends user hreceipt held hwf
  unfold verdict
  cases hrun : deleteUser user receipt held s with
  | ok result s' =>
    obtain ⟨rfl, hspares, hremoved, htree, hobjects⟩ := hends.of_ok hrun
    refine ⟨s', ?_, hspares.toSparesOthers, hremoved.rows, fun _ _ => hremoved⟩
    rw [htree, hobjects]
    rfl
  | error h s' =>
    obtain ⟨hspares, hdies | ⟨hrows, ⟨htree, rfl⟩ | ⟨htree, hobjects, rfl⟩⟩⟩ := hends.of_error hrun
    · exact absurd hcrash hdies.2
    · refine ⟨s', ?_, hspares.toSparesOthers, hrows, fun hfree => ?_⟩
      · rw [htree]
        rfl
      · rw [htree] at hfree
        cases hfree
    · refine ⟨s', ?_, hspares.toSparesOthers, hrows, fun _ hfree => ?_⟩
      · rw [htree, hobjects]
        rfl
      · rw [hobjects] at hfree
        cases hfree

/-! ### Calls that are run again and again -/

/-- A call with its receipt; it dies after so many steps, if it is to, and cannot remove what is held. -/
structure Attempt where
  receipt : String
  crash : Option Nat
  held : Loc → Bool

def Attempt.start (t : Attempt) (s : Service) : Service := { s with crash := t.crash }

def Attempt.call (user : String) (t : Attempt) : UserM DeletionResult := deleteUser user t.receipt t.held

/-- What the calls leave, however they end. -/
def attempted (user : String) (attempts : List Attempt) (s : Service) : Service :=
  attempts.foldl (fun s t => endState (t.call user) (t.start s)) s

/-- However the call ends, it spares the others. -/
private theorem Attempt.spares (user : String) (t : Attempt) (hwf : s.world.fs.disk.WF) :
    SparesOthers user s (endState (t.call user) (t.start s)) := by
  have hstart : SparesOthers user s (t.start s) := sparesOthers_crash user t.crash s
  by_cases hreceipt : t.receipt = ""
  · unfold Attempt.call deleteUser
    rw [if_pos hreceipt]
    exact hstart
  · have hends := deleteUser_ends (s := t.start s) user hreceipt t.held hwf
    refine hstart.trans (Ends.endState (P := fun s' => SparesOthers user (t.start s) s') ?_)
    exact hends.mono (fun _ _ h => h.2.1.toSparesOthers) fun _ _ h => h.1.toSparesOthers

/-- A call that returns has removed the user. -/
private theorem Attempt.removed (t : Attempt) (hwf : s.world.fs.disk.WF) {result : DeletionResult}
    (hrun : t.call user (t.start s) = .ok result s') : s'.Removed user := by
  by_cases hreceipt : t.receipt = ""
  · unfold Attempt.call deleteUser at hrun
    rw [if_pos hreceipt] at hrun
    cases hrun
  · have hends := deleteUser_ends (s := t.start s) user hreceipt t.held hwf
    exact (hends.of_ok hrun).2.2.1

private theorem attempted_append (user : String) (earlier later : List Attempt) (s : Service) :
    attempted user (earlier ++ later) s = attempted user later (attempted user earlier s) := List.foldl_append

private theorem attempted_spares (user : String) (attempts : List Attempt) (hwf : s.world.fs.disk.WF) :
    SparesOthers user s (attempted user attempts s) := by
  induction attempts generalizing s with
  | nil => exact (Spares.refl user s).toSparesOthers
  | cons t rest ih =>
    have hfirst := t.spares user hwf
    exact hfirst.trans (ih (hfirst.prunes.wf hwf))

/-- However often the deletion of a user was tried, it has touched nothing of others; once a call has returned, nothing
is left of the user; and a call with a receipt that does not die deletes the rows and tells whether files are left. -/
theorem deleteUser_attempts (user : String) (attempts : List Attempt) (hwf : s.world.fs.disk.WF) :
    SparesOthers user s (attempted user attempts s) ∧
      (∀ earlier t later result done, attempts = earlier ++ t :: later →
        t.call user (t.start (attempted user earlier s)) = .ok result done → (attempted user attempts s).Removed user) ∧
      ∀ receipt held, receipt ≠ "" → ∃ done,
        deleteUser user receipt held { attempted user attempts s with crash := none } =
            verdict user receipt held (attempted user attempts s) done ∧
          SparesOthers user s done ∧ done.NoRows user ∧
          ((attempted user attempts s).blocked held (.users user) = false →
            (attempted user attempts s).blocked held (.objects user) = false → done.Removed user) := by
  have hall := attempted_spares user attempts hwf
  refine ⟨hall, ?_, fun receipt held hreceipt => ?_⟩
  · rintro earlier t later result done rfl hrun
    have hwf' := (attempted_spares user earlier hwf).prunes.wf hwf
    have hremoved := t.removed hwf' hrun
    have hdone : attempted user (earlier ++ t :: later) s = attempted user later done := by
      rw [attempted_append]
      show attempted user later (endState (t.call user) (t.start (attempted user earlier s))) = _
      unfold endState
      rw [hrun]
    have hspares := t.spares user hwf'
    have hend : endState (t.call user) (t.start (attempted user earlier s)) = done := by
      unfold endState
      rw [hrun]
    rw [hend] at hspares
    rw [hdone]
    exact (attempted_spares user later (hspares.prunes.wf hwf')).removed hremoved
  · have hlast := hall.trans (sparesOthers_crash user none (attempted user attempts s))
    obtain ⟨done, hrun, hspares, hrows, hremoved⟩ :=
      deleteUser_verdict (s := { attempted user attempts s with crash := none }) user hreceipt held
        (hlast.prunes.wf hwf) rfl
    exact ⟨done, hrun, hlast.trans hspares, hrows, hremoved⟩

end

/-! ### Two users -/

/-- Two users that have the same path and the same source. -/
@[irreducible] def twoUsers : World :=
  runCalls [.register "user" "writer" "d", .register "other" "writer" "d",
    .submit "user" "writer" [putText "1" "d/a" "x"] none, .submit "other" "writer" [putText "1" "d/a" "y"] none]
    (emptyStore (fun _ => 0) 4000)

private theorem twoUsers_consistent : Consistent twoUsers := by
  unfold twoUsers
  exact (runCalls_consistent (emptyStore_consistent _ _) (by decide +kernel)).1

/-- The process dies after the rows, then a file is held, and then the deletion is run to its end. -/
theorem deleteUser_thrice :
    ∃ result done, deleteUser "user" "receipt" (fun _ => false)
        { attempted "user" [⟨"receipt", some 3, fun _ => false⟩, ⟨"receipt", none, fun l => l = treeLoc "user" "d/a"⟩]
          (serviceOf twoUsers) with crash := none } = .ok result done ∧
      done.Removed "user" ∧ SparesOthers "user" (serviceOf twoUsers) done := by
  obtain ⟨-, -, hlast⟩ := deleteUser_attempts "user"
    [⟨"receipt", some 3, fun _ => false⟩, ⟨"receipt", none, fun l => l = treeLoc "user" "d/a"⟩]
    (serviceOf_sound twoUsers_consistent).disk
  obtain ⟨done, hrun, hspares, -, hremoved⟩ := hlast "receipt" (fun _ => false) (by decide)
  have hfree : ∀ (a : Area) (s : Service), s.blocked (fun _ => false) a = false := fun a s => by simp [blocked]
  unfold verdict at hrun
  rw [hfree, hfree] at hrun
  exact ⟨_, done, hrun, hremoved (hfree _ _) (hfree _ _), hspares⟩

end Service

end Ctxd

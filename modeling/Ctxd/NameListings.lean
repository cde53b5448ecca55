import Ctxd.ListingTree
import Ctxd.NameDecoding

/-!
# Listings of trees with any names

`ls`, `tree` and `glob` read the names of all files below a prefix, and grep reads those of the files with a match.  A
name that is read as something else than a component makes a listing of the user raise, or shows two files under one
path.  The names of the files of a user do neither exactly when each of them is read as it should, and no path of a
file begins with a drive letter (`names_read_iff`).
-/

namespace Ctxd

open Program

/-! ### What a listing raises -/

def StoreError.NoValueError (e : StoreError) : Prop := ∀ message, e ≠ .valueError message

/-- What a loop raises is not a `ValueError`. -/
def NoValueError (e : StoreError ⊕ Bounded) : Prop := ∀ message, e ≠ .inl (.valueError message)

private theorem osError_noValueError (e : Errno) : StoreError.NoValueError (.osError e) := fun _ h => by cases h

private theorem Disk.present_errors (d : Disk) (l : Loc) : ErrorsIn StoreError.NoValueError (d.present l) := by
  unfold Disk.present
  split
  · exact .ok _
  · exact .ok _
  · exact .ok _
  · exact .error (osError_noValueError _)

private theorem diskDirectoryEntry_errors (d : Disk) (path : String) (l : Loc) :
    ErrorsIn StoreError.NoValueError (diskDirectoryEntry d path l) := by
  unfold diskDirectoryEntry
  split
  · exact .ok _
  · exact .error (osError_noValueError _)
  · exact .error (osError_noValueError _)

private theorem pathIsWithinPrefix_errors {path pre : String} (hpath : Normalized path) (hpre : Normalized pre) :
    ErrorsIn StoreError.NoValueError (pathIsWithinPrefix path pre) := by
  rw [pathIsWithinPrefix_eq hpath hpre]
  exact .ok _

private theorem stat_errors {path : String} (hpath : Normalized path) (user : String) (w : World) :
    ErrorsIn StoreError.NoValueError (stat user path w) := by
  have hnormal : normalizePath path = .ok path := hpath
  unfold stat
  rw [hnormal]
  refine ErrorsIn.bind (.ok _) fun normalized _ => ?_
  split
  · exact .ok _
  · refine ErrorsIn.bind (Disk.present_errors _ _) fun there _ => ?_
    exact .ite (fun _ => .ok _) fun _ => .ok _

private theorem entriesUnderPrefix_errors {user pre : String} {w : World}
    (hrows : ∀ path, w.HasRow user path → Normalized path)
    (hpre : IsPrefix pre) : ErrorsIn StoreError.NoValueError (entriesUnderPrefix user pre w.catalog) := by
  refine ErrorsIn.filterM fun e he => ?_
  have hmem : e ∈ w.catalog.entries ∧ e.userId = user := by simpa using he
  refine .ite (fun _ => .ok _) fun hne => ?_
  exact pathIsWithinPrefix_errors (hrows _ ⟨e, hmem.1, hmem.2, rfl⟩) (hpre.resolve_left hne)

private theorem raising_errors {α : Type} {x : Except StoreError α} (h : ErrorsIn StoreError.NoValueError x) :
    ErrorsIn NoValueError (Listing.raising x) := by
  cases x with
  | ok a => exact .ok a
  | error e =>
    refine .error fun message heq => ?_
    cases heq
    exact h _ rfl message rfl

private theorem raising_eq_ok {α : Type} {x : Except StoreError α} {a : α} (h : Listing.raising x = .ok a) :
    x = .ok a := by
  cases x with
  | ok b =>
    cases h
    rfl
  | error e => cases h

private theorem finish_errors {x : Listing Bounded} (h : ErrorsIn NoValueError x) :
    ErrorsIn StoreError.NoValueError (Listing.finish x) := by
  unfold Listing.finish
  split
  · exact .ok _
  · exact .ok _
  · rename_i e
    refine .error fun message heq => ?_
    subst heq
    exact h _ rfl message rfl

section

variable {σ : Type} {add : String → Except StoreError DirectoryEntry → σ → Listing σ} {user pre : String} {w : World}
  (hadd : ∀ path entry found, Normalized path → ErrorsIn StoreError.NoValueError entry →
    ErrorsIn NoValueError (add path entry found))

include hadd

private theorem listRows_errors {rows : List Entry} (hrows : ∀ e ∈ rows, Normalized e.path) (state : σ × Bool) :
    ErrorsIn NoValueError (listRows add user w rows state) := by
  induction rows generalizing state with
  | nil => exact .ok _
  | cons e rows ih =>
    obtain ⟨found, incomplete⟩ := state
    have hrest := ih fun e' he' => hrows e' (List.mem_cons_of_mem _ he')
    unfold listRows
    refine ErrorsIn.bind (raising_errors (Disk.present_errors _ _)) fun there _ => ?_
    refine .ite (fun _ => ?_) fun _ => hrest _
    exact ErrorsIn.bind (hadd _ _ _ (hrows e (List.mem_cons_self ..)) (.ok _)) fun found _ => hrest _

private theorem listFiles_errors {files : List (String × Loc)} (hfiles : ∀ f ∈ files, Normalized f.1)
    (state : σ × Bool) :
    ErrorsIn NoValueError (listFiles add user w files state) := by
  induction files generalizing state with
  | nil => exact .ok _
  | cons f files ih =>
    obtain ⟨found, incomplete⟩ := state
    have hf := hfiles f (List.mem_cons_self ..)
    have hrest := ih fun f' hf' => hfiles f' (List.mem_cons_of_mem _ hf')
    unfold listFiles
    refine ErrorsIn.bind (raising_errors (stat_errors hf user w)) fun row _ => ?_
    refine .ite (fun _ => hrest _) fun _ => ?_
    exact ErrorsIn.bind (hadd _ _ _ hf (diskDirectoryEntry_errors _ _ _)) fun found _ => hrest _

/-- The loops raise a `ValueError` only of a path that is no path. -/
private theorem listBoth_errors (hrows : ∀ path, w.HasRow user path → Normalized path) (hpre : IsPrefix pre)
    (hfind : ErrorsIn StoreError.NoValueError (diskFilesUnderPrefix user pre w.fs.disk))
    (hfiles : ∀ files, diskFilesUnderPrefix user pre w.fs.disk = .ok files → ∀ f ∈ files, Normalized f.1) (found : σ) :
    ErrorsIn NoValueError (listBoth add user w pre found) := by
  refine ErrorsIn.bind (raising_errors (entriesUnderPrefix_errors hrows hpre)) fun rows hlisted => ?_
  have hnormal : ∀ e ∈ rows, Normalized e.path := by
    intro e he
    rw [(filterM_eq_ok_iff.1 (raising_eq_ok hlisted)).2] at he
    have hmem : e ∈ w.catalog.entries ∧ e.userId = user := by simpa using (List.mem_filter.1 he).1
    exact hrows _ ⟨e, hmem.1, hmem.2, rfl⟩
  refine ErrorsIn.bind (listRows_errors hadd hnormal _) fun state _ => ?_
  refine ErrorsIn.bind (raising_errors hfind) fun files hfound => ?_
  exact listFiles_errors hadd (hfiles files (raising_eq_ok hfound)) state

end

/-! ### `ls`, `tree` and `glob` -/

section

variable {user pre : String} {w : World} {limit : Int}

private theorem addChild_errors (pre path : String) (entry : Except StoreError DirectoryEntry)
    (found : Dict String DirectoryEntry)
    (_hpath : Normalized path) (hentry : ErrorsIn StoreError.NoValueError entry) :
    ErrorsIn NoValueError (addChild pre path entry found) := by
  unfold addChild
  split
  · exact .ok _
  · exact ErrorsIn.bind (raising_errors hentry) fun entry _ => .ok _
  · exact .ok _

private theorem addParents_errors (hpre : IsPrefix pre) (depth : Option Int) {parents : List String}
    (hparents : ∀ parent ∈ parents, Normalized parent) (found : Dict String DirectoryEntry) :
    ErrorsIn StoreError.NoValueError (addParents pre depth parents found) := by
  induction parents generalizing found with
  | nil => exact .ok _
  | cons parent parents ih =>
    have hparent := hparents parent (List.mem_cons_self ..)
    have hrest := ih fun p hp => hparents p (List.mem_cons_of_mem _ hp)
    have hlast : ∀ below : Bool, ErrorsIn StoreError.NoValueError
        (if (below && withinDepth depth (relativeParts pre parent).length) = true then
          addParents pre depth parents (found.setDefault parent (directoryEntry parent))
        else addParents pre depth parents found) := fun below => .ite (fun _ => hrest _) fun _ => hrest _
    unfold addParents
    refine .ite (fun _ => hlast false) fun _ => .ite (fun _ => hlast true) fun hne => ?_
    exact ErrorsIn.bind (pathIsWithinPrefix_errors hparent (hpre.resolve_left hne)) fun below _ => hlast below

private theorem addTreePath_errors (hpre : IsPrefix pre) (depth : Option Int) (path : String)
    (entry : Except StoreError DirectoryEntry) (found : Dict String DirectoryEntry) (hpath : Normalized path)
    (hentry : ErrorsIn StoreError.NoValueError entry) :
    ErrorsIn NoValueError (addTreePath pre depth path entry found) := by
  have hparents := addParents_errors hpre depth fun parent hparent => ((mem_parentPaths hpath).1 hparent).1
  unfold addTreePath
  refine raising_errors (.ite (fun _ => ?_) fun _ => hparents found)
  exact ErrorsIn.bind hentry fun entry _ => hparents _

private theorem addMatch_errors (fnmatchcase : String → String → Bool) (pattern : List String) (limit : Int)
    (path : String)
    (entry : Except StoreError DirectoryEntry) (found : List DirectoryEntry) (_hpath : Normalized path)
    (hentry : ErrorsIn StoreError.NoValueError entry) :
    ErrorsIn NoValueError (addMatch fnmatchcase pattern limit path entry found) := by
  unfold addMatch
  refine .ite (fun _ => ErrorsIn.bind (raising_errors hentry) fun entry _ => ?_) fun _ => .ok _
  have hstop : NoValueError (.inr ⟨found ++ [entry], false, some .limit⟩) := fun _ h => by cases h
  exact ErrorsIn.ite (fun _ => .error hstop) fun _ => .ok _

/-- The files of a listing are found, and have paths. -/
structure FindsPaths (user pre : String) (w : World) : Prop where
  errors : ErrorsIn StoreError.NoValueError (diskFilesUnderPrefix user pre w.fs.disk)
  paths : ∀ files, diskFilesUnderPrefix user pre w.fs.disk = .ok files → ∀ f ∈ files, Normalized f.1

variable (hrows : ∀ path, w.HasRow user path → Normalized path) (hpre : IsPrefix pre) (h : FindsPaths user pre w)
  (hlimit : 0 < limit)

include hrows hpre h hlimit

private theorem ls_errors (casefold : String → String) :
    ErrorsIn StoreError.NoValueError (ls casefold user pre limit w) := by
  unfold ls
  rw [if_neg (by omega), normalizedPrefix_eq hpre]
  refine finish_errors ?_
  show ErrorsIn NoValueError (listBoth (addChild pre) user w pre [] >>= _)
  exact ErrorsIn.bind (listBoth_errors (addChild_errors pre) hrows hpre h.errors h.paths _) fun _ _ => .ok _

private theorem tree_errors (casefold : String → String) {depth : Option Int} (hdepth : ∀ n, depth = some n → 0 ≤ n) :
    ErrorsIn StoreError.NoValueError (tree casefold user pre depth limit w) := by
  have hdepth' : depth.any (· < 0) = false := by
    cases depth with
    | none => rfl
    | some n => simpa using hdepth n rfl
  unfold tree
  rw [if_neg (by omega), if_neg (by rw [hdepth']; simp), normalizedPrefix_eq hpre]
  refine finish_errors ?_
  show ErrorsIn NoValueError (listBoth (addTreePath pre depth) user w pre [] >>= _)
  exact ErrorsIn.bind (listBoth_errors (addTreePath_errors hpre depth) hrows hpre h.errors h.paths _) fun _ _ => .ok _

private theorem glob_errors (fnmatchcase : String → String → Bool) {pattern : String} {parts : List String}
    (hpattern : validateGlobPattern pattern = .ok parts) :
    ErrorsIn StoreError.NoValueError (glob fnmatchcase user pattern pre limit w) := by
  unfold glob
  rw [if_neg (by omega), normalizedPrefix_eq hpre, hpattern]
  refine finish_errors ?_
  show ErrorsIn NoValueError (listBoth (addMatch fnmatchcase parts limit) user w pre [] >>= _)
  exact ErrorsIn.bind (listBoth_errors (addMatch_errors fnmatchcase parts limit) hrows hpre h.errors h.paths _)
    fun _ _ => .ok _

end

/-! ### The files of a user -/

/-- There is a file at a place below the root of the user. -/
def Disk.UserFile (user : String) (d : Disk) (l : Loc) : Prop := l.area = .users user ∧ d.isFile l = true

private theorem Disk.isFile_node {d : Disk} {l : Loc} (h : d.isFile l = true) : l.path ≠ [] ∧ (d.node l).isSome := by
  obtain ⟨a, path⟩ := l
  unfold Disk.isFile Disk.resolve at h
  split at h
  swap
  · cases h
  rename_i data hresolve
  split at hresolve
  · cases hresolve
  cases path with
  | nil => cases hresolve
  | cons name rest =>
    refine ⟨List.cons_ne_nil _ _, ?_⟩
    rw [Disk.node_of_ne_nil _ (List.cons_ne_nil _ _)]
    unfold Disk.walk at hresolve
    split at hresolve
    · cases hresolve
    · cases hresolve
    split at hresolve
    · cases hresolve
    split at hresolve
    · cases hresolve
    · rename_i n hn
      rw [hn]
      rfl

/-- What a candidate adds to the files below a prefix, if its path is one. -/
def seenFile (pre : String) (d : Disk) (l : Loc) : Option (String × Loc) :=
  if d.isFile l then ((logicalTreePath l.path).filter fun path => Under pre path).map fun path => (path, l) else none

private theorem seenFile_eq_some {pre : String} {d : Disk} {l : Loc} {f : String × Loc}
    (h : seenFile pre d l = some f) :
    f.2 = l ∧ d.isFile l = true ∧ logicalTreePath l.path = some f.1 := by
  unfold seenFile at h
  split at h
  swap
  · cases h
  obtain ⟨path, hpath, rfl⟩ := Option.map_eq_some_iff.1 h
  exact ⟨rfl, ‹_›, (Option.filter_eq_some_iff.1 hpath).1⟩

private theorem listedFile_eq {pre : String} {d : Disk} {l : Loc}
    (h : pre = "" ∨ Normalized pre ∧ ∀ p, d.isFile l = true → logicalTreePath l.path = some p → Normalized p) :
    listedFile pre d l = .ok (seenFile pre d l) := by
  unfold listedFile seenFile
  by_cases hfile : d.isFile l = true
  swap
  · rw [if_neg hfile, if_neg hfile]
  rw [if_pos hfile, if_pos hfile]
  cases hpath : logicalTreePath l.path with
  | none => rfl
  | some path =>
    rcases h with rfl | ⟨hpre, hpaths⟩
    · simp [under_empty]
      rfl
    · simp only [if_neg hpre.ne_empty, pathIsWithinPrefix_under (hpaths path hfile hpath) hpre]
      by_cases hunder : Under pre path
      · simp [hunder, Option.filter]
        rfl
      · simp [hunder, Option.filter]
        rfl

private theorem present_root (user : String) (d : Disk) : d.present ⟨.users user, []⟩ = .ok true := by
  simp [Disk.present, Disk.resolve, Disk.pathTooLong, Disk.walk]

/-- The candidates of a search below a prefix. -/
private theorem diskFilesUnderPrefix_cases (user pre : String) (d : Disk) :
    (∃ e, StoreError.NoValueError e ∧ diskFilesUnderPrefix user pre d = .error e) ∨
      ∃ candidates : List Loc, candidates.Nodup ∧ (∀ l ∈ candidates, l.area = .users user) ∧
        diskFilesUnderPrefix user pre d = candidates.filterMapM (listedFile pre d) := by
  obtain ⟨start, harea, hstart⟩ : ∃ start : Loc, start.area = .users user ∧
      (if pre = "" then (⟨.users user, []⟩ : Loc) else treeLoc user pre) = start :=
    ⟨_, by split <;> rfl, rfl⟩
  unfold diskFilesUnderPrefix
  simp only [present_root, hstart]
  cases hthere : d.present start with
  | error e => exact .inl ⟨e, Disk.present_errors d start e hthere, rfl⟩
  | ok there =>
    right
    cases there with
    | false => exact ⟨[], List.nodup_nil, (fun l hl => by cases hl), rfl⟩
    | true =>
      refine ⟨if d.isFile start = true then [start] else d.rglob start, ?_, fun l hl => ?_, rfl⟩
      · split
        · exact List.nodup_singleton _
        · exact rglob_nodup d start
      · split at hl
        · rw [List.mem_singleton.1 hl]
          exact harea
        · exact (mem_rglob.1 hl).2.1.trans harea

private theorem diskFilesUnderPrefix_all (user : String) (d : Disk) :
    diskFilesUnderPrefix user "" d = .ok ((d.rglob ⟨.users user, []⟩).filterMap (seenFile "" d)) := by
  have hdir : d.isFile ⟨.users user, []⟩ = false := by
    simp [Disk.isFile, Disk.resolve, Disk.pathTooLong, Disk.walk]
  unfold diskFilesUnderPrefix
  simp only [present_root, hdir, if_true]
  exact filterMapM_ok fun l _ => listedFile_eq (.inl rfl)

/-- Every file of the user whose names are read has a path, and is at the place of this path. -/
def Disk.HasPaths (user : String) (d : Disk) : Prop :=
  ∀ l p, d.UserFile user l → logicalTreePath l.path = some p → Normalized p ∧ treePath p = l.path

section

variable {user pre : String} {d : Disk}

private theorem Disk.HasPaths.finds (h : d.HasPaths user) (hpre : IsPrefix pre) :
    ErrorsIn StoreError.NoValueError (diskFilesUnderPrefix user pre d) ∧
      ∀ files, diskFilesUnderPrefix user pre d = .ok files →
        (files.map Prod.fst).Nodup ∧ ∀ f ∈ files, Normalized f.1 := by
  rcases diskFilesUnderPrefix_cases user pre d with ⟨e, he, hfind⟩ | ⟨candidates, hnodup, harea, hfind⟩
  · rw [hfind]
    exact ⟨.error he, fun files hfiles => by cases hfiles⟩
  have hlisted : candidates.filterMapM (listedFile pre d) = .ok (candidates.filterMap (seenFile pre d)) := by
    refine filterMapM_ok fun l hl => listedFile_eq (hpre.imp_right fun hpre => ⟨hpre, fun p hfile hp => ?_⟩)
    exact (h l p ⟨harea l hl, hfile⟩ hp).1
  have hseen : ∀ f ∈ candidates.filterMap (seenFile pre d),
      f.2.area = .users user ∧ Normalized f.1 ∧ treePath f.1 = f.2.path := by
    intro f hf
    obtain ⟨l, hl, hsome⟩ := List.mem_filterMap.1 hf
    obtain ⟨hloc, hfile, hpath⟩ := seenFile_eq_some hsome
    obtain ⟨hnormal, hplace⟩ := h l f.1 ⟨harea l hl, hfile⟩ hpath
    rw [hloc]
    exact ⟨harea l hl, hnormal, hplace⟩
  rw [hfind, hlisted]
  refine ⟨.ok _, fun files hfiles => ?_⟩
  cases hfiles
  refine ⟨?_, fun f hf => (hseen f hf).2.1⟩
  rw [List.nodup_map_iff_inj_on]
  · intro f hf g hg heq
    obtain ⟨harea, -, hplace⟩ := hseen f hf
    obtain ⟨harea', -, hplace'⟩ := hseen g hg
    have hpath : f.2.path = g.2.path := by rw [← hplace, ← hplace', heq]
    refine Prod.ext heq ?_
    calc f.2 = ⟨f.2.area, f.2.path⟩ := rfl
      _ = ⟨g.2.area, g.2.path⟩ := by rw [harea, harea', hpath]
  · refine hnodup.filterMap fun l l' f hl hl' => ?_
    rw [← (seenFile_eq_some hl).1, ← (seenFile_eq_some hl').1]

end

/-! ### The law -/

/-- The names of the files of a user are read as they should be: each of them is the name of what is read, no listing
shows two files under one path, and neither a listing nor grep raises a `ValueError` of a name. -/
structure Disk.NamesRead (user : String) (d : Disk) : Prop where
  canonical : ∀ l, d.UserFile user l → ∀ name ∈ l.path, DecodesCanonically name
  once : ∀ pre files, IsPrefix pre → diskFilesUnderPrefix user pre d = .ok files → (files.map Prod.fst).Nodup
  ls : ∀ casefold pre limit (w : World), w.fs.disk = d → (∀ path, w.HasRow user path → Normalized path) → IsPrefix pre →
    0 < limit → ErrorsIn StoreError.NoValueError (ls casefold user pre limit w)
  tree : ∀ casefold pre depth limit (w : World), w.fs.disk = d → (∀ path, w.HasRow user path → Normalized path) →
    IsPrefix pre → (∀ n, depth = some n → 0 ≤ n) → 0 < limit →
    ErrorsIn StoreError.NoValueError (tree casefold user pre depth limit w)
  glob : ∀ fnmatchcase pattern parts pre limit (w : World), w.fs.disk = d →
    (∀ path, w.HasRow user path → Normalized path) → IsPrefix pre → validateGlobPattern pattern =
      .ok parts → 0 < limit →
    ErrorsIn StoreError.NoValueError (glob fnmatchcase user pattern pre limit w)
  grep : ∀ (t : GrepTarget) l message, IsPrefix t.pre → d.UserFile user l →
    t.eventPath (some l.path) ≠ .error (.valueError message)

/-- The names of the files of a user that are read spell components, and none of their paths begins with a drive
letter. -/
structure Disk.NamesSpell (user : String) (d : Disk) : Prop where
  component : ∀ l, d.UserFile user l → ∀ name ∈ l.path, ∀ raw, Spells name raw → SpellsComponent name raw
  drive : ∀ l, d.UserFile user l → (∀ name ∈ l.path, ∃ raw, Spells name raw) → ∀ name ∈ l.path.getLast?, ∀ raw,
    Spells name raw → ¬BeginsWithDrive raw

private theorem Disk.HasPaths.eventPath {user : String} {d : Disk} (h : d.HasPaths user) (t : GrepTarget)
    (hpre : IsPrefix t.pre) {l : Loc} (hl : d.UserFile user l) (message : String) :
      t.eventPath (some l.path) ≠ .error (.valueError message) := by
  unfold GrepTarget.eventPath
  cases hpath : logicalTreePath l.path with
  | none =>
    simp only [hpath]
    exact fun heq => by cases heq
  | some path =>
    simp only [hpath]
    split
    · exact fun heq => by cases heq
    · rename_i hne
      rw [pathIsWithinPrefix_under (h l path hl hpath).1 (hpre.resolve_left hne)]
      by_cases hunder : Under t.pre path
      · rw [decide_eq_true hunder]
        exact fun heq => by cases heq
      · rw [decide_eq_false hunder]
        exact fun heq => by cases heq

section

variable {user : String} {d : Disk}

/-- Files with paths are listed. -/
private theorem Disk.HasPaths.namesRead (h : d.HasPaths user)
    (hcanonical : ∀ l, d.UserFile user l → ∀ name ∈ l.path, DecodesCanonically name) : d.NamesRead user := by
  have hfinds : ∀ {pre : String} {w : World}, w.fs.disk = d → IsPrefix pre → FindsPaths user pre w := by
    rintro pre w rfl hpre
    exact ⟨(h.finds hpre).1, fun files hfiles => ((h.finds hpre).2 files hfiles).2⟩
  refine ⟨hcanonical, fun pre files hpre hfiles => ((h.finds hpre).2 files hfiles).1, ?_, ?_, ?_, ?_⟩
  · intro casefold pre limit w hd hrows hpre hlimit
    exact ls_errors hrows hpre (hfinds hd hpre) hlimit casefold
  · intro casefold pre depth limit w hd hrows hpre hdepth hlimit
    exact tree_errors hrows hpre (hfinds hd hpre) hlimit casefold hdepth
  · intro fnmatchcase pattern parts pre limit w hd hrows hpre hpattern hlimit
    exact glob_errors hrows hpre (hfinds hd hpre) hlimit fnmatchcase hpattern
  · intro t l message hpre hl
    exact h.eventPath t hpre hl message

private theorem addChild_ok (pre path : String) (e : DirectoryEntry) (found : Dict String DirectoryEntry) :
    ∃ found', addChild pre path (.ok e) found = .ok found' := by
  unfold addChild
  split
  · exact ⟨_, rfl⟩
  · exact ⟨_, rfl⟩
  · exact ⟨_, rfl⟩

/-- The loop over files without rows comes to the first path that is no path, and raises. -/
private theorem listFiles_paths {w : World} (hrows : w.catalog.entries = []) {files : List (String × Loc)}
    (hfiles : ∀ f ∈ files, w.fs.disk.isFile f.2 = true) {state : Dict String DirectoryEntry × Bool}
    (h : ErrorsIn NoValueError (listFiles (addChild "") user w files state)) : ∀ f ∈ files, Normalized f.1 := by
  induction files generalizing state with
  | nil => exact fun f hf => by cases hf
  | cons f files ih =>
    obtain ⟨found, incomplete⟩ := state
    unfold listFiles stat at h
    rw [hrows] at h
    cases hpath : normalizePath f.1 with
    | error e =>
      rw [hpath, normalizePath_error hpath] at h
      exact absurd rfl (h _ rfl _)
    | ok path =>
      have hentry : ∃ e, diskDirectoryEntry w.fs.disk f.1 f.2 = .ok e := by
        have hfile := hfiles f (List.mem_cons_self ..)
        unfold Disk.isFile at hfile
        unfold diskDirectoryEntry
        split at hfile
        · rename_i data hresolve
          rw [hresolve]
          exact ⟨_, rfl⟩
        · cases hfile
      obtain ⟨e, he⟩ := hentry
      obtain ⟨found', hfound'⟩ := addChild_ok "" f.1 e found
      rw [hpath, he] at h
      have hgoes : ErrorsIn NoValueError (addChild "" f.1 (.ok e) found >>= fun found =>
          listFiles (addChild "") user w files (found, true)) := h
      rw [hfound'] at hgoes
      intro g hg
      rcases List.mem_cons.1 hg with rfl | hg
      · exact .of_ok hpath
      · exact ih (fun g hg => hfiles g (List.mem_cons_of_mem _ hg)) hgoes g hg

/-- A store without rows. -/
def rowless (d : Disk) : World := { emptyStore (fun _ => 0) 4000 with fs := ⟨d, 0, [], [], none, []⟩ }

/-- `ls` of a store without rows goes over all files of the user. -/
private theorem ls_rowless {files : List (String × Loc)} (hfiles : diskFilesUnderPrefix user "" d = .ok files)
    (h : ErrorsIn StoreError.NoValueError (ls id user "" 1 (rowless d))) :
    ErrorsIn NoValueError (listFiles (addChild "") user (rowless d) files ([], false)) := by
  have hrows : entriesUnderPrefix user "" (rowless d).catalog = .ok [] := by
    simp [entriesUnderPrefix, rowless, emptyStore]
    rfl
  have hdisk : diskFilesUnderPrefix user "" (rowless d).fs.disk = .ok files := hfiles
  have hboth : listBoth (addChild "") user (rowless d) "" [] =
      listFiles (addChild "") user (rowless d) files ([], false) := by
    unfold listBoth
    rw [hrows, hdisk]
    rfl
  intro e he message heq
  subst heq
  refine h (.valueError message) ?_ message rfl
  unfold ls
  rw [if_neg (by decide), normalizedPrefix_eq (.inl rfl)]
  show Listing.finish (listBoth (addChild "") user (rowless d) "" [] >>= _) = _
  rw [hboth, he]
  rfl

private theorem Disk.NamesRead.normalized (h : d.NamesRead user) {l : Loc} {p : String} (hl : d.UserFile user l)
    (hp : logicalTreePath l.path = some p) : Normalized p := by
  have hall := diskFilesUnderPrefix_all user d
  have hls := h.ls id "" 1 (rowless d) rfl (fun path ⟨e, he, _⟩ => by cases he) (.inl rfl) (by decide)
  have hfiles : ∀ f ∈ (d.rglob ⟨.users user, []⟩).filterMap (seenFile "" d), d.isFile f.2 = true := by
    intro f hf
    obtain ⟨l, -, hsome⟩ := List.mem_filterMap.1 hf
    obtain ⟨hloc, hfile, -⟩ := seenFile_eq_some hsome
    rwa [hloc]
  obtain ⟨hne, hnode⟩ := Disk.isFile_node hl.2
  have hseen : seenFile "" d l = some (p, l) := by
    unfold seenFile
    rw [if_pos hl.2, hp]
    simp [Option.filter, under_empty]
  refine listFiles_paths (w := rowless d) rfl hfiles (ls_rowless hall hls) (p, l) (List.mem_filterMap.2 ⟨l, ?_, hseen⟩)
  exact mem_rglob.2 ⟨hnode, hl.1, List.nil_suffix, hne.symm⟩

private theorem Disk.namesRead_iff (user : String) (d : Disk) : d.NamesRead user ↔ d.NamesSpell user := by
  constructor
  · intro h
    refine ⟨fun l hl name hname => (decodesCanonically_iff name).1 (h.canonical l hl name hname), fun l hl hspelled =>
      ?_⟩
    obtain ⟨p, hp⟩ := Option.isSome_iff_exists.1 ((logicalTreePath_isSome l.path).2 hspelled)
    exact (logicalTreePath_canonical (h.canonical l hl) (Disk.isFile_node hl.2).1 hp).2.1 (h.normalized hl hp)
  · intro h
    have hcanonical : ∀ l, d.UserFile user l → ∀ name ∈ l.path, DecodesCanonically name :=
      fun l hl name hname => (decodesCanonically_iff name).2 (h.component l hl name hname)
    refine Disk.HasPaths.namesRead (fun l p hl hp => ?_) hcanonical
    have hspelled := (logicalTreePath_isSome l.path).1 (Option.isSome_iff_exists.2 ⟨p, hp⟩)
    obtain ⟨hplace, hnormal⟩ := logicalTreePath_canonical (hcanonical l hl) (Disk.isFile_node hl.2).1 hp
    exact ⟨hnormal.2 (h.drive l hl hspelled), hplace⟩

end

/-- A name is read as it should exactly when what it spells is spelled in small digits, without blanks, and is a
component; the names of the files of a user do no harm exactly when this holds of them and none of the paths begins with
a drive letter. -/
theorem names_read_iff (name user : String) (d : Disk) :
    (DecodesCanonically name ↔ ∀ raw, Spells name raw → SpellsComponent name raw) ∧
      (Disk.NamesRead user d ↔ Disk.NamesSpell user d) :=
  ⟨decodesCanonically_iff name, Disk.namesRead_iff user d⟩

/-- `p-4A` is read as `J`, whose name is `p-4a`; a file with the name `p-2e2e` makes every listing raise. -/
theorem names_misread :
    ¬DecodesCanonically "p-4A" ∧
      ¬Disk.NamesRead "user" ⟨[(⟨.users "user", ["p-2e2e"]⟩, .file ⟨#[]⟩)], 4000⟩ := by
  have hlarge : HexText ['4', 'A'] [0x4A] :=
    .pair (show hexValue '4' = some 4 by decide) (show hexValue 'A' = some 10 by decide) .nil
  have hdots : HexText ['2', 'e', '2', 'e'] [0x2E, 0x2E] :=
    .pair (show hexValue '2' = some 2 by decide) (show hexValue 'e' = some 14 by decide)
      (.pair (show hexValue '2' = some 2 by decide) (show hexValue 'e' = some 14 by decide) .nil)
  constructor
  · intro h
    have hdigits := ((decodesCanonically_iff _).1 h [0x4A] ⟨['4', 'A'], ['J'], by decide, hlarge, by decide⟩).digits
    exact absurd (hdigits 'A' (by decide)) (by decide)
  · intro h
    have hspells := ((Disk.namesRead_iff _ _).1 h).component ⟨.users "user", ["p-2e2e"]⟩ ⟨rfl, by decide⟩ "p-2e2e"
      (List.mem_singleton.2 rfl) [0x2E, 0x2E] ⟨['2', 'e', '2', 'e'], ['.', '.'], by decide, hdots, by decide⟩
    exact hspells.dots rfl

end Ctxd

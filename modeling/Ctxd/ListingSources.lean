import Ctxd.Listings
import Ctxd.Rows

/-!
# The two sources of a listing

A set of rows and a set of files is `Listable` when the files have the names that the store gives them, there is no
directory without a file, and no path is an ancestor of another.  Then the loops of `ls`, `tree` and `glob` see every
file under the prefix once, whether it has a row or not, and `incomplete` is set exactly when the rows and the files
under the prefix do not name the same paths (`Listable.listBoth_eq`).
-/

namespace Ctxd

/-! ### Components of paths -/

/-- A path lies under a prefix. -/
def Under (pre path : String) : Prop := posixParts pre <+: posixParts path

instance (pre path : String) : Decidable (Under pre path) := by
  unfold Under
  infer_instance

/-- A prefix is empty or a path. -/
def IsPrefix (pre : String) : Prop := pre = "" ∨ Normalized pre

theorem Normalized.ne_empty {path : String} (h : Normalized path) : path ≠ "" := by
  rintro rfl
  exact absurd h (by decide)

theorem pathIsWithinPrefix_under {path pre : String} (hpath : Normalized path) (hpre : Normalized pre) :
    pathIsWithinPrefix path pre = .ok (decide (Under pre path)) := pathIsWithinPrefix_eq hpath hpre

@[simp] theorem posixParts_empty : posixParts "" = [] := by decide

theorem under_empty (path : String) : Under "" path := by simp [Under]

theorem Under.refl (path : String) : Under path path := List.prefix_refl _

private theorem posixParts_below (pre rest : String) :
    posixParts (pre ++ "/" ++ rest) = posixParts pre ++ posixParts rest := by
  unfold posixParts
  rw [rawParts_append, List.filter_append]

theorem relativeParts_eq {pre path : String} (hpre : IsPrefix pre) (hpath : Normalized path) :
    relativeParts pre path = if Under pre path then (posixParts path).drop (posixParts pre).length else [] := by
  unfold relativeParts
  rcases hpre with rfl | hpre
  · simp [under_empty]
  · have hne : pre ≠ "" := by
      rintro rfl
      exact absurd hpre (by decide)
    have hiff : Under pre path ↔ path = pre ∨ startsBelow path pre = true := by
      unfold Under
      rw [hpath.posixParts_eq, hpre.posixParts_eq, rawParts_prefix_iff]
    rw [if_neg hpre.ne_empty]
    by_cases heq : path = pre
    · subst heq
      simp
    · rw [if_neg heq]
      by_cases hbelow : startsBelow path pre = true
      · rw [if_pos hbelow, if_pos (hiff.2 (.inr hbelow))]
        obtain ⟨rest, hrest⟩ := List.isPrefixOf_iff_prefix.1 hbelow
        have hsplit : path = pre ++ "/" ++ String.ofList rest := by
          apply String.toList_inj.1
          rw [← hrest]
          simp
        have hdrop : path.toList.drop (pre.toList.length + 1) = rest := by
          rw [← hrest, List.drop_append_of_le_length (by simp)]
          simp
        rw [hdrop, hsplit, posixParts_below]
        simp
      · rw [if_neg hbelow, if_neg fun h => hbelow ((hiff.1 h).resolve_left heq)]

/-- The number of components below the prefix. -/
theorem length_relativeParts {pre path : String} (hpre : IsPrefix pre) (hpath : Normalized path)
    (hunder : Under pre path) :
    (relativeParts pre path).length = (posixParts path).length - (posixParts pre).length := by
  rw [relativeParts_eq hpre hpath, if_pos hunder, List.length_drop]

private theorem mem_parentPathsFrom {q : String} (parts : List String) :
    q ∈ parentPathsFrom parts ↔ ∃ rest, rest ≠ [] ∧ rest ≠ parts ∧ rest <:+ parts ∧ q = joinParts rest.reverse := by
  fun_induction parentPathsFrom parts with
  | case1 last name rest ih =>
    rw [List.mem_cons, ih]
    constructor
    · rintro (rfl | ⟨more, hne, -, hsuffix, rfl⟩)
      · exact ⟨name :: rest, by simp, by simp, List.suffix_cons _ _, rfl⟩
      · refine ⟨more, hne, ?_, hsuffix.trans (List.suffix_cons _ _), rfl⟩
        rintro rfl
        have := hsuffix.length_le
        simp at this
    · rintro ⟨more, hne, hproper, hsuffix, rfl⟩
      have hmore := (List.suffix_cons_iff.1 hsuffix).resolve_left hproper
      by_cases heq : more = name :: rest
      · exact .inl (by rw [heq])
      · exact .inr ⟨more, hne, heq, hmore, rfl⟩
  | case2 parts hshort =>
    simp only [List.not_mem_nil, false_iff, not_exists, not_and]
    intro rest hne hproper hsuffix
    rcases parts with _ | ⟨last, _ | ⟨name, parts⟩⟩
    · exact absurd (List.suffix_nil.1 hsuffix) hne
    · rcases List.suffix_cons_iff.1 hsuffix with h | h
      · exact absurd h hproper
      · exact absurd (List.suffix_nil.1 h) hne
    · exact absurd rfl (hshort last name parts)

/-- The parents of a path are the paths above it. -/
theorem mem_parentPaths {path q : String} (h : Normalized path) :
    q ∈ parentPaths path ↔ Normalized q ∧ Under q path ∧ q ≠ path := by
  unfold parentPaths
  rw [mem_parentPathsFrom]
  constructor
  · rintro ⟨rest, hne, hproper, hsuffix, rfl⟩
    have hprefix : rest.reverse <+: posixParts path := by
      rw [← List.reverse_suffix, List.reverse_reverse]
      exact hsuffix
    obtain ⟨hnormal, hparts⟩ := h.above (by simpa using hne) hprefix
    refine ⟨hnormal, ?_, fun heq => hproper ?_⟩
    · unfold Under
      rwa [hparts]
    · rw [← List.reverse_reverse rest, ← hparts, heq]
  · rintro ⟨hnormal, hunder, hne⟩
    refine ⟨(posixParts q).reverse, by simpa using hnormal.posixParts_ne_nil, fun heq => hne ?_,
      List.reverse_suffix.2 hunder, ?_⟩
    · exact parts_injective hnormal h (List.reverse_injective heq)
    · rw [List.reverse_reverse, hnormal.posixParts_eq, joinParts_rawParts]

/-! ### Rows and files -/

namespace World

variable (w : World) (user : String)

/-- There is a file at the place of a path. -/
def HasFile (path : String) : Prop := Normalized path ∧ ∃ data, w.fs.disk.node (treeLoc user path) = some (.file data)

def HasRow (path : String) : Prop := ∃ e ∈ w.catalog.entries, e.userId = user ∧ e.path = path

/-- The rows and the files under a prefix name the same paths. -/
def Agree (pre : String) : Prop := ∀ path, Under pre path → (w.HasRow user path ↔ w.HasFile user path)

end World

/-- Any rows and any files with canonical names, such that no path is an ancestor of another. -/
structure Listable (user : String) (w : World) : Prop where
  wf : w.fs.disk.WF
  distinct : w.catalog.Distinct
  rows : ∀ path, w.HasRow user path → Normalized path
  files : ∀ p data, w.fs.disk.node ⟨.users user, p⟩ = some (.file data) → ∃ path, Normalized path ∧ p = treePath path
  -- the directories are those of the files
  dirs : ∀ p, p ≠ [] → w.fs.disk.node ⟨.users user, p⟩ = some .dir →
    ∃ q data, p <:+ q ∧ w.fs.disk.node ⟨.users user, q⟩ = some (.file data)
  apart : ∀ p q, w.HasRow user p ∨ w.HasFile user p → w.HasRow user q ∨ w.HasFile user q → Under p q → p = q

/-- What a listing sees under a prefix: every file once. -/
structure Seen (user pre : String) (w : World) (seen : List DirectoryEntry) : Prop where
  nodup : (seen.map (·.path)).Nodup
  file : ∀ e ∈ seen, e.kind = .file
  mem : ∀ path, path ∈ seen.map (·.path) ↔ w.HasFile user path ∧ Under pre path

section

variable {user pre : String} {w : World}

private theorem treePath_suffix {pre path : String} : treePath pre <:+ treePath path ↔ Under pre path := by
  unfold treePath Under
  rw [List.reverse_suffix, List.prefix_map_iff_of_injective fun _ _ => treeComponentName_injective]

private theorem isFile_iff (hw : w.fs.disk.WF) (l : Loc) :
    w.fs.disk.isFile l = true ↔ ∃ data, w.fs.disk.node l = some (.file data) := by
  unfold Disk.isFile
  constructor
  · intro h
    split at h
    · rename_i data hr
      exact ⟨data, (hw.resolve_ok_iff _ _).1 hr⟩
    · cases h
  · rintro ⟨data, hdata⟩
    rw [(hw.resolve_ok_iff _ _).2 hdata]

theorem present_of_fits {d : Disk} (hw : d.WF) {l : Loc} (hfit : d.Fits l) :
    d.present l = .ok (d.node l).isSome := by
  unfold Disk.present
  cases hn : d.node l with
  | some n => rw [(hw.resolve_ok_iff _ _).2 hn]; rfl
  | none =>
    obtain ⟨e, he⟩ := hw.resolve_error hn
    rw [he]
    rcases Disk.resolve_error_cases he with rfl | rfl | ⟨-, hlong⟩
    · rfl
    · rfl
    · exact absurd hfit hlong

/-- A path of a row or a file is not a directory. -/
private theorem Listable.node_ne_dir (hw : Listable user w) {path : String} (hnormal : Normalized path)
    (h : w.HasRow user path ∨ w.HasFile user path) : w.fs.disk.node (treeLoc user path) ≠ some .dir := by
  intro hdir
  obtain ⟨q, data, hsuffix, hq⟩ := hw.dirs _ hnormal.treePath_ne_nil hdir
  obtain ⟨path', hnormal', rfl⟩ := hw.files _ _ hq
  have heq := hw.apart path path' h (.inr ⟨hnormal', data, hq⟩) (treePath_suffix.1 hsuffix)
  subst heq
  have hfile : w.fs.disk.node (treeLoc user path) = some (.file data) := hq
  rw [hdir] at hfile
  cases hfile

/-- `exists()` of a row's file. -/
private theorem Listable.present_row (hw : Listable user w) {path : String} (hrow : w.HasRow user path)
    (hfit : w.fs.disk.Fits (treeLoc user path)) :
    w.fs.disk.present (treeLoc user path) = .ok (w.fs.disk.isFile (treeLoc user path)) := by
  have hdir := hw.node_ne_dir (hw.rows path hrow) (.inl hrow)
  rw [present_of_fits hw.wf hfit]
  congr 1
  rw [Bool.eq_iff_iff, isFile_iff hw.wf]
  cases hn : w.fs.disk.node (treeLoc user path) with
  | none => simp
  | some n =>
    cases n with
    | dir => exact absurd hn hdir
    | file data => simp

private theorem Listable.isFile_treeLoc (hw : Listable user w) {path : String} (hnormal : Normalized path) :
    w.fs.disk.isFile (treeLoc user path) = true ↔ w.HasFile user path := by
  rw [isFile_iff hw.wf]
  exact ⟨fun h => ⟨hnormal, h⟩, fun h => h.2⟩

end

/-! ### The rows -/

/-- The rows of the user under the prefix, in the order of their paths. -/
def rowsUnder (user pre : String) (c : Catalog) : List Entry :=
  ((c.entries.filter fun e => e.userId = user).mergeSort fun e e' => e.path ≤ e'.path).filter fun e => Under pre e.path

section

variable {user pre : String} {w : World}

private theorem mem_rowsUnder {c : Catalog} {e : Entry} :
    e ∈ rowsUnder user pre c ↔ e ∈ c.entries ∧ e.userId = user ∧ Under pre e.path := by
  unfold rowsUnder
  simp [and_assoc]

theorem Listable.entriesUnderPrefix_eq (hw : Listable user w) (hpre : IsPrefix pre) :
    entriesUnderPrefix user pre w.catalog = .ok (rowsUnder user pre w.catalog) := by
  unfold entriesUnderPrefix rowsUnder
  apply Program.filterM_ok
  intro e he
  have hmem : e ∈ w.catalog.entries ∧ e.userId = user := by simpa using he
  rcases hpre with rfl | hpre
  · simp [under_empty]
  · have hne : pre ≠ "" := by
      rintro rfl
      exact absurd hpre (by decide)
    rw [if_neg hpre.ne_empty, pathIsWithinPrefix_under (hw.rows _ ⟨e, hmem.1, hmem.2, rfl⟩) hpre]

private theorem Listable.rowsUnder_nodup (hw : Listable user w) :
    ((rowsUnder user pre w.catalog).map (·.path)).Nodup := by
  have hpaths : ((w.catalog.entries.filter fun e => e.userId = user).map (·.path)).Nodup := by
    rw [List.nodup_map_iff_inj_on]
    · intro e he e' he' heq
      have hu : e.userId = user := by simpa using (List.mem_filter.1 he).2
      have hu' : e'.userId = user := by simpa using (List.mem_filter.1 he').2
      exact hw.distinct.eq_of_path (List.mem_filter.1 he).1 (List.mem_filter.1 he').1 (hu.trans hu'.symm) heq
    · exact (List.Nodup.of_map _ hw.distinct.paths).filter _
  refine List.Nodup.sublist ((List.filter_sublist).map _) ?_
  exact (((List.mergeSort_perm _ _).map _).nodup_iff).2 hpaths

end

/-! ### The files -/

/-- The files that `diskFilesUnderPrefix` finds. -/
structure FilesUnder (user pre : String) (w : World) (files : List (String × Loc)) : Prop where
  nodup : (files.map Prod.fst).Nodup
  mem : ∀ path, path ∈ files.map Prod.fst ↔ w.HasFile user path ∧ Under pre path
  loc : ∀ f ∈ files, f.2 = treeLoc user f.1

section

variable {user pre : String} {w : World}

/-- What a candidate adds to the files. -/
private def candidateFile (d : Disk) (l : Loc) : Option (String × Loc) :=
  if d.isFile l then (logicalTreePath l.path).map fun path => (path, l) else none

private theorem Listable.file_at (hw : Listable user w) {l : Loc} (harea : l.area = .users user)
    (hl : w.fs.disk.isFile l = true) : ∃ path, w.HasFile user path ∧ l = treeLoc user path := by
  obtain ⟨a, p⟩ := l
  obtain rfl : a = .users user := harea
  obtain ⟨data, hdata⟩ := (isFile_iff hw.wf _).1 hl
  obtain ⟨path, hnormal, rfl⟩ := hw.files p data hdata
  exact ⟨path, ⟨hnormal, data, hdata⟩, rfl⟩

private theorem Listable.listedFile_eq (hw : Listable user w) (hpre : IsPrefix pre) {l : Loc}
    (harea : l.area = .users user) (hbelow : treePath pre <:+ l.path) :
    listedFile pre w.fs.disk l = .ok (candidateFile w.fs.disk l) := by
  unfold listedFile candidateFile
  by_cases hl : w.fs.disk.isFile l = true
  · obtain ⟨path, hfile, rfl⟩ := hw.file_at harea hl
    rw [if_pos hl, if_pos hl]
    simp only [treeLoc, logicalTreePath_treePath hfile.1]
    rcases hpre with rfl | hpre
    · rfl
    · have hne : pre ≠ "" := by
        rintro rfl
        exact absurd hpre (by decide)
      have hunder : Under pre path := treePath_suffix.1 hbelow
      rw [if_neg hpre.ne_empty, pathIsWithinPrefix_under hfile.1 hpre, decide_eq_true hunder]
      rfl
  · rw [if_neg hl, if_neg hl]

/-- Candidates that cover the files under the prefix. -/
private theorem Listable.candidates (hw : Listable user w) (hpre : IsPrefix pre) {candidates : List Loc}
    (hnodup : candidates.Nodup) (hbelow : ∀ l ∈ candidates, l.area = .users user ∧ treePath pre <:+ l.path)
    (hcover : ∀ path, w.HasFile user path → Under pre path → treeLoc user path ∈ candidates) :
    ∃ files, candidates.filterMapM (listedFile pre w.fs.disk) = .ok files ∧ FilesUnder user pre w files := by
  refine ⟨candidates.filterMap (candidateFile w.fs.disk),
    Program.filterMapM_ok fun l hl => hw.listedFile_eq hpre (hbelow l hl).1 (hbelow l hl).2, ?_⟩
  have hloc : ∀ f ∈ candidates.filterMap (candidateFile w.fs.disk),
      f.2 ∈ candidates ∧ w.HasFile user f.1 ∧ f.2 = treeLoc user f.1 := by
    intro f hf
    obtain ⟨l, hl, hcand⟩ := List.mem_filterMap.1 hf
    unfold candidateFile at hcand
    by_cases hfile : w.fs.disk.isFile l = true
    · obtain ⟨path, hpath, rfl⟩ := hw.file_at (hbelow l hl).1 hfile
      rw [if_pos hfile] at hcand
      simp only [treeLoc, logicalTreePath_treePath hpath.1, Option.map_some, Option.some.injEq] at hcand
      subst hcand
      exact ⟨hl, hpath, rfl⟩
    · rw [if_neg hfile] at hcand
      cases hcand
  have hcandidate : ∀ path, w.HasFile user path →
      candidateFile w.fs.disk (treeLoc user path) = some (path, treeLoc user path) := by
    intro path hpath
    unfold candidateFile
    rw [if_pos ((hw.isFile_treeLoc hpath.1).2 hpath)]
    simp only [treeLoc, logicalTreePath_treePath hpath.1, Option.map_some]
  refine ⟨?_, fun path => ?_, fun f hf => (hloc f hf).2.2⟩
  · rw [List.nodup_map_iff_inj_on]
    · intro f hf g hg heq
      exact Prod.ext heq (by rw [(hloc f hf).2.2, (hloc g hg).2.2, heq])
    · refine hnodup.filterMap ?_
      intro l l' f hl hl'
      unfold candidateFile at hl hl'
      have hfst : ∀ {l : Loc}, (if w.fs.disk.isFile l = true then (logicalTreePath l.path).map fun path => (path, l)
          else none) = some f → l = f.2 := by
        intro l h
        split at h
        · obtain ⟨path, -, rfl⟩ := Option.map_eq_some_iff.1 h
          rfl
        · cases h
      rw [hfst hl, hfst hl']
  · rw [List.mem_map]
    constructor
    · rintro ⟨f, hf, rfl⟩
      obtain ⟨hmem, hfile, heq⟩ := hloc f hf
      refine ⟨hfile, treePath_suffix.1 ?_⟩
      have := (hbelow _ hmem).2
      rwa [heq] at this
    · rintro ⟨hfile, hunder⟩
      exact ⟨_, List.mem_filterMap.2 ⟨_, hcover path hfile hunder, hcandidate path hfile⟩, rfl⟩

theorem mem_rglob {d : Disk} {start l : Loc} :
    l ∈ d.rglob start ↔ (d.node l).isSome ∧ l.area = start.area ∧ start.path <:+ l.path ∧ start.path ≠ l.path := by
  unfold Disk.rglob
  rw [List.mem_mergeSort, List.mem_filter, List.mem_dedup, ← Dict.get?_isSome_iff, decide_eq_true_iff]
  refine and_congr_left fun h => ?_
  have hne : l.path ≠ [] := by
    intro hnil
    rw [hnil] at h
    exact h.2.2 (List.suffix_nil.1 h.2.1)
  rw [Disk.node_of_ne_nil _ hne]

theorem rglob_nodup (d : Disk) (start : Loc) : (d.rglob start).Nodup := by
  unfold Disk.rglob
  exact ((List.mergeSort_perm _ _).nodup_iff).2 ((List.nodup_dedup _).filter _)

private theorem diskFilesUnderPrefix_start {d : Disk} (hd : d.WF) (hfit : d.Fits (treeLoc user pre)) :
    diskFilesUnderPrefix user pre d =
      if (d.node (treeLoc user pre)).isSome then
        (if d.isFile (treeLoc user pre) then [treeLoc user pre] else d.rglob (treeLoc user pre)).filterMapM
          (listedFile pre d)
      else .ok [] := by
  have hroot : d.node ⟨.users user, []⟩ = some .dir := rfl
  have hstart : (if pre = "" then (⟨.users user, []⟩ : Loc) else treeLoc user pre) = treeLoc user pre := by
    split
    · subst pre
      rfl
    · rfl
  unfold diskFilesUnderPrefix
  simp only [hstart, present_of_fits hd (hd.fits (by rw [hroot]; rfl)), hroot, present_of_fits hd hfit]
  rfl

/-- The files under a prefix are found, whatever it names: nothing, a file or a directory. -/
private theorem Listable.diskFilesUnderPrefix_eq (hw : Listable user w) (hpre : IsPrefix pre)
    (hfit : w.fs.disk.Fits (treeLoc user pre)) :
    ∃ files, diskFilesUnderPrefix user pre w.fs.disk = .ok files ∧ FilesUnder user pre w files := by
  rw [diskFilesUnderPrefix_start hw.wf hfit]
  have hpath : (treeLoc user pre).path = treePath pre := rfl
  by_cases hsome : (w.fs.disk.node (treeLoc user pre)).isSome = true
  · rw [if_pos hsome]
    by_cases hfile : w.fs.disk.isFile (treeLoc user pre) = true
    · rw [if_pos hfile]
      refine hw.candidates hpre (by simp) (by simp [treeLoc]) fun path hpath hunder => ?_
      obtain ⟨pre', hpre', heq⟩ := hw.file_at rfl hfile
      have hunder' : Under pre' path := by
        rw [← treePath_suffix, show treePath pre' = treePath pre from congrArg Loc.path heq.symm, treePath_suffix]
        exact hunder
      have := hw.apart pre' path (.inr hpre') (.inr hpath) hunder'
      rw [heq, this]
      simp
    · rw [if_neg hfile]
      refine hw.candidates hpre (rglob_nodup _ _) (fun l hl => ?_) fun path hfilePath hunder => ?_
      · obtain ⟨-, harea, hsuffix, -⟩ := mem_rglob.1 hl
        exact ⟨harea, hsuffix⟩
      · obtain ⟨hnormal, data, hdata⟩ := hfilePath
        refine mem_rglob.2 ⟨by rw [hdata]; rfl, rfl, treePath_suffix.2 hunder, fun heq => hfile ?_⟩
        rw [isFile_iff hw.wf]
        refine ⟨data, ?_⟩
        rw [← hdata, treeLoc, treeLoc, ← hpath, heq]
        rfl
  · rw [if_neg hsome]
    refine ⟨[], rfl, by simp, fun path => ?_, by simp⟩
    simp only [List.map_nil, List.not_mem_nil, false_iff, not_and]
    rintro ⟨hnormal, data, hdata⟩ hunder
    apply hsome
    by_cases heq : treePath pre = treePath path
    · rw [treeLoc, heq]
      exact (congrArg Option.isSome hdata).trans rfl
    · have hdir := hw.wf.ancestor (a := .users user) (p := treePath path) (q := treePath pre)
        (congrArg Option.isSome hdata) (treePath_suffix.2 hunder) heq
      rw [show w.fs.disk.node (treeLoc user pre) = some .dir from hdir]
      rfl

end

/-! ### The loops -/

section

variable {user pre : String} {w : World} {σ : Type}
  (add : String → Except StoreError DirectoryEntry → σ → Listing σ)

/-- One entry of a listing is added. -/
def addSeen (found : σ) (e : DirectoryEntry) : Listing σ := add e.path (.ok e) found

private theorem listRows_eq {rows : List Entry} {there : Entry → Bool}
    (h : ∀ e ∈ rows, w.fs.disk.present (treeLoc user e.path) = .ok (there e)) (found : σ) (incomplete : Bool) :
    listRows add user w rows (found, incomplete) = do
      let found ← ((rows.filter there).map fileEntry).foldlM (addSeen add) found
      return (found, incomplete || rows.any fun e => !there e) := by
  induction rows generalizing found incomplete with
  | nil =>
    rw [List.any_nil, Bool.or_false]
    rfl
  | cons e rows ih =>
    have ih := ih fun e' he' => h e' (List.mem_cons_of_mem _ he')
    unfold listRows
    rw [h e (by simp)]
    show (if there e = true then _ else _) = _
    by_cases hthere : there e = true
    · rw [if_pos hthere, List.filter_cons_of_pos hthere, List.map_cons, List.foldlM_cons, bind_assoc]
      refine bind_congr fun found => ?_
      rw [ih]
      simp [hthere]
    · rw [if_neg hthere, List.filter_cons_of_neg hthere, ih]
      simp [hthere]

private theorem listFiles_eq {files : List (String × Loc)} {known : String → Bool}
    {entry : String × Loc → DirectoryEntry} (hstat : ∀ f ∈ files, ∃ r, stat user f.1 w = .ok r ∧ r.isSome = known f.1)
    (hentry : ∀ f ∈ files, diskDirectoryEntry w.fs.disk f.1 f.2 = .ok (entry f) ∧ (entry f).path = f.1)
    (found : σ) (incomplete : Bool) :
    listFiles add user w files (found, incomplete) = do
      let found ← ((files.filter fun f => !known f.1).map entry).foldlM (addSeen add) found
      return (found, incomplete || files.any fun f => !known f.1) := by
  induction files generalizing found incomplete with
  | nil =>
    rw [List.any_nil, Bool.or_false]
    rfl
  | cons f files ih =>
    have ih := ih (fun f' hf' => hstat f' (List.mem_cons_of_mem _ hf'))
      (fun f' hf' => hentry f' (List.mem_cons_of_mem _ hf'))
    obtain ⟨r, hr, hknown⟩ := hstat f (by simp)
    obtain ⟨hdisk, hpath⟩ := hentry f (by simp)
    unfold listFiles
    rw [hr, hdisk]
    show (if r.isSome = true then _ else _) = _
    rw [hknown]
    by_cases hrow : known f.1 = true
    · rw [if_pos hrow, List.filter_cons_of_neg (by simp [hrow]), ih]
      simp [hrow]
    · rw [if_neg hrow, List.filter_cons_of_pos (by simpa using hrow), List.map_cons, List.foldlM_cons, bind_assoc]
      have hadd : addSeen add found (entry f) = add f.1 (.ok (entry f)) found := by rw [addSeen, hpath]
      rw [hadd]
      refine bind_congr fun found => ?_
      rw [ih]
      simp [hrow]

/-- `stat` finds the row of a file. -/
private theorem Listable.stat_of_file (hw : Listable user w) {path : String} (hfile : w.HasFile user path) :
    ∃ r, stat user path w = .ok r ∧ r.isSome = w.catalog.entries.any fun e => e.userId = user && e.path = path := by
  have hnormal : normalizePath path = .ok path := hfile.1
  unfold stat
  rw [hnormal]
  simp only [bind, Except.bind]
  cases hfind : w.catalog.entries.find? fun e => e.userId = user && e.path = path with
  | none =>
    refine ⟨none, rfl, ?_⟩
    symm
    rw [Option.isSome_none, List.any_eq_false]
    exact List.find?_eq_none.1 hfind
  | some e =>
    have hkey := List.find?_some hfind
    have hmem := List.mem_of_find?_eq_some hfind
    obtain ⟨data, hdata⟩ := hfile.2
    have hpath : e.path = path := by simpa using (Bool.and_eq_true_iff.1 hkey).2
    simp only [hpath, present_of_fits hw.wf (hw.wf.fits (congrArg Option.isSome hdata)), hdata]
    exact ⟨some e, rfl, (List.any_eq_true.2 ⟨e, hmem, hkey⟩).symm⟩

/-- The user has a row of the path. -/
def World.knows (w : World) (user path : String) : Bool :=
  w.catalog.entries.any fun e => e.userId = user && e.path = path

private theorem World.knows_iff {path : String} : w.knows user path = true ↔ w.HasRow user path := by
  simp only [World.knows, List.any_eq_true, Bool.and_eq_true, decide_eq_true_eq, World.HasRow]

/-- The entries of the rows that have a file, and then those of the files that have no row. -/
def seenEntries (user pre : String) (w : World) (files : List (String × Loc))
    (entry : String × Loc → DirectoryEntry) : List DirectoryEntry :=
  ((rowsUnder user pre w.catalog).filter fun e => w.fs.disk.isFile (treeLoc user e.path)).map fileEntry ++
    (files.filter fun f => !w.knows user f.1).map entry

/-- A row has no file, or a file no row. -/
def rowsMismatch (user pre : String) (w : World) (files : List (String × Loc)) : Bool :=
  (rowsUnder user pre w.catalog).any (fun e => !w.fs.disk.isFile (treeLoc user e.path)) ||
    files.any fun f => !w.knows user f.1

private theorem hasRow_of_mem_rowsUnder {e : Entry} (he : e ∈ rowsUnder user pre w.catalog) :
    w.HasRow user e.path ∧ Under pre e.path := by
  obtain ⟨hmem, huser, hpath⟩ := mem_rowsUnder.1 he
  exact ⟨⟨e, hmem, huser, rfl⟩, hpath⟩

private theorem Listable.isFile_of_mem_rowsUnder (hw : Listable user w) {e : Entry}
    (he : e ∈ rowsUnder user pre w.catalog) :
    w.fs.disk.isFile (treeLoc user e.path) = true ↔ w.HasFile user e.path :=
  hw.isFile_treeLoc (hw.rows _ (hasRow_of_mem_rowsUnder he).1)

private theorem FilesUnder.hasFile {files : List (String × Loc)} (h : FilesUnder user pre w files) {f : String × Loc}
    (hf : f ∈ files) : w.HasFile user f.1 ∧ Under pre f.1 :=
  (h.mem f.1).1 (List.mem_map_of_mem hf)

/-- The entry that the disk gives of each file. -/
private theorem Listable.exists_diskEntry (hw : Listable user w) {files : List (String × Loc)}
    (hunder : FilesUnder user pre w files) :
    ∃ entry : String × Loc → DirectoryEntry, ∀ f ∈ files,
      diskDirectoryEntry w.fs.disk f.1 f.2 = .ok (entry f) ∧ (entry f).path = f.1 ∧ (entry f).kind = .file := by
  have hdisk : ∀ f : String × Loc, ∃ e, f ∈ files →
      diskDirectoryEntry w.fs.disk f.1 f.2 = .ok e ∧ e.path = f.1 ∧ e.kind = .file := by
    intro f
    by_cases hf : f ∈ files
    · obtain ⟨data, hdata⟩ := (hunder.hasFile hf).1.2
      have hresolve := (hw.wf.resolve_ok_iff _ _).2 hdata
      rw [← hunder.loc f hf] at hresolve
      refine ⟨⟨f.1, .file, some data.size, some (countLines false (decodeReplace data.data.toList)), none⟩,
        fun _ => ⟨?_, rfl, rfl⟩⟩
      unfold diskDirectoryEntry
      rw [hresolve]
    · exact ⟨directoryEntry f.1, fun h => absurd h hf⟩
  choose entry hentry using hdisk
  exact ⟨entry, hentry⟩

/-- Every file under the prefix is among the entries, once: with its row, or for itself. -/
private theorem Listable.seen_entries (hw : Listable user w) {files : List (String × Loc)}
    {entry : String × Loc → DirectoryEntry}
    (hunder : FilesUnder user pre w files) (hentry : ∀ f ∈ files, (entry f).path = f.1 ∧ (entry f).kind = .file) :
    Seen user pre w (seenEntries user pre w files entry) := by
  have hfst : ((files.filter fun f => !w.knows user f.1).map entry).map (·.path) =
      (files.filter fun f => !w.knows user f.1).map Prod.fst := by
    rw [List.map_map]
    exact List.map_congr_left fun f hf => (hentry f (List.mem_filter.1 hf).1).1
  unfold seenEntries
  refine ⟨?_, fun e he => ?_, fun path => ?_⟩
  · rw [List.map_append, hfst, List.map_map, List.nodup_append]
    refine ⟨?_, ?_, ?_⟩
    · exact hw.rowsUnder_nodup.sublist (List.filter_sublist.map _)
    · exact hunder.nodup.sublist (List.filter_sublist.map _)
    · rintro path hpath path' hpath' rfl
      obtain ⟨e, he, rfl⟩ := List.mem_map.1 hpath
      obtain ⟨f, hf, heq⟩ := List.mem_map.1 hpath'
      have hnot := (List.mem_filter.1 hf).2
      rw [heq, Bool.not_eq_true', Bool.eq_false_iff] at hnot
      exact hnot (World.knows_iff.2 (hasRow_of_mem_rowsUnder (List.mem_filter.1 he).1).1)
  · rcases List.mem_append.1 he with he | he
    · obtain ⟨r, -, rfl⟩ := List.mem_map.1 he
      rfl
    · obtain ⟨f, hf, rfl⟩ := List.mem_map.1 he
      exact (hentry f (List.mem_filter.1 hf).1).2
  · rw [List.map_append, hfst, List.map_map, List.mem_append]
    constructor
    · rintro (hpath | hpath)
      · obtain ⟨e, he, rfl⟩ := List.mem_map.1 hpath
        obtain ⟨hmem, htrue⟩ := List.mem_filter.1 he
        exact ⟨(hw.isFile_of_mem_rowsUnder hmem).1 htrue, (hasRow_of_mem_rowsUnder hmem).2⟩
      · obtain ⟨f, hf, rfl⟩ := List.mem_map.1 hpath
        exact hunder.hasFile (List.mem_filter.1 hf).1
    · rintro ⟨hpath, hbelow⟩
      by_cases hrow : w.HasRow user path
      · obtain ⟨e, he, huser, rfl⟩ := hrow
        have hmem := mem_rowsUnder.2 ⟨he, huser, hbelow⟩
        exact .inl (List.mem_map.2 ⟨e, List.mem_filter.2 ⟨hmem, (hw.isFile_of_mem_rowsUnder hmem).2 hpath⟩, rfl⟩)
      · obtain ⟨f, hf, rfl⟩ := List.mem_map.1 ((hunder.mem path).2 ⟨hpath, hbelow⟩)
        refine .inr (List.mem_map.2 ⟨f, List.mem_filter.2 ⟨hf, ?_⟩, rfl⟩)
        rw [Bool.not_eq_true', Bool.eq_false_iff]
        exact fun h => hrow (World.knows_iff.1 h)

private theorem Listable.rowsMismatch_iff (hw : Listable user w) {files : List (String × Loc)}
    (hunder : FilesUnder user pre w files) : rowsMismatch user pre w files = false ↔ w.Agree user pre := by
  unfold rowsMismatch
  rw [Bool.or_eq_false_iff, List.any_eq_false, List.any_eq_false]
  simp only [Bool.not_eq_true', Bool.not_eq_false]
  constructor
  · rintro ⟨hall, hall'⟩ path hbelow
    constructor
    · rintro ⟨e, he, huser, rfl⟩
      have hmem := mem_rowsUnder.2 ⟨he, huser, hbelow⟩
      exact (hw.isFile_of_mem_rowsUnder hmem).1 (hall e hmem)
    · intro hpath
      obtain ⟨f, hf, rfl⟩ := List.mem_map.1 ((hunder.mem path).2 ⟨hpath, hbelow⟩)
      exact World.knows_iff.1 (hall' f hf)
  · intro hagree
    refine ⟨fun e he => ?_, fun f hf => ?_⟩
    · obtain ⟨hrow, hbelow⟩ := hasRow_of_mem_rowsUnder he
      exact (hw.isFile_of_mem_rowsUnder he).2 ((hagree _ hbelow).1 hrow)
    · obtain ⟨hfile, hbelow⟩ := hunder.hasFile hf
      exact World.knows_iff.2 ((hagree _ hbelow).2 hfile)

/-- Every file under the prefix is seen once, and the flag tells whether rows and files agree. -/
theorem Listable.listBoth_eq (hw : Listable user w) (hpre : IsPrefix pre)
    (hrows : ∀ path, w.HasRow user path → Under pre path → w.fs.disk.Fits (treeLoc user path))
    (hfit : w.fs.disk.Fits (treeLoc user pre)) :
    ∃ seen mismatch, Seen user pre w seen ∧ (mismatch = false ↔ w.Agree user pre) ∧
      ∀ (σ : Type) (add : String → Except StoreError DirectoryEntry → σ → Listing σ) (found : σ),
        listBoth add user w pre found = do
          let found ← seen.foldlM (addSeen add) found
          return (found, mismatch) := by
  obtain ⟨files, hfiles, hunder⟩ := hw.diskFilesUnderPrefix_eq hpre hfit
  obtain ⟨entry, hentry⟩ := hw.exists_diskEntry hunder
  refine ⟨seenEntries user pre w files entry, rowsMismatch user pre w files,
    hw.seen_entries hunder fun f hf => (hentry f hf).2, hw.rowsMismatch_iff hunder, fun σ add found => ?_⟩
  unfold listBoth seenEntries rowsMismatch
  rw [hw.entriesUnderPrefix_eq hpre]
  show (do
    let state ← listRows add user w (rowsUnder user pre w.catalog) (found, false)
    let files ← Listing.raising (diskFilesUnderPrefix user pre w.fs.disk)
    listFiles add user w files state) = _
  rw [listRows_eq add fun e he => hw.present_row (hasRow_of_mem_rowsUnder he).1
      (hrows _ (hasRow_of_mem_rowsUnder he).1 (hasRow_of_mem_rowsUnder he).2), List.foldlM_append, hfiles, bind_assoc,
        bind_assoc]
  refine bind_congr fun found => ?_
  rw [pure_bind]
  exact listFiles_eq add (fun f hf => hw.stat_of_file (hunder.hasFile hf).1)
    (fun f hf => ⟨(hentry f hf).1, (hentry f hf).2.1⟩) found _

end

end Ctxd

import Ctxd.ListingSources
import Ctxd.Runs

/-!
# Listings agree with one another and with a reference

The reference is a set of files, no one of them an ancestor of another.  A tree lists the files and the directories
above them as deep as asked (`InTree`), a glob lists the files that the components of a pattern match (`GlobRelation`),
and `ls` lists the tree of depth one.  A prefix that does not fit the filesystem is met by `Path.exists` with an error.
-/

namespace Ctxd

/-! ### The reference -/

def depthBelow (pre path : String) : Nat := (posixParts path).length - (posixParts pre).length

/-- What a tree lists of a set of files under a prefix. -/
inductive InTree (files : Set String) (pre : String) (depth : Option Int) : String → EntryKind → Prop
  | file {path : String} (hfile : path ∈ files) (hdepth : withinDepth depth (depthBelow pre path) = true) :
    InTree files pre depth path .file
  | directory {path below : String} (hbelow : below ∈ files) (hnormal : Normalized path) (habove : Under path below)
    (hproper : path ≠ below) (hunder : Under pre path) (hne : path ≠ pre)
    (hdepth : withinDepth depth (depthBelow pre path) = true) : InTree files pre depth path .directory

/-- A pattern matches a path component by component; `**` matches any number of components. -/
inductive GlobRelation (fnmatchcase : String → String → Bool) : List String → List String → Prop
  | nil : GlobRelation fnmatchcase [] []
  | starsEnd {pattern path : List String} (h : GlobRelation fnmatchcase pattern path) :
    GlobRelation fnmatchcase ("**" :: pattern) path
  | starsMore {pattern path : List String} {name : String} (h : GlobRelation fnmatchcase ("**" :: pattern) path) :
    GlobRelation fnmatchcase ("**" :: pattern) (name :: path)
  | component {head name : String} {pattern path : List String} (hhead : head ≠ "**")
    (hname : fnmatchcase name head = true) (h : GlobRelation fnmatchcase pattern path) :
    GlobRelation fnmatchcase (head :: pattern) (name :: path)

def World.filesUnder (w : World) (user pre : String) : Set String := {path | w.HasFile user path ∧ Under pre path}

/-- The listings under a prefix are those of the reference. -/
structure ListingsAgree (casefold : String → String) (fnmatchcase : String → String → Bool) (user pre : String)
    (w : World) : Prop where
  tree : ∀ depth : Option Int, (∀ k ∈ depth, 0 ≤ k) → ∃ all : List DirectoryEntry,
    (all.map (·.path)).Nodup ∧
    (∀ path kind, (∃ e ∈ all, e.path = path ∧ e.kind = kind) ↔ InTree (w.filesUnder user pre) pre depth path kind) ∧
    ∀ limit : Int, 0 < limit → ∃ r, Ctxd.tree casefold user pre depth limit w = .ok r ∧
      r.items = all.take limit.toNat ∧ (r.complete = true ↔ w.Agree user pre ∧ all.length ≤ limit)
  ls : ∀ limit : Int, 0 < limit → ∃ r, Ctxd.tree casefold user pre (some 1) limit w = .ok r ∧
    Ctxd.ls casefold user pre limit w = .ok { r with items := r.items.filter (·.path ≠ pre) }
  glob : ∀ pattern parts, validateGlobPattern pattern = .ok parts → ∃ all : List DirectoryEntry,
    (all.map (·.path)).Nodup ∧ (∀ e ∈ all, e.kind = .file) ∧
    (∀ path, path ∈ all.map (·.path) ↔ path ∈ w.filesUnder user pre ∧
      GlobRelation fnmatchcase parts (posixParts path)) ∧
    ∀ limit : Int, 0 < limit → ∃ r, Ctxd.glob fnmatchcase user pattern pre limit w = .ok r ∧
      r.items = all.take limit.toNat ∧ (r.complete = true ↔ w.Agree user pre ∧ all.length < limit)

/-! ### Components -/

private theorem Under.antisymm {p q : String} (hp : Normalized p) (hq : Normalized q) (h : Under p q)
    (h' : Under q p) : p = q :=
  parts_injective hp hq (h.eq_of_length_le h'.length_le)

/-- A path that lies properly under a prefix has more components. -/
private theorem Under.length_lt {pre path : String} (hpre : IsPrefix pre) (hpath : Normalized path) (h : Under pre path)
    (hne : path ≠ pre) : (posixParts pre).length < (posixParts path).length := by
  rcases Nat.lt_or_ge (posixParts pre).length (posixParts path).length with hlt | hge
  · exact hlt
  · have heq := List.IsPrefix.eq_of_length_le h hge
    rcases hpre with rfl | hpre
    · rw [posixParts_empty] at heq
      exact absurd heq.symm hpath.posixParts_ne_nil
    · exact absurd (parts_injective hpath hpre heq.symm) hne

private theorem joinRelative_eq {pre : String} (hpre : IsPrefix pre) (name : String) :
    joinRelative pre name = joinParts (posixParts pre ++ [name]) := by
  have hsingle : joinParts [name] = name := by simp [joinParts, joinSlash]
  unfold joinRelative
  rcases hpre with rfl | hpre
  · rw [if_pos rfl, posixParts_empty, List.nil_append, hsingle]
  · rw [if_neg hpre.ne_empty, joinParts_append hpre.posixParts_ne_nil (by simp), hsingle, hpre.posixParts_eq,
      joinParts_rawParts]

/-! ### Patterns -/

private theorem globMatches_iff {fnmatchcase : String → String → Bool} {pattern path : List String} :
    globMatches fnmatchcase pattern path = true ↔ GlobRelation fnmatchcase pattern path := by
  induction pattern generalizing path with
  | nil =>
    unfold globMatches
    rw [List.isEmpty_iff]
    constructor
    · rintro rfl
      exact .nil
    · intro h
      cases h
      rfl
  | cons head pattern ih =>
    unfold globMatches
    by_cases hstars : head = "**"
    · subst hstars
      rw [if_pos rfl, List.any_eq_true]
      constructor
      · rintro ⟨index, hindex, h⟩
        rw [List.mem_range] at hindex
        replace h := ih.1 h
        induction index generalizing path with
        | zero => exact .starsEnd h
        | succ index ihIndex =>
          cases path with
          | nil => simp at hindex
          | cons name path => exact .starsMore (ihIndex (by simpa using hindex) h)
      · intro h
        -- the components that `**` has matched are counted
        generalize hpattern : "**" :: pattern = stars at h
        induction h with
        | nil => cases hpattern
        | starsEnd h =>
          obtain rfl := (List.cons.inj hpattern).2
          exact ⟨0, by simp, ih.2 h⟩
        | starsMore h ihPath =>
          obtain ⟨index, hindex, hmatch⟩ := ihPath hpattern
          exact ⟨index + 1, by simpa using hindex, hmatch⟩
        | component hhead => exact absurd (List.cons.inj hpattern).1.symm hhead
    · rw [if_neg hstars]
      cases path with
      | nil =>
        simp only [Bool.false_eq_true, false_iff]
        intro h
        cases h
        exact hstars rfl
      | cons name path =>
        rw [Bool.and_eq_true, ih]
        constructor
        · rintro ⟨hname, h⟩
          exact .component hstars hname h
        · intro h
          cases h with
          | starsEnd => exact absurd rfl hstars
          | starsMore => exact absurd rfl hstars
          | component _ hname h => exact ⟨hname, h⟩

/-! ### The steps of a tree -/

section

variable {pre : String} {depth : Option Int}

/-- A directory that a tree lists. -/
def isListedParent (pre : String) (depth : Option Int) (q : String) : Bool :=
  q ≠ pre && decide (Under pre q) && withinDepth depth (depthBelow pre q)

/-- The parents that a path brings into a tree. -/
def listedParents (pre : String) (depth : Option Int) (path : String) : List String :=
  (parentPaths path).filter (isListedParent pre depth)

def withParents (pre : String) (depth : Option Int) (path : String) (found : Dict String DirectoryEntry) :
    Dict String DirectoryEntry :=
  (listedParents pre depth path).foldl (fun d q => d.setDefault q (directoryEntry q)) found

private theorem addParents_eq (hpre : IsPrefix pre) {parents : List String} (h : ∀ q ∈ parents, Normalized q)
    (found : Dict String DirectoryEntry) :
    addParents pre depth parents found =
      .ok ((parents.filter (isListedParent pre depth)).foldl (fun d q => d.setDefault q (directoryEntry q)) found) := by
  induction parents generalizing found with
  | nil => rfl
  | cons q parents ih =>
    have ih := ih fun q' hq' => h q' (List.mem_cons_of_mem _ hq')
    have hq := h q (by simp)
    have hstep : ∀ below, below = (q ≠ pre && decide (Under pre q)) →
        (if (below && withinDepth depth (relativeParts pre q).length) = true then
          addParents pre depth parents (found.setDefault q (directoryEntry q))
        else addParents pre depth parents found) =
        .ok (((q :: parents).filter (isListedParent pre depth)).foldl
          (fun d q => d.setDefault q (directoryEntry q)) found) := by
      rintro below rfl
      have hdepth : ((q ≠ pre && decide (Under pre q)) && withinDepth depth (relativeParts pre q).length) =
          isListedParent pre depth q := by
        unfold isListedParent
        by_cases hunder : Under pre q
        · rw [length_relativeParts hpre hq hunder]
          rfl
        · simp [hunder]
      rw [hdepth]
      by_cases hlisted : isListedParent pre depth q = true
      · rw [if_pos hlisted, List.filter_cons_of_pos hlisted, List.foldl_cons, ih]
      · rw [if_neg hlisted, List.filter_cons_of_neg hlisted, ih]
    unfold addParents
    by_cases hne : q = pre
    · rw [if_pos hne]
      exact hstep false (by simp [hne])
    · rw [if_neg hne]
      rcases hpre with rfl | hpre
      · rw [if_pos rfl]
        exact hstep true (by simp [hne, under_empty])
      · rw [if_neg hpre.ne_empty, pathIsWithinPrefix_under hq hpre]
        exact hstep _ (by simp [hne])

/-- The tree after one more file. -/
def treeStep (pre : String) (depth : Option Int) (found : Dict String DirectoryEntry) (e : DirectoryEntry) :
    Dict String DirectoryEntry :=
  withParents pre depth e.path (if withinDepth depth (depthBelow pre e.path) then found.set e.path e else found)

private theorem addTreePath_eq (hpre : IsPrefix pre) {e : DirectoryEntry} (he : Normalized e.path)
    (hunder : Under pre e.path) (found : Dict String DirectoryEntry) :
    addSeen (addTreePath pre depth) found e = .ok (treeStep pre depth found e) := by
  have hparents := @addParents_eq pre depth hpre (parentPaths e.path) fun q hq =>
    ((mem_parentPaths he).1 hq).1
  unfold addSeen addTreePath treeStep withParents listedParents
  rw [length_relativeParts hpre he hunder]
  show Listing.raising (if withinDepth depth (depthBelow pre e.path) = true then _ else _) = _
  by_cases hdepth : withinDepth depth (depthBelow pre e.path) = true
  · rw [if_pos hdepth, if_pos hdepth]
    exact congrArg Listing.raising (hparents _)
  · rw [if_neg hdepth, if_neg hdepth]
    exact congrArg Listing.raising (hparents _)

private theorem mem_listedParents {path q : String} (hpath : Normalized path) :
    q ∈ listedParents pre depth path ↔ Normalized q ∧ Under q path ∧ q ≠ path ∧ Under pre q ∧ q ≠ pre ∧
      withinDepth depth (depthBelow pre q) = true := by
  unfold listedParents isListedParent
  rw [List.mem_filter, mem_parentPaths hpath]
  simp only [Bool.and_eq_true, decide_eq_true_iff]
  tauto

private theorem get?_treeStep (e : DirectoryEntry) (found : Dict String DirectoryEntry) (x : String) :
    (treeStep pre depth found e).get? x =
      (if x = e.path ∧ withinDepth depth (depthBelow pre e.path) = true then some e else found.get? x).or
        (if x ∈ listedParents pre depth e.path then some (directoryEntry x) else none) := by
  unfold treeStep withParents
  rw [Dict.get?_foldl_setDefault]
  congr 1
  by_cases hdepth : withinDepth depth (depthBelow pre e.path) = true
  · rw [if_pos hdepth, Dict.get?_set]
    simp [hdepth]
  · rw [if_neg hdepth, if_neg fun h => hdepth h.2]

/-- The entries found so far are those of the files seen so far. -/
structure TreeDict (pre : String) (depth : Option Int) (files : Set String) (found : Dict String DirectoryEntry) :
    Prop where
  nodup : found.keys.Nodup
  sound : ∀ x e, found.get? x = some e → e.path = x ∧ InTree files pre depth x e.kind
  covers : ∀ x kind, InTree files pre depth x kind → (found.get? x).isSome

private theorem InTree.mono {files files' : Set String} (h : files ⊆ files') {x : String} {kind : EntryKind}
    (hx : InTree files pre depth x kind) : InTree files' pre depth x kind := by
  cases hx with
  | file hfile hdepth => exact .file (h hfile) hdepth
  | directory hbelow hnormal habove hproper hunder hne hdepth =>
    exact .directory (h hbelow) hnormal habove hproper hunder hne hdepth

private theorem TreeDict.step {files : Set String} {found : Dict String DirectoryEntry}
    (h : TreeDict pre depth files found) {e : DirectoryEntry} (he : Normalized e.path) (hkind : e.kind = .file) :
    TreeDict pre depth (insert e.path files) (treeStep pre depth found e) := by
  refine ⟨?_, fun x r hr => ?_, fun x kind hx => ?_⟩
  · unfold treeStep withParents
    apply Dict.nodup_keys_foldl_setDefault
    split
    · exact Dict.nodup_keys_set h.nodup _ _
    · exact h.nodup
  · rw [get?_treeStep] at hr
    rcases Option.or_eq_some_iff.1 hr with hfirst | ⟨-, hsecond⟩
    · split at hfirst
      · rename_i hself
        obtain rfl := Option.some.inj hfirst
        rw [hkind, hself.1]
        exact ⟨rfl, .file (Set.mem_insert _ _) hself.2⟩
      · obtain ⟨hpath, hin⟩ := h.sound x r hfirst
        exact ⟨hpath, hin.mono (Set.subset_insert _ _)⟩
    · split at hsecond
      · rename_i hparent
        obtain rfl := Option.some.inj hsecond
        obtain ⟨hnormal, habove, hproper, hunder, hne, hdepth⟩ := (mem_listedParents he).1 hparent
        exact ⟨rfl, .directory (Set.mem_insert _ _) hnormal habove hproper hunder hne hdepth⟩
      · cases hsecond
  · rw [get?_treeStep, Option.isSome_or, Bool.or_eq_true]
    have hold : (found.get? x).isSome = true → (if x = e.path ∧ withinDepth depth (depthBelow pre e.path) = true
        then some e else found.get? x).isSome = true := by
      intro hsome
      split
      · rfl
      · exact hsome
    cases hx with
    | file hfile hdepth =>
      left
      rcases hfile with rfl | hfile
      · rw [if_pos ⟨rfl, hdepth⟩]
        rfl
      · exact hold (h.covers x .file (.file hfile hdepth))
    | directory hbelow hnormal habove hproper hunder hne hdepth =>
      rcases hbelow with rfl | hbelow
      · right
        rw [if_pos ((mem_listedParents he).2 ⟨hnormal, habove, hproper, hunder, hne, hdepth⟩)]
        rfl
      · exact .inl (hold (h.covers x .directory (.directory hbelow hnormal habove hproper hunder hne hdepth)))

private theorem treeDict_foldl {seen : List DirectoryEntry} (hseen : ∀ e ∈ seen, Normalized e.path ∧ e.kind = .file)
    {files : Set String} {found : Dict String DirectoryEntry} (h : TreeDict pre depth files found) :
    TreeDict pre depth ({x | x ∈ seen.map (·.path)} ∪ files) (seen.foldl (treeStep pre depth) found) := by
  induction seen generalizing files found with
  | nil =>
    rw [List.foldl_nil, show {x | x ∈ List.map (·.path) ([] : List DirectoryEntry)} ∪ files = files by simp]
    exact h
  | cons e seen ih =>
    obtain ⟨he, hkind⟩ := hseen e (by simp)
    have hrest := ih (fun e' he' => hseen e' (List.mem_cons_of_mem _ he')) (h.step he hkind)
    have hset : {x | x ∈ (e :: seen).map (·.path)} ∪ files = {x | x ∈ seen.map (·.path)} ∪ insert e.path files := by
      ext x
      simp only [List.map_cons, List.mem_cons, Set.mem_union, Set.mem_ofPred_eq, Set.mem_insert_iff]
      tauto
    rw [hset]
    exact hrest

end

/-! ### What is returned -/

/-- The entries in the order of their paths. -/
def listedEntries (casefold : String → String) (found : Dict String DirectoryEntry) : List DirectoryEntry :=
  (found.keys.mergeSort fun p q => casefold p ≤ casefold q).filterMap found.get?

private theorem map_path_filterMap {found : Dict String DirectoryEntry}
    (hpath : ∀ x e, found.get? x = some e → e.path = x) {keys : List String} (hkeys : ∀ x ∈ keys, x ∈ found.keys) :
    (keys.filterMap found.get?).map (·.path) = keys := by
  induction keys with
  | nil => rfl
  | cons x keys ih =>
    obtain ⟨e, he⟩ := Option.isSome_iff_exists.1 (Dict.get?_isSome_iff.2 (hkeys x (by simp)))
    rw [List.filterMap_cons_some he, List.map_cons, hpath x e he, ih fun y hy => hkeys y (List.mem_cons_of_mem _ hy)]

private theorem listedEntries_paths (casefold : String → String) {found : Dict String DirectoryEntry}
    (hpath : ∀ x e, found.get? x = some e → e.path = x) :
    ((listedEntries casefold found).map (·.path)).Perm found.keys := by
  unfold listedEntries
  rw [map_path_filterMap hpath fun x hx => by rwa [List.mem_mergeSort] at hx]
  exact List.mergeSort_perm _ _

private theorem mem_listedEntries (casefold : String → String) {found : Dict String DirectoryEntry}
    {e : DirectoryEntry} :
    e ∈ listedEntries casefold found ↔ ∃ x, found.get? x = some e := by
  unfold listedEntries
  rw [List.mem_filterMap]
  constructor
  · rintro ⟨x, -, hx⟩
    exact ⟨x, hx⟩
  · rintro ⟨x, hx⟩
    exact ⟨x, List.mem_mergeSort.2 (Dict.get?_isSome_iff.1 (by rw [hx]; rfl)), hx⟩

private theorem bounded_eq (casefold : String → String) (limit : Int) (found : Dict String DirectoryEntry)
    (mismatch : Bool) :
    bounded casefold limit found mismatch =
      if ((listedEntries casefold found).length : Int) > limit then
        ⟨(listedEntries casefold found).take limit.toNat, false, some .limit⟩
      else ⟨listedEntries casefold found, !mismatch, if mismatch then some .catalogMismatch else none⟩ := rfl

private theorem bounded_of_le {casefold : String → String} {limit : Int} {found : Dict String DirectoryEntry}
    (h : ((listedEntries casefold found).length : Int) ≤ limit) (mismatch : Bool) :
    bounded casefold limit found mismatch =
      ⟨listedEntries casefold found, !mismatch, if mismatch then some .catalogMismatch else none⟩ := by
  rw [bounded_eq, if_neg (by omega)]

/-- A listing is cut off at its limit, and complete when it is not and the sources agree. -/
private theorem bounded_spec (casefold : String → String) (limit : Int) (found : Dict String DirectoryEntry)
    (mismatch : Bool) :
    (bounded casefold limit found mismatch).items = (listedEntries casefold found).take limit.toNat ∧
      ((bounded casefold limit found mismatch).complete = true ↔
        mismatch = false ∧ (listedEntries casefold found).length ≤ limit) := by
  rw [bounded_eq]
  by_cases hover : ((listedEntries casefold found).length : Int) > limit
  · rw [if_pos hover]
    refine ⟨rfl, ?_⟩
    constructor
    · intro h
      cases h
    · intro h
      omega
  · rw [if_neg hover]
    have hle : (listedEntries casefold found).length ≤ limit.toNat := by omega
    refine ⟨(List.take_of_length_le hle).symm, ?_⟩
    show (!mismatch) = true ↔ _
    rw [Bool.not_eq_true']
    exact ⟨fun h => ⟨h, by omega⟩, fun h => h.1⟩

private theorem foldlM_ok {ε α σ : Type} {f : σ → α → Except ε σ} {g : σ → α → σ} {xs : List α}
    (h : ∀ x ∈ xs, ∀ s, f s x = .ok (g s x)) (s : σ) : xs.foldlM f s = .ok (xs.foldl g s) := by
  induction xs generalizing s with
  | nil => rfl
  | cons x xs ih =>
    rw [List.foldlM_cons, h x (by simp), List.foldl_cons, ← ih fun y hy => h y (List.mem_cons_of_mem _ hy)]
    rfl

theorem normalizedPrefix_eq {pre : String} (hpre : IsPrefix pre) : normalizedPrefix pre = .ok pre := by
  unfold normalizedPrefix
  rcases hpre with rfl | hpre
  · rfl
  · rw [if_neg hpre.ne_empty]
    exact hpre

section

variable {user pre : String} {w : World} {seen : List DirectoryEntry} {mismatch : Bool} {limit : Int}
  (casefold : String → String)

/-- The part of `Listable.listBoth_eq` that the listings use. -/
def Lists (user pre : String) (w : World) (seen : List DirectoryEntry) (mismatch : Bool) : Prop :=
  ∀ (σ : Type) (add : String → Except StoreError DirectoryEntry → σ → Listing σ) (found : σ),
    listBoth add user w pre found = do
      let found ← seen.foldlM (addSeen add) found
      return (found, mismatch)

private theorem Seen.normal (h : Seen user pre w seen) {e : DirectoryEntry} (he : e ∈ seen) :
    Normalized e.path ∧ e.kind = .file ∧ Under pre e.path := by
  obtain ⟨hfile, hunder⟩ := (h.mem e.path).1 (List.mem_map_of_mem he)
  exact ⟨hfile.1, h.file e he, hunder⟩

private theorem tree_eq (hpre : IsPrefix pre) (hseen : Seen user pre w seen) (hlists : Lists user pre w seen mismatch)
    {depth : Option Int} (hdepth : ∀ k ∈ depth, 0 ≤ k) (hlimit : 0 < limit) :
    tree casefold user pre depth limit w =
      .ok (bounded casefold limit (seen.foldl (treeStep pre depth) []) mismatch) := by
  have hdepth' : depth.any (· < 0) = false := by
    cases depth with
    | none => rfl
    | some k => simpa using hdepth k rfl
  have hfold : seen.foldlM (addSeen (addTreePath pre depth)) [] = .ok (seen.foldl (treeStep pre depth) []) :=
    foldlM_ok (fun e he found => addTreePath_eq hpre (hseen.normal he).1 (hseen.normal he).2.2 found) []
  unfold tree
  rw [if_neg (by omega), if_neg (by rw [hdepth']; simp), normalizedPrefix_eq hpre]
  show Listing.finish (listBoth (addTreePath pre depth) user w pre [] >>= fun listed =>
    return bounded casefold limit listed.1 listed.2) = _
  rw [hlists, hfold]
  rfl

private theorem ls_eq (hpre : IsPrefix pre) (hlists : Lists user pre w seen mismatch)
    {step : Dict String DirectoryEntry → DirectoryEntry → Dict String DirectoryEntry}
    (hstep : ∀ e ∈ seen, ∀ found, addSeen (addChild pre) found e = .ok (step found e)) (hlimit : 0 < limit) :
    ls casefold user pre limit w = .ok (bounded casefold limit (seen.foldl step []) mismatch) := by
  unfold ls
  rw [if_neg (by omega), normalizedPrefix_eq hpre]
  show Listing.finish (listBoth (addChild pre) user w pre [] >>= fun listed =>
    return bounded casefold limit listed.1 listed.2) = _
  rw [hlists, foldlM_ok hstep []]
  rfl

private theorem Seen.treeDict (hseen : Seen user pre w seen) (depth : Option Int) :
    TreeDict pre depth (w.filesUnder user pre) (seen.foldl (treeStep pre depth) []) := by
  have hempty : TreeDict pre depth ∅ [] := by
    refine ⟨List.nodup_nil, (fun x e he => by cases he), fun x kind hx => ?_⟩
    cases hx with
    | file hfile => exact absurd hfile (Set.notMem_empty _)
    | directory hbelow => exact absurd hbelow (Set.notMem_empty _)
  have hall := treeDict_foldl (fun e he => ⟨(hseen.normal he).1, (hseen.normal he).2.1⟩) hempty
  have hset : {x | x ∈ seen.map (·.path)} ∪ ∅ = w.filesUnder user pre := by
    ext x
    rw [Set.union_empty]
    exact hseen.mem x
  rwa [hset] at hall

/-- No path is a file and a directory. -/
private theorem Listable.kind_unique (hw : Listable user w) {depth : Option Int} {x : String} {kind kind' : EntryKind}
    (h : InTree (w.filesUnder user pre) pre depth x kind) (h' : InTree (w.filesUnder user pre) pre depth x kind') :
    kind = kind' := by
  cases h with
  | file hfile =>
    cases h' with
    | file => rfl
    | directory hbelow _ habove hproper =>
      exact absurd (hw.apart _ _ (.inr hfile.1) (.inr hbelow.1) habove) hproper
  | directory hbelow _ habove hproper =>
    cases h' with
    | file hfile => exact absurd (hw.apart _ _ (.inr hfile.1) (.inr hbelow.1) habove) hproper
    | directory => rfl

private theorem Listable.tree_exact (hw : Listable user w) (hpre : IsPrefix pre) (hseen : Seen user pre w seen)
    (hlists : Lists user pre w seen mismatch) (hmismatch : mismatch = false ↔ w.Agree user pre) {depth : Option Int}
    (hdepth : ∀ k ∈ depth, 0 ≤ k) :
    ∃ all : List DirectoryEntry, (all.map (·.path)).Nodup ∧
      (∀ path kind, (∃ e ∈ all, e.path = path ∧ e.kind = kind) ↔ InTree (w.filesUnder user pre) pre depth path kind) ∧
      ∀ limit : Int, 0 < limit → ∃ r, tree casefold user pre depth limit w = .ok r ∧
        r.items = all.take limit.toNat ∧ (r.complete = true ↔ w.Agree user pre ∧ all.length ≤ limit) := by
  have hdict := hseen.treeDict depth
  refine ⟨listedEntries casefold (seen.foldl (treeStep pre depth) []), ?_, fun path kind => ?_, fun limit hlimit => ?_⟩
  · exact (listedEntries_paths casefold fun x e he => (hdict.sound x e he).1).nodup_iff.2 hdict.nodup
  · constructor
    · rintro ⟨e, he, rfl, rfl⟩
      obtain ⟨x, hx⟩ := (mem_listedEntries casefold).1 he
      obtain ⟨rfl, hin⟩ := hdict.sound x e hx
      exact hin
    · intro hin
      obtain ⟨e, he⟩ := Option.isSome_iff_exists.1 (hdict.covers path kind hin)
      obtain ⟨hpath, hin'⟩ := hdict.sound path e he
      exact ⟨e, (mem_listedEntries casefold).2 ⟨path, he⟩, hpath, hw.kind_unique hin' hin⟩
  · obtain ⟨hitems, hcomplete⟩ := bounded_spec casefold limit (seen.foldl (treeStep pre depth) []) mismatch
    refine ⟨_, tree_eq casefold hpre hseen hlists hdepth hlimit, hitems, ?_⟩
    rw [hcomplete, hmismatch]

/-! ### `ls` is a tree of depth one -/

/-- Below the listed directory, `ls` adds what a tree of depth one adds. -/
private theorem addChild_eq (hpre : IsPrefix pre) {e : DirectoryEntry} (he : Normalized e.path)
    (hunder : Under pre e.path) (hne : e.path ≠ pre) (found : Dict String DirectoryEntry) :
    addSeen (addChild pre) found e = .ok (treeStep pre (some 1) found e) := by
  have hlt := hunder.length_lt hpre he hne
  have hprefix : posixParts pre <+: posixParts e.path := hunder
  obtain ⟨more, hmore⟩ := hprefix
  have hrelative : relativeParts pre e.path = more := by
    rw [relativeParts_eq hpre he, if_pos hunder, ← hmore, List.drop_left]
  have hdepth : depthBelow pre e.path = more.length := by
    unfold depthBelow
    rw [← hmore, List.length_append]
    omega
  unfold addSeen addChild
  rw [hrelative]
  rcases more with _ | ⟨name, _ | ⟨name', rest⟩⟩
  · rw [List.append_nil] at hmore
    rw [hmore] at hlt
    omega
  · -- a file of the directory itself
    have hchild : joinRelative pre name = e.path := by
      rw [joinRelative_eq hpre, hmore, he.posixParts_eq, joinParts_rawParts]
    have hnone : listedParents pre (some 1) e.path = [] := by
      rw [List.eq_nil_iff_forall_not_mem]
      intro q hq
      obtain ⟨hnormal, habove, hproper, hbelow, hneq, -⟩ := (mem_listedParents he).1 hq
      have h1 := hbelow.length_lt hpre hnormal hneq
      have h2 := habove.length_lt (.inr hnormal) he (Ne.symm hproper)
      rw [← hmore, List.length_append] at h2
      simp at h2
      omega
    have hself : ({ e with path := e.path } : DirectoryEntry) = e := rfl
    unfold treeStep withParents
    rw [hnone, hdepth]
    show Listing.raising (.ok e) >>= _ = _
    rw [hchild]
    rfl
  · -- a directory of the directory
    have hprefix : posixParts pre ++ [name] <+: posixParts e.path := by
      rw [← hmore]
      exact (List.prefix_append_right_inj _).2 (by simp)
    obtain ⟨hnormal, hparts⟩ := he.above (by simp) hprefix
    rw [← joinRelative_eq hpre] at hnormal hparts
    have hall : ∀ q ∈ listedParents pre (some 1) e.path, q = joinRelative pre name := by
      intro q hq
      obtain ⟨hnormalq, habove, -, hbelow, hneq, hdepthq⟩ := (mem_listedParents he).1 hq
      have hlong := hbelow.length_lt hpre hnormalq hneq
      have hshort : depthBelow pre q ≤ 1 := by simpa [withinDepth] using hdepthq
      unfold depthBelow at hshort
      have hlength : (posixParts q).length = (posixParts (joinRelative pre name)).length := by
        rw [hparts, List.length_append, List.length_singleton]
        omega
      refine parts_injective hnormalq hnormal (List.IsPrefix.eq_of_length ?_ hlength)
      exact List.prefix_of_prefix_length_le habove (hparts ▸ hprefix) hlength.le
    have hmem : joinRelative pre name ∈ listedParents pre (some 1) e.path := by
      rw [mem_listedParents he]
      refine ⟨hnormal, ?_, fun heq => ?_, ?_, fun heq => ?_, ?_⟩
      · unfold Under
        rw [hparts]
        exact hprefix
      · have := congrArg (fun q => (posixParts q).length) heq
        simp [hparts, ← hmore] at this
      · unfold Under
        rw [hparts]
        exact List.prefix_append _ _
      · have := congrArg (fun q => (posixParts q).length) heq
        simp [hparts] at this
      · unfold depthBelow
        rw [hparts, List.length_append]
        simp [withinDepth]
    have hdeep : ¬withinDepth (some 1) (depthBelow pre e.path) = true := by
      rw [hdepth]
      simp [withinDepth]
    unfold treeStep withParents
    rw [if_neg hdeep, Dict.foldl_setDefault_const directoryEntry (List.ne_nil_of_mem hmem) hall]

private theorem InTree.file_or_ne {files : Set String} {depth : Option Int} {x : String} {kind : EntryKind}
    (h : InTree files pre depth x kind) : x ∈ files ∨ x ≠ pre := by
  cases h with
  | file hfile => exact .inl hfile
  | directory _ _ _ _ _ hne => exact .inr hne

/-- The listed path is a file itself. -/
private theorem Listable.seen_self (hw : Listable user w) (hseen : Seen user pre w seen)
    (hself : pre ∈ seen.map (·.path)) : ∃ e, seen = [e] ∧ e.path = pre := by
  have hfile := ((hseen.mem pre).1 hself).1
  have hall : ∀ path ∈ seen.map (·.path), path = pre := fun path hpath =>
    (hw.apart pre path (.inr hfile) (.inr ((hseen.mem path).1 hpath).1) ((hseen.mem path).1 hpath).2).symm
  have hreplicate := List.eq_replicate_of_mem hall
  have hnodup := hseen.nodup
  rw [hreplicate, List.nodup_replicate] at hnodup
  rcases seen with _ | ⟨e, _ | ⟨e', seen⟩⟩
  · cases hself
  · exact ⟨e, rfl, hall _ (by simp)⟩
  · simp at hnodup

private theorem Listable.ls_exact (hw : Listable user w) (hpre : IsPrefix pre) (hseen : Seen user pre w seen)
    (hlists : Lists user pre w seen mismatch) (hlimit : 0 < limit) :
    ∃ r, tree casefold user pre (some 1) limit w = .ok r ∧
      ls casefold user pre limit w = .ok { r with items := r.items.filter (·.path ≠ pre) } := by
  refine ⟨_, tree_eq casefold hpre hseen hlists (by simp) hlimit, ?_⟩
  by_cases hself : pre ∈ seen.map (·.path)
  · -- `ls` of a file is empty, and the tree below it is the file
    obtain ⟨e, rfl, hpath⟩ := hw.seen_self hseen hself
    have hnormal := (hseen.normal (List.mem_singleton_self e)).1
    have hstep : ∀ e' ∈ [e], ∀ found, addSeen (addChild pre) found e' = .ok ((fun found _ => found) found e') := by
      intro e' he' found
      rw [List.mem_singleton.1 he']
      unfold addSeen addChild
      rw [relativeParts_eq hpre hnormal, hpath, if_pos (Under.refl pre), List.drop_length]
    have hnone : listedParents pre (some 1) e.path = [] := by
      rw [List.eq_nil_iff_forall_not_mem]
      intro q hq
      obtain ⟨hnormalq, habove, hproper, hbelow, -, -⟩ := (mem_listedParents hnormal).1 hq
      rw [hpath] at habove hproper hnormal
      exact hproper (habove.antisymm hnormalq hnormal hbelow)
    have htree : [e].foldl (treeStep pre (some 1)) [] = [(pre, e)] := by
      rw [List.foldl_cons, List.foldl_nil, treeStep, withParents, hnone, hpath]
      simp [withinDepth, depthBelow, Dict.set]
    have hnil : listedEntries casefold [] = [] := by simp [listedEntries, Dict.keys]
    have hone : listedEntries casefold [(pre, e)] = [e] := by simp [listedEntries, Dict.keys, Dict.get?]
    rw [ls_eq casefold hpre hlists hstep hlimit, htree, List.foldl_cons, List.foldl_nil,
      bounded_of_le (by rw [hnil, List.length_nil]; omega), bounded_of_le (by rw [hone, List.length_singleton]; omega),
      hnil, hone]
    simp [hpath]
  · have hstep : ∀ e ∈ seen, ∀ found, addSeen (addChild pre) found e = .ok (treeStep pre (some 1) found e) := by
      intro e he found
      obtain ⟨hnormal, -, hunder⟩ := hseen.normal he
      exact addChild_eq hpre hnormal hunder (fun heq => hself (heq ▸ List.mem_map_of_mem he)) found
    rw [ls_eq casefold hpre hlists hstep hlimit]
    have hall : ∀ e ∈ (bounded casefold limit (seen.foldl (treeStep pre (some 1)) []) mismatch).items,
      e.path ≠ pre := by
      intro e he heq
      rw [(bounded_spec casefold limit _ mismatch).1] at he
      obtain ⟨x, hx⟩ := (mem_listedEntries casefold).1 (List.mem_of_mem_take he)
      obtain ⟨rfl, hin⟩ := (hseen.treeDict (some 1)).sound x e hx
      rcases hin.file_or_ne with hfile | hne
      · exact hself ((hseen.mem pre).2 (heq ▸ hfile))
      · exact hne heq
    rw [List.filter_eq_self.2 fun e he => by simpa using hall e he]

/-! ### Globs -/

/-- A file that a pattern matches. -/
def isMatch (fnmatchcase : String → String → Bool) (parts : List String) (e : DirectoryEntry) : Bool :=
  globMatches fnmatchcase parts (posixParts e.path)

private theorem foldlM_addMatch (fnmatchcase : String → String → Bool) (parts : List String) (hlimit : 0 < limit)
    (seen found : List DirectoryEntry) (hfound : (found.length : Int) < limit) :
    seen.foldlM (addSeen (addMatch fnmatchcase parts limit)) found =
      let all := found ++ seen.filter (isMatch fnmatchcase parts)
      if (all.length : Int) < limit then .ok all
      else .error (.inr ⟨all.take limit.toNat, false, some .limit⟩) := by
  induction seen generalizing found with
  | nil =>
    simp only [List.filter_nil, List.append_nil]
    rw [if_pos hfound]
    rfl
  | cons e seen ih =>
    rw [List.foldlM_cons]
    by_cases hmatch : isMatch fnmatchcase parts e = true
    · rw [List.filter_cons_of_pos hmatch]
      have hadd : addSeen (addMatch fnmatchcase parts limit) found e =
          if ((found ++ [e]).length : Int) ≥ limit then .error (.inr ⟨found ++ [e], false, some .limit⟩)
          else .ok (found ++ [e]) := by
        unfold addSeen addMatch
        rw [if_pos (show globMatches fnmatchcase parts (posixParts e.path) = true from hmatch)]
        rfl
      rw [hadd]
      by_cases hfull : ((found ++ [e]).length : Int) ≥ limit
      · rw [if_pos hfull]
        have hlength : (found ++ [e]).length = limit.toNat := by
          rw [List.length_append, List.length_singleton] at hfull ⊢
          omega
        have hall : found ++ e :: seen.filter (isMatch fnmatchcase parts) =
            (found ++ [e]) ++ seen.filter (isMatch fnmatchcase parts) := by simp
        simp only [hall]
        rw [if_neg (by rw [List.length_append]; omega), ← hlength, List.take_left']
        · rfl
        · rfl
      · rw [if_neg hfull]
        show seen.foldlM _ (found ++ [e]) = _
        rw [ih (found ++ [e]) (by omega)]
        simp only [List.append_assoc, List.singleton_append]
    · rw [List.filter_cons_of_neg hmatch]
      have hadd : addSeen (addMatch fnmatchcase parts limit) found e = .ok found := by
        unfold addSeen addMatch
        rw [if_neg (show ¬globMatches fnmatchcase parts (posixParts e.path) = true from hmatch)]
      rw [hadd]
      exact ih found hfound

private theorem Listable.glob_exact (hpre : IsPrefix pre) (hseen : Seen user pre w seen)
    (hlists : Lists user pre w seen mismatch) (hmismatch : mismatch = false ↔ w.Agree user pre)
    (fnmatchcase : String → String → Bool) {pattern : String} {parts : List String}
    (hpattern : validateGlobPattern pattern = .ok parts) :
    ∃ all : List DirectoryEntry, (all.map (·.path)).Nodup ∧ (∀ e ∈ all, e.kind = .file) ∧
      (∀ path, path ∈ all.map (·.path) ↔
        path ∈ w.filesUnder user pre ∧ GlobRelation fnmatchcase parts (posixParts path)) ∧
      ∀ limit : Int, 0 < limit → ∃ r, glob fnmatchcase user pattern pre limit w = .ok r ∧
        r.items = all.take limit.toNat ∧ (r.complete = true ↔ w.Agree user pre ∧ all.length < limit) := by
  refine ⟨seen.filter (isMatch fnmatchcase parts), ?_, fun e he => ?_, fun path => ?_,
    fun limit hlimit => ?_⟩
  · exact hseen.nodup.sublist (List.filter_sublist.map _)
  · exact hseen.file e (List.mem_filter.1 he).1
  · rw [List.mem_map]
    constructor
    · rintro ⟨e, he, rfl⟩
      obtain ⟨hmem, hmatch⟩ := List.mem_filter.1 he
      exact ⟨(hseen.mem e.path).1 (List.mem_map_of_mem hmem), globMatches_iff.1 hmatch⟩
    · rintro ⟨hfile, hmatch⟩
      obtain ⟨e, he, rfl⟩ := List.mem_map.1 ((hseen.mem path).2 hfile)
      exact ⟨e, List.mem_filter.2 ⟨he, globMatches_iff.2 hmatch⟩, rfl⟩
  · have hloop : glob fnmatchcase user pattern pre limit w = Listing.finish
        (listBoth (addMatch fnmatchcase parts limit) user w pre [] >>= fun listed =>
          return ⟨listed.1, !listed.2, if listed.2 then some .catalogMismatch else none⟩) := by
      unfold glob
      rw [if_neg (by omega), normalizedPrefix_eq hpre, hpattern]
      rfl
    rw [hloop, hlists, foldlM_addMatch fnmatchcase parts hlimit seen [] (by simpa using hlimit)]
    simp only [List.nil_append]
    by_cases hfew : ((seen.filter (isMatch fnmatchcase parts)).length : Int) < limit
    · rw [if_pos hfew]
      have hle : (seen.filter (isMatch fnmatchcase parts)).length ≤ limit.toNat := by omega
      refine ⟨_, rfl, (List.take_of_length_le hle).symm, ?_⟩
      show (!mismatch) = true ↔ _
      rw [Bool.not_eq_true', hmismatch]
      exact ⟨fun h => ⟨h, hfew⟩, fun h => h.1⟩
    · rw [if_neg hfew]
      refine ⟨_, rfl, rfl, ?_⟩
      exact ⟨(fun h => by cases h), fun h => absurd h.2 hfew⟩

end

/-- Listings agree with one another and with the reference. -/
theorem listings_agree (casefold : String → String) (fnmatchcase : String → String → Bool) {user pre : String}
    {w : World} (hw : Listable user w) (hpre : IsPrefix pre)
    (hrows : ∀ path, w.HasRow user path → Under pre path → w.fs.disk.Fits (treeLoc user path))
    (hfit : w.fs.disk.Fits (treeLoc user pre)) : ListingsAgree casefold fnmatchcase user pre w := by
  obtain ⟨seen, mismatch, hseen, hmismatch, hlists⟩ := hw.listBoth_eq hpre hrows hfit
  refine ⟨fun depth hdepth => ?_, fun limit hlimit => ?_, fun pattern parts hpattern => ?_⟩
  · exact hw.tree_exact casefold hpre hseen hlists hmismatch hdepth
  · exact hw.ls_exact casefold hpre hseen hlists hlimit
  · exact Listable.glob_exact hpre hseen hlists hmismatch fnmatchcase hpattern

/-- A store with rows of `d/a` and `d/b` and files of `d/a` and `d/c`. -/
def mixedStore : World :=
  { emptyStore (fun _ => 0) 4000 with
    catalog := ⟨["a", "b"].map fun name => ⟨"user", "writer", "d/" ++ name, name, "1", .editable, "text", "", 2, 1, 1,
      ⟨"", "", none, []⟩, 0, 0⟩, [], [], []⟩
    fs := ⟨⟨[(treeLoc "user" "d", .dir), (treeLoc "user" "d/a", .file ⟨#[104, 105]⟩),
      (treeLoc "user" "d/c", .file ⟨#[104, 105]⟩)], 4000⟩, 0, [], [], none, []⟩ }

private theorem mixedStore_node {l : Loc} {n : Node} (hne : l.path ≠ []) (h : mixedStore.fs.disk.node l = some n) :
    l = treeLoc "user" "d" ∧ n = .dir ∨
      (l = treeLoc "user" "d/a" ∨ l = treeLoc "user" "d/c") ∧ n = .file ⟨#[104, 105]⟩ := by
  rw [Disk.node_of_ne_nil _ hne] at h
  have hmem := Dict.mem_of_get?_eq_some h
  simp only [mixedStore, List.mem_cons, Prod.mk.injEq, List.not_mem_nil, or_false] at hmem
  tauto

private theorem mixedStore_file {path : String} (h : mixedStore.HasFile "user" path) : path = "d/a" ∨ path = "d/c" := by
  obtain ⟨hnormal, data, hdata⟩ := h
  rcases mixedStore_node (l := treeLoc "user" path) hnormal.treePath_ne_nil hdata with ⟨-, hdir⟩ | ⟨hl, -⟩
  · cases hdir
  · exact hl.imp (fun hl => treePath_injective hnormal (by decide +kernel) (congrArg Loc.path hl))
      fun hl => treePath_injective hnormal (by decide +kernel) (congrArg Loc.path hl)

private theorem mixedStore_row {path : String} (h : mixedStore.HasRow "user" path) : path = "d/a" ∨ path = "d/b" := by
  obtain ⟨e, he, -, rfl⟩ := h
  rcases List.mem_map.1 he with ⟨name, hname, rfl⟩
  simp only [List.mem_cons, List.not_mem_nil, or_false] at hname
  rcases hname with rfl | rfl
  · exact .inl (by decide)
  · exact .inr (by decide)

private theorem mixedStore_listable : Listable "user" mixedStore := by
  have hsome : ∀ l, l.path ≠ [] → (mixedStore.fs.disk.node l).isSome →
      l ∈ [treeLoc "user" "d", treeLoc "user" "d/a", treeLoc "user" "d/c"] := by
    intro l hne h
    obtain ⟨n, hn⟩ := Option.isSome_iff_exists.1 h
    rcases mixedStore_node hne hn with ⟨rfl, -⟩ | ⟨rfl | rfl, -⟩ <;> simp
  have hfits : ∀ l ∈ [treeLoc "user" "d", treeLoc "user" "d/a", treeLoc "user" "d/c"],
      mixedStore.fs.disk.Fits l ∧ mixedStore.fs.disk.node l.parent = some .dir := by decide +kernel
  refine ⟨⟨fun a name rest h => ?_, fun a name rest h => ?_, fun l h => ?_⟩, ⟨by decide, by decide⟩, fun path h => ?_,
    fun p data h => ?_, fun p hne h => ?_, fun p q hp hq hunder => ?_⟩
  · exact (hfits _ (hsome _ (by simp) h)).2
  · exact (hfits _ (hsome _ (by simp) h)).1.2 name (List.mem_cons_self ..)
  · by_cases hne : l.path = []
    · unfold Disk.pathTooLong
      rw [hne]
      split <;> simp
    · exact (hfits l (hsome l hne h)).1.1
  · rcases mixedStore_row h with rfl | rfl <;> decide +kernel
  · have hne : p ≠ [] := by
      rintro rfl
      cases h
    rcases mixedStore_node (l := ⟨.users "user", p⟩) hne h with ⟨-, hdir⟩ | ⟨hl | hl, -⟩
    · cases hdir
    · exact ⟨"d/a", by decide +kernel, congrArg Loc.path hl⟩
    · exact ⟨"d/c", by decide +kernel, congrArg Loc.path hl⟩
  · rcases mixedStore_node (l := ⟨.users "user", p⟩) hne h with ⟨hl, -⟩ | ⟨-, hfile⟩
    · refine ⟨treePath "d/a", ⟨#[104, 105]⟩, ?_, by decide +kernel⟩
      rw [show p = treePath "d" from congrArg Loc.path hl]
      decide +kernel
    · cases hfile
  · have hnames : ∀ p, mixedStore.HasRow "user" p ∨ mixedStore.HasFile "user" p → p ∈ ["d/a", "d/b", "d/c"] := by
      rintro p (h | h)
      · rcases mixedStore_row h with rfl | rfl <;> decide
      · rcases mixedStore_file h with rfl | rfl <;> decide
    have happart : ∀ p ∈ ["d/a", "d/b", "d/c"], ∀ q ∈ ["d/a", "d/b", "d/c"], Under p q → p = q := by decide +kernel
    exact happart p (hnames p hp) q (hnames q hq) hunder

/-- A row without its file and a file without its row. -/
theorem listings_agree_mixed : ListingsAgree id (fun name part => name = part) "user" "d" mixedStore := by
  refine listings_agree id (fun name part => name = part) mixedStore_listable (.inr (by decide +kernel)) ?_
    (by decide +kernel)
  intro path hrow _
  rcases mixedStore_row hrow with rfl | rfl <;> decide +kernel

/-- A store with the file `a`, of which the catalog knows nothing. -/
def strayStore : World :=
  { emptyStore (fun _ => 0) 4000 with fs := ⟨⟨[(treeLoc "user" "a", .file ⟨#[104, 105]⟩)], 4000⟩, 0, [], [], none, []⟩ }

private theorem strayStore_node {l : Loc} {n : Node} (hne : l.path ≠ []) (h : strayStore.fs.disk.node l = some n) :
    l = treeLoc "user" "a" ∧ n = .file ⟨#[104, 105]⟩ := by
  rw [Disk.node_of_ne_nil _ hne] at h
  have hmem := Dict.mem_of_get?_eq_some h
  simpa [strayStore] using hmem

private theorem strayStore_listable : Listable "user" strayStore := by
  have hpath : (treeLoc "user" "a").path = ["p-61"] := by decide
  refine ⟨⟨fun a name rest h => ?_, fun a name rest h => ?_, fun l h => ?_⟩, ⟨List.nodup_nil, List.nodup_nil⟩, ?_, ?_,
    ?_, ?_⟩
  · obtain ⟨n, hn⟩ := Option.isSome_iff_exists.1 h
    have heq := (strayStore_node (by simp) hn).1
    have hrest : rest = [] := by
      have := congrArg Loc.path heq
      rw [hpath] at this
      simpa using (List.cons.inj this).2
    rw [hrest]
    rfl
  · obtain ⟨n, hn⟩ := Option.isSome_iff_exists.1 h
    have heq := (strayStore_node (by simp) hn).1
    have harea : a = .users "user" := congrArg Loc.area heq
    have hname : name = "p-61" := by
      have := congrArg Loc.path heq
      rw [hpath] at this
      exact (List.cons.inj this).1
    rw [harea, hname]
    decide +kernel
  · obtain ⟨n, hn⟩ := Option.isSome_iff_exists.1 h
    by_cases hne : l.path = []
    · unfold Disk.pathTooLong
      rw [hne]
      split <;> simp
    · rw [(strayStore_node hne hn).1]
      decide +kernel
  · rintro path ⟨e, he, -⟩
    cases he
  · intro p data h
    have hne : p ≠ [] := by
      rintro rfl
      cases h
    have heq := (strayStore_node (l := ⟨.users "user", p⟩) hne h).1
    exact ⟨"a", by decide +kernel, congrArg Loc.path heq⟩
  · intro p hne h
    have := (strayStore_node (l := ⟨.users "user", p⟩) hne h).2
    cases this
  · have hall : ∀ p, strayStore.HasRow "user" p ∨ strayStore.HasFile "user" p → p = "a" := by
      rintro p (⟨e, he, -⟩ | ⟨hnormal, data, hdata⟩)
      · cases he
      · have heq := (strayStore_node (l := treeLoc "user" p) hnormal.treePath_ne_nil hdata).1
        exact treePath_injective hnormal (by decide +kernel) (congrArg Loc.path heq)
    intro p q hp hq _
    rw [hall p hp, hall q hq]

/-- A path of one component. -/
def plainPath (n : Nat) : String := String.ofList (List.replicate n 'a')

private theorem plainPath_toList (n : Nat) : (plainPath n).toList = List.replicate n 'a' := String.toList_ofList

private theorem rawParts_plainPath (n : Nat) : rawParts (plainPath n) = [plainPath n] :=
  rawParts_of_forall fun c hc => by
    rw [plainPath_toList, List.mem_replicate] at hc
    rw [hc.2]
    decide

private theorem plainPath_normalized (n : Nat) : Normalized (plainPath (n + 3)) := by
  refine normalized_iff.2 ⟨?_, ?_, ?_⟩
  · unfold hasControlCharacter
    rw [plainPath_toList, List.any_eq_false]
    intro c hc
    rw [(List.mem_replicate.1 hc).2]
    decide
  · unfold startsWithDrive
    rw [plainPath_toList]
    rfl
  · have hne : ∀ s : String, s.toList.length < 3 → plainPath (n + 3) ≠ s := by
      rintro s hs rfl
      rw [plainPath_toList, List.length_replicate] at hs
      omega
    rw [rawParts_plainPath]
    simp [isDots, hne "" (by decide), hne "." (by decide), hne ".." (by decide)]

private theorem treePath_plainPath (n : Nat) :
    treePath (plainPath (n + 3)) = [treeComponentName (plainPath (n + 3))] := by
  unfold treePath
  rw [(plainPath_normalized n).posixParts_eq, rawParts_plainPath]
  rfl

private theorem utf8ByteSize_plainPath (n : Nat) : (treeComponentName (plainPath n)).utf8ByteSize = 2 + 2 * n := by
  have hone : 'a'.utf8Size = 1 := rfl
  rw [utf8ByteSize_treeComponentName, plainPath, utf8ByteSize_ofList, List.map_replicate, hone,
    List.sum_replicate_nat]
  omega

/-- A name in the tree has at most `nameMax` bytes. -/
private theorem present_plainPath {d : Disk} (user : String) {n : Nat} (hn : nameMax < 2 + 2 * (n + 3)) :
    d.present (treeLoc user (plainPath (n + 3))) = .error (.osError .ENAMETOOLONG) := by
  have hname : (Area.users user).nameTooLong (treeComponentName (plainPath (n + 3))) = true := by
    show decide (nameMax < (treeComponentName (plainPath (n + 3))).utf8ByteSize) = true
    rw [utf8ByteSize_plainPath]
    exact decide_eq_true hn
  have hresolve : d.resolve (treeLoc user (plainPath (n + 3))) = .error .ENAMETOOLONG := by
    unfold Disk.resolve treeLoc
    rw [treePath_plainPath]
    split
    · rfl
    · unfold Disk.walk
      rw [if_pos hname]
      rfl
  unfold Disk.present
  rw [hresolve]

/-- Listing a prefix that no file can have raises an error of the filesystem. -/
private theorem tree_plainPath {user : String} {w : World} (hw : Listable user w) {n : Nat}
    (hn : nameMax < 2 + 2 * (n + 3)) (hrows : w.catalog.entries = []) :
    tree id user (plainPath (n + 3)) none 1000 w = .error (.osError .ENAMETOOLONG) := by
  have hnormal := plainPath_normalized n
  have hroot : w.fs.disk.present ⟨.users user, []⟩ = .ok true :=
    present_of_fits hw.wf (hw.wf.fits (l := ⟨.users user, []⟩) rfl)
  have hfiles : diskFilesUnderPrefix user (plainPath (n + 3)) w.fs.disk = .error (.osError .ENAMETOOLONG) := by
    unfold diskFilesUnderPrefix
    simp only [hroot, if_neg hnormal.ne_empty, present_plainPath user hn]
    rfl
  have hentries : entriesUnderPrefix user (plainPath (n + 3)) w.catalog = .ok [] := by
    rw [hw.entriesUnderPrefix_eq (.inr hnormal), rowsUnder, hrows]
    simp
  have hboth : listBoth (addTreePath (plainPath (n + 3)) none) user w (plainPath (n + 3)) [] =
      .error (.inl (.osError .ENAMETOOLONG)) := by
    unfold listBoth
    rw [hentries, hfiles]
    rfl
  unfold tree
  rw [if_neg (by decide), if_neg (by simp), normalizedPrefix_eq (.inr hnormal)]
  show Listing.finish (listBoth (addTreePath (plainPath (n + 3)) none) user w (plainPath (n + 3)) [] >>= fun listed =>
    return bounded id 1000 listed.1 listed.2) = _
  rw [hboth]
  rfl

theorem listings_disagree :
    Listable "user" strayStore ∧ IsPrefix (plainPath 127) ∧
      tree id "user" (plainPath 127) none 1000 strayStore = .error (.osError .ENAMETOOLONG) ∧
      ¬ListingsAgree id (fun name part => name = part) "user" (plainPath 127) strayStore := by
  have herror : tree id "user" (plainPath 127) none 1000 strayStore = .error (.osError .ENAMETOOLONG) :=
    tree_plainPath strayStore_listable (n := 124) (by decide) rfl
  refine ⟨strayStore_listable, .inr (plainPath_normalized 124), herror, fun h => ?_⟩
  obtain ⟨all, -, -, hlimit⟩ := h.tree none (by simp)
  obtain ⟨r, hr, -⟩ := hlimit 1000 (by decide)
  rw [herror] at hr
  cases hr

end Ctxd

import Ctxd.TrackerFiles

/-!
# Runs of the tracker over the same files

A run of `sync_once` that the server takes leaves a state file, and the next run compares the folders with it.  While
the files stay as they are, every later run submits nothing as long as no file that is tracked has two names in a
folder, and otherwise none of them ever comes to rest (`quiet_iff`).
-/

namespace Ctxd

open Program

namespace Tracker

/-- The key of a file and what is known of it, if the file can be read. -/
def trackedAt (folder : FolderConfig) (place : List String × Visit) : Option (String × TrackedFile) :=
  match examine place with
  | .read stat data text =>
    some (sourceKey folder stat, ⟨sourceVersion data, some (ctxfsPath folder place.1),
      some (fileFormat (place.1.getLast?.getD "")), some (ctxfsContentHash text)⟩)
  | _ => none

/-- The files that a scan of a folder reads, in its order. -/
def metFiles (folder : FolderConfig) : RootPath → List (String × TrackedFile)
  | .folder root => (root.walk.insertionSort inPathOrder).filterMap (trackedAt folder)
  | _ => []

/-- No key is met with two different files: an inode has one name in the folder. -/
def OneName (met : List (String × TrackedFile)) : Prop :=
  ∀ item ∈ met, ∀ item' ∈ met, item.1 = item'.1 → item.2 = item'.2

instance (met : List (String × TrackedFile)) : Decidable (OneName met) :=
  inferInstanceAs (Decidable (∀ item ∈ met, ∀ item' ∈ met, item.1 = item'.1 → item.2 = item'.2))

/-- What `sync_once` raises before its first request. -/
inductive SyncError
  | state (e : StateError)
  | scan (e : ScanError)
  deriving DecidableEq

/-- `sync_once` when the server takes what it submits: the run, and the state file that it leaves. -/
def syncFile (limit : Nat) (found : String → RootPath) (folders : List FolderConfig) (file : Option (List UInt8)) :
    Except SyncError (Sync × List UInt8) := do
  let previous ← (loadState limit file).mapError .state
  let sync ← (syncOnce found folders previous).mapError .scan
  return (sync, saveState sync.current)

/-- The run that follows a state file and so many other runs. -/
def laterRun (limit : Nat) (found : String → RootPath) (folders : List FolderConfig) (file : List UInt8) :
    Nat → Except SyncError (Sync × List UInt8)
  | 0 => syncFile limit found folders (some file)
  | n + 1 => do
    let (_, next) ← laterRun limit found folders file n
    syncFile limit found folders (some next)

/-! ### One scan -/

section

variable {folder : FolderConfig} {saved : Dict String TrackedFile}

private theorem scanPath_eq (folder : FolderConfig) (saved : Dict String TrackedFile) (scan : FolderScan)
    (place : List String × Visit) :
    (trackedAt folder place = none → (scanPath folder saved scan place).current = scan.current ∧
      (scanPath folder saved scan place).operations = scan.operations) ∧
    ∀ item, trackedAt folder place = some item →
      (scanPath folder saved scan place).current = scan.current.set item.1 item.2 ∧
      ((scanPath folder saved scan place).operations = [] ↔
        scan.operations = [] ∧ saved.get? item.1 = some item.2) := by
  unfold scanPath trackedAt
  cases examine place with
  | skipped => simp
  | unreadable => simp
  | read stat data text =>
    refine ⟨fun h => (by cases h), fun item hitem => ?_⟩
    cases hitem
    refine ⟨rfl, ?_⟩
    dsimp only
    by_cases hsame : saved.get? (sourceKey folder stat) = some ⟨sourceVersion data, some (ctxfsPath folder place.1),
        some (fileFormat (place.1.getLast?.getD "")), some (ctxfsContentHash text)⟩
    · rw [if_pos hsame]
      simp [hsame]
    · rw [if_neg hsame]
      simp [hsame]

private theorem scan_met (folder : FolderConfig) (saved : Dict String TrackedFile) (places : List (List String × Visit))
    (scan : FolderScan) :
    (places.foldl (scanPath folder saved) scan).current =
        (places.filterMap (trackedAt folder)).foldl (fun files item => Dict.set files item.1 item.2) scan.current ∧
      ((places.foldl (scanPath folder saved) scan).operations = [] ↔ scan.operations = [] ∧
        ∀ item ∈ places.filterMap (trackedAt folder), saved.get? item.1 = some item.2) := by
  induction places generalizing scan with
  | nil => simp
  | cons place places ih =>
    obtain ⟨hcurrent, hoperations⟩ := ih (scanPath folder saved scan place)
    obtain ⟨hnone, hsome⟩ := scanPath_eq folder saved scan place
    rw [List.foldl_cons, hcurrent, hoperations]
    cases htracked : trackedAt folder place with
    | none =>
      obtain ⟨hsame, hsame'⟩ := hnone htracked
      rw [List.filterMap_cons_none htracked, hsame, hsame']
      exact ⟨rfl, Iff.rfl⟩
    | some item =>
      obtain ⟨hset, hempty⟩ := hsome item htracked
      rw [List.filterMap_cons_some htracked, hset, hempty, List.foldl_cons, List.forall_mem_cons, and_assoc]
      exact ⟨rfl, Iff.rfl⟩

/-- What a scan comes to, whatever was saved, and when it has no operation. -/
private theorem scanFolder_met {found : RootPath} {scan : FolderScan} (h : scanFolder found folder saved = .ok scan) :
    scan.current = (metFiles folder found).foldl (fun files item => Dict.set files item.1 item.2) [] ∧
      (scan.operations = [] ↔ ∀ item ∈ metFiles folder found, saved.get? item.1 = some item.2) ∧
      ∀ saved' scan', scanFolder found folder saved' = .ok scan' →
        scan'.current = scan.current ∧ scan'.complete = scan.complete := by
  cases found with
  | denied => cases h
  | missing =>
    cases h
    refine ⟨rfl, by simp [metFiles], fun saved' scan' h' => ?_⟩
    cases h'
    exact ⟨rfl, rfl⟩
  | other =>
    cases h
    refine ⟨rfl, by simp [metFiles], fun saved' scan' h' => ?_⟩
    cases h'
    exact ⟨rfl, rfl⟩
  | folder root =>
    obtain ⟨_, hreturned, hcomplete, -⟩ := scanFolder_folder folder saved root
    obtain rfl := Except.ok.inj (hreturned.symm.trans h)
    have hmet := fun saved' => scan_met folder saved' (root.walk.insertionSort inPathOrder) ⟨[], [], true⟩
    obtain rfl := Except.ok.inj (show Except.ok _ = Except.ok _ from h)
    refine ⟨(hmet saved).1, ?_, fun saved' scan' h' => ?_⟩
    · rw [(hmet saved).2]
      simp [metFiles]
    · obtain ⟨_, hreturned', hcomplete', -⟩ := scanFolder_folder folder saved' root
      obtain rfl := Except.ok.inj (hreturned'.symm.trans h')
      obtain rfl := Except.ok.inj (show Except.ok _ = Except.ok _ from h')
      refine ⟨(hmet saved').1.trans (hmet saved).1.symm, ?_⟩
      rw [Bool.eq_iff_iff, hcomplete', hcomplete]

/-- The saved files of a folder agree with a scan of it: they are what the scan has met, and of a complete scan no
others. -/
structure Settled (scan : FolderScan) (saved : Dict String TrackedFile) : Prop where
  met : ∀ key ∈ scan.current.keys, saved.get? key = scan.current.get? key
  unmet : scan.complete = true → ∀ key ∈ saved.keys, key ∈ scan.current.keys

private theorem Settled.congr {scan : FolderScan} {saved' : Dict String TrackedFile} (h : Settled scan saved)
    (hget : ∀ key, saved'.get? key = saved.get? key) : Settled scan saved' := by
  refine ⟨fun key hkey => (hget key).trans (h.met key hkey), fun hcomplete key hkey => h.unmet hcomplete key ?_⟩
  rw [← Dict.get?_isSome_iff] at hkey ⊢
  rwa [← hget key]

private theorem get?_foldl_update (items d : Dict String TrackedFile) (hitems : items.keys.Nodup) (key : String)
    (hkey : key ∈ items.keys) :
    Dict.get? (items.foldl (fun files item => Dict.set files item.1 item.2) d) key = items.get? key := by
  obtain ⟨item, hitem, rfl⟩ := List.mem_map.1 hkey
  rw [Dict.get?_of_mem hitems (show (item.1, item.2) ∈ items from hitem)]
  exact Dict.get?_foldl_set_of_mem (k := Prod.fst) (v := Prod.snd) hitem fun item' hitem' hsame => by
    rw [List.inj_on_of_nodup_map hitems hitem' hitem hsame]

/-- The state of a folder after a scan agrees with the scan. -/
private theorem settled_folderState {scan : FolderScan} (hscan : scan.current.keys.Nodup) :
    Settled scan (folderState saved scan) := by
  unfold folderState
  refine ⟨fun key hkey => get?_foldl_update _ _ hscan key hkey, fun hcomplete key hkey => ?_⟩
  rw [if_pos hcomplete, Dict.mem_keys_foldl_set Prod.fst Prod.snd] at hkey
  rcases hkey with hkey | ⟨item, hitem, rfl⟩
  · cases hkey
  · exact List.mem_map_of_mem hitem

/-- Over the files that it agrees with, a folder has no operation when no key is met with two files. -/
private theorem folderOperations_eq_nil {found : RootPath} {scan : FolderScan}
    (h : scanFolder found folder saved = .ok scan)
    (hsettled : Settled scan saved) : folderOperations saved scan = [] ↔ OneName (metFiles folder found) := by
  obtain ⟨hcurrent, hoperations, -⟩ := scanFolder_met h
  have hkey : ∀ item ∈ metFiles folder found, item.1 ∈ scan.current.keys := by
    intro item hitem
    rw [hcurrent, Dict.mem_keys_foldl_set Prod.fst Prod.snd]
    exact .inr ⟨item, hitem, rfl⟩
  have hdeletions : scan.complete = true → deletions saved scan.current.keys = [] := by
    intro hcomplete
    unfold deletions
    rw [List.filterMap_eq_nil_iff]
    intro item hitem
    rw [if_pos (hsettled.unmet hcomplete _ (List.mem_map_of_mem hitem))]
  have hnil : folderOperations saved scan = [] ↔ scan.operations = [] := by
    unfold folderOperations
    split
    · rename_i hcomplete
      rw [hdeletions hcomplete, List.append_nil]
    · exact Iff.rfl
  rw [hnil, hoperations]
  constructor
  · intro hsame item hitem item' hitem' heq
    have hfirst := hsame item hitem
    rw [heq, hsame item' hitem'] at hfirst
    exact (Option.some.inj hfirst).symm
  · intro hone item hitem
    rw [hsettled.met item.1 (hkey item hitem), hcurrent]
    exact Dict.get?_foldl_set_of_mem (k := Prod.fst) (v := Prod.snd) hitem fun item' hitem' hsame =>
      hone item' hitem' item hitem hsame

end

/-! ### All folders -/

section

variable {found : String → RootPath} {folders : List FolderConfig} {previous : SavedState}

/-- A saved state agrees with the folders as they are found: it has no other prefixes, and the files of each agree with
a scan. -/
structure SettledState (found : String → RootPath) (folders : List FolderConfig) (state : SavedState) : Prop where
  configured : ∀ pre ∈ state.keys, pre ∈ folders.map (·.folderPrefix)
  settled : ∀ folder ∈ folders, ∀ saved scan, scanFolder (found folder.path) folder saved = .ok scan →
    Settled scan (state.files folder)

/-- A run over folders that a state agrees with submits nothing exactly when no key is met with two files. -/
private theorem submissions_eq_nil {sync : Sync} (h : syncOnce found folders previous = .ok sync)
    (hstate : SettledState found folders previous) :
    sync.submissions = [] ↔ ∀ folder ∈ folders, OneName (metFiles folder (found folder.path)) := by
  obtain ⟨scans, hscans, h⟩ := Program.bind_eq_ok.1 h
  obtain ⟨hfolders, hscan⟩ := scanFolders_ok hscans
  cases h
  have hremoved : previous.filterMap (fun item =>
      if item.1 ∈ folders.map (·.folderPrefix) then none else submissionOf item.1 (deletions item.2 [])) = [] := by
    rw [List.filterMap_eq_nil_iff]
    intro item hitem
    rw [if_pos (hstate.configured item.1 (List.mem_map_of_mem hitem))]
  have hnone : ∀ (pre : String) (operations : List Operation), submissionOf pre operations = none ↔ operations =
    [] := by
    intro pre operations
    unfold submissionOf
    split <;> simp_all
  rw [hremoved, List.append_nil, List.filterMap_eq_nil_iff, ← hfolders]
  simp only [hnone, List.forall_mem_map]
  refine forall₂_congr fun item hitem => ?_
  have hfolder : item.1 ∈ folders := hfolders ▸ List.mem_map_of_mem hitem
  exact folderOperations_eq_nil (hscan item hitem) (hstate.settled item.1 hfolder _ _ (hscan item hitem))

private theorem Settled.of_same {scan scan' : FolderScan} {saved : Dict String TrackedFile} (h : Settled scan saved)
    (hcurrent : scan'.current = scan.current) (hcomplete : scan'.complete = scan.complete) : Settled scan' saved := by
  refine ⟨fun key hkey => ?_, fun hdone key hkey => ?_⟩
  · rw [hcurrent] at hkey ⊢
    exact h.met key hkey
  · rw [hcurrent]
    exact h.unmet (hcomplete ▸ hdone) key hkey

private theorem nodup_current {found : RootPath} {folder : FolderConfig} {saved : Dict String TrackedFile}
    {scan : FolderScan} (h : scanFolder found folder saved = .ok scan) : scan.current.keys.Nodup := by
  rw [(scanFolder_met h).1]
  exact Dict.nodup_keys_foldl_set Prod.fst Prod.snd _ List.nodup_nil

private theorem nodup_folderState {saved : Dict String TrackedFile} (hsaved : saved.keys.Nodup) (scan : FolderScan) :
    (folderState saved scan).keys.Nodup := by
  unfold folderState
  refine Dict.nodup_keys_foldl_set Prod.fst Prod.snd _ ?_
  split
  · exact List.nodup_nil
  · exact hsaved

private theorem SavedState.Proper.nodup_files (h : previous.Proper) (folder : FolderConfig) :
    (previous.files folder).keys.Nodup := by
  unfold SavedState.files
  cases hget : previous.get? folder.folderPrefix with
  | none => exact List.nodup_nil
  | some files => exact h.files _ (Dict.mem_of_get?_eq_some hget)

/-- The state that a run saves is one that can be saved. -/
private theorem syncOnce_proper {sync : Sync} (h : syncOnce found folders previous = .ok sync)
    (hprevious : previous.Proper) :
    SavedState.Proper sync.current := by
  obtain ⟨scans, -, h⟩ := Program.bind_eq_ok.1 h
  cases h
  have hkeys : (Dict.keys (scans.foldl (fun state item => Dict.set state item.1.folderPrefix
      (folderState (previous.files item.1) item.2)) ([] : SavedState))).Nodup :=
    Dict.nodup_keys_foldl_set _ _ _ List.nodup_nil
  refine ⟨hkeys, fun item hitem => ?_⟩
  have hget := Dict.get?_of_mem hkeys (show (item.1, item.2) ∈ _ from hitem)
  rcases Dict.get?_foldl_set hget with hnone | ⟨scanned, -, -, hstate⟩
  · cases hnone
  · rw [← hstate]
    exact nodup_folderState (hprevious.nodup_files scanned.1) scanned.2

/-- The state that a run saves agrees with the folders. -/
private theorem syncOnce_settled (hfolders : (folders.map (·.folderPrefix)).Nodup) {sync : Sync}
    (h : syncOnce found folders previous = .ok sync) : SettledState found folders sync.current := by
  obtain ⟨scans, hscans, h⟩ := Program.bind_eq_ok.1 h
  obtain ⟨hscanned, hscan⟩ := scanFolders_ok hscans
  cases h
  have hitems : (scans.map fun item => item.1.folderPrefix).Nodup := by
    have hmap : scans.map (fun item => item.1.folderPrefix) = (scans.map (·.1)).map (·.folderPrefix) := by
      rw [List.map_map]
      rfl
    rw [hmap, hscanned]
    exact hfolders
  refine ⟨fun pre hpre => ?_, fun folder hfolder saved scan hfresh => ?_⟩
  · rw [Dict.mem_keys_foldl_set] at hpre
    rcases hpre with hpre | ⟨item, hitem, rfl⟩
    · cases hpre
    · exact List.mem_map_of_mem (hscanned ▸ List.mem_map_of_mem hitem)
  · rw [← hscanned] at hfolder
    obtain ⟨item, hitem, rfl⟩ := List.mem_map.1 hfolder
    have hget := Dict.get?_foldl_set_of_mem (k := fun item : FolderConfig × FolderScan => item.1.folderPrefix)
      (v := fun item => folderState (previous.files item.1) item.2) (d := []) hitem
      fun item' hitem' hsame => by rw [List.inj_on_of_nodup_map hitems hitem' hitem hsame]
    have hfiles : SavedState.files (scans.foldl (fun state item => Dict.set state item.1.folderPrefix
        (folderState (previous.files item.1) item.2)) ([] : SavedState)) item.1 =
          folderState (previous.files item.1) item.2 := congrArg (·.getD []) hget
    obtain ⟨hcurrent, hcomplete⟩ := (scanFolder_met (hscan item hitem)).2.2 _ _ hfresh
    refine Settled.of_same ?_ hcurrent hcomplete
    show Settled item.2 (SavedState.files _ item.1)
    rw [hfiles]
    exact settled_folderState (nodup_current (hscan item hitem))

/-- Whether a run raises, and whether it is complete, does not depend on what was saved. -/
private theorem syncOnce_returns {sync : Sync} (h : syncOnce found folders previous = .ok sync)
    (previous' : SavedState) :
    ∃ sync', syncOnce found folders previous' = .ok sync' ∧ sync'.complete = sync.complete := by
  obtain ⟨scans, hscans, h⟩ := Program.bind_eq_ok.1 h
  obtain ⟨hscanned, hscan⟩ := scanFolders_ok hscans
  cases h
  have hallowed : ∀ folder ∈ folders, found folder.path ≠ .denied := by
    intro folder hfolder hdenied
    obtain ⟨item, hitem, rfl⟩ := List.mem_map.1 (hscanned ▸ hfolder)
    have hreturned := hscan item hitem
    rw [hdenied] at hreturned
    cases hreturned
  have hreturns : ∃ scans', scanFolders found folders previous' = .ok scans' := scanFolders_returns hallowed
  obtain ⟨scans', hscans'⟩ := hreturns
  obtain ⟨hscanned', hscan'⟩ := scanFolders_ok hscans'
  unfold syncOnce
  rw [hscans']
  refine ⟨_, rfl, ?_⟩
  -- both runs scan the same folders
  have hsame : ∀ item' ∈ scans', ∃ item ∈ scans, item.2.complete = item'.2.complete := by
    intro item' hitem'
    have hfolder : item'.1 ∈ scans.map (·.1) := hscanned.trans hscanned'.symm ▸ List.mem_map_of_mem hitem'
    obtain ⟨item, hitem, heq⟩ := List.mem_map.1 hfolder
    have hagain : scanFolder (found item'.1.path) item'.1 (previous.files item.1) = .ok item.2 := by
      rw [← heq]
      exact hscan item hitem
    exact ⟨item, hitem, ((scanFolder_met (hscan' item' hitem')).2.2 _ _ hagain).2⟩
  have hsame' : ∀ item ∈ scans, ∃ item' ∈ scans', item.2.complete = item'.2.complete := by
    intro item hitem
    have hfolder : item.1 ∈ scans'.map (·.1) := hscanned'.trans hscanned.symm ▸ List.mem_map_of_mem hitem
    obtain ⟨item', hitem', heq⟩ := List.mem_map.1 hfolder
    have hagain : scanFolder (found item'.1.path) item'.1 (previous.files item.1) = .ok item.2 := by
      rw [heq]
      exact hscan item hitem
    exact ⟨item', hitem', ((scanFolder_met (hscan' item' hitem')).2.2 _ _ hagain).2⟩
  rw [Bool.eq_iff_iff, List.all_eq_true, List.all_eq_true]
  constructor
  · intro hall item hitem
    obtain ⟨item', hitem', heq⟩ := hsame' item hitem
    exact heq.trans (hall item' hitem')
  · intro hall item' hitem'
    obtain ⟨item, hitem, heq⟩ := hsame item' hitem'
    exact heq.symm.trans (hall item hitem)

/-! ### The order of the file -/

private theorem arranged_perm (state : SavedState) :
    state.arranged.Perm (state.map fun item => (item.1, item.2.insertionSort inTextOrder)) :=
  List.perm_insertionSort _ _

private theorem keys_arranged (state : SavedState) : (Dict.keys state.arranged).Perm state.keys := by
  refine ((arranged_perm state).map Prod.fst).trans ?_
  rw [List.map_map]
  exact List.Perm.refl _

private theorem SavedState.Proper.arranged (h : previous.Proper) : previous.arranged.Proper := by
  refine ⟨(keys_arranged previous).nodup_iff.2 h.prefixes, fun item hitem => ?_⟩
  obtain ⟨item', hitem', rfl⟩ := List.mem_map.1 ((arranged_perm previous).mem_iff.1 hitem)
  exact ((item'.2.perm_insertionSort inTextOrder).map Prod.fst).nodup_iff.2 (h.files item' hitem')

/-- The files of a folder are the same in the order of the file. -/
private theorem files_arranged (h : previous.Proper) (folder : FolderConfig) :
    (previous.arranged.files folder).Perm (previous.files folder) := by
  have hmapped : (Dict.keys (previous.map fun item => (item.1, item.2.insertionSort inTextOrder))).Nodup := by
    rw [Dict.keys, List.map_map]
    exact h.prefixes
  unfold SavedState.files
  rw [Dict.get?_of_perm (arranged_perm previous) hmapped, Dict.get?_map]
  cases hget : previous.get? folder.folderPrefix with
  | none => exact List.Perm.refl _
  | some files => exact files.perm_insertionSort inTextOrder

private theorem SettledState.arranged (h : SettledState found folders previous) (hproper : previous.Proper) :
    SettledState found folders previous.arranged := by
  refine ⟨fun pre hpre => h.configured pre ((keys_arranged previous).mem_iff.1 hpre), ?_⟩
  intro folder hfolder saved scan hscan
  exact (h.settled folder hfolder saved scan hscan).congr fun key =>
    Dict.get?_of_perm (files_arranged hproper folder) (hproper.nodup_files folder) key

private theorem loadFiles_proper {fields : Dict JsonText.Text JsonText.Value} {files : Dict String TrackedFile}
    (h : loadFiles fields = .ok files) : files.keys.Nodup := by
  have hempty : (Dict.keys ([] : Dict String TrackedFile)).Nodup := List.nodup_nil
  refine foldlM_inv (P := fun files : Dict String TrackedFile => files.keys.Nodup)
    (fun files item files' hfiles hstep => ?_)
    hempty h
  obtain ⟨loaded, -, hstep⟩ := bind_eq_ok.1 hstep
  cases loaded with
  | none =>
    cases hstep
    exact hfiles
  | some file =>
    obtain ⟨key, -, hstep⟩ := bind_eq_ok.1 hstep
    cases hstep
    exact Dict.nodup_keys_set hfiles key file

/-- A state that is loaded is one that can be saved. -/
private theorem loadState_proper {limit : Nat} {file : Option (List UInt8)} {state : SavedState}
    (h : loadState limit file = .ok state) : state.Proper := by
  have hempty : SavedState.Proper [] := ⟨List.nodup_nil, by simp⟩
  unfold loadState at h
  split at h
  · cases h
    exact hempty
  split at h
  · cases h
  split at h
  · cases h
    exact hempty
  · cases h
  · refine foldlM_inv (P := SavedState.Proper) (fun state item state' hstate hstep => ?_) hempty h
    split at hstep
    · obtain ⟨pre, -, hstep⟩ := bind_eq_ok.1 hstep
      obtain ⟨files, hfiles, hstep⟩ := bind_eq_ok.1 hstep
      cases hstep
      have hkeys := Dict.nodup_keys_set hstate.prefixes pre files
      refine ⟨hkeys, fun item' hitem' => ?_⟩
      have hget := Dict.get?_of_mem hkeys (show (item'.1, item'.2) ∈ _ from hitem')
      rw [Dict.get?_set] at hget
      split at hget
      · cases hget
        exact loadFiles_proper hfiles
      · exact hstate.files _ (Dict.mem_of_get?_eq_some hget)
    · cases hstep
      exact hstate
  · cases h
    exact hempty

/-- A run that returns has compared the folders with a state that can be saved. -/
private theorem syncFile_ok {limit : Nat} {file : Option (List UInt8)} {sync : Sync} {saved : List UInt8}
    (h : syncFile limit found folders file = .ok (sync, saved)) :
    ∃ state, loadState limit file = .ok state ∧ state.Proper ∧ syncOnce found folders state = .ok sync ∧
      saved = saveState sync.current := by
  unfold syncFile at h
  obtain ⟨state, hload, h⟩ := bind_eq_ok.1 h
  obtain ⟨sync', hsync, h⟩ := bind_eq_ok.1 h
  cases h
  have hstate : loadState limit file = .ok state := by
    cases hloaded : loadState limit file with
    | error e =>
      rw [hloaded] at hload
      cases hload
    | ok loaded =>
      rw [hloaded] at hload
      cases hload
      rfl
  refine ⟨state, hstate, loadState_proper hstate, ?_, rfl⟩
  cases hreturned : syncOnce found folders state with
  | error e =>
    rw [hreturned] at hsync
    cases hsync
  | ok sync'' =>
    rw [hreturned] at hsync
    cases hsync
    rfl

/-- The run after a state that agrees with the folders leaves such a state again. -/
private theorem syncFile_settled {limit : Nat} (hlimit : 3 ≤ limit) (hfolders : (folders.map (·.folderPrefix)).Nodup)
    {sync : Sync} (hreturns : syncOnce found folders previous = .ok sync) {state : SavedState}
    (hstate : SettledState found folders state) (hproper : state.Proper) :
    ∃ later, syncFile limit found folders (some (saveState state)) = .ok (later, saveState later.current) ∧
      later.complete = sync.complete ∧
      (later.submissions = [] ↔ ∀ folder ∈ folders, OneName (metFiles folder (found folder.path))) ∧
      SettledState found folders later.current ∧ SavedState.Proper later.current := by
  obtain ⟨later, hlater, hcomplete⟩ := syncOnce_returns hreturns state.arranged
  have harranged := hstate.arranged hproper
  refine ⟨later, ?_, hcomplete, submissions_eq_nil hlater harranged, syncOnce_settled hfolders hlater,
    syncOnce_proper hlater hproper.arranged⟩
  unfold syncFile
  rw [loadState_saveState hlimit hproper]
  show ((syncOnce found folders state.arranged).mapError SyncError.scan >>= _) = _
  rw [hlater]
  rfl

/-- Whatever a run saves, with any characters in its paths, the next run loads. -/
theorem state_reloaded {limit : Nat} (hlimit : 3 ≤ limit) {file : Option (List UInt8)} {sync : Sync}
    {saved : List UInt8} (h : syncFile limit found folders file = .ok (sync, saved)) :
    ∃ state, loadState limit (some saved) = .ok state ∧ (Dict.keys state).Perm (Dict.keys sync.current) ∧
      ∀ folder, (state.files folder).Perm (SavedState.files sync.current folder) := by
  obtain ⟨previous, -, hprevious, hsync, rfl⟩ := syncFile_ok h
  have hproper := syncOnce_proper hsync hprevious
  exact ⟨_, loadState_saveState hlimit hproper, keys_arranged sync.current, files_arranged hproper⟩

/-- While the files stay as they are, every run after a first one returns and is as complete as the first; and it
submits nothing exactly when no file that the scans read has two names in a folder. -/
theorem quiet_iff {limit : Nat} (hlimit : 3 ≤ limit) (hfolders : (folders.map (·.folderPrefix)).Nodup)
    {file : Option (List UInt8)} {sync : Sync} {saved : List UInt8}
    (hfirst : syncFile limit found folders file = .ok (sync, saved)) (n : Nat) :
    ∃ later next, laterRun limit found folders saved n = .ok (later, next) ∧ later.complete = sync.complete ∧
      (later.submissions = [] ↔ ∀ folder ∈ folders, OneName (metFiles folder (found folder.path))) := by
  obtain ⟨state, -, hproper, hsync, rfl⟩ := syncFile_ok hfirst
  -- every run leaves a state that agrees with the folders
  suffices hruns : ∃ later, laterRun limit found folders (saveState sync.current) n =
    .ok (later, saveState later.current) ∧
      later.complete = sync.complete ∧
      (later.submissions = [] ↔ ∀ folder ∈ folders, OneName (metFiles folder (found folder.path))) ∧
      SettledState found folders later.current ∧ SavedState.Proper later.current by
    obtain ⟨later, hlater, hcomplete, hquiet, -⟩ := hruns
    exact ⟨later, _, hlater, hcomplete, hquiet⟩
  induction n with
  | zero =>
    have hsettled := syncOnce_settled hfolders hsync
    exact syncFile_settled hlimit hfolders hsync hsettled (syncOnce_proper hsync hproper)
  | succ n ih =>
    obtain ⟨later, hlater, -, -, hsettled, hcurrent⟩ := ih
    obtain ⟨next, hnext, hcomplete, hquiet, hsettled'⟩ := syncFile_settled hlimit hfolders hsync hsettled hcurrent
    refine ⟨next, ?_, hcomplete, hquiet, hsettled'⟩
    unfold laterRun
    rw [hlater]
    exact hnext

end

/-- A folder in which one note has two names. -/
def linkedRoot : PartialTree.Root String Visit where
  listed := true
  entries := .leaf "a.md" (.file (some ⟨1, 2, 0, true⟩) (some ByteArray.empty))
    (.leaf "b.md" (.file (some ⟨1, 2, 0, true⟩) (some ByteArray.empty)) .nil)

private theorem linked_first :
    ∃ sync saved, syncFile 3 (fun _ => .folder linkedRoot) [sampleFolder] none = .ok (sync, saved) := by
  have hscans : ∃ scans, scanFolders (fun _ => .folder linkedRoot) [sampleFolder] [] = .ok scans :=
    scanFolders_returns (by simp)
  obtain ⟨scans, hscans⟩ := hscans
  have hsync : ∃ sync, syncOnce (fun _ => .folder linkedRoot) [sampleFolder] [] = .ok sync := by
    unfold syncOnce
    rw [hscans]
    exact ⟨_, rfl⟩
  obtain ⟨sync, hsync⟩ := hsync
  have hload : loadState 3 none = .ok [] := rfl
  refine ⟨sync, saveState sync.current, ?_⟩
  unfold syncFile
  rw [hload]
  show (((syncOnce (fun _ => .folder linkedRoot) [sampleFolder] []).mapError SyncError.scan) >>=
    fun sync => (pure (sync, saveState sync.current) : Except SyncError (Sync × List UInt8))) = _
  rw [hsync]
  rfl

theorem linked_reloaded : ∃ sync saved, syncFile 3 (fun _ => .folder linkedRoot) [sampleFolder] none = .ok
    (sync, saved) ∧
    ∃ state, loadState 3 (some saved) = .ok state ∧ (Dict.keys state).Perm (Dict.keys sync.current) ∧
      ∀ folder, (state.files folder).Perm (SavedState.files sync.current folder) := by
  obtain ⟨sync, saved, hfirst⟩ := linked_first
  exact ⟨sync, saved, hfirst, state_reloaded (Nat.le_refl 3) hfirst⟩

/-- The note is put again in every run. -/
theorem linked_restless : ∃ sync saved, syncFile 3 (fun _ => .folder linkedRoot) [sampleFolder] none = .ok
    (sync, saved) ∧
    ∃ later next, laterRun 3 (fun _ => .folder linkedRoot) [sampleFolder] saved 5 = .ok (later, next) ∧
      later.submissions ≠ [] := by
  obtain ⟨sync, saved, hfirst⟩ := linked_first
  obtain ⟨later, next, hlater, -, hquiet⟩ := quiet_iff (Nat.le_refl 3) (by simp) hfirst 5
  refine ⟨sync, _, hfirst, later, next, hlater, fun hnil => ?_⟩
  have hone := hquiet.1 hnil sampleFolder (List.mem_singleton.2 rfl)
  have hnames : ∀ name, name = "a.md" ∨ name = "b.md" → ∃ item ∈ metFiles sampleFolder (.folder linkedRoot),
      item.1 = sourceKey sampleFolder ⟨1, 2, 0, true⟩ ∧ item.2.path = some (ctxfsPath sampleFolder [name]) := by
    intro name hname
    have htracked : isTracked name = true := by rcases hname with rfl | rfl <;> decide +kernel
    have hread : examine ([name], .file (some ⟨1, 2, 0, true⟩) (some ByteArray.empty)) =
        .read ⟨1, 2, 0, true⟩ ByteArray.empty "" := by
      unfold examine
      have htext : String.fromUTF8? ByteArray.empty = some "" := by decide +kernel
      simp [htracked, htext, maxTrackedFileBytes]
    have hplace : ([name], Visit.file (some ⟨1, 2, 0, true⟩) (some ByteArray.empty)) ∈ linkedRoot.walk := by
      rcases hname with rfl | rfl <;> simp [linkedRoot, PartialTree.Root.walk, PartialTree.Entries.walk]
    have htracked : ∃ item, trackedAt sampleFolder ([name], .file (some ⟨1, 2, 0, true⟩) (some ByteArray.empty)) =
        some item ∧ item.1 = sourceKey sampleFolder ⟨1, 2, 0, true⟩ ∧
          item.2.path = some (ctxfsPath sampleFolder [name]) := by
      unfold trackedAt
      rw [hread]
      exact ⟨_, rfl, rfl, rfl⟩
    obtain ⟨item, hitem, hkey, hpath⟩ := htracked
    exact ⟨item, List.mem_filterMap.2 ⟨_, (List.perm_insertionSort _ _).mem_iff.2 hplace, hitem⟩, hkey, hpath⟩
  obtain ⟨item, hitem, hkey, hpath⟩ := hnames "a.md" (.inl rfl)
  obtain ⟨item', hitem', hkey', hpath'⟩ := hnames "b.md" (.inr rfl)
  have hsame := hone item hitem item' hitem' (hkey.trans hkey'.symm)
  rw [hsame, hpath'] at hpath
  revert hpath
  decide +kernel

end Tracker

end Ctxd

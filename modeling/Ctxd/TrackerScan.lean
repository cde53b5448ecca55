import Ctxd.Lib.Dict
import Ctxd.Lib.PartialTree
import Ctxd.Lib.Program
import Ctxd.Models
import Ctxd.Path
import Ctxd.Text
import Mathlib.Data.List.DropRight
import Mathlib.Data.List.Sort

/-!
# The scan of the tracked folders

`sync_once` walks through every configured folder, puts the files that are new or changed, and deletes the saved keys
that it has not met, unless a file could not be read.  The walk itself hides the directories that it cannot list, so
that what lies below them is deleted.  Exactly when this does not happen is `noFalseDeletes_iff`.
-/

namespace Ctxd

open PartialTree (Root)

namespace Tracker

def maxTrackedFileBytes : Nat := 5000000

def trackedSuffixes : List String :=
  [".cfg", ".css", ".csv", ".html", ".ini", ".json", ".log", ".md", ".py", ".rst", ".toml", ".ts", ".tsx", ".txt",
    ".yaml", ".yml"]

/-- What the saved state and the scan know of a file; a state of an earlier version has the version only. -/
structure TrackedFile where
  sourceVersion : String
  path : Option String
  fileFormat : Option String
  contentHash : Option String
  deriving DecidableEq, Repr

structure FolderConfig where
  path : String
  folderPrefix : String
  deriving DecidableEq, Repr

structure FolderScan where
  current : Dict String TrackedFile
  operations : List Operation
  complete : Bool
  deriving DecidableEq, Repr

/-! ### What the scan meets -/

structure FileStat where
  device : Nat
  inode : Nat
  size : Nat
  regular : Bool
  deriving DecidableEq, Repr

/-- What the calls on a path come to: `none` stands for an `OSError`. -/
inductive Visit
  | file (stat : Option FileStat) (data : Option ByteArray)
  | dir (hasStat : Bool)

/-- What a scan ends with when it may not look at the path of its folder. -/
inductive ScanError
  | permissionError
  deriving DecidableEq, Repr

/-- What is found at the path of a folder; `denied` stands for an `exists` that raises `PermissionError`. -/
inductive RootPath
  | missing
  | denied
  | other
  | folder (root : Root String Visit)

/-! ### One path -/

/-- `PurePath.suffix`. -/
def suffix (name : String) : String :=
  let ending := name.toList.reverse.takeWhile (· ≠ '.')
  if 0 < ending.length ∧ ending.length + 1 < name.length then String.ofList ('.' :: ending.reverse) else ""

/-- `path.suffix.lower()`: the one letter that is not ASCII and has an ASCII one in lower case is in no suffix. -/
def lowerSuffix (name : String) : String := String.ofList ((suffix name).toList.map Char.toLower)

def isTracked (name : String) : Bool := name.toList.head? ≠ some '.' && lowerSuffix name ∈ trackedSuffixes

/-- What the loop makes of a path, before it looks at the saved state. -/
inductive Examined
  | skipped
  | unreadable
  | read (stat : FileStat) (data : ByteArray) (text : String)

def examine (place : List String × Visit) : Examined :=
  if isTracked (place.1.getLast?.getD "") then
    match place.2 with
    | .dir hasStat => if hasStat then .skipped else .unreadable
    | .file none _ => .unreadable
    | .file (some stat) data =>
      if !stat.regular || maxTrackedFileBytes < stat.size then .skipped
      else match data with
        | none => .unreadable
        | some data =>
          match String.fromUTF8? data with
          | none => .unreadable
          | some text => .read stat data text
  else .skipped

def sourceKey (folder : FolderConfig) (stat : FileStat) : String :=
  let pre := folder.folderPrefix
  s!"{pre}:{stat.device}:{stat.inode}"

def sourceVersion (data : ByteArray) : String := "sha256:" ++ sha256Hex data

def ctxfsContentHash (text : String) : String := sourceVersion (lineFeedText text).toUTF8

/-- The place of a file of a folder in ctxfs. -/
def ctxfsPath (folder : FolderConfig) (path : List String) : String :=
  let pre := String.ofList (folder.folderPrefix.toList.rdropWhile (· = '/'))
  let relative := joinParts path
  s!"{pre}/{relative}"

/-- `path.suffix.lower().lstrip(".") or "text"`. -/
def fileFormat (name : String) : String :=
  let format := (lowerSuffix name).toList.dropWhile (· = '.')
  if format = [] then "text" else String.ofList format

def trackerProvenance : Provenance := ⟨"ctxd-tracker", "1", none, []⟩

/-- The operation for a file that is not saved as it is: a move when only its path has changed. -/
def operationFor (key : String) (tracked : TrackedFile) (path format text : String) (saved : Option TrackedFile) :
    Operation :=
  let put := Operation.put ⟨path, key, tracked.sourceVersion, .editable, format, text, trackerProvenance⟩
  match saved with
  | none => put
  | some previous =>
    match previous.contentHash with
    | none => put
    | some expected =>
      if previous.sourceVersion = tracked.sourceVersion ∧ previous.path ≠ none ∧ previous.path ≠ some path ∧
          previous.fileFormat = some format then
        .move ⟨key, path, tracked.sourceVersion, expected⟩
      else put

/-- The body of the loop of `_scan_folder`. -/
def scanPath (folder : FolderConfig) (saved : Dict String TrackedFile) (scan : FolderScan)
    (place : List String × Visit) : FolderScan :=
  match examine place with
  | .skipped => scan
  | .unreadable => { scan with complete := false }
  | .read stat data text =>
    let key := sourceKey folder stat
    let path := ctxfsPath folder place.1
    let format := fileFormat (place.1.getLast?.getD "")
    let tracked : TrackedFile := ⟨sourceVersion data, some path, some format, some (ctxfsContentHash text)⟩
    let operations := if saved.get? key = some tracked then scan.operations
      else scan.operations ++ [operationFor key tracked path format text (saved.get? key)]
    { scan with current := scan.current.set key tracked, operations := operations }

/-- `sorted(...)` of paths, which are compared part by part. -/
def inPathOrder (p q : List String × Visit) : Prop := ¬q.1 < p.1

instance : DecidableRel inPathOrder := fun p q => inferInstanceAs (Decidable ¬q.1 < p.1)

/-- `_scan_folder`. -/
def scanFolder (found : RootPath) (folder : FolderConfig) (saved : Dict String TrackedFile) :
    Except ScanError FolderScan :=
  match found with
  | .denied => .error .permissionError
  | .missing | .other => .ok ⟨[], [], false⟩
  | .folder root => .ok ((root.walk.insertionSort inPathOrder).foldl (scanPath folder saved) ⟨[], [], true⟩)

/-! ### All folders -/

structure TrackerSubmission where
  writerPrefix : String
  writerId : String
  operations : List Operation
  deriving DecidableEq, Repr

/-- What `sync_once` has computed before it submits: the submissions, the state to save, and whether it is complete. -/
structure Sync where
  submissions : List TrackerSubmission
  current : Dict String (Dict String TrackedFile)
  complete : Bool

abbrev SavedState := Dict String (Dict String TrackedFile)

def SavedState.files (previous : SavedState) (folder : FolderConfig) : Dict String TrackedFile :=
  (previous.get? folder.folderPrefix).getD []

def writerIdForPrefix (writerPrefix : String) : String := s!"ctxd-tracker:{writerPrefix}"

def deletions (saved : Dict String TrackedFile) (known : List String) : List Operation :=
  saved.filterMap fun item => if item.1 ∈ known then none else some (.delete ⟨item.1, item.2.sourceVersion⟩)

/-- The operations of a folder: those of the scan, and of a complete one the deletions. -/
def folderOperations (saved : Dict String TrackedFile) (scan : FolderScan) : List Operation :=
  if scan.complete then scan.operations ++ deletions saved scan.current.keys else scan.operations

/-- The state of a folder to save. -/
def folderState (saved : Dict String TrackedFile) (scan : FolderScan) : Dict String TrackedFile :=
  scan.current.foldl (fun files item => files.set item.1 item.2) (if scan.complete then [] else saved)

def scanFolders (found : String → RootPath) (folders : List FolderConfig) (previous : SavedState) :
    Except ScanError (List (FolderConfig × FolderScan)) :=
  folders.mapM fun folder => do return (folder, ← scanFolder (found folder.path) folder (previous.files folder))

def submissionOf (writerPrefix : String) (operations : List Operation) : Option TrackerSubmission :=
  if operations = [] then none else some ⟨writerPrefix, writerIdForPrefix writerPrefix, operations⟩

/-- `sync_once`, up to the requests. -/
def syncOnce (found : String → RootPath) (folders : List FolderConfig) (previous : SavedState) :
    Except ScanError Sync := do
  let scans ← scanFolders found folders previous
  let scanned := scans.filterMap fun item =>
    submissionOf item.1.folderPrefix (folderOperations (previous.files item.1) item.2)
  let removed := previous.filterMap fun item =>
    if item.1 ∈ folders.map (·.folderPrefix) then none else submissionOf item.1 (deletions item.2 [])
  let current := scans.foldl (fun state item =>
    Dict.set state item.1.folderPrefix (folderState (previous.files item.1) item.2)) ([] : SavedState)
  return ⟨scanned ++ removed, current, scans.all (·.2.complete)⟩

/-! ### What a scan comes to -/

/-- The scan cannot read the file at a place. -/
def Unreadable (place : List String × Visit) : Prop := examine place = .unreadable

instance (place : List String × Visit) : Decidable (Unreadable place) :=
  match h : examine place with
  | .skipped => .isFalse (by simp [Unreadable, h])
  | .unreadable => .isTrue h
  | .read _ _ _ => .isFalse (by simp [Unreadable, h])

/-- A tracked file with some key is at a place: it has a tracked name, is regular, not too large and valid UTF-8. -/
def Eligible (folder : FolderConfig) (key : String) (place : List String × Visit) : Prop :=
  ∃ stat data text, examine place = .read stat data text ∧ sourceKey folder stat = key

section

variable {folder : FolderConfig} {saved : Dict String TrackedFile} {key : String}

private theorem scanPath_complete (scan : FolderScan) (place : List String × Visit) :
    (scanPath folder saved scan place).complete = true ↔ scan.complete = true ∧ ¬Unreadable place := by
  unfold scanPath Unreadable
  cases examine place <;> simp

private theorem mem_scanPath_keys (scan : FolderScan) (place : List String × Visit) :
    key ∈ (scanPath folder saved scan place).current.keys ↔ key ∈ scan.current.keys ∨ Eligible folder key place := by
  unfold scanPath Eligible
  cases examine place with
  | skipped => simp
  | unreadable => simp
  | read stat data text =>
    have hread : (∃ stat' data' text', Examined.read stat data text = .read stat' data' text' ∧
        sourceKey folder stat' = key) ↔ sourceKey folder stat = key := by
      constructor
      · rintro ⟨_, _, _, heq, hkey⟩
        cases heq
        exact hkey
      · exact fun hkey => ⟨stat, data, text, rfl, hkey⟩
    dsimp only
    rw [hread, ← Dict.get?_isSome_iff, ← Dict.get?_isSome_iff, Dict.get?_set]
    by_cases hkey : key = sourceKey folder stat
    · simp [hkey]
    · simp [hkey, Ne.symm hkey]

private theorem scanPath_operations {scan : FolderScan} (h : ∀ op, .delete op ∉ scan.operations)
    (place : List String × Visit) :
    ∀ op, .delete op ∉ (scanPath folder saved scan place).operations := by
  intro op
  unfold scanPath
  cases examine place with
  | skipped => exact h op
  | unreadable => exact h op
  | read stat data text =>
    dsimp only
    split
    · exact h op
    · rw [List.mem_append, List.mem_singleton]
      rintro (hin | hnew)
      · exact h op hin
      · unfold operationFor at hnew
        dsimp only at hnew
        split at hnew
        · cases hnew
        split at hnew
        · cases hnew
        split at hnew <;> cases hnew

/-- A scan is complete when it can read what it meets, and then it knows the keys of the files that it has met. -/
private theorem scan_spec (folder : FolderConfig) (saved : Dict String TrackedFile) (key : String)
    (places : List (List String × Visit)) (scan : FolderScan) :
    ((places.foldl (scanPath folder saved) scan).complete = true ↔
        scan.complete = true ∧ ∀ place ∈ places, ¬Unreadable place) ∧
      (key ∈ (places.foldl (scanPath folder saved) scan).current.keys ↔
        key ∈ scan.current.keys ∨ ∃ place ∈ places, Eligible folder key place) ∧
      ((∀ op, .delete op ∉ scan.operations) →
        ∀ op, .delete op ∉ (places.foldl (scanPath folder saved) scan).operations) := by
  induction places generalizing scan with
  | nil => simp
  | cons place rest ih =>
    obtain ⟨hcomplete, hkeys, hoperations⟩ := ih (scanPath folder saved scan place)
    refine ⟨?_, ?_, fun h => hoperations (scanPath_operations h place)⟩
    · rw [List.foldl_cons, hcomplete, scanPath_complete, List.forall_mem_cons, and_assoc]
    · rw [List.foldl_cons, hkeys, mem_scanPath_keys, or_assoc, List.exists_mem_cons_iff]

theorem scanFolder_folder (folder : FolderConfig) (saved : Dict String TrackedFile) (root : Root String Visit) :
    ∃ scan, scanFolder (.folder root) folder saved = .ok scan ∧
      (scan.complete = true ↔ ∀ place ∈ root.walk, ¬Unreadable place) ∧
      (∀ key, key ∈ scan.current.keys ↔ ∃ place ∈ root.walk, Eligible folder key place) ∧
      ∀ op, .delete op ∉ scan.operations := by
  have hmem : ∀ place, place ∈ root.walk.insertionSort inPathOrder ↔ place ∈ root.walk :=
    fun place => (root.walk.perm_insertionSort inPathOrder).mem_iff
  have hspec := fun key => scan_spec folder saved key (root.walk.insertionSort inPathOrder) ⟨[], [], true⟩
  refine ⟨_, rfl, ?_, fun key => ?_, (hspec "").2.2 (by simp)⟩
  · rw [(hspec "").1]
    simp [hmem]
  · rw [(hspec key).2.1]
    simp [hmem, Dict.keys]

private theorem delete_mem_folderOperations {scan : FolderScan} (h : ∀ op, .delete op ∉ scan.operations)
    {op : DeleteOperation} :
    .delete op ∈ folderOperations saved scan ↔ scan.complete = true ∧ op.sourceKey ∉ scan.current.keys ∧
      ∃ file, (op.sourceKey, file) ∈ saved ∧ op.sourceVersion = file.sourceVersion := by
  unfold folderOperations
  cases hcomplete : scan.complete with
  | false => simp [h op]
  | true =>
    rw [if_pos rfl, List.mem_append]
    unfold deletions
    rw [List.mem_filterMap]
    constructor
    · rintro (hin | ⟨⟨k, file⟩, hfile, hop⟩)
      · exact absurd hin (h op)
      · dsimp only at hop
        split at hop
        · cases hop
        · rename_i hunknown
          cases hop
          exact ⟨rfl, hunknown, file, hfile, rfl⟩
    · rintro ⟨-, hunknown, file, hfile, hversion⟩
      refine .inr ⟨_, hfile, ?_⟩
      rw [if_neg hunknown, ← hversion]

/-! ### False deletes -/

/-- No tree that looks to the scan as the folder does has an eligible file with the key. -/
def Established (found : RootPath) (folder : FolderConfig) (key : String) : Prop :=
  ∃ root, found = .folder root ∧ ∀ root', root.SameView root' →
    ∀ place ∈ root'.entries.nodes, ¬Eligible folder key place

/-- `sync_once` submits the delete of a key that it has not met in a folder only when the scan of the folder has
established that no eligible file has it. -/
def NoFalseDeletes (found : String → RootPath) (folders : List FolderConfig) (previous : SavedState) : Prop :=
  ∀ sync scans, syncOnce found folders previous = .ok sync → scanFolders found folders previous = .ok scans →
    ∀ item ∈ scans, ∀ submission ∈ sync.submissions, submission.writerPrefix = item.1.folderPrefix → ∀ op,
      .delete op ∈ submission.operations → .delete op ∈ folderOperations (previous.files item.1) item.2 →
        Established (found item.1.path) item.1 op.sourceKey

/-- All directories on the way can be listed, or something that the scan meets cannot be read, or the scan meets all
files whose keys are saved. -/
def Covered (found : RootPath) (folder : FolderConfig) (saved : Dict String TrackedFile) : Prop :=
  ∀ root, found = .folder root → root.Listed ∨ (∃ place ∈ root.walk, Unreadable place) ∨
    ∀ stat, sourceKey folder stat ∈ saved.keys → ∃ place ∈ root.walk, Eligible folder (sourceKey folder stat) place

/-- An empty file of a device and an inode is eligible wherever it is. -/
private theorem eligible_empty (folder : FolderConfig) (stat : FileStat) (above : List String) :
    Eligible folder (sourceKey folder stat)
      (above ++ ["a.md"], .file (some ⟨stat.device, stat.inode, 0, true⟩) (some ByteArray.empty)) := by
  have hname : (above ++ ["a.md"]).getLast?.getD "" = "a.md" := by simp
  have htracked : isTracked "a.md" = true := by decide +kernel
  have htext : String.fromUTF8? ByteArray.empty = some "" := by decide +kernel
  refine ⟨⟨stat.device, stat.inode, 0, true⟩, ByteArray.empty, "", ?_, rfl⟩
  unfold examine
  rw [hname, if_pos htracked]
  simp [htext, maxTrackedFileBytes]

private theorem established_iff (root : Root String Visit) (stat : FileStat) :
    Established (.folder root) folder (sourceKey folder stat) ↔
      root.Listed ∧ ∀ place ∈ root.walk, ¬Eligible folder (sourceKey folder stat) place := by
  have habsent := PartialTree.Root.absent_iff (P := Eligible folder (sourceKey folder stat))
    ⟨"a.md", _, eligible_empty folder stat⟩ root
  rw [← habsent]
  constructor
  · rintro ⟨_, hroot, h⟩
    cases hroot
    exact h
  · exact fun h => ⟨root, rfl, h⟩

/-- A key that is not of the folder and an inode is not that of a file. -/
private theorem established_of_foreign (root : Root String Visit) (h : ∀ stat, key ≠ sourceKey folder stat) :
    Established (.folder root) folder key := by
  refine ⟨root, rfl, fun root' _ place _ heligible => ?_⟩
  obtain ⟨stat, data, text, -, hkey⟩ := heligible
  exact h stat hkey.symm

/-- The deletes of one folder. -/
private theorem folder_covered_iff {found : RootPath} {scan : FolderScan}
    (hscan : scanFolder found folder saved = .ok scan) :
    (∀ op, .delete op ∈ folderOperations saved scan → Established found folder op.sourceKey) ↔
      Covered found folder saved := by
  cases found with
  | denied => cases hscan
  | missing =>
    cases hscan
    simp [folderOperations, Covered]
  | other =>
    cases hscan
    simp [folderOperations, Covered]
  | folder root =>
    obtain ⟨_, heq, hcomplete, hkeys, hoperations⟩ := scanFolder_folder folder saved root
    obtain rfl := Except.ok.inj (heq.symm.trans hscan)
    constructor
    · intro h _ hroot
      cases hroot
      by_cases hlisted : root.Listed
      · exact .inl hlisted
      by_cases hunreadable : ∃ place ∈ root.walk, Unreadable place
      · exact .inr (.inl hunreadable)
      refine .inr (.inr fun stat hsaved => ?_)
      by_contra hunmet
      obtain ⟨⟨k, file⟩, hfile, hk⟩ := List.mem_map.1 hsaved
      dsimp only at hk
      subst hk
      have hdelete : Operation.delete ⟨sourceKey folder stat, file.sourceVersion⟩ ∈ folderOperations saved _ :=
        (delete_mem_folderOperations hoperations).2
          ⟨hcomplete.2 fun place hplace hbad => hunreadable ⟨place, hplace, hbad⟩,
          fun hknown => hunmet ((hkeys _).1 hknown), file, hfile, rfl⟩
      exact hlisted ((established_iff root stat).1 (h _ hdelete)).1
    · intro h op hdelete
      obtain ⟨hdone, hunknown, file, hfile, -⟩ := (delete_mem_folderOperations hoperations).1 hdelete
      by_cases hkey : ∃ stat, op.sourceKey = sourceKey folder stat
      · obtain ⟨stat, hkey⟩ := hkey
        rw [hkey] at hunknown hfile ⊢
        have hunmet : ∀ place ∈ root.walk, ¬Eligible folder (sourceKey folder stat) place :=
          fun place hplace heligible => hunknown ((hkeys _).2 ⟨place, hplace, heligible⟩)
        rcases h root rfl with hlisted | ⟨place, hplace, hbad⟩ | hmet
        · exact (established_iff root stat).2 ⟨hlisted, hunmet⟩
        · exact absurd hbad (hcomplete.1 hdone place hplace)
        · obtain ⟨place, hplace, heligible⟩ := hmet stat (List.mem_map.2 ⟨_, hfile, rfl⟩)
          exact absurd heligible (hunmet place hplace)
      · exact established_of_foreign root fun stat heq => hkey ⟨stat, heq⟩

end

variable {found : String → RootPath} {folders : List FolderConfig} {previous : SavedState}

private theorem scanFolder_error {found : RootPath} {folder : FolderConfig} {saved : Dict String TrackedFile}
    {e : ScanError} :
    scanFolder found folder saved = .error e ↔ found = .denied := by
  cases found <;> simp [scanFolder]

theorem scanFolders_ok {scans : List (FolderConfig × FolderScan)} (h : scanFolders found folders previous = .ok scans) :
    scans.map (·.1) = folders ∧ ∀ item ∈ scans, scanFolder (found item.1.path) item.1 (previous.files item.1) =
      .ok item.2 := by
  unfold scanFolders at h
  induction folders generalizing scans with
  | nil =>
    cases h
    simp
  | cons folder rest ih =>
    rw [List.mapM_cons] at h
    obtain ⟨item, hitem, h⟩ := Program.bind_eq_ok.1 h
    obtain ⟨scan, hscan, hitem⟩ := Program.bind_eq_ok.1 hitem
    obtain ⟨items, hitems, h⟩ := Program.bind_eq_ok.1 h
    cases hitem
    cases h
    obtain ⟨hfolders, hscans⟩ := ih hitems
    refine ⟨congrArg (folder :: ·) hfolders, fun item hmem => ?_⟩
    rcases List.mem_cons.1 hmem with rfl | hmem
    · exact hscan
    · exact hscans item hmem

/-- Some folder may not be looked at, and nothing is deleted; or every scan is of a folder that can be looked at. -/
theorem scanFolders_returns (h : ∀ folder ∈ folders, found folder.path ≠ .denied) :
    ∃ scans, scanFolders found folders previous = .ok scans := by
  unfold scanFolders
  induction folders with
  | nil => exact ⟨[], rfl⟩
  | cons folder rest ih =>
    obtain ⟨scans, hscans⟩ := ih fun f hf => h f (List.mem_cons_of_mem _ hf)
    have hfolder := h folder (List.mem_cons_self ..)
    cases hscan : scanFolder (found folder.path) folder (previous.files folder) with
    | error e => exact absurd (scanFolder_error.1 hscan) hfolder
    | ok scan =>
      refine ⟨(folder, scan) :: scans, ?_⟩
      rw [List.mapM_cons, hscan, hscans]
      rfl

/-- What is submitted below a configured prefix are the operations of the scans of its folders. -/
private theorem syncOnce_submissions {sync : Sync} (h : syncOnce found folders previous = .ok sync) :
    ∃ scans, scanFolders found folders previous = .ok scans ∧ ∀ pre ∈ folders.map (·.folderPrefix), ∀ op,
      (∃ submission ∈ sync.submissions, submission.writerPrefix = pre ∧ op ∈ submission.operations) ↔
        ∃ item ∈ scans, item.1.folderPrefix = pre ∧ op ∈ folderOperations (previous.files item.1) item.2 := by
  obtain ⟨scans, hscans, h⟩ := Program.bind_eq_ok.1 h
  cases h
  have hsubmission : ∀ {pre : String} {operations : List Operation} {submission : TrackerSubmission},
      submissionOf pre operations = some submission → submission.writerPrefix = pre ∧ submission.operations =
        operations := by
    intro pre operations submission hsome
    unfold submissionOf at hsome
    split at hsome <;> cases hsome
    exact ⟨rfl, rfl⟩
  refine ⟨scans, hscans, fun pre hpre op => ?_⟩
  constructor
  · rintro ⟨submission, hmem, rfl, hop⟩
    rcases List.mem_append.1 hmem with hmem | hmem
    · obtain ⟨item, hitem, hsome⟩ := List.mem_filterMap.1 hmem
      obtain ⟨hwriter, hoperations⟩ := hsubmission hsome
      exact ⟨item, hitem, hwriter.symm, hoperations ▸ hop⟩
    · obtain ⟨item, -, hsome⟩ := List.mem_filterMap.1 hmem
      split at hsome
      · cases hsome
      · -- the prefix of a removed folder is not configured
        rename_i hremoved
        exact absurd ((hsubmission hsome).1 ▸ hpre) hremoved
  · rintro ⟨item, hitem, rfl, hop⟩
    have hne : folderOperations (previous.files item.1) item.2 ≠ [] := List.ne_nil_of_mem hop
    refine ⟨_, List.mem_append_left _ (List.mem_filterMap.2 ⟨item, hitem, if_neg hne⟩), rfl, hop⟩

/-- All deletes of the scans are submitted. -/
private theorem noFalseDeletes_scans : NoFalseDeletes found folders previous ↔
    ∀ scans, scanFolders found folders previous = .ok scans → ∀ item ∈ scans, ∀ op,
      .delete op ∈ folderOperations (previous.files item.1) item.2 →
        Established (found item.1.path) item.1 op.sourceKey := by
  constructor
  · intro h scans hscans item hitem op hop
    obtain ⟨sync, hsync⟩ : ∃ sync, syncOnce found folders previous = .ok sync := by
      unfold syncOnce
      rw [hscans]
      exact ⟨_, rfl⟩
    obtain ⟨scans', hscans', hsubmitted⟩ := syncOnce_submissions hsync
    obtain rfl := Except.ok.inj (hscans'.symm.trans hscans)
    have hpre : item.1.folderPrefix ∈ folders.map (·.folderPrefix) := by
      rw [← (scanFolders_ok hscans).1, List.map_map]
      exact List.mem_map.2 ⟨item, hitem, rfl⟩
    obtain ⟨submission, hsubmission, hwriter, hmem⟩ := (hsubmitted _ hpre (.delete op)).2 ⟨item, hitem, rfl, hop⟩
    exact h sync scans' hsync hscans' item hitem submission hsubmission hwriter op hmem hop
  · intro h sync scans _ hscans item hitem submission _ _ op _ hop
    exact h scans hscans item hitem op hop

/-- `sync_once` deletes nothing falsely exactly when it may not look at the path of some folder, or when every folder is
covered. -/
theorem noFalseDeletes_iff (found : String → RootPath) (folders : List FolderConfig) (previous : SavedState) :
    NoFalseDeletes found folders previous ↔ (∃ folder ∈ folders, found folder.path = .denied) ∨
      ∀ folder ∈ folders, Covered (found folder.path) folder (previous.files folder) := by
  rw [noFalseDeletes_scans]
  constructor
  · intro h
    by_cases hdenied : ∃ folder ∈ folders, found folder.path = .denied
    · exact .inl hdenied
    refine .inr fun folder hfolder => ?_
    have hreturns : ∃ scans, scanFolders found folders previous = .ok scans :=
      scanFolders_returns fun folder hfolder hpath => hdenied ⟨folder, hfolder, hpath⟩
    obtain ⟨scans, hscans⟩ := hreturns
    obtain ⟨hfolders, hitems⟩ := scanFolders_ok hscans
    obtain ⟨item, hitem, rfl⟩ := List.mem_map.1 (hfolders ▸ hfolder)
    exact (folder_covered_iff (hitems item hitem)).1 (h scans hscans item hitem)
  · rintro (⟨folder, hfolder, hdenied⟩ | hcovered) scans hscans item hitem
    · obtain ⟨hfolders, hitems⟩ := scanFolders_ok hscans
      obtain ⟨item, hitem, rfl⟩ := List.mem_map.1 (hfolders ▸ hfolder)
      have hscan := hitems item hitem
      rw [hdenied] at hscan
      cases hscan
    · obtain ⟨hfolders, hitems⟩ := scanFolders_ok hscans
      have hfolder : item.1 ∈ folders := hfolders ▸ List.mem_map.2 ⟨item, hitem, rfl⟩
      exact (folder_covered_iff (hitems item hitem)).2 (hcovered item.1 hfolder)

/-- A folder with a directory that cannot be listed, and a note in it. -/
def sampleRoot : Root String Visit where
  listed := true
  entries := .dir "private" (.dir true) false
    (.leaf "note.md" (.file (some ⟨1, 2, 0, true⟩) (some ByteArray.empty)) .nil) .nil

def sampleFolder : FolderConfig := ⟨"/home/user/Docs", "local-files/docs"⟩

/-- The note is saved. -/
def sampleSaved : SavedState := [("local-files/docs", [("local-files/docs:1:2", ⟨"sha256:1", none, none, none⟩)])]

/-- The note is deleted, although it is still there. -/
theorem unlisted_deleted :
    (∃ sync, syncOnce (fun _ => .folder sampleRoot) [sampleFolder] sampleSaved = .ok sync ∧
      ⟨"local-files/docs", "ctxd-tracker:local-files/docs", [.delete ⟨"local-files/docs:1:2", "sha256:1"⟩]⟩ ∈
        sync.submissions) ∧
      ¬NoFalseDeletes (fun _ => .folder sampleRoot) [sampleFolder] sampleSaved := by
  have hsubmitted : ∃ sync, syncOnce (fun _ => .folder sampleRoot) [sampleFolder] sampleSaved = .ok sync ∧
      ⟨"local-files/docs", "ctxd-tracker:local-files/docs", [.delete ⟨"local-files/docs:1:2", "sha256:1"⟩]⟩ ∈
        sync.submissions := ⟨_, rfl, by decide +kernel⟩
  refine ⟨hsubmitted, fun h => ?_⟩
  obtain ⟨sync, hsync, hmem⟩ := hsubmitted
  have hdelete : Operation.delete ⟨"local-files/docs:1:2", "sha256:1"⟩ ∈
      folderOperations (sampleSaved.files sampleFolder) ⟨[], [], true⟩ := by
    decide +kernel
  obtain ⟨root, hroot, habsent⟩ := h sync [(sampleFolder, ⟨[], [], true⟩)] hsync rfl _ (List.mem_singleton.2 rfl) _ hmem
    rfl _ (List.mem_singleton.2 rfl) hdelete
  cases hroot
  have hnote : (["private", "note.md"], Visit.file (some ⟨1, 2, 0, true⟩) (some ByteArray.empty)) ∈
      sampleRoot.entries.nodes := by
    simp [sampleRoot, PartialTree.Entries.nodes, PartialTree.under]
  have hkey : sourceKey sampleFolder ⟨1, 2, 0, true⟩ = "local-files/docs:1:2" := by decide +kernel
  have heligible := eligible_empty sampleFolder ⟨1, 2, 0, true⟩ ["private"]
  rw [hkey] at heligible
  exact habsent sampleRoot (.listed (.refl _)) _ hnote heligible

end Tracker

end Ctxd

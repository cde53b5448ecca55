import Ctxd.Grep

/-!
# Listings of a tree

`ls`, `tree` and `glob` merge two sources: the rows of the catalog whose file is there, and the tree files that have no
row.  A listing is complete when it is not cut off and neither source has met a path that the other one lacks.

`casefold`, by which `ls` and `tree` order their entries, and `fnmatchcase`, which compares one component of a path
with one of a pattern, are parameters.
-/

namespace Ctxd

inductive EntryKind
  | file | directory
  deriving DecidableEq, Repr

structure DirectoryEntry where
  path : String
  kind : EntryKind
  sizeBytes : Option Nat
  lineCount : Option Nat
  contentHash : Option String
  deriving DecidableEq, Repr

structure Bounded where
  items : List DirectoryEntry
  complete : Bool
  stoppedBy : Option StoppedBy
  deriving DecidableEq

def directoryEntry (path : String) : DirectoryEntry := ⟨path, .directory, none, none, none⟩

def fileEntry (e : Entry) : DirectoryEntry :=
  ⟨e.path, .file, some e.sizeBytes, some e.lineCount, some e.contentHash⟩

/-- `_disk_directory_entry`. -/
def diskDirectoryEntry (d : Disk) (path : String) (treePath : Loc) : Except StoreError DirectoryEntry :=
  match d.resolve treePath with
  | .ok (.file data) =>
    .ok ⟨path, .file, some data.size, some (countLines false (decodeReplace data.data.toList)), none⟩
  | .ok .dir => .error (.osError .EISDIR)
  | .error e => .error (.osError e)

/-! ### Paths -/

/-- `path.exists()`. -/
def Disk.present (d : Disk) (l : Loc) : Except StoreError Bool :=
  match d.resolve l with
  | .ok _ => .ok true
  | .error .ENOENT | .error .ENOTDIR => .ok false
  | .error e => .error (.osError e)

/-- `path.is_file()` of a path that was found. -/
def Disk.isFile (d : Disk) (l : Loc) : Bool :=
  match d.resolve l with
  | .ok (.file _) => true
  | _ => false

def relativeParts (pre path : String) : List String :=
  if pre = "" then posixParts path
  else if path = pre then []
  else if startsBelow path pre then posixParts (String.ofList (path.toList.drop (pre.toList.length + 1)))
  else []

def joinRelative (pre name : String) : String := if pre = "" then name else pre ++ "/" ++ name

/-- The `parent`s of a path until there is none left, from its components, last first. -/
def parentPathsFrom : List String → List String
  | _ :: name :: rest => joinParts (name :: rest).reverse :: parentPathsFrom (name :: rest)
  | _ => []

def parentPaths (path : String) : List String := parentPathsFrom (posixParts path).reverse

/-! ### The two sources -/

/-- `ORDER BY path`. -/
def entriesUnderPrefix (user pre : String) (c : Catalog) : Except StoreError (List Entry) :=
  ((c.entries.filter fun e => e.userId = user).mergeSort fun e e' => e.path ≤ e'.path).filterM fun e =>
    if pre = "" then .ok true else pathIsWithinPrefix e.path pre

/-- `sorted(start.rglob("*"))`. -/
def Disk.rglob (d : Disk) (start : Loc) : List Loc :=
  (d.nodes.keys.dedup.filter fun l => l.area = start.area ∧ start.path <:+ l.path ∧ start.path ≠ l.path).mergeSort
    fun l l' => l.path.reverse ≤ l'.path.reverse

/-- The logical path of a candidate, if it is a file that is listed. -/
def listedFile (pre : String) (d : Disk) (candidate : Loc) : Except StoreError (Option (String × Loc)) :=
  if d.isFile candidate then
    match logicalTreePath candidate.path with
    | none => .ok none
    | some logicalPath => do
      if pre = "" then return some (logicalPath, candidate)
      if ← pathIsWithinPrefix logicalPath pre then return some (logicalPath, candidate)
      return none
  else .ok none

def diskFilesUnderPrefix (user pre : String) (d : Disk) : Except StoreError (List (String × Loc)) := do
  let root : Loc := ⟨.users user, []⟩
  if ← d.present root then
    let start := if pre = "" then root else treeLoc user pre
    if ← d.present start then
      let candidates := if d.isFile start then [start] else d.rglob start
      candidates.filterMapM (listedFile pre d)
    else return []
  else return []

def stat (user path : String) (w : World) : Except StoreError (Option Entry) := do
  let normalized ← normalizePath path
  match w.catalog.entries.find? fun e => e.userId = user && e.path = normalized with
  | none => return none
  | some entry => do
    if ← w.fs.disk.present (treeLoc user entry.path) then return some entry
    return none

/-! ### The loops -/

/-- A loop raises or returns early. -/
abbrev Listing := Except (StoreError ⊕ Bounded)

def Listing.raising {α : Type} : Except StoreError α → Listing α
  | .ok a => .ok a
  | .error e => .error (.inl e)

def Listing.finish : Listing Bounded → Except StoreError Bounded
  | .ok r => .ok r
  | .error (.inr r) => .ok r
  | .error (.inl e) => .error e

section

variable {σ : Type} (add : String → Except StoreError DirectoryEntry → σ → Listing σ) (user : String) (w : World)

/-- The loop over the rows; the flag is `incomplete`. -/
def listRows : List Entry → σ × Bool → Listing (σ × Bool)
  | [], state => .ok state
  | e :: rest, (found, incomplete) => do
    if ← Listing.raising (w.fs.disk.present (treeLoc user e.path)) then
      let found ← add e.path (.ok (fileEntry e)) found
      listRows rest (found, incomplete)
    else listRows rest (found, true)

/-- The loop over the files. -/
def listFiles : List (String × Loc) → σ × Bool → Listing (σ × Bool)
  | [], state => .ok state
  | (path, treePath) :: rest, (found, incomplete) => do
    if (← Listing.raising (stat user path w)).isSome then listFiles rest (found, incomplete)
    else
      let found ← add path (diskDirectoryEntry w.fs.disk path treePath) found
      listFiles rest (found, true)

/-- Both loops; the files are looked up when the first one is over. -/
def listBoth (pre : String) (found : σ) : Listing (σ × Bool) := do
  let rows ← Listing.raising (entriesUnderPrefix user pre w.catalog)
  let state ← listRows add user w rows (found, false)
  let files ← Listing.raising (diskFilesUnderPrefix user pre w.fs.disk)
  listFiles add user w files state

end

/-- What `ls` and `tree` return of what they have found. -/
def bounded (casefold : String → String) (limit : Int) (found : Dict String DirectoryEntry) (incomplete : Bool) :
    Bounded :=
  let entries := (found.keys.mergeSort fun p q => casefold p ≤ casefold q).filterMap found.get?
  if entries.length > limit then ⟨entries.take limit.toNat, false, some .limit⟩
  else ⟨entries, !incomplete, if incomplete then some .catalogMismatch else none⟩

def limitNotPositive : StoreError := .valueError "limit must be positive"

def normalizedPrefix (pre : String) : Except StoreError String := if pre = "" then .ok "" else normalizePath pre

/-! ### `ls` -/

/-- The child of the listed directory on the way to a file. -/
def addChild (pre path : String) (entry : Except StoreError DirectoryEntry) (found : Dict String DirectoryEntry) :
    Listing (Dict String DirectoryEntry) :=
  match relativeParts pre path with
  | [] => .ok found
  | [name] => do
    let childPath := joinRelative pre name
    let entry ← Listing.raising entry
    return found.set childPath { entry with path := childPath }
  | name :: _ =>
    let childPath := joinRelative pre name
    .ok (found.setDefault childPath (directoryEntry childPath))

def ls (casefold : String → String) (user path : String) (limit : Int) (w : World) : Except StoreError Bounded :=
  Listing.finish do
    if limit ≤ 0 then throw (.inl limitNotPositive)
    let normalized ← Listing.raising (normalizedPrefix path)
    let (children, incomplete) ← listBoth (addChild normalized) user w normalized []
    return bounded casefold limit children incomplete

/-! ### `tree` -/

def withinDepth (depth : Option Int) (n : Nat) : Bool :=
  match depth with
  | none => true
  | some k => n ≤ k

def addParents (pre : String) (depth : Option Int) :
    List String → Dict String DirectoryEntry → Except StoreError (Dict String DirectoryEntry)
  | [], found => .ok found
  | parent :: rest, found => do
    let below ← if parent = pre then .ok false else if pre = "" then .ok true else pathIsWithinPrefix parent pre
    if below && withinDepth depth (relativeParts pre parent).length then
      addParents pre depth rest (found.setDefault parent (directoryEntry parent))
    else addParents pre depth rest found

/-- A file and the directories above it. -/
def addTreePath (pre : String) (depth : Option Int) (path : String) (entry : Except StoreError DirectoryEntry)
    (found : Dict String DirectoryEntry) : Listing (Dict String DirectoryEntry) :=
  Listing.raising do
    if withinDepth depth (relativeParts pre path).length then
      let entry ← entry
      addParents pre depth (parentPaths path) (found.set path entry)
    else addParents pre depth (parentPaths path) found

def tree (casefold : String → String) (user pre : String) (depth : Option Int) (limit : Int) (w : World) :
    Except StoreError Bounded :=
  Listing.finish do
    if limit ≤ 0 then throw (.inl limitNotPositive)
    if depth.any (· < 0) then throw (.inl (.valueError "depth must be non-negative"))
    let normalized ← Listing.raising (normalizedPrefix pre)
    let (found, incomplete) ← listBoth (addTreePath normalized depth) user w normalized []
    return bounded casefold limit found incomplete

/-! ### `glob` -/

def invalidPattern (pattern : String) : StoreError := .valueError s!"invalid ctxfs glob pattern: {pattern}"

/-- The loop of `_has_unclosed_character_class`. -/
def unclosedClass (inClass : Bool) : List Char → Bool
  | [] => inClass
  | c :: cs => if c = '[' then unclosedClass true cs else if c =
    ']' then unclosedClass false cs else unclosedClass inClass cs

def hasStars (part : String) : Bool := ['*', '*'] <:+: part.toList

def validateGlobPattern (pattern : String) : Except StoreError (List String) :=
  if pattern = "" || pattern.toList.getLast? = some '/' then .error (invalidPattern pattern)
  else if unclosedClass false pattern.toList then .error (invalidPattern pattern)
  else
    let parts := rawParts pattern
    if parts.any (· = "") then .error (invalidPattern pattern)
    else if parts.any fun part => hasStars part && part ≠ "**" then .error (invalidPattern pattern)
    else .ok parts

/-- `_glob_matches`. -/
def globMatches (fnmatchcase : String → String → Bool) : List String → List String → Bool
  | [], path => path.isEmpty
  | head :: tail, path =>
    if head = "**" then (List.range (path.length + 1)).any fun index => globMatches fnmatchcase tail (path.drop index)
    else match path with
      | [] => false
      | name :: rest => fnmatchcase name head && globMatches fnmatchcase tail rest

/-- A file that matches; the loop ends when there are enough. -/
def addMatch (fnmatchcase : String → String → Bool) (pattern : List String) (limit : Int) (path : String)
    (entry : Except StoreError DirectoryEntry) (found : List DirectoryEntry) : Listing (List DirectoryEntry) :=
  if globMatches fnmatchcase pattern (posixParts path) then do
    let entry ← Listing.raising entry
    let found := found ++ [entry]
    if found.length ≥ limit then throw (.inr ⟨found, false, some .limit⟩)
    return found
  else .ok found

def glob (fnmatchcase : String → String → Bool) (user pattern pre : String) (limit : Int) (w : World) :
    Except StoreError Bounded :=
  Listing.finish do
    if limit ≤ 0 then throw (.inl limitNotPositive)
    let normalized ← Listing.raising (normalizedPrefix pre)
    let parts ← Listing.raising (validateGlobPattern pattern)
    let (found, incomplete) ← listBoth (addMatch fnmatchcase parts limit) user w normalized []
    return ⟨found, !incomplete, if incomplete then some .catalogMismatch else none⟩

end Ctxd

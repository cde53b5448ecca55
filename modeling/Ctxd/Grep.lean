import Ctxd.GrepMatch

/-!
# `CtxfsStore.grep`

A search runs ripgrep over the tree files below a prefix and reads its records one by one.  A cursor continues a
search: the scan starts again, and records are skipped until the place that the cursor names.  Cursors of version 2
follow the order of the catalog, which is not the order of the scan, so such a page reads all records and keeps the
first `limit + 1` matches above the anchor.

What ripgrep prints for the pattern is given, and so is the point at which the deadline expires.  ripgrep is installed,
and the store does not change while the pages of one search are served.
-/

namespace Ctxd

/-! ### The state of a scan -/

inductive StoppedBy
  | limit | timeout | maxBytes | catalogMismatch
  deriving DecidableEq, Repr

/-- What a scan works with and does not change. -/
structure GrepTarget where
  store : GrepStore
  pre : String
  patternHash : String
  limit : Nat
  resume : Option GrepCursor
  resumePath : String
  resumeTreePath : TreePath
  resumeSnapshot : Option GrepFileSnapshot

def legacyLogicalResume (resume : Option GrepCursor) : Bool :=
  match resume with
  | some cursor => cursor.mode = .legacyAfterMatch || (cursor.version = 2 && cursor.mode = .afterMatch)
  | none => false

def legacyFileStart (resume : Option GrepCursor) : Bool :=
  match resume with
  | some cursor => cursor.mode = .fileStart
  | none => false

/-- The file that was looked at last. -/
structure GrepActive where
  path : Option String
  snapshot : Option GrepFileSnapshot
  lineNumberState : Option RgLineNumberState

def GrepActive.none : GrepActive := ⟨Option.none, Option.none, Option.none⟩

structure GrepScan where
  active : GrepActive
  anchorFound : Bool
  resumeReplayComplete : Bool
  catalogMismatch : Bool
  grepMatches : List GrepMatch
  lastMatch : Option GrepMatch
  legacyCandidates : List GrepMatch

structure GrepScanResult where
  grepMatches : List GrepMatch
  stoppedBy : Option StoppedBy
  anchorFound : Bool
  nextCursor : Option GrepCursor
  catalogMismatch : Bool

def GrepScan.result (s : GrepScan) (stoppedBy : Option StoppedBy) (nextCursor : Option GrepCursor) : GrepScanResult :=
  ⟨s.grepMatches, stoppedBy, s.anchorFound, nextCursor, s.catalogMismatch⟩

/-! ### Cursors of a scan -/

def hashText (text : String) : String := contentHash text.toUTF8

def grepRelativePath (pre path : String) : Except GrepError String :=
  if pre = "" then .ok path
  else if path = pre then .ok ""
  else if startsBelow path pre then .ok (String.ofList (path.toList.drop (pre.toList.length + 1)))
  else .error (.valueError "ctxfs grep cursor path is outside its prefix")

def grepAbsolutePath (pre relativePath : String) : String :=
  if pre = "" then relativePath else if relativePath = "" then pre else pre ++ "/" ++ relativePath

def grepCursorForMatch (pre patternHash : String) (m : GrepMatch) (catalogMismatch : Bool) (mode : GrepMode) :
    Except GrepError GrepCursor := do
  let path ← grepRelativePath pre m.path
  return ⟨hashText pre, patternHash, path, some m.contentHash, mode, some m.position, catalogMismatch, 3⟩

def grepSearchStartCursor (prefixHash patternHash : String) (catalogMismatch : Bool) : GrepCursor :=
  ⟨prefixHash, patternHash, "", none, .searchStart, none, catalogMismatch, 3⟩

/-! ### One record -/

/-- Where the deadline may expire while a match is looked at: while its file is read, or while its lines are counted. -/
inductive GrepMoment
  | snapshot | lines
  deriving DecidableEq, Repr

/-- How a record is done with: the next one is read, the page is full or the scan breaks off, the deadline has
expired, or an exception is raised. -/
inductive GrepConsumed
  | next (s : GrepScan)
  | done (result : GrepScanResult)
  | late (s : GrepScan)
  | raised (e : GrepError)

inductive GrepLook
  | seen (s : GrepScan) (snapshot : GrepFileSnapshot) (m : GrepMatch)
  | unverified (s : GrepScan)
  | late (s : GrepScan)
  | raised (e : GrepError)

/-- The snapshot of the file of a match, and the lines counted in it: those of the match before, if it was in the same
file. -/
def GrepScan.activate (store : GrepStore) (s : GrepScan) (logicalPath : String) (treePath : TreePath) :
    GrepFileSnapshot × RgLineNumberState :=
  match s.active.snapshot with
  | some snapshot =>
    if snapshot.logicalPath = logicalPath then (snapshot, s.active.lineNumberState.getD .fresh)
    else (snapshotGrepFile store logicalPath treePath, .fresh)
  | none => (snapshotGrepFile store logicalPath treePath, .fresh)

def GrepScan.isActive (s : GrepScan) (logicalPath : String) : Bool :=
  match s.active.snapshot with
  | some snapshot => snapshot.logicalPath = logicalPath
  | none => false

/-- Verifies a match. -/
def GrepScan.look (store : GrepStore) (moment : Option GrepMoment) (s : GrepScan) (logicalPath : String)
    (treePath : TreePath) (data : RgMatchData) : GrepLook :=
  let (snapshot, lines) :=
    -- a deadline that expires while the file is read leaves it unread
    if !s.isActive logicalPath && moment = some .snapshot then (unreadableFile logicalPath treePath, .fresh)
    else s.activate store logicalPath treePath
  let s := { s with
    active := ⟨s.active.path, some snapshot, some lines⟩,
    catalogMismatch := s.catalogMismatch || snapshot.catalogMismatch }
  if !snapshot.verified then .unverified s
  else if moment = some .lines then .late s
  else match verifiedGrepMatch data snapshot lines with
    | .error e => .raised e
    | .ok (some m, lines) => .seen { s with active := ⟨s.active.path, some snapshot, some lines⟩ } snapshot m
    | .ok (none, lines) =>
      .unverified { s with active := ⟨s.active.path, some snapshot, some lines⟩, catalogMismatch := true }

/-- Keeps the first `limit + 1` candidates, in the order of their keys. -/
def insertCandidate (limit : Nat) (m : GrepMatch) (candidates : List GrepMatch) : List GrepMatch :=
  -- `bisect.bisect_right`: behind the keys that are not larger
  let insertion := (candidates.takeWhile fun c => c.key ≤ m.key).length
  let candidates := candidates.insertIdx insertion m
  if limit + 1 < candidates.length then candidates.dropLast else candidates

/-- The identity of a file that a cursor's hash is compared with. -/
def GrepCursor.expectedIdentity (cursor : GrepCursor) (snapshot : GrepFileSnapshot) : String :=
  if "stat:".toList.isPrefixOf ((cursor.contentHash.getD "").toList) then
    snapshot.pathIdentity else snapshot.contentHash

namespace GrepTarget

variable (t : GrepTarget)

/-- Adds a match to the page. -/
def append (s : GrepScan) (m : GrepMatch) : GrepConsumed :=
  let s := { s with grepMatches := s.grepMatches ++ [m], lastMatch := some m }
  if t.limit ≤ s.grepMatches.length then
    match grepCursorForMatch t.pre t.patternHash m s.catalogMismatch .afterMatch with
    | .ok cursor => .done (s.result (some .limit) (some cursor))
    | .error e => .raised e
  else .next s

/-- What becomes of a verified match. -/
def accept (s : GrepScan) (snapshot : GrepFileSnapshot) (m : GrepMatch) : GrepConsumed :=
  match t.resume with
  | none => if s.anchorFound then t.append s m else .raised staleCursor
  | some cursor =>
    if legacyLogicalResume t.resume then
      if m.path = t.resumePath && cursor.anchor = some m.position then .next { s with anchorFound := true }
      else if m.path = t.resumePath &&
          (cursor.anchor.map fun a => decide (GrepPosition.order m.position < a.order)).getD false then .next s
      else .next { s with legacyCandidates := insertCandidate t.limit m s.legacyCandidates }
    else if s.anchorFound then t.append s m
    else if some (cursor.expectedIdentity snapshot) ≠ cursor.contentHash then .raised staleCursor
    else if cursor.mode = .fileStart then t.append { s with anchorFound := true } m
    else if cursor.anchor = some m.position then .next { s with anchorFound := true, lastMatch := some m }
    else .next s

/-- The resume modes skip matches before they look at them. -/
def skips (s : GrepScan) (logicalPath : String) : Bool :=
  (legacyLogicalResume t.resume && logicalPath < t.resumePath) ||
    (t.resume.isSome && !s.anchorFound && !legacyLogicalResume t.resume && logicalPath ≠ t.resumePath)

def consumeEvent (moment : Option GrepMoment) (s : GrepScan) (logicalPath : String) (treePath : TreePath)
    (data : RgMatchData) : RgEventType → GrepConsumed
  | .began =>
    let snapshot :=
      if (legacyFileStart t.resume || legacyLogicalResume t.resume) && treePath = t.resumeTreePath then t.resumeSnapshot
      else none
    .next { s with active := ⟨some logicalPath, snapshot, snapshot.map fun _ => .fresh⟩ }
  | .ended =>
    if s.active.path = some logicalPath then .next { s with active := .none } else .next s
  | .matched =>
    let s := { s with active := { s.active with path := some logicalPath } }
    if t.skips s logicalPath then .next s
    else match s.look t.store moment logicalPath treePath data with
      | .seen s snapshot m => t.accept s snapshot m
      | .unverified s => .done (s.result (some .catalogMismatch) none)
      | .late s => .late s
      | .raised e => .raised e

/-- `logical_path is None or (prefix and not _path_is_within_prefix(logical_path, prefix))` raises. -/
def eventPath (path : Option TreePath) : Except GrepError (String × TreePath) := do
  match path with
  | none => throw unexpectedPath
  | some treePath =>
    match logicalTreePath treePath with
    | none => throw unexpectedPath
    | some logicalPath =>
      if t.pre = "" then return (logicalPath, treePath)
      else match pathIsWithinPrefix logicalPath t.pre with
        | .ok true => return (logicalPath, treePath)
        | .ok false => throw unexpectedPath
        | .error _ => throw (.valueError s!"invalid ctxfs path: {logicalPath}")

def consumeRecord (moment : Option GrepMoment) (s : GrepScan) : RgRecord → GrepConsumed
  | .oversized => .done (s.result (some .maxBytes) none)
  | .malformed => .raised grepFailed
  | .other => .next s
  | .invalid => .raised invalidJson
  | .event type path data =>
    match t.eventPath path with
    | .error e => .raised e
    | .ok (logicalPath, treePath) =>
      -- a cursor at the start of a file skips the files before it
      if legacyFileStart t.resume && !s.resumeReplayComplete && treeText treePath < treeText t.resumeTreePath then
        .next s
      else
        t.consumeEvent moment { s with resumeReplayComplete := s.resumeReplayComplete || legacyFileStart t.resume }
          logicalPath treePath data type

/-- Reads the records in turn.  The deadline expires before a record, or while the match in it is looked at. -/
def scan : Option (Nat × Option GrepMoment) → GrepScan → List RgRecord → GrepConsumed
  | some (0, none), s, _ => .late s
  | _, s, [] => .next s
  | expiry, s, record :: rest =>
    let moment := match expiry with
      | some (0, moment) => moment
      | _ => none
    match t.consumeRecord moment s record with
    | .next s =>
      scan (match expiry with
        | some (k + 1, moment) => some (k, moment)
        | _ => none) s rest
    | .done result => .done result
    | .late s => .late s
    | .raised e => .raised e

/-! ### The end of a scan -/

/-- Where a search that has timed out begins again. -/
def timeoutCursor (s : GrepScan) : Except GrepError GrepCursor :=
  match t.resume with
  | some cursor =>
    if legacyLogicalResume t.resume then .ok cursor
    else if legacyFileStart t.resume && !s.resumeReplayComplete then .ok cursor
    else if !s.anchorFound then .ok cursor
    else match s.lastMatch with
      | some m => grepCursorForMatch t.pre t.patternHash m s.catalogMismatch .afterMatch
      | none => .ok (grepSearchStartCursor (hashText t.pre) t.patternHash s.catalogMismatch)
  | none =>
    match s.lastMatch with
    | some m => grepCursorForMatch t.pre t.patternHash m s.catalogMismatch .afterMatch
    | none => .ok (grepSearchStartCursor (hashText t.pre) t.patternHash s.catalogMismatch)

def timedOut (s : GrepScan) : Except GrepError GrepScanResult := do
  let cursor ← t.timeoutCursor s
  return { s with grepMatches := if legacyLogicalResume t.resume then [] else s.grepMatches }.result (some .timeout)
    (some cursor)

/-- The page of a scan that has read every record. -/
def finish (returncode : Int) (s : GrepScan) : Except GrepError GrepScanResult := do
  if !s.anchorFound then throw staleCursor
  if returncode ≠ 0 && returncode ≠ 1 then throw grepFailed
  if legacyLogicalResume t.resume then
    let s := { s with grepMatches := s.legacyCandidates.take t.limit }
    match s.legacyCandidates[t.limit]?, s.grepMatches.getLast? with
    | some _, some m =>
      let cursor ← grepCursorForMatch t.pre t.patternHash m s.catalogMismatch .legacyAfterMatch
      return { s with lastMatch := some m }.result (some .limit) (some cursor)
    | _, _ => return s.result none none
  return s.result none none

end GrepTarget

/-! ### A search -/

/-- What ripgrep does with the pattern: the exit code of its check, the records and the exit code of the scan. -/
structure Ripgrep where
  validation : Int
  records : List RgRecord
  returncode : Int

structure GrepSearch where
  store : GrepStore
  pattern : String
  pre : String
  rg : Ripgrep

/-- Where the deadline expires: while the pattern is checked, before the scan, while the anchor's file is read, before a
record or while the match in it is looked at, or while ripgrep exits. -/
inductive GrepExpiry
  | validation
  | start
  | anchor
  | record (index : Nat) (moment : Option GrepMoment)
  | exit
  deriving DecidableEq, Repr

def GrepExpiry.inScan : Option GrepExpiry → Option (Nat × Option GrepMoment)
  | some (.record index moment) => some (index, moment)
  | _ => none

namespace GrepSearch

variable (search : GrepSearch)

def prefixHash : String := hashText search.pre

def patternHash : String := hashText search.pattern

/-- The target of a scan with the state it starts in. -/
def target (limit : Nat) (resume : Option GrepCursor) : GrepTarget :=
  let resumePath := (resume.map fun cursor => grepAbsolutePath search.pre cursor.path).getD ""
  let resumeTreePath := treePath resumePath
  let snapshots := legacyLogicalResume resume || legacyFileStart resume
  { store := search.store, pre := search.pre, patternHash := search.patternHash, limit := limit, resume := resume,
    resumePath := resumePath, resumeTreePath := resumeTreePath,
    resumeSnapshot := if snapshots then some (snapshotGrepFile search.store resumePath resumeTreePath) else none }

def startScan (t : GrepTarget) (inheritedCatalogMismatch : Bool) : GrepScan :=
  { active := .none, anchorFound := t.resume.isNone || legacyFileStart t.resume,
    resumeReplayComplete := !legacyFileStart t.resume,
    catalogMismatch := inheritedCatalogMismatch || (t.resumeSnapshot.map (·.catalogMismatch)).getD false,
    grepMatches := [], lastMatch := none, legacyCandidates := [] }

/-- The cursors of version 2 name a file that is read before the scan. -/
def staleAnchor (t : GrepTarget) : Bool :=
  match t.resume, t.resumeSnapshot with
  | some cursor, some snapshot => some (cursor.expectedIdentity snapshot) ≠ cursor.contentHash
  | _, _ => false

/-- The deadline expires while the anchor's file is read, so the file counts as unreadable, and it is over when the scan
begins. -/
def lateAnchor (t : GrepTarget) (inheritedCatalogMismatch : Bool) : Except GrepError GrepScanResult := do
  let t := { t with resumeSnapshot := some (unreadableFile t.resumePath t.resumeTreePath) }
  if staleAnchor t then throw staleCursor
  t.timedOut (startScan t inheritedCatalogMismatch)

def grepTreeTarget (limit : Nat) (resume : Option GrepCursor) (inheritedCatalogMismatch : Bool)
    (expiry : Option GrepExpiry) : Except GrepError GrepScanResult := do
  let t := search.target limit resume
  if expiry = some .start then
    return ⟨[], some .timeout, resume.isNone,
      some (resume.getD (grepSearchStartCursor search.prefixHash search.patternHash inheritedCatalogMismatch)), false⟩
  if t.resumeSnapshot.isSome && expiry = some .anchor then return ← lateAnchor t inheritedCatalogMismatch
  if staleAnchor t then throw staleCursor
  match t.scan (GrepExpiry.inScan expiry) (startScan t inheritedCatalogMismatch) search.rg.records with
  | .done result => return result
  | .raised e => throw e
  | .late s => t.timedOut s
  | .next s => if expiry = some .exit then t.timedOut s else t.finish search.rg.returncode s

end GrepSearch

structure GrepPage where
  items : List GrepMatch
  complete : Bool
  stoppedBy : Option StoppedBy
  nextCursor : Option CursorText

/-- A search can be continued only by a cursor of its own. -/
def GrepSearch.resumeOf (search : GrepSearch) (cursor : Option CursorText) : Except GrepError (Option GrepCursor) :=
  match cursor with
  | none => .ok none
  | some text => do
    let resume ← decodeGrepCursor text
    if resume.prefixHash ≠ search.prefixHash || resume.patternHash ≠ search.patternHash then
      throw (.valueError "ctxfs grep cursor does not match this search")
    return some resume

/-- `target.exists()`. -/
def GrepSearch.targetExists (search : GrepSearch) : Except GrepError Bool :=
  match search.store.world.fs.disk.resolve (treeLoc search.store.userId search.pre) with
  | .ok _ => .ok true
  | .error .ENOENT | .error .ENOTDIR => .ok false
  | .error e => .error (.osError e)

/-- The scan of a page with the cursor it resumes from, up to the text of the next cursor. -/
def GrepSearch.pageResult (search : GrepSearch) (limit : Nat) (resume : Option GrepCursor)
    (expiry : Option GrepExpiry) : Except GrepError GrepScanResult := do
  let inherited := (resume.map (·.catalogMismatch)).getD false
  let resume := resume.filter fun cursor => cursor.mode ≠ .searchStart
  if ← search.targetExists then
    let result ← search.grepTreeTarget limit resume inherited expiry
    if !result.anchorFound && result.stoppedBy ≠ some .timeout then throw staleCursor
    return result
  else
    if resume.isSome then throw staleCursor
    return ⟨[], none, true, none, inherited⟩

def GrepSearch.grep (search : GrepSearch) (limit : Int) (cursor : Option CursorText) (expiry : Option GrepExpiry) :
    Except GrepError GrepPage := do
  if limit ≤ 0 then throw (.valueError "limit must be positive")
  if search.pre ≠ "" && !decide (Normalized search.pre) then
    let pre := search.pre
    throw (.valueError s!"invalid ctxfs path: {pre}")
  let resume ← search.resumeOf cursor
  if expiry = some .validation then
    let text ← encodeGrepCursor (resume.getD (grepSearchStartCursor search.prefixHash search.patternHash false))
    return ⟨[], false, some .timeout, some text⟩
  if search.rg.validation = 2 then throw (.valueError "invalid ctxfs grep pattern")
  if search.rg.validation ≠ 0 && search.rg.validation ≠ 1 then
    throw (.runtimeError "ctxfs grep pattern validation failed")
  let result ← search.pageResult limit.toNat resume expiry
  let stoppedBy := result.stoppedBy <|> if result.catalogMismatch then some .catalogMismatch else none
  let nextCursor ← match result.nextCursor with
    | none => pure none
    | some next =>
      if cursor.isSome && result.stoppedBy = some .timeout &&
          some next = resume.filter fun cursor => cursor.mode ≠ .searchStart then
        pure cursor
      else do
        let text ← encodeGrepCursor next
        pure (some text)
  return ⟨result.grepMatches, stoppedBy.isNone, stoppedBy, nextCursor⟩

end Ctxd

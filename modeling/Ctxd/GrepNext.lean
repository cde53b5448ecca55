import Ctxd.GrepVerified

/-!
# Where a search continues

A page ends with a cursor for its last match, for the start of the search, or with the cursor it was asked for
(`grep_next`).  The decoder gives back what the encoder wrote when the cursor keeps the rules of the decoder.  The
cursors of a search keep them but for one: the path of a match below the prefix must pass the path policy by itself,
and it begins where the prefix ends, so it may begin with a drive letter (`builds_accepted_iff`).
-/

namespace Ctxd

/-- A match that a scan of the tree files below a prefix may show. -/
def GrepStore.Shows (store : GrepStore) (pre : String) (m : GrepMatch) : Prop :=
  (pre = "" ∨ Normalized m.path) ∧ ∃ logicalPath treePath data state state',
    verifiedGrepMatch data (snapshotGrepFile store logicalPath treePath) state = .ok (some m, state')

/-- The cursors that a search builds, with the match they are built for. -/
inductive GrepBuilds (store : GrepStore) (pre patternHash : String) : Option GrepMatch → GrepCursor → Prop
  | forMatch {m : GrepMatch} {mismatch : Bool} {mode : GrepMode} {c : GrepCursor}
      (shown : store.Shows pre m) (after : mode = .afterMatch ∨ mode = .legacyAfterMatch)
      (built : grepCursorForMatch pre patternHash m mismatch mode = .ok c) : GrepBuilds store pre patternHash (some m) c
  | start (mismatch : Bool) (isHash : isContentHash patternHash = true) :
      GrepBuilds store pre patternHash none (grepSearchStartCursor (hashText pre) patternHash mismatch)
  | carried {c : GrepCursor} (accepted : c.Accepted) : GrepBuilds store pre patternHash none c

/-! ### Matches of a scan -/

/-- Every match that a scan keeps is one that the store shows. -/
structure GrepScan.Sound (store : GrepStore) (pre : String) (s : GrepScan) : Prop where
  active : ∀ snapshot, s.active.snapshot = some snapshot →
    ∃ logicalPath treePath, snapshot = snapshotGrepFile store logicalPath treePath
  grepMatches : ∀ m ∈ s.grepMatches, store.Shows pre m
  lastMatch : ∀ m, s.lastMatch = some m → store.Shows pre m
  legacyCandidates : ∀ m ∈ s.legacyCandidates, store.Shows pre m

def GrepConsumed.Sound (t : GrepTarget) : GrepConsumed → Prop
  | .next s => s.Sound t.store t.pre
  | .late s => s.Sound t.store t.pre
  | .done result => ∀ c, result.nextCursor = some c → ∃ m, GrepBuilds t.store t.pre t.patternHash m c
  | .raised _ => True

def GrepLook.Sound (store : GrepStore) (pre : String) : GrepLook → Prop
  | .seen s _ m => s.Sound store pre ∧ store.Shows pre m
  | .unverified _ => True
  | .late s => s.Sound store pre
  | .raised _ => True

private theorem mem_insertCandidate {limit : Nat} {m m' : GrepMatch} {candidates : List GrepMatch}
    (h : m' ∈ insertCandidate limit m candidates) : m' = m ∨ m' ∈ candidates := by
  have hinsertion : (candidates.takeWhile fun c => c.key ≤ m.key).length ≤ candidates.length :=
    (List.takeWhile_sublist _).length_le
  unfold insertCandidate at h
  dsimp only at h
  split at h
  · exact (List.mem_insertIdx hinsertion).1 (List.mem_of_mem_dropLast h)
  · exact (List.mem_insertIdx hinsertion).1 h

namespace GrepTarget

variable {t : GrepTarget} {s : GrepScan}

private theorem append_sound (h : s.Sound t.store t.pre) {m : GrepMatch} (hm : t.store.Shows t.pre m) :
    (t.append s m).Sound t := by
  unfold append
  dsimp only
  split
  · split
    · rename_i cursor hcursor
      rintro c ⟨⟩
      exact ⟨some m, .forMatch hm (.inl rfl) hcursor⟩
    · trivial
  · refine ⟨h.active, ?_, ?_, h.legacyCandidates⟩
    · intro m' hm'
      rcases List.mem_append.1 hm' with hm' | hm'
      · exact h.grepMatches m' hm'
      · rw [List.mem_singleton.1 hm']
        exact hm
    · rintro m' ⟨⟩
      exact hm

private theorem accept_sound (h : s.Sound t.store t.pre) {snapshot : GrepFileSnapshot} {m : GrepMatch}
    (hm : t.store.Shows t.pre m) :
    (t.accept s snapshot m).Sound t := by
  unfold accept
  cases hresume : t.resume with
  | none =>
    dsimp only
    split
    · exact append_sound h hm
    · trivial
  | some cursor =>
    dsimp only
    split
    · split
      · exact ⟨h.active, h.grepMatches, h.lastMatch, h.legacyCandidates⟩
      split
      · exact h
      · refine ⟨h.active, h.grepMatches, h.lastMatch, ?_⟩
        intro m' hm'
        rcases mem_insertCandidate hm' with rfl | hm'
        · exact hm
        · exact h.legacyCandidates m' hm'
    split
    · exact append_sound h hm
    split
    · trivial
    split
    · exact append_sound (s := { s with anchorFound := true })
        ⟨h.active, h.grepMatches, h.lastMatch, h.legacyCandidates⟩ hm
    split
    · refine ⟨h.active, h.grepMatches, ?_, h.legacyCandidates⟩
      rintro m' ⟨⟩
      exact hm
    · exact h

private theorem look_sound (h : s.Sound t.store t.pre) (moment : Option GrepMoment) {logicalPath : String}
    (hpath : t.pre = "" ∨ Normalized logicalPath) (treePath : TreePath) (data : RgMatchData) :
    (s.look t.store moment logicalPath treePath data).Sound t.store t.pre := by
  obtain ⟨tree, lines, hactivate⟩ : ∃ tree lines,
      s.activate t.store logicalPath treePath = (snapshotGrepFile t.store logicalPath tree, lines) := by
    unfold GrepScan.activate
    split
    · rename_i snapshot hsnapshot
      split
      · rename_i hsame
        obtain ⟨path, tree, rfl⟩ := h.active snapshot hsnapshot
        rw [snapshotGrepFile_logicalPath] at hsame
        subst hsame
        exact ⟨tree, _, rfl⟩
      · exact ⟨treePath, _, rfl⟩
    · exact ⟨treePath, _, rfl⟩
  -- a scan that has looked at the file keeps its matches
  have hkept : ∀ lines' mismatch, GrepScan.Sound t.store t.pre { s with
      active := ⟨s.active.path, some (snapshotGrepFile t.store logicalPath tree), lines'⟩,
      catalogMismatch := mismatch } := by
    intro lines' mismatch
    refine ⟨?_, h.grepMatches, h.lastMatch, h.legacyCandidates⟩
    rintro snapshot ⟨⟩
    exact ⟨logicalPath, tree, rfl⟩
  unfold GrepScan.look
  by_cases hunread : (!s.isActive logicalPath && decide (moment = some .snapshot)) = true
  · rw [if_pos hunread]
    trivial
  rw [if_neg hunread]
  simp only [hactivate]
  split
  · trivial
  split
  · exact hkept _ _
  split
  · trivial
  · rename_i m lines' hverify
    refine ⟨hkept _ _, ?_, logicalPath, tree, data, lines, lines', hverify⟩
    obtain ⟨_, _, _, _, _, -, -, -, -, -, -, -, -, hm⟩ := verifiedGrepMatch_some hverify
    rwa [hm, snapshotGrepFile_logicalPath]
  · trivial

/-- Below a prefix only paths of documents are searched. -/
private theorem eventPath_normalized {path : Option TreePath} {logicalPath : String} {treePath : TreePath}
    (h : t.eventPath path = .ok (logicalPath, treePath)) : t.pre = "" ∨ Normalized logicalPath := by
  unfold eventPath at h
  split at h
  · cases h
  split at h
  · cases h
  by_cases hpre : t.pre = ""
  · exact .inl hpre
  rw [if_neg hpre] at h
  split at h
  · rename_i hwithin
    cases h
    exact .inr (pathIsWithinPrefix_ok hwithin).1
  · cases h
  · cases h

variable (hresume : ∀ snapshot, t.resumeSnapshot = some snapshot →
  ∃ logicalPath treePath, snapshot = snapshotGrepFile t.store logicalPath treePath)

include hresume in
private theorem consumeEvent_sound (h : s.Sound t.store t.pre) (moment : Option GrepMoment) {logicalPath : String}
    (hpath : t.pre = "" ∨ Normalized logicalPath) (treePath : TreePath) (data : RgMatchData) (type : RgEventType) :
    (t.consumeEvent moment s logicalPath treePath data type).Sound t := by
  cases type with
  | began =>
    refine ⟨?_, h.grepMatches, h.lastMatch, h.legacyCandidates⟩
    intro snapshot hsnapshot
    dsimp only at hsnapshot
    split at hsnapshot
    · exact hresume snapshot hsnapshot
    · cases hsnapshot
  | ended =>
    unfold consumeEvent
    dsimp only
    split
    · refine ⟨?_, h.grepMatches, h.lastMatch, h.legacyCandidates⟩
      rintro snapshot ⟨⟩
    · exact h
  | matched =>
    have hs : GrepScan.Sound t.store t.pre { s with active := { s.active with path := some logicalPath } } :=
      ⟨h.active, h.grepMatches, h.lastMatch, h.legacyCandidates⟩
    have hlook := look_sound hs moment hpath treePath data
    unfold consumeEvent
    dsimp only
    split
    · exact hs
    split
    · rename_i hseen
      rw [hseen] at hlook
      exact accept_sound hlook.1 hlook.2
    · rintro c ⟨⟩
    · rename_i hlate
      rw [hlate] at hlook
      exact hlook
    · trivial

include hresume in
private theorem consumeRecord_sound (h : s.Sound t.store t.pre) (moment : Option GrepMoment) (record : RgRecord) :
    (t.consumeRecord moment s record).Sound t := by
  unfold consumeRecord
  split
  · rintro c ⟨⟩
  · trivial
  · exact h
  · trivial
  · split
    · trivial
    rename_i hevent
    split
    · exact h
    · refine consumeEvent_sound (s := { s with
        resumeReplayComplete := s.resumeReplayComplete || legacyFileStart t.resume }) hresume ?_ moment
        (eventPath_normalized hevent) _ _ _
      exact ⟨h.active, h.grepMatches, h.lastMatch, h.legacyCandidates⟩

include hresume in
/-- A scan shows matches of its store only, and continues with a cursor of its own. -/
private theorem scan_sound (expiry : Option (Nat × Option GrepMoment)) (records : List RgRecord)
    (h : s.Sound t.store t.pre) :
    (t.scan expiry s records).Sound t := by
  induction records generalizing expiry s with
  | nil =>
    unfold scan
    split
    · exact h
    · exact h
    · rename_i heq
      cases heq
  | cons record rest ih =>
    unfold scan
    split
    · exact h
    · rename_i heq
      cases heq
    · rename_i heq
      cases heq
      dsimp only
      split
      · rename_i next hnext
        have hs : GrepConsumed.Sound t (.next next) := hnext ▸ consumeRecord_sound hresume h _ record
        exact ih _ hs
      · rename_i hdone
        rw [← hdone]
        exact consumeRecord_sound hresume h _ record
      · rename_i hlate
        rw [← hlate]
        exact consumeRecord_sound hresume h _ record
      · trivial

/-! ### The end of a scan -/

private theorem timeoutCursor_builds (hpattern : isContentHash t.patternHash = true)
    (haccepted : ∀ c, t.resume = some c → c.Accepted) (h : s.Sound t.store t.pre) {c : GrepCursor}
    (hc : t.timeoutCursor s = .ok c) : ∃ m, GrepBuilds t.store t.pre t.patternHash m c := by
  have hstart : ∃ m, GrepBuilds t.store t.pre t.patternHash m
      (grepSearchStartCursor (hashText t.pre) t.patternHash s.catalogMismatch) := ⟨none, .start _ hpattern⟩
  have hcarried : ∀ cursor, t.resume = some cursor → ∃ m, GrepBuilds t.store t.pre t.patternHash m cursor := by
    intro cursor hcursor
    exact ⟨none, .carried (haccepted cursor hcursor)⟩
  unfold timeoutCursor at hc
  split at hc
  · rename_i cursor hcursor
    split at hc
    · cases hc
      exact hcarried _ hcursor
    split at hc
    · cases hc
      exact hcarried _ hcursor
    split at hc
    · cases hc
      exact hcarried _ hcursor
    split at hc
    · rename_i m hm
      exact ⟨some m, .forMatch (h.lastMatch m hm) (.inl rfl) hc⟩
    · cases hc
      exact hstart
  · split at hc
    · rename_i m hm
      exact ⟨some m, .forMatch (h.lastMatch m hm) (.inl rfl) hc⟩
    · cases hc
      exact hstart

private theorem timedOut_builds (hpattern : isContentHash t.patternHash = true)
    (haccepted : ∀ c, t.resume = some c → c.Accepted) (h : s.Sound t.store t.pre) {result : GrepScanResult}
    {c : GrepCursor} (hc : result.nextCursor = some c) (hresult : t.timedOut s = .ok result) :
    ∃ m, GrepBuilds t.store t.pre t.patternHash m c := by
  obtain ⟨cursor, hcursor, hresult⟩ := Program.bind_eq_ok.1 hresult
  cases hresult
  cases hc
  exact timeoutCursor_builds hpattern haccepted h hcursor

private theorem finish_builds (h : s.Sound t.store t.pre) {returncode : Int} {result : GrepScanResult} {c : GrepCursor}
    (hresult : t.finish returncode s = .ok result) (hc : result.nextCursor = some c) :
    ∃ m, GrepBuilds t.store t.pre t.patternHash m c := by
  unfold finish at hresult
  by_cases hfound : (!s.anchorFound) = true
  · rw [if_pos hfound] at hresult
    cases hresult
  rw [if_neg hfound] at hresult
  by_cases hcode : (decide (returncode ≠ 0) && decide (returncode ≠ 1)) = true
  · rw [if_pos hcode] at hresult
    cases hresult
  rw [if_neg hcode] at hresult
  by_cases hlegacy : legacyLogicalResume t.resume = true
  · rw [if_pos hlegacy] at hresult
    dsimp only at hresult
    split at hresult
    · rename_i m _ hm
      obtain ⟨cursor, hcursor, hresult⟩ := Program.bind_eq_ok.1 hresult
      cases hresult
      cases hc
      have hmem : m ∈ s.legacyCandidates := List.mem_of_mem_take (List.mem_of_getLast? hm)
      exact ⟨some m, .forMatch (h.legacyCandidates m hmem) (.inr rfl) hcursor⟩
    · cases hresult
      cases hc
  · rw [if_neg hlegacy] at hresult
    cases hresult
    cases hc

end GrepTarget

/-! ### A page -/

namespace GrepSearch

variable {search : GrepSearch} {limit : Nat} {resume : Option GrepCursor} {expiry : Option GrepExpiry}
  {result : GrepScanResult} {c : GrepCursor}

private theorem startScan_sound (t : GrepTarget) (inherited : Bool) : (startScan t inherited).Sound t.store t.pre := by
  constructor
  · rintro snapshot ⟨⟩
  · rintro m ⟨⟩
  · rintro m ⟨⟩
  · rintro m ⟨⟩

private theorem lateAnchor_builds {t : GrepTarget} {inherited : Bool} (hpattern : isContentHash t.patternHash = true)
    (haccepted : ∀ c, t.resume = some c → c.Accepted) (h : lateAnchor t inherited = .ok result)
    (hc : result.nextCursor = some c) : ∃ m, GrepBuilds t.store t.pre t.patternHash m c := by
  unfold lateAnchor at h
  dsimp only at h
  split at h
  · cases h
  · exact GrepTarget.timedOut_builds
      (t := { t with resumeSnapshot := some (unreadableFile t.resumePath t.resumeTreePath) })
      hpattern haccepted (startScan_sound _ inherited) hc h

private theorem grepTreeTarget_builds {inherited : Bool} (haccepted : ∀ c, resume = some c → c.Accepted)
    (h : search.grepTreeTarget limit resume inherited expiry = .ok result) (hc : result.nextCursor = some c) :
    ∃ m, GrepBuilds search.store search.pre search.patternHash m c := by
  have hpattern : isContentHash search.patternHash = true := isContentHash_contentHash _
  have hresume : ∀ snapshot, (search.target limit resume).resumeSnapshot = some snapshot →
      ∃ logicalPath treePath, snapshot = snapshotGrepFile search.store logicalPath treePath := by
    intro snapshot hsnapshot
    obtain ⟨path, hsame⟩ := target_resumeSnapshot hsnapshot
    exact ⟨path, treePath path, hsame⟩
  have hscan := GrepTarget.scan_sound (t := search.target limit resume) hresume (GrepExpiry.inScan expiry)
    search.rg.records (startScan_sound _ inherited)
  unfold grepTreeTarget at h
  dsimp only at h
  by_cases hstart : expiry = some .start
  · rw [if_pos hstart] at h
    cases h
    cases resume with
    | none =>
      cases hc
      exact ⟨none, .start _ hpattern⟩
    | some cursor =>
      cases hc
      exact ⟨none, .carried (haccepted _ rfl)⟩
  rw [if_neg hstart] at h
  by_cases hanchor : ((search.target limit resume).resumeSnapshot.isSome && decide (expiry = some .anchor)) = true
  · rw [if_pos hanchor] at h
    exact lateAnchor_builds (t := search.target limit resume) hpattern haccepted h hc
  rw [if_neg hanchor] at h
  by_cases hstale : staleAnchor (search.target limit resume) = true
  · rw [if_pos hstale] at h
    cases h
  rw [if_neg hstale] at h
  have htimedOut : ∀ {s : GrepScan}, s.Sound search.store search.pre →
      (search.target limit resume).timedOut s = .ok result →
      ∃ m, GrepBuilds search.store search.pre search.patternHash m c :=
    fun hs => GrepTarget.timedOut_builds (t := search.target limit resume) hpattern haccepted hs hc
  split at h
  · rename_i hdone
    cases h
    rw [hdone] at hscan
    exact hscan c hc
  · cases h
  · rename_i hlate
    rw [hlate] at hscan
    exact htimedOut hscan h
  · rename_i hnext
    rw [hnext] at hscan
    by_cases hexit : expiry = some .exit
    · rw [if_pos hexit] at h
      exact htimedOut hscan h
    · rw [if_neg hexit] at h
      exact GrepTarget.finish_builds hscan h hc

private theorem pageResult_builds (haccepted : ∀ c, resume = some c → c.Accepted)
    (h : search.pageResult limit resume expiry = .ok result) (hc : result.nextCursor = some c) :
    ∃ m, GrepBuilds search.store search.pre search.patternHash m c := by
  unfold pageResult at h
  obtain ⟨present, -, h⟩ := Program.bind_eq_ok.1 h
  cases present with
  | true =>
    obtain ⟨result', hresult, h⟩ := Program.bind_eq_ok.1 h
    split at h
    · cases h
    cases h
    refine grepTreeTarget_builds (fun c' hc' => haccepted c' ?_) hresult hc
    exact (Option.filter_eq_some_iff.1 hc').1
  | false =>
    by_cases hsome : (resume.filter fun cursor => cursor.mode ≠ .searchStart).isSome = true
    · simp only [Bool.false_eq_true, if_false, hsome, if_true] at h
      cases h
    · simp only [Bool.false_eq_true, if_false, hsome] at h
      cases h
      cases hc

private theorem accepted_of_resumeOf {cursor : Option CursorText} (h : search.resumeOf cursor = .ok resume) :
    ∀ c, resume = some c → c.Accepted := by
  unfold resumeOf at h
  cases cursor with
  | none =>
    cases h
    rintro c ⟨⟩
  | some text =>
    obtain ⟨decoded, hdecode, h⟩ := Program.bind_eq_ok.1 h
    by_cases hother : (decide (decoded.prefixHash ≠ search.prefixHash) ||
        decide (decoded.patternHash ≠ search.patternHash)) = true
    · rw [if_pos hother] at h
      cases h
    · rw [if_neg hother] at h
      cases h
      rintro c ⟨⟩
      exact accepted_of_decode hdecode

/-- The cursor of a page is the one it was asked for, or the text of one that the search builds. -/
private theorem grep_next {limit : Int} {cursor : Option CursorText} {page : GrepPage} {text : CursorText}
    (h : search.grep limit cursor expiry = .ok page) (hnext : page.nextCursor = some text) :
    cursor = some text ∨
      ∃ m c, GrepBuilds search.store search.pre search.patternHash m c ∧ encodeGrepCursor c = .ok text := by
  unfold grep at h
  by_cases hlimit : limit ≤ 0
  · rw [if_pos hlimit] at h
    cases h
  rw [if_neg hlimit] at h
  by_cases hvalid : (decide (search.pre ≠ "") && !decide (Normalized search.pre)) = true
  · rw [if_pos hvalid] at h
    cases h
  rw [if_neg hvalid] at h
  obtain ⟨resume, hresume, h⟩ := Program.bind_eq_ok.1 h
  have haccepted := accepted_of_resumeOf hresume
  by_cases hvalidation : expiry = some .validation
  · rw [if_pos hvalidation] at h
    obtain ⟨text', htext, h⟩ := Program.bind_eq_ok.1 h
    cases h
    cases hnext
    cases resume with
    | none => exact .inr ⟨none, _, .start _ (isContentHash_contentHash _), htext⟩
    | some c => exact .inr ⟨none, c, .carried (haccepted c rfl), htext⟩
  rw [if_neg hvalidation] at h
  by_cases hpattern : search.rg.validation = 2
  · rw [if_pos hpattern] at h
    cases h
  rw [if_neg hpattern] at h
  by_cases hfailed : (decide (search.rg.validation ≠ 0) && decide (search.rg.validation ≠ 1)) = true
  · rw [if_pos hfailed] at h
    cases h
  rw [if_neg hfailed] at h
  obtain ⟨result, hresult, h⟩ := Program.bind_eq_ok.1 h
  dsimp only at h
  split at h
  · cases h
    cases hnext
  rename_i next hnextCursor
  by_cases hsame : (cursor.isSome && decide (result.stoppedBy = some .timeout) &&
      decide (some next = resume.filter fun cursor => cursor.mode ≠ .searchStart)) = true
  · rw [if_pos hsame] at h
    cases h
    exact .inl hnext
  · rw [if_neg hsame] at h
    obtain ⟨text', htext, h⟩ := Program.bind_eq_ok.1 h
    cases h
    cases hnext
    obtain ⟨m, hbuilds⟩ := pageResult_builds haccepted hresult hnextCursor
    exact .inr ⟨m, next, hbuilds, htext⟩

end GrepSearch

/-! ### The rules of the decoder -/

/-- A path begins with a drive letter behind the prefix. -/
def driveBelow (pre path : String) : Bool :=
  pre ≠ "" && path ≠ pre && startsWithDrive (String.ofList (path.toList.drop (pre.toList.length + 1)))

/-- What is left of a path that passes the policy passes it too, but for a drive letter. -/
theorem cursorPath_relative_iff {pre path relative : String} (hpre : pre = "" ∨ Normalized pre)
    (hpath : pre = "" ∨ Normalized path) (h : grepRelativePath pre path = .ok relative) :
    CursorPath relative ↔ CursorPath path ∧ driveBelow pre path = false := by
  unfold grepRelativePath at h
  by_cases hempty : pre = ""
  · rw [if_pos hempty] at h
    cases h
    simp [driveBelow, hempty]
  rw [if_neg hempty] at h
  have hnormal := hpre.resolve_left hempty
  by_cases hsame : path = pre
  · rw [if_pos hsame] at h
    cases h
    simp [CursorPath, driveBelow, hsame, hnormal]
  rw [if_neg hsame] at h
  by_cases hbelow : startsBelow path pre = true
  · rw [if_pos hbelow] at h
    cases h
    obtain ⟨rest, hrest⟩ := List.isPrefixOf_iff_prefix.1 hbelow
    have hdrop : path.toList.drop (pre.toList.length + 1) = rest := by
      rw [← hrest]
      exact List.drop_left' (by simp)
    have hpath' : path = pre ++ "/" ++ String.ofList rest := by
      rw [← String.toList_inj, ← hrest]
      simp
    have hnormalPath := hpath.resolve_left hempty
    have hiff := normalized_below_iff (String.ofList rest) hnormal
    rw [← hpath'] at hiff
    have hrest : CursorPath (String.ofList rest) ↔ Normalized (String.ofList rest) := by
      refine ⟨fun hcursor => hcursor.resolve_left fun hnil => ?_, .inr⟩
      rw [hnil] at hiff
      exact absurd (hiff.2 ⟨hnormalPath, rfl⟩) (by decide)
    rw [hdrop, hrest, hiff]
    simp [CursorPath, driveBelow, hempty, hsame, hdrop, hnormalPath]
  · rw [if_neg hbelow] at h
    cases h

theorem isContentHash_snapshot (store : GrepStore) (logicalPath : String) (treePath : TreePath) :
    isContentHash (snapshotGrepFile store logicalPath treePath).contentHash = true := by
  unfold snapshotGrepFile
  dsimp only
  split
  · exact isContentHash_contentHash _
  · show isContentHash ("sha256:" ++ String.ofList (List.replicate 64 '0')) = true
    decide

/-- The cursor after a match fits its mode. -/
theorem afterMatch_wellFormed {prefixHash patternHash hash : String} {mode : GrepMode} (relative : String)
    (position : GrepPosition) (mismatch : Bool) (hvalid : isContentHash prefixHash = true)
    (hpattern : isContentHash patternHash = true) (hhash : isContentHash hash = true)
    (hmode : mode = .afterMatch ∨ mode = .legacyAfterMatch) (hline : 0 < position.1) :
    GrepCursor.WellFormed ⟨prefixHash, patternHash, relative, some hash, mode, some position, mismatch, 3⟩ := by
  have hanchor : ∃ line start stop, some position = some (line, start, stop) ∧ 1 ≤ line := ⟨_, _, _, rfl, hline⟩
  rcases hmode with rfl | rfl
  · exact ⟨hvalid, hpattern, hhash, hanchor⟩
  · exact ⟨hvalid, hpattern, hhash, hanchor⟩

/-- The cursors of a search keep the rules of the decoder, but for those whose relative path begins with a drive
letter. -/
private theorem builds_accepted_iff {search : GrepSearch} (hpre : search.pre = "" ∨ Normalized search.pre)
    {m : Option GrepMatch} {c : GrepCursor} (h : GrepBuilds search.store search.pre search.patternHash m c) :
    GrepCursor.Accepted { c with version := 3 } ↔
      ∀ shown, m = some shown → CursorPath shown.path ∧ driveBelow search.pre shown.path = false := by
  cases h with
  | @forMatch shown mismatch mode c hshown hafter hbuilt =>
    obtain ⟨relative, hrelative, hbuilt⟩ := Program.bind_eq_ok.1 hbuilt
    cases hbuilt
    obtain ⟨hpath, logicalPath, tree, data, state, state', hverify⟩ := hshown
    obtain ⟨_, _, _, _, _, -, hline, -, -, -, -, -, -, hm⟩ := verifiedGrepMatch_some hverify
    have hhash : isContentHash shown.contentHash = true := by
      rw [hm]
      exact isContentHash_snapshot _ _ _
    have hiff := cursorPath_relative_iff hpre hpath hrelative
    constructor
    · rintro haccepted _ ⟨⟩
      exact hiff.1 haccepted.path
    · intro hall
      exact ⟨afterMatch_wellFormed relative shown.position mismatch (isContentHash_contentHash _)
        (isContentHash_contentHash _) hhash hafter hline, hiff.2 (hall shown rfl), .inl rfl⟩
  | start mismatch hpattern =>
    simp only [reduceCtorEq, false_implies, implies_true, iff_true]
    exact ⟨⟨isContentHash_contentHash _, hpattern, rfl, rfl, rfl⟩, .inl rfl, .inl rfl⟩
  | carried haccepted =>
    simp only [reduceCtorEq, false_implies, implies_true, iff_true]
    exact ⟨⟨haccepted.prefixHash, haccepted.patternHash, haccepted.fits⟩, haccepted.path, .inl rfl⟩

/-- A cursor that keeps the rules is decoded to itself.  Every cursor of a page is built by the search, or the one the
page was asked for, and it keeps the rules unless it is for a match whose path begins with a drive letter behind the
prefix. -/
theorem grepCursor_roundTrip (search : GrepSearch) :
    (∀ (c : GrepCursor) text, c.Accepted → c.version = 3 → encodeGrepCursor c = .ok text →
        decodeGrepCursor text = .ok c) ∧
      (∀ limit cursor expiry page text, search.grep limit cursor expiry = .ok page → page.nextCursor = some text →
        cursor = some text ∨
          ∃ m c, GrepBuilds search.store search.pre search.patternHash m c ∧ encodeGrepCursor c = .ok text) ∧
      (search.pre = "" ∨ Normalized search.pre → ∀ m c, GrepBuilds search.store search.pre search.patternHash m c →
        (GrepCursor.Accepted { c with version := 3 } ↔
          ∀ shown, m = some shown → CursorPath shown.path ∧ driveBelow search.pre shown.path = false)) := by
  refine ⟨?_, ?_, ?_⟩
  · intro c text haccepted hversion hencode
    rw [decodeGrepCursor_encodeGrepCursor haccepted.toWellFormed hencode, if_pos haccepted.path, ← hversion]
  · intro limit cursor expiry page text h hnext
    exact GrepSearch.grep_next h hnext
  · intro hpre m c hbuilds
    exact builds_accepted_iff hpre hbuilds

/-- A user with the documents `notes/a` and `notes/C:x`, both `needle\n`, and no rows. -/
def driveStore : GrepStore :=
  { world :=
      { catalog := ⟨[], [], [], []⟩,
        fs := ⟨⟨[(⟨.users "user", treePath "notes"⟩, .dir),
          (⟨.users "user", treePath "notes/a"⟩, .file ⟨#[110, 101, 101, 100, 108, 101, 10]⟩),
          (⟨.users "user", treePath "notes/C:x"⟩, .file ⟨#[110, 101, 101, 100, 108, 101, 10]⟩)], 4000⟩,
          0, [], [], none, []⟩,
        clock := fun _ => 0, ticks := 0 },
    userId := "user", statIdentity := fun _ => "stat:1:2:7:3:4" }

def driveSearch : GrepSearch := ⟨driveStore, "needle", "notes", ⟨1, [], 0⟩⟩

/-- The match of `needle` in a document of the store. -/
def driveMatch (path : String) : GrepMatch :=
  ⟨path, 1, "needle", 0, 6, contentHash ⟨#[110, 101, 101, 100, 108, 101, 10]⟩⟩

private theorem driveStore_shows {path : String} (h : path = "notes/a" ∨ path = "notes/C:x") :
    driveStore.Shows "notes" (driveMatch path) := by
  refine ⟨.inr ?_, path, treePath path,
    ⟨some 1, some 0, some [110, 101, 101, 100, 108, 101, 10], some (some 0, some 6)⟩,
    .fresh, ⟨0, 0, 0⟩, ?_⟩
  · rcases h with rfl | rfl <;> decide
  · rcases h with rfl | rfl <;> rfl

/-- The cursor for this match, with the path that is left below the prefix. -/
def driveCursor (relative : String) : GrepCursor :=
  ⟨hashText "notes", driveSearch.patternHash, relative, some (contentHash ⟨#[110, 101, 101, 100, 108, 101, 10]⟩),
    .afterMatch, some (1, 0, 6), false, 3⟩

private theorem driveSearch_builds {path relative : String} (h : path = "notes/a" ∨ path = "notes/C:x")
    (hrelative : grepRelativePath "notes" path = .ok relative) :
    GrepBuilds driveStore "notes" driveSearch.patternHash (some (driveMatch path)) (driveCursor relative) := by
  have hbuilt : grepCursorForMatch "notes" driveSearch.patternHash (driveMatch path) false .afterMatch =
      .ok (driveCursor relative) := by
    unfold grepCursorForMatch
    rw [show (driveMatch path).path = path from rfl, hrelative]
    rfl
  exact .forMatch (driveStore_shows h) (.inl rfl) hbuilt

private theorem driveCursor_wellFormed (relative : String) : (driveCursor relative).WellFormed :=
  afterMatch_wellFormed relative (1, 0, 6) false (isContentHash_contentHash _) (isContentHash_contentHash _)
    (isContentHash_contentHash _) (.inl rfl) (by decide)

/-- The search that matches `notes/a` and `notes/C:x` keeps the rules for the first. -/
theorem driveSearch_accepted : (driveCursor "a").Accepted := by
  have hbuilds : GrepBuilds driveStore "notes" driveSearch.patternHash (some (driveMatch "notes/a"))
    (driveCursor "a") :=
    driveSearch_builds (.inl rfl) (by rfl)
  refine ((grepCursor_roundTrip driveSearch).2.2 (.inr (by decide)) _ _ hbuilds).2 ?_
  rintro _ ⟨⟩
  exact ⟨.inr (by decide), by decide⟩

/-- The cursor for the match in `notes/C:x` is rejected by the decoder. -/
theorem driveSearch_rejected :
    ∃ m c, GrepBuilds driveStore "notes" driveSearch.patternHash (some m) c ∧ ¬c.Accepted ∧
      ∀ text, encodeGrepCursor c = .ok text → decodeGrepCursor text = .error invalidCursor := by
  have hpath : ¬CursorPath (driveCursor "C:x").path := by decide
  refine ⟨driveMatch "notes/C:x", driveCursor "C:x", driveSearch_builds (.inr rfl) (by rfl),
    fun haccepted => hpath haccepted.path, ?_⟩
  intro text htext
  rw [decodeGrepCursor_encodeGrepCursor (driveCursor_wellFormed "C:x") htext, if_neg hpath]

end Ctxd

import Ctxd.Grep

/-!
# What a scan sees

ripgrep prints well-formed events for the tree files below the prefix, and the matches of a file in the order of their
offsets (`GrepSearch.Printed`).  The snapshot of the file that was looked at last and the lines counted in it are then
only a cache: a scan does with a record what it would do if it read the file anew and counted from its start
(`consumeRecord_sight`).  So a record can be replaced by what the store says about it, its sight.
-/

namespace Ctxd

/-! ### What ripgrep prints -/

def RgMatchData.WellFormed (data : RgMatchData) : Prop :=
  ∃ lineNumber offset rawLine start stop,
    data = ⟨some lineNumber, some offset, some rawLine, some (some start, some stop)⟩ ∧
      0 < lineNumber ∧ start ≤ stop ∧ stop ≤ rawLine.length

/-- An event is for the file of a document below the prefix. -/
def GrepSearch.Reports (search : GrepSearch) : RgRecord → Prop
  | .oversized | .other => True
  | .malformed | .invalid => False
  | .event type path data =>
    ∃ logicalPath, Normalized logicalPath ∧ path = some (treePath logicalPath) ∧
      (search.pre = "" ∨ pathIsWithinPrefix logicalPath search.pre = .ok true) ∧ (type = .matched → data.WellFormed)

/-- Of two matches in one file the earlier one has the smaller offset. -/
def RgRecord.Before : RgRecord → RgRecord → Prop
  | .event .matched path data, .event .matched path' data' =>
    path = path' → ∀ offset offset', data.absoluteOffset = some offset → data'.absoluteOffset = some offset' →
      offset < offset'
  | _, _ => True

/-- ripgrep accepts the pattern, prints well-formed events and reports no error. -/
structure GrepSearch.Printed (search : GrepSearch) : Prop where
  accepted : search.rg.validation = 0 ∨ search.rg.validation = 1
  exited : search.rg.returncode = 0 ∨ search.rg.returncode = 1
  reports : ∀ r ∈ search.rg.records, search.Reports r
  ordered : search.rg.records.Pairwise RgRecord.Before

/-! ### Counted lines -/

/-- The line feeds and NULs before an offset. -/
structure RgLineNumberState.Counts (data : List UInt8) (state : RgLineNumberState) : Prop where
  lf : state.lfCount = (data.take state.offset).count 10
  nul : state.nulCount = (data.take state.offset).count 0

theorem RgLineNumberState.fresh_counts (data : List UInt8) : Counts data .fresh := ⟨by simp [fresh], by simp [fresh]⟩

/-- A slice is counted in two parts. -/
theorem count_slice (data : List UInt8) (b : UInt8) {l m n : Nat} (hlm : l ≤ m) (hmn : m ≤ n) :
    ((data.drop l).take (m - l)).count b + ((data.drop m).take (n - m)).count b =
      ((data.drop l).take (n - l)).count b := by
  have hlength : n - l = (m - l) + (n - m) := by omega
  have hdrop : (data.drop l).drop (m - l) = data.drop m := by
    rw [List.drop_drop]
    congr 1
    omega
  rw [hlength, List.take_add, hdrop, List.count_append]

/-- Counting further is counting from the start. -/
theorem RgLineNumberState.Counts.advance {data : List UInt8} {state : RgLineNumberState} (h : Counts data state)
    {offset : Nat} (hoffset : state.offset ≤ offset) :
    state.advance data offset = RgLineNumberState.fresh.advance data offset := by
  have hlf := count_slice data 10 (Nat.zero_le state.offset) hoffset
  have hnul := count_slice data 0 (Nat.zero_le state.offset) hoffset
  rw [List.drop_zero, Nat.sub_zero, Nat.sub_zero] at hlf hnul
  unfold RgLineNumberState.advance
  simp only [RgLineNumberState.mk.injEq, fresh, Nat.sub_zero, List.drop_zero, h.lf, h.nul]
  omega

private theorem RgLineNumberState.advance_counts (data : List UInt8) (offset : Nat) :
    Counts data (RgLineNumberState.fresh.advance data offset) := by
  constructor <;> simp [advance, fresh]

private theorem RgLineNumberState.advance_offset (data : List UInt8) (offset : Nat) :
    (RgLineNumberState.fresh.advance data offset).offset = offset := by
  simp [advance, fresh]

/-- A state in which the next matches of the file may be counted. -/
structure RgLineNumberState.Upto (data : List UInt8) (offset : Nat) (state : RgLineNumberState) : Prop
    extends Counts data state where
  le : state.offset ≤ offset

theorem RgLineNumberState.Upto.mono {data : List UInt8} {offset offset' : Nat} {state : RgLineNumberState}
    (h : state.Upto data offset) (hle : offset ≤ offset') : state.Upto data offset' := ⟨h.toCounts, h.le.trans hle⟩

private theorem rgLineNumberMatches_upto (lineNumber : Nat) {data : List UInt8} {offset : Nat}
    {state : RgLineNumberState} (h : state.Upto data offset) :
    (rgLineNumberMatches data offset lineNumber state).1 = (rgLineNumberMatches data offset lineNumber .fresh).1 ∧
      (rgLineNumberMatches data offset lineNumber state).2.Upto data offset := by
  have hle : ¬offset < state.offset := by
    have := h.le
    omega
  unfold rgLineNumberMatches rgLineNumberMatchesBy
  simp only [hle, h.toCounts.advance h.le, RgLineNumberState.fresh, Nat.not_lt_zero]
  split
  · exact ⟨rfl, h⟩
  split
  · exact ⟨rfl, h⟩
  · exact ⟨rfl, ⟨RgLineNumberState.advance_counts data offset, (RgLineNumberState.advance_offset data offset).le⟩⟩

/-- A match record is verified alike in every state that counts the lines before it, and leaves such a state. -/
theorem verifiedGrepMatch_alike {data : RgMatchData} {snapshot : GrepFileSnapshot} {state : RgLineNumberState}
    (hstate : ∀ offset, data.absoluteOffset = some offset → state.Upto snapshot.data offset) :
    match verifiedGrepMatch data snapshot .fresh with
    | .error e => verifiedGrepMatch data snapshot state = .error e
    | .ok (m, _) => ∃ lines, verifiedGrepMatch data snapshot state = .ok (m, lines) ∧
        (lines = state ∨ ∃ offset, data.absoluteOffset = some offset ∧ lines.Upto snapshot.data offset) := by
  obtain ⟨lineNumber, absoluteOffset, lines, submatch⟩ := data
  unfold verifiedGrepMatch verifiedGrepMatchBy
  cases lineNumber with
  | none => rfl
  | some lineNumber =>
  cases lines with
  | none => rfl
  | some rawLine =>
  cases submatch with
  | none => rfl
  | some bounds =>
  obtain ⟨start, stop⟩ := bounds
  dsimp only
  by_cases hline : lineNumber = 0
  · rw [if_pos hline, if_pos hline]
  rw [if_neg hline, if_neg hline]
  cases absoluteOffset with
  | none => exact ⟨_, rfl, .inl rfl⟩
  | some offset =>
  dsimp only
  by_cases hbad : (snapshot.data.length < offset || snapshot.data.length - offset < rawLine.length) = true
  · rw [if_pos hbad, if_pos hbad]
    exact ⟨_, rfl, .inl rfl⟩
  rw [if_neg hbad, if_neg hbad]
  cases rgVerifiedLineLength snapshot.data offset rawLine with
  | none => exact ⟨_, rfl, .inl rfl⟩
  | some length =>
  dsimp only
  obtain ⟨hsame, hafter⟩ := rgLineNumberMatches_upto lineNumber (hstate offset rfl)
  rw [hsame]
  cases (rgLineNumberMatches snapshot.data offset lineNumber .fresh).1 with
  | false => exact ⟨_, rfl, .inr ⟨offset, rfl, hafter⟩⟩
  | true =>
  cases start with
  | none => rfl
  | some start =>
  cases stop with
  | none => rfl
  | some stop =>
  by_cases hbounds : (decide (start ≤ stop) && decide (stop ≤ rawLine.length)) = true
  · by_cases hlong : length < stop
    · simp only [Bool.not_true, Bool.false_eq_true, if_false, hbounds, if_true, hlong]
      exact ⟨_, rfl, .inr ⟨offset, rfl, hafter⟩⟩
    · simp only [Bool.not_true, Bool.false_eq_true, if_false, hbounds, if_true, hlong]
      exact ⟨_, rfl, .inr ⟨offset, rfl, hafter⟩⟩
  · simp only [Bool.not_true, Bool.false_eq_true, if_false, hbounds]

private theorem RgMatchData.WellFormed.verifies {data : RgMatchData} (h : data.WellFormed) (snapshot : GrepFileSnapshot)
    (state : RgLineNumberState) : ∃ m lines, verifiedGrepMatch data snapshot state = .ok (m, lines) := by
  obtain ⟨lineNumber, offset, rawLine, start, stop, rfl, hline, hstart, hstop⟩ := h
  have hpositive : lineNumber ≠ 0 := by omega
  unfold verifiedGrepMatch verifiedGrepMatchBy
  dsimp only
  rw [if_neg hpositive]
  split
  · exact ⟨_, _, rfl⟩
  cases rgVerifiedLineLength snapshot.data offset rawLine with
  | none => exact ⟨_, _, rfl⟩
  | some length =>
    dsimp only
    split
    · exact ⟨_, _, rfl⟩
    · rw [if_pos (by simp [hstart, hstop])]
      split <;> exact ⟨_, _, rfl⟩

/-- What a match record is verified to, in a state that counts the lines before it. -/
private theorem verifiedGrepMatch_upto {data : RgMatchData} {snapshot : GrepFileSnapshot} {state : RgLineNumberState}
    (hdata : data.WellFormed) (hstate : ∀ offset, data.absoluteOffset = some offset → state.Upto snapshot.data offset) :
    ∃ m lines, verifiedGrepMatch data snapshot .fresh = .ok (m, lines) ∧
      ∃ lines', verifiedGrepMatch data snapshot state = .ok (m, lines') ∧
        ∀ offset, data.absoluteOffset = some offset → lines'.Upto snapshot.data offset := by
  obtain ⟨m, lines, hfresh⟩ := hdata.verifies snapshot .fresh
  have halike := verifiedGrepMatch_alike hstate
  rw [hfresh] at halike
  obtain ⟨lines', hverify, hlines⟩ := halike
  refine ⟨m, lines, hfresh, lines', hverify, fun offset hoffset => ?_⟩
  rcases hlines with rfl | ⟨offset', hoffset', hupto⟩
  · exact hstate offset hoffset
  · rw [hoffset] at hoffset'
    cases hoffset'
    exact hupto

/-! ### Sights -/

/-- What the store makes of a match record. -/
def GrepStore.verify (store : GrepStore) (logicalPath : String) (data : RgMatchData) : Option GrepMatch :=
  let snapshot := snapshotGrepFile store logicalPath (treePath logicalPath)
  if snapshot.verified then
    match verifiedGrepMatch data snapshot .fresh with
    | .ok (m, _) => m
    | .error _ => none
  else none

/-- A record with what the store says about it. -/
inductive GrepSight
  | tooLong
  | nothing
  | border (path : String)
  | hit (path : String) (snapshot : GrepFileSnapshot) (m : GrepMatch)
  | unverified (path : String)

def GrepStore.sight (store : GrepStore) : RgRecord → GrepSight
  | .oversized => .tooLong
  | .event type (some tree) data =>
    match logicalTreePath tree with
    | none => .nothing
    | some path =>
      match type with
      | .matched =>
        match store.verify path data with
        | some m => .hit path (snapshotGrepFile store path (treePath path)) m
        | none => .unverified path
      | _ => .border path
  | _ => .nothing

/-- A scan without the file it looked at last. -/
def GrepScan.forget (s : GrepScan) : GrepScan := { s with active := .none }

def GrepConsumed.forget : GrepConsumed → GrepConsumed
  | .next s => .next s.forget
  | .done result => .done result
  | .late s => .late s.forget
  | .raised e => .raised e

namespace GrepTarget

variable (t : GrepTarget)

/-- Whether a cursor at the start of a file has not come to the file of an event. -/
def replays (s : GrepScan) (path : String) : Bool :=
  legacyFileStart t.resume && !s.resumeReplayComplete && treeText (treePath path) < treeText t.resumeTreePath

/-- An event that is not skipped ends the replay. -/
def arrive (s : GrepScan) : GrepScan :=
  { s with resumeReplayComplete := s.resumeReplayComplete || legacyFileStart t.resume }

/-- One record of a scan, by its sight. -/
def consume (s : GrepScan) : GrepSight → GrepConsumed
  | .tooLong => .done (s.result (some .maxBytes) none)
  | .nothing => .next s
  | .border path => if t.replays s path then .next s else .next (t.arrive s)
  | .hit path snapshot m =>
    if t.replays s path then .next s
    else if t.skips (t.arrive s) path then .next (t.arrive s)
    else t.accept { t.arrive s with catalogMismatch := s.catalogMismatch || snapshot.catalogMismatch } snapshot m
  | .unverified path =>
    if t.replays s path then .next s
    else if t.skips (t.arrive s) path then .next (t.arrive s)
    else .done ({ t.arrive s with catalogMismatch := true }.result (some .catalogMismatch) none)

/-- A scan by the sights of its records. -/
def watch : GrepScan → List GrepSight → GrepConsumed
  | s, [] => .next s
  | s, sight :: rest =>
    match t.consume s sight with
    | .next s => watch s rest
    | other => other

private theorem append_forget (s : GrepScan) (m : GrepMatch) : (t.append s m).forget = t.append s.forget m := by
  by_cases hfull : t.limit ≤ (s.grepMatches ++ [m]).length
  · cases hcursor : grepCursorForMatch t.pre t.patternHash m s.catalogMismatch .afterMatch <;>
      simp only [append, GrepScan.forget, hfull, hcursor, if_true] <;> rfl
  · simp only [append, GrepScan.forget, hfull, if_false]
    rfl

private theorem accept_forget (s : GrepScan) (snapshot : GrepFileSnapshot) (m : GrepMatch) :
    (t.accept s snapshot m).forget = t.accept s.forget snapshot m := by
  have happend := t.append_forget s m
  have hstart := t.append_forget { s with anchorFound := true } m
  unfold accept
  cases t.resume with
  | none =>
    simp only [apply_ite GrepConsumed.forget, happend]
    rfl
  | some cursor =>
    simp only [apply_ite GrepConsumed.forget, happend, hstart]
    rfl

end GrepTarget

/-- What a match adds to a scan leaves the file that is looked at. -/
private theorem GrepTarget.append_active {t : GrepTarget} {s s' : GrepScan} {m : GrepMatch}
    (h : t.append s m = .next s') :
    s'.active = s.active := by
  by_cases hfull : t.limit ≤ (s.grepMatches ++ [m]).length
  · simp only [GrepTarget.append, hfull, if_true] at h
    split at h <;> cases h
  · simp only [GrepTarget.append, hfull, if_false] at h
    cases h
    rfl

private theorem GrepTarget.accept_active {t : GrepTarget} {s s' : GrepScan} {snapshot : GrepFileSnapshot}
    {m : GrepMatch} (h : t.accept s snapshot m = .next s') : s'.active = s.active := by
  unfold GrepTarget.accept at h
  cases hresume : t.resume with
  | none =>
    simp only [hresume] at h
    by_cases hanchor : s.anchorFound = true
    · rw [if_pos hanchor] at h
      exact append_active h
    · rw [if_neg hanchor] at h
      cases h
  | some cursor =>
    simp only [hresume] at h
    by_cases hlegacy : legacyLogicalResume (some cursor) = true
    · rw [if_pos hlegacy] at h
      split_ifs at h <;> cases h <;> rfl
    rw [if_neg hlegacy] at h
    by_cases hanchor : s.anchorFound = true
    · rw [if_pos hanchor] at h
      exact append_active h
    rw [if_neg hanchor] at h
    by_cases hstale : some (cursor.expectedIdentity snapshot) ≠ cursor.contentHash
    · rw [if_pos hstale] at h
      cases h
    rw [if_neg hstale] at h
    by_cases hmode : cursor.mode = .fileStart
    · rw [if_pos hmode] at h
      exact (append_active h).trans rfl
    · rw [if_neg hmode] at h
      split_ifs at h <;> cases h <;> rfl

/-! ### The cache -/

theorem snapshotGrepFile_logicalPath (store : GrepStore) (path : String) (tree : TreePath) :
    (snapshotGrepFile store path tree).logicalPath = path := by
  unfold snapshotGrepFile
  dsimp only
  split <;> rfl

/-- Only a file that disagrees with the catalog is not verified. -/
private theorem snapshotGrepFile_mismatch {store : GrepStore} {path : String} {tree : TreePath}
    (h : (snapshotGrepFile store path tree).verified = false) :
    (snapshotGrepFile store path tree).catalogMismatch = true := by
  unfold snapshotGrepFile at h ⊢
  dsimp only at h ⊢
  split
  · rename_i data hdata
    simp only [hdata, Bool.or_eq_false_iff, decide_eq_false_iff_not] at h
    simpa using h.2
  · rfl

/-- The snapshot is that of a file as it is, and the lines before every match in it that is still to come are
counted. -/
def GrepScan.Cached (store : GrepStore) (s : GrepScan) (rest : List RgRecord) : Prop :=
  ∀ snapshot, s.active.snapshot = some snapshot →
    ∃ path, snapshot = snapshotGrepFile store path (treePath path) ∧
      ∀ data, .event .matched (some (treePath path)) data ∈ rest → ∀ offset, data.absoluteOffset = some offset →
        (s.active.lineNumberState.getD .fresh).Upto snapshot.data offset

theorem RgLineNumberState.fresh_upto (data : List UInt8) (offset : Nat) : Upto data offset .fresh :=
  ⟨fresh_counts data, Nat.zero_le offset⟩

section

variable {store : GrepStore} {s : GrepScan} {path : String} {data : RgMatchData} {rest : List RgRecord}

theorem GrepScan.Cached.activate (h : s.Cached store (.event .matched (some (treePath path)) data :: rest)) :
    ∃ lines, s.activate store path (treePath path) = (snapshotGrepFile store path (treePath path), lines) ∧
      ∀ offset, data.absoluteOffset = some offset →
        lines.Upto (snapshotGrepFile store path (treePath path)).data offset := by
  unfold GrepScan.activate
  cases hactive : s.active.snapshot with
  | none => exact ⟨.fresh, rfl, fun offset _ => RgLineNumberState.fresh_upto _ offset⟩
  | some snapshot =>
    obtain ⟨path', rfl, hlines⟩ := h snapshot hactive
    simp only [snapshotGrepFile_logicalPath]
    by_cases hpath : path' = path
    · subst hpath
      rw [if_pos rfl]
      exact ⟨_, rfl, fun offset hoffset => hlines data (by simp) offset hoffset⟩
    · rw [if_neg hpath]
      exact ⟨.fresh, rfl, fun offset _ => RgLineNumberState.fresh_upto _ offset⟩

/-- A match is verified as if its file had not been looked at before. -/
private theorem GrepScan.Cached.look (h : s.Cached store (.event .matched (some (treePath path)) data :: rest))
    (hdata : data.WellFormed) (hbefore : ∀ r ∈ rest, RgRecord.Before (.event .matched (some (treePath path)) data) r) :
    match store.verify path data with
    | some m => ∃ s', s.look store none path (treePath path) data =
        .seen s' (snapshotGrepFile store path (treePath path)) m ∧
        s'.forget = { s.forget with
          catalogMismatch := s.catalogMismatch || (snapshotGrepFile store path (treePath path)).catalogMismatch } ∧
        s'.Cached store rest
    | none => ∃ s', s.look store none path (treePath path) data = .unverified s' ∧
        s'.forget = { s.forget with catalogMismatch := true } := by
  obtain ⟨lines, hactivate, hupto⟩ := h.activate
  obtain ⟨m, after, hfresh, after', hstate, hafter⟩ := verifiedGrepMatch_upto hdata hupto
  unfold GrepScan.look GrepStore.verify
  simp only [reduceCtorEq, decide_false, Bool.and_false, Bool.false_eq_true, if_false, hactivate, hfresh, hstate]
  by_cases hverified : (snapshotGrepFile store path (treePath path)).verified = true
  · cases m with
    | none => simp [hverified, forget]
    | some m =>
      simp only [hverified, if_true]
      refine ⟨{ s with
        active := ⟨s.active.path, some (snapshotGrepFile store path (treePath path)), some after'⟩,
        catalogMismatch := s.catalogMismatch || (snapshotGrepFile store path (treePath path)).catalogMismatch },
        by simp, rfl, ?_⟩
      intro snapshot hsnapshot
      cases hsnapshot
      refine ⟨path, rfl, ?_⟩
      intro data' hdata' offset' hoffset'
      -- the next match of the file lies behind this one
      obtain ⟨_, offset, _, _, _, rfl, -⟩ := hdata
      have hlt : offset < offset' := hbefore _ hdata' rfl offset offset' rfl hoffset'
      exact (hafter offset rfl).mono hlt.le
  · have hmismatch := snapshotGrepFile_mismatch (Bool.not_eq_true _ ▸ hverified)
    simp [hverified, forget, hmismatch]

private theorem GrepScan.Cached.tail {r : RgRecord} (h : s.Cached store (r :: rest)) : s.Cached store rest := by
  intro snapshot hsnapshot
  obtain ⟨path, hpath, hlines⟩ := h snapshot hsnapshot
  exact ⟨path, hpath, fun data hdata => hlines data (List.mem_cons_of_mem _ hdata)⟩

theorem GrepScan.Cached.of_active {s' : GrepScan} (h : s.Cached store rest)
    (hactive : s'.active.snapshot = s.active.snapshot)
    (hlines : s'.active.lineNumberState = s.active.lineNumberState) : s'.Cached store rest := by
  intro snapshot hsnapshot
  rw [hactive] at hsnapshot
  rw [hlines]
  exact h snapshot hsnapshot

end

namespace GrepSearch

variable {search : GrepSearch} {limit : Nat} {resume : Option GrepCursor}

/-- The path of an event that ripgrep reports. -/
theorem eventPath_of_reports (limit : Nat) (resume : Option GrepCursor) {type : RgEventType} {path : Option TreePath}
    {data : RgMatchData} (h : search.Reports (.event type path data)) :
    ∃ logicalPath, Normalized logicalPath ∧ path = some (treePath logicalPath) ∧
      (search.target limit resume).eventPath path = .ok (logicalPath, treePath logicalPath) := by
  obtain ⟨logicalPath, hnormal, rfl, hwithin, -⟩ := h
  refine ⟨logicalPath, hnormal, rfl, ?_⟩
  unfold GrepTarget.eventPath
  simp only [logicalTreePath_treePath hnormal]
  rcases hwithin with hpre | hwithin
  · have htarget : (search.target limit resume).pre = "" := hpre
    simp only [htarget, if_true]
    rfl
  · have htarget : (search.target limit resume).pre = search.pre := rfl
    simp only [htarget, hwithin]
    split <;> rfl

theorem sight_event {type : RgEventType} {path : String} (hnormal : Normalized path) (data : RgMatchData) :
    search.store.sight (.event type (some (treePath path)) data) =
      match type with
      | .matched =>
        match search.store.verify path data with
        | some m => .hit path (snapshotGrepFile search.store path (treePath path)) m
        | none => .unverified path
      | _ => .border path := by
  unfold GrepStore.sight
  simp only [logicalTreePath_treePath hnormal]

/-- A snapshot that a cursor of version 2 took is one of a file as it is. -/
theorem target_resumeSnapshot {snapshot : GrepFileSnapshot}
    (h : (search.target limit resume).resumeSnapshot = some snapshot) :
    ∃ path, snapshot = snapshotGrepFile search.store path (treePath path) := by
  unfold target at h
  simp only at h
  split at h
  · exact ⟨_, (Option.some.inj h).symm⟩
  · cases h

/-- The begin or the end of a file. -/
private theorem consumeEvent_border (limit : Nat) (resume : Option GrepCursor) {s : GrepScan} (path : String)
    (data : RgMatchData)
    {rest : List RgRecord} {type : RgEventType} (htype : type ≠ .matched) (hcached : s.Cached search.store rest) :
    ∃ s', (search.target limit resume).consumeEvent none s path (treePath path) data type = .next s' ∧
      s'.forget = s.forget ∧ s'.Cached search.store rest := by
  cases type with
  | matched => exact absurd rfl htype
  | began =>
    refine ⟨_, rfl, rfl, ?_⟩
    intro snapshot hsnapshot
    simp only at hsnapshot
    split at hsnapshot
    · obtain ⟨path', hpath'⟩ := target_resumeSnapshot hsnapshot
      refine ⟨path', hpath', fun data' _ offset _ => ?_⟩
      have hfresh : ∀ found : Option GrepFileSnapshot, (found.map fun _ => RgLineNumberState.fresh).getD .fresh =
        .fresh := by
        intro found
        cases found <;> rfl
      simp only [hfresh]
      exact RgLineNumberState.fresh_upto _ offset
    · simp at hsnapshot
  | ended =>
    by_cases hactive : s.active.path = some path
    · refine ⟨{ s with active := .none }, by simp [GrepTarget.consumeEvent, hactive], rfl, ?_⟩
      intro snapshot hsnapshot
      exact absurd hsnapshot (by simp [GrepActive.none])
    · exact ⟨s, by simp [GrepTarget.consumeEvent, hactive], rfl, hcached⟩

/-- A match that is not skipped. -/
private theorem consumeEvent_matched (limit : Nat) (resume : Option GrepCursor) {s : GrepScan} {path : String}
    {data : RgMatchData} {rest : List RgRecord}
    (hdata : data.WellFormed) (hbefore : ∀ r ∈ rest, RgRecord.Before (.event .matched (some (treePath path)) data) r)
    (hcached : s.Cached search.store (.event .matched (some (treePath path)) data :: rest)) :
    ((search.target limit resume).consumeEvent none s path (treePath path) data .matched).forget =
        (if (search.target limit resume).skips s.forget path then .next s.forget
        else match search.store.verify path data with
          | some m => (search.target limit resume).accept { s.forget with
              catalogMismatch :=
                s.catalogMismatch || (snapshotGrepFile search.store path (treePath path)).catalogMismatch }
              (snapshotGrepFile search.store path (treePath path)) m
          | none => .done ({ s.forget with catalogMismatch := true }.result (some .catalogMismatch) none)) ∧
      ∀ s', (search.target limit resume).consumeEvent none s path (treePath path) data .matched = .next s' →
        s'.Cached search.store rest := by
  have hactive : ({ s with active := { s.active with path := some path } } : GrepScan).Cached search.store
      (.event .matched (some (treePath path)) data :: rest) := hcached.of_active rfl rfl
  have hlook := hactive.look hdata hbefore
  have hskips : (search.target limit resume).skips { s with active := { s.active with path := some path } } path =
      (search.target limit resume).skips s.forget path := rfl
  have hstore : (search.target limit resume).store = search.store := rfl
  simp only [GrepTarget.consumeEvent, hskips, hstore]
  by_cases hskip : (search.target limit resume).skips s.forget path = true
  · simp only [hskip, if_true]
    refine ⟨rfl, fun s' h => ?_⟩
    cases h
    exact hactive.tail
  · simp only [hskip]
    cases hverify : search.store.verify path data with
    | none =>
      simp only [hverify] at hlook
      obtain ⟨s', hs', hforget⟩ := hlook
      rw [hs']
      refine ⟨?_, fun s'' h => by cases h⟩
      have hresult : s'.result (some .catalogMismatch) none = s'.forget.result (some .catalogMismatch) none := rfl
      show GrepConsumed.done (s'.result (some .catalogMismatch) none) = _
      rw [hresult, hforget]
      rfl
    | some m =>
      simp only [hverify] at hlook
      obtain ⟨s', hs', hforget, hafter⟩ := hlook
      rw [hs']
      refine ⟨?_, fun s'' h => ?_⟩
      · show ((search.target limit resume).accept s' _ m).forget = _
        rw [GrepTarget.accept_forget, hforget]
        rfl
      · have hsame := GrepTarget.accept_active h
        exact hafter.of_active (by rw [hsame]) (by rw [hsame])

/-- A scan does with a record what its sight says. -/
theorem consumeRecord_sight {s : GrepScan} {r : RgRecord} {rest : List RgRecord} (hr : search.Reports r)
    (hbefore : ∀ r' ∈ rest, r.Before r') (hcached : s.Cached search.store (r :: rest)) :
    ((search.target limit resume).consumeRecord none s r).forget =
        (search.target limit resume).consume s.forget (search.store.sight r) ∧
      ∀ s', (search.target limit resume).consumeRecord none s r = .next s' → s'.Cached search.store rest := by
  cases r with
  | oversized => exact ⟨rfl, fun s' h => by cases h⟩
  | other =>
    refine ⟨rfl, fun s' h => ?_⟩
    cases h
    exact hcached.tail
  | malformed => exact hr.elim
  | invalid => exact hr.elim
  | event type path data =>
    obtain ⟨path, hnormal, rfl, hevent⟩ := eventPath_of_reports limit resume hr
    have hconsume : (search.target limit resume).consumeRecord none s (.event type (some (treePath path)) data) =
        if (search.target limit resume).replays s path then .next s
        else (search.target limit resume).consumeEvent none ((search.target limit resume).arrive s) path (treePath path)
          data type := by
      simp only [GrepTarget.consumeRecord, hevent]
      rfl
    have harrive : ((search.target limit resume).arrive s).Cached search.store
        (.event type (some (treePath path)) data :: rest) := hcached.of_active rfl rfl
    have hreplays : (search.target limit resume).replays s.forget path =
      (search.target limit resume).replays s path := rfl
    rw [hconsume]
    by_cases htype : type = .matched
    · subst htype
      obtain ⟨_, _, _, _, hdata⟩ := hr
      obtain ⟨hforget, hafter⟩ := consumeEvent_matched limit resume (hdata rfl) hbefore harrive
      rw [sight_event hnormal]
      by_cases hreplay : (search.target limit resume).replays s path = true
      · simp only [hreplay, if_true]
        refine ⟨?_, fun s'' h => ?_⟩
        · cases search.store.verify path data <;> simp only [GrepTarget.consume, hreplays, hreplay, if_true] <;> rfl
        · cases h
          exact hcached.tail
      · rw [if_neg hreplay]
        refine ⟨?_, hafter⟩
        rw [hforget]
        cases search.store.verify path data <;> simp only [GrepTarget.consume, hreplays, hreplay] <;> rfl
    · obtain ⟨s', hs', hsame, hafter⟩ := consumeEvent_border limit resume path data htype harrive.tail
      have hsight : search.store.sight (.event type (some (treePath path)) data) = .border path := by
        rw [sight_event hnormal]
        cases type with
        | matched => exact absurd rfl htype
        | began | ended => rfl
      rw [hs', hsight]
      simp only [GrepTarget.consume, hreplays]
      by_cases hreplay : (search.target limit resume).replays s path = true
      · simp only [hreplay, if_true]
        refine ⟨rfl, fun s'' h => ?_⟩
        cases h
        exact hcached.tail
      · simp only [hreplay]
        refine ⟨congrArg GrepConsumed.next hsame, fun s'' h => ?_⟩
        cases h
        exact hafter

end GrepSearch

end Ctxd

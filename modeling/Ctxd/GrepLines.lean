import Ctxd.GrepStream

/-!
# Line numbers of the records of a file

A scan counts the lines of a file only once: the state that a match leaves is advanced to the next one, in chunks, and
on some of the ways out only.  It counts the bytes before its offset whatever was accepted or refused, so records in
the order of their offsets are verified as if each of them were the first (`line_numbers_shared`).
-/

namespace Ctxd

open Program

/-- Where the chunks end does not matter. -/
private theorem RgLineNumberState.advanceIn_eq (chunkBytes : ℕ+) (state : RgLineNumberState) (data : List UInt8)
    (offset : Nat) :
    state.advanceIn chunkBytes data offset = state.advance data offset := by
  fun_induction advanceIn chunkBytes state data offset with
  | case1 state hlt stop part ih =>
    have hstop : state.offset ≤ stop ∧ stop ≤ offset := by
      have := chunkBytes.pos
      omega
    have hlf := count_slice data 10 hstop.1 hstop.2
    have hnul := count_slice data 0 hstop.1 hstop.2
    rw [ih]
    unfold advance
    simp only [RgLineNumberState.mk.injEq]
    refine ⟨by omega, ?_, ?_⟩
    · rw [Nat.add_assoc, hlf]
    · rw [Nat.add_assoc, hnul]
  | case2 state hge =>
    have hnone : offset - state.offset = 0 := by omega
    unfold advance
    simp only [hnone, List.take_zero, List.count_nil, Nat.add_zero]
    rw [Nat.max_eq_left (by omega)]

/-- `_verified_grep_match`, with the chunks in which lines are counted. -/
def verifiedGrepMatchIn (chunkBytes : ℕ+) (data : RgMatchData) (snapshot : GrepFileSnapshot)
    (state : RgLineNumberState) : Except GrepError (Option GrepMatch × RgLineNumberState) :=
  verifiedGrepMatchBy (rgLineNumberMatchesBy (RgLineNumberState.advanceIn chunkBytes)) data snapshot state

private theorem verifiedGrepMatchIn_eq (chunkBytes : ℕ+) : verifiedGrepMatchIn chunkBytes = verifiedGrepMatch := by
  have hadvance : RgLineNumberState.advanceIn chunkBytes = RgLineNumberState.advance := by
    funext state data offset
    exact RgLineNumberState.advanceIn_eq chunkBytes state data offset
  funext data snapshot state
  unfold verifiedGrepMatchIn verifiedGrepMatch
  rw [hadvance]
  rfl

/-- The records of a file in turn, with one state; an exception ends them. -/
def verifiedGrepMatches (chunkBytes : ℕ+) (snapshot : GrepFileSnapshot) : RgLineNumberState → List RgMatchData →
    Except GrepError (List (Option GrepMatch))
  | _, [] => .ok []
  | state, data :: rest => do
    let (m, state) ← verifiedGrepMatchIn chunkBytes data snapshot state
    let found ← verifiedGrepMatches chunkBytes snapshot state rest
    return m :: found

/-- A record alone, with a state of its own. -/
def freshGrepMatch (chunkBytes : ℕ+) (snapshot : GrepFileSnapshot) (data : RgMatchData) :
    Except GrepError (Option GrepMatch) :=
  (verifiedGrepMatchIn chunkBytes data snapshot .fresh).map Prod.fst

/-- Of two records the second does not begin before the first. -/
def RgMatchData.NotAfter (data data' : RgMatchData) : Prop :=
  ∀ offset offset', data.absoluteOffset = some offset → data'.absoluteOffset = some offset' → offset ≤ offset'

instance (data data' : RgMatchData) : Decidable (data.NotAfter data') :=
  match h : data.absoluteOffset, h' : data'.absoluteOffset with
  | some offset, some offset' =>
    decidable_of_iff (offset ≤ offset') ⟨fun hle o o' ho ho' => by
      rw [h] at ho
      rw [h'] at ho'
      cases ho
      cases ho'
      exact hle, fun hnot => hnot offset offset' h h'⟩
  | none, _ => .isTrue fun o o' ho _ => by rw [h] at ho; cases ho
  | some _, none => .isTrue fun o o' _ ho' => by rw [h'] at ho'; cases ho'

/-- A state that counts the lines before all records that are still to come. -/
private theorem verifiedGrepMatches_eq (chunkBytes chunkBytes' : ℕ+) (snapshot : GrepFileSnapshot)
    {records : List RgMatchData} (hordered : records.Pairwise RgMatchData.NotAfter) {state : RgLineNumberState}
    (hstate : ∀ data ∈ records, ∀ offset, data.absoluteOffset = some offset → state.Upto snapshot.data offset) :
    verifiedGrepMatches chunkBytes snapshot state records = records.mapM (freshGrepMatch chunkBytes' snapshot) := by
  induction records generalizing state with
  | nil => rfl
  | cons data rest ih =>
    obtain ⟨hfirst, hrest⟩ := List.pairwise_cons.1 hordered
    have halike := verifiedGrepMatch_alike (hstate data (List.mem_cons_self ..))
    rw [List.mapM_cons]
    unfold verifiedGrepMatches freshGrepMatch
    rw [verifiedGrepMatchIn_eq, verifiedGrepMatchIn_eq]
    cases hfresh : verifiedGrepMatch data snapshot .fresh with
    | error e =>
      rw [hfresh] at halike
      rw [halike]
      rfl
    | ok verdict =>
      obtain ⟨m, _⟩ := verdict
      rw [hfresh] at halike
      obtain ⟨lines, hverify, hlines⟩ := halike
      have hnext : ∀ data' ∈ rest, ∀ offset, data'.absoluteOffset = some offset →
          lines.Upto snapshot.data offset := by
        intro data' hdata' offset' hoffset'
        rcases hlines with rfl | ⟨offset, hoffset, hupto⟩
        · exact hstate data' (List.mem_cons_of_mem _ hdata') offset' hoffset'
        · exact hupto.mono (hfirst data' hdata' offset offset' hoffset hoffset')
      have htail := ih hrest hnext
      unfold freshGrepMatch at htail
      rw [verifiedGrepMatchIn_eq] at htail
      rw [hverify]
      show (verifiedGrepMatches chunkBytes snapshot lines rest >>= fun found => pure (m :: found)) = _
      rw [htail]
      rfl

/-- Records in the order of their offsets, accepted or refused, are verified as each of them alone, whatever the chunks
are in which the lines are counted. -/
theorem line_numbers_shared (chunkBytes chunkBytes' : ℕ+) (snapshot : GrepFileSnapshot) (records : List RgMatchData)
    (hordered : records.Pairwise RgMatchData.NotAfter) :
    verifiedGrepMatches chunkBytes snapshot .fresh records = records.mapM (freshGrepMatch chunkBytes' snapshot) :=
  verifiedGrepMatches_eq chunkBytes chunkBytes' snapshot hordered fun _ _ offset _ =>
    RgLineNumberState.fresh_upto _ offset

/-- `alpha\nneedle\nneedle\n`. -/
def needlesSnapshot : GrepFileSnapshot where
  logicalPath := "notes.md"
  treePath := treePath "notes.md"
  data := [97, 108, 112, 104, 97, 10, 110, 101, 101, 100, 108, 101, 10, 110, 101, 101, 100, 108, 101, 10]
  contentHash := "sha256:0"
  pathIdentity := "stat:1:2:20:3:4"
  catalogMismatch := false
  verified := true

def needleRecord (lineNumber offset : Nat) (line : List UInt8) : RgMatchData :=
  ⟨some lineNumber, some offset, some line, some (some 0, some 5)⟩

/-- A wrong number, the first needle, the inside of a line, bytes that differ, the second needle and an offset behind
the end. -/
def needleRecords : List RgMatchData :=
  [needleRecord 3 6 [110, 101, 101, 100, 108, 101, 10], needleRecord 2 6 [110, 101, 101, 100, 108, 101, 10],
    needleRecord 2 7 [101, 101, 100, 108, 101, 10], needleRecord 3 13 [110, 101, 101, 100, 108, 102, 10],
    needleRecord 3 13 [110, 101, 101, 100, 108, 101, 10], needleRecord 4 99 [110, 101, 101, 100, 108, 101, 10]]

theorem line_numbers_shared_needles :
    verifiedGrepMatches 4 needlesSnapshot .fresh needleRecords =
      .ok [none, some ⟨"notes.md", 2, "needle", 0, 5, "sha256:0"⟩, none, none,
        some ⟨"notes.md", 3, "needle", 0, 5, "sha256:0"⟩, none] := by
  rw [line_numbers_shared 4 7 needlesSnapshot needleRecords (by decide)]
  unfold freshGrepMatch
  rw [verifiedGrepMatchIn_eq]
  rfl

end Ctxd

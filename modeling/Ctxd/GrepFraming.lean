import Ctxd.GrepStream
import Ctxd.Lib.Framing
import Ctxd.Runs

/-!
# The records of a scan

ripgrep prints one record a line.  The scan reads its output in chunks and hands every line to `consume_record`, which
ends the scan at a line of more than `GREP_MAX_JSON_RECORD_BYTES` bytes; the loop itself ends the scan when it keeps
more than that of a line that has not ended.  How the output is cut into chunks decides which of the two sees a line
that is too long, and nothing else (`readRecords_eq`).

What `json.loads` and the checks of an event make of a line is a parameter, and the deadline does not expire.
-/

namespace Ctxd

open Framing

/-- `GREP_MAX_JSON_RECORD_BYTES`. -/
def grepMaxJsonRecordBytes : Nat := 1000000

/-- `GREP_JSON_CHUNK_BYTES`. -/
def grepJsonChunkBytes : Nat := 64 * 1024

/-- A scan with the lines that `consume_record` was called with. -/
structure GrepFeed where
  scan : GrepScan
  fed : List (List UInt8)

/-- How the loop over the chunks ends. -/
structure GrepRead where
  consumed : GrepConsumed
  fed : List (List UInt8)

def GrepRead.of : Except GrepRead GrepFeed → GrepRead
  | .ok s => ⟨.next s.scan, s.fed⟩
  | .error read => read

/-- A line as `consume_record` sees it. -/
def rgRecord (parse : List UInt8 → RgRecord) (rawLine : List UInt8) : RgRecord :=
  if grepMaxJsonRecordBytes < rawLine.length then .oversized else parse rawLine

namespace GrepTarget

variable (t : GrepTarget) (parse : List UInt8 → RgRecord)

def feedRecord (s : GrepFeed) (rawLine : List UInt8) : Except GrepRead GrepFeed :=
  match t.consumeRecord none s.scan (rgRecord parse rawLine) with
  | .next scan => .ok ⟨scan, s.fed ++ [rawLine]⟩
  | consumed => .error ⟨consumed, s.fed ++ [rawLine]⟩

/-- The pending line is too long. -/
def pendingTooLong (s : GrepFeed) : GrepRead := ⟨.done (s.scan.result (some .maxBytes) none), s.fed⟩

/-- The loop over the chunks that `os.read` returns. -/
def readRecords (s : GrepScan) (chunks : List (List UInt8)) : GrepRead :=
  .of (readChunks 10 grepMaxJsonRecordBytes (t.feedRecord parse) pendingTooLong ⟨s, []⟩ [] chunks)

end GrepTarget

/-! ### Lines that are not too long -/

def shortLines (lines : List (List UInt8)) : List (List UInt8) :=
  lines.filter fun rawLine => rawLine.length ≤ grepMaxJsonRecordBytes

@[simp] theorem shortLines_append (lines more : List (List UInt8)) :
    shortLines (lines ++ more) = shortLines lines ++ shortLines more := List.filter_append ..

@[simp] theorem shortLines_shortLines (lines : List (List UInt8)) :
    shortLines (shortLines lines) = shortLines lines := by
  unfold shortLines
  rw [List.filter_filter]
  simp

private theorem shortLines_singleton {rawLine : List UInt8} (h : rawLine.length ≤ grepMaxJsonRecordBytes) :
    shortLines [rawLine] = [rawLine] := List.filter_cons_of_pos (by simpa using h)

def GrepFeed.short (s : GrepFeed) : GrepFeed := ⟨s.scan, shortLines s.fed⟩

def GrepRead.short (r : GrepRead) : GrepRead := ⟨r.consumed, shortLines r.fed⟩

namespace GrepTarget

variable (t : GrepTarget) (parse : List UInt8 → RgRecord)

/-- One line of a scan of which only the lines that are not too long are seen. -/
def feedShort (s : GrepFeed) (rawLine : List UInt8) : Except GrepRead GrepFeed :=
  seen GrepFeed.short GrepRead.short (t.feedRecord parse s rawLine)

variable {t parse}

private theorem feedRecord_short (s : GrepFeed) (rawLine : List UInt8) :
    t.feedShort parse s.short rawLine = seen GrepFeed.short GrepRead.short (t.feedRecord parse s rawLine) := by
  unfold feedShort feedRecord GrepFeed.short
  cases t.consumeRecord none s.scan (rgRecord parse rawLine) <;>
    simp only [seen, GrepRead.short, shortLines_append, shortLines_shortLines]

/-- A line that is too long ends the scan, and is not seen. -/
private theorem feedShort_long {rawLine : List UInt8} (h : grepMaxJsonRecordBytes < rawLine.length) (s : GrepFeed) :
    t.feedShort parse s rawLine = .error (pendingTooLong s).short := by
  have hnot : shortLines [rawLine] = [] := by
    unfold shortLines
    rw [List.filter_cons_of_neg (by simpa using h)]
    rfl
  unfold feedShort feedRecord rgRecord
  rw [if_pos h]
  simp only [GrepTarget.consumeRecord, seen, GrepRead.short, pendingTooLong, shortLines_append, hnot, List.append_nil]

/-- A line that is not too long is seen. -/
private theorem feedShort_short {s : GrepFeed} (hs : shortLines s.fed = s.fed) {rawLine : List UInt8}
    (h : rawLine.length ≤ grepMaxJsonRecordBytes) : t.feedShort parse s rawLine = t.feedRecord parse s rawLine := by
  have hfed : shortLines (s.fed ++ [rawLine]) = s.fed ++ [rawLine] := by
    rw [shortLines_append, hs, shortLines_singleton h]
  unfold feedShort feedRecord
  cases t.consumeRecord none s.scan (rgRecord parse rawLine) <;>
    simp only [seen, GrepFeed.short, GrepRead.short, hfed]

private theorem scan_none_cons (s : GrepScan) (record : RgRecord) (rest : List RgRecord) :
    t.scan none s (record :: rest) =
      match t.consumeRecord none s record with
      | .next s => t.scan none s rest
      | consumed => consumed := by
  rw [scan]
  · cases t.consumeRecord none s record <;> rfl
  all_goals simp

/-- The lines of a scan, taken in turn: the end of the scan, and those of them that are seen. -/
private theorem foldlM_feedShort (records : List (List UInt8)) {s : GrepFeed} (hs : shortLines s.fed = s.fed) :
    (GrepRead.of (records.foldlM (t.feedShort parse) s)).consumed = t.scan none s.scan (records.map (rgRecord parse)) ∧
      ∃ first, first <+: records ∧ (GrepRead.of (records.foldlM (t.feedShort parse) s)).fed = s.fed ++ first := by
  induction records generalizing s with
  | nil => exact ⟨rfl, [], List.nil_prefix, (List.append_nil _).symm⟩
  | cons rawLine records ih =>
    rw [List.foldlM_cons, List.map_cons, scan_none_cons]
    by_cases hlong : grepMaxJsonRecordBytes < rawLine.length
    · rw [feedShort_long hlong, rgRecord, if_pos hlong]
      exact ⟨rfl, [], List.nil_prefix, by simp [GrepRead.of, GrepRead.short, pendingTooLong, hs, bind, Except.bind]⟩
    have hle : rawLine.length ≤ grepMaxJsonRecordBytes := by omega
    have hone : [rawLine] <+: rawLine :: records := ⟨records, rfl⟩
    rw [feedShort_short hs hle, feedRecord]
    cases t.consumeRecord none s.scan (rgRecord parse rawLine) with
    | next scan =>
      have hfed : shortLines (s.fed ++ [rawLine]) = s.fed ++ [rawLine] := by
        rw [shortLines_append, hs, shortLines_singleton hle]
      obtain ⟨hend, first, hfirst, hseen⟩ := ih (s := ⟨scan, s.fed ++ [rawLine]⟩) hfed
      have hall : s.fed ++ [rawLine] ++ first = s.fed ++ rawLine :: first := by simp
      exact ⟨hend, rawLine :: first, (List.prefix_cons_inj rawLine).2 hfirst, hseen.trans hall⟩
    | done result => exact ⟨rfl, [rawLine], hone, rfl⟩
    | late scan => exact ⟨rfl, [rawLine], hone, rfl⟩
    | raised e => exact ⟨rfl, [rawLine], hone, rfl⟩

private theorem pendingTooLong_short (s : GrepFeed) : (pendingTooLong s.short).short = (pendingTooLong s).short := by
  unfold pendingTooLong GrepFeed.short GrepRead.short
  rw [shortLines_shortLines]

/-- However the output is cut into chunks, its lines are taken in turn. -/
private theorem readRecords_short {chunks : List (List UInt8)} (hchunks : ∀ chunk ∈ chunks, chunk ≠ []) (s : GrepScan) :
    (t.readRecords parse s chunks).short =
      .of ((framed 10 chunks.flatten).foldlM (t.feedShort parse) ⟨s, []⟩) := by
  have hseen : readChunks 10 grepMaxJsonRecordBytes (t.feedShort parse) (fun s => (pendingTooLong s).short) ⟨s, []⟩ []
        chunks =
      seen GrepFeed.short GrepRead.short
        (readChunks 10 grepMaxJsonRecordBytes (t.feedRecord parse) pendingTooLong ⟨s, []⟩ [] chunks) :=
    readChunks_seen feedRecord_short pendingTooLong_short chunks [] ⟨s, []⟩
  rw [readChunks_eq (fun s rawLine hlong => feedShort_long hlong s) hchunks (List.not_mem_nil)] at hseen
  rw [List.nil_append] at hseen
  rw [hseen]
  unfold readRecords
  cases readChunks 10 grepMaxJsonRecordBytes (t.feedRecord parse) pendingTooLong ⟨s, []⟩ [] chunks <;> rfl

/-- The scan ends as one that takes the lines of the output in turn, and two ways to cut the output into chunks call
`consume_record` with the same lines of at most `GREP_MAX_JSON_RECORD_BYTES` bytes, which are the first ones of the
output. -/
theorem readRecords_eq (t : GrepTarget) (parse : List UInt8 → RgRecord) (s : GrepScan)
    {chunks chunks' : List (List UInt8)}
    (hchunks : ∀ chunk ∈ chunks, chunk ≠ []) (hchunks' : ∀ chunk ∈ chunks', chunk ≠ [])
    (hsame : chunks.flatten = chunks'.flatten) :
    (t.readRecords parse s chunks).consumed = (t.readRecords parse s chunks').consumed ∧
      (t.readRecords parse s chunks).consumed = t.scan none s ((framed 10 chunks.flatten).map (rgRecord parse)) ∧
      shortLines (t.readRecords parse s chunks).fed = shortLines (t.readRecords parse s chunks').fed ∧
      shortLines (t.readRecords parse s chunks).fed <+: framed 10 chunks.flatten := by
  have hread := @readRecords_short t parse chunks hchunks s
  have hread' := @readRecords_short t parse chunks' hchunks' s
  obtain ⟨hend, first, hfirst, hfed⟩ := @foldlM_feedShort t parse (framed 10 chunks.flatten) ⟨s, []⟩ rfl
  rw [← hread] at hend hfed
  rw [← hsame, ← hread] at hread'
  refine ⟨(congrArg GrepRead.consumed hread').symm, hend, (congrArg GrepRead.fed hread').symm, ?_⟩
  have hshort : shortLines (t.readRecords parse s chunks).fed = [] ++ first := hfed
  rw [hshort]
  exact hfirst

end GrepTarget

/-- A search of all files, with no file below its root. -/
def emptySearch : GrepSearch := ⟨⟨emptyStore (fun _ => 0) 4000, "user", fun _ => "stat:"⟩, "needle", "", ⟨1, [], 0⟩⟩

def emptyTarget : GrepTarget := emptySearch.target 1 none

/-- `{}\n{` in one chunk and in two. -/
theorem readRecords_eq_two :
    let read := emptyTarget.readRecords (fun _ => .other) (GrepSearch.startScan emptyTarget false)
    (read [[123, 125, 10, 123]]).consumed = (read [[123, 125], [10, 123]]).consumed ∧
      (read [[123, 125, 10, 123]]).consumed =
        emptyTarget.scan none (GrepSearch.startScan emptyTarget false)
          ((framed 10 [123, 125, 10, 123]).map (rgRecord fun _ => .other)) ∧
      shortLines (read [[123, 125, 10, 123]]).fed = shortLines (read [[123, 125], [10, 123]]).fed ∧
      shortLines (read [[123, 125, 10, 123]]).fed <+: framed 10 [123, 125, 10, 123] :=
  emptyTarget.readRecords_eq (fun _ => .other) (GrepSearch.startScan emptyTarget false)
    (by decide) (by decide) (by decide)

/-! ### A line of one byte too many -/

/-- The end of a line comes with the bytes that make the line too long, or behind them. -/
private theorem readRecords_long (t : GrepTarget) (parse : List UInt8 → RgRecord) (s : GrepScan)
    {chunks : List (List UInt8)} {last : List UInt8} (hchunks : ∀ chunk ∈ chunks, chunk ≠ []) (hlast : last ≠ [])
    (hsep : (10 : UInt8) ∉ chunks.flatten ++ last) (hshort : chunks.flatten.length ≤ grepMaxJsonRecordBytes)
    (hlong : grepMaxJsonRecordBytes < (chunks.flatten ++ last).length) :
    (t.readRecords parse s (chunks ++ [last ++ [10]])).fed = [chunks.flatten ++ last] ∧
      (t.readRecords parse s (chunks ++ [last, [10]])).fed = [] := by
  have hsep' : (10 : UInt8) ∉ [] ++ chunks.flatten := fun h => hsep (List.mem_append_left _ h)
  unfold GrepTarget.readRecords
  constructor
  · rw [readChunks_append hchunks hsep' hshort, readChunks, if_neg (by simp), List.nil_append, ← List.append_assoc,
      takeRecords_append_sep hsep]
    unfold GrepTarget.feedRecord rgRecord
    rw [if_pos hlong]
    rfl
  · rw [readChunks_append hchunks hsep' hshort, readChunks, if_neg hlast, List.nil_append, takeRecords_of_notMem hsep]
    show (GrepRead.of (if grepMaxJsonRecordBytes < (chunks.flatten ++ last).length then _ else _)).fed = _
    rw [if_pos hlong]
    rfl

@[irreducible] def chunksOfLetters : List (List UInt8) := List.replicate 15 (List.replicate grepJsonChunkBytes 97)

@[irreducible] def lastLetters : List UInt8 := List.replicate 16961 97

private theorem letters_notMem : (10 : UInt8) ∉ chunksOfLetters.flatten ++ lastLetters := by
  unfold chunksOfLetters lastLetters
  rw [List.mem_append, not_or]
  constructor
  · intro h
    obtain ⟨chunk, hchunk, hmem⟩ := List.mem_flatten.1 h
    rw [List.eq_of_mem_replicate hchunk] at hmem
    exact absurd (List.eq_of_mem_replicate hmem) (by decide)
  · intro h
    exact absurd (List.eq_of_mem_replicate h) (by decide)

private theorem length_letters : chunksOfLetters.flatten.length = 983040 := by
  unfold chunksOfLetters grepJsonChunkBytes
  rw [List.length_flatten, List.map_replicate]
  simp only [List.length_replicate]
  rfl

private theorem length_of_mem_letters {chunk : List UInt8} (h : chunk ∈ chunksOfLetters) :
    chunk.length = grepJsonChunkBytes := by
  unfold chunksOfLetters at h
  rw [List.eq_of_mem_replicate h, List.length_replicate]

private theorem chunksOfLetters_ne_nil : ∀ chunk ∈ chunksOfLetters, chunk ≠ [] := by
  intro chunk hchunk
  apply List.ne_nil_of_length_pos
  rw [length_of_mem_letters hchunk]
  decide

private theorem length_lastLetters : lastLetters.length = 16961 := by
  unfold lastLetters
  exact List.length_replicate

private theorem lastLetters_ne_nil : lastLetters ≠ [] := by
  apply List.ne_nil_of_length_pos
  rw [length_lastLetters]
  decide

private theorem length_letters_le : chunksOfLetters.flatten.length ≤ grepMaxJsonRecordBytes := by
  rw [length_letters]
  decide

private theorem length_letters_last : grepMaxJsonRecordBytes < (chunksOfLetters.flatten ++ lastLetters).length := by
  rw [List.length_append, length_letters, length_lastLetters]
  decide

/-- A line of one byte too many that is handed to `consume_record` in one way to cut the output, and not in another. -/
theorem readRecords_cut : ¬∀ (t : GrepTarget) (parse : List UInt8 → RgRecord) (s : GrepScan)
    (chunks chunks' : List (List UInt8)),
    (∀ chunk ∈ chunks ++ chunks', chunk ≠ [] ∧ chunk.length ≤ grepJsonChunkBytes) →
    chunks.flatten = chunks'.flatten → t.readRecords parse s chunks = t.readRecords parse s chunks' := by
  intro h
  obtain ⟨hfed, hcut⟩ := readRecords_long emptyTarget (fun _ => .malformed) (GrepSearch.startScan emptyTarget false)
    chunksOfLetters_ne_nil lastLetters_ne_nil letters_notMem length_letters_le length_letters_last
  have heq := h emptyTarget (fun _ => .malformed) (GrepSearch.startScan emptyTarget false)
    (chunksOfLetters ++ [lastLetters ++ [10]]) (chunksOfLetters ++ [lastLetters, [10]]) ?_ (by simp)
  · rw [heq, hcut] at hfed
    cases hfed
  · intro chunk hchunk
    have hcases : chunk ∈ chunksOfLetters ∨ chunk = lastLetters ++ [10] ∨ chunk = lastLetters ∨ chunk = [10] := by
      simp only [List.mem_append, List.mem_cons, List.not_mem_nil, or_false] at hchunk
      tauto
    rcases hcases with hletters | rfl | rfl | rfl
    · exact ⟨chunksOfLetters_ne_nil chunk hletters, (length_of_mem_letters hletters).le⟩
    · refine ⟨by simp, ?_⟩
      rw [List.length_append, length_lastLetters]
      decide
    · refine ⟨lastLetters_ne_nil, ?_⟩
      rw [length_lastLetters]
      decide
    · exact ⟨by simp, by decide⟩

end Ctxd

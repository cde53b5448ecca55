import Ctxd.GrepVerified

/-!
# `CtxfsStore.read_lines`

`read_lines` cuts a document with `str.splitlines`, which ends a line at every line break of Unicode; ripgrep numbers
the lines that end with LF.  The two name the same lines of a document when its text has no other line break
(`readLines_eq_iff`).
-/

namespace Ctxd

/-- `text.splitlines()` after the characters of the line so far, newest first. -/
def splitLinesFrom (line : List Char) : List Char → List String
  | [] => if line = [] then [] else [String.ofList line.reverse]
  | '\r' :: '\n' :: cs => String.ofList line.reverse :: splitLinesFrom [] cs
  | c :: cs =>
    if isLineBreak c then String.ofList line.reverse :: splitLinesFrom [] cs else splitLinesFrom (c :: line) cs

def splitLines (text : List Char) : List String := splitLinesFrom [] text

structure ReadLinesResult where
  path : String
  startLine : Nat
  endLine : Nat
  lines : List String
  contentHash : String
  complete : Bool
  stoppedBy : Option String
  deriving DecidableEq, Repr

def readLines (user path : String) (startLine endLine : Int) (w : World) : Except StoreError ReadLinesResult := do
  if startLine ≤ 0 then throw (.valueError "start_line must be positive")
  if endLine < startLine then throw (.valueError "end_line must be greater than or equal to start_line")
  let entry ← requireEntry user path w
  let data ← readData user path w
  let lines := splitLines (decodeReplace data.data.toList)
  let selected := (lines.take endLine.toNat).drop (startLine.toNat - 1)
  let complete := decide (endLine ≤ lines.length)
  return ⟨entry.path, startLine.toNat, min endLine.toNat lines.length, selected, entry.contentHash, complete,
    if complete then none else some "eof"⟩

/-! ### Lines that end with LF -/

private theorem lineFeed_bytes : String.utf8EncodeChar '\n' = [10] := by decide

private theorem lineFeed_not_mem {c : Char} (hc : c ≠ '\n') : (10 : UInt8) ∉ String.utf8EncodeChar c := by
  intro hmem
  rcases Utf8.toNat_of_mem_utf8EncodeChar hmem with h | h
  · exact hc (Char.toNat_inj.1 h.symm)
  · exact absurd h (by decide)

/-- The lines of the bytes are the bytes of the lines. -/
private theorem lfLine_encode (text : List Char) (n : Nat) :
    lfLine (Utf8.encode text) n = (Lines.lineAt '\n' text n).map Utf8.encode := by
  unfold lfLine
  induction text generalizing n with
  | nil =>
    rcases n with _ | _ | n
    · rfl
    · rfl
    · rfl
  | cons c text ih =>
    have hcons : Utf8.encode (c :: text) = String.utf8EncodeChar c ++ Utf8.encode text := rfl
    rw [hcons]
    by_cases hc : c = '\n'
    · subst hc
      rw [lineFeed_bytes]
      rcases n with _ | _ | n
      · rfl
      · rfl
      · rw [List.singleton_append, Lines.lineAt_cons_sep, Lines.lineAt_cons_sep]
        exact ih (n + 1)
    · have htext := @Lines.lineAt_append_of_not_mem _ '\n' _ [c] (by simpa using fun h => hc h.symm) text n
      rw [Lines.lineAt_append_of_not_mem (lineFeed_not_mem hc), ih n]
      rw [List.singleton_append] at htext
      rw [htext]
      split
      · cases Lines.lineAt '\n' text n <;> simp [Utf8.encode]
      · rfl

/-- No line of `splitlines` has a line break. -/
private theorem not_isLineBreak_of_mem {line cs : List Char} (hline : ∀ c ∈ line, isLineBreak c = false) {s : String}
    (h : s ∈ splitLinesFrom line cs) : ∀ c ∈ s.toList, isLineBreak c = false := by
  have hreverse : ∀ {line : List Char}, (∀ c ∈ line, isLineBreak c = false) →
      ∀ c ∈ (String.ofList line.reverse).toList, isLineBreak c = false := by
    intro line hline c hc
    exact hline c (by simpa using hc)
  fun_induction splitLinesFrom line cs with
  | case1 => cases h
  | case2 line hnil =>
    rw [List.mem_singleton.1 h]
    exact hreverse hline
  | case3 line cs ih =>
    rcases List.mem_cons.1 h with rfl | h
    · exact hreverse hline
    · exact ih (by simp) h
  | case4 line c cs hcrlf hbreak ih =>
    rcases List.mem_cons.1 h with rfl | h
    · exact hreverse hline
    · exact ih (by simp) h
  | case5 line c cs hcrlf hbreak ih =>
    refine ih ?_ h
    intro d hd
    rcases List.mem_cons.1 hd with rfl | hd
    · simpa using hbreak
    · exact hline d hd

/-- Where LF is the only line break, the lines of `splitlines` are those that end with LF, and a last one that is not
empty. -/
private theorem splitLinesFrom_get? (line : List Char) {cs : List Char}
    (hbreaks : ∀ c ∈ cs, isLineBreak c = true → c = '\n') {n : Nat}
    {part : List Char} (hpart : Lines.lineAt '\n' cs (n + 1) = some part)
    (hlast : part ≠ [] ∨ n < cs.count '\n' ∨ n = 0 ∧ line ≠ []) :
    (splitLinesFrom line cs)[n]? = some (String.ofList (if n = 0 then line.reverse ++ part else part)) := by
  fun_induction splitLinesFrom line cs generalizing n part with
  | case1 =>
    rcases n with _ | n
    · cases hpart
      simp at hlast
    · cases hpart
  | case2 line hline =>
    rcases n with _ | n
    · cases hpart
      simp
    · cases hpart
  | case3 line cs ih => exact absurd (hbreaks '\r' (by simp) (by decide)) (by decide)
  | case4 line c cs hcrlf hbreak ih =>
    obtain rfl := hbreaks c (by simp) hbreak
    rcases n with _ | n
    · cases hpart
      simp
    · rw [Lines.lineAt_cons_sep] at hpart
      have hrest := ih (fun c hc => hbreaks c (by simp [hc])) hpart ?_
      · simpa using hrest
      · simp only [List.count_cons_self, Nat.add_lt_add_iff_right] at hlast
        tauto
  | case5 line c cs hcrlf hbreak ih =>
    have hc : c ≠ '\n' := by
      rintro rfl
      exact hbreak (by decide)
    have hcons := @Lines.lineAt_append_of_not_mem _ '\n' _ [c] (by simpa using fun h => hc h.symm) cs (n + 1)
    rw [List.singleton_append, hpart] at hcons
    have hcount : (c :: cs).count '\n' = cs.count '\n' := List.count_cons_of_ne hc
    rcases n with _ | n
    · obtain ⟨rest, hrest, hsame⟩ := Option.map_eq_some_iff.1 hcons.symm
      have hget := ih (fun c hc => hbreaks c (by simp [hc])) hrest (.inr (.inr ⟨rfl, by simp⟩))
      rw [hget, ← hsame]
      simp
    · have hget := ih (fun c hc => hbreaks c (by simp [hc])) (by simpa using hcons.symm) ?_
      · simpa using hget
      · rw [hcount] at hlast
        simpa using hlast

/-! ### Documents -/

section

variable {w : World} {user path : String}

/-- A document that can be read is the file of a row, with the hash of the row. -/
theorem readData_ok {data : ByteArray} (h : readData user path w = .ok data) :
    ∃ entry, requireEntry user path w = .ok entry ∧
      (w.catalog.entries.find? fun e => e.userId = user && e.path = path) = some entry ∧
      w.fs.disk.resolve (treeLoc user path) = .ok (.file data) ∧ entry.contentHash = contentHash data := by
  unfold readData at h
  obtain ⟨entry, hentry, hread⟩ := Program.bind_eq_ok.1 h
  refine ⟨entry, hentry, ?_⟩
  unfold requireEntry at hentry
  obtain ⟨normalized, hnormalized, hmatch⟩ := Program.bind_eq_ok.1 hentry
  obtain rfl := normalizePath_eq hnormalized
  split at hmatch
  · cases hmatch
  rename_i found hfound
  have hpath : found.path = normalized := by
    have := List.find?_some hfound
    simp only [Bool.and_eq_true, decide_eq_true_eq] at this
    exact this.2
  obtain rfl : found = entry := by
    split at hmatch
    · cases hmatch
      rfl
    · cases hmatch
    · cases hmatch
    · cases hmatch
  rw [hpath] at hread
  split at hread
  · rename_i hfile
    dsimp only at hread
    split at hread
    · rename_i hhash
      cases hread
      exact ⟨hfound, hfile, hhash.symm⟩
    · cases hread
  · cases hread
  · cases hread

theorem readData_of_row {entry : Entry} {data : ByteArray} (hnormal : Normalized path)
    (hfound : (w.catalog.entries.find? fun e => e.userId = user && e.path = path) = some entry)
    (hpath : entry.path = path)
    (hfile : w.fs.disk.resolve (treeLoc user path) = .ok (.file data)) (hhash : entry.contentHash = contentHash data) :
    readData user path w = .ok data := by
  have hentry : requireEntry user path w = .ok entry := by
    unfold requireEntry
    rw [show normalizePath path = .ok path from hnormal]
    simp only [bind, Except.bind, hfound, hpath, hfile]
    rfl
  unfold readData
  rw [hentry]
  simp only [bind, Except.bind, hpath, hfile, hhash, if_true]
  rfl

private theorem readLines_ok {data : ByteArray} (h : readData user path w = .ok data) {n : Nat} (hn : 0 < n) :
    ∃ result, readLines user path n n w = .ok result ∧
      result.lines = (splitLines (decodeReplace data.data.toList))[n - 1]?.toList := by
  obtain ⟨entry, hentry, -⟩ := readData_ok h
  have hslice : ∀ lines : List String, (lines.take n).drop (n - 1) = lines[n - 1]?.toList := by
    intro lines
    rw [List.drop_take, show n - (n - 1) = 1 by omega, List.take_one, List.head?_drop]
  have hresult : readLines user path n n w =
    .ok ⟨entry.path, n, min n (splitLines (decodeReplace data.data.toList)).length,
      ((splitLines (decodeReplace data.data.toList)).take n).drop (n - 1), entry.contentHash,
      decide ((n : Int) ≤ (splitLines (decodeReplace data.data.toList)).length),
      if decide ((n : Int) ≤ (splitLines (decodeReplace data.data.toList)).length) then none else some "eof"⟩ := by
    unfold readLines
    rw [if_neg (by omega), if_neg (by omega), hentry]
    simp only [bind, Except.bind, h]
    rfl
  exact ⟨_, hresult, hslice _⟩

/-- The snapshot of a document that can be read. -/
private theorem snapshot_of_readData {data : ByteArray} (h : readData user path w = .ok data)
    (statIdentity : Loc → String) :
    (snapshotGrepFile ⟨w, user, statIdentity⟩ path (treePath path)).data = data.data.toList ∧
      (snapshotGrepFile ⟨w, user, statIdentity⟩ path (treePath path)).verified = true := by
  obtain ⟨entry, -, hfound, hfile, hhash⟩ := readData_ok h
  unfold snapshotGrepFile GrepStore.rowHash
  unfold treeLoc at hfile
  simp [hfile, hfound, hhash]

end

/-- What ripgrep prints about a line of a file: the bytes of the whole line, with its LF if it has one. -/
def RgMatchData.WholeLine (bytes : List UInt8) (data : RgMatchData) : Prop :=
  ∃ front line rest, bytes = front ++ line ++ rest ∧ data.absoluteOffset = some front.length ∧ data.lines = some line ∧
    Lines.Whole 10 front ∧ line ≠ [] ∧ (10 ∉ line ∧ rest = [] ∨ ∃ body, line = body ++ [10] ∧ 10 ∉ body)

/-- A match that a search shows for the document at a path. -/
def GrepStore.Finds (store : GrepStore) (path : String) (m : GrepMatch) : Prop :=
  ∃ data, data.WholeLine (snapshotGrepFile store path (treePath path)).data ∧
    (snapshotGrepFile store path (treePath path)).verified = true ∧
    (snapshotGrepFile store path (treePath path)).Accepts data m

/-! ### The stored text -/

/-- The characters of a stored text are those that were given, with LF in the place of CR. -/
private theorem mem_replaceLineEnds {cs : List Char} {c : Char} :
    c ∈ replaceLineEnds cs ↔ c ≠ '\r' ∧ (c ∈ cs ∨ c = '\n' ∧ '\r' ∈ cs) := by
  fun_induction replaceLineEnds cs with
  | case1 => simp
  | case2 cs ih =>
    simp only [List.mem_cons, ih]
    by_cases hcr : c = '\r'
    · simp [hcr]
    · by_cases hlf : c = '\n' <;> simp [hcr, hlf]
  | case3 cs hcrlf ih =>
    simp only [List.mem_cons, ih]
    by_cases hcr : c = '\r'
    · simp [hcr]
    · by_cases hlf : c = '\n' <;> simp [hcr, hlf]
  | case4 d cs hcrlf hcr ih =>
    have hd : d ≠ '\r' := hcr
    simp only [List.mem_cons, ih, Ne.symm hd, false_or]
    by_cases hc : c = d
    · subst hc
      simp [hd]
    · simp [hc]

private theorem count_encode (text : List Char) : (Utf8.encode text).count 10 = text.count '\n' := by
  induction text with
  | nil => rfl
  | cons c text ih =>
    have hcons : Utf8.encode (c :: text) = String.utf8EncodeChar c ++ Utf8.encode text := rfl
    rw [hcons, List.count_append, ih]
    by_cases hc : c = '\n'
    · subst hc
      rw [lineFeed_bytes]
      simp [Nat.add_comm]
    · rw [List.count_eq_zero_of_not_mem (lineFeed_not_mem hc), List.count_cons_of_ne hc, Nat.zero_add]

private theorem nul_not_mem_encode {text : List Char} (h : Char.ofNat 0 ∉ text) : 0 ∉ Utf8.encode text := by
  intro hmem
  obtain ⟨c, hc, hbyte⟩ := List.mem_flatMap.1 hmem
  rcases Utf8.toNat_of_mem_utf8EncodeChar hbyte with hnat | hnat
  · have : c = Char.ofNat 0 := Char.toNat_inj.1 hnat.symm
    exact h (this ▸ hc)
  · exact absurd hnat (by decide)

private theorem stripLineEnd_eq {text : List Char} (hcr : '\r' ∉ text) (hlf : '\n' ∉ text) :
    stripLineEnd text = text := by
  have hkept : text.rdropWhile (fun c => decide (c = '\r') || decide (c = '\n')) = text := by
    rw [List.rdropWhile_eq_self_iff]
    intro hne
    have hlast := List.getLast_mem hne
    have hcr' : text.getLast hne ≠ '\r' := fun h => hcr (h ▸ hlast)
    have hlf' : text.getLast hne ≠ '\n' := fun h => hlf (h ▸ hlast)
    simp [hcr', hlf']
  exact hkept

section

variable {w : World} {user path text t : String} (statIdentity : Loc → String)

/-- The bytes of the record of a line hold the line. -/
private theorem holdsLine_of_wholeLine {line rest : List UInt8} (hline : 10 ∉ line ∧ rest = [] ∨
    ∃ body, line = body ++ [10] ∧ 10 ∉ body) : HoldsLine line ((line ++ rest).takeWhile (· ≠ 10)) := by
  have hopen : ∀ {part : List UInt8}, 10 ∉ part → ∀ b ∈ part, decide (b ≠ 10) = true := by
    intro part hpart b hb
    have hne : b ≠ 10 := by
      rintro rfl
      exact hpart hb
    simpa using hne
  rcases hline with ⟨hline, rfl⟩ | ⟨body, rfl, hbody⟩
  · rw [List.append_nil, List.takeWhile_eq_self_iff.2 (hopen hline)]
    exact ⟨[], by simp, .inl rfl⟩
  · rw [List.append_assoc, List.takeWhile_append_of_pos (hopen hbody), List.singleton_append,
      List.takeWhile_cons_of_neg (by simp), List.append_nil]
    refine ⟨[], ?_, .inl rfl⟩
    unfold stripLineEndBytes
    rw [List.rdropWhile_concat_pos _ _ _ (by decide), List.append_nil]

private theorem toList_of_normalizeText (h : normalizeText text = .ok t) :
    t.toList = replaceLineEnds text.toList := by
  rw [normalizeText_ok h, lineFeedText, String.toList_ofList]

private theorem cr_not_mem_part (h : normalizeText text = .ok t) {n : Nat} {part : List Char}
    (hpart : Lines.lineAt '\n' t.toList n = some part) : '\r' ∉ part := by
  obtain ⟨front, rest, hsplit, -⟩ := Lines.exists_of_lineAt hpart
  intro hcr
  have hmem : '\r' ∈ t.toList := by
    rw [hsplit]
    simp [hcr]
  rw [toList_of_normalizeText h, mem_replaceLineEnds] at hmem
  exact hmem.1 rfl

private theorem nul_not_mem_of_normalizeText (h : normalizeText text = .ok t) : Char.ofNat 0 ∉ t.toList := by
  rw [toList_of_normalizeText h, mem_replaceLineEnds]
  unfold normalizeText at h
  split at h
  · cases h
  rename_i hfree
  rintro ⟨-, hmem | ⟨heq, -⟩⟩
  · exact hfree (List.contains_iff_mem.2 hmem)
  · exact absurd heq (by decide)

private theorem lineNumber_pos {store : GrepStore} {m : GrepMatch} (h : store.Finds path m) : 0 < m.lineNumber := by
  obtain ⟨data, -, -, state, state', -, hverify⟩ := h
  obtain ⟨_, _, _, _, _, -, hpos, -⟩ := verifiedGrepMatch_some hverify
  exact hpos

/-- Every line of a stored text that is not empty is found, by a search for one of its parts. -/
private theorem finds_line (hstored : readData user path w = .ok t.toUTF8) {n : Nat} {part : List Char}
    (hpart : Lines.lineAt '\n' t.toList n = some part) (hne : part ≠ []) (hcr : '\r' ∉ part) :
    ∃ m, GrepStore.Finds ⟨w, user, statIdentity⟩ path m ∧ m.lineNumber = n ∧ m.line = String.ofList part := by
  obtain ⟨hdata, hverified⟩ := snapshot_of_readData hstored statIdentity
  have hbytes : (snapshotGrepFile ⟨w, user, statIdentity⟩ path (treePath path)).data = Utf8.encode t.toList := by
    rw [hdata, Utf8.bytes_eq_encode]
  have hline := lfLine_encode t.toList n
  rw [hpart] at hline
  obtain ⟨front, rest, hsplit, hfront, hnumber, hlf, hrest⟩ := Lines.exists_of_lineAt hline
  obtain ⟨_, _, -, -, -, hlf', -⟩ := Lines.exists_of_lineAt hpart
  have hstrip : stripLineEnd part = part := stripLineEnd_eq hcr hlf'
  have hbytesNe : Utf8.encode part ≠ [] := by
    intro hnil
    have := Utf8.decode_encode part
    rw [hnil] at this
    exact hne this.symm
  rw [hsplit] at hbytes
  rcases hrest with rfl | ⟨more, rfl⟩
  · have haccepts := GrepFileSnapshot.accepts_part hbytes (hfront.imp_right .inl)
    refine ⟨_, ⟨_, ⟨front, Utf8.encode part, [], hbytes, rfl, rfl, hfront, hbytesNe, .inl ⟨hlf, rfl⟩⟩, hverified,
      haccepts⟩, hnumber.symm, ?_⟩
    show String.ofList (stripLineEnd (decodeReplace (Utf8.encode part))) = String.ofList part
    rw [decodeReplace, Utf8.decode_encode, hstrip]
  · have hbytes' : (snapshotGrepFile ⟨w, user, statIdentity⟩ path (treePath path)).data =
        front ++ (Utf8.encode part ++ [10]) ++ more := by
      rw [hbytes]
      simp
    have haccepts := GrepFileSnapshot.accepts_part hbytes' (hfront.imp_right .inl)
    refine ⟨_, ⟨_, ⟨front, Utf8.encode part ++ [10], more, hbytes', rfl, rfl, hfront, by simp, .inr ⟨_, rfl, hlf⟩⟩,
      hverified, haccepts⟩, hnumber.symm, ?_⟩
    show String.ofList (stripLineEnd (decodeReplace (Utf8.encode part ++ [10]))) = String.ofList part
    have hend : Utf8.decode [10] = ['\n'] := by decide
    rw [decodeReplace, Utf8.decode_encode_append, hend, stripLineEnd_concat, if_pos (.inr rfl), hstrip]

/-- `read_lines` gives the line of every match in a stored text, under the number of the match, exactly when the text
has no other line breaks than CR and LF. -/
theorem readLines_eq_iff (hstored : readData user path w = .ok t.toUTF8) (htext : normalizeText text = .ok t) :
    (∀ m, GrepStore.Finds ⟨w, user, statIdentity⟩ path m →
        ∃ result, readLines user path m.lineNumber m.lineNumber w = .ok result ∧ result.lines = [m.line]) ↔
      ∀ c ∈ text.toList, isLineBreak c = true → c = '\n' ∨ c = '\r' := by
  constructor
  · intro hsame c hc hbreak
    by_contra hother
    rw [not_or] at hother
    have hmem : c ∈ t.toList := by
      rw [toList_of_normalizeText htext, mem_replaceLineEnds]
      exact ⟨hother.2, .inl hc⟩
    -- a search shows the line with this character as one line, and `splitLines` cuts it there
    obtain ⟨n, part, hpart, hcpart⟩ := Lines.exists_lineAt hmem hother.1
    obtain ⟨m, hfinds, hnumber, hline⟩ := finds_line statIdentity hstored hpart (List.ne_nil_of_mem hcpart)
      (cr_not_mem_part htext hpart)
    obtain ⟨result, hresult, hlines⟩ := hsame m hfinds
    obtain ⟨result', hresult', hlines'⟩ := readLines_ok hstored (lineNumber_pos hfinds)
    obtain rfl : result' = result := by
      rw [hresult'] at hresult
      exact Except.ok.inj hresult
    rw [hlines', Utf8.bytes_eq_encode, decodeReplace, Utf8.decode_encode, hline] at hlines
    have hget : String.ofList part ∈ splitLines t.toList := by
      refine List.mem_of_getElem? (i := m.lineNumber - 1) (Option.mem_toList.1 ?_)
      rw [hlines]
      simp
    have hfalse := not_isLineBreak_of_mem (by simp) hget c (by simpa using hcpart)
    rw [hbreak] at hfalse
    cases hfalse
  · rintro hbreaks m ⟨data, ⟨front, line, rest, hsplit, hoffset, hlines, hfront, hne, hwhole⟩, hverified, haccepts⟩
    have hpos := lineNumber_pos
      ⟨data, ⟨front, line, rest, hsplit, hoffset, hlines, hfront, hne, hwhole⟩, hverified, haccepts⟩
    obtain ⟨hdata, -⟩ := snapshot_of_readData hstored statIdentity
    rw [Utf8.bytes_eq_encode] at hdata
    have hnul : 0 ∉ (snapshotGrepFile ⟨w, user, statIdentity⟩ path (treePath path)).data := by
      rw [hdata]
      exact nul_not_mem_encode (nul_not_mem_of_normalizeText htext)
    have hholds : HoldsLine line
        (((snapshotGrepFile ⟨w, user, statIdentity⟩ path (treePath path)).data.drop front.length).takeWhile
          (· ≠ 10)) := by
      rw [hsplit, List.append_assoc, List.drop_left]
      exact holdsLine_of_wholeLine hwhole
    obtain ⟨offset, hoffset', -, -, hnumber⟩ := lineNumber_of_accepts hnul haccepts
    obtain rfl : front.length = offset := by
      rw [hoffset] at hoffset'
      exact Option.some.inj hoffset'
    rw [hsplit, List.append_assoc, List.take_left] at hnumber
    obtain ⟨state, state', hstate, hverify⟩ := haccepts
    obtain ⟨bytes, hbytes, hline, -⟩ := (verified_line_iff hnul hstate hverify hoffset hlines).2 hholds
    rw [hdata, lfLine_encode] at hbytes
    obtain ⟨part, hpart, rfl⟩ := Option.map_eq_some_iff.1 hbytes
    have hcr := cr_not_mem_part htext hpart
    obtain ⟨_, _, -, -, -, hlf, -⟩ := Lines.exists_of_lineAt hpart
    have hlineText : m.line = String.ofList part := by
      rw [hline, decodeReplace, Utf8.decode_encode, stripLineEnd_eq hcr hlf]
    have hbreaks' : ∀ c ∈ t.toList, isLineBreak c = true → c = '\n' := by
      intro c hc hbreak
      rw [toList_of_normalizeText htext, mem_replaceLineEnds] at hc
      rcases hc.2 with hmem | hlf
      · exact (hbreaks c hmem hbreak).resolve_right hc.1
      · exact hlf.1
    -- what follows the last LF is a line only if it is not empty
    have hlast : part ≠ [] ∨ m.lineNumber - 1 < t.toList.count '\n' ∨ m.lineNumber - 1 = 0 ∧ ([] : List Char) ≠ [] := by
      rcases hwhole with ⟨hfree, rfl⟩ | ⟨body, rfl, -⟩
      · have hencoded : lfLine (Utf8.encode t.toList) m.lineNumber = some (Utf8.encode part) := by
          rw [lfLine_encode, hpart]
          rfl
        have hopen : ∀ b ∈ line, decide (b ≠ 10) = true := by
          intro b hb
          have hneq : b ≠ 10 := by
            rintro rfl
            exact hfree hb
          simpa using hneq
        have hwholeLine := Lines.lineAt_append hfront line
        rw [List.append_nil] at hsplit
        rw [← hsplit, hdata, ← hnumber, List.takeWhile_eq_self_iff.2 hopen] at hwholeLine
        rw [lfLine, hwholeLine, Option.some.injEq] at hencoded
        refine .inl ?_
        rintro rfl
        exact hne hencoded
      · refine .inr (.inl ?_)
        rw [← count_encode, ← hdata, hsplit]
        simp
        omega
    have hget := splitLinesFrom_get? [] hbreaks' (n := m.lineNumber - 1) (by rwa [Nat.sub_add_cancel hpos]) hlast
    obtain ⟨result, hresult, hlines'⟩ := readLines_ok hstored hpos
    refine ⟨result, hresult, ?_⟩
    rw [hlines', Utf8.bytes_eq_encode, decodeReplace, Utf8.decode_encode, splitLines, hget, hlineText]
    simp

end

/-- A store with one document `notes/a`. -/
def oneDocument (text : String) : World :=
  { catalog := ⟨[⟨"user", "writer", "notes/a", "1", "1", .editable, "text/plain", contentHash text.toUTF8,
      text.toUTF8.size, lineCount text, 0, ⟨"test", "1", none, []⟩, 0, 0⟩], [], [], []⟩,
    fs := ⟨⟨[(⟨.users "user", treePath "notes"⟩, .dir), (⟨.users "user", treePath "notes/a"⟩, .file text.toUTF8)],
      4000⟩,
      0, [], [], none, []⟩,
    clock := fun _ => 0, ticks := 0 }

private theorem readData_oneDocument (text : String) : readData "user" "notes/a" (oneDocument text) = .ok text.toUTF8 :=
  readData_of_row (by decide) rfl rfl (by rfl) rfl

/-- The match in `needle\n` is read back. -/
theorem readLines_needle :
    ∃ m : GrepMatch, m.lineNumber = 1 ∧ m.line = "needle" ∧
      ∃ result, readLines "user" "notes/a" m.lineNumber m.lineNumber (oneDocument "needle\n") = .ok result ∧
        result.lines = [m.line] := by
  have hstored := readData_oneDocument "needle\n"
  have htext : normalizeText "needle\n" = .ok "needle\n" := by rfl
  have hpart : Lines.lineAt '\n' "needle\n".toList 1 = some "needle".toList := by decide
  have hbreaks : ∀ c ∈ "needle\n".toList, isLineBreak c = true → c = '\n' ∨ c = '\r' := by
    have hchars : "needle\n".toList = ['n', 'e', 'e', 'd', 'l', 'e', '\n'] := rfl
    simp [hchars, isLineBreak]
  obtain ⟨m, hfinds, hnumber, hline⟩ := finds_line (fun _ => "") hstored hpart (by decide) (by decide)
  exact ⟨m, hnumber, hline, (readLines_eq_iff (fun _ => "") hstored htext).2 hbreaks m hfinds⟩

/-- The line `a<VT>needle` is a match with the number 1, but `read_lines` ends the first line at the vertical tab. -/
theorem readLines_vertical_tab :
    normalizeText "a\x0bneedle\n" = .ok "a\x0bneedle\n" ∧
      ∃ m, GrepStore.Finds ⟨oneDocument "a\x0bneedle\n", "user", fun _ => ""⟩ "notes/a" m ∧
        ¬∃ result, readLines "user" "notes/a" m.lineNumber m.lineNumber (oneDocument "a\x0bneedle\n") = .ok result ∧
          result.lines = [m.line] := by
  have hstored := readData_oneDocument "a\x0bneedle\n"
  have hpart : Lines.lineAt '\n' "a\x0bneedle\n".toList 1 = some "a\x0bneedle".toList := by decide
  obtain ⟨m, hfinds, hnumber, hline⟩ := finds_line (fun _ => "") hstored hpart (by decide) (by decide)
  refine ⟨by rfl, m, hfinds, ?_⟩
  rintro ⟨result, hresult, hlines⟩
  obtain ⟨result', hresult', hlines'⟩ := readLines_ok hstored (n := m.lineNumber) (by omega)
  rw [hresult, Except.ok.injEq] at hresult'
  subst hresult'
  rw [hlines, Utf8.bytes_eq_encode, decodeReplace, Utf8.decode_encode, hnumber, hline] at hlines'
  exact absurd hlines' (by decide)

end Ctxd

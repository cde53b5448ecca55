import Ctxd.GrepStream
import Ctxd.Lib.Lines
import Mathlib.Data.List.DropRight

/-!
# What a verified match says

A match is shown when the bytes of the snapshot confirm its record.  Its bounds, which count characters, cut the same
part out of its line as the bounds of the record cut out of the bytes.  Its line is the line of the file with its number
when the record holds a whole line, which nothing checks (`verified_line_iff`), and its position tells the records of a
file apart when the file has no NUL (`anchors_distinct_iff`).
-/

namespace Ctxd

/-! ### Confirmed records -/

/-- What a record must have for its match to be shown. -/
theorem verifiedGrepMatch_some {data : RgMatchData} {snapshot : GrepFileSnapshot} {state state' : RgLineNumberState}
    {m : GrepMatch} (h : verifiedGrepMatch data snapshot state = .ok (some m, state')) :
    ∃ offset rawLine start stop length,
      data = ⟨some m.lineNumber, some offset, some rawLine, some (some start, some stop)⟩ ∧
        0 < m.lineNumber ∧ offset ≤ snapshot.data.length ∧
        rgVerifiedLineLength snapshot.data offset rawLine = some length ∧
        (rgLineNumberMatches snapshot.data offset m.lineNumber state).1 = true ∧
        start ≤ stop ∧ stop ≤ rawLine.length ∧ stop ≤ length ∧
        m = ⟨snapshot.logicalPath, m.lineNumber, String.ofList (stripLineEnd (decodeReplace rawLine)),
          (decodeReplace (rawLine.take start)).length, (decodeReplace (rawLine.take stop)).length,
          snapshot.contentHash⟩ := by
  obtain ⟨number, absoluteOffset, lines, submatch⟩ := data
  unfold verifiedGrepMatch verifiedGrepMatchBy at h
  split at h
  swap
  · cases h
  rename_i lineNumber rawLine start stop hnumber hlines hsubmatch
  simp only at hnumber hlines hsubmatch
  subst hnumber hlines hsubmatch
  split at h
  · cases h
  rename_i hpositive
  split at h
  · cases h
  rename_i offset hoffset
  simp only at hoffset
  subst hoffset
  split at h
  · cases h
  rename_i hfits
  simp only [Bool.or_eq_true, decide_eq_true_eq, not_or, not_lt] at hfits
  split at h
  · cases h
  rename_i length hlength
  obtain ⟨correct, lines, hcorrect⟩ : ∃ correct lines,
      rgLineNumberMatches snapshot.data offset lineNumber state = (correct, lines) := ⟨_, _, rfl⟩
  simp only [hcorrect] at h
  cases correct with
  | false => cases h
  | true =>
    simp only [Bool.not_true, Bool.false_eq_true, if_false] at h
    split at h
    swap
    · cases h
    rename_i start stop
    split at h
    swap
    · cases h
    rename_i hbounds
    simp only [Bool.and_eq_true, decide_eq_true_eq] at hbounds
    split at h
    · cases h
    rename_i hstop
    cases h
    exact ⟨offset, rawLine, start, stop, length, rfl, Nat.pos_of_ne_zero hpositive, hfits.1,
      hlength, by simp [hcorrect],
      hbounds.1, hbounds.2, by omega, rfl⟩

/-! ### Line ends -/

def isLineEnd (b : UInt8) : Bool := b = 13 || b = 10

/-- The bytes of a line without the CR and LF bytes at its end. -/
def stripLineEndBytes (raw : List UInt8) : List UInt8 := raw.rdropWhile isLineEnd

theorem stripLineEnd_concat (text : List Char) (c : Char) :
    stripLineEnd (text ++ [c]) = if c = '\r' ∨ c = '\n' then stripLineEnd text else text ++ [c] := by
  have h := List.rdropWhile_concat (fun c => decide (c = '\r') || decide (c = '\n')) text c
  simpa [stripLineEnd, List.rdropWhile] using h

private theorem ofNat_eq_lineEnd {b : UInt8} (hb : b.toNat < 0x80) :
    (Char.ofNat b.toNat = '\r' ∨ Char.ofNat b.toNat = '\n') ↔ isLineEnd b = true := by
  have hvalid : b.toNat.isValidChar := .inl (by omega)
  have hnat : (Char.ofNat b.toNat).toNat = b.toNat := congrArg Char.toNat (dif_pos hvalid)
  have hcr : Char.ofNat b.toNat = '\r' ↔ b.toNat = 13 := by
    rw [← Char.toNat_inj, hnat]
    rfl
  have hlf : Char.ofNat b.toNat = '\n' ↔ b.toNat = 10 := by
    rw [← Char.toNat_inj, hnat]
    rfl
  simp [isLineEnd, hcr, hlf, ← UInt8.toNat_inj]

/-- The line ends may be taken off before the bytes are decoded or after it. -/
private theorem stripLineEnd_decodeReplace (raw : List UInt8) :
    stripLineEnd (decodeReplace raw) = decodeReplace (stripLineEndBytes raw) := by
  induction raw using List.reverseRecOn with
  | nil => rfl
  | append_singleton raw b ih =>
    unfold stripLineEndBytes
    rw [List.rdropWhile_concat]
    by_cases hb : b.toNat < 0x80
    · rw [decodeReplace, Utf8.decode_concat_ascii raw hb, stripLineEnd_concat]
      simp only [ofNat_eq_lineEnd hb]
      split
      · exact ih
      · exact (Utf8.decode_concat_ascii raw hb).symm
    · have hend : ¬isLineEnd b = true := by
        simp [isLineEnd, ← UInt8.toNat_inj]
        omega
      obtain ⟨chars, c, hchars, hc⟩ := Utf8.decode_concat_other raw (b := b) (by omega)
      have hkept : ¬(c = '\r' ∨ c = '\n') := by
        rintro (rfl | rfl)
        · exact absurd hc (by decide)
        · exact absurd hc (by decide)
      rw [if_neg hend, decodeReplace, hchars, stripLineEnd_concat, if_neg hkept]

/-! ### Offsets -/

theorem encode_of_decodeStrict {raw : List UInt8} {text : String} (h : decodeStrict raw = some text) :
    raw = Utf8.encode text.toList := by
  unfold decodeStrict String.fromUTF8? at h
  split at h
  swap
  · cases h
  have hbytes : text.toUTF8 = ⟨raw.toArray⟩ := by
    cases h
    rfl
  rw [← Utf8.bytes_eq_encode, hbytes]

theorem decodeStrict_encode (text : List Char) :
    decodeStrict (Utf8.encode text) = some (String.ofList text) := by
  have hbytes : (String.ofList text).toUTF8 = ⟨(Utf8.encode text).toArray⟩ := by
    have hlist := Utf8.bytes_eq_encode (String.ofList text)
    rw [String.toList_ofList] at hlist
    rw [← hlist]
  unfold decodeStrict String.fromUTF8?
  rw [← hbytes, dif_pos (by simpa using (String.ofList text).isValidUTF8)]
  rfl

/-- A part of a text that begins and ends between characters is the text of these bytes. -/
private theorem slice_decode {raw : List UInt8} {start stop : Nat} (hle : start ≤ stop)
    (hfirst : (decodeStrict (raw.take start)).isSome) (hlast : (decodeStrict (raw.take stop)).isSome) :
    decodeStrict ((raw.take stop).drop start) =
      some (String.ofList (((decodeReplace raw).take (decodeReplace (raw.take stop)).length).drop
        (decodeReplace (raw.take start)).length)) := by
  obtain ⟨first, hfirst⟩ := Option.isSome_iff_exists.1 hfirst
  obtain ⟨last, hlast⟩ := Option.isSome_iff_exists.1 hlast
  replace hfirst := encode_of_decodeStrict hfirst
  replace hlast := encode_of_decodeStrict hlast
  have hsplit : raw.take stop = raw.take start ++ (raw.take stop).drop start := by
    conv_lhs => rw [← List.take_append_drop start (raw.take stop), List.take_take, Nat.min_eq_left hle]
  have hrest : raw = raw.take stop ++ raw.drop stop := (List.take_append_drop stop raw).symm
  generalize (raw.take stop).drop start = part at hsplit ⊢
  have hchars : last.toList = first.toList ++ Utf8.decode part := by
    rw [← Utf8.decode_encode last.toList, ← hlast, hsplit, hfirst, Utf8.decode_encode_append]
  have hpart : part = Utf8.encode (Utf8.decode part) := by
    have happend : Utf8.encode first.toList ++ part = Utf8.encode first.toList ++ Utf8.encode (Utf8.decode part) := by
      rw [← Utf8.encode_append, ← hchars, ← hlast, ← hfirst, ← hsplit]
    exact List.append_cancel_left happend
  have hwhole : decodeReplace raw = last.toList ++ Utf8.decode (raw.drop stop) := by
    conv_lhs => rw [hrest, hlast]
    exact Utf8.decode_encode_append _ _
  have hend : decodeReplace (raw.take stop) = last.toList := by rw [hlast, decodeReplace, Utf8.decode_encode]
  have hstart : decodeReplace (raw.take start) = first.toList := by rw [hfirst, decodeReplace, Utf8.decode_encode]
  rw [hwhole, hend, hstart, List.take_left, hchars, List.drop_left]
  conv_lhs => rw [hpart]
  exact decodeStrict_encode _

/-- The bounds of a match cut out of its line what the bounds of the record cut out of the bytes, when these are the
encoding of a text, the bounds lie between characters and the match ends before the CR and LF bytes of the line.  For
all bytes the match starts before it ends. -/
theorem verifiedGrepMatch_slice {data : RgMatchData} {snapshot : GrepFileSnapshot} {state state' : RgLineNumberState}
    {m : GrepMatch} (h : verifiedGrepMatch data snapshot state = .ok (some m, state')) :
    (∀ rawLine start stop, data.lines = some rawLine → data.submatch = some (some start, some stop) →
        (decodeStrict rawLine).isSome → (decodeStrict (rawLine.take start)).isSome →
        (decodeStrict (rawLine.take stop)).isSome → stop ≤ (stripLineEndBytes rawLine).length →
        decodeStrict ((rawLine.take stop).drop start) =
          some (String.ofList ((m.line.toList.take m.matchEnd).drop m.matchStart))) ∧
      m.matchStart ≤ m.matchEnd := by
  obtain ⟨offset, rawLine, start, stop, length, rfl, -, -, -, -, hle, hstop, -, hm⟩ := verifiedGrepMatch_some h
  have hmono (bytes : List UInt8) {k n : Nat} (hkn : k ≤ n) :
      (decodeReplace (bytes.take k)).length ≤ (decodeReplace (bytes.take n)).length := by
    have hsplit : bytes.take k ++ (bytes.take n).drop k = bytes.take n := by
      conv_rhs => rw [← List.take_append_drop k (bytes.take n), List.take_take, Nat.min_eq_left hkn]
    have := Utf8.length_decode_le (bytes.take k) ((bytes.take n).drop k)
    rwa [hsplit] at this
  rw [hm]
  refine ⟨?_, hmono rawLine hle⟩
  rintro rawLine' start' stop' ⟨⟩ ⟨⟩ - hfirst hlast hend
  rw [slice_decode hle hfirst hlast]
  obtain ⟨tail, htail⟩ : stripLineEndBytes rawLine <+: rawLine := List.rdropWhile_prefix _ _
  have htake : (stripLineEndBytes rawLine).take stop = rawLine.take stop := by
    conv_rhs => rw [← htail, List.take_append_of_le_length hend]
  have hshort : (decodeReplace (rawLine.take stop)).length ≤ (stripLineEnd (decodeReplace rawLine)).length := by
    have := hmono (stripLineEndBytes rawLine) hend
    rwa [htake, List.take_length, ← stripLineEnd_decodeReplace] at this
  obtain ⟨chars, hchars⟩ : stripLineEnd (decodeReplace rawLine) <+: decodeReplace rawLine := List.rdropWhile_prefix _ _
  have hline : (decodeReplace rawLine).take (decodeReplace (rawLine.take stop)).length =
      (stripLineEnd (decodeReplace rawLine)).take (decodeReplace (rawLine.take stop)).length := by
    conv_lhs => rw [← hchars, List.take_append_of_le_length hshort]
  rw [hline, String.toList_ofList]

/-- `é n`, where the match is `n`. -/
theorem verified_slice_after_accent :
    ∃ m state', verifiedGrepMatch ⟨some 1, some 0, some [0xC3, 0xA9, 0x20, 0x6E, 0x0A], some (some 3, some 4)⟩
        ⟨"notes.md", treePath "notes.md", [0xC3, 0xA9, 0x20, 0x6E, 0x0A], contentHash ⟨#[0xC3, 0xA9, 0x20, 0x6E, 0x0A]⟩,
          "stat:1:2:5:3:4", false, true⟩ .fresh = .ok (some m, state') ∧
      (m.line, m.matchStart, m.matchEnd) = ("é n", 2, 3) ∧
      decodeStrict [0x6E] = some (String.ofList ((m.line.toList.take m.matchEnd).drop m.matchStart)) := by
  have hverify : verifiedGrepMatch ⟨some 1, some 0, some [0xC3, 0xA9, 0x20, 0x6E, 0x0A], some (some 3, some 4)⟩
      ⟨"notes.md", treePath "notes.md", [0xC3, 0xA9, 0x20, 0x6E, 0x0A], contentHash ⟨#[0xC3, 0xA9, 0x20, 0x6E, 0x0A]⟩,
        "stat:1:2:5:3:4", false, true⟩ .fresh =
      .ok (some ⟨"notes.md", 1, "é n", 2, 3, contentHash ⟨#[0xC3, 0xA9, 0x20, 0x6E, 0x0A]⟩⟩, ⟨0, 0, 0⟩) := rfl
  have haccent : decodeStrict [0xC3, 0xA9, 0x20] = some "é " := decodeStrict_encode "é ".toList
  have hletter : decodeStrict [0xC3, 0xA9, 0x20, 0x6E] = some "é n" := decodeStrict_encode "é n".toList
  have hline : decodeStrict [0xC3, 0xA9, 0x20, 0x6E, 0x0A] = some "é n\n" := decodeStrict_encode "é n\n".toList
  have hslice := (verifiedGrepMatch_slice hverify).1 _ 3 4 rfl rfl
  exact ⟨_, _, hverify, rfl, hslice (by rw [hline]; rfl) (Option.isSome_of_eq_some haccent)
    (Option.isSome_of_eq_some hletter) (by decide)⟩

/-! ### Lines -/

/-- The line with a number, when the lines of a file are numbered from 1 and end with LF, without its LF. -/
def lfLine (data : List UInt8) (n : Nat) : Option (List UInt8) := Lines.lineAt 10 data n

/-- The bytes before the offset of an accepted record are whole lines, or parts between NUL bytes. -/
private theorem rgLineNumberMatches_boundary {data : List UInt8} {offset lineNumber : Nat} {state : RgLineNumberState}
    (hstate : state.Counts data) (h : (rgLineNumberMatches data offset lineNumber state).1 = true) :
    offset ≤ data.length ∧
      (data.take offset = [] ∨ (data.take offset).getLast? = some 10 ∨ (data.take offset).getLast? = some 0) ∧
      (lineNumber = (data.take offset).count 10 + 1 ∨
        lineNumber = (data.take offset).count 10 + 1 + (data.take offset).count 0) := by
  unfold rgLineNumberMatches rgLineNumberMatchesBy at h
  split at h
  · cases h
  rename_i hbounds
  simp only [Bool.or_eq_true, decide_eq_true_eq, not_or, not_lt] at hbounds
  split at h
  · cases h
  rename_i hlast
  refine ⟨hbounds.2, ?_, ?_⟩
  · rw [List.getLast?_take]
    by_cases hzero : offset = 0
    · simp [hzero]
    · have hlt : offset - 1 < data.length := by omega
      simp only [hzero, ne_eq, not_false_eq_true, decide_true, Bool.true_and, List.getD_eq_getElem?_getD,
        List.getElem?_eq_getElem hlt, Option.getD_some, Bool.not_eq_true', if_false, Option.some_or,
        List.take_eq_nil_iff, List.mem_cons, List.not_mem_nil, or_false, decide_eq_false_iff_not,
        not_not, Option.some.injEq] at hlast ⊢
      exact .inr hlast
  · have hadvance : state.advance data offset =
        ⟨offset, (data.take offset).count 10, (data.take offset).count 0⟩ := by
      rw [hstate.advance hbounds.1]
      simp [RgLineNumberState.advance, RgLineNumberState.fresh]
    simp only [hadvance, Bool.or_eq_true, decide_eq_true_eq] at h
    exact h

/-- A file without NUL has the bytes of an accepted record at its offset. -/
private theorem startsAt_of_verified {data rawLine : List UInt8} {offset length : Nat} (hnul : 0 ∉ data)
    (h : rgVerifiedLineLength data offset rawLine = some length) : rawLine <+: data.drop offset := by
  unfold rgVerifiedLineLength startsAt at h
  split at h
  · rename_i hstarts
    exact List.isPrefixOf_iff_prefix.1 hstarts
  split at h
  · rename_i hzero
    simp only [Bool.and_eq_true, decide_eq_true_eq, List.getD_eq_getElem?_getD] at hzero
    cases hbyte : data[offset + rawLine.length - 1]? with
    | none => simp [hbyte] at hzero
    | some b =>
      rw [hbyte, Option.getD_some] at hzero
      exact absurd (List.mem_of_getElem? hbyte) (by rwa [hzero.2])
  · cases h

/-- The bytes of a record hold the line that begins at its offset: without CR and LF bytes at the end they are the same,
or the record breaks off in the sequence with which the line ends, and the sequence stays one U+FFFD. -/
def HoldsLine (rawLine line : List UInt8) : Prop :=
  ∃ rest, stripLineEndBytes line = stripLineEndBytes rawLine ++ rest ∧
    (rest = [] ∨ ∃ p, (Utf8.run none (stripLineEndBytes rawLine)).2 = some p ∧
      (Utf8.run (some p) rest = ([Utf8.replacement], none) ∨ ∃ p', Utf8.run (some p) rest = ([], some p')))

private theorem decode_lineEnd_ne (bytes tail : List UInt8) {b : UInt8} (h : isLineEnd b = true) :
    Utf8.decode (bytes ++ b :: tail) ≠ Utf8.decode bytes := by
  have hascii : b.toNat < 0x80 := by
    simp only [isLineEnd, Bool.or_eq_true, decide_eq_true_eq] at h
    rcases h with rfl | rfl <;> decide
  have hlonger := Utf8.length_decode_le (bytes ++ [b]) tail
  rw [Utf8.decode_concat_ascii bytes hascii, List.append_assoc] at hlonger
  intro hsame
  rw [List.singleton_append, hsame, List.length_append, List.length_singleton] at hlonger
  omega

/-- What follows a line without its CR and LF bytes is such a byte, or nothing. -/
private theorem lineEnd_after {data tail : List UInt8} {b : UInt8}
    (h : data = stripLineEndBytes (data.takeWhile (· ≠ 10)) ++ b :: tail) : isLineEnd b = true := by
  have hline : stripLineEndBytes (data.takeWhile (· ≠ 10)) ++ (data.takeWhile (· ≠ 10)).rtakeWhile isLineEnd =
      data.takeWhile (· ≠ 10) := List.rdropWhile_append_rtakeWhile
  have hdata := List.takeWhile_append_dropWhile (p := fun b => decide (b ≠ 10)) (l := data)
  have htail : (data.takeWhile (· ≠ 10)).rtakeWhile isLineEnd ++ data.dropWhile (· ≠ 10) = b :: tail := by
    have hsame := h
    conv_lhs at hsame => rw [← hdata, ← hline, List.append_assoc]
    exact List.append_cancel_left hsame
  cases hends : (data.takeWhile (· ≠ 10)).rtakeWhile isLineEnd with
  | nil =>
    rw [hends, List.nil_append] at htail
    have hhead := List.head?_dropWhile_not (fun b => decide (b ≠ 10)) data
    rw [htail] at hhead
    have hb : b = 10 := by simpa using hhead
    simp [hb, isLineEnd]
  | cons c ends =>
    rw [hends, List.cons_append, List.cons.injEq] at htail
    have hc : c ∈ (data.takeWhile (· ≠ 10)).rtakeWhile isLineEnd := by
      rw [hends]
      exact List.mem_cons_self
    rw [← htail.1]
    exact List.mem_rtakeWhile_imp hc

private theorem decode_strip_eq_iff {data rawLine : List UInt8} (h : rawLine <+: data) :
    decodeReplace (stripLineEndBytes rawLine) = decodeReplace (stripLineEndBytes (data.takeWhile (· ≠ 10))) ↔
      HoldsLine rawLine (data.takeWhile (· ≠ 10)) := by
  have hrecord : stripLineEndBytes rawLine <+: data := (List.rdropWhile_prefix _ _).trans h
  have hline : stripLineEndBytes (data.takeWhile (· ≠ 10)) <+: data :=
    (List.rdropWhile_prefix _ _).trans (List.takeWhile_prefix _)
  constructor
  · intro hsame
    rcases List.prefix_or_prefix_of_prefix hrecord hline with hpre | hpre
    · obtain ⟨rest, hrest⟩ := hpre
      refine ⟨rest, hrest.symm, ?_⟩
      rw [← hrest] at hsame
      exact (Utf8.decode_append_eq_iff _ _).1 hsame.symm
    · obtain ⟨rest, hrest⟩ := hpre
      cases rest with
      | nil => exact ⟨[], by simpa using hrest, .inl rfl⟩
      | cons b rest =>
        obtain ⟨tail, htail⟩ := hrecord
        have hb : isLineEnd b = true := by
          have hafter : data = stripLineEndBytes (data.takeWhile (· ≠ 10)) ++ b :: (rest ++ tail) := by
            conv_lhs => rw [← htail, ← hrest]
            simp
          exact lineEnd_after hafter
        rw [← hrest] at hsame
        exact absurd hsame (decode_lineEnd_ne _ _ hb)
  · rintro ⟨rest, hrest, hopen⟩
    rw [hrest]
    exact ((Utf8.decode_append_eq_iff _ _).2 hopen).symm

/-- A verified match of a file without NUL shows the line with its number exactly when the record holds the line that
begins at its offset. -/
theorem verified_line_iff {data : RgMatchData} {snapshot : GrepFileSnapshot} {state state' : RgLineNumberState}
    {m : GrepMatch} {offset : Nat} {rawLine : List UInt8} (hnul : 0 ∉ snapshot.data)
    (hstate : state.Counts snapshot.data) (h : verifiedGrepMatch data snapshot state = .ok (some m, state'))
    (hoffset : data.absoluteOffset = some offset) (hraw : data.lines = some rawLine) :
    (∃ line, lfLine snapshot.data m.lineNumber = some line ∧
        m.line = String.ofList (stripLineEnd (decodeReplace line)) ∧ m.contentHash = snapshot.contentHash) ↔
      HoldsLine rawLine ((snapshot.data.drop offset).takeWhile (· ≠ 10)) := by
  obtain ⟨offset', rawLine', start, stop, length, rfl, -, -, hlength, hnumber, -, -, -, hm⟩ := verifiedGrepMatch_some h
  cases hoffset
  cases hraw
  obtain ⟨-, hboundary, hcount⟩ := rgLineNumberMatches_boundary hstate hnumber
  have hfree : 0 ∉ snapshot.data.take offset := fun hmem => hnul (List.mem_of_mem_take hmem)
  have hfront : Lines.Whole 10 (snapshot.data.take offset) := by
    rcases hboundary with hnil | hlf | hzero
    · exact .inl hnil
    · exact .inr hlf
    · exact absurd (List.mem_of_getLast? hzero) hfree
  have hlineNumber : m.lineNumber = (snapshot.data.take offset).count 10 + 1 := by
    have := List.count_eq_zero_of_not_mem hfree
    omega
  have hstarts := startsAt_of_verified hnul hlength
  have hlf := Lines.lineAt_append hfront (snapshot.data.drop offset)
  rw [List.take_append_drop] at hlf
  rw [hlineNumber, lfLine, hlf, ← decode_strip_eq_iff hstarts, ← stripLineEnd_decodeReplace, ←
    stripLineEnd_decodeReplace]
  rw [hm]
  constructor
  · rintro ⟨line, ⟨⟩, hsame, -⟩
    exact String.ofList_injective hsame
  · intro hsame
    exact ⟨_, rfl, by rw [hsame], rfl⟩

/-- The record of the whole line `needle more` shows that line. -/
theorem whole_line_verified :
    ∃ line, lfLine [110, 101, 101, 100, 108, 101, 32, 109, 111, 114, 101, 10] 1 = some line ∧
      "needle more" = String.ofList (stripLineEnd (decodeReplace line)) ∧
      contentHash ⟨#[110, 101, 101, 100, 108, 101, 32, 109, 111, 114, 101, 10]⟩ =
        contentHash ⟨#[110, 101, 101, 100, 108, 101, 32, 109, 111, 114, 101, 10]⟩ := by
  have hverify : verifiedGrepMatch
      ⟨some 1, some 0, some [110, 101, 101, 100, 108, 101, 32, 109, 111, 114, 101, 10], some (some 0, some 6)⟩
      ⟨"notes.md", treePath "notes.md", [110, 101, 101, 100, 108, 101, 32, 109, 111, 114, 101, 10],
        contentHash ⟨#[110, 101, 101, 100, 108, 101, 32, 109, 111, 114, 101, 10]⟩, "stat:1:2:12:3:4", false, true⟩
          .fresh =
      .ok (some ⟨"notes.md", 1, "needle more", 0, 6,
        contentHash ⟨#[110, 101, 101, 100, 108, 101, 32, 109, 111, 114, 101, 10]⟩⟩, ⟨0, 0, 0⟩) := rfl
  exact (verified_line_iff (by decide) (RgLineNumberState.fresh_counts _) hverify rfl rfl).2 ⟨[], by decide, .inl rfl⟩

/-- A record of `needle`, read before the file became `needle more\n`, is accepted with a line the file does not
have. -/
theorem part_of_line_verified :
    ∃ data snapshot m state', 0 ∉ GrepFileSnapshot.data snapshot ∧
      verifiedGrepMatch data snapshot .fresh = .ok (some m, state') ∧
      ¬∃ line, lfLine snapshot.data m.lineNumber = some line ∧
        m.line = String.ofList (stripLineEnd (decodeReplace line)) ∧ m.contentHash = snapshot.contentHash := by
  let bytes : List UInt8 := [110, 101, 101, 100, 108, 101, 32, 109, 111, 114, 101, 10]
  refine ⟨⟨some 1, some 0, some [110, 101, 101, 100, 108, 101], some (some 0, some 6)⟩,
    ⟨"notes.md", treePath "notes.md", bytes, contentHash ⟨bytes.toArray⟩, "stat:1:2:12:3:4", false, true⟩,
    ⟨"notes.md", 1, "needle", 0, 6, contentHash ⟨bytes.toArray⟩⟩, ⟨0, 0, 0⟩, by decide, rfl, ?_⟩
  rintro ⟨line, hline, htext, -⟩
  have hwhole : line = [110, 101, 101, 100, 108, 101, 32, 109, 111, 114, 101] := by
    have : some line = some [110, 101, 101, 100, 108, 101, 32, 109, 111, 114, 101] := hline.symm
    exact Option.some.inj this
  subst hwhole
  exact absurd htext (by decide)

/-! ### Positions -/

/-- A record of a file that is accepted, and its match. -/
def GrepFileSnapshot.Accepts (snapshot : GrepFileSnapshot) (data : RgMatchData) (m : GrepMatch) : Prop :=
  ∃ state state', state.Counts snapshot.data ∧ verifiedGrepMatch data snapshot state = .ok (some m, state')

/-- Without NUL bytes an accepted record has the number of the line that begins at its offset. -/
theorem lineNumber_of_accepts {snapshot : GrepFileSnapshot} {data : RgMatchData} {m : GrepMatch}
    (hnul : 0 ∉ snapshot.data) (h : snapshot.Accepts data m) :
    ∃ offset, data.absoluteOffset = some offset ∧ offset ≤ snapshot.data.length ∧
      Lines.Whole 10 (snapshot.data.take offset) ∧
      m.lineNumber = (snapshot.data.take offset).count 10 + 1 := by
  obtain ⟨state, state', hstate, h⟩ := h
  obtain ⟨offset, rawLine, start, stop, length, rfl, -, -, -, hnumber, -⟩ := verifiedGrepMatch_some h
  obtain ⟨hle, hboundary, hcount⟩ := rgLineNumberMatches_boundary hstate hnumber
  have hfree : 0 ∉ snapshot.data.take offset := fun hmem => hnul (List.mem_of_mem_take hmem)
  have hzero := List.count_eq_zero_of_not_mem hfree
  refine ⟨offset, rfl, hle, ?_, by omega⟩
  rcases hboundary with hnil | hlf | hend
  · exact .inl hnil
  · exact .inr hlf
  · exact absurd (List.mem_of_getLast? hend) hfree

/-- A later line begin has more line feeds before it. -/
private theorem count_take_lt {data : List UInt8} {offset offset' : Nat} (hlt : offset < offset')
    (hlast : Lines.Whole 10 (data.take offset')) (hle : offset' ≤ data.length) :
    (data.take offset).count 10 < (data.take offset').count 10 := by
  obtain ⟨k, rfl⟩ : ∃ k, offset' = k + 1 := ⟨offset' - 1, by omega⟩
  have hsplit : data.take (k + 1) = data.take offset ++ ((data.take (k + 1)).drop offset) := by
    conv_lhs => rw [← List.take_append_drop offset (data.take (k + 1)), List.take_take, Nat.min_eq_left (by omega)]
  have hrest : (data.take (k + 1)).drop offset ≠ [] := by
    intro hnil
    have := congrArg List.length hnil
    simp only [List.length_drop, List.length_take, List.length_nil] at this
    omega
  have hend : ((data.take (k + 1)).drop offset).getLast? = some 10 := by
    rcases hlast with hnil | hlf
    · rw [hnil, List.drop_nil] at hrest
      exact absurd rfl hrest
    · rwa [hsplit, List.getLast?_append_of_ne_nil _ hrest] at hlf
  have hmore := List.count_pos_iff.2 (List.mem_of_getLast? hend)
  rw [hsplit, List.count_append]
  omega

/-- Without NUL bytes a record that begins behind another one has a larger line number. -/
theorem lineNumber_lt_of_accepts {snapshot : GrepFileSnapshot} {data data' : RgMatchData} {m m' : GrepMatch}
    (hnul : 0 ∉ snapshot.data) (h : snapshot.Accepts data m) (h' : snapshot.Accepts data' m')
    (hbehind : ∀ offset offset', data.absoluteOffset = some offset → data'.absoluteOffset = some offset' →
      offset < offset') : m.lineNumber < m'.lineNumber := by
  obtain ⟨offset, hdata, -, -, hnumber⟩ := lineNumber_of_accepts hnul h
  obtain ⟨offset', hdata', hle', hlast', hnumber'⟩ := lineNumber_of_accepts hnul h'
  have hmore := count_take_lt (hbehind offset offset' hdata hdata') hlast' hle'
  omega

/-- What stands behind a LF or a NUL is accepted, with the number of the LF bytes before it. -/
theorem GrepFileSnapshot.accepts_part {snapshot : GrepFileSnapshot} {front part rest : List UInt8}
    (hdata : snapshot.data = front ++ part ++ rest)
    (hfront : front = [] ∨ front.getLast? = some 10 ∨ front.getLast? = some 0) :
    snapshot.Accepts ⟨some (front.count 10 + 1), some front.length, some part, some (some 0, some 0)⟩
      ⟨snapshot.logicalPath, front.count 10 + 1, String.ofList (stripLineEnd (decodeReplace part)), 0, 0,
        snapshot.contentHash⟩ := by
  have hrest : snapshot.data = front ++ (part ++ rest) := by rw [hdata, List.append_assoc]
  have hlength : rgVerifiedLineLength snapshot.data front.length part = some part.length := by
    unfold rgVerifiedLineLength startsAt
    rw [if_pos]
    rw [hrest, List.drop_left, List.isPrefixOf_iff_prefix]
    exact List.prefix_append part rest
  have hcorrect : rgLineNumberMatches snapshot.data front.length (front.count 10 + 1) .fresh =
      (true, RgLineNumberState.fresh.advance snapshot.data front.length) := by
    unfold rgLineNumberMatches rgLineNumberMatchesBy
    rw [if_neg (by simp [RgLineNumberState.fresh, hrest]), if_neg ?_]
    · simp [RgLineNumberState.advance, RgLineNumberState.fresh, hrest]
    · have hlast : front ≠ [] → snapshot.data[front.length - 1]? = front.getLast? := by
        intro hne
        have hpos := List.length_pos_of_ne_nil hne
        rw [hrest, List.getElem?_append_left (by omega), List.getLast?_eq_getElem?]
      rcases hfront with rfl | hlf | hnul
      · simp
      · have hne : front ≠ [] := by
          rintro rfl
          cases hlf
        simp [List.getD_eq_getElem?_getD, hlast hne, hlf]
      · have hne : front ≠ [] := by
          rintro rfl
          cases hnul
        simp [List.getD_eq_getElem?_getD, hlast hne, hnul]
  refine ⟨.fresh, RgLineNumberState.fresh.advance snapshot.data front.length, RgLineNumberState.fresh_counts _, ?_⟩
  have hfits : ¬(snapshot.data.length < front.length || snapshot.data.length - front.length < part.length) = true := by
    simp [hdata]
  unfold verifiedGrepMatch verifiedGrepMatchBy
  simp only [Nat.add_eq_zero_iff, Nat.one_ne_zero, and_false, if_false, hlength, hcorrect]
  rw [if_neg hfits]
  simp [decodeReplace, Utf8.decode, Utf8.run]

/-- The positions of any two accepted records of a file differ exactly when the file has no NUL. -/
theorem anchors_distinct_iff (snapshot : GrepFileSnapshot) :
    (∀ data data' m m', snapshot.Accepts data m → snapshot.Accepts data' m' →
        data.absoluteOffset ≠ data'.absoluteOffset → m.position ≠ m'.position) ↔ 0 ∉ snapshot.data := by
  constructor
  · intro hdistinct hmem
    -- the line in which the NUL stands begins in the same line as what follows the NUL
    obtain ⟨front, back, hdata⟩ := List.append_of_mem hmem
    obtain ⟨lines, part, rfl, hlines, hpart⟩ := Lines.exists_whole 10 front
    have hcount : (lines ++ part ++ [0]).count 10 = lines.count 10 := by
      simp [List.count_eq_zero_of_not_mem hpart]
    have hline : snapshot.data = lines ++ [] ++ (part ++ 0 :: back) := by simp [hdata]
    have hrest : snapshot.data = (lines ++ part ++ [0]) ++ [] ++ back := by simp [hdata]
    have hbegin := GrepFileSnapshot.accepts_part hline (hlines.imp_right .inl)
    have hafter := GrepFileSnapshot.accepts_part hrest (.inr (.inr (by simp)))
    refine hdistinct _ _ _ _ hbegin hafter ?_ ?_
    · simp only [ne_eq, Option.some.injEq, List.length_append, List.length_singleton]
      omega
    · rw [hcount]
  · intro hnul data data' m m' h h' hoffset hposition
    obtain ⟨offset, hdata, hle, hlast, hnumber⟩ := lineNumber_of_accepts hnul h
    obtain ⟨offset', hdata', hle', hlast', hnumber'⟩ := lineNumber_of_accepts hnul h'
    have hsame : m.lineNumber = m'.lineNumber := congrArg Prod.fst hposition
    rw [hdata, hdata'] at hoffset
    have hne : offset ≠ offset' := fun heq => hoffset (by rw [heq])
    rcases Nat.lt_or_gt_of_ne hne with hlt | hlt
    · have := count_take_lt hlt hlast' hle'
      omega
    · have := count_take_lt hlt hlast hle
      omega

/-- `needle\x00needle\n`: the parts before and behind the NUL are records of line 1 with the same bounds. -/
theorem needles_around_nul :
    ∃ snapshot data data' m m', GrepFileSnapshot.Accepts snapshot data m ∧ snapshot.Accepts data' m' ∧
      data.absoluteOffset ≠ data'.absoluteOffset ∧ m.position = m'.position := by
  let bytes : List UInt8 := [110, 101, 101, 100, 108, 101, 0, 110, 101, 101, 100, 108, 101, 10]
  let line : List UInt8 := [110, 101, 101, 100, 108, 101, 10]
  let hash := contentHash ⟨bytes.toArray⟩
  let found : GrepMatch := ⟨"notes.md", 1, "needle", 0, 6, hash⟩
  refine ⟨⟨"notes.md", treePath "notes.md", bytes, hash, "stat:1:2:14:3:4", false, true⟩,
    ⟨some 1, some 0, some line, some (some 0, some 6)⟩, ⟨some 1, some 7, some line, some (some 0, some 6)⟩,
    found, found, ?_, ?_, by decide, rfl⟩
  · exact ⟨.fresh, ⟨0, 0, 0⟩, RgLineNumberState.fresh_counts _, rfl⟩
  · exact ⟨.fresh, ⟨7, 0, 1⟩, RgLineNumberState.fresh_counts _, rfl⟩

end Ctxd

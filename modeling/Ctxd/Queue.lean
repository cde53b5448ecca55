import Ctxd.Runs
import Ctxd.Service
import Mathlib.Data.Prod.Lex
import Mathlib.Data.String.Basic
import Mathlib.Data.List.Pairwise

/-!
# The order of the queue

`apply_next` takes the queued row that is first by its time and its identifier.  The time is read from a clock that may
stand still or be set back, and the identifier is random, so this is the order of acceptance exactly when every
submission is stamped later than those of its writer that are still queued (`fifo_iff_stamped`).
-/

namespace Ctxd

open Program

namespace ServiceRow

/-- What the queue is ordered by. -/
def stamp (r : ServiceRow) : ℤ ×ₗ String := toLex (r.createdAt, r.submissionId)

def isOf (user writer : String) (r : ServiceRow) : Bool := r.userId = user && r.writerId = writer

/-- A row is taken out of the queue, and keeps what it was accepted with. -/
structure Settles (r r' : ServiceRow) : Prop where
  submissionId : r'.submissionId = r.submissionId
  userId : r'.userId = r.userId
  writerId : r'.writerId = r.writerId
  state : Service.isQueued r' = false

end ServiceRow

namespace Service

open ServiceRow

/-! ### The first row -/

private theorem before_iff (r r' : ServiceRow) : before r r' = true ↔ r.stamp < r'.stamp := by
  unfold before stamp
  rw [Prod.Lex.toLex_lt_toLex]
  simp

private theorem firstRow_eq_none {rows : List ServiceRow} : firstRow rows = none ↔ rows = [] := by
  cases rows with
  | nil => simp [firstRow]
  | cons r rest =>
    unfold firstRow
    split
    · simp
    · split <;> simp

theorem firstRow_spec {rows : List ServiceRow} {r : ServiceRow} (h : firstRow rows = some r) :
    r ∈ rows ∧ ∀ r' ∈ rows, r.stamp ≤ r'.stamp := by
  induction rows generalizing r with
  | nil => cases h
  | cons r0 rest ih =>
    unfold firstRow at h
    cases hrest : firstRow rest with
    | none =>
      rw [hrest] at h
      obtain rfl := Option.some.inj h
      obtain rfl := firstRow_eq_none.1 hrest
      simp
    | some first =>
      rw [hrest] at h
      obtain ⟨hmem, hmin⟩ := ih hrest
      simp only at h
      split at h
      · rename_i hbefore
        obtain rfl := Option.some.inj h
        have hlt := (before_iff _ _).1 hbefore
        refine ⟨List.mem_cons_of_mem _ hmem, fun r' hr' => ?_⟩
        rcases List.mem_cons.1 hr' with rfl | hr'
        · exact hlt.le
        · exact hmin r' hr'
      · rename_i hbefore
        obtain rfl := Option.some.inj h
        have hle : r0.stamp ≤ first.stamp := not_lt.1 fun hlt => hbefore ((before_iff _ _).2 hlt)
        refine ⟨List.mem_cons_self .., fun r' hr' => ?_⟩
        rcases List.mem_cons.1 hr' with rfl | hr'
        · exact le_rfl
        · exact hle.trans (hmin r' hr')

/-! ### Taking a row -/

/-- The rows of the submissions, in the order of their ids. -/
def rowsOf (rows : List ServiceRow) (ids : List String) : List ServiceRow :=
  ids.filterMap fun id => rows.find? fun r => r.submissionId = id

def queuedRows (user writer : String) (rows : List ServiceRow) : List ServiceRow :=
  rows.filter fun r => isOf user writer r && isQueued r

/-- The submissions of a writer that were taken, in the order in which they were taken, come before those that are
still queued in the order of acceptance. -/
def Fifo (user writer : String) (rows : List ServiceRow) (taken : List String) : Prop :=
  (rowsOf rows taken).filter (isOf user writer) ++ queuedRows user writer rows = rows.filter (isOf user writer)

/-- First in, first out so far and, with no further submission, to the end. -/
structure InOrder (user writer : String) (rows : List ServiceRow) (taken : List String) : Prop where
  fifo : Fifo user writer rows taken
  sorted : (queuedRows user writer rows).Pairwise fun r r' => r.stamp < r'.stamp

/-- No two rows have one id, and what was taken is not queued. -/
structure Kept (rows : List ServiceRow) (taken : List String) : Prop where
  nodup : (rows.map (·.submissionId)).Nodup
  taken : ∀ id ∈ taken, ∃ r ∈ rows, r.submissionId = id ∧ isQueued r = false

def settle (submissionId : String) (g : ServiceRow → ServiceRow) (r : ServiceRow) : ServiceRow :=
  if r.submissionId = submissionId then g r else r

/-- The first of the queued rows is settled. -/
def Takes (rows rows' : List ServiceRow) (row : ServiceRow) : Prop :=
  firstRow (rows.filter isQueued) = some row ∧
    ∃ g : ServiceRow → ServiceRow, (∀ r, Settles r (g r)) ∧ rows' = rows.map (settle row.submissionId g)

section

variable {rows rows' : List ServiceRow} {row : ServiceRow} {taken : List String} {user writer submissionId : String}
  {g : ServiceRow → ServiceRow}

private theorem settle_of_ne {r : ServiceRow} (h : r.submissionId ≠ submissionId) :
    settle submissionId g r = r := if_neg h

private theorem map_settle_of_ne {l : List ServiceRow} (h : ∀ r ∈ l, r.submissionId ≠ submissionId) :
    l.map (settle submissionId g) = l :=
  (List.map_congr_left fun r hr => settle_of_ne (h r hr)).trans (List.map_id l)

private theorem settle_submissionId (hg : ∀ r, Settles r (g r)) (r : ServiceRow) :
    (settle submissionId g r).submissionId = r.submissionId := by
  unfold settle
  split
  · exact (hg r).submissionId
  · rfl

private theorem isOf_settle (hg : ∀ r, Settles r (g r)) (r : ServiceRow) :
    isOf user writer (settle submissionId g r) = isOf user writer r := by
  unfold settle isOf
  split
  · rw [(hg r).userId, (hg r).writerId]
  · rfl

private theorem rowsOf_map {f : ServiceRow → ServiceRow} (hf : ∀ r, (f r).submissionId = r.submissionId)
    (ids : List String) :
    rowsOf (rows.map f) ids = (rowsOf rows ids).map f := by
  unfold rowsOf
  rw [List.map_filterMap]
  congr 1
  funext id
  rw [List.find?_map]
  congr 2
  funext r
  simp [hf]

private theorem mem_rowsOf {ids : List String} {r : ServiceRow} (h : r ∈ rowsOf rows ids) :
    r ∈ rows ∧ r.submissionId ∈ ids := by
  obtain ⟨id, hid, hr⟩ := List.mem_filterMap.1 h
  have hsome : r.submissionId = id := by simpa using List.find?_some hr
  exact ⟨List.mem_of_find?_eq_some hr, hsome ▸ hid⟩

private theorem filter_isOf_settle (hg : ∀ r, Settles r (g r)) (rows : List ServiceRow) :
    (rows.map (settle submissionId g)).filter (isOf user writer) =
      (rows.filter (isOf user writer)).map (settle submissionId g) := by
  rw [List.filter_map]
  congr 2
  funext r
  exact isOf_settle hg r

/-- Settling takes the rows with the id out of the queue and leaves the others in it. -/
private theorem filter_isQueued_settle (hg : ∀ r, Settles r (g r)) (p : ServiceRow → Bool) (rows : List ServiceRow) :
    (rows.map (settle submissionId g)).filter (fun r => p r && isQueued r) =
      (rows.filter fun r => p r && isQueued r).filter fun r => r.submissionId ≠ submissionId := by
  induction rows with
  | nil => rfl
  | cons r rest ih =>
    rw [List.map_cons]
    by_cases hid : r.submissionId = submissionId
    · have hsettle : settle submissionId g r = g r := if_pos hid
      have hrest : ((r :: rest).filter fun r => p r && isQueued r).filter (fun r => r.submissionId ≠ submissionId) =
          (rest.filter fun r => p r && isQueued r).filter fun r => r.submissionId ≠ submissionId := by
        rw [List.filter_cons]
        split
        · rw [List.filter_cons, if_neg (by simp [hid])]
        · rfl
      rw [hsettle, List.filter_cons, if_neg (by simp [(hg r).state]), ih, hrest]
    · rw [settle_of_ne hid, List.filter_cons, List.filter_cons]
      split
      · rw [List.filter_cons, if_pos (by simp [hid]), ih]
      · exact ih

private theorem Kept.eq (hkept : Kept rows taken) {r r' : ServiceRow} (hr : r ∈ rows) (hr' : r' ∈ rows)
    (hid : r.submissionId = r'.submissionId) : r = r' :=
  List.inj_on_of_nodup_map hkept.nodup hr hr' hid

/-- The ids say which rows they are. -/
private theorem Kept.rowsOf_ids (hkept : Kept rows taken) {l : List ServiceRow} (hl : ∀ r ∈ l, r ∈ rows) :
    rowsOf rows (l.map (·.submissionId)) = l := by
  induction l with
  | nil => rfl
  | cons r rest ih =>
    have hfind : rows.find? (fun r' => r'.submissionId = r.submissionId) = some r := by
      cases hfound : rows.find? (fun r' => r'.submissionId = r.submissionId) with
      | none => exact absurd (decide_eq_true rfl) (List.find?_eq_none.1 hfound r (hl r (List.mem_cons_self ..)))
      | some r' =>
        have hid : r'.submissionId = r.submissionId := by simpa using List.find?_some hfound
        rw [hkept.eq (List.mem_of_find?_eq_some hfound) (hl r (List.mem_cons_self ..)) hid]
    have hrest := ih fun r' hr' => hl r' (List.mem_cons_of_mem _ hr')
    unfold rowsOf at hrest ⊢
    rw [List.map_cons, List.filterMap_cons, hfind, hrest]

private theorem Takes.mem (h : Takes rows rows' row) : row ∈ rows ∧ isQueued row = true :=
  List.mem_filter.1 (firstRow_spec h.1).1

private theorem Takes.le (h : Takes rows rows' row) {r : ServiceRow} (hr : r ∈ queuedRows user writer rows) :
    row.stamp ≤ r.stamp := by
  obtain ⟨hmem, hqueued⟩ := List.mem_filter.1 hr
  have hqueued : isQueued r = true := by
    simp only [Bool.and_eq_true] at hqueued
    exact hqueued.2
  exact (firstRow_spec h.1).2 r (List.mem_filter.2 ⟨hmem, hqueued⟩)

private theorem Takes.kept (h : Takes rows rows' row) (hkept : Kept rows taken) :
    Kept rows' (taken ++ [row.submissionId]) := by
  obtain ⟨-, g, hg, rfl⟩ := id h
  refine ⟨?_, fun id hid => ?_⟩
  · have hids : (rows.map (settle row.submissionId g)).map (·.submissionId) = rows.map (·.submissionId) := by
      rw [List.map_map]
      exact List.map_congr_left fun r _ => settle_submissionId hg r
    rw [hids]
    exact hkept.nodup
  · have hsettled : ∀ r ∈ rows, r.submissionId = id → (id = row.submissionId ∨ isQueued r = false) →
        ∃ r' ∈ rows.map (settle row.submissionId g), r'.submissionId = id ∧ isQueued r' = false := by
      intro r hr hrid hstate
      refine ⟨_, List.mem_map_of_mem hr, (settle_submissionId hg r).trans hrid, ?_⟩
      unfold settle
      split
      · exact (hg r).state
      · rename_i hne
        exact hstate.resolve_left fun hid => hne (hrid.trans hid)
    rcases List.mem_append.1 hid with hid | hid
    · obtain ⟨r, hr, hrid, hstate⟩ := hkept.taken id hid
      exact hsettled r hr hrid (.inr hstate)
    · obtain rfl := List.mem_singleton.1 hid
      exact hsettled row h.mem.1 rfl (.inl rfl)

/-- A sorted list begins with its least element. -/
private theorem eq_cons_of_sorted {queue : List ServiceRow} (hsorted : queue.Pairwise fun r r' => r.stamp < r'.stamp)
    (hmem : row ∈ queue) (hle : ∀ r ∈ queue, row.stamp ≤ r.stamp) : ∃ rest, queue = row :: rest := by
  cases queue with
  | nil => cases hmem
  | cons r rest =>
    rcases List.mem_cons.1 hmem with rfl | hmem
    · exact ⟨rest, rfl⟩
    · have hlt : r.stamp < row.stamp := (List.pairwise_cons.1 hsorted).1 row hmem
      exact absurd (hle r (List.mem_cons_self ..)) (not_le.2 hlt)

/-- Taking a row of another writer changes nothing for this one. -/
private theorem Takes.inOrder_other (h : Takes rows rows' row) (hkept : Kept rows taken)
    (hother : isOf user writer row = false) :
    InOrder user writer rows' (taken ++ [row.submissionId]) ↔ InOrder user writer rows taken := by
  obtain ⟨-, g, hg, rfl⟩ := id h
  have hne : ∀ r ∈ rows.filter (isOf user writer), r.submissionId ≠ row.submissionId := by
    intro r hr hid
    obtain ⟨hmem, hof⟩ := List.mem_filter.1 hr
    rw [hkept.eq hmem h.mem.1 hid, hother] at hof
    cases hof
  have hfixed : ∀ l : List ServiceRow, (∀ r ∈ l, r ∈ rows.filter (isOf user writer)) →
      l.map (settle row.submissionId g) = l := fun l hl => map_settle_of_ne fun r hr => hne r (hl r hr)
  have hqueue : queuedRows user writer (rows.map (settle row.submissionId g)) = queuedRows user writer rows := by
    unfold queuedRows
    rw [filter_isQueued_settle hg, List.filter_eq_self]
    intro r hr
    obtain ⟨hmem, hof⟩ := List.mem_filter.1 hr
    rw [Bool.and_eq_true] at hof
    exact decide_eq_true (hne r (List.mem_filter.2 ⟨hmem, hof.1⟩))
  have htaken : (rowsOf (rows.map (settle row.submissionId g)) (taken ++ [row.submissionId])).filter
      (isOf user writer) = (rowsOf rows taken).filter (isOf user writer) := by
    rw [rowsOf_map (settle_submissionId hg), filter_isOf_settle hg, hfixed]
    · unfold rowsOf
      rw [List.filterMap_append, List.filter_append, List.append_right_eq_self, List.filter_eq_nil_iff]
      intro r hr hof
      have hr : r ∈ rowsOf rows [row.submissionId] := hr
      obtain ⟨hmem, hid⟩ := mem_rowsOf hr
      exact hne r (List.mem_filter.2 ⟨hmem, hof⟩) (List.mem_singleton.1 hid)
    · intro r hr
      obtain ⟨hmem, hof⟩ := List.mem_filter.1 hr
      exact List.mem_filter.2 ⟨(mem_rowsOf hmem).1, hof⟩
  have hall : (rows.map (settle row.submissionId g)).filter (isOf user writer) = rows.filter (isOf user writer) := by
    rw [filter_isOf_settle hg, hfixed _ fun r hr => hr]
  constructor
  · intro hin
    refine ⟨?_, hqueue ▸ hin.sorted⟩
    have hfifo := hin.fifo
    unfold Fifo at hfifo ⊢
    rwa [hqueue, htaken, hall] at hfifo
  · intro hin
    refine ⟨?_, hqueue ▸ hin.sorted⟩
    unfold Fifo
    rw [hqueue, htaken, hall]
    exact hin.fifo

/-- The row that is taken is the first of its writer exactly when the order was right before. -/
private theorem Takes.inOrder_own (h : Takes rows rows' row) (hkept : Kept rows taken)
    (hown : isOf user writer row = true) :
    InOrder user writer rows' (taken ++ [row.submissionId]) ↔ InOrder user writer rows taken := by
  obtain ⟨-, g, hg, rfl⟩ := id h
  have hmem : row ∈ queuedRows user writer rows := List.mem_filter.2 ⟨h.mem.1, by rw [hown, h.mem.2]; rfl⟩
  have hqueue : queuedRows user writer (rows.map (settle row.submissionId g)) =
      (queuedRows user writer rows).filter fun r => r.submissionId ≠ row.submissionId :=
    filter_isQueued_settle hg _ _
  -- What was taken before is not queued, so it is not the row.
  have hearlier : ∀ r ∈ rowsOf rows taken, r.submissionId ≠ row.submissionId ∧ isQueued r = false := by
    intro r hr
    obtain ⟨hrows, hid⟩ := mem_rowsOf hr
    obtain ⟨r', hr', hid', hstate⟩ := hkept.taken _ hid
    obtain rfl := hkept.eq hr' hrows hid'
    refine ⟨fun hrow => ?_, hstate⟩
    rw [hkept.eq hrows h.mem.1 hrow, h.mem.2] at hstate
    cases hstate
  have htaken : (rowsOf (rows.map (settle row.submissionId g)) (taken ++ [row.submissionId])).filter
      (isOf user writer) = (rowsOf rows taken).filter (isOf user writer) ++ [g row] := by
    have hlast : rowsOf rows [row.submissionId] = [row] := hkept.rowsOf_ids (l := [row]) (by simpa using h.mem.1)
    have happend : rowsOf rows (taken ++ [row.submissionId]) = rowsOf rows taken ++ [row] := by
      rw [← hlast]
      exact List.filterMap_append
    have hfixed : (rowsOf rows taken).map (settle row.submissionId g) = rowsOf rows taken :=
      map_settle_of_ne fun r hr => (hearlier r hr).1
    have hgrow : settle row.submissionId g row = g row := if_pos rfl
    have hof : isOf user writer (g row) = true := by
      rw [← hgrow, isOf_settle hg]
      exact hown
    rw [rowsOf_map (settle_submissionId hg), happend, List.map_append, hfixed, List.map_singleton, hgrow,
      List.filter_append, List.filter_singleton, hof]
    rfl
  have hall : (rows.map (settle row.submissionId g)).filter (isOf user writer) =
      (rows.filter (isOf user writer)).map (settle row.submissionId g) := filter_isOf_settle hg rows
  constructor
  · intro hin
    have hfifo := hin.fifo
    unfold Fifo at hfifo
    rw [htaken, hqueue, hall] at hfifo
    -- By their ids, the accepted rows are those taken, the row and the others in the queue.
    have hrows : (rowsOf rows taken).filter (isOf user writer) ++ row ::
        ((queuedRows user writer rows).filter fun r => r.submissionId ≠ row.submissionId) =
          rows.filter (isOf user writer) := by
      have hids := congrArg (List.map (·.submissionId)) hfifo
      have hsame : (List.map (settle row.submissionId g) (rows.filter (isOf user writer))).map (·.submissionId) =
          (rows.filter (isOf user writer)).map (·.submissionId) := by
        rw [List.map_map]
        exact List.map_congr_left fun r _ => settle_submissionId hg r
      rw [hsame] at hids
      have hleft := hkept.rowsOf_ids (l := (rowsOf rows taken).filter (isOf user writer) ++ row ::
        (queuedRows user writer rows).filter fun r => r.submissionId ≠ row.submissionId) fun r hr => by
          rcases List.mem_append.1 hr with hr | hr
          · exact (mem_rowsOf (List.mem_filter.1 hr).1).1
          · rcases List.mem_cons.1 hr with rfl | hr
            · exact h.mem.1
            · exact (List.mem_filter.1 (List.mem_filter.1 hr).1).1
      have hright := hkept.rowsOf_ids (l := rows.filter (isOf user writer)) fun r hr => (List.mem_filter.1 hr).1
      rw [← hleft, ← hright, ← hids]
      simp [(hg row).submissionId]
    have hqueued : queuedRows user writer rows = row ::
        (queuedRows user writer rows).filter fun r => r.submissionId ≠ row.submissionId := by
      have hfilter : queuedRows user writer rows = (rows.filter (isOf user writer)).filter isQueued := by
        rw [List.filter_filter]
        exact List.filter_congr fun r _ => Bool.and_comm _ _
      have hnone : ((rowsOf rows taken).filter (isOf user writer)).filter isQueued = [] := by
        rw [List.filter_eq_nil_iff]
        intro r hr
        simp [(hearlier r (List.mem_filter.1 hr).1).2]
      have hself : ((queuedRows user writer rows).filter fun r => r.submissionId ≠ row.submissionId).filter isQueued =
          (queuedRows user writer rows).filter fun r => r.submissionId ≠ row.submissionId := by
        rw [List.filter_eq_self]
        intro r hr
        have hof := (List.mem_filter.1 (List.mem_filter.1 hr).1).2
        rw [Bool.and_eq_true] at hof
        exact hof.2
      conv_lhs => rw [hfilter, ← hrows]
      rw [List.filter_append, hnone, List.filter_cons, if_pos h.mem.2, hself, List.nil_append]
    refine ⟨?_, ?_⟩
    · unfold Fifo
      rw [← hrows, ← hqueued]
    · rw [hqueued, List.pairwise_cons]
      refine ⟨fun r hr => ?_, hqueue ▸ hin.sorted⟩
      obtain ⟨hr, hne⟩ := List.mem_filter.1 hr
      have hle : row.stamp ≤ r.stamp := h.le hr
      refine lt_of_le_of_ne hle fun heq => of_decide_eq_true hne ?_
      exact (congrArg (fun stamp => (ofLex stamp).2) heq).symm
  · intro hin
    obtain ⟨rest, hrest⟩ := eq_cons_of_sorted hin.sorted hmem fun r hr => h.le hr
    have hsorted := hin.sorted
    rw [hrest, List.pairwise_cons] at hsorted
    have hne : ∀ r ∈ rest, r.submissionId ≠ row.submissionId := by
      intro r hr hid
      have hr' : r ∈ queuedRows user writer rows := hrest ▸ List.mem_cons_of_mem _ hr
      rw [hkept.eq (List.mem_filter.1 hr').1 h.mem.1 hid] at hr
      exact absurd (hsorted.1 row hr) (lt_irrefl _)
    have hqueue' : queuedRows user writer (rows.map (settle row.submissionId g)) = rest := by
      rw [hqueue, hrest, List.filter_cons, if_neg (by simp), List.filter_eq_self]
      exact fun r hr => decide_eq_true (hne r hr)
    refine ⟨?_, hqueue' ▸ hsorted.2⟩
    unfold Fifo
    have hfifo := hin.fifo
    unfold Fifo at hfifo
    rw [htaken, hqueue', hall, ← hfifo, hrest, List.map_append, List.map_cons]
    have hfixed : ((rowsOf rows taken).filter (isOf user writer)).map (settle row.submissionId g) =
        (rowsOf rows taken).filter (isOf user writer) :=
      map_settle_of_ne fun r hr => (hearlier r (List.mem_filter.1 hr).1).1
    have hgrow : settle row.submissionId g row = g row := if_pos rfl
    rw [hfixed, map_settle_of_ne hne, hgrow, List.append_assoc]
    rfl

private theorem Takes.inOrder (h : Takes rows rows' row) (hkept : Kept rows taken) :
    InOrder user writer rows' (taken ++ [row.submissionId]) ↔ InOrder user writer rows taken := by
  cases hof : isOf user writer row with
  | true => exact h.inOrder_own hkept hof
  | false => exact h.inOrder_other hkept hof

/-- A row leaves the queue. -/
private theorem Takes.length_lt (h : Takes rows rows' row) :
    (rows'.filter isQueued).length < (rows.filter isQueued).length := by
  obtain ⟨-, g, hg, rfl⟩ := id h
  have hqueue : (rows.map (settle row.submissionId g)).filter isQueued =
      (rows.filter isQueued).filter fun r => r.submissionId ≠ row.submissionId :=
    filter_isQueued_settle hg (fun _ => true) rows
  rw [hqueue]
  exact List.length_filter_lt_length_iff_exists.2 ⟨row, List.mem_filter.2 h.mem, by simp⟩

/-! ### Accepting a row -/

variable {new : ServiceRow}

private theorem kept_append (hkept : Kept rows taken) (hnew : ∀ r ∈ rows, r.submissionId ≠ new.submissionId) :
    Kept (rows ++ [new]) taken := by
  refine ⟨?_, fun id hid => ?_⟩
  · rw [List.map_append, List.nodup_append]
    refine ⟨hkept.nodup, by simp, ?_⟩
    intro id hid id' hid'
    obtain ⟨r, hr, rfl⟩ := List.mem_map.1 hid
    obtain rfl := List.mem_singleton.1 hid'
    exact hnew r hr
  · obtain ⟨r, hr, hrow⟩ := hkept.taken id hid
    exact ⟨r, List.mem_append_left _ hr, hrow⟩

/-- The order stays right exactly when the new row is stamped later than those of its writer in the queue. -/
private theorem inOrder_append (hkept : Kept rows taken) (hqueued : isQueued new = true) :
    InOrder user writer (rows ++ [new]) taken ↔ InOrder user writer rows taken ∧
      (isOf user writer new = true → ∀ r ∈ queuedRows user writer rows, r.stamp < new.stamp) := by
  have htaken : rowsOf (rows ++ [new]) taken = rowsOf rows taken := by
    unfold rowsOf
    refine List.filterMap_congr fun id hid => ?_
    obtain ⟨r, hr, rfl, -⟩ := hkept.taken id hid
    rw [List.find?_append, Option.or_of_isSome]
    exact List.find?_isSome.2 ⟨r, hr, by simp⟩
  have hall : (rows ++ [new]).filter (isOf user writer) =
      rows.filter (isOf user writer) ++ [new].filter (isOf user writer) := List.filter_append _ _
  have hqueue : queuedRows user writer (rows ++ [new]) =
      queuedRows user writer rows ++ [new].filter (isOf user writer) := by
    unfold queuedRows
    rw [List.filter_append]
    congr 1
    simp [List.filter_singleton, hqueued]
  have hfifo : Fifo user writer (rows ++ [new]) taken ↔ Fifo user writer rows taken := by
    unfold Fifo
    rw [htaken, hall, hqueue, ← List.append_assoc, List.append_left_inj]
  have hsorted : (queuedRows user writer (rows ++ [new])).Pairwise (fun r r' => r.stamp < r'.stamp) ↔
      (queuedRows user writer rows).Pairwise (fun r r' => r.stamp < r'.stamp) ∧
        (isOf user writer new = true → ∀ r ∈ queuedRows user writer rows, r.stamp < new.stamp) := by
    rw [hqueue, List.pairwise_append, List.filter_singleton]
    cases isOf user writer new with
    | true => simp
    | false => simp
  constructor
  · intro hin
    have h := hsorted.1 hin.sorted
    exact ⟨⟨hfifo.1 hin.fifo, h.1⟩, h.2⟩
  · intro hin
    exact ⟨hfifo.2 hin.1.fifo, hsorted.2 ⟨hin.1.sorted, hin.2⟩⟩

end

/-! ### Calls -/

/-- Rows are taken one after another; `taken` tells which. -/
inductive Moves : List ServiceRow → List String → List ServiceRow → Prop
  | none (rows : List ServiceRow) : Moves rows [] rows
  | take {rows rows1 rows' : List ServiceRow} {row : ServiceRow} {taken : List String} (first : Takes rows rows1 row)
      (rest : Moves rows1 taken rows') : Moves rows (row.submissionId :: taken) rows'

private theorem Moves.kept {rows rows' : List ServiceRow} {taken moved : List String} (h : Moves rows moved rows')
    (hkept : Kept rows taken) : Kept rows' (taken ++ moved) := by
  induction h generalizing taken with
  | none rows => rwa [List.append_nil]
  | take first rest ih => simpa using ih (first.kept hkept)

private theorem Moves.inOrder {rows rows' : List ServiceRow} {taken moved : List String} {user writer : String}
    (h : Moves rows moved rows') (hkept : Kept rows taken) :
    InOrder user writer rows' (taken ++ moved) ↔ InOrder user writer rows taken := by
  induction h generalizing taken with
  | none rows => rw [List.append_nil]
  | take first rest ih =>
    rw [← first.inOrder hkept, ← ih (first.kept hkept), List.append_assoc]
    rfl

variable {s : Service}

/-- `apply_next` never raises; it takes the first row, or the queue is empty. -/
private theorem applyNext_spec (fault : Option Nat) :
    Ends (applyNext fault)
      (fun result s' => (s.rows.filter isQueued = [] ∧ result = none ∧ s'.rows = s.rows) ∨
        ∃ row submission, Takes s.rows s'.rows row ∧ result = some submission ∧
          submission.submissionId = row.submissionId)
      (fun _ _ => False) s := by
  unfold applyNext
  rw [ends_bind, ends_get]
  cases hfirst : firstRow (s.rows.filter isQueued) with
  | none =>
    rw [ends_pure]
    exact .inl ⟨firstRow_eq_none.1 hfirst, rfl, rfl⟩
  | some row =>
    rw [ends_bind]
    have hrows : Ends (attempt row fault) (fun _ s' => s'.rows = s.rows) (fun _ _ => False) s := by
      rw [ends_attempt]
      unfold Ends
      split <;> rfl
    refine hrows.mono (fun result s1 hs1 => ?_) (fun _ _ h => h)
    cases result with
    | ok applied =>
      dsimp only
      unfold markApplied updateRow
      rw [ends_bind, ends_bind, ends_time, ends_bind, ends_modify, ends_pure, ends_pure]
      refine .inr ⟨row, _, ⟨hfirst, fun r => { r with
        state := .applied, appliedSubmissionId := some applied.submissionId, error := none, updatedAt := s1.time },
        fun r => ⟨rfl, rfl, rfl, rfl⟩, ?_⟩, rfl, rfl⟩
      rw [← hs1]
      rfl
    | error e =>
      dsimp only
      unfold markFailed updateRow
      rw [ends_bind, ends_bind, ends_time, ends_bind, ends_modify, ends_pure, ends_pure]
      refine .inr ⟨row, _, ⟨hfirst, fun r => { r with
        state := .failed, error := some (.raised e), updatedAt := s1.time }, fun r => ⟨rfl, rfl, rfl, rfl⟩, ?_⟩,
        rfl, rfl⟩
      rw [← hs1]
      rfl

/-- The loop takes rows, and when it has no limit and rounds enough it empties the queue. -/
private theorem drainLoop_spec (limit : Option Int) (fault : Nat → Option Nat) (rounds : Nat)
    (applied : List ServiceSubmission) (s : Service) :
    Ends (drainLoop limit fault rounds applied)
      (fun result s' => ∃ moved, result.map (·.submissionId) = applied.map (·.submissionId) ++ moved ∧
        Moves s.rows moved s'.rows ∧
        (limit = none → (s.rows.filter isQueued).length < rounds → s'.rows.filter isQueued = []))
      (fun _ _ => False) s := by
  induction rounds generalizing applied s with
  | zero =>
    unfold drainLoop
    rw [ends_pure]
    exact ⟨[], (List.append_nil _).symm, .none _, fun _ h => absurd h (Nat.not_lt_zero _)⟩
  | succ rounds ih =>
    unfold drainLoop
    refine Ends.ite (fun hlimit => ?_) (fun hlimit => ?_)
    · rw [ends_bind]
      refine (applyNext_spec _).mono (fun result s1 h => ?_) (fun _ _ h => h)
      rcases h with ⟨hempty, rfl, hrows⟩ | ⟨row, submission, htakes, rfl, hid⟩
      · dsimp only
        rw [ends_pure, hrows]
        exact ⟨[], (List.append_nil _).symm, .none _, fun _ _ => hempty⟩
      · dsimp only
        refine (ih _ s1).mono ?_ (fun _ _ h => h)
        rintro result s' ⟨moved, hids, hmoves, hempty⟩
        refine ⟨row.submissionId :: moved, ?_, .take htakes hmoves, fun hnone hlt => hempty hnone ?_⟩
        · rw [hids, List.map_append, List.map_singleton, hid, List.append_assoc]
          rfl
        · have hlength := htakes.length_lt
          omega
    · rw [ends_pure]
      refine ⟨[], (List.append_nil _).symm, .none _, fun hnone => ?_⟩
      rw [hnone] at hlimit
      exact absurd rfl hlimit

private theorem drain_spec (limit : Option Int) (fault : Nat → Option Nat) (s : Service) :
    Ends (drain limit fault)
      (fun result s' => Moves s.rows (result.map (·.submissionId)) s'.rows ∧
        (limit = none → s'.rows.filter isQueued = []))
      (fun _ s' => s'.rows = s.rows ∧ limit ≠ none) s := by
  unfold drain
  refine Ends.ite (fun hlimit => ?_) (fun _ => ?_)
  · rw [ends_bind, ends_throw]
    refine ⟨rfl, fun hnone => ?_⟩
    rw [hnone] at hlimit
    cases hlimit
  · rw [ends_bind, ends_get]
    refine (drainLoop_spec limit fault _ [] s).mono ?_ (fun _ _ h => h.elim)
    rintro result s' ⟨moved, hids, hmoves, hempty⟩
    rw [hids]
    exact ⟨hmoves, fun hnone => hempty hnone (Nat.lt_succ_self _)⟩

/-- The row that `submit` accepts now. -/
def accepted (user writer : String) (operations : List Operation) (s : Service) : ServiceRow :=
  ⟨s.draw s.drawn, user, writer, .queued, operations.length, operations, none, none, s.time, s.time⟩

private theorem submit_spec (user writer : String) (operations : List Operation) (s : Service) :
    Ends (submit user writer operations)
      (fun _ s' => (∀ r ∈ s.rows, r.submissionId ≠ s.draw s.drawn) ∧
        s'.rows = s.rows ++ [accepted user writer operations s])
      (fun _ s' => s'.rows = s.rows ∧ ¬∀ r ∈ s.rows, r.submissionId ≠ s.draw s.drawn) s := by
  unfold submit
  rw [ends_bind, ends_draw, ends_bind, ends_time, ends_bind, ends_get]
  refine Ends.ite (fun hused => ?_) (fun hfree => ?_)
  · rw [ends_bind, ends_throw]
    obtain ⟨r, hr, hid⟩ := List.any_eq_true.1 hused
    exact ⟨rfl, fun hall => hall r hr (of_decide_eq_true hid)⟩
  · unfold setRows
    rw [ends_bind, ends_modify, ends_pure]
    refine ⟨fun r hr hid => hfree ?_, rfl⟩
    exact List.any_eq_true.2 ⟨r, hr, decide_eq_true hid⟩

/-! ### Runs -/

/-- The calls that clients and the applier make. -/
inductive QueueCall
  | submit (user writer : String) (operations : List Operation)
  | applyNext (fault : Option Nat)
  | drain (limit : Option Int) (fault : Nat → Option Nat)

namespace QueueCall

/-- A call, with the submissions that it applies or fails. -/
def call : QueueCall → ServiceM (List ServiceSubmission)
  | .submit user writer operations => do
    let _ ← Service.submit user writer operations
    return []
  | .applyNext fault => do return (← Service.applyNext fault).toList
  | .drain limit fault => Service.drain limit fault

/-- The service after the call, and the ids of the submissions that it took out of the queue. -/
def outcome (c : QueueCall) (s : Service) : Service × List String :=
  match c.call s with
  | .ok taken s' => (s', taken.map (·.submissionId))
  | .error _ s' => (s', [])

/-- An accepted submission is stamped later than those of its writer that are still queued. -/
def stamped (s : Service) : QueueCall → Prop
  | .submit user writer operations => (∀ r ∈ s.rows, r.submissionId ≠ s.draw s.drawn) →
      ∀ r ∈ queuedRows user writer s.rows, r.stamp < (accepted user writer operations s).stamp
  | .applyNext _ => True
  | .drain _ _ => True

end QueueCall

/-- A sequence of calls, with the ids of the submissions that they take, in order. -/
def runQueue : List QueueCall → Service → Service × List String
  | [], s => (s, [])
  | c :: calls, s => ((runQueue calls (c.outcome s).1).1, (c.outcome s).2 ++ (runQueue calls (c.outcome s).1).2)

/-- Every submission of the run is stamped in order. -/
def Stamped : List QueueCall → Service → Prop
  | [], _ => True
  | c :: calls, s => c.stamped s ∧ Stamped calls (c.outcome s).1

private theorem runQueue_cons (c : QueueCall) (calls : List QueueCall) (s : Service) :
    runQueue (c :: calls) s =
      ((runQueue calls (c.outcome s).1).1, (c.outcome s).2 ++ (runQueue calls (c.outcome s).1).2) := rfl

private theorem stamped_cons (c : QueueCall) (calls : List QueueCall) (s : Service) :
    Stamped (c :: calls) s ↔ c.stamped s ∧ Stamped calls (c.outcome s).1 := Iff.rfl

private theorem runQueue_append (calls calls' : List QueueCall) (s : Service) :
    runQueue (calls ++ calls') s =
      ((runQueue calls' (runQueue calls s).1).1, (runQueue calls s).2 ++ (runQueue calls' (runQueue calls s).1).2) := by
  induction calls generalizing s with
  | nil => rfl
  | cons c calls ih =>
    rw [List.cons_append, runQueue_cons, ih, runQueue_cons, List.append_assoc]

private theorem stamped_append (calls calls' : List QueueCall) (s : Service) :
    Stamped (calls ++ calls') s ↔ Stamped calls s ∧ Stamped calls' (runQueue calls s).1 := by
  induction calls generalizing s with
  | nil => exact (and_iff_right trivial).symm
  | cons c calls ih =>
    rw [List.cons_append, stamped_cons, stamped_cons, ih, and_assoc, runQueue_cons]

/-- What a call does to the queue: it takes rows, or it accepts one. -/
private theorem outcome_cases (c : QueueCall) (s : Service) :
    (c.stamped s ∧ Moves s.rows (c.outcome s).2 (c.outcome s).1.rows) ∨
      ∃ user writer operations, c = .submit user writer operations ∧ (c.outcome s).2 = [] ∧
        (∀ r ∈ s.rows, r.submissionId ≠ s.draw s.drawn) ∧
        (c.outcome s).1.rows = s.rows ++ [accepted user writer operations s] := by
  have hends : Ends c.call
      (fun taken s' => (c.stamped s ∧ Moves s.rows (taken.map (·.submissionId)) s'.rows) ∨
        ∃ user writer operations, c = .submit user writer operations ∧ taken.map (·.submissionId) = [] ∧
          (∀ r ∈ s.rows, r.submissionId ≠ s.draw s.drawn) ∧
          s'.rows = s.rows ++ [accepted user writer operations s])
      (fun _ s' => c.stamped s ∧ s'.rows = s.rows) s := by
    cases c with
    | submit user writer operations =>
      unfold QueueCall.call
      rw [ends_bind]
      refine (submit_spec user writer operations s).mono ?_ ?_
      · rintro _ s' ⟨hfree, hrows⟩
        exact .inr ⟨user, writer, operations, rfl, rfl, hfree, hrows⟩
      · rintro _ s' ⟨hrows, hused⟩
        exact ⟨fun hfree => absurd hfree hused, hrows⟩
    | applyNext fault =>
      unfold QueueCall.call
      rw [ends_bind]
      refine (applyNext_spec fault).mono (fun result s' h => ?_) (fun _ _ h => h.elim)
      refine .inl ⟨trivial, ?_⟩
      rcases h with ⟨-, rfl, hrows⟩ | ⟨row, submission, htakes, rfl, hid⟩
      · rw [hrows]
        exact .none _
      · rw [Option.toList_some, List.map_singleton, hid]
        exact .take htakes (.none _)
    | drain limit fault =>
      refine (drain_spec limit fault s).mono (fun result s' h => ?_) (fun _ s' h => ?_)
      · exact .inl ⟨trivial, h.1⟩
      · exact ⟨trivial, h.1⟩
  unfold QueueCall.outcome
  unfold Ends at hends
  split at hends
  · rename_i taken s' hcall
    rw [hcall]
    exact hends
  · rename_i e s' hcall
    rw [hcall]
    refine .inl ⟨hends.1, ?_⟩
    rw [hends.2]
    exact .none _

private theorem outcome_kept (c : QueueCall) {s : Service} {taken : List String} (hkept : Kept s.rows taken) :
    Kept (c.outcome s).1.rows (taken ++ (c.outcome s).2) := by
  rcases outcome_cases c s with ⟨-, hmoves⟩ | ⟨user, writer, operations, -, htaken, hfree, hrows⟩
  · exact hmoves.kept hkept
  · rw [htaken, hrows, List.append_nil]
    exact kept_append hkept hfree

/-- One call: the order is right after it exactly when it was right before and the call is stamped in order. -/
private theorem outcome_inOrder (c : QueueCall) {s : Service} {taken : List String} (hkept : Kept s.rows taken) :
    (∀ user writer, InOrder user writer (c.outcome s).1.rows (taken ++ (c.outcome s).2)) ↔
      (∀ user writer, InOrder user writer s.rows taken) ∧ c.stamped s := by
  rcases outcome_cases c s with ⟨hstamped, hmoves⟩ | ⟨user, writer, operations, hcall, htaken, hfree, hrows⟩
  · simp only [hmoves.inOrder hkept, hstamped, and_true]
  · rw [htaken, hrows, List.append_nil]
    have hqueued : isQueued (accepted user writer operations s) = true := rfl
    simp only [inOrder_append hkept hqueued]
    rw [hcall]
    constructor
    · intro h
      refine ⟨fun user' writer' => (h user' writer').1, fun _ => (h user writer).2 ?_⟩
      simp [isOf, accepted]
    · rintro ⟨hin, hstamped⟩ user' writer'
      refine ⟨hin user' writer', fun hof => ?_⟩
      rw [isOf, Bool.and_eq_true] at hof
      obtain rfl := of_decide_eq_true hof.1
      obtain rfl := of_decide_eq_true hof.2
      exact hstamped hfree

private theorem run_inOrder (calls : List QueueCall) {s : Service} {taken : List String} (hkept : Kept s.rows taken) :
    (∀ user writer, InOrder user writer (runQueue calls s).1.rows (taken ++ (runQueue calls s).2)) ↔
      (∀ user writer, InOrder user writer s.rows taken) ∧ Stamped calls s := by
  induction calls generalizing s taken with
  | nil =>
    unfold runQueue Stamped
    rw [List.append_nil, and_true]
  | cons c calls ih =>
    rw [runQueue_cons, stamped_cons, ← List.append_assoc, ih (outcome_kept c hkept), outcome_inOrder c hkept, and_assoc]

/-- A full `drain` leaves nothing in the queue. -/
private theorem drained (fault : Nat → Option Nat) (s : Service) :
    ((QueueCall.drain none fault).outcome s).1.rows.filter isQueued = [] := by
  have hends := drain_spec none fault s
  unfold QueueCall.outcome QueueCall.call
  unfold Ends at hends
  dsimp only
  split at hends
  · rename_i taken s' hcall
    rw [hcall]
    exact hends.2 rfl
  · exact absurd rfl hends.2

/-- An empty queue is in order. -/
private theorem inOrder_of_nil {s : Service} (h : s.rows = []) (user writer : String) :
    InOrder user writer s.rows [] := by
  rw [h]
  exact ⟨rfl, .nil⟩

private theorem kept_of_nil {s : Service} (h : s.rows = []) : Kept s.rows [] := by
  rw [h]
  exact ⟨.nil, fun _ h => absurd h List.not_mem_nil⟩

/-- In a run from an empty queue that ends with a full `drain`, what a writer submits is taken in the order of
acceptance, at every point of the run, exactly when every submission is stamped later than those of its writer that are
queued at that time. -/
theorem fifo_iff_stamped (s : Service) (hempty : s.rows = []) (calls : List QueueCall) (fault : Nat → Option Nat) :
    (∀ done, done <+: calls ++ [.drain none fault] → ∀ user writer,
        Fifo user writer (runQueue done s).1.rows (runQueue done s).2) ↔
      Stamped calls s := by
  have hrun : ∀ calls, (∀ user writer, InOrder user writer (runQueue calls s).1.rows (runQueue calls s).2) ↔
      Stamped calls s := by
    intro calls
    have h := run_inOrder calls (kept_of_nil hempty)
    rw [List.nil_append] at h
    rw [h]
    exact and_iff_right (inOrder_of_nil hempty)
  have hlast : Stamped (calls ++ [.drain none fault]) s ↔ Stamped calls s := by
    rw [stamped_append]
    exact and_iff_left ⟨trivial, trivial⟩
  constructor
  · intro hfifo
    rw [← hlast, ← hrun]
    intro user writer
    refine ⟨hfifo _ List.prefix_rfl user writer, ?_⟩
    have hqueue : queuedRows user writer (runQueue (calls ++ [.drain none fault]) s).1.rows = [] := by
      have hnone := List.filter_eq_nil_iff.1 (drained fault (runQueue calls s).1)
      rw [runQueue_append]
      refine List.filter_eq_nil_iff.2 fun r hr => ?_
      have hstate : isQueued r = false := by simpa using hnone r hr
      rw [hstate, Bool.and_false]
      exact Bool.false_ne_true
    rw [hqueue]
    exact .nil
  · rintro hstamped done ⟨rest, hdone⟩ user writer
    rw [← hlast, ← hdone, stamped_append] at hstamped
    exact ((hrun done).2 hstamped.1 user writer).fifo

/-! ### Two submissions at one time -/

/-- An empty queue over an empty store.  The clock stands still, and the second identifier is less than the first. -/
def tied : Service :=
  { world := Ctxd.runCalls [.register "user" "writer" "d"] (emptyStore (fun _ => 0) 4000), rows := [], deletions := [],
    draw := fun n => if n = 0 then "b0000000-0000-4000-8000-000000000000" else "a0000000-0000-4000-8000-000000000000",
    drawn := 0, crash := none }

/-- A document is put and then deleted. -/
def putThenDelete : List QueueCall :=
  [.submit "user" "writer" [putText "1" "d/a" "x"], .submit "user" "writer" [.delete ⟨"1", "2"⟩],
    .drain none fun _ => none]

/-- The same store with a clock that goes on. -/
def ticking : Service := { tied with world := { tied.world with clock := fun n => n } }

theorem fifo_ticking :
    Fifo "user" "writer" (runQueue putThenDelete ticking).1.rows (runQueue putThenDelete ticking).2 := by
  have hsecond : ∀ r ∈ queuedRows "user" "writer"
      ((QueueCall.submit "user" "writer" [putText "1" "d/a" "x"]).outcome ticking).1.rows,
      r.stamp < (accepted "user" "writer" [.delete ⟨"1", "2"⟩]
        ((QueueCall.submit "user" "writer" [putText "1" "d/a" "x"]).outcome ticking).1).stamp := by
    decide +kernel
  refine (fifo_iff_stamped ticking rfl (putThenDelete.take 2) fun _ => none).2 ?_ putThenDelete List.prefix_rfl
    "user" "writer"
  exact ⟨fun _ _ h => absurd h List.not_mem_nil, fun _ => hsecond, trivial⟩

/-- The delete overtakes the put, and the document that it deletes is there in the end. -/
theorem overtaken :
    ¬Fifo "user" "writer" (runQueue putThenDelete tied).1.rows (runQueue putThenDelete tied).2 ∧
      ((runQueue putThenDelete tied).1.world.catalog.entryBySourceKey "user" "writer" "1").isSome = true := by
  unfold Fifo
  decide +kernel

end Service

end Ctxd

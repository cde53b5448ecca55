import Ctxd.GrepSize

/-!
# What the records of a scan show

A scan that starts fresh does with its records what their sights say (`scan_watch`).  What they show is read off the
sights alone (`showing`): the matches in their order, each with whether the catalog disagreed with a file up to it, and
how the scan ends when nothing ends it early.  A scan that has found its place shows the matches that come then, until
its page is full (`watch_short`, `watch_full`).
-/

namespace Ctxd

/-- What the sights of a scan show. -/
structure GrepShowing where
  /-- The matches, with whether some file up to the match disagrees with the catalog. -/
  found : List (GrepMatch × Bool)
  stoppedBy : Option StoppedBy
  catalogMismatch : Bool

def showing : Bool → List GrepSight → GrepShowing
  | mismatch, [] => ⟨[], none, mismatch⟩
  | mismatch, .tooLong :: _ => ⟨[], some .maxBytes, mismatch⟩
  | _, .unverified _ :: _ => ⟨[], some .catalogMismatch, true⟩
  | mismatch, .hit _ snapshot m :: rest =>
    let mismatch := mismatch || snapshot.catalogMismatch
    let shown := showing mismatch rest
    { shown with found := (m, mismatch) :: shown.found }
  | mismatch, .border _ :: rest => showing mismatch rest
  | mismatch, .nothing :: rest => showing mismatch rest

/-- What is shown behind the first matches. -/
def GrepShowing.behind (shown : GrepShowing) (n : Nat) : GrepShowing := { shown with found := shown.found.drop n }

/-- Nothing among the sights ends the scan. -/
def Quiet (sights : List GrepSight) : Prop := ∀ sight ∈ sights, sight ≠ .tooLong ∧ ∀ path, sight ≠ .unverified path

/-- Two matches of a file have their own positions. -/
def GrepSight.Apart (a b : GrepSight) : Prop :=
  ∀ path snapshot snapshot' m m', a = .hit path snapshot m → b = .hit path snapshot' m' → m.position ≠ m'.position

/-! ### A scan by its sights -/

/-- A scan goes on after a record, unless it is over. -/
def GrepConsumed.andThen (c : GrepConsumed) (f : GrepScan → GrepConsumed) : GrepConsumed :=
  match c with
  | .next s => f s
  | .done result => .done result
  | .late s => .late s
  | .raised e => .raised e

theorem GrepTarget.scan_cons (t : GrepTarget) (s : GrepScan) (r : RgRecord) (records : List RgRecord) :
    t.scan none s (r :: records) = (t.consumeRecord none s r).andThen fun s => t.scan none s records := rfl

namespace GrepSearch

variable {search : GrepSearch} {limit : Nat} {resume : Option GrepCursor}

/-- A scan without a deadline does what the sights of its records say. -/
theorem scan_watch {s : GrepScan} {records : List RgRecord} (hreports : ∀ r ∈ records, search.Reports r)
    (hordered : records.Pairwise RgRecord.Before) (hcached : s.Cached search.store records) :
    ((search.target limit resume).scan none s records).forget =
      (search.target limit resume).watch s.forget (records.map search.store.sight) := by
  induction records generalizing s with
  | nil => rfl
  | cons r records ih =>
    rw [List.pairwise_cons] at hordered
    obtain ⟨hconsume, hkept⟩ := @consumeRecord_sight search limit resume s r records
      (hreports r (List.mem_cons_self ..)) hordered.1 hcached
    rw [List.map_cons, GrepTarget.watch, ← hconsume, GrepTarget.scan_cons]
    cases hnext : (search.target limit resume).consumeRecord none s r with
    | next s' => exact ih (fun r' hr' => hreports r' (List.mem_cons_of_mem _ hr')) hordered.2 (hkept s' hnext)
    | done result => rfl
    | late s' => rfl
    | raised e => rfl

theorem startScan_cached (t : GrepTarget) (inherited : Bool) (records : List RgRecord) :
    (startScan t inherited).Cached search.store records := by
  rintro snapshot ⟨⟩

/-! ### Hits -/

/-- What is known of a verified match and of its file. -/
structure Hit (search : GrepSearch) (path : String) (snapshot : GrepFileSnapshot) (m : GrepMatch) : Prop where
  normal : Normalized path
  inside : search.pre = "" ∨ pathIsWithinPrefix path search.pre = .ok true
  taken : snapshot = snapshotGrepFile search.store path (treePath path)
  path : m.path = path
  hash : m.contentHash = snapshot.contentHash
  shown : search.store.Shows search.pre m

theorem hit_of_sight {r : RgRecord} {path : String} {snapshot : GrepFileSnapshot} {m : GrepMatch}
    (hr : search.Reports r) (h : search.store.sight r = .hit path snapshot m) :
    search.Hit path snapshot m ∧
      ∃ data, r = .event .matched (some (treePath path)) data ∧ snapshot.Accepts data m := by
  cases r with
  | oversized | malformed | other | invalid => cases h
  | event type tree data =>
    obtain ⟨logicalPath, hnormal, rfl, hinside, -⟩ := hr
    rw [sight_event hnormal] at h
    cases type with
    | began | ended => cases h
    | matched =>
      cases hverify : search.store.verify logicalPath data with
      | none =>
        rw [hverify] at h
        cases h
      | some m' =>
        rw [hverify] at h
        cases h
        unfold GrepStore.verify at hverify
        dsimp only at hverify
        split at hverify
        swap
        · cases hverify
        split at hverify
        swap
        · cases hverify
        rename_i found lines hfound
        subst hverify
        obtain ⟨_, _, _, _, _, -, -, -, -, -, -, -, -, hm⟩ := verifiedGrepMatch_some hfound
        have hpath : m.path = path := (congrArg GrepMatch.path hm).trans (snapshotGrepFile_logicalPath _ _ _)
        have hhash := congrArg GrepMatch.contentHash hm
        refine ⟨⟨hnormal, hinside, rfl, hpath, hhash, .inr (by rwa [hpath]), _, _, _, _, _, hfound⟩, data, rfl, ?_⟩
        exact ⟨.fresh, lines, RgLineNumberState.fresh_counts _, hfound⟩

/-- The files with matches have no NUL. -/
def NulFree (search : GrepSearch) : Prop :=
  ∀ path data, .event .matched (some (treePath path)) data ∈ search.rg.records →
    0 ∉ (snapshotGrepFile search.store path (treePath path)).data

theorem sights_apart (hprinted : search.Printed) (hnul : search.NulFree) :
    (search.rg.records.map search.store.sight).Pairwise GrepSight.Apart := by
  rw [List.pairwise_map]
  refine hprinted.ordered.imp_of_mem fun {r r'} hr hr' hbefore => ?_
  intro path snapshot snapshot' m m' h h'
  obtain ⟨hhit, data, rfl, haccepts⟩ := hit_of_sight (hprinted.reports r hr) h
  obtain ⟨hhit', data', rfl, haccepts'⟩ := hit_of_sight (hprinted.reports r' hr') h'
  rw [hhit'.taken] at haccepts'
  rw [hhit.taken] at haccepts
  have hless := lineNumber_lt_of_accepts (hnul path data hr) haccepts haccepts' (hbefore rfl)
  intro hsame
  have hline : m.lineNumber = m'.lineNumber := congrArg Prod.fst hsame
  omega

end GrepSearch

/-! ### A scan that has found its place -/

/-- The scan has found its place and shows what comes in the order of the records. -/
structure GrepTarget.Shows (t : GrepTarget) (s : GrepScan) : Prop where
  found : s.anchorFound = true
  direct : legacyLogicalResume t.resume = false
  replayed : legacyFileStart t.resume = true → s.resumeReplayComplete = true

namespace GrepTarget

variable {t : GrepTarget} {s : GrepScan}

private theorem Shows.arrive (h : t.Shows s) : t.arrive s = s := by
  unfold GrepTarget.arrive
  cases hstart : legacyFileStart t.resume with
  | false => rw [Bool.or_false]
  | true =>
    have hreplayed := h.replayed hstart
    rw [hreplayed, Bool.true_or, ← hreplayed]

private theorem Shows.replays (h : t.Shows s) (path : String) : t.replays s path = false := by
  unfold GrepTarget.replays
  cases hstart : legacyFileStart t.resume with
  | false => rfl
  | true => rw [h.replayed hstart]; rfl

private theorem Shows.skips (h : t.Shows s) (path : String) : t.skips s path = false := by
  unfold GrepTarget.skips
  rw [h.direct, h.found]
  simp

private theorem Shows.accept (h : t.Shows s) (snapshot : GrepFileSnapshot) (m : GrepMatch) :
    t.accept s snapshot m = t.append s m := by
  have hdirect := h.direct
  unfold GrepTarget.accept
  cases hresume : t.resume with
  | none => simp only [h.found, if_true]
  | some cursor =>
    rw [hresume] at hdirect
    simp only [hdirect, h.found, if_true, Bool.false_eq_true, if_false]

private theorem Shows.with_mismatch (h : t.Shows s) (mismatch : Bool) :
    t.Shows { s with catalogMismatch := mismatch } :=
  ⟨h.found, h.direct, h.replayed⟩

/-- One record of such a scan. -/
theorem Shows.consume (h : t.Shows s) (sight : GrepSight) : t.consume s sight =
    match sight with
    | .tooLong => .done (s.result (some .maxBytes) none)
    | .nothing | .border _ => .next s
    | .hit _ snapshot m => t.append { s with catalogMismatch := s.catalogMismatch || snapshot.catalogMismatch } m
    | .unverified _ => .done ({ s with catalogMismatch := true }.result (some .catalogMismatch) none) := by
  cases sight with
  | tooLong | nothing => rfl
  | border path => simp only [GrepTarget.consume, h.replays, h.arrive, Bool.false_eq_true, if_false]
  | hit path snapshot m =>
    simp only [GrepTarget.consume, h.replays, h.arrive, h.skips, Bool.false_eq_true, if_false]
    exact (h.with_mismatch _).accept snapshot m
  | unverified path => simp only [GrepTarget.consume, h.replays, h.arrive, h.skips, Bool.false_eq_true, if_false]

/-- A match that does not fill the page. -/
theorem append_room {m : GrepMatch} (hroom : s.grepMatches.length + 1 < t.limit) :
    t.append s m = .next { s with grepMatches := s.grepMatches ++ [m], lastMatch := some m } := by
  unfold append
  dsimp only
  rw [if_neg (by rw [List.length_append, List.length_singleton]; omega)]

/-- The scan reads everything, or it is stopped by what it reads. -/
theorem watch_short {sights : List GrepSight} (h : t.Shows s)
    (hroom : s.grepMatches.length + (showing s.catalogMismatch sights).found.length < t.limit) :
    ∃ last, t.watch s sights =
      let s' := { s with
        grepMatches := s.grepMatches ++ (showing s.catalogMismatch sights).found.map Prod.fst
        catalogMismatch := (showing s.catalogMismatch sights).catalogMismatch
        lastMatch := last }
      match (showing s.catalogMismatch sights).stoppedBy with
      | none => .next s'
      | some stoppedBy => .done (s'.result (some stoppedBy) none) := by
  induction sights generalizing s with
  | nil =>
    refine ⟨s.lastMatch, ?_⟩
    simp only [watch, showing, List.map_nil, List.append_nil]
  | cons sight rest ih =>
    rw [watch, h.consume]
    cases sight with
    | tooLong =>
      refine ⟨s.lastMatch, ?_⟩
      simp only [showing, List.map_nil, List.append_nil]
    | unverified path =>
      refine ⟨s.lastMatch, ?_⟩
      simp only [showing, List.map_nil, List.append_nil]
    | nothing => exact ih h hroom
    | border path => exact ih h hroom
    | hit path snapshot m =>
      have hlength : s.grepMatches.length + 1 < t.limit := by
        simp only [showing, List.length_cons] at hroom
        omega
      dsimp only
      rw [append_room (s := { s with catalogMismatch := s.catalogMismatch || snapshot.catalogMismatch }) hlength]
      have hnext : t.Shows { s with
          catalogMismatch := s.catalogMismatch || snapshot.catalogMismatch
          grepMatches := s.grepMatches ++ [m]
          lastMatch := some m } := ⟨h.found, h.direct, h.replayed⟩
      obtain ⟨last, hlast⟩ := ih hnext (by
        simp only [showing, List.length_cons] at hroom
        simp only [List.length_append, List.length_singleton]
        omega)
      refine ⟨last, ?_⟩
      dsimp only at hlast ⊢
      rw [hlast]
      simp only [showing, List.map_cons, List.append_assoc, List.singleton_append]

/-- The page is full before everything is read. -/
theorem watch_full {sights : List GrepSight} {i : Nat} {m : GrepMatch} {mismatch : Bool} (h : t.Shows s)
    (hat : (showing s.catalogMismatch sights).found[i]? = some (m, mismatch))
    (hlimit : s.grepMatches.length + i + 1 = t.limit) :
    t.watch s sights =
      match grepCursorForMatch t.pre t.patternHash m mismatch .afterMatch with
      | .ok cursor => .done
          ⟨s.grepMatches ++ ((showing s.catalogMismatch sights).found.take (i + 1)).map Prod.fst, some .limit, true,
            some cursor, mismatch⟩
      | .error e => .raised e := by
  induction sights generalizing s i with
  | nil => simp [showing] at hat
  | cons sight rest ih =>
    rw [watch, h.consume]
    cases sight with
    | tooLong => simp [showing] at hat
    | unverified path => simp [showing] at hat
    | nothing => exact ih h hat hlimit
    | border path => exact ih h hat hlimit
    | hit path snapshot m' =>
      dsimp only
      cases i with
      | zero =>
        simp only [showing, List.getElem?_cons_zero, Option.some.injEq, Prod.mk.injEq] at hat
        obtain ⟨rfl, rfl⟩ := hat
        unfold append
        dsimp only
        rw [if_pos (by rw [List.length_append, List.length_singleton]; omega)]
        cases grepCursorForMatch t.pre t.patternHash m' (s.catalogMismatch || snapshot.catalogMismatch) .afterMatch with
        | error e => rfl
        | ok cursor => simp [showing, GrepScan.result, h.found]
      | succ i =>
        simp only [showing, List.getElem?_cons_succ] at hat
        rw [append_room (s := { s with catalogMismatch := s.catalogMismatch || snapshot.catalogMismatch })
          (by dsimp only; omega)]
        have hnext : t.Shows { s with
            catalogMismatch := s.catalogMismatch || snapshot.catalogMismatch
            grepMatches := s.grepMatches ++ [m']
            lastMatch := some m' } := ⟨h.found, h.direct, h.replayed⟩
        dsimp only
        rw [ih hnext hat (by simp only [List.length_append, List.length_singleton]; omega)]
        simp [showing]

end GrepTarget

end Ctxd

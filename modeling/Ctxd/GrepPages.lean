import Ctxd.GrepVerified

/-!
# Searches that read all pages

`AsyncCtxfsClient.grep` and `_execute_ctxfs_grep` hide the pages of a search.  They ask for one page after another, and
answer only when a page is complete or the caller's limit is reached; whatever else ends a page makes them raise.  Both
are the loop `readPages`, which differs in the limit that a page is asked for.

The server is any function that answers the calls in turn, and so is the clock; no law of the numbers of seconds is
used, since they are floating-point numbers.
-/

namespace Ctxd

/-! ### `GrepTimeoutBudget` -/

def StoppedBy.text : StoppedBy → String
  | .limit => "limit"
  | .timeout => "timeout"
  | .maxBytes => "max_bytes"
  | .catalogMismatch => "catalog_mismatch"

/-- What a search that reads all pages raises: `CtxdIncompleteSearchError`, or what the server answers. -/
inductive SearchError (ε : Type)
  | incomplete (message : String)
  | raised (e : ε)
  deriving DecidableEq, Repr

variable {ε T : Type}

def incompleteGrepError (stoppedBy : Option StoppedBy) : SearchError ε :=
  let reason := (stoppedBy.map StoppedBy.text).getD "an unknown safety bound"
  .incomplete (s!"ctxfs grep stopped because of {reason} and cannot provide an exhaustive result; " ++
    "narrow the prefix or pattern and retry")

/-- `DEFAULT_GREP_TIMEOUT_SECONDS`, `MIN_GREP_TIMEOUT_SECONDS`, and the readings of the monotonic clock. -/
structure Timing (T : Type) where
  defaultTimeout : T
  minTimeout : T
  monotonic : Nat → T

structure GrepTimeoutBudget (T : Type) where
  deadline : T

/-- `GrepTimeoutBudget.start`, with the first reading of the clock. -/
def GrepTimeoutBudget.start [Add T] (timing : Timing T) (timeoutSeconds : Option T) : GrepTimeoutBudget T :=
  ⟨timing.monotonic 0 + timeoutSeconds.getD timing.defaultTimeout⟩

/-- `GrepTimeoutBudget.remaining`, with a later reading of the clock. -/
def GrepTimeoutBudget.remaining [Sub T] [LT T] [DecidableLT T] (timing : Timing T) (budget : GrepTimeoutBudget T)
    (reading : Nat) : Except (SearchError ε) T := do
  let remaining := budget.deadline - timing.monotonic reading
  if remaining < timing.minTimeout then throw (incompleteGrepError (some .timeout))
  return remaining

/-! ### The loop over the pages -/

/-- The query of a page; what is missing is filled in by the server. -/
structure PageRequest (T : Type) where
  pattern : String
  pre : String
  limit : Option Int
  timeoutSeconds : Option T
  cursor : Option CursorText

/-- The answer to each call, the first one being number 0. -/
abbrev PageServer (ε T : Type) := Nat → PageRequest T → Except ε GrepPage

/-- `CtxfsGrepResult`. -/
structure CtxfsGrepResult where
  items : List GrepMatch
  complete : Bool
  stoppedBy : Option StoppedBy
  deriving DecidableEq, Repr

/-- `_GREP_MAX_TRANSPORT_PAGES`. -/
def grepMaxTransportPages : Nat := 100

/-- What a search that reads all pages is asked for. -/
structure PagedSearch (T : Type) where
  pattern : String
  pre : String
  limit : Option Int
  timeoutSeconds : Option T

def continuationLimitError : SearchError ε :=
  .incomplete "ctxfs grep exceeded its continuation safety limit; narrow the prefix or pattern and retry"

section

variable [Add T] [Sub T] [LT T] [DecidableLT T]

/-- The rounds of the loop; `pageLimit` is the limit of a page when so many items have been read. -/
def readPages (server : PageServer ε T) (timing : Timing T) (search : PagedSearch T) (budget : GrepTimeoutBudget T)
    (pageLimit : Nat → Option Int) :
    Nat → Nat → List GrepMatch → Option T → Option CursorText → Except (SearchError ε) CtxfsGrepResult
  | 0, _, _, _, _ => .error continuationLimitError
  | rounds + 1, round, items, pageTimeout, cursor => do
    let page ← (server round ⟨search.pattern, search.pre, pageLimit items.length, pageTimeout, cursor⟩).mapError .raised
    let items := items ++ page.items
    if page.complete then return ⟨items, true, page.stoppedBy⟩
    if page.stoppedBy = some .limit && search.limit.isSome then return ⟨items, true, some .limit⟩
    if page.stoppedBy = some .timeout then throw (incompleteGrepError (some .timeout))
    match page.nextCursor with
    | none => throw (incompleteGrepError page.stoppedBy)
    | some cursor => do
      let pageTimeout ← budget.remaining timing (round + 1)
      readPages server timing search budget pageLimit rounds (round + 1) items (some pageTimeout) (some cursor)

/-- `AsyncCtxfsClient.grep`. -/
def clientGrep (server : PageServer ε T) (timing : Timing T) (search : PagedSearch T) :
    Except (SearchError ε) CtxfsGrepResult :=
  let pageLimit := fun items : Nat => search.limit.map fun limit : Int => max 1 (limit - items)
  readPages server timing search (.start timing search.timeoutSeconds) pageLimit grepMaxTransportPages 0 []
    search.timeoutSeconds none

/-- `_execute_ctxfs_grep`, with the store as the server. -/
def executeCtxfsGrep (server : PageServer ε T) (timing : Timing T) (search : PagedSearch T) :
    Except (SearchError ε) CtxfsGrepResult :=
  let pageLimit := fun items : Nat => some ((search.limit.map fun limit : Int => max 1 (limit - items)).getD 1000)
  readPages server timing search (.start timing search.timeoutSeconds) pageLimit grepMaxTransportPages 0 []
    search.timeoutSeconds none

end

/-! ### Servers that keep to the protocol -/

/-- How a page ends that was asked for with this limit. -/
structure GrepPage.Shaped (limit : Nat) (page : GrepPage) : Prop where
  bounded : page.items.length ≤ limit
  full : page.stoppedBy = some .limit → page.items.length = limit
  complete : page.complete = true → page.nextCursor = none
  /-- A page that goes on for another reason than its limit is not full. -/
  short : page.nextCursor.isSome = true → page.stoppedBy ≠ some .limit → page.stoppedBy ≠ some .timeout →
    page.items.length < limit

/-- The page shows the matches from this place on, and its cursor names the place after them. -/
structure GrepPage.Chained (found : List GrepMatch) (place : CursorText → Nat) (start : Nat) (page : GrepPage) :
    Prop where
  items : page.items <+: found.drop start
  all : page.complete = true → page.items = found.drop start
  next : ∀ cursor, page.nextCursor = some cursor → place cursor = start + page.items.length

/-- The limit of a page when the query has none. -/
def defaultPageLimit : Nat := 1000

/-- Every page that the server returns is one of a scan with these matches. -/
def Conforms (found : List GrepMatch) (server : PageServer ε T) : Prop :=
  ∃ place : CursorText → Nat, ∀ round request page, server round request = .ok page →
    page.Shaped ((request.limit.map Int.toNat).getD defaultPageLimit) ∧
      page.Chained found place ((request.cursor.map place).getD 0)

/-! ### The pages of the store -/

/-- How a scan ends whose page has this limit. -/
structure GrepScanResult.Shaped (limit : Nat) (result : GrepScanResult) : Prop where
  bounded : result.grepMatches.length ≤ limit
  full : result.stoppedBy = some .limit → result.grepMatches.length = limit
  continued : result.nextCursor.isSome = true → result.stoppedBy = some .limit ∨ result.stoppedBy = some .timeout

/-- A scan goes on only while its page is not full. -/
def GrepConsumed.Shaped (limit : Nat) : GrepConsumed → Prop
  | .next s => s.grepMatches.length < limit
  | .late s => s.grepMatches.length < limit
  | .done result => result.Shaped limit
  | .raised _ => True

namespace GrepTarget

variable {t : GrepTarget} {s : GrepScan}

/-- A page that is cut short is not full and cannot be continued. -/
private theorem shaped_stopped (h : s.grepMatches.length < t.limit) (stoppedBy : Option StoppedBy)
    (hother : stoppedBy ≠ some .limit) :
    (s.result stoppedBy none).Shaped t.limit :=
  ⟨h.le, fun hstopped => absurd hstopped hother, fun hnext => by cases hnext⟩

private theorem append_shaped (h : s.grepMatches.length < t.limit) (m : GrepMatch) : (t.append s m).Shaped t.limit := by
  have hlength : (s.grepMatches ++ [m]).length = s.grepMatches.length + 1 := List.length_append
  unfold append
  dsimp only
  by_cases hfull : t.limit ≤ (s.grepMatches ++ [m]).length
  · rw [if_pos hfull]
    have hexact : (s.grepMatches ++ [m]).length = t.limit := by omega
    split
    · exact ⟨hexact.le, fun _ => hexact, fun _ => .inl rfl⟩
    · trivial
  · rw [if_neg hfull]
    show (s.grepMatches ++ [m]).length < t.limit
    omega

private theorem accept_shaped (h : s.grepMatches.length < t.limit) (snapshot : GrepFileSnapshot) (m : GrepMatch) :
    (t.accept s snapshot m).Shaped t.limit := by
  unfold accept
  cases t.resume with
  | none =>
    dsimp only
    split
    · exact append_shaped h m
    · trivial
  | some cursor =>
    dsimp only
    split
    · split
      · exact h
      split
      · exact h
      · exact h
    split
    · exact append_shaped h m
    split
    · trivial
    split
    · exact append_shaped (s := { s with anchorFound := true }) h m
    split
    · exact h
    · exact h

private theorem look_grepMatches (moment : Option GrepMoment) (logicalPath : String) (treePath : TreePath)
    (data : RgMatchData) :
    (∀ s' snapshot m, s.look t.store moment logicalPath treePath data = .seen s' snapshot m →
        s'.grepMatches = s.grepMatches) ∧
      (∀ s', s.look t.store moment logicalPath treePath data = .unverified s' → s'.grepMatches = s.grepMatches) ∧
      ∀ s', s.look t.store moment logicalPath treePath data = .late s' → s'.grepMatches = s.grepMatches := by
  unfold GrepScan.look
  dsimp only
  split
  · refine ⟨fun s' snapshot m heq => ?_, fun s' heq => ?_, fun s' heq => ?_⟩ <;> cases heq
    rfl
  split
  · refine ⟨fun s' snapshot m heq => ?_, fun s' heq => ?_, fun s' heq => ?_⟩ <;> cases heq
    rfl
  split
  · refine ⟨fun s' snapshot m heq => ?_, fun s' heq => ?_, fun s' heq => ?_⟩ <;> cases heq
    rfl
  split
  · refine ⟨fun s' snapshot m heq => ?_, fun s' heq => ?_, fun s' heq => ?_⟩ <;> cases heq
  · refine ⟨fun s' snapshot m heq => ?_, fun s' heq => ?_, fun s' heq => ?_⟩ <;> cases heq
    rfl
  · refine ⟨fun s' snapshot m heq => ?_, fun s' heq => ?_, fun s' heq => ?_⟩ <;> cases heq
    rfl

private theorem consumeEvent_shaped (h : s.grepMatches.length < t.limit) (moment : Option GrepMoment)
    (logicalPath : String) (treePath : TreePath) (data : RgMatchData) (type : RgEventType) :
    (t.consumeEvent moment s logicalPath treePath data type).Shaped t.limit := by
  cases type with
  | began => exact h
  | ended =>
    unfold consumeEvent
    dsimp only
    split
    · exact h
    · exact h
  | matched =>
    obtain ⟨hseen, hunverified, hlate⟩ := look_grepMatches (t := t)
      (s := { s with active := { s.active with path := some logicalPath } }) moment logicalPath treePath data
    unfold consumeEvent
    dsimp only
    split
    · exact h
    split
    · rename_i heq
      refine accept_shaped ?_ _ _
      rw [hseen _ _ _ heq]
      exact h
    · rename_i heq
      refine shaped_stopped ?_ _ (by simp)
      rw [hunverified _ heq]
      exact h
    · rename_i s' heq
      show s'.grepMatches.length < t.limit
      rw [hlate _ heq]
      exact h
    · trivial

private theorem consumeRecord_shaped (h : s.grepMatches.length < t.limit) (moment : Option GrepMoment)
    (record : RgRecord) :
    (t.consumeRecord moment s record).Shaped t.limit := by
  unfold consumeRecord
  split
  · exact shaped_stopped h _ (by simp)
  · trivial
  · exact h
  · trivial
  · split
    · trivial
    split
    · exact h
    · exact consumeEvent_shaped (s := { s with
        resumeReplayComplete := s.resumeReplayComplete || legacyFileStart t.resume }) h _ _ _ _ _

private theorem scan_shaped (expiry : Option (Nat × Option GrepMoment)) (records : List RgRecord)
    (h : s.grepMatches.length < t.limit) : (t.scan expiry s records).Shaped t.limit := by
  induction records generalizing expiry s with
  | nil =>
    unfold scan
    split
    · exact h
    · exact h
    · rename_i heq
      cases heq
  | cons record rest ih =>
    unfold scan
    split
    · exact h
    · rename_i heq
      cases heq
    · rename_i heq
      cases heq
      dsimp only
      split
      · rename_i next hnext
        have hs : GrepConsumed.Shaped t.limit (.next next) := hnext ▸ consumeRecord_shaped h _ record
        exact ih _ hs
      · rename_i hdone
        rw [← hdone]
        exact consumeRecord_shaped h _ record
      · rename_i hlate
        rw [← hlate]
        exact consumeRecord_shaped h _ record
      · trivial

private theorem timedOut_shaped (h : s.grepMatches.length < t.limit) {result : GrepScanResult}
    (hresult : t.timedOut s = .ok result) : result.Shaped t.limit := by
  obtain ⟨cursor, -, hresult⟩ := Program.bind_eq_ok.1 hresult
  cases hresult
  refine ⟨?_, fun hstopped => (by cases hstopped), fun _ => .inr rfl⟩
  show (if legacyLogicalResume t.resume then [] else s.grepMatches).length ≤ t.limit
  split
  · exact Nat.zero_le _
  · exact h.le

private theorem finish_shaped (h : s.grepMatches.length < t.limit) {returncode : Int} {result : GrepScanResult}
    (hresult : t.finish returncode s = .ok result) : result.Shaped t.limit := by
  unfold finish at hresult
  by_cases hfound : (!s.anchorFound) = true
  · rw [if_pos hfound] at hresult
    cases hresult
  rw [if_neg hfound] at hresult
  by_cases hcode : (decide (returncode ≠ 0) && decide (returncode ≠ 1)) = true
  · rw [if_pos hcode] at hresult
    cases hresult
  rw [if_neg hcode] at hresult
  by_cases hlegacy : legacyLogicalResume t.resume = true
  · rw [if_pos hlegacy] at hresult
    have hbounded : (s.legacyCandidates.take t.limit).length ≤ t.limit := List.length_take_le _ _
    dsimp only at hresult
    split at hresult
    · -- There is a candidate beyond the page, so the page is full.
      rename_i hmore _
      obtain ⟨cursor, -, hresult⟩ := Program.bind_eq_ok.1 hresult
      cases hresult
      have hless := (List.getElem?_eq_some_iff.1 hmore).1
      have hexact : (s.legacyCandidates.take t.limit).length = t.limit := by
        rw [List.length_take]
        omega
      exact ⟨hexact.le, fun _ => hexact, fun _ => .inl rfl⟩
    · cases hresult
      exact ⟨hbounded, fun hstopped => (by cases hstopped), fun hnext => (by cases hnext)⟩
  · rw [if_neg hlegacy] at hresult
    cases hresult
    exact shaped_stopped h _ (by simp)

end GrepTarget

namespace GrepSearch

variable {search : GrepSearch} {limit : Nat} {resume : Option GrepCursor} {expiry : Option GrepExpiry}
  {result : GrepScanResult}

private theorem lateAnchor_shaped {t : GrepTarget} {inherited : Bool} (hlimit : 0 < t.limit)
    (h : lateAnchor t inherited = .ok result) : result.Shaped t.limit := by
  unfold lateAnchor at h
  dsimp only at h
  split at h
  · cases h
  · exact GrepTarget.timedOut_shaped
      (t := { t with resumeSnapshot := some (unreadableFile t.resumePath t.resumeTreePath) })
      (s := startScan _ inherited) hlimit h

private theorem grepTreeTarget_shaped {inherited : Bool} (hlimit : 0 < limit)
    (h : search.grepTreeTarget limit resume inherited expiry = .ok result) : result.Shaped limit := by
  have hscan := GrepTarget.scan_shaped (t := search.target limit resume)
    (s := startScan (search.target limit resume) inherited) (GrepExpiry.inScan expiry) search.rg.records hlimit
  have hempty : ∀ found next mismatch, GrepScanResult.Shaped limit ⟨[], some .timeout, found, next, mismatch⟩ :=
    fun found next mismatch => ⟨Nat.zero_le _, fun hstopped => (by cases hstopped), fun _ => .inr rfl⟩
  unfold grepTreeTarget at h
  dsimp only at h
  by_cases hstart : expiry = some .start
  · rw [if_pos hstart] at h
    cases h
    exact hempty _ _ _
  rw [if_neg hstart] at h
  by_cases hanchor : ((search.target limit resume).resumeSnapshot.isSome && decide (expiry = some .anchor)) = true
  · rw [if_pos hanchor] at h
    exact lateAnchor_shaped (t := search.target limit resume) hlimit h
  rw [if_neg hanchor] at h
  by_cases hstale : staleAnchor (search.target limit resume) = true
  · rw [if_pos hstale] at h
    cases h
  rw [if_neg hstale] at h
  split at h
  · rename_i hdone
    cases h
    rw [hdone] at hscan
    exact hscan
  · cases h
  · rename_i hlate
    rw [hlate] at hscan
    exact GrepTarget.timedOut_shaped hscan h
  · rename_i hnext
    rw [hnext] at hscan
    by_cases hexit : expiry = some .exit
    · rw [if_pos hexit] at h
      exact GrepTarget.timedOut_shaped hscan h
    · rw [if_neg hexit] at h
      exact GrepTarget.finish_shaped hscan h

private theorem pageResult_shaped (hlimit : 0 < limit) (h : search.pageResult limit resume expiry = .ok result) :
    result.Shaped limit := by
  unfold pageResult at h
  obtain ⟨present, -, h⟩ := Program.bind_eq_ok.1 h
  cases present with
  | true =>
    obtain ⟨result', hresult, h⟩ := Program.bind_eq_ok.1 h
    split at h
    · cases h
    cases h
    exact grepTreeTarget_shaped hlimit hresult
  | false =>
    by_cases hsome : (resume.filter fun cursor => cursor.mode ≠ .searchStart).isSome = true
    · simp only [Bool.false_eq_true, if_false, hsome, if_true] at h
      cases h
    · simp only [Bool.false_eq_true, if_false, hsome] at h
      cases h
      exact ⟨Nat.zero_le _, fun hstopped => (by cases hstopped), fun hnext => (by cases hnext)⟩

/-- The pages of the store end as the loop expects it. -/
theorem grep_shaped {limit : Int} {cursor : Option CursorText} {page : GrepPage}
    (h : search.grep limit cursor expiry = .ok page) : page.Shaped limit.toNat := by
  unfold grep at h
  by_cases hlimit : limit ≤ 0
  · rw [if_pos hlimit] at h
    cases h
  rw [if_neg hlimit] at h
  by_cases hvalid : (decide (search.pre ≠ "") && !decide (Normalized search.pre)) = true
  · rw [if_pos hvalid] at h
    cases h
  rw [if_neg hvalid] at h
  obtain ⟨resume, -, h⟩ := Program.bind_eq_ok.1 h
  by_cases hvalidation : expiry = some .validation
  · rw [if_pos hvalidation] at h
    obtain ⟨text, -, h⟩ := Program.bind_eq_ok.1 h
    cases h
    exact ⟨Nat.zero_le _, fun hstopped => (by cases hstopped), fun hcomplete => (by cases hcomplete),
      fun _ _ htimeout => absurd rfl htimeout⟩
  rw [if_neg hvalidation] at h
  by_cases hpattern : search.rg.validation = 2
  · rw [if_pos hpattern] at h
    cases h
  rw [if_neg hpattern] at h
  by_cases hfailed : (decide (search.rg.validation ≠ 0) && decide (search.rg.validation ≠ 1)) = true
  · rw [if_pos hfailed] at h
    cases h
  rw [if_neg hfailed] at h
  obtain ⟨result, hresult, h⟩ := Program.bind_eq_ok.1 h
  have hshaped := pageResult_shaped (by omega) hresult
  dsimp only at h
  -- The page is the result, and it has a cursor only if the result has one.
  obtain ⟨next, rfl, hnext⟩ : ∃ next, page = ⟨result.grepMatches,
      (result.stoppedBy <|> if result.catalogMismatch then some StoppedBy.catalogMismatch else none).isNone,
      result.stoppedBy <|> if result.catalogMismatch then some .catalogMismatch else none, next⟩ ∧
      (next.isSome = true → result.nextCursor.isSome = true) := by
    split at h
    · cases h
      exact ⟨none, rfl, fun hnext => by cases hnext⟩
    · rename_i hcursor
      split at h
      · cases h
        exact ⟨cursor, rfl, fun _ => by rw [hcursor]; rfl⟩
      · obtain ⟨text, -, h⟩ := Program.bind_eq_ok.1 h
        cases h
        exact ⟨some text, rfl, fun _ => by rw [hcursor]; rfl⟩
  have hstopped : ∀ stopped, result.stoppedBy = some stopped →
      (result.stoppedBy <|> if result.catalogMismatch then some .catalogMismatch else none) = some stopped := by
    intro stopped heq
    rw [heq]
    rfl
  refine ⟨hshaped.bounded, fun hlimited => ?_, fun hcomplete => ?_, fun hsome hother htimeout => ?_⟩
  · refine hshaped.full ?_
    dsimp only at hlimited
    cases heq : result.stoppedBy with
    | some stopped =>
      rw [hstopped _ heq] at hlimited
      exact hlimited
    | none =>
      rw [heq] at hlimited
      cases hmismatch : result.catalogMismatch <;> rw [hmismatch] at hlimited <;> cases hlimited
  · dsimp only at hcomplete ⊢
    cases next with
    | none => rfl
    | some text =>
      rcases hshaped.continued (hnext rfl) with heq | heq <;> rw [hstopped _ heq] at hcomplete <;> cases hcomplete
  · dsimp only at hother htimeout
    rcases hshaped.continued (hnext hsome) with heq | heq
    · exact absurd (hstopped _ heq) hother
    · exact absurd (hstopped _ heq) htimeout

end GrepSearch

/-! ### What the loop returns -/

/-- All matches, or as many of the first ones as were asked for. -/
def PagedSearch.answer (search : PagedSearch T) (found : List GrepMatch) : List GrepMatch :=
  match search.limit with
  | none => found
  | some n => found.take n.toNat

/-- The items read so far with those of the next page. -/
private theorem take_append_page {α : Type} {found items more : List α} (hitems : items = found.take items.length)
    (hmore : more <+: found.drop items.length) : items ++ more = found.take (items.length + more.length) := by
  have htake := List.prefix_iff_eq_take.1 hmore
  rw [List.take_add, ← hitems, ← htake]

section

variable [Add T] [Sub T] [LT T] [DecidableLT T]

/-- What is asked of the limit of a page: it is what is missing from the limit of the search. -/
def AsksForRest (search : PagedSearch T) (pageLimit : Nat → Option Int) : Prop :=
  ∀ (n : Int) (items : Nat), search.limit = some n → (items : Int) < n →
    ((pageLimit items).map Int.toNat).getD defaultPageLimit = (n - items).toNat

omit [Add T] in
/-- The items read so far are the first matches, the cursor stands for the place after them, and the limit is not
reached.  A round keeps this, and it returns only the answer. -/
theorem readPages_steps {found : List GrepMatch} {whole : Prop} {server : PageServer ε T} {timing : Timing T}
    {search : PagedSearch T} {budget : GrepTimeoutBudget T} {pageLimit : Nat → Option Int}
    {stands : Nat → Option CursorText → Prop}
    (hserver : ∀ round limit pageTimeout cursor page start, stands start cursor →
      server round ⟨search.pattern, search.pre, limit, pageTimeout, cursor⟩ = .ok page →
      page.Shaped ((limit.map Int.toNat).getD defaultPageLimit) ∧ page.items <+: found.drop start ∧
        (page.complete = true → page.items = found.drop start ∧ whole) ∧
        ∀ next, page.nextCursor = some next → stands (start + page.items.length) (some next))
    (hasks : AsksForRest search pageLimit) {rounds round : Nat} {items : List GrepMatch} {pageTimeout : Option T}
    {cursor : Option CursorText} {result : CtxfsGrepResult} (hitems : items = found.take items.length)
    (hcursor : stands items.length cursor) (hlimit : ∀ n, search.limit = some n → (items.length : Int) < n)
    (hrun : readPages server timing search budget pageLimit rounds round items pageTimeout cursor = .ok result) :
    result.complete = true ∧ result.items = search.answer found ∧
      (whole ∨ search.limit = some (result.items.length : Int)) := by
  induction rounds generalizing round items pageTimeout cursor with
  | zero => cases hrun
  | succ rounds ih =>
    unfold readPages at hrun
    obtain ⟨page, hpage, hrun⟩ := Program.bind_eq_ok.1 hrun
    have hanswer : server round ⟨search.pattern, search.pre, pageLimit items.length, pageTimeout, cursor⟩ =
      .ok page := by
      cases hserved : server round ⟨search.pattern, search.pre, pageLimit items.length, pageTimeout, cursor⟩ with
      | error e =>
        rw [hserved] at hpage
        cases hpage
      | ok served =>
        rw [hserved] at hpage
        cases hpage
        rfl
    obtain ⟨hshaped, hshown, hall, hplace⟩ := hserver _ _ _ _ _ _ hcursor hanswer
    have hread := take_append_page hitems hshown
    have hrest : ∀ n, search.limit = some n →
        ((pageLimit items.length).map Int.toNat).getD defaultPageLimit = (n - items.length).toNat := fun n hn =>
      hasks n items.length hn (hlimit n hn)
    dsimp only at hrun
    have hanswerOf : ∀ n, search.limit = some n → search.answer found = found.take n.toNat := by
      intro n hn
      unfold PagedSearch.answer
      rw [hn]
    by_cases hcomplete : page.complete = true
    · -- Everything is read, and that is not more than was asked for.
      rw [if_pos hcomplete] at hrun
      cases hrun
      obtain ⟨hlast, hwhole⟩ := hall hcomplete
      refine ⟨rfl, ?_, .inl hwhole⟩
      have hall : items ++ page.items = found := by
        have hsplit := List.take_append_drop items.length found
        rw [← hitems, ← hlast] at hsplit
        exact hsplit
      cases hn : search.limit with
      | none =>
        unfold PagedSearch.answer
        rw [hn]
        exact hall
      | some n =>
        have hbounded := hshaped.bounded
        rw [hrest n hn] at hbounded
        have hless := hlimit n hn
        have hlength := congrArg List.length hall
        rw [List.length_append] at hlength
        rw [hanswerOf n hn, List.take_of_length_le (by omega)]
        exact hall
    rw [if_neg hcomplete] at hrun
    -- A page that stops at the limit has exactly what was still asked for.
    by_cases hfull : (decide (page.stoppedBy = some StoppedBy.limit) && search.limit.isSome) = true
    · rw [if_pos hfull] at hrun
      cases hrun
      rw [Bool.and_eq_true, decide_eq_true_eq] at hfull
      obtain ⟨n, hn⟩ := Option.isSome_iff_exists.1 hfull.2
      have hlength := hshaped.full hfull.1
      rw [hrest n hn] at hlength
      have hless := hlimit n hn
      refine ⟨rfl, ?_, .inr ?_⟩
      · show items ++ page.items = _
        rw [hanswerOf n hn, hread]
        congr 1
        omega
      · show search.limit = some ((items ++ page.items).length : Int)
        rw [hn, List.length_append]
        congr 1
        omega
    rw [if_neg hfull] at hrun
    by_cases htimeout : page.stoppedBy = some StoppedBy.timeout
    · rw [if_pos htimeout] at hrun
      cases hrun
    rw [if_neg htimeout] at hrun
    cases hnext : page.nextCursor with
    | none =>
      rw [hnext] at hrun
      cases hrun
    | some next =>
      rw [hnext] at hrun
      obtain ⟨remaining, -, hrun⟩ := Program.bind_eq_ok.1 hrun
      have hlength : (items ++ page.items).length = items.length + page.items.length := List.length_append
      -- The next page goes on where this one ends, and the limit is not reached yet.
      refine ih ?_ ?_ ?_ hrun
      · rw [hlength]
        exact hread
      · rw [hlength]
        exact hplace next hnext
      · intro n hn
        have hlimited : page.stoppedBy ≠ some StoppedBy.limit := by
          intro hstopped
          rw [hstopped, hn] at hfull
          exact hfull rfl
        have hshort := hshaped.short (by rw [hnext]; rfl) hlimited htimeout
        rw [hrest n hn] at hshort
        omega

omit [Add T] in
/-- The rounds with a server whose cursors have their places. -/
private theorem readPages_ok {found : List GrepMatch} {server : PageServer ε T} {timing : Timing T}
    {search : PagedSearch T} {budget : GrepTimeoutBudget T} {pageLimit : Nat → Option Int} {place : CursorText → Nat}
    (hserver : ∀ round request page, server round request = .ok page →
      page.Shaped ((request.limit.map Int.toNat).getD defaultPageLimit) ∧
        page.Chained found place ((request.cursor.map place).getD 0))
    (hasks : AsksForRest search pageLimit) {rounds round : Nat} {items : List GrepMatch} {pageTimeout : Option T}
    {cursor : Option CursorText} {result : CtxfsGrepResult} (hitems : items = found.take items.length)
    (hcursor : (cursor.map place).getD 0 = items.length)
    (hlimit : ∀ n, search.limit = some n → (items.length : Int) < n)
    (hrun : readPages server timing search budget pageLimit rounds round items pageTimeout cursor = .ok result) :
    result.complete = true ∧ result.items = search.answer found := by
  have hsteps := @readPages_steps ε T _ _ _ found True server timing search budget pageLimit
    (fun start cursor => (cursor.map place).getD 0 = start) (by
      intro round limit pageTimeout cursor page start hstart hpage
      obtain ⟨hshaped, hchained⟩ := hserver round _ page hpage
      subst hstart
      exact ⟨hshaped, hchained.items, fun hcomplete => ⟨hchained.all hcomplete, trivial⟩, hchained.next⟩)
    hasks rounds round items pageTimeout cursor result hitems hcursor hlimit hrun
  exact ⟨hsteps.1, hsteps.2.1⟩

/-- A search that reads all pages of a server that keeps to the protocol answers with all matches, or with the first
ones up to its limit, or it raises. -/
theorem pagedGrep_exhaustive {found : List GrepMatch} {server : PageServer ε T} (hserver : Conforms found server)
    (timing : Timing T) (search : PagedSearch T) (hlimit : ∀ n, search.limit = some n → 1 ≤ n) :
    (∀ result, clientGrep server timing search = .ok result →
        result.complete = true ∧ result.items = search.answer found) ∧
      ∀ result, executeCtxfsGrep server timing search = .ok result →
        result.complete = true ∧ result.items = search.answer found := by
  obtain ⟨place, hpages⟩ := hserver
  have hstart : ∀ n, search.limit = some n → (([] : List GrepMatch).length : Int) < n := by
    intro n hn
    have hpositive := hlimit n hn
    show (0 : Int) < n
    omega
  constructor
  · intro result hrun
    refine readPages_ok hpages ?_ rfl rfl hstart hrun
    intro n items hn hless
    rw [hn]
    show (max 1 (n - items)).toNat = (n - items).toNat
    omega
  · intro result hrun
    refine readPages_ok hpages ?_ rfl rfl hstart hrun
    intro n items hn hless
    rw [hn]
    show (max 1 (n - items)).toNat = (n - items).toNat
    omega

end

/-! ### A server that cuts its pages short -/

/-- A server over a list of matches, which ends a page after `size` of them for its size.  The length of a cursor is the
place that it names. -/
def sliceServer (found : List GrepMatch) (size : Nat) : PageServer ε T := fun _ request =>
  let limit := (request.limit.map Int.toNat).getD defaultPageLimit
  let start := (request.cursor.map CursorText.length).getD 0
  let rest := found.drop start
  if rest.length < min limit size then .ok ⟨rest, true, none, none⟩
  else if limit ≤ size then .ok ⟨rest.take limit, false, some .limit, some ⟨start + limit, none⟩⟩
  else .ok ⟨rest.take size, false, some .maxBytes, some ⟨start + size, none⟩⟩

private theorem sliceServer_conforms (found : List GrepMatch) (size : Nat) :
    Conforms found (sliceServer found size : PageServer ε T) := by
  refine ⟨CursorText.length, fun round request page hpage => ?_⟩
  unfold sliceServer at hpage
  generalize hlimit : (request.limit.map Int.toNat).getD defaultPageLimit = limit at hpage ⊢
  generalize hstart : (request.cursor.map CursorText.length).getD 0 = start at hpage ⊢
  dsimp only at hpage
  by_cases hlast : (found.drop start).length < min limit size
  · rw [if_pos hlast] at hpage
    cases hpage
    refine ⟨⟨by dsimp only; omega, fun h => (by cases h), fun _ => rfl, fun h => (by cases h)⟩, ⟨?_, fun _ => rfl, ?_⟩⟩
    · exact List.prefix_rfl
    · intro cursor h
      cases h
  rw [if_neg hlast] at hpage
  by_cases hfits : limit ≤ size
  · rw [if_pos hfits] at hpage
    cases hpage
    have hlength : ((found.drop start).take limit).length = limit := by
      rw [List.length_take]
      omega
    refine ⟨⟨hlength.le, fun _ => hlength, fun h => (by cases h), fun _ h => absurd rfl h⟩,
      ⟨List.take_prefix _ _, fun h => (by cases h), ?_⟩⟩
    rintro cursor ⟨⟩
    dsimp only
    rw [hlength]
  · rw [if_neg hfits] at hpage
    cases hpage
    have hlength : ((found.drop start).take size).length = size := by
      rw [List.length_take]
      omega
    refine ⟨⟨by dsimp only; omega, fun h => (by cases h), fun h => (by cases h), fun _ _ _ => by dsimp only; omega⟩,
      ⟨List.take_prefix _ _, fun h => (by cases h), ?_⟩⟩
    rintro cursor ⟨⟩
    dsimp only
    rw [hlength]

/-- The matches of a document with five lines. -/
def fiveMatches : List GrepMatch := (List.range 5).map fun i => ⟨"notes/a", i + 1, "needle", 0, 6, "hash"⟩

/-- A clock that takes a second for every page, in tenths of a second. -/
def tenths : Timing Int := ⟨20, 1, fun reading => 10 * reading⟩

/-- Pages of two matches, without a limit and with a limit of three. -/
theorem pagedGrep_slices :
    (∃ result, clientGrep (sliceServer fiveMatches 2 : PageServer Unit Int)
      tenths ⟨"needle", "notes", none, some 60⟩ = .ok result ∧
        result.complete = true ∧ result.items = fiveMatches) ∧
      ∃ result, executeCtxfsGrep (sliceServer fiveMatches 2 : PageServer Unit Int) tenths
          ⟨"needle", "notes", some 3, some 60⟩ = .ok result ∧
        result.complete = true ∧ result.items = fiveMatches.take 3 := by
  have hconforms : Conforms fiveMatches (sliceServer fiveMatches 2 : PageServer Unit Int) := sliceServer_conforms _ _
  obtain ⟨result, hrun⟩ : ∃ result, clientGrep (sliceServer fiveMatches 2 : PageServer Unit Int) tenths
      ⟨"needle", "notes", none, some 60⟩ = .ok result := ⟨_, rfl⟩
  obtain ⟨result', hrun'⟩ : ∃ result, executeCtxfsGrep (sliceServer fiveMatches 2 : PageServer Unit Int) tenths
      ⟨"needle", "notes", some 3, some 60⟩ = .ok result := ⟨_, rfl⟩
  have hall := pagedGrep_exhaustive hconforms tenths ⟨"needle", "notes", none, some 60⟩ fun n hn => (by cases hn)
  have hthree := pagedGrep_exhaustive hconforms tenths ⟨"needle", "notes", some 3, some 60⟩ fun n hn => by
    cases hn
    decide
  exact ⟨⟨result, hrun, hall.1 result hrun⟩, result', hrun', hthree.2 result' hrun'⟩

end Ctxd

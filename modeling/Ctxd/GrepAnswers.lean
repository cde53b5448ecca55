import Ctxd.GrepDeadlines
import Ctxd.GrepPages

/-!
# Searches over the pages of the store

`_execute_ctxfs_grep` reads the pages of the store itself, and `AsyncCtxfsClient.grep` those of the endpoint, which
checks its query first.  Deadlines may expire on every page.  A search that answers nevertheless answers with the
matches of one unbounded scan, or with the first of them (`grep_answers`).
-/

namespace Ctxd

variable {T : Type}

/-- `store.grep` for the calls of a search: what ripgrep prints for a pattern below a prefix is given, and so is where
the deadline of each call expires. -/
def storePages (store : GrepStore) (rg : String → String → Ripgrep) (expiry : Nat → Option GrepExpiry) :
    PageServer GrepError T := fun round request =>
  GrepSearch.grep ⟨store, request.pattern, request.pre, rg request.pattern request.pre⟩
    (request.limit.getD defaultPageLimit) request.cursor (expiry round)

/-- What the endpoint answers with instead of a page. -/
inductive EndpointError
  | unprocessable
  | store (e : GrepError)
  deriving DecidableEq, Repr

/-- `grep_ctxfs_paths`: the query has a pattern, a limit from 1 to 5000, and no cursor that is too long. -/
def grepEndpoint (store : GrepStore) (rg : String → String → Ripgrep) (expiry : Nat → Option GrepExpiry) :
    PageServer EndpointError T := fun round request =>
  let limit := request.limit.getD defaultPageLimit
  let fits := (request.cursor.map fun cursor => decide (1 ≤ cursor.length ∧ cursor.length ≤ grepMaxCursorBytes)).getD
    true
  if request.pattern = "" || !decide (1 ≤ limit ∧ limit ≤ 5000) || !fits then .error .unprocessable
  else (storePages store rg expiry round request).mapError .store

private theorem grepEndpoint_ok {store : GrepStore} {rg : String → String → Ripgrep} {expiry : Nat → Option GrepExpiry}
    {round : Nat} {request : PageRequest T} {page : GrepPage}
    (h : grepEndpoint store rg expiry round request = .ok page) : storePages store rg expiry round request =
      .ok page := by
  unfold grepEndpoint at h
  dsimp only at h
  split_ifs at h
  cases hserved : storePages store rg expiry round request with
  | error e =>
    rw [hserved] at h
    cases h
  | ok served =>
    rw [hserved] at h
    cases h
    rfl

namespace GrepSearch

variable {search : GrepSearch} {n : Nat} {cursor : Option CursorText}

/-- A page at a place, as the loop over the pages needs it. -/
private theorem Stands.served (h : search.Stands n cursor) (hprinted : search.Printed) (hnul : search.NulFree)
    (hexists : search.targetExists = .ok true) {limit : Option Int} {expiry : Option GrepExpiry} {page : GrepPage}
    (hpage : search.grep (limit.getD defaultPageLimit) cursor expiry = .ok page) :
    page.Shaped ((limit.map Int.toNat).getD defaultPageLimit) ∧
      page.items <+: (search.whole.found.map Prod.fst).drop n ∧
      (page.complete = true → page.items = (search.whole.found.map Prod.fst).drop n ∧
        search.whole.stoppedBy = none ∧ search.whole.catalogMismatch = false) ∧
      ∀ next, page.nextCursor = some next → search.Stands (n + page.items.length) (some next) := by
  obtain ⟨k, hroom, hitems, hnext, hlast⟩ := h.page hprinted hnul hexists hpage
  have hshaped := grep_shaped hpage
  have hlimit : (limit.getD defaultPageLimit).toNat = (limit.map Int.toNat).getD defaultPageLimit := by
    cases limit <;> rfl
  rw [hlimit] at hshaped
  have hlength : page.items.length = k := by
    rw [hitems, List.length_map, List.length_take, List.length_drop]
    omega
  refine ⟨hshaped, ?_, fun hcomplete => ?_, hlength ▸ hnext⟩
  · rw [hitems, ← List.map_drop]
    exact (List.take_prefix _ _).map _
  · obtain ⟨hall, hstopped, hcompletes⟩ := (hlast (hshaped.complete hcomplete)).resolve_right fun hunread => by
      rw [hunread.2.2] at hcomplete
      cases hcomplete
    refine ⟨?_, ?_⟩
    · rw [hitems, ← List.map_drop, List.take_of_length_le (by rw [List.length_drop]; omega)]
    · rw [hcompletes, hstopped] at hcomplete
      cases hends : search.whole.stoppedBy with
      | some stoppedBy =>
        rw [hends] at hcomplete
        cases hcomplete
      | none =>
        cases hflag : search.whole.catalogMismatch with
        | false => exact ⟨rfl, rfl⟩
        | true =>
          rw [hends, hflag] at hcomplete
          cases hcomplete

end GrepSearch

section

variable [Add T] [Sub T] [LT T] [DecidableLT T]

/-- A search whose first page is as long as its limit. -/
private theorem executeCtxfsGrep_full {ε : Type} {server : PageServer ε T} {query : PagedSearch T} {n : Int}
    (hlimit : query.limit = some n) (hpositive : 1 ≤ n) {page : GrepPage}
    (hpage : server 0 ⟨query.pattern, query.pre, some n, query.timeoutSeconds, none⟩ = .ok page)
    (hcomplete : page.complete = false) (hstopped : page.stoppedBy = some .limit) (timing : Timing T) :
    executeCtxfsGrep server timing query = .ok ⟨page.items, true, some .limit⟩ := by
  have hall : ((query.limit.map fun limit : Int => max 1 (limit - ([] : List GrepMatch).length)).getD 1000) = n := by
    rw [hlimit]
    show max 1 (n - 0) = n
    omega
  rw [executeCtxfsGrep, show grepMaxTransportPages = 99 + 1 from rfl, readPages]
  dsimp only
  rw [hall, hpage]
  simp only [Except.mapError, bind, Except.bind, hcomplete, hstopped, hlimit, Bool.false_eq_true, if_false, decide_true,
    Option.isSome_some, Bool.and_true, if_true, List.nil_append]
  rfl

/-- A search over the pages of the store or of the endpoint that answers has the matches of one unbounded scan, or the
first of them up to its limit, and where the limit is not reached the scan was complete. -/
theorem grep_answers {store : GrepStore} {rg : String → String → Ripgrep} {query : PagedSearch T}
    {search : GrepSearch} (hsearch : search = ⟨store, query.pattern, query.pre, rg query.pattern query.pre⟩)
    (hprinted : search.Printed) (hnul : search.NulFree) (hexists : search.targetExists = .ok true)
    {bound : Int} {whole : GrepPage} (hwhole : search.grep bound none none = .ok whole)
    (hunbounded : whole.stoppedBy ≠ some .limit) (hlimit : ∀ n, query.limit = some n → 1 ≤ n)
    (expiry : Nat → Option GrepExpiry) (timing : Timing T) :
    ∀ result : CtxfsGrepResult,
      executeCtxfsGrep (storePages store rg expiry) timing query = .ok result ∨
        clientGrep (grepEndpoint store rg expiry) timing query = .ok result →
      result.complete = true ∧ result.items = query.answer whole.items ∧
        (whole.complete = true ∨ query.limit = some (result.items.length : Int)) := by
  obtain ⟨-, hitems, hstopped, hcomplete⟩ := GrepSearch.grep_unbounded hprinted hnul hexists hwhole hunbounded
  have hstart : ∀ n, query.limit = some n → (([] : List GrepMatch).length : Int) < n := by
    intro n hn
    have hpositive := hlimit n hn
    show (0 : Int) < n
    omega
  have hserver : ∀ round limit (pageTimeout : Option T) cursor page start, search.Stands start cursor →
      storePages store rg expiry round ⟨query.pattern, query.pre, limit, pageTimeout, cursor⟩ = .ok page → _ :=
    fun round limit pageTimeout cursor page start hstands hpage =>
      @GrepSearch.Stands.served search start cursor hstands hprinted hnul hexists limit (expiry round) page
        (by rw [hsearch]; exact hpage)
  have hends : search.whole.stoppedBy = none ∧ search.whole.catalogMismatch = false → whole.complete = true := by
    rintro ⟨hnone, hflag⟩
    rw [hcomplete, hstopped, hnone, hflag]
    rfl
  rw [hitems]
  rintro result (hrun | hrun)
  · obtain ⟨hdone, hall, hwhole⟩ := readPages_steps hserver (fun n items hn hless => by
      rw [hn]
      show (max 1 (n - items)).toNat = (n - items).toNat
      omega) rfl .first hstart hrun
    exact ⟨hdone, hall, hwhole.imp_left hends⟩
  · obtain ⟨hdone, hall, hwhole⟩ := readPages_steps (fun round limit pageTimeout cursor page start hstands hpage =>
      hserver round limit pageTimeout cursor page start hstands (grepEndpoint_ok hpage)) (fun n items hn hless => by
      rw [hn]
      show (max 1 (n - items)).toNat = (n - items).toNat
      omega) rfl .first hstart hrun
    exact ⟨hdone, hall, hwhole.imp_left hends⟩

end

/-- A search for one match in the store of `onceSearch`. -/
theorem onceSearch_answers : ∃ result, executeCtxfsGrep (storePages driveStore (fun _ _ => onceSearch.rg) fun _ => none)
      tenths ⟨"needle", "notes", some 1, some 60⟩ = .ok result ∧
    result.complete = true ∧ result.items = [driveMatch "notes/a"] := by
  have hexists : onceSearch.targetExists = .ok true := by rfl
  have hpre : onceSearch.pre = "" ∨ Normalized onceSearch.pre := .inr (by decide)
  have hwhole := onceSearch_whole
  obtain ⟨next, -, -, -, -, hgrep, hnext⟩ := (GrepSearch.At.first fun _ => 1).full onceSearch_printed onceSearch_nulFree
    hexists hpre (by decide) (show onceSearch.whole.found[0]? = some (driveMatch "notes/a", true) by rw [hwhole]; rfl)
  rw [(hnext onceSearch_continues).1, hwhole] at hgrep
  -- the search ends with its first page
  have hpage : (storePages driveStore (fun _ _ => onceSearch.rg) fun _ => none : PageServer GrepError Int) 0
      ⟨"needle", "notes", some 1, some 60, none⟩ =
        .ok ⟨[driveMatch "notes/a"], false, some .limit, some next.text⟩ := by
    have hsearch : (⟨driveStore, "needle", "notes", onceSearch.rg⟩ : GrepSearch) = onceSearch := rfl
    show GrepSearch.grep ⟨driveStore, "needle", "notes", onceSearch.rg⟩ 1 none none = _
    rw [hsearch, hgrep]
    rfl
  have hrun : executeCtxfsGrep (storePages driveStore (fun _ _ => onceSearch.rg) fun _ => none) tenths
      ⟨"needle", "notes", some 1, some 60⟩ = .ok ⟨[driveMatch "notes/a"], true, some .limit⟩ :=
    @executeCtxfsGrep_full Int _ _ _ _ GrepError _ ⟨"needle", "notes", some 1, some 60⟩ 1 rfl (by decide)
      _ hpage rfl rfl
      tenths
  have hfew : (onceSearch.whole.found.length : Int) < 2 := by
    rw [hwhole]
    decide
  obtain ⟨verdict, hverdict, hall⟩ := GrepSearch.grep_whole onceSearch_printed hexists hpre hfew
  have hunbounded : verdict ≠ some .limit := by
    rw [hverdict, hwhole]
    simp
  obtain ⟨hdone, hitems, -⟩ := @grep_answers Int _ _ _ _ driveStore (fun _ _ => onceSearch.rg)
    ⟨"needle", "notes", some 1, some 60⟩ onceSearch rfl onceSearch_printed onceSearch_nulFree hexists 2 _ hall
      hunbounded
    (by simp) (fun _ => none) tenths _ (.inl hrun)
  refine ⟨_, hrun, hdone, hitems.trans ?_⟩
  rw [hwhole]
  rfl

end Ctxd

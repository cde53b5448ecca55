import Ctxd.GrepAnchors

/-!
# The pages of a search

Following the cursors of a search gives the matches of one scan in pages of the limits asked for, and the last page ends
as the scan does, exactly when every match at the end of a page has a cursor that fits and that the decoder takes back
(`pages_iff`).
-/

namespace Ctxd

namespace GrepSearch

variable {search : GrepSearch}

/-! ### Following the cursors -/

/-- The matches that the first `k` pages have room for. -/
def pageStart (limits : Nat → Int) (k : Nat) : Nat := ((List.range k).map fun i => (limits i).toNat).sum

private theorem pageStart_succ (limits : Nat → Int) (k : Nat) :
    pageStart limits (k + 1) = pageStart limits k + (limits k).toNat := by
  simp [pageStart, List.range_succ]

private theorem pageStart_mono (limits : Nat → Int) : Monotone (pageStart limits) := by
  refine monotone_nat_of_le_succ fun k => ?_
  rw [pageStart_succ]
  omega

/-- The pages from page `k` on, each asked for with the cursor of the one before. -/
inductive Follows (search : GrepSearch) (limits : Nat → Int) : Nat → Option CursorText → List GrepPage → Prop
  | last {k : Nat} {cursor : Option CursorText} {page : GrepPage}
  (answer : search.grep (limits k) cursor none = .ok page)
      (final : page.nextCursor = none) : Follows search limits k cursor [page]
  | more {k : Nat} {cursor : Option CursorText} {page : GrepPage} {next : CursorText} {pages : List GrepPage}
      (answer : search.grep (limits k) cursor none = .ok page) (continued : page.nextCursor = some next)
      (rest : Follows search limits (k + 1) (some next) pages) : Follows search limits k cursor (page :: pages)

/-- A page can be continued behind the match: its cursor fits, and the decoder takes it back. -/
structure Continues (search : GrepSearch) (m : GrepMatch) (mismatch : Bool) : Prop where
  fits : ∀ cursor, grepCursorForMatch search.pre search.patternHash m mismatch .afterMatch = .ok cursor →
    cursor.text.length ≤ grepMaxCursorBytes
  accepted : driveBelow search.pre m.path = false

/-- The cursor of page `k` is that of its place in the scan. -/
structure At (search : GrepSearch) (limits : Nat → Int) (k : Nat) (cursor : Option CursorText) : Prop where
  resumes : ∃ resume resumed inherited last, search.resumeOf cursor = .ok resume ∧ Resumes resume resumed inherited ∧
    search.Reaches resumed inherited last
      (search.whole.behind (pageStart limits k))

theorem At.first (limits : Nat → Int) : search.At limits 0 none :=
  ⟨none, none, false, none, rfl, .none, reaches_start false⟩

variable {limits : Nat → Int} {k : Nat} {cursor : Option CursorText}

/-- The page that shows the rest of the matches. -/
theorem At.last (h : search.At limits k cursor) (hprinted : search.Printed)
    (hexists : search.targetExists = .ok true) (hpre : search.pre = "" ∨ Normalized search.pre) (hlimit : 0 < limits k)
    (hend : search.whole.found.length < pageStart limits (k + 1)) :
    ∃ verdict : Option StoppedBy, verdict = (search.whole.stoppedBy <|>
        if search.whole.catalogMismatch then some .catalogMismatch else none) ∧
      search.grep (limits k) cursor none =
        .ok ⟨(search.whole.found.drop (pageStart limits k)).map Prod.fst, verdict.isNone, verdict, none⟩ := by
  obtain ⟨resume, resumed, inherited, last, hresume, hresumes, hreaches⟩ := h.resumes
  rw [pageStart_succ] at hend
  have hresult := @pageResult_last search (limits k).toNat _ _ _ _ _ hprinted hexists hresumes hreaches (by
    show (search.whole.found.drop (pageStart limits k)).length < _
    rw [List.length_drop]
    omega)
  exact ⟨_, rfl, grep_of_result hlimit hpre hprinted.accepted (by simp)
    hresume hresult (.inr (showing_stoppedBy _ _).2)⟩

/-- A page that is full, up to the encoding of its cursor. -/
theorem At.full (h : search.At limits k cursor) (hprinted : search.Printed) (hnul : search.NulFree)
    (hexists : search.targetExists = .ok true) (hpre : search.pre = "" ∨ Normalized search.pre) (hlimit : 0 < limits k)
    {m : GrepMatch} {mismatch : Bool}
    (hat : search.whole.found[pageStart limits (k + 1) - 1]? = some (m, mismatch)) :
    ∃ next path snapshot, search.Hit path snapshot m ∧
      grepCursorForMatch search.pre search.patternHash m mismatch .afterMatch = .ok next ∧
      search.grep (limits k) cursor none = (encodeGrepCursor next).map (fun text =>
        ⟨((search.whole.found.drop (pageStart limits k)).take (limits k).toNat).map Prod.fst, false, some .limit,
          some text⟩) ∧
      (search.Continues m mismatch → encodeGrepCursor next =
        .ok next.text ∧ search.At limits (k + 1) (some next.text)) := by
  obtain ⟨resume, resumed, inherited, last, hresume, hresumes, hreaches⟩ := h.resumes
  rw [pageStart_succ] at hat
  obtain ⟨i, hi⟩ : ∃ i, (limits k).toNat = i + 1 := ⟨(limits k).toNat - 1, by omega⟩
  have hdrop : (search.whole.behind (pageStart limits k)).found[i]? =
      some (m, mismatch) := by
    show (search.whole.found.drop (pageStart limits k))[i]? = some (m, mismatch)
    rw [List.getElem?_drop, ← hat]
    congr 1
    omega
  obtain ⟨front, path, snapshot, rest, hsights, -⟩ := showing_split hat
  have hhit : search.Hit path snapshot m := hit_of_mem hprinted (by rw [hsights]; simp)
  obtain ⟨relative, -, -, hbuilt⟩ := hhit.cursor mismatch .afterMatch
  generalize hnext : (⟨search.prefixHash, search.patternHash, relative, some m.contentHash, .afterMatch,
    some m.position, mismatch, 3⟩ : GrepCursor) = next at hbuilt
  have hnames : next.NamesMatch m := by
    subst hnext
    exact ⟨rfl, rfl, rfl, rfl⟩
  have hcarried : next.catalogMismatch = mismatch := by
    subst hnext
    rfl
  have hresult := pageResult_full hprinted hexists hresumes hreaches hdrop hbuilt
  rw [← hi] at hresult
  refine ⟨next, path, snapshot, hhit, hbuilt,
    grep_of_result hlimit hpre hprinted.accepted (by simp) hresume hresult (.inr (by simp)), fun hcontinues => ?_⟩
  have hencode : encodeGrepCursor next = .ok next.text := by
    have hfits := hcontinues.fits next hbuilt
    unfold encodeGrepCursor
    rw [if_neg (by omega)]
  refine ⟨hencode, ⟨some next, some next, mismatch, some m, ?_, ?_, ?_⟩⟩
  · rw [hhit.resumeOf (.inl rfl) hbuilt hencode, if_pos hcontinues.accepted]
  · rw [← hcarried]
    exact .after hnames
  · have hafter := reaches_after hprinted hnul hat hbuilt
    rwa [show pageStart limits k + (limits k).toNat - 1 + 1 = pageStart limits (k + 1) by
      rw [pageStart_succ]; omega] at hafter

/-- What the pages from page `k` on are, when they can be followed. -/
structure Pages (search : GrepSearch) (limits : Nat → Int) (k : Nat) (pages : List GrepPage) : Prop where
  items : pages.flatMap (·.items) = (search.whole.found.drop (pageStart limits k)).map Prod.fst
  full : ∀ i page, pages[i]? = some page → i + 1 < pages.length → (page.items.length : Int) = limits (k + i)
  last : ∀ page, pages.getLast? = some page →
    page.stoppedBy = (search.whole.stoppedBy <|> if search.whole.catalogMismatch then some .catalogMismatch else none) ∧
      page.complete = page.stoppedBy.isNone

/-- A full page goes before the pages that follow it. -/
private theorem Pages.cons {pages : List GrepPage} (h : search.Pages limits (k + 1) pages) {m : GrepMatch}
    {mismatch : Bool}
    (hm : search.whole.found[pageStart limits (k + 1) - 1]? = some (m, mismatch)) {text : CursorText}
    (hlimit : 0 < limits k) (hne : pages ≠ []) :
    search.Pages limits k
      (⟨((search.whole.found.drop (pageStart limits k)).take (limits k).toNat).map Prod.fst, false, some .limit,
        some text⟩ :: pages) := by
  have hless := (List.getElem?_eq_some_iff.1 hm).1
  rw [pageStart_succ] at hless
  refine ⟨?_, ?_, ?_⟩
  · rw [List.flatMap_cons, h.items, pageStart_succ, ← List.drop_drop, ← List.map_append, List.take_append_drop]
  · intro i page hpage hnext
    cases i with
    | zero =>
      cases hpage
      simp only [List.length_map, List.length_take, List.length_drop, Nat.add_zero]
      omega
    | succ i =>
      rw [show k + (i + 1) = k + 1 + i by omega]
      exact h.full i page hpage (by simpa using hnext)
  · intro page hpage
    rw [List.getLast?_cons, List.getLast?_eq_some_getLast hne] at hpage
    exact h.last page (by rw [List.getLast?_eq_some_getLast hne]; exact hpage)

private theorem Follows.answered {pages : List GrepPage} (h : search.Follows limits k cursor pages) :
    pages ≠ [] ∧ ∃ page, search.grep (limits k) cursor none = .ok page := by
  cases h with
  | last answer final => exact ⟨by simp, _, answer⟩
  | more answer continued rest => exact ⟨by simp, _, answer⟩

/-- A call that answers has taken its arguments. -/
theorem valid_of_grep {limit : Int} {expiry : Option GrepExpiry} {page : GrepPage}
    (h : search.grep limit cursor expiry = .ok page) :
    0 < limit ∧ (search.pre = "" ∨ Normalized search.pre) ∧ ∃ resume, search.resumeOf cursor = .ok resume := by
  unfold grep at h
  by_cases hlimit : limit ≤ 0
  · rw [if_pos hlimit] at h
    cases h
  rw [if_neg hlimit] at h
  by_cases hvalid : (decide (search.pre ≠ "") && !decide (Normalized search.pre)) = true
  · rw [if_pos hvalid] at h
    cases h
  rw [if_neg hvalid] at h
  obtain ⟨resume, hresume, -⟩ := Program.bind_eq_ok.1 h
  refine ⟨by omega, ?_, resume, hresume⟩
  by_cases hempty : search.pre = ""
  · exact .inl hempty
  · simpa [hempty] using hvalid

section

variable (hprinted : search.Printed) (hnul : search.NulFree) (hexists : search.targetExists = .ok true)
  (hpre : search.pre = "" ∨ Normalized search.pre) (hlimits : ∀ k, 0 < limits k)

include hprinted hnul hexists hpre hlimits

/-- Pages that can be followed show the rest of the matches, and every match at the end of one can be continued. -/
private theorem Follows.pages {pages : List GrepPage} (h : search.Follows limits k cursor pages)
    (hat : search.At limits k cursor) :
    search.Pages limits k pages ∧
      ∀ i m mismatch, k ≤ i → search.whole.found[pageStart limits (i + 1) - 1]? = some (m, mismatch) →
        search.Continues m mismatch := by
  induction h with
  | @last k cursor page answer final =>
    rcases Nat.lt_or_ge search.whole.found.length (pageStart limits (k + 1)) with hend | hroom
    · obtain ⟨verdict, hverdict, hgrep⟩ := hat.last hprinted hexists hpre (hlimits k) hend
      rw [hgrep] at answer
      cases answer
      refine ⟨⟨by simp, ?_, ?_⟩, ?_⟩
      · intro i page _ hnext
        simp at hnext
      · intro page hpage
        cases hpage
        exact ⟨hverdict, rfl⟩
      · intro i m mismatch hi hm
        have hmono : pageStart limits (k + 1) ≤ pageStart limits (i + 1) := pageStart_mono limits (by omega)
        have := (List.getElem?_eq_some_iff.1 hm).1
        omega
    · obtain ⟨⟨m, mismatch⟩, hm⟩ : ∃ found, search.whole.found[pageStart limits (k + 1) - 1]? = some found :=
        ⟨_, List.getElem?_eq_getElem (by have := hlimits k; rw [pageStart_succ] at hroom ⊢; omega)⟩
      obtain ⟨next, path, snapshot, hhit, hbuilt, hgrep, -⟩ :=
        hat.full hprinted hnul hexists hpre (hlimits k) hm
      rw [hgrep] at answer
      cases hencode : encodeGrepCursor next with
      | error e =>
        rw [hencode] at answer
        cases answer
      | ok text =>
        rw [hencode] at answer
        cases answer
        cases final
  | @more k cursor page text pages answer continued rest ih =>
    rcases Nat.lt_or_ge search.whole.found.length (pageStart limits (k + 1)) with hend | hroom
    · obtain ⟨verdict, -, hgrep⟩ := hat.last hprinted hexists hpre (hlimits k) hend
      rw [hgrep] at answer
      cases answer
      cases continued
    obtain ⟨⟨m, mismatch⟩, hm⟩ : ∃ found, search.whole.found[pageStart limits (k + 1) - 1]? = some found :=
      ⟨_, List.getElem?_eq_getElem (by have := hlimits k; rw [pageStart_succ] at hroom ⊢; omega)⟩
    obtain ⟨next, path, snapshot, hhit, hbuilt, hgrep, hcontinue⟩ :=
      hat.full hprinted hnul hexists hpre (hlimits k) hm
    rw [hgrep] at answer
    cases hencode : encodeGrepCursor next with
    | error e =>
      rw [hencode] at answer
      cases answer
    | ok text' =>
      rw [hencode] at answer
      cases answer
      cases continued
      -- the next page was answered, so its cursor was taken back
      have hcontinues : search.Continues m mismatch := by
        obtain ⟨-, page', hanswer⟩ := rest.answered
        obtain ⟨-, -, resume, hresume⟩ := valid_of_grep hanswer
        refine ⟨fun cursor hcursor => ?_, ?_⟩
        · rw [hbuilt] at hcursor
          cases hcursor
          unfold encodeGrepCursor at hencode
          split at hencode
          · cases hencode
          · omega
        · by_contra hdrive
          rw [hhit.resumeOf (.inl rfl) hbuilt hencode, if_neg hdrive] at hresume
          cases hresume
      obtain ⟨hencoded, hnext⟩ := hcontinue hcontinues
      rw [hencode] at hencoded
      cases hencoded
      obtain ⟨hpages, hrest⟩ := ih hnext
      refine ⟨hpages.cons hm (hlimits k) rest.answered.1, fun i m' mismatch' hi hm' => ?_⟩
      rcases Nat.eq_or_lt_of_le hi with rfl | hi
      · rw [hm] at hm'
        cases hm'
        exact hcontinues
      · exact hrest i m' mismatch' hi hm'

/-- The pages can be followed when every match at the end of one can be continued. -/
private theorem At.follows (hat : search.At limits k cursor)
    (hcontinues : ∀ i m mismatch, k ≤ i → search.whole.found[pageStart limits (i + 1) - 1]? = some (m, mismatch) →
      search.Continues m mismatch) : ∃ pages, search.Follows limits k cursor pages := by
  induction hn : search.whole.found.length + 1 - pageStart limits k using Nat.strong_induction_on
    generalizing k cursor with
  | _ n ih =>
    have hsucc := pageStart_succ limits k
    have hlimit := hlimits k
    rcases Nat.lt_or_ge search.whole.found.length (pageStart limits (k + 1)) with hend | hroom
    · obtain ⟨verdict, -, hgrep⟩ := hat.last hprinted hexists hpre hlimit hend
      exact ⟨_, .last hgrep rfl⟩
    obtain ⟨⟨m, mismatch⟩, hm⟩ : ∃ found, search.whole.found[pageStart limits (k + 1) - 1]? = some found :=
      ⟨_, List.getElem?_eq_getElem (by omega)⟩
    obtain ⟨next, path, snapshot, hhit, hbuilt, hgrep, hcontinue⟩ := hat.full hprinted hnul hexists hpre hlimit hm
    obtain ⟨hencode, hnext⟩ := hcontinue (hcontinues k m mismatch le_rfl hm)
    rw [hencode] at hgrep
    obtain ⟨pages, hpages⟩ := ih (search.whole.found.length + 1 - pageStart limits (k + 1)) (by omega) hnext
      (fun i m' mismatch' hi => hcontinues i m' mismatch' (by omega)) rfl
    exact ⟨_, .more hgrep rfl hpages⟩

omit hnul hlimits in
/-- One scan whose limit is not reached. -/
theorem grep_whole {bound : Int} (hbound : (search.whole.found.length : Int) < bound) :
    ∃ verdict : Option StoppedBy, verdict = (search.whole.stoppedBy <|>
        if search.whole.catalogMismatch then some .catalogMismatch else none) ∧
      search.grep bound none none = .ok ⟨search.whole.found.map Prod.fst, verdict.isNone, verdict, none⟩ := by
  obtain ⟨verdict, hverdict, hgrep⟩ := (At.first fun _ => bound).last hprinted hexists hpre (by omega) (by
    rw [pageStart_succ]
    show _ < 0 + bound.toNat
    omega)
  exact ⟨verdict, hverdict, hgrep⟩

end

/-- A page that its limit does not end shows all the matches of the search. -/
theorem grep_unbounded (hprinted : search.Printed) (hnul : search.NulFree) (hexists : search.targetExists = .ok true)
    {bound : Int} {whole : GrepPage} (hwhole : search.grep bound none none = .ok whole)
    (hunbounded : whole.stoppedBy ≠ some .limit) :
    (search.pre = "" ∨ Normalized search.pre) ∧ whole.items = search.whole.found.map Prod.fst ∧
      whole.stoppedBy = (search.whole.stoppedBy <|>
        if search.whole.catalogMismatch then some .catalogMismatch else none) ∧
      whole.complete = whole.stoppedBy.isNone := by
  obtain ⟨hbound, hpre, -⟩ := valid_of_grep hwhole
  have hroom : (search.whole.found.length : Int) < bound := by
    by_contra hfull
    obtain ⟨⟨m, mismatch⟩, hm⟩ : ∃ found, search.whole.found[pageStart (fun _ => bound) (0 + 1) - 1]? = some found := by
      refine ⟨_, List.getElem?_eq_getElem ?_⟩
      rw [pageStart_succ]
      show 0 + bound.toNat - 1 < _
      omega
    obtain ⟨next, -, -, -, -, hgrep, -⟩ :=
      (At.first fun _ => bound).full hprinted hnul hexists hpre hbound hm
    rw [hwhole] at hgrep
    cases hencode : encodeGrepCursor next with
    | error e =>
      rw [hencode] at hgrep
      cases hgrep
    | ok text =>
      rw [hencode] at hgrep
      cases hgrep
      exact hunbounded rfl
  obtain ⟨verdict, hverdict, hgrep⟩ := grep_whole hprinted hexists hpre hroom
  rw [hwhole] at hgrep
  cases hgrep
  exact ⟨hpre, rfl, hverdict, rfl⟩

/-- Following the cursors of a search gives the matches of one unbounded scan in the same order, in full pages but for
the last one, which ends as that scan does, if and only if every match at the end of a page can be continued. -/
theorem pages_iff (hprinted : search.Printed) (hnul : search.NulFree) (hexists : search.targetExists = .ok true)
    {bound : Int} {whole : GrepPage} (hwhole : search.grep bound none none = .ok whole)
    (hunbounded : whole.stoppedBy ≠ some .limit) (hlimits : ∀ k, 0 < limits k) :
    (∃ pages, search.Follows limits 0 none pages ∧ pages.flatMap (·.items) = whole.items ∧
        (∀ i page, pages[i]? = some page → i + 1 < pages.length → (page.items.length : Int) = limits i) ∧
        ∀ page, pages.getLast? = some page → page.complete = whole.complete ∧ page.stoppedBy = whole.stoppedBy) ↔
      ∀ k m mismatch, search.whole.found[pageStart limits (k + 1) - 1]? = some (m, mismatch) →
        search.Continues m mismatch := by
  obtain ⟨hpre, hitems, hstopped, hcomplete⟩ := grep_unbounded hprinted hnul hexists hwhole hunbounded
  constructor
  · rintro ⟨pages, hfollows, -⟩ k m mismatch hm
    exact (hfollows.pages hprinted hnul hexists hpre hlimits (.first limits)).2 k m mismatch (Nat.zero_le k) hm
  · intro hcontinues
    obtain ⟨pages, hfollows⟩ := (At.first limits).follows hprinted hnul hexists hpre hlimits
      fun i m mismatch _ => hcontinues i m mismatch
    obtain ⟨hpages, -⟩ := hfollows.pages hprinted hnul hexists hpre hlimits (.first limits)
    refine ⟨pages, hfollows, hpages.items.trans hitems.symm, fun i page hpage hnext => ?_, fun page hlast => ?_⟩
    · have hfull := hpages.full i page hpage hnext
      rwa [Nat.zero_add] at hfull
    · obtain ⟨hends, hcompletes⟩ := hpages.last page hlast
      rw [hcompletes, hcomplete, hends, hstopped]
      exact ⟨rfl, rfl⟩

end GrepSearch

/-- The search of `driveStore` that finds the match in `notes/a` only. -/
def onceSearch : GrepSearch :=
  ⟨driveStore, "needle", "notes", ⟨0, [.event .matched (some (treePath "notes/a"))
    ⟨some 1, some 0, some [110, 101, 101, 100, 108, 101, 10], some (some 0, some 6)⟩], 0⟩⟩

theorem onceSearch_whole : onceSearch.whole = ⟨[(driveMatch "notes/a", true)], none, true⟩ := by rfl

theorem onceSearch_continues : onceSearch.Continues (driveMatch "notes/a") true := by
  refine ⟨fun cursor hcursor => ?_, by decide⟩
  have hbuilt : grepCursorForMatch onceSearch.pre onceSearch.patternHash (driveMatch "notes/a") true .afterMatch =
      .ok ⟨hashText "notes", onceSearch.patternHash, "a", some (driveMatch "notes/a").contentHash, .afterMatch,
        some (1, 0, 6), true, 3⟩ := by rfl
  rw [hbuilt] at hcursor
  cases hcursor
  have hsize := utf8ByteSize_value (c := ⟨hashText "notes", onceSearch.patternHash, "a",
    some (driveMatch "notes/a").contentHash, .afterMatch, some (1, 0, 6), true, 3⟩) (isContentHash_contentHash _)
    (isContentHash_contentHash _) rfl (isContentHash_contentHash _) rfl
  have hroom : cursorFrame .afterMatch true (1, 0, 6) + jsonWidth "a" ≤ 3072 := by decide
  unfold GrepCursor.text base64Length grepMaxCursorBytes
  rw [hsize]
  dsimp only
  omega

theorem onceSearch_printed : onceSearch.Printed := by
  refine ⟨.inl rfl, .inl rfl, ?_, List.pairwise_singleton _ _⟩
  intro r hr
  rw [List.mem_singleton.1 hr]
  refine ⟨"notes/a", by decide, rfl, .inr (by decide), fun _ => ?_⟩
  exact ⟨1, 0, _, 0, 6, rfl, by decide, by decide, by decide⟩

theorem onceSearch_nulFree : onceSearch.NulFree := by
  intro path data hmem
  have hpath : treePath path = treePath "notes/a" := by
    rw [onceSearch, List.mem_singleton] at hmem
    injection hmem with _ hpath
    exact Option.some.inj hpath
  rw [hpath]
  unfold snapshotGrepFile
  show 0 ∉ ([110, 101, 101, 100, 108, 101, 10] : List UInt8)
  decide

/-- Pages of one match: the page with the match and an empty one. -/
theorem onceSearch_pages : ∃ pages, onceSearch.Follows (fun _ => 1) 0 none pages ∧
    pages.flatMap (·.items) = [driveMatch "notes/a"] := by
  have hprinted := onceSearch_printed
  have hnul := onceSearch_nulFree
  have hexists : onceSearch.targetExists = .ok true := by rfl
  have hfew : (onceSearch.whole.found.length : Int) < 2 := by
    rw [onceSearch_whole]
    decide
  obtain ⟨verdict, hverdict, hwhole⟩ := GrepSearch.grep_whole hprinted hexists (.inr (by decide)) hfew
  rw [onceSearch_whole] at hverdict hwhole
  have hunbounded : verdict ≠ some .limit := by
    rw [hverdict]
    simp
  obtain ⟨pages, hfollows, hitems, -⟩ := (GrepSearch.pages_iff hprinted hnul hexists hwhole hunbounded
    (show ∀ _ : Nat, (0 : Int) < 1 from fun _ => by decide)).2 (by
      intro k m mismatch hm
      rw [onceSearch_whole] at hm
      cases List.mem_singleton.1 (List.mem_of_getElem? hm)
      exact onceSearch_continues)
  exact ⟨pages, hfollows, hitems⟩

end Ctxd

import Ctxd.GrepPaging

/-!
# Searches whose deadlines expire

The deadline of a call can expire before the scan, between two records, while a file is looked at or while ripgrep
exits. Its page then shows the matches found so far, and the cursor names the last of them, or is the one of the
call.  Only while a file is read the deadline counts as an error of that file: the page ends with a mismatch and has
no cursor.  So whatever deadlines expire, the pages of a search show the matches of one scan without a gap and
without repeating any of them, and only such a page leaves the rest of them out (`asked_pages`).
-/

namespace Ctxd

/-! ### What is shown of a part -/

/-- The same matches after a mismatch was seen. -/
def GrepShowing.carry (inherited : Bool) (shown : GrepShowing) : GrepShowing :=
  ⟨shown.found.map fun found => (found.1, inherited || found.2), shown.stoppedBy, inherited || shown.catalogMismatch⟩

/-- A mismatch that was seen before changes only the flags. -/
private theorem showing_or (inherited mismatch : Bool) (sights : List GrepSight) :
    showing (inherited || mismatch) sights = (showing mismatch sights).carry inherited := by
  induction sights generalizing mismatch with
  | nil => rfl
  | cons sight sights ih =>
    cases sight with
    | tooLong => rfl
    | unverified path => simp [showing, GrepShowing.carry]
    | nothing | border path => exact ih mismatch
    | hit path snapshot m => simp [showing, GrepShowing.carry, Bool.or_assoc, ih]

private theorem showing_catalogMismatch {mismatch : Bool} (sights : List GrepSight) (h : mismatch = true) :
    (showing mismatch sights).catalogMismatch = true := by
  subst h
  rw [show true = (true || false) from rfl, showing_or]
  rfl

private theorem showing_flags {mismatch : Bool} {sights : List GrepSight} {m : GrepMatch} {flag : Bool}
    (hmem : (m, flag) ∈ (showing mismatch sights).found) (hflag : flag = true) :
    (showing mismatch sights).catalogMismatch = true := by
  induction sights generalizing mismatch with
  | nil => cases hmem
  | cons sight sights ih =>
    cases sight with
    | tooLong => cases hmem
    | unverified path => cases hmem
    | nothing | border path => exact ih hmem
    | hit path snapshot m' =>
      simp only [showing, List.mem_cons, Prod.mk.injEq] at hmem ⊢
      rcases hmem with ⟨-, rfl⟩ | hmem
      · exact showing_catalogMismatch sights hflag
      · exact ih hmem

/-- What is shown in a quiet part comes before the rest. -/
private theorem showing_append {front : List GrepSight} (hquiet : Quiet front) (mismatch : Bool)
    (rest : List GrepSight) :
    showing mismatch (front ++ rest) =
      let shown := showing (showing mismatch front).catalogMismatch rest
      { shown with found := (showing mismatch front).found ++ shown.found } := by
  induction front generalizing mismatch with
  | nil => rfl
  | cons sight front ih =>
    have hfront : Quiet front := fun sight' hsight' => hquiet sight' (List.mem_cons_of_mem _ hsight')
    obtain ⟨hlong, hunverified⟩ := hquiet sight (List.mem_cons_self ..)
    cases sight with
    | tooLong => exact absurd rfl hlong
    | unverified path => exact absurd rfl (hunverified path)
    | nothing | border path => exact ih hfront mismatch
    | hit path snapshot m =>
      have hrest := ih hfront (mismatch || snapshot.catalogMismatch)
      simp only [List.cons_append, showing, hrest]

/-- The last match of a part. -/
def GrepShowing.last (shown : GrepShowing) : Option GrepMatch := shown.found.getLast?.map Prod.fst

/-- A scan that has found its place and reads on: it shows the matches of what it has read. -/
private theorem GrepTarget.Shows.watch_next {t : GrepTarget} {s s' : GrepScan} {front : List GrepSight} (h : t.Shows s)
    (hwatch : t.watch s front = .next s') :
    Quiet front ∧ s' = { s with
      grepMatches := s.grepMatches ++ (showing s.catalogMismatch front).found.map Prod.fst
      catalogMismatch := (showing s.catalogMismatch front).catalogMismatch
      lastMatch := (showing s.catalogMismatch front).last <|> s.lastMatch } := by
  induction front generalizing s with
  | nil =>
    cases hwatch
    refine ⟨by simp [Quiet], ?_⟩
    simp [showing, GrepShowing.last]
  | cons sight front ih =>
    have hskip : sight ≠ .tooLong → (∀ path, sight ≠ .unverified path) → t.watch s front = .next s' →
        showing s.catalogMismatch (sight :: front) = showing s.catalogMismatch front → Quiet (sight :: front) ∧ s' =
          { s with
          grepMatches := s.grepMatches ++ (showing s.catalogMismatch (sight :: front)).found.map Prod.fst
          catalogMismatch := (showing s.catalogMismatch (sight :: front)).catalogMismatch
          lastMatch := (showing s.catalogMismatch (sight :: front)).last <|> s.lastMatch } := by
      intro hlong hunverified hfront hsame
      obtain ⟨hquiet, hs'⟩ := ih h hfront
      refine ⟨?_, by rw [hsame]; exact hs'⟩
      intro sight' hsight'
      rcases List.mem_cons.1 hsight' with rfl | hsight'
      · exact ⟨hlong, hunverified⟩
      · exact hquiet sight' hsight'
    rw [watch, h.consume] at hwatch
    cases sight with
    | tooLong => cases hwatch
    | unverified path => cases hwatch
    | nothing => exact hskip (by simp) (by simp) hwatch rfl
    | border path => exact hskip (by simp) (by simp) hwatch rfl
    | hit path snapshot m =>
      dsimp only at hwatch
      by_cases hroom : s.grepMatches.length + 1 < t.limit
      swap
      · unfold append at hwatch
        dsimp only at hwatch
        rw [if_pos (by rw [List.length_append, List.length_singleton]; omega)] at hwatch
        revert hwatch
        cases grepCursorForMatch t.pre t.patternHash m (s.catalogMismatch || snapshot.catalogMismatch) .afterMatch <;>
          exact fun hwatch => by cases hwatch
      rw [append_room (s := { s with catalogMismatch := s.catalogMismatch || snapshot.catalogMismatch }) hroom]
        at hwatch
      have hnext : t.Shows { s with
          catalogMismatch := s.catalogMismatch || snapshot.catalogMismatch
          grepMatches := s.grepMatches ++ [m]
          lastMatch := some m } := ⟨h.found, h.direct, h.replayed⟩
      obtain ⟨hquiet, hs'⟩ := ih hnext hwatch
      refine ⟨?_, ?_⟩
      · intro sight' hsight'
        rcases List.mem_cons.1 hsight' with rfl | hsight'
        · exact ⟨by simp, by simp⟩
        · exact hquiet sight' hsight'
      · rw [hs']
        simp only [showing, List.map_cons, List.append_assoc, List.singleton_append, GrepShowing.last]
        cases hfound : (showing (s.catalogMismatch || snapshot.catalogMismatch) front).found with
        | nil => rfl
        | cons found rest => simp [List.getLast?_cons]

/-! ### Where a scan breaks off -/

/-- The scan was broken off in this state, before the record or while it was looked at: only the flag of the mismatch
can differ, when the file of the match disagrees with the catalog. -/
structure GrepScan.Late (store : GrepStore) (s : GrepScan) (rest : List RgRecord) (late : GrepScan) : Prop where
  found : late.anchorFound = s.anchorFound
  shown : late.grepMatches = s.grepMatches
  last : late.lastMatch = s.lastMatch
  flag : late.catalogMismatch = s.catalogMismatch ∨ late.catalogMismatch = true ∧
    ∃ path data more, rest = .event .matched (some (treePath path)) data :: more ∧ Normalized path ∧
      (snapshotGrepFile store path (treePath path)).catalogMismatch = true

/-- The page of a scan that breaks off because a file was not read in time. -/
def GrepScan.unread (s : GrepScan) : GrepScanResult := ⟨s.grepMatches, some .catalogMismatch, s.anchorFound, none, true⟩

private theorem GrepScan.Late.refl (store : GrepStore) (s : GrepScan) (rest : List RgRecord) : s.Late store rest s :=
  ⟨rfl, rfl, rfl, .inl rfl⟩

/-- A look at a match is the same without a deadline, or the deadline breaks it off, or the file is not read in time. -/
private theorem GrepScan.look_late {store : GrepStore} {s : GrepScan} {path : String} {data : RgMatchData}
    {rest : List RgRecord} (hnormal : Normalized path)
    (hcached : s.Cached store (.event .matched (some (treePath path)) data :: rest)) (moment : Option GrepMoment) :
    s.look store moment path (treePath path) data = s.look store none path (treePath path) data ∨
      (∃ late, s.look store moment path (treePath path) data = .late late ∧
        s.Late store (.event .matched (some (treePath path)) data :: rest) late) ∨
      moment = some .snapshot ∧ ∃ s', s.look store moment path (treePath path) data = .unverified s' ∧
        s'.result (some .catalogMismatch) none = s.unread := by
  obtain ⟨lines, hactivate, -⟩ := hcached.activate
  unfold GrepScan.look
  by_cases hunread : (!s.isActive path && decide (moment = some .snapshot)) = true
  · rw [if_pos hunread]
    refine .inr (.inr ⟨by simpa using (Bool.and_eq_true_iff.1 hunread).2, _, rfl, ?_⟩)
    simp [GrepScan.result, GrepScan.unread, unreadableFile]
  rw [if_neg hunread]
  simp only [reduceCtorEq, decide_false, Bool.and_false, Bool.false_eq_true, if_false, hactivate]
  by_cases hverified : (!(snapshotGrepFile store path (treePath path)).verified) = true
  · rw [if_pos hverified, if_pos hverified]
    exact .inl rfl
  rw [if_neg hverified, if_neg hverified]
  by_cases hlines : moment = some .lines
  swap
  · rw [if_neg hlines]
    exact .inl rfl
  rw [if_pos hlines]
  refine .inr (.inl ⟨_, rfl, rfl, rfl, rfl, ?_⟩)
  cases hflag : (snapshotGrepFile store path (treePath path)).catalogMismatch with
  | false => exact .inl (Bool.or_false _)
  | true => exact .inr ⟨Bool.or_true _, path, data, rest, rfl, hnormal, hflag⟩

/-- The deadline expires while the match of the first record is looked at. -/
private theorem GrepTarget.scan_cons_expiring (t : GrepTarget) (s : GrepScan) (r : RgRecord) (records : List RgRecord)
    (moment : GrepMoment) : t.scan (some (0, some moment)) s (r :: records) =
      (t.consumeRecord (some moment) s r).andThen fun s => t.scan none s records := rfl

/-- The deadline expires later than the first record. -/
private theorem GrepTarget.scan_cons_before (t : GrepTarget) (s : GrepScan) (r : RgRecord) (records : List RgRecord)
    (k : Nat) (moment : Option GrepMoment) : t.scan (some (k + 1, moment)) s (r :: records) =
      (t.consumeRecord none s r).andThen fun s => t.scan (some (k, moment)) s records := rfl

/-- How a search ends when its scan has come so far. -/
def GrepTarget.ended (t : GrepTarget) (returncode : Int) (expiry : Option GrepExpiry) (c : GrepConsumed) :
    Except GrepError GrepScanResult :=
  match c with
  | .done result => .ok result
  | .raised e => .error e
  | .late s => t.timedOut s
  | .next s => if expiry = some .exit then t.timedOut s else t.finish returncode s

/-- The deadline expires while the file of a match is read. -/
def GrepExpiry.inRead : Option GrepExpiry → Bool
  | some (.record _ (some .snapshot)) => true
  | _ => false

private theorem GrepExpiry.inRead_of_inScan {expiry : Option GrepExpiry} {i : Nat}
    (h : inScan expiry = some (i, some .snapshot)) : inRead expiry = true := by
  unfold inScan at h
  split at h
  · injection h with h
    injection h with _ hmoment
    rw [hmoment]
    rfl
  · cases h

namespace GrepSearch

variable {search : GrepSearch} {limit : Nat} {resume : Option GrepCursor}

/-- A record is the same without a deadline, or the deadline breaks the scan off, or a file is not read in time. -/
private theorem consumeRecord_late (hstart : legacyFileStart resume = false) {s : GrepScan} {r : RgRecord}
    {rest : List RgRecord} (hr : search.Reports r) (hcached : s.Cached search.store (r :: rest))
    (moment : Option GrepMoment) :
    (search.target limit resume).consumeRecord moment s r = (search.target limit resume).consumeRecord none s r ∨
      (∃ late, (search.target limit resume).consumeRecord moment s r = .late late ∧
        s.Late search.store (r :: rest) late) ∨
      moment = some .snapshot ∧ (search.target limit resume).consumeRecord moment s r = .done s.unread := by
  cases r with
  | oversized | other => exact .inl rfl
  | malformed | invalid => exact hr.elim
  | event type path data =>
    obtain ⟨path, hnormal, rfl, hevent⟩ := eventPath_of_reports limit resume hr
    have hconsume : ∀ moment, (search.target limit resume).consumeRecord moment s
      (.event type (some (treePath path)) data) =
        (search.target limit resume).consumeEvent moment s path (treePath path) data type := by
      intro moment
      have hdirect : legacyFileStart (search.target limit resume).resume = false := hstart
      simp only [GrepTarget.consumeRecord, hevent, hdirect, Bool.false_and, Bool.or_false, Bool.false_eq_true, if_false]
    rw [hconsume, hconsume]
    cases type with
    | began | ended => exact .inl rfl
    | matched =>
      have hactive : ({ s with active := { s.active with path := some path } } : GrepScan).Cached search.store
          (.event .matched (some (treePath path)) data :: rest) := hcached.of_active rfl rfl
      have hstore : (search.target limit resume).store = search.store := rfl
      simp only [GrepTarget.consumeEvent, hstore]
      by_cases hskip : (search.target limit resume).skips { s with active := { s.active with path := some path } }
        path = true
      · rw [if_pos hskip, if_pos hskip]
        exact .inl rfl
      rw [if_neg hskip, if_neg hskip]
      rcases GrepScan.look_late hnormal hactive moment with hsame | ⟨late, hlook, hlate⟩ | ⟨hmoment, s', hlook, hresult⟩
      · rw [hsame]
        exact .inl rfl
      · rw [hlook]
        exact .inr (.inl ⟨late, rfl, hlate.found, hlate.shown, hlate.last, hlate.flag⟩)
      · rw [hlook]
        exact .inr (.inr ⟨hmoment, congrArg GrepConsumed.done hresult⟩)

/-- A scan with a deadline is the scan without it, or it is broken off behind some of the records, there because of a
file that is not read in time or not. -/
private theorem scan_late (hstart : legacyFileStart resume = false) {records : List RgRecord}
    (hreports : ∀ r ∈ records, search.Reports r) (hordered : records.Pairwise RgRecord.Before) {s : GrepScan}
    (hcached : s.Cached search.store records) (expiry : Option (Nat × Option GrepMoment)) :
    (search.target limit resume).scan expiry s records = (search.target limit resume).scan none s records ∨
      ∃ front rest s', records = front ++ rest ∧ (search.target limit resume).scan none s front = .next s' ∧
        ((∃ late, (search.target limit resume).scan expiry s records = .late late ∧ s'.Late search.store rest late) ∨
          (∃ i, expiry = some (i, some .snapshot)) ∧
            (search.target limit resume).scan expiry s records = .done s'.unread) := by
  induction records generalizing s expiry with
  | nil =>
    rcases expiry with _ | ⟨_ | k, _ | moment⟩
    · exact .inl rfl
    · exact .inr ⟨[], [], s, rfl, rfl, .inl ⟨s, rfl, .refl _ _ _⟩⟩
    all_goals exact .inl rfl
  | cons r records ih =>
    have hr := hreports r (List.mem_cons_self ..)
    rw [List.pairwise_cons] at hordered
    have hscan := (search.target limit resume).scan_cons s r
    rcases expiry with _ | ⟨_ | k, moment⟩
    · exact .inl rfl
    · cases moment with
      | none => exact .inr ⟨[], r :: records, s, rfl, rfl, .inl ⟨s, rfl, .refl _ _ _⟩⟩
      | some moment =>
        rw [GrepTarget.scan_cons_expiring, hscan]
        rcases consumeRecord_late hstart hr hcached (some moment) with
          hsame | ⟨late, hconsume, hlate⟩ | ⟨hmoment, hconsume⟩
        · rw [hsame]
          exact .inl rfl
        · rw [hconsume]
          exact .inr ⟨[], r :: records, s, rfl, rfl, .inl ⟨late, rfl, hlate⟩⟩
        · rw [hconsume]
          exact .inr ⟨[], r :: records, s, rfl, rfl, .inr ⟨⟨0, by rw [hmoment]⟩, rfl⟩⟩
    · rw [GrepTarget.scan_cons_before, hscan]
      have hkept := (@consumeRecord_sight search limit resume s r records hr hordered.1 hcached).2
      cases hnext : (search.target limit resume).consumeRecord none s r with
      | done result | late s' | raised e => exact .inl rfl
      | next s' =>
        rcases ih (fun r' hr' => hreports r' (List.mem_cons_of_mem _ hr')) hordered.2 (hkept s' hnext)
          (some (k, moment))
          with hsame | ⟨front, rest, s'', rfl, hfront, hends⟩
        · exact .inl hsame
        · refine .inr ⟨r :: front, rest, s'', rfl, ?_, hends.imp_right fun hread => ⟨?_, hread.2⟩⟩
          · rw [hscan, hnext]
            exact hfront
          · obtain ⟨i, hi⟩ := hread.1
            injection hi with hi
            injection hi with hk hmoment
            rw [hmoment]
            exact ⟨k + 1, rfl⟩

/-! ### The page of a scan that breaks off -/

/-- The cursor behind a match, or that of the start. -/
def Names (search : GrepSearch) (last : Option GrepMatch) (mismatch : Bool) (cursor : GrepCursor) : Prop :=
  match last with
  | some m => grepCursorForMatch search.pre search.patternHash m mismatch .afterMatch = .ok cursor
  | none => cursor = grepSearchStartCursor search.prefixHash search.patternHash mismatch

/-- A page that shows so many matches and goes on behind them. -/
structure Shows (search : GrepSearch) (inherited : Bool) (last : Option GrepMatch) (shown : GrepShowing) (n : Nat)
    (result : GrepScanResult) : Prop where
  few : n ≤ shown.found.length
  items : result.grepMatches = (shown.found.take n).map Prod.fst
  next : ∃ cursor mismatch, result.nextCursor = some cursor ∧
    search.Names ((shown.found.take n).getLast?.map Prod.fst <|> last) mismatch cursor ∧
    (inherited = true → mismatch = true) ∧ (∀ found ∈ shown.found.take n, found.2 = true → mismatch = true) ∧
    (mismatch = true → shown.catalogMismatch = true)

/-- The file of the next match disagrees with the catalog. -/
private theorem showing_disagrees {path : String} {data : RgMatchData} {more : List RgRecord}
    (hnormal : Normalized path)
    (hflag : (snapshotGrepFile search.store path (treePath path)).catalogMismatch = true) (mismatch : Bool) :
    (showing mismatch ((.event .matched (some (treePath path)) data :: more).map search.store.sight)).catalogMismatch =
      true := by
  rw [List.map_cons, sight_event hnormal]
  cases search.store.verify path data with
  | none => rfl
  | some m =>
    simp only [showing, hflag, Bool.or_true]
    exact showing_catalogMismatch _ rfl

variable {call : Option GrepCursor} {inherited : Bool} {last : Option GrepMatch} {shown : GrepShowing}

/-- The cursor of a scan that is broken off behind its place. -/
private theorem timeoutCursor_names (hresumes : Resumes call resume inherited) {late : GrepScan}
    (hanchor : late.anchorFound = true)
    {last : Option GrepMatch} (hlast : late.lastMatch = last) {cursor : GrepCursor}
    (hcursor : (search.target limit resume).timeoutCursor late = .ok cursor) :
    search.Names last late.catalogMismatch cursor := by
  have hlogical : legacyLogicalResume resume = false := hresumes.logical
  have hstart : legacyFileStart resume = false := hresumes.start
  have hresume : (search.target limit resume).resume = resume := rfl
  unfold GrepTarget.timeoutCursor at hcursor
  rw [hresume, hlast] at hcursor
  cases resume with
  | none =>
    cases last with
    | none => exact (Except.ok.inj hcursor).symm
    | some m => exact hcursor
  | some next =>
    simp only [hlogical, hstart, hanchor, Bool.false_and, Bool.not_true, Bool.false_eq_true, if_false] at hcursor
    cases last with
    | none => exact (Except.ok.inj hcursor).symm
    | some m => exact hcursor

/-- A scan that has read some records has not found its place, or it has the matches up to there. -/
private theorem scan_front (hprinted : search.Printed) (hresumes : Resumes call resume inherited)
    (hreaches : search.Reaches resume inherited last shown) {front rest : List RgRecord} {s : GrepScan}
    (hrecords : search.rg.records = front ++ rest)
    (hscan : (search.target limit resume).scan none (startScan (search.target limit resume) inherited) front =
      .next s) :
    (s.anchorFound = false ∧ s.grepMatches = [] ∧ ∃ cursor, resume = some cursor) ∨
      ∃ read, Quiet read ∧ shown = showing inherited (read ++ rest.map search.store.sight) ∧ s.anchorFound = true ∧
        s.grepMatches = (showing inherited read).found.map Prod.fst ∧
        s.lastMatch = ((showing inherited read).last <|> last) ∧
        s.catalogMismatch = (showing inherited read).catalogMismatch := by
  obtain ⟨before, after, hsights, hsome, hstays, hfound, hshows, hcarried, hrest⟩ := hreaches limit
  -- what the scan has read, by its sights
  have hordered := hprinted.ordered
  have hreports := hprinted.reports
  rw [hrecords] at hordered hreports
  have hwatch := @scan_watch search limit resume _ _ (fun r hr => hreports r (List.mem_append_left _ hr))
    (List.pairwise_append.1 hordered).1 (startScan_cached (search.target limit resume) inherited front)
  rw [hscan] at hwatch
  have hforget : (startScan (search.target limit resume) inherited).forget =
      startScan (search.target limit resume) inherited := rfl
  rw [hforget] at hwatch
  have hsplit : front.map search.store.sight ++ rest.map search.store.sight = before ++ after := by
    rw [← List.map_append, ← hrecords]
    exact hsights
  by_cases hsought : ∃ more, before = front.map search.store.sight ++ more ∧ more ≠ []
  · -- its place is behind the records
    obtain ⟨more, hbefore, hmore⟩ := hsought
    rw [hstays _ _ hbefore hmore] at hwatch
    injection hwatch with hsame
    have hpresent : resume.isSome = true := hsome (by rw [hbefore]; simp [hmore])
    obtain ⟨cursor, rfl⟩ := Option.isSome_iff_exists.1 hpresent
    refine .inl ⟨?_, ?_, cursor, rfl⟩
    · rw [show s.anchorFound = s.forget.anchorFound from rfl, hsame]
      exact hresumes.start
    · rw [show s.grepMatches = s.forget.grepMatches from rfl, hsame]
      rfl
  · -- its place is among the records
    obtain ⟨read, hfront, hafter⟩ : ∃ read, front.map search.store.sight = before ++ read ∧
        after = read ++ rest.map search.store.sight := by
      rcases List.append_eq_append_iff.1 hsplit with ⟨more, hbefore, hafter⟩ | ⟨more, hfront, hafter⟩
      · have hnil : more = [] := by
          by_contra hmore
          exact hsought ⟨more, hbefore, hmore⟩
        subst hnil
        exact ⟨[], by simpa using hbefore.symm, by simpa using hafter.symm⟩
      · exact ⟨more, hfront, hafter⟩
    rw [hfront, GrepTarget.watch_append, hfound] at hwatch
    obtain ⟨hquiet, hs⟩ := hshows.watch_next hwatch.symm
    have hcarry : ({ startScan (search.target limit resume) inherited with anchorFound := true, lastMatch := last } :
        GrepScan).catalogMismatch = inherited := hcarried
    rw [hcarry] at hs
    refine .inr ⟨read, hquiet, by rw [← hrest, hafter], ?_, ?_, ?_, ?_⟩
    · rw [show s.anchorFound = s.forget.anchorFound from rfl, hs]
    · rw [show s.grepMatches = s.forget.grepMatches from rfl, hs]
      exact List.nil_append _
    · rw [show s.lastMatch = s.forget.lastMatch from rfl, hs]
    · rw [show s.catalogMismatch = s.forget.catalogMismatch from rfl, hs]

/-- A scan that is broken off has not found its place, or it shows the matches up to there. -/
private theorem timedOut_shows (hprinted : search.Printed) (hresumes : Resumes call resume inherited)
    (hreaches : search.Reaches resume inherited last shown) {front rest : List RgRecord} {s late : GrepScan}
    (hrecords : search.rg.records = front ++ rest)
    (hscan : (search.target limit resume).scan none (startScan (search.target limit resume) inherited) front = .next s)
    (hlate : s.Late search.store rest late) {result : GrepScanResult}
    (hresult : (search.target limit resume).timedOut late = .ok result) :
    result.stoppedBy = some .timeout ∧
      (result.grepMatches = [] ∧ (∃ cursor, resume = some cursor ∧ result.nextCursor = some cursor) ∨
        ∃ n, search.Shows inherited last shown n result) := by
  have hlogical : legacyLogicalResume (search.target limit resume).resume = false := hresumes.logical
  have hstart : legacyFileStart (search.target limit resume).resume = false := hresumes.start
  obtain ⟨cursor, hcursor, hresult⟩ := Program.bind_eq_ok.1 hresult
  rw [hlogical, if_neg Bool.false_ne_true] at hresult
  cases hresult
  refine ⟨rfl, ?_⟩
  show late.grepMatches = [] ∧ (∃ next, resume = some next ∧ some cursor = some next) ∨ _
  rcases scan_front hprinted hresumes hreaches hrecords hscan with
    ⟨hnone, hempty, next, rfl⟩ | ⟨read, hquiet, rfl, hfound, hread, hlast, hflag⟩
  · -- it is broken off before its place
    refine .inl ⟨hlate.shown.trans hempty, next, rfl, ?_⟩
    have hlost : late.anchorFound = false := hlate.found.trans hnone
    unfold GrepTarget.timeoutCursor at hcursor
    have hresume : (search.target limit (some next)).resume = some next := rfl
    rw [hresume] at hlogical hstart
    simp only [hresume, hlogical, hstart, hlost, Bool.false_and, Bool.not_false, Bool.false_eq_true, if_false,
      if_true] at hcursor
    rw [Except.ok.inj hcursor]
  · -- it is broken off behind its place
    rw [showing_append hquiet]
    have hraised : s.catalogMismatch = true → late.catalogMismatch = true := by
      intro h
      rcases hlate.flag with hsame | ⟨htrue, -⟩
      · rw [hsame, h]
      · exact htrue
    refine .inr ⟨(showing inherited read).found.length, ?_, ?_, cursor, late.catalogMismatch, rfl, ?_, ?_, ?_, ?_⟩
    · rw [List.length_append]
      exact Nat.le_add_right _ _
    · rw [List.take_left' rfl]
      exact hlate.shown.trans hread
    · rw [List.take_left' rfl]
      exact timeoutCursor_names hresumes (hlate.found.trans hfound) (hlate.last.trans hlast) hcursor
    · intro h
      exact hraised (hflag.trans (showing_catalogMismatch read h))
    · rw [List.take_left' rfl]
      intro found hmem h
      exact hraised (hflag.trans (showing_flags hmem h))
    · intro h
      rcases hlate.flag with hsame | ⟨-, path, data, next, hnext, hnormal, hdisagrees⟩
      · rw [hsame, hflag] at h
        exact showing_catalogMismatch _ h
      · rw [hnext]
        exact showing_disagrees hnormal hdisagrees _

/-- A page with a deadline is the one without it, or its scan is broken off. -/
private theorem grepTreeTarget_late (hprinted : search.Printed) (hresumes : Resumes call resume inherited)
    {expiry : Option GrepExpiry} (hstart : expiry ≠ some .start) :
    search.grepTreeTarget limit resume inherited expiry = search.grepTreeTarget limit resume inherited none ∨
      ∃ front rest s, search.rg.records = front ++ rest ∧
        (search.target limit resume).scan none (startScan (search.target limit resume) inherited) front = .next s ∧
        ((∃ late, s.Late search.store rest late ∧
          search.grepTreeTarget limit resume inherited expiry = (search.target limit resume).timedOut late) ∨
          GrepExpiry.inRead expiry = true ∧ search.grepTreeTarget limit resume inherited expiry = .ok s.unread) := by
  have hunfold : ∀ expiry, expiry ≠ some .start → search.grepTreeTarget limit resume inherited expiry =
      (search.target limit resume).ended search.rg.returncode expiry
        ((search.target limit resume).scan (GrepExpiry.inScan expiry)
          (startScan (search.target limit resume) inherited) search.rg.records) := by
    intro expiry hexpiry
    unfold grepTreeTarget
    simp only [hexpiry, if_false, hresumes.resumeSnapshot, hresumes.staleAnchor, Option.isSome_none, Bool.false_and,
      Bool.false_eq_true]
    rfl
  rw [hunfold expiry hstart, hunfold none (by simp)]
  by_cases hexit : expiry = some .exit
  · subst hexit
    rw [show GrepExpiry.inScan (some .exit) = none from rfl, show GrepExpiry.inScan none = none from rfl]
    cases hscan : (search.target limit resume).scan none (startScan (search.target limit resume) inherited)
        search.rg.records with
    | done result | raised e | late s => exact .inl rfl
    | next s => exact .inr ⟨search.rg.records, [], s, by simp, hscan, .inl ⟨s, .refl _ _ _, rfl⟩⟩
  rcases scan_late hresumes.start hprinted.reports hprinted.ordered
      (startScan_cached (search.target limit resume) inherited search.rg.records) (GrepExpiry.inScan expiry)
    with hsame | ⟨front, rest, s, hrecords, hfront, ⟨late, hscan, hlate⟩ | ⟨⟨i, hi⟩, hscan⟩⟩
  · refine .inl ?_
    rw [hsame, show GrepExpiry.inScan none = none from rfl]
    unfold GrepTarget.ended
    simp only [hexit, if_false, reduceCtorEq]
  · rw [hscan]
    exact .inr ⟨front, rest, s, hrecords, hfront, .inl ⟨late, hlate, rfl⟩⟩
  · rw [hscan]
    refine .inr ⟨front, rest, s, hrecords, hfront, .inr ⟨GrepExpiry.inRead_of_inScan hi, rfl⟩⟩

/-- The flags of the matches are raised and stay so. -/
private theorem showing_pairwise (mismatch : Bool) (sights : List GrepSight) :
    (showing mismatch sights).found.Pairwise fun x y => x.2 = true → y.2 = true := by
  have hraised : ∀ (sights : List GrepSight), ∀ y ∈ (showing true sights).found, y.2 = true := by
    intro sights y hy
    rw [show true = (true || false) from rfl, showing_or] at hy
    obtain ⟨x, -, rfl⟩ := List.mem_map.1 hy
    rfl
  induction sights generalizing mismatch with
  | nil => exact .nil
  | cons sight sights ih =>
    cases sight with
    | tooLong => exact .nil
    | unverified path => exact .nil
    | nothing | border path => exact ih mismatch
    | hit path snapshot m =>
      refine List.pairwise_cons.2 ⟨fun y hy hflag => ?_, ih _⟩
      dsimp only at hflag
      rw [hflag] at hy
      exact hraised sights y hy

/-- The page of a call that resumes somewhere: its place is not found in time, it goes on behind its matches, it
shows the rest of them, or it ends where a file was not read in time. -/
private theorem pageResult_page (hprinted : search.Printed) (hexists : search.targetExists = .ok true)
    (hresumes : Resumes call resume inherited) (hreaches : search.Reaches resume inherited last shown)
    (hlimit : 0 < limit)
    {expiry : Option GrepExpiry} {result : GrepScanResult} (h : search.pageResult limit call expiry = .ok result) :
    (result.grepMatches = [] ∧ result.stoppedBy = some .timeout ∧
        result.nextCursor = some (resume.getD (grepSearchStartCursor search.prefixHash search.patternHash inherited))) ∨
      (∃ n, search.Shows inherited last shown n result) ∨
      result = ⟨shown.found.map Prod.fst, shown.stoppedBy, true, none, shown.catalogMismatch⟩ ∨
      GrepExpiry.inRead expiry = true ∧ ∃ n ≤ shown.found.length,
        result = ⟨(shown.found.take n).map Prod.fst, some .catalogMismatch, true, none, true⟩ := by
  rw [hresumes.pageResult hexists] at h
  obtain ⟨tree, htree, h⟩ := Program.bind_eq_ok.1 h
  obtain ⟨rfl, hanchored⟩ : tree = result ∧ (tree.anchorFound = true ∨ tree.stoppedBy = some .timeout) := by
    split_ifs at h with hlost
    refine ⟨Except.ok.inj h, ?_⟩
    simp only [Bool.and_eq_true, Bool.not_eq_true', decide_eq_true_eq, not_and_or] at hlost
    exact hlost.imp (fun hfound => by simpa using hfound) (fun hstopped => by simpa using hstopped)
  by_cases hstart : expiry = some .start
  · subst hstart
    refine .inl ?_
    unfold grepTreeTarget at htree
    cases htree
    exact ⟨rfl, rfl, rfl⟩
  rcases grepTreeTarget_late hprinted hresumes hstart with
    hsame | ⟨front, rest, s, hrecords, hscan, ⟨late, hlate, hexpired⟩ | ⟨hread, hunread⟩⟩
  rotate_left
  · rw [hexpired] at htree
    obtain ⟨hstopped, ⟨hempty, next, rfl, hnext⟩ | hshows⟩ :=
      timedOut_shows hprinted hresumes hreaches hrecords hscan hlate htree
    · exact .inl ⟨hempty, hstopped, hnext⟩
    · exact .inr (.inl hshows)
  · rw [hunread] at htree
    cases htree
    have hanchor : s.anchorFound = true := hanchored.resolve_right (by simp [GrepScan.unread])
    rcases scan_front hprinted hresumes hreaches hrecords hscan with
      ⟨hnone, -⟩ | ⟨read, hquiet, rfl, -, hread', -⟩
    · rw [hanchor] at hnone
      cases hnone
    · refine .inr (.inr (.inr ⟨hread, (showing inherited read).found.length, ?_, ?_⟩))
      · rw [showing_append hquiet, List.length_append]
        exact Nat.le_add_right _ _
      · rw [showing_append hquiet, List.take_left' rfl, GrepScan.unread, hread', hanchor]
  -- the deadline does not break the scan off
  rw [hsame] at htree
  have hpage := hresumes.pageResult hexists limit none
  rw [htree] at hpage
  have hresult : search.pageResult limit call none = .ok tree := hpage.trans h
  rcases Nat.lt_or_ge shown.found.length limit with hroom | hfull
  · rw [pageResult_last hprinted hexists hresumes hreaches hroom] at hresult
    exact .inr (.inr (.inl (Except.ok.inj hresult).symm))
  obtain ⟨i, rfl⟩ : ∃ i, limit = i + 1 := ⟨limit - 1, by omega⟩
  obtain ⟨⟨m, mismatch⟩, hat⟩ : ∃ found, shown.found[i]? = some found := ⟨_, List.getElem?_eq_getElem (by omega)⟩
  obtain ⟨before, after, hsights, -, -, -, -, -, hshown⟩ := hreaches 0
  subst hshown
  obtain ⟨front, path, snapshot, rest, hsplit, -⟩ := showing_split hat
  have hhit : search.Hit path snapshot m := hit_of_mem hprinted (by rw [hsights, hsplit]; simp)
  obtain ⟨relative, -, -, hbuilt⟩ := hhit.cursor mismatch .afterMatch
  rw [pageResult_full hprinted hexists hresumes hreaches hat hbuilt] at hresult
  cases hresult
  refine .inr (.inl ⟨i + 1, hfull, rfl, _, mismatch, rfl, ?_, ?_, ?_, ?_⟩)
  · have hlength : ((showing inherited after).found.take (i + 1)).length = i + 1 := by
      rw [List.length_take]
      omega
    rw [List.getLast?_eq_getElem?, hlength, Nat.add_sub_cancel, List.getElem?_take_of_succ, hat]
    exact hbuilt
  · intro hinherited
    subst hinherited
    rw [show true = (true || false) from rfl, showing_or] at hat
    simp only [GrepShowing.carry, Bool.true_or, List.getElem?_map, Option.map_eq_some_iff, Prod.mk.injEq] at hat
    obtain ⟨_, -, -, hflag⟩ := hat
    exact hflag.symm
  · intro found hmem hflag
    obtain ⟨k, hk, rfl⟩ := List.mem_iff_getElem.1 hmem
    rw [List.length_take] at hk
    rw [List.getElem_take] at hflag
    have hlast : (showing inherited after).found[i] = (m, mismatch) := (List.getElem?_eq_some_iff.1 hat).2
    rcases Nat.lt_or_ge k i with hbefore | hsame
    · have hsorted := List.pairwise_iff_getElem.1 (showing_pairwise inherited after) k i (by omega) (by omega) hbefore
      rw [hlast] at hsorted
      exact hsorted hflag
    · obtain rfl : k = i := by omega
      rw [hlast] at hflag
      exact hflag
  · intro hflag
    exact showing_flags (List.mem_of_getElem? hat) hflag

/-! ### Places in the scan -/

/-- The cursor names the place behind the first `n` matches, with a mismatch that the scan comes to. -/
structure Marks (search : GrepSearch) (n : Nat) (mismatch : Bool) (cursor : GrepCursor) : Prop where
  few : n ≤ search.whole.found.length
  names : search.Names ((search.whole.found.take n).getLast?.map Prod.fst) mismatch cursor
  flagged : ∀ found ∈ search.whole.found.take n, found.2 = true → mismatch = true
  sound : mismatch = true → search.whole.catalogMismatch = true

private theorem marks_start (search : GrepSearch) :
    search.Marks 0 false (grepSearchStartCursor search.prefixHash search.patternHash false) :=
  ⟨Nat.zero_le _, rfl, by simp, by simp⟩

/-- The place of a call: the start, or that of its cursor. -/
inductive Stands (search : GrepSearch) : Nat → Option CursorText → Prop
  | first : Stands search 0 none
  | behind {n : Nat} {mismatch : Bool} {cursor : GrepCursor} {text : CursorText}
  (marks : search.Marks n mismatch cursor)
      (encoded : encodeGrepCursor cursor = .ok text) : Stands search n (some text)

variable {n : Nat} {mismatch : Bool} {cursor : GrepCursor} {cursorText : Option CursorText}

/-- A page that goes on behind its matches names the place there. -/
private theorem Marks.shows (h : search.Marks n mismatch cursor) {k : Nat} {result : GrepScanResult}
    (hshows : search.Shows mismatch ((search.whole.found.take n).getLast?.map Prod.fst)
      ((search.whole.behind n).carry mismatch) k result) :
    n + k ≤ search.whole.found.length ∧
      result.grepMatches = ((search.whole.found.drop n).take k).map Prod.fst ∧
      ∃ next mismatch', result.nextCursor = some next ∧ search.Marks (n + k) mismatch' next := by
  obtain ⟨hfew, hitems, next, mismatch', hnext, hnames, hcarried, hflagged, hsound⟩ := hshows
  have hfound : ((search.whole.behind n).carry mismatch).found.take k =
      ((search.whole.found.drop n).take k).map fun found => (found.1, mismatch || found.2) := by
    unfold GrepShowing.carry GrepShowing.behind
    rw [List.map_take]
  have hroom : n + k ≤ search.whole.found.length := by
    have hlength : ((search.whole.behind n).carry mismatch).found.length = search.whole.found.length - n := by
      unfold GrepShowing.carry GrepShowing.behind
      rw [List.length_map, List.length_drop]
    have := h.few
    omega
  refine ⟨hroom, ?_, next, mismatch', hnext, hroom, ?_, ?_, ?_⟩
  · rw [hitems, hfound, List.map_map]
    rfl
  · rw [List.take_add, List.getLast?_append]
    rw [hfound] at hnames
    cases hlast : ((search.whole.found.drop n).take k).getLast? with
    | none =>
      rw [List.getLast?_map, hlast] at hnames
      exact hnames
    | some found =>
      rw [List.getLast?_map, hlast] at hnames
      exact hnames
  · intro found hmem hflag
    rw [List.take_add, List.mem_append] at hmem
    rcases hmem with hmem | hmem
    · exact hcarried (h.flagged found hmem hflag)
    · refine hflagged (found.1, mismatch || found.2) ?_ (by simp [hflag])
      rw [hfound]
      exact List.mem_map.2 ⟨found, hmem, rfl⟩
  · intro hflag
    have hmismatch : (mismatch || search.whole.catalogMismatch) = true := hsound hflag
    rw [Bool.or_eq_true] at hmismatch
    exact hmismatch.elim h.sound id

/-- What a call makes of the cursor of a place. -/
private theorem Marks.resumes (h : search.Marks n mismatch cursor) (hprinted : search.Printed) (hnul : search.NulFree)
    {text : CursorText} (hencode : encodeGrepCursor cursor = .ok text) {resume : Option GrepCursor}
    (hresume : search.resumeOf (some text) = .ok resume) :
    resume = some cursor ∧ ∃ resumed, Resumes resume resumed mismatch ∧
      cursor = resumed.getD (grepSearchStartCursor search.prefixHash search.patternHash mismatch) ∧
      search.Reaches resumed mismatch ((search.whole.found.take n).getLast?.map Prod.fst)
        ((search.whole.behind n).carry mismatch) := by
  have hnames := h.names
  rcases Nat.eq_zero_or_pos n with rfl | hpos
  · -- the start of the search
    have hcursor : cursor = grepSearchStartCursor search.prefixHash search.patternHash mismatch := hnames
    have hwell : cursor.WellFormed := by
      subst hcursor
      exact ⟨isContentHash_contentHash _, isContentHash_contentHash _, ⟨rfl, rfl, rfl⟩⟩
    have hpath : CursorPath cursor.path := by
      subst hcursor
      exact .inl rfl
    have hversion : ({ cursor with version := 3 } : GrepCursor) = cursor := by
      subst hcursor
      rfl
    have hdecode := decodeGrepCursor_encodeGrepCursor hwell hencode
    rw [if_pos hpath, hversion] at hdecode
    have hsame := @resumeOf_decoded search _ _ hdecode (by rw [hcursor]; rfl) (by rw [hcursor]; rfl)
    rw [hresume] at hsame
    cases hsame
    refine ⟨rfl, none, ⟨rfl, rfl, by rw [hcursor]; rfl, by rw [hcursor]; rfl⟩, hcursor, ?_⟩
    have hstart := @reaches_start search mismatch
    rw [show mismatch = (mismatch || false) from (Bool.or_false _).symm, showing_or] at hstart
    rw [Bool.or_false] at hstart
    exact hstart
  · -- behind a match
    have hfew := h.few
    obtain ⟨⟨m, flag⟩, hat⟩ : ∃ found, search.whole.found[n - 1]? = some found :=
      ⟨_, List.getElem?_eq_getElem (by omega)⟩
    have hlast : (search.whole.found.take n).getLast? = some (m, flag) := by
      rw [List.getLast?_eq_getElem?, List.length_take, Nat.min_eq_left hfew, List.getElem?_take_of_lt (by omega), hat]
    rw [hlast] at hnames ⊢
    have hbuilt : grepCursorForMatch search.pre search.patternHash m mismatch .afterMatch = .ok cursor := hnames
    obtain ⟨front, path, snapshot, rest, hsights, -⟩ := showing_split hat
    have hhit : search.Hit path snapshot m := hit_of_mem hprinted (by rw [hsights]; simp)
    have htaken := hhit.resumeOf (.inl rfl) hbuilt hencode
    rw [hresume] at htaken
    by_cases hdrive : driveBelow search.pre m.path = false
    swap
    · rw [if_neg hdrive] at htaken
      cases htaken
    rw [if_pos hdrive] at htaken
    cases htaken
    have hmem := List.mem_of_getLast? hlast
    obtain ⟨after, hafter, hreaches⟩ := reaches_behind hprinted hnul hat (fun hflag => h.flagged _ hmem hflag) hbuilt
    obtain ⟨relative, -, -, hcursor⟩ := hhit.cursor mismatch .afterMatch
    rw [hbuilt] at hcursor
    have hmark : cursor.NamesMatch m ∧ cursor.catalogMismatch = mismatch := by
      rw [Except.ok.inj hcursor]
      exact ⟨⟨rfl, rfl, rfl, rfl⟩, rfl⟩
    refine ⟨rfl, some cursor, ?_, rfl, ?_⟩
    · have hafter := Resumes.after hmark.1
      rwa [hmark.2] at hafter
    · have hflag : mismatch = (mismatch || flag) := by
        cases hmismatch : mismatch with
        | true => rfl
        | false =>
          cases hflag : flag with
          | false => rfl
          | true =>
            have := h.flagged _ hmem hflag
            rw [hmismatch] at this
            cases this
      have hshown : showing mismatch after = (search.whole.behind n).carry mismatch := by
        conv_lhs => rw [hflag]
        rw [showing_or, hafter]
        unfold GrepShowing.behind
        rw [show n - 1 + 1 = n by omega]
      rw [hshown] at hreaches
      exact hreaches

private theorem Stands.few (h : search.Stands n cursorText) : n ≤ search.whole.found.length := by
  cases h with
  | first => exact Nat.zero_le _
  | behind marks encoded => exact marks.few

/-- What a call makes of its place. -/
private theorem Stands.resumes (h : search.Stands n cursorText) (hprinted : search.Printed) (hnul : search.NulFree)
    {resume : Option GrepCursor} (hresume : search.resumeOf cursorText = .ok resume) :
    ∃ resumed mismatch, Resumes resume resumed mismatch ∧
      search.Marks n mismatch (resumed.getD (grepSearchStartCursor search.prefixHash search.patternHash mismatch)) ∧
      search.Marks n mismatch (resume.getD (grepSearchStartCursor search.prefixHash search.patternHash false)) ∧
      (∀ text, cursorText = some text → ∃ cursor, resume = some cursor ∧ encodeGrepCursor cursor = .ok text) ∧
      search.Reaches resumed mismatch ((search.whole.found.take n).getLast?.map Prod.fst)
        ((search.whole.behind n).carry mismatch) := by
  cases h with
  | first =>
    cases hresume
    refine ⟨none, false, .none, search.marks_start, search.marks_start, by simp, ?_⟩
    have hstart := @reaches_start search (false || false)
    rw [showing_or] at hstart
    exact hstart
  | behind marks encoded =>
    obtain ⟨rfl, resumed, hresumes, hcursor, hreaches⟩ := marks.resumes hprinted hnul encoded hresume
    refine ⟨resumed, _, hresumes, hcursor ▸ marks, marks, fun text htext => ?_, hreaches⟩
    cases htext
    exact ⟨_, rfl, encoded⟩

/-- A call that answers, by the result of its scan. -/
private theorem grep_page {limit : Int} {expiry : Option GrepExpiry} {page : GrepPage}
    (h : search.grep limit cursorText expiry = .ok page) (hexpiry : expiry ≠ some .validation)
    {resume : Option GrepCursor} (hresume : search.resumeOf cursorText = .ok resume) :
    ∃ result, search.pageResult limit.toNat resume expiry = .ok result ∧ page.items = result.grepMatches ∧
      page.stoppedBy = result.verdict ∧ page.complete = page.stoppedBy.isNone ∧
      match result.nextCursor with
      | none => page.nextCursor = none
      | some next => ∃ text, page.nextCursor = some text ∧ (encodeGrepCursor next = .ok text ∨
          cursorText = some text ∧ some next = resume.filter fun cursor => cursor.mode ≠ .searchStart) := by
  obtain ⟨hlimit, hpre, -⟩ := valid_of_grep h
  have hvalid : (decide (search.pre ≠ "") && !decide (Normalized search.pre)) = false := by
    rcases hpre with hpre | hpre <;> simp [hpre]
  unfold grep at h
  rw [if_neg (by omega), hresume] at h
  simp only [hvalid, Bool.false_eq_true, if_false, hexpiry, bind, Except.bind] at h
  by_cases hpattern : search.rg.validation = 2
  · rw [if_pos hpattern] at h
    cases h
  rw [if_neg hpattern] at h
  by_cases hchecked : (decide (search.rg.validation ≠ 0) && decide (search.rg.validation ≠ 1)) = true
  · rw [if_pos hchecked] at h
    cases h
  rw [if_neg hchecked] at h
  cases hresult : search.pageResult limit.toNat resume expiry with
  | error e =>
    rw [hresult] at h
    cases h
  | ok result =>
    rw [hresult] at h
    refine ⟨result, rfl, ?_⟩
    unfold GrepScanResult.verdict
    dsimp only at h
    cases hnext : result.nextCursor with
    | none =>
      rw [hnext] at h
      cases h
      exact ⟨rfl, rfl, rfl, rfl⟩
    | some next =>
      rw [hnext] at h
      dsimp only at h
      by_cases hsame : (cursorText.isSome && decide (result.stoppedBy = some .timeout) &&
          decide (some next = resume.filter fun cursor => cursor.mode ≠ .searchStart)) = true
      · rw [if_pos hsame] at h
        cases h
        simp only [Bool.and_eq_true, decide_eq_true_eq] at hsame
        obtain ⟨text, rfl⟩ := Option.isSome_iff_exists.1 hsame.1.1
        exact ⟨rfl, rfl, rfl, text, rfl, .inr ⟨rfl, hsame.2⟩⟩
      · rw [if_neg hsame] at h
        cases hencode : encodeGrepCursor next with
        | error e =>
          rw [hencode] at h
          cases h
        | ok text =>
          rw [hencode] at h
          cases h
          exact ⟨rfl, rfl, rfl, text, rfl, .inl hencode⟩

/-- A call whose deadline expires while the pattern is checked. -/
private theorem grep_validation {limit : Int} {page : GrepPage}
    (h : search.grep limit cursorText (some .validation) = .ok page)
    {resume : Option GrepCursor} (hresume : search.resumeOf cursorText = .ok resume) :
    page.items = [] ∧ ∃ text, page.nextCursor = some text ∧
      encodeGrepCursor (resume.getD (grepSearchStartCursor search.prefixHash search.patternHash false)) = .ok text := by
  obtain ⟨hlimit, hpre, -⟩ := valid_of_grep h
  have hvalid : (decide (search.pre ≠ "") && !decide (Normalized search.pre)) = false := by
    rcases hpre with hpre | hpre <;> simp [hpre]
  unfold grep at h
  rw [if_neg (by omega), hresume] at h
  simp only [hvalid, Bool.false_eq_true, if_false, if_true, bind, Except.bind] at h
  cases hencode : encodeGrepCursor (resume.getD (grepSearchStartCursor search.prefixHash search.patternHash false)) with
  | error e =>
    rw [hencode] at h
    cases h
  | ok text =>
    rw [hencode] at h
    cases h
    exact ⟨rfl, text, rfl, rfl⟩

/-- A page shows the matches from its place on.  Its cursor is the place behind them.  Without one they are the last,
or a file was not read in time. -/
theorem Stands.page (h : search.Stands n cursorText) (hprinted : search.Printed) (hnul : search.NulFree)
    (hexists : search.targetExists = .ok true) {limit : Int} {expiry : Option GrepExpiry} {page : GrepPage}
    (hpage : search.grep limit cursorText expiry = .ok page) :
    ∃ k, n + k ≤ search.whole.found.length ∧ page.items = ((search.whole.found.drop n).take k).map Prod.fst ∧
      (∀ next, page.nextCursor = some next → search.Stands (n + k) (some next)) ∧
      (page.nextCursor = none → n + k = search.whole.found.length ∧
        page.stoppedBy = (search.whole.stoppedBy <|>
          if search.whole.catalogMismatch then some .catalogMismatch else none) ∧
        page.complete = page.stoppedBy.isNone ∨
        GrepExpiry.inRead expiry = true ∧ page.stoppedBy = some .catalogMismatch ∧ page.complete = false) := by
  obtain ⟨hlimit, -, resume, hresume⟩ := valid_of_grep hpage
  obtain ⟨resumed, mismatch, hresumes, hmarks, hkept, htexts, hreaches⟩ := h.resumes hprinted hnul hresume
  have hnothing : ∀ (text : CursorText) (cursor : GrepCursor) (mismatch : Bool), search.Marks n mismatch cursor →
      encodeGrepCursor cursor = .ok text → page.items = [] → page.nextCursor = some text →
      ∃ k, n + k ≤ search.whole.found.length ∧ page.items = ((search.whole.found.drop n).take k).map Prod.fst ∧
        (∀ next, page.nextCursor = some next → search.Stands (n + k) (some next)) ∧
        (page.nextCursor = none → n + k = search.whole.found.length ∧
          page.stoppedBy = (search.whole.stoppedBy <|>
            if search.whole.catalogMismatch then some .catalogMismatch else none) ∧
          page.complete = page.stoppedBy.isNone ∨
          GrepExpiry.inRead expiry = true ∧ page.stoppedBy = some .catalogMismatch ∧ page.complete = false) := by
    intro text cursor mismatch hmarks hencode hempty hnext
    refine ⟨0, h.few, by simp [hempty], fun next h' => ?_, fun h' => by rw [hnext] at h'; cases h'⟩
    rw [hnext] at h'
    cases h'
    exact .behind hmarks hencode
  by_cases hvalidation : expiry = some .validation
  · -- the call does not come to its scan
    subst hvalidation
    obtain ⟨hempty, text, hnext, hencode⟩ := grep_validation hpage hresume
    exact hnothing text _ _ hkept hencode hempty hnext
  obtain ⟨result, hresult, hitems, hstopped, hcomplete, hcursor⟩ := grep_page hpage hvalidation hresume
  -- the text of the next cursor is that of the cursor of the scan
  have htext : ∀ next, result.nextCursor = some next →
      ∃ text, page.nextCursor = some text ∧ encodeGrepCursor next = .ok text := by
    intro next hnext
    rw [hnext] at hcursor
    obtain ⟨text, hpagecursor, hencode | ⟨hcall, hsame⟩⟩ := hcursor
    · exact ⟨text, hpagecursor, hencode⟩
    · obtain ⟨cursor, rfl, hencode⟩ := htexts text hcall
      refine ⟨text, hpagecursor, ?_⟩
      cases (Option.filter_eq_some_iff.1 hsame.symm).1
      exact hencode
  rcases pageResult_page hprinted hexists hresumes hreaches (by omega) hresult with
    ⟨hempty, -, hnext⟩ | ⟨k, hshows⟩ | rfl | ⟨hread, k, hroom, rfl⟩
  · obtain ⟨text, hpagecursor, hencode⟩ := htext _ hnext
    exact hnothing text _ mismatch hmarks hencode (hitems.trans hempty) hpagecursor
  · obtain ⟨hroom, hmatches, next, mismatch', hnext, hmarked⟩ := hmarks.shows hshows
    obtain ⟨text, hpagecursor, hencode⟩ := htext next hnext
    refine ⟨k, hroom, hitems.trans hmatches, fun next' h' => ?_, fun h' => ?_⟩
    · rw [hpagecursor] at h'
      cases h'
      exact .behind hmarked hencode
    · rw [hpagecursor] at h'
      cases h'
  · have hfew := h.few
    refine ⟨search.whole.found.length - n, by omega, ?_, fun next h' => ?_, fun _ => .inl ⟨by omega, ?_, hcomplete⟩⟩
    · rw [hitems, List.take_of_length_le (by rw [List.length_drop])]
      unfold GrepShowing.carry GrepShowing.behind
      rw [List.map_map]
      rfl
    · rw [show page.nextCursor = none from hcursor] at h'
      cases h'
    · rw [hstopped]
      unfold GrepScanResult.verdict GrepShowing.carry GrepShowing.behind
      have hsound := hmarks.sound
      cases hflag : mismatch with
      | false => rfl
      | true => rw [hsound hflag]; rfl
  · have hlength : ((search.whole.behind n).carry mismatch).found.length = search.whole.found.length - n := by
      unfold GrepShowing.carry GrepShowing.behind
      rw [List.length_map, List.length_drop]
    have hfew := h.few
    refine ⟨k, by omega, ?_, fun next h' => ?_, fun _ => .inr ⟨hread, hstopped, ?_⟩⟩
    · rw [hitems]
      unfold GrepShowing.carry GrepShowing.behind
      rw [← List.map_take, List.map_map]
      rfl
    · rw [show page.nextCursor = none from hcursor] at h'
      cases h'
    · rw [hcomplete, hstopped]
      rfl

/-! ### Pages that are asked for in turn -/

/-- The pages of calls, each with the cursor of the page before.  On each of them a deadline may expire, on the last one
there. -/
inductive Asked (search : GrepSearch) (expiry : Option GrepExpiry) : Option CursorText → List GrepPage → Prop
  | once {cursor : Option CursorText} {limit : Int} {page : GrepPage}
  (answer : search.grep limit cursor expiry = .ok page) :
      Asked search expiry cursor [page]
  | more {cursor : Option CursorText} {limit : Int} {earlier : Option GrepExpiry} {page : GrepPage} {next : CursorText}
      {pages : List GrepPage} (answer : search.grep limit cursor earlier = .ok page)
      (continued : page.nextCursor = some next) (rest : Asked search expiry (some next) pages) :
      Asked search expiry cursor (page :: pages)

private theorem Asked.pages {expiry : Option GrepExpiry} {pages : List GrepPage}
    (h : search.Asked expiry cursorText pages)
    (hprinted : search.Printed) (hnul : search.NulFree) (hexists : search.targetExists = .ok true)
    (hstands : search.Stands n cursorText) :
    pages.flatMap (·.items) <+: (search.whole.found.drop n).map Prod.fst ∧
      ∀ page, pages.getLast? = some page → page.nextCursor = none →
        (pages.flatMap (·.items) = (search.whole.found.drop n).map Prod.fst ∧
          page.stoppedBy = (search.whole.stoppedBy <|>
            if search.whole.catalogMismatch then some .catalogMismatch else none) ∧
          page.complete = page.stoppedBy.isNone) ∨
        GrepExpiry.inRead expiry = true ∧ page.stoppedBy = some .catalogMismatch ∧ page.complete = false := by
  induction h generalizing n with
  | @once cursorText limit page answer =>
    obtain ⟨k, hroom, hitems, -, hlast⟩ := hstands.page hprinted hnul hexists answer
    rw [List.flatMap_singleton, hitems]
    refine ⟨(List.take_prefix _ _).map _, fun last hpage hnone => ?_⟩
    cases hpage
    refine (hlast hnone).imp_left fun ⟨hall, hverdict⟩ => ?_
    rw [List.take_of_length_le (by rw [List.length_drop]; omega)]
    exact ⟨rfl, hverdict⟩
  | @more cursorText limit earlier page next pages answer continued rest ih =>
    obtain ⟨k, hroom, hitems, hnext, -⟩ := hstands.page hprinted hnul hexists answer
    obtain ⟨hfirst, hlast⟩ := ih (hnext next continued)
    have hsplit : (search.whole.found.drop n).map Prod.fst =
        ((search.whole.found.drop n).take k).map Prod.fst ++ (search.whole.found.drop (n + k)).map Prod.fst := by
      rw [← List.map_append, ← List.drop_drop, List.take_append_drop]
    have hne : pages ≠ [] := by
      cases rest <;> simp
    rw [List.flatMap_cons, hitems, hsplit]
    refine ⟨(List.prefix_append_right_inj _).2 hfirst, fun last hpage hnone => ?_⟩
    rw [List.getLast?_cons, List.getLast?_eq_some_getLast hne] at hpage
    refine (hlast last (by rw [List.getLast?_eq_some_getLast hne]; exact hpage) hnone).imp_left
      fun ⟨hall, hverdict⟩ => ?_
    exact ⟨by rw [hall], hverdict⟩

/-- Whatever the limits of the calls are and wherever their deadlines expire, the pages of a search show the first
matches of one unbounded scan in the same order.  When the last one has no cursor, they show all of them and it ends as
that scan does, unless its deadline expired while a file was read: then it is incomplete and ends with a mismatch. -/
theorem asked_pages (hprinted : search.Printed) (hnul : search.NulFree) (hexists : search.targetExists = .ok true)
    {bound : Int} {whole : GrepPage} (hwhole : search.grep bound none none = .ok whole)
    (hunbounded : whole.stoppedBy ≠ some .limit) {expiry : Option GrepExpiry} {pages : List GrepPage}
    (hasked : search.Asked expiry none pages) :
    pages.flatMap (·.items) <+: whole.items ∧
      ∀ page, pages.getLast? = some page → page.nextCursor = none →
        (pages.flatMap (·.items) = whole.items ∧ page.complete = whole.complete ∧ page.stoppedBy = whole.stoppedBy) ∨
        GrepExpiry.inRead expiry = true ∧ page.stoppedBy = some .catalogMismatch ∧ page.complete = false := by
  obtain ⟨-, hitems, hstopped, hcomplete⟩ := grep_unbounded hprinted hnul hexists hwhole hunbounded
  obtain ⟨hfirst, hlast⟩ := hasked.pages hprinted hnul hexists .first
  rw [hitems]
  refine ⟨hfirst, fun page hpage hnone => ?_⟩
  refine (hlast page hpage hnone).imp_left fun ⟨hall, hends, hcompletes⟩ => ?_
  rw [hcompletes, hcomplete, hends, hstopped]
  exact ⟨hall, rfl, rfl⟩

end GrepSearch

/-- A search that times out when ripgrep exits: the page with the match has a cursor, and behind it comes an empty
page. -/
theorem onceSearch_asked : ∃ page last, onceSearch.Asked none none [page, last] ∧ page.stoppedBy = some .timeout ∧
    page.items ++ last.items = [driveMatch "notes/a"] := by
  have hexists : onceSearch.targetExists = .ok true := by rfl
  have hpre : onceSearch.pre = "" ∨ Normalized onceSearch.pre := .inr (by decide)
  have hwhole := onceSearch_whole
  obtain ⟨next, -, -, -, hbuilt, -, hnext⟩ :=
    (GrepSearch.At.first fun _ => 1).full onceSearch_printed onceSearch_nulFree
    hexists hpre (by decide) (show onceSearch.whole.found[0]? = some (driveMatch "notes/a", true) by rw [hwhole]; rfl)
  obtain ⟨hencode, hat⟩ := hnext onceSearch_continues
  -- the first page
  have hresult : onceSearch.pageResult 2 none (some .exit) =
      (grepCursorForMatch onceSearch.pre onceSearch.patternHash (driveMatch "notes/a") true .afterMatch).map
        fun cursor =>
        ⟨[driveMatch "notes/a"], some .timeout, true, some cursor, true⟩ := by rfl
  rw [hbuilt] at hresult
  have hfirst := @GrepSearch.grep_of_result onceSearch none 2 none (some .exit) _ (by decide) hpre (.inl rfl)
    (by simp) rfl
    hresult (.inl rfl)
  dsimp only at hfirst
  rw [hencode] at hfirst
  -- the second page
  obtain ⟨verdict, hverdict, hlast⟩ := hat.last onceSearch_printed hexists hpre (by decide) (by
    rw [hwhole]
    decide)
  have hasked : onceSearch.Asked none none [_, _] := .more hfirst rfl (.once hlast)
  have hfew : (onceSearch.whole.found.length : Int) < 2 := by
    rw [hwhole]
    decide
  obtain ⟨verdict', hverdict', hgrep⟩ := GrepSearch.grep_whole onceSearch_printed hexists hpre hfew
  have hunbounded : verdict' ≠ some .limit := by
    rw [hverdict', hwhole]
    simp
  have hall := (GrepSearch.asked_pages onceSearch_printed onceSearch_nulFree hexists hgrep hunbounded hasked).2 _ rfl
    rfl
  refine ⟨_, _, hasked, rfl, ?_⟩
  have hitems := (hall.resolve_right (by simp [GrepExpiry.inRead])).1
  rw [List.flatMap_cons, List.flatMap_singleton] at hitems
  exact hitems.trans (by rw [hwhole]; rfl)

end Ctxd

import Ctxd.GrepSights

/-!
# Where a page begins

A page starts the scan again and looks for the match that its cursor names.  When the files have no NUL, this match is
found at its record, and the page goes on with what comes behind it (`reaches_behind`).  Then the page shows the matches
behind its anchor and ends as the scan does (`pageResult_last`), or it is full and has the cursor of its last match
(`pageResult_full`).
-/

namespace Ctxd

/-! ### Finding the anchor -/

/-- A match is shown at its hit, and nothing before the hit ends the scan. -/
theorem showing_split {sights : List GrepSight} {i : Nat} {m : GrepMatch} {mismatch mismatch' : Bool}
    (hat : (showing mismatch sights).found[i]? = some (m, mismatch')) :
    ∃ front path snapshot rest, sights = front ++ .hit path snapshot m :: rest ∧
      showing mismatch' rest =
        (showing mismatch sights).behind (i + 1) ∧
      Quiet front ∧
      (∀ path' snapshot' m', .hit path' snapshot' m' ∈ front ++ [.hit path snapshot m] →
        snapshot'.catalogMismatch = true → mismatch' = true) ∧
      (mismatch = true → mismatch' = true) := by
  induction sights generalizing mismatch i with
  | nil => simp [showing] at hat
  | cons sight sights ih =>
    -- a sight that shows nothing is put in front
    have hskip : sight ≠ .tooLong → (∀ path, sight ≠ .unverified path) → (∀ path s m, sight ≠ .hit path s m) →
        showing mismatch (sight :: sights) = showing mismatch sights →
        ∃ front path snapshot rest, sight :: sights = front ++ .hit path snapshot m :: rest ∧
          showing mismatch' rest = (showing mismatch (sight :: sights)).behind (i + 1) ∧
          Quiet front ∧
          (∀ path' snapshot' m', .hit path' snapshot' m' ∈ front ++ [.hit path snapshot m] →
            snapshot'.catalogMismatch = true → mismatch' = true) ∧
          (mismatch = true → mismatch' = true) := by
      intro hlong hunverified hhit hsame
      rw [hsame] at hat ⊢
      obtain ⟨front, path, snapshot, rest, rfl, hrest, hquiet, hflags, hkept⟩ := ih hat
      refine ⟨sight :: front, path, snapshot, rest, rfl, hrest, ?_, ?_, hkept⟩
      · intro sight' hsight'
        rcases List.mem_cons.1 hsight' with rfl | hsight'
        · exact ⟨hlong, hunverified⟩
        · exact hquiet sight' hsight'
      · intro path' snapshot' m' hmem
        rcases List.mem_cons.1 hmem with heq | hmem
        · exact absurd heq.symm (hhit _ _ _)
        · exact hflags path' snapshot' m' hmem
    cases sight with
    | tooLong => simp [showing] at hat
    | unverified path => simp [showing] at hat
    | nothing => exact hskip (by simp) (by simp) (by simp) rfl
    | border path => exact hskip (by simp) (by simp) (by simp) rfl
    | hit path snapshot m' =>
      cases i with
      | zero =>
        simp only [showing, List.getElem?_cons_zero, Option.some.injEq, Prod.mk.injEq] at hat
        obtain ⟨rfl, rfl⟩ := hat
        refine ⟨[], path, snapshot, sights, rfl, by simp [showing, GrepShowing.behind], by simp [Quiet], ?_,
          fun h => by rw [h]; rfl⟩
        intro path' snapshot' m'' hmem hmismatch
        rw [List.nil_append, List.mem_singleton] at hmem
        cases hmem
        rw [hmismatch, Bool.or_true]
      | succ i =>
        simp only [showing, List.getElem?_cons_succ] at hat
        obtain ⟨front, path', snapshot', rest, rfl, hrest, hquiet, hflags, hkept⟩ := ih hat
        refine ⟨.hit path snapshot m' :: front, path', snapshot', rest, rfl, ?_, ?_, ?_, ?_⟩
        · rw [hrest]
          simp [showing, GrepShowing.behind]
        · intro sight' hsight'
          rcases List.mem_cons.1 hsight' with rfl | hsight'
          · exact ⟨by simp, by simp⟩
          · exact hquiet sight' hsight'
        · intro path'' snapshot'' m'' hmem hmismatch
          rcases List.mem_cons.1 hmem with heq | hmem
          · cases heq
            exact hkept (by rw [hmismatch, Bool.or_true])
          · exact hflags path'' snapshot'' m'' hmem hmismatch
        · intro hmismatch
          exact hkept (by rw [hmismatch, Bool.true_or])

/-- A scan by itself does not end because of a limit or a deadline. -/
theorem showing_stoppedBy (mismatch : Bool) (sights : List GrepSight) :
    (showing mismatch sights).stoppedBy ≠ some .limit ∧ (showing mismatch sights).stoppedBy ≠ some .timeout := by
  induction sights generalizing mismatch with
  | nil => simp [showing]
  | cons sight sights ih =>
    cases sight with
    | tooLong | unverified path => simp [showing]
    | nothing | border path => exact ih mismatch
    | hit path snapshot m => exact ih (mismatch || snapshot.catalogMismatch)

/-- The cursor after a match, in the order of the records. -/
structure GrepCursor.NamesMatch (cursor : GrepCursor) (m : GrepMatch) : Prop where
  version : cursor.version = 3
  mode : cursor.mode = .afterMatch
  anchor : cursor.anchor = some m.position
  hash : cursor.contentHash = some m.contentHash

private theorem GrepCursor.NamesMatch.direct {cursor : GrepCursor} {m : GrepMatch} (h : cursor.NamesMatch m) :
    legacyLogicalResume (some cursor) = false ∧ legacyFileStart (some cursor) = false := by
  unfold legacyLogicalResume legacyFileStart
  simp [h.mode, h.version]

/-- A content hash is not the identity of a path. -/
private theorem stat_isPrefixOf_contentHash {hash : String} (h : isContentHash hash = true) :
    "stat:".toList.isPrefixOf hash.toList = false := by
  unfold isContentHash at h
  simp only [Bool.and_eq_true, decide_eq_true_eq] at h
  obtain ⟨⟨htake, -⟩, -⟩ := h
  cases hlist : hash.toList with
  | nil => rfl
  | cons c cs =>
    rw [hlist] at htake
    have hc : c = 's' := by
      have := congrArg List.head? htake
      simpa using this
    cases cs with
    | nil => rw [hc]; rfl
    | cons d ds =>
      have hd : d = 'h' := by
        have := congrArg (fun l => l[1]?) htake
        simpa using this
      rw [hc, hd]
      rfl

namespace GrepTarget

variable {t : GrepTarget} {s : GrepScan} {cursor : GrepCursor} {m : GrepMatch}

/-- While a match is sought, its file is looked at and the others are skipped. -/
private theorem consume_sought (hresume : t.resume = some cursor) (hcursor : cursor.NamesMatch m)
    (hs : s.anchorFound = false)
    {path : String} {snapshot : GrepFileSnapshot} {m' : GrepMatch} (hvalid : isContentHash m.contentHash = true)
    (hsame : path = t.resumePath → snapshot.contentHash = m.contentHash)
    (hmismatch : snapshot.catalogMismatch = true → s.catalogMismatch = true) :
    t.consume s (.hit path snapshot m') =
      if path = t.resumePath ∧ m'.position = m.position then .next { s with anchorFound := true, lastMatch := some m' }
      else .next s := by
  obtain ⟨hlogical, hstart⟩ := hcursor.direct
  have harrive : t.arrive s = s := by
    unfold arrive
    rw [hresume, hstart, Bool.or_false]
  have hreplays : t.replays s path = false := by
    unfold replays
    rw [hresume, hstart]
    rfl
  have hskips : t.skips s path = decide (path ≠ t.resumePath) := by
    unfold skips
    rw [hresume, hlogical, hs]
    simp
  have hkept : { s with catalogMismatch := s.catalogMismatch || snapshot.catalogMismatch } = s := by
    cases hflag : snapshot.catalogMismatch with
    | false => rw [Bool.or_false]
    | true => rw [hmismatch hflag]; rw [Bool.true_or, ← hmismatch hflag]
  simp only [consume, hreplays, harrive, hskips, hkept, Bool.false_eq_true, if_false, decide_eq_true_eq]
  by_cases hfile : path = t.resumePath
  swap
  · rw [if_pos hfile, if_neg fun h => hfile h.1]
  rw [if_neg (not_not.2 hfile)]
  have hidentity : cursor.expectedIdentity snapshot = snapshot.contentHash := by
    unfold GrepCursor.expectedIdentity
    rw [hcursor.hash, Option.getD_some, stat_isPrefixOf_contentHash hvalid]
    rfl
  have hmode : cursor.mode ≠ .fileStart := by
    rw [hcursor.mode]
    simp
  unfold accept
  simp only [hresume, hlogical, hs, hidentity, hcursor.hash, hcursor.anchor, hsame hfile, ne_eq, not_true_eq_false,
    Bool.false_eq_true, if_false, hmode, Option.some.injEq]
  by_cases hposition : m'.position = m.position
  · rw [if_pos hposition.symm, if_pos ⟨hfile, hposition⟩]
  · rw [if_neg fun h => hposition h.symm, if_neg fun h => hposition h.2]

section

variable {front : List GrepSight} {path : String} {snapshot : GrepFileSnapshot}

variable (hresume : t.resume = some cursor) (hcursor : cursor.NamesMatch m) (hs : s.anchorFound = false)
  (hpath : t.resumePath = path) (hvalid : isContentHash m.contentHash = true)
  (hhits : ∀ path' snapshot' m', .hit path' snapshot' m' ∈ front ++ [.hit path snapshot m] →
    (path' = path → snapshot'.contentHash = m.contentHash) ∧
      (snapshot'.catalogMismatch = true → s.catalogMismatch = true))

include hresume hcursor hs hpath hvalid hhits

/-- What comes before the hit of the match that is sought is skipped. -/
private theorem consume_before (hquiet : Quiet front)
    (hapart : ∀ sight ∈ front, sight.Apart (.hit path snapshot m)) : ∀ sight ∈ front, t.consume s sight = .next s := by
  intro sight hsight
  obtain ⟨hlong, hunverified⟩ := hquiet sight hsight
  cases sight with
  | tooLong => exact absurd rfl hlong
  | unverified path' => exact absurd rfl (hunverified path')
  | nothing => rfl
  | border path' =>
    have hstart := hcursor.direct.2
    simp only [consume, replays, arrive, hresume, hstart, Bool.false_and, Bool.or_false, Bool.false_eq_true, if_false]
  | hit path' snapshot' m' =>
    obtain ⟨hsame, hmismatch⟩ := hhits path' snapshot' m' (List.mem_append_left _ hsight)
    rw [consume_sought hresume hcursor hs hvalid (fun h => hsame (h.trans hpath)) hmismatch, if_neg]
    rintro ⟨hfile, hposition⟩
    obtain rfl : path' = path := hfile.trans hpath
    exact hapart _ hsight path' snapshot' snapshot m' m rfl rfl hposition

/-- The hit of the match that is sought. -/
private theorem consume_found :
    t.consume s (.hit path snapshot m) = .next { s with anchorFound := true, lastMatch := some m } := by
  obtain ⟨hsame, hmismatch⟩ := hhits path snapshot m (by simp)
  rw [consume_sought hresume hcursor hs hvalid (fun h => hsame (h.trans hpath)) hmismatch, if_pos ⟨hpath.symm, rfl⟩]

end

theorem watch_append (s : GrepScan) (front rest : List GrepSight) :
    t.watch s (front ++ rest) =
      match t.watch s front with
      | .next s => t.watch s rest
      | other => other := by
  induction front generalizing s with
  | nil => rfl
  | cons sight front ih =>
    rw [List.cons_append, watch, watch]
    cases t.consume s sight with
    | next s' => exact ih s'
    | done result | late s' | raised e => rfl

private theorem watch_stays {front : List GrepSight} (h : ∀ sight ∈ front, t.consume s sight = .next s) :
    t.watch s front = .next s := by
  induction front with
  | nil => rfl
  | cons sight front ih =>
    rw [watch, h sight (List.mem_cons_self ..)]
    exact ih fun sight' hmem => h sight' (List.mem_cons_of_mem _ hmem)

end GrepTarget

/-! ### Where a page begins -/

/-- What a page says of its end. -/
def GrepScanResult.verdict (result : GrepScanResult) : Option StoppedBy :=
  result.stoppedBy <|> if result.catalogMismatch then some .catalogMismatch else none

namespace GrepSearch

variable {search : GrepSearch}

def sights (search : GrepSearch) : List GrepSight := search.rg.records.map search.store.sight

/-- What one scan of the whole search shows. -/
def whole (search : GrepSearch) : GrepShowing := showing false search.sights

theorem hit_of_mem (hprinted : search.Printed) {path : String} {snapshot : GrepFileSnapshot} {m : GrepMatch}
    (h : .hit path snapshot m ∈ search.sights) : search.Hit path snapshot m := by
  obtain ⟨r, hr, hsight⟩ := List.mem_map.1 h
  exact (hit_of_sight (hprinted.reports r hr) hsight).1

private theorem Hit.isContentHash {path : String} {snapshot : GrepFileSnapshot} {m : GrepMatch}
    (h : search.Hit path snapshot m) : Ctxd.isContentHash m.contentHash = true := by
  rw [h.hash, h.taken]
  exact isContentHash_snapshot _ _ _

/-- The path that a cursor keeps is put below the prefix again. -/
private theorem grepAbsolutePath_relative {pre path relative : String} (hpre : pre = "" ∨ Normalized pre)
    (hnormal : Normalized path) (h : grepRelativePath pre path = .ok relative) : grepAbsolutePath pre relative =
      path := by
  unfold grepRelativePath at h
  unfold grepAbsolutePath
  by_cases hempty : pre = ""
  · rw [if_pos hempty] at h ⊢
    exact (Except.ok.inj h).symm
  rw [if_neg hempty] at h ⊢
  by_cases hsame : path = pre
  · rw [if_pos hsame] at h
    cases h
    rw [if_pos rfl, hsame]
  rw [if_neg hsame] at h
  split at h
  swap
  · cases h
  rename_i hbelow
  cases h
  obtain ⟨rest, hrest⟩ := List.isPrefixOf_iff_prefix.1 hbelow
  have hdrop : path.toList.drop (pre.toList.length + 1) = rest := by
    rw [← hrest]
    exact List.drop_left' (by simp)
  rw [hdrop]
  have hpath : pre ++ "/" ++ String.ofList rest = path := by
    rw [← String.toList_inj, ← hrest]
    simp
  rw [if_neg ?_, hpath]
  intro hnil
  rw [hnil] at hpath
  rw [← hpath] at hnormal
  exact absurd ((normalized_below_iff "" (hpre.resolve_left hempty)).2 ⟨hnormal, by decide⟩) (by decide)

private theorem Hit.prefix_normal {path : String} {snapshot : GrepFileSnapshot} {m : GrepMatch}
    (h : search.Hit path snapshot m) : search.pre = "" ∨ Normalized search.pre :=
  h.inside.imp_right fun hinside => (pathIsWithinPrefix_ok hinside).2

/-- The cursor behind a match is built, and it names the match. -/
theorem Hit.cursor {path : String} {snapshot : GrepFileSnapshot} {m : GrepMatch} (h : search.Hit path snapshot m)
    (mismatch : Bool) (mode : GrepMode) :
    ∃ relative, grepRelativePath search.pre m.path = .ok relative ∧ grepAbsolutePath search.pre relative = path ∧
      grepCursorForMatch search.pre search.patternHash m mismatch mode =
        .ok ⟨search.prefixHash, search.patternHash, relative, some m.contentHash, mode, some m.position, mismatch,
          3⟩ := by
  obtain ⟨relative, hrelative, -⟩ := relative_of_within h.inside
  rw [← h.path] at hrelative
  refine ⟨relative, hrelative, ?_, ?_⟩
  · rw [h.path] at hrelative
    exact grepAbsolutePath_relative h.prefix_normal h.normal hrelative
  · unfold grepCursorForMatch
    rw [hrelative]
    rfl

/-- A page that resumes there, with this mismatch carried over, skips the records up to its place, the one behind the
last match, and shows what comes then. -/
def Reaches (search : GrepSearch) (resume : Option GrepCursor) (inherited : Bool) (last : Option GrepMatch)
    (shown : GrepShowing) : Prop :=
  ∀ limit, ∃ front rest, search.sights = front ++ rest ∧ (front ≠ [] → resume.isSome = true) ∧
    let s := startScan (search.target limit resume) inherited
    (∀ part more, front = part ++ more → more ≠ [] → (search.target limit resume).watch s part = .next s) ∧
      (search.target limit resume).watch s front = .next { s with anchorFound := true, lastMatch := last } ∧
      (search.target limit resume).Shows { s with anchorFound := true, lastMatch := last } ∧
      s.catalogMismatch = inherited ∧ showing inherited rest = shown

/-- The scan of the page after the place is found. -/
private theorem Reaches.shows {resume : Option GrepCursor} {inherited : Bool} {last : Option GrepMatch}
    {shown : GrepShowing} (h : search.Reaches resume inherited last shown) (limit : Nat) :
    ∃ s rest, (search.target limit resume).watch (startScan (search.target limit resume) inherited) search.sights =
        (search.target limit resume).watch s rest ∧
      (search.target limit resume).Shows s ∧ s.grepMatches = [] ∧ showing s.catalogMismatch rest = shown := by
  obtain ⟨front, rest, hsights, -, -, hwatch, hshows, hcarried, hrest⟩ := h limit
  refine ⟨{ startScan (search.target limit resume) inherited with anchorFound := true, lastMatch := last }, rest, ?_,
    hshows, rfl, ?_⟩
  · rw [hsights, GrepTarget.watch_append, hwatch]
  · exact (congrArg (showing · rest) hcarried).trans hrest

theorem reaches_start (inherited : Bool) : search.Reaches none inherited none (showing inherited search.sights) := by
  intro limit
  have hcarried : (startScan (search.target limit none) inherited).catalogMismatch =
    inherited := Bool.or_false inherited
  refine ⟨[], search.sights, rfl, fun h => absurd rfl h, fun part more hsplit hmore => ?_, rfl, ⟨rfl, rfl, fun h => ?_⟩,
    hcarried, rfl⟩
  · exact absurd (List.append_eq_nil_iff.1 hsplit.symm).2 hmore
  · cases h

/-- A page behind a match of the scan.  Its cursor may carry a mismatch that was seen behind the match. -/
theorem reaches_behind (hprinted : search.Printed) (hnul : search.NulFree) {i : Nat} {m : GrepMatch}
    {mismatch inherited : Bool} (hat : search.whole.found[i]? = some (m, mismatch))
    (hinherited : mismatch = true → inherited = true) {cursor : GrepCursor}
    (hcursor : grepCursorForMatch search.pre search.patternHash m inherited .afterMatch = .ok cursor) :
    ∃ rest, showing mismatch rest = search.whole.behind (i + 1) ∧
      search.Reaches (some cursor) inherited (some m) (showing inherited rest) := by
  obtain ⟨front, path, snapshot, rest, hsights, hrest, hquiet, hflags, -⟩ := showing_split hat
  refine ⟨rest, hrest, fun limit => ?_⟩
  have hall : ∀ path' snapshot' m', .hit path' snapshot' m' ∈ front ++ [.hit path snapshot m] →
      search.Hit path' snapshot' m' := by
    intro path' snapshot' m' hmem
    refine hit_of_mem hprinted ?_
    rw [hsights]
    rcases List.mem_append.1 hmem with hmem | hmem
    · exact List.mem_append_left _ hmem
    · rw [List.mem_singleton.1 hmem]
      simp
  have hhit := hall path snapshot m (by simp)
  obtain ⟨relative, -, habsolute, hbuilt⟩ := hhit.cursor inherited .afterMatch
  rw [hbuilt] at hcursor
  cases hcursor
  have hapart : ∀ sight ∈ front, sight.Apart (.hit path snapshot m) := by
    have hsorted := sights_apart hprinted hnul
    rw [show search.rg.records.map search.store.sight = front ++ .hit path snapshot m :: rest from hsights,
      List.pairwise_append] at hsorted
    exact fun sight hmem => hsorted.2.2 sight hmem _ (by simp)
  generalize hcursor : (⟨search.prefixHash, search.patternHash, relative, some m.contentHash, .afterMatch,
    some m.position, inherited, 3⟩ : GrepCursor) = cursor
  have hnames : cursor.NamesMatch m := by
    subst hcursor
    exact ⟨rfl, rfl, rfl, rfl⟩
  have hnone : (search.target limit (some cursor)).resumeSnapshot = none := by
    unfold target
    simp only [hnames.direct, Bool.or_false, Bool.false_eq_true, if_false]
  have hcarried : (startScan (search.target limit (some cursor)) inherited).catalogMismatch = inherited := by
    unfold startScan
    rw [hnone]
    exact Bool.or_false inherited
  have hpath : (search.target limit (some cursor)).resumePath = path := by
    subst hcursor
    exact habsolute
  have hhits : ∀ path' snapshot' m', .hit path' snapshot' m' ∈ front ++ [.hit path snapshot m] →
      (path' = path → snapshot'.contentHash = m.contentHash) ∧ (snapshot'.catalogMismatch = true →
        (startScan (search.target limit (some cursor)) inherited).catalogMismatch = true) := by
    intro path' snapshot' m' hmem
    refine ⟨fun hsame => ?_, fun hflag => ?_⟩
    · rw [(hall path' snapshot' m' hmem).taken, hhit.hash, hhit.taken, hsame]
    · rw [hcarried]
      exact hinherited (hflags path' snapshot' m' hmem hflag)
  have hbefore := GrepTarget.consume_before rfl hnames hnames.direct.2 hpath hhit.isContentHash hhits hquiet hapart
  refine ⟨front ++ [.hit path snapshot m], rest, by rw [hsights]; simp, fun _ => rfl, fun part more hsplit hmore =>
    ?_, ?_,
    ⟨rfl, hnames.direct.1, fun h => absurd (h.symm.trans hnames.direct.2) (by simp)⟩, hcarried, rfl⟩
  · refine GrepTarget.watch_stays fun sight hsight => hbefore sight ?_
    -- the part ends before the hit
    obtain ⟨more', last, rfl⟩ := (List.eq_nil_or_concat more).resolve_left hmore
    rw [List.concat_eq_append, ← List.append_assoc] at hsplit
    rw [(List.append_inj' hsplit rfl).1]
    exact List.mem_append_left _ hsight
  · rw [GrepTarget.watch_append, GrepTarget.watch_stays hbefore]
    show (search.target limit (some cursor)).watch _ [.hit path snapshot m] = _
    rw [GrepTarget.watch, GrepTarget.consume_found rfl hnames hnames.direct.2 hpath hhit.isContentHash hhits]
    rfl

/-- A page behind a match of the scan, with the mismatch up to the match. -/
theorem reaches_after (hprinted : search.Printed) (hnul : search.NulFree) {i : Nat} {m : GrepMatch} {mismatch : Bool}
    (hat : search.whole.found[i]? = some (m, mismatch)) {cursor : GrepCursor}
    (hcursor : grepCursorForMatch search.pre search.patternHash m mismatch .afterMatch = .ok cursor) :
    search.Reaches (some cursor) mismatch (some m)
      (search.whole.behind (i + 1)) := by
  obtain ⟨rest, hrest, hreaches⟩ := reaches_behind hprinted hnul hat id hcursor
  rwa [hrest] at hreaches

/-! ### One page -/

variable {limit : Nat} {resume resumed : Option GrepCursor} {inherited : Bool} {last : Option GrepMatch}
  {shown : GrepShowing}

/-- A page without a deadline, by the sights of its records. -/
private theorem grepTreeTarget_watch (hprinted : search.Printed) (limit : Nat) (inherited : Bool)
    (hstale : staleAnchor (search.target limit resume) = false) :
    search.grepTreeTarget limit resume inherited none =
      match (search.target limit resume).watch (startScan (search.target limit resume) inherited) search.sights with
      | .done result => .ok result
      | .raised e => .error e
      | .late s => (search.target limit resume).timedOut s
      | .next s => (search.target limit resume).finish search.rg.returncode s := by
  have hwatch := @scan_watch search limit resume _ _ hprinted.reports hprinted.ordered
    (startScan_cached (search.target limit resume) inherited search.rg.records)
  have hforget : (startScan (search.target limit resume) inherited).forget =
      startScan (search.target limit resume) inherited := rfl
  rw [hforget] at hwatch
  unfold grepTreeTarget sights
  rw [← hwatch]
  simp only [hstale, reduceCtorEq, if_false, decide_false, Bool.and_false, Bool.false_eq_true, GrepExpiry.inScan]
  cases (search.target limit resume).scan none (startScan (search.target limit resume) inherited) search.rg.records with
  | done result | raised e | late s => rfl
  | next s => rfl

/-- A call with this cursor continues in the order of the records: the scan resumes from it, or from the start. -/
structure Resumes (resume resumed : Option GrepCursor) (inherited : Bool) : Prop where
  logical : legacyLogicalResume resumed = false
  start : legacyFileStart resumed = false
  mode : resume.filter (fun cursor => cursor.mode ≠ .searchStart) = resumed
  carried : (resume.map (·.catalogMismatch)).getD false = inherited

theorem Resumes.none : Resumes none none false := ⟨rfl, rfl, rfl, rfl⟩

theorem Resumes.after {cursor : GrepCursor} {m : GrepMatch} (h : cursor.NamesMatch m) :
    Resumes (some cursor) (some cursor) cursor.catalogMismatch := by
  refine ⟨h.direct.1, h.direct.2, ?_, rfl⟩
  simp [h.mode]

theorem Resumes.resumeSnapshot (h : Resumes resume resumed inherited) (limit : Nat) :
    (search.target limit resumed).resumeSnapshot = .none := by
  unfold target
  simp only [h.logical, h.start, Bool.or_false, Bool.false_eq_true, if_false]

theorem Resumes.staleAnchor (h : Resumes resume resumed inherited) (limit : Nat) :
    GrepSearch.staleAnchor (search.target limit resumed) = false := by
  unfold GrepSearch.staleAnchor
  rw [h.resumeSnapshot]
  split <;> simp_all

/-- A page is the one of its scan, if the scan has found its place or has timed out. -/
theorem Resumes.pageResult (h : Resumes resume resumed inherited) (hexists : search.targetExists = .ok true)
    (limit : Nat) (expiry : Option GrepExpiry) :
    search.pageResult limit resume expiry = (search.grepTreeTarget limit resumed inherited expiry).bind fun result =>
      if !result.anchorFound && result.stoppedBy ≠ some .timeout then .error staleCursor else .ok result := by
  unfold GrepSearch.pageResult
  rw [hexists, h.mode, h.carried]
  rfl

/-- The last page of a search. -/
theorem pageResult_last (hprinted : search.Printed) (hexists : search.targetExists = .ok true)
    (hresumes : Resumes resume resumed inherited) (hreaches : search.Reaches resumed inherited last shown)
    (hroom : shown.found.length < limit) :
    search.pageResult limit resume none =
      .ok ⟨shown.found.map Prod.fst, shown.stoppedBy, true, none, shown.catalogMismatch⟩ := by
  obtain ⟨s, rest, hwatch, hshows, hempty, rfl⟩ := hreaches.shows limit
  have hshort : s.grepMatches.length + (showing s.catalogMismatch rest).found.length <
      (search.target limit resume).limit := by
    rw [hempty]
    show 0 + _ < limit
    omega
  obtain ⟨last, hlast⟩ := GrepTarget.watch_short hshows hshort
  have htree := grepTreeTarget_watch hprinted limit inherited (hresumes.staleAnchor limit)
  rw [hwatch, hlast] at htree
  rw [hresumes.pageResult hexists, htree]
  cases hstopped : (showing s.catalogMismatch rest).stoppedBy with
  | some stoppedBy =>
    simp only [GrepScan.result, hempty, List.nil_append, hshows.found]
    rfl
  | none =>
    have hcode : ¬(decide (search.rg.returncode ≠ 0) && decide (search.rg.returncode ≠ 1)) = true := by
      rcases hprinted.exited with h | h <;> simp [h]
    have hdirect : legacyLogicalResume (search.target limit resumed).resume = false := hresumes.logical
    simp only [GrepTarget.finish, hshows.found, Bool.not_true, Bool.false_eq_true, if_false, if_neg hcode, hdirect,
      GrepScan.result, hempty, List.nil_append]
    rfl

/-- A page that is full. -/
theorem pageResult_full (hprinted : search.Printed) (hexists : search.targetExists = .ok true)
    (hresumes : Resumes resume resumed inherited) (hreaches : search.Reaches resumed inherited last shown)
    {i : Nat} {m : GrepMatch} {mismatch : Bool} (hat : shown.found[i]? = some (m, mismatch)) {cursor : GrepCursor}
    (hcursor : grepCursorForMatch search.pre search.patternHash m mismatch .afterMatch = .ok cursor) :
    search.pageResult (i + 1) resume none =
      .ok ⟨(shown.found.take (i + 1)).map Prod.fst, some .limit, true, some cursor, mismatch⟩ := by
  obtain ⟨s, rest, hwatch, hshows, hempty, rfl⟩ := hreaches.shows (i + 1)
  have hfull := GrepTarget.watch_full hshows hat (by rw [hempty]; simp [target])
  have hbuilt : grepCursorForMatch (search.target (i + 1) resumed).pre (search.target (i + 1) resumed).patternHash m
      mismatch .afterMatch = .ok cursor := hcursor
  have htree := grepTreeTarget_watch hprinted (i + 1) inherited (hresumes.staleAnchor (i + 1))
  rw [hwatch, hfull, hbuilt, hempty, List.nil_append] at htree
  rw [hresumes.pageResult hexists, htree]
  rfl

/-! ### One call -/

/-- A call whose checks pass answers with the page of its scan. -/
theorem grep_of_result {limit : Int} {cursor : Option CursorText} {expiry : Option GrepExpiry} {result : GrepScanResult}
    (hlimit : 0 < limit) (hpre : search.pre = "" ∨ Normalized search.pre)
    (haccepted : search.rg.validation = 0 ∨ search.rg.validation = 1) (hexpiry : expiry ≠ some .validation)
    (hresume : search.resumeOf cursor = .ok resume) (hresult : search.pageResult limit.toNat resume expiry = .ok result)
    (hstopped : cursor = none ∨ result.stoppedBy ≠ some .timeout) :
    search.grep limit cursor expiry =
      match result.nextCursor with
      | none => .ok ⟨result.grepMatches, result.verdict.isNone, result.verdict, none⟩
      | some next => (encodeGrepCursor next).map fun text =>
          ⟨result.grepMatches, result.verdict.isNone, result.verdict, some text⟩ := by
  have hvalid : (decide (search.pre ≠ "") && !decide (Normalized search.pre)) = false := by
    rcases hpre with h | h <;> simp [h]
  have hpattern : search.rg.validation ≠ 2 := by omega
  have hchecked : (decide (search.rg.validation ≠ 0) && decide (search.rg.validation ≠ 1)) = false := by
    rcases haccepted with h | h <;> simp [h]
  unfold grep
  rw [if_neg (by omega), hresume]
  simp only [hvalid, Bool.false_eq_true, if_false]
  simp only [hexpiry, if_false, hpattern, hchecked, Bool.false_eq_true, hresult, bind, Except.bind]
  cases hnext : result.nextCursor with
  | none => rfl
  | some next =>
    have hother : (cursor.isSome && decide (result.stoppedBy = some .timeout) &&
        decide (some next = resume.filter fun cursor => cursor.mode ≠ .searchStart)) = false := by
      rcases hstopped with hstopped | hstopped <;> simp [hstopped]
    simp only [hother, Bool.false_eq_true, if_false]
    cases encodeGrepCursor next <;> rfl

theorem resumeOf_decoded {text : CursorText} {cursor : GrepCursor} (h : decodeGrepCursor text = .ok cursor)
    (hpre : cursor.prefixHash = search.prefixHash) (hpattern : cursor.patternHash = search.patternHash) :
    search.resumeOf (some text) = .ok (some cursor) := by
  unfold resumeOf
  simp only [h, bind, Except.bind, hpre, hpattern, ne_eq, not_true_eq_false, decide_false, Bool.or_false,
    Bool.false_eq_true, if_false]
  rfl

/-- What the next call makes of the cursor behind a match. -/
theorem Hit.resumeOf {path : String} {snapshot : GrepFileSnapshot} {m : GrepMatch} {mismatch : Bool}
    {cursor : GrepCursor} {text : CursorText} (h : search.Hit path snapshot m) {mode : GrepMode}
    (hmode : mode = .afterMatch ∨ mode = .legacyAfterMatch)
    (hcursor : grepCursorForMatch search.pre search.patternHash m mismatch mode = .ok cursor)
    (hencode : encodeGrepCursor cursor = .ok text) :
    search.resumeOf (some text) =
      if driveBelow search.pre m.path = false then .ok (some cursor) else .error invalidCursor := by
  obtain ⟨relative, hrelative, -, hbuilt⟩ := h.cursor mismatch mode
  rw [hbuilt] at hcursor
  cases hcursor
  have hline : 0 < m.position.1 := by
    obtain ⟨-, _, _, _, _, _, hverify⟩ := h.shown
    obtain ⟨_, _, _, _, _, -, hpositive, -⟩ := verifiedGrepMatch_some hverify
    exact hpositive
  have hwell := afterMatch_wellFormed relative m.position mismatch (isContentHash_contentHash search.pre.toUTF8)
    (isContentHash_contentHash search.pattern.toUTF8) h.isContentHash hmode hline
  have hnormal : Normalized m.path := h.path ▸ h.normal
  have hiff := cursorPath_relative_iff h.prefix_normal (.inr hnormal) hrelative
  have hdecode := decodeGrepCursor_encodeGrepCursor hwell hencode
  by_cases hdrive : driveBelow search.pre m.path = false
  · rw [if_pos (hiff.2 ⟨.inr hnormal, hdrive⟩)] at hdecode
    rw [if_pos hdrive]
    exact resumeOf_decoded hdecode rfl rfl
  · rw [if_neg fun hpath => hdrive (hiff.1 hpath).2] at hdecode
    rw [if_neg hdrive]
    unfold GrepSearch.resumeOf
    simp only [hdecode, bind, Except.bind]

end GrepSearch

end Ctxd

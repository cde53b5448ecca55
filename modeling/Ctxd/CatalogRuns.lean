import Ctxd.CatalogCalls
import Ctxd.CatalogKeys

/-!
# Registrations in any order of their statements

Every call asserts what it knows of the tables, and guarantees that it only adds rows with its own uuids and adopts rows
without an enrolment key.  While a call inserts, the rows have all the keys that it has tried, so it finds a free one
before the keys get too long.
-/

namespace Ctxd

open Sessions

/-! ### Tables -/

namespace Columns

variable {R Ω : Type} [DecidableEq Ω] {c : Columns R Ω} {rows : List R} {r r' new : R} {owner : Ω}
  {id registration : String}

/-- The keys of the table are not broken, the table is not too large, and the keys of its rows are valid. -/
structure Kept (c : Columns R Ω) (rows : List R) : Prop where
  apart : rows.Pairwise fun r r' => c.clash r r' = false
  length_le : rows.length ≤ maxRows
  keys : ∀ r ∈ rows, Machines.ValidKey (c.key r)

theorem clash_iff : c.clash r r' = true ↔
    c.owner r' = c.owner r ∧ (c.id r' = c.id r ∨ c.key r' = c.key r ∨ c.registration r' = c.registration r) := by
  unfold clash
  simp [or_assoc]

private theorem clash_comm (r r' : R) : c.clash r r' = c.clash r' r := by
  rw [Bool.eq_iff_iff, clash_iff, clash_iff, eq_comm, @eq_comm _ (c.id r'), @eq_comm _ (c.key r'),
    @eq_comm _ (c.registration r')]

theorem Kept.eq (h : c.Kept rows) (hr : r ∈ rows) (hr' : r' ∈ rows) (hclash : c.clash r r' = true) : r = r' := by
  by_contra hne
  have : Std.Symm fun r r' => c.clash r r' = false := ⟨fun r r' hfalse => by rwa [clash_comm]⟩
  have hfalse := h.apart.forall hr hr' hne
  rw [hclash] at hfalse
  cases hfalse

private theorem Kept.append (h : c.Kept rows) (hfull : rows.length < maxRows) (hfree : rows.any (c.clash new) = false)
    (hkey : Machines.ValidKey (c.key new)) : c.Kept (rows ++ [new]) := by
  refine ⟨?_, ?_, fun r hr => ?_⟩
  · rw [List.pairwise_append]
    refine ⟨h.apart, List.pairwise_singleton _ _, fun r hr r' hr' => ?_⟩
    obtain rfl := List.mem_singleton.1 hr'
    rw [clash_comm]
    rw [← Bool.not_eq_true]
    exact List.any_eq_false.1 hfree r hr
  · rw [List.length_append, List.length_singleton]
    omega
  · rcases List.mem_append.1 hr with hr | hr
    · exact h.keys r hr
    · rw [List.mem_singleton.1 hr]
      exact hkey

theorem Kept.map (h : c.Kept rows) {f : R → R} (howner : ∀ r, c.owner (f r) = c.owner r)
    (hid : ∀ r, c.id (f r) = c.id r)
    (hkey : ∀ r, c.key (f r) = c.key r) (hregistration : ∀ r, c.registration (f r) = c.registration r) :
    c.Kept (rows.map f) := by
  refine ⟨?_, ?_, fun r hr => ?_⟩
  · rw [List.pairwise_map]
    refine h.apart.imp fun {r r'} hfalse => ?_
    unfold clash at hfalse ⊢
    rw [howner, howner, hid, hid, hkey, hkey, hregistration, hregistration]
    exact hfalse
  · rw [List.length_map]
    exact h.length_le
  · obtain ⟨r0, hr0, rfl⟩ := List.mem_map.1 hr
    rw [hkey]
    exact h.keys r0 hr0

theorem Kept.byRegistration_of_mem (h : c.Kept rows) (hr : r ∈ rows) (howner : c.owner r = owner)
    (hregistration : c.registration r = registration) : c.byRegistration rows owner registration = some r := by
  unfold byRegistration
  cases hfind : rows.find? fun r => c.owner r = owner && c.registration r = registration with
  | none => simpa [howner, hregistration] using List.find?_eq_none.1 hfind r hr
  | some r' =>
    have hfound := List.find?_some hfind
    simp only [Bool.and_eq_true, decide_eq_true_eq] at hfound
    have hclash : c.clash r' r = true :=
      clash_iff.2 ⟨howner.trans hfound.1.symm, .inr (.inr (hregistration.trans hfound.2.symm))⟩
    rw [h.eq (List.mem_of_find?_eq_some hfind) hr hclash]

theorem Kept.byId_of_mem (h : c.Kept rows) (hr : r ∈ rows) (howner : c.owner r = owner) (hid : c.id r = id) :
    c.byId rows owner id = some r := by
  unfold byId
  cases hfind : rows.find? fun r => c.owner r = owner && c.id r = id with
  | none => simpa [howner, hid] using List.find?_eq_none.1 hfind r hr
  | some r' =>
    have hfound := List.find?_some hfind
    simp only [Bool.and_eq_true, decide_eq_true_eq] at hfound
    have hclash : c.clash r' r = true := clash_iff.2 ⟨howner.trans hfound.1.symm, .inl (hid.trans hfound.2.symm)⟩
    rw [h.eq (List.mem_of_find?_eq_some hfind) hr hclash]

theorem mem_of_byRegistration (h : c.byRegistration rows owner registration = some r) :
    r ∈ rows ∧ c.owner r = owner ∧ c.registration r = registration := by
  have hfound := List.find?_some h
  simp only [Bool.and_eq_true, decide_eq_true_eq] at hfound
  exact ⟨List.mem_of_find?_eq_some h, hfound⟩

private theorem ne_of_byRegistration (h : c.byRegistration rows owner registration = none) (hr : r ∈ rows)
    (howner : c.owner r = owner) : c.registration r ≠ registration := by
  intro hregistration
  simpa [howner, hregistration] using List.find?_eq_none.1 h r hr

end Columns

structure CatalogTables.Kept (t : CatalogTables) : Prop where
  machines : machineColumns.Kept t.machines
  folders : folderColumns.Kept t.folders

/-! ### What calls guarantee -/

/-- The rows stay, and others come with new ids. -/
structure Grows {R : Type} (K : R → R → Prop) (fresh : String → Prop) (id : R → String) (rows rows' : List R) :
    Prop where
  kept : ∀ r ∈ rows, ∃ r' ∈ rows', K r r'
  came : ∀ r' ∈ rows', (∃ r ∈ rows, K r r') ∨ fresh (id r')

/-- Only the enrolment key of a machine is set, once. -/
def MachineRow.Keeps (r r' : MachineRow) : Prop :=
  r' = { r with enrollmentKeyId := r'.enrollmentKeyId } ∧
    (r.enrollmentKeyId ≠ none → r'.enrollmentKeyId = r.enrollmentKeyId)

structure TablesGrow (fresh : String → Prop) (t t' : CatalogTables) : Prop where
  machines : Grows MachineRow.Keeps fresh (·.machineId) t.machines t'.machines
  folders : Grows Eq fresh (·.folderId) t.folders t'.folders

section

variable {R : Type} {K : R → R → Prop} {fresh fresh' : String → Prop} {id : R → String} {rows rows' rows'' : List R}

private theorem Grows.refl (hrefl : ∀ r, K r r) (rows : List R) : Grows K fresh id rows rows :=
  ⟨fun r hr => ⟨r, hr, hrefl r⟩, fun r hr => .inl ⟨r, hr, hrefl r⟩⟩

private theorem Grows.trans (htrans : ∀ {r r' r''}, K r r' → K r' r'' → K r r'') (hid : ∀ {r r'}, K r r' → id r' = id r)
    (h : Grows K fresh id rows rows') (h' : Grows K fresh id rows' rows'') : Grows K fresh id rows rows'' := by
  refine ⟨fun r hr => ?_, fun r'' hr'' => ?_⟩
  · obtain ⟨r', hr', hkeeps⟩ := h.kept r hr
    obtain ⟨r'', hr'', hkeeps'⟩ := h'.kept r' hr'
    exact ⟨r'', hr'', htrans hkeeps hkeeps'⟩
  · rcases h'.came r'' hr'' with ⟨r', hr', hkeeps'⟩ | hfresh
    · rcases h.came r' hr' with ⟨r, hr, hkeeps⟩ | hfresh
      · exact .inl ⟨r, hr, htrans hkeeps hkeeps'⟩
      · rw [← hid hkeeps'] at hfresh
        exact .inr hfresh
    · exact .inr hfresh

private theorem Grows.append (hrefl : ∀ r, K r r) {new : R} (hnew : fresh (id new)) :
    Grows K fresh id rows (rows ++ [new]) := by
  refine ⟨fun r hr => ⟨r, List.mem_append_left _ hr, hrefl r⟩, fun r hr => ?_⟩
  rcases List.mem_append.1 hr with hr | hr
  · exact .inl ⟨r, hr, hrefl r⟩
  · rw [List.mem_singleton.1 hr]
    exact .inr hnew

theorem Grows.map {f : R → R} (hf : ∀ r, K r (f r)) : Grows K fresh id rows (rows.map f) := by
  refine ⟨fun r hr => ⟨f r, List.mem_map_of_mem hr, hf r⟩, fun r' hr' => ?_⟩
  obtain ⟨r, hr, rfl⟩ := List.mem_map.1 hr'
  exact .inl ⟨r, hr, hf r⟩

end

theorem MachineRow.Keeps.refl (r : MachineRow) : r.Keeps r := ⟨rfl, fun _ => rfl⟩

private theorem MachineRow.Keeps.trans {r r' r'' : MachineRow} (h : r.Keeps r') (h' : r'.Keeps r'') : r.Keeps r'' := by
  refine ⟨?_, fun hsome => ?_⟩
  · rw [h'.1, h.1]
  · have hsome' : r'.enrollmentKeyId ≠ none := by
      rw [h.2 hsome]
      exact hsome
    rw [h'.2 hsome', h.2 hsome]

theorem MachineRow.Keeps.columns {r r' : MachineRow} (h : r.Keeps r') :
    r'.userId = r.userId ∧ r'.machineId = r.machineId ∧ r'.machineKey = r.machineKey ∧
      r'.localRegistrationId = r.localRegistrationId := by
  rw [h.1]
  exact ⟨rfl, rfl, rfl, rfl⟩

theorem TablesGrow.refl {fresh : String → Prop} (t : CatalogTables) : TablesGrow fresh t t :=
  ⟨.refl MachineRow.Keeps.refl _, .refl (fun _ => rfl) _⟩

theorem TablesGrow.trans {fresh : String → Prop} {t t' t'' : CatalogTables} (h : TablesGrow fresh t t')
    (h' : TablesGrow fresh t' t'') : TablesGrow fresh t t'' :=
  ⟨h.machines.trans MachineRow.Keeps.trans (fun hkeeps => hkeeps.columns.2.1) h'.machines,
    h.folders.trans Eq.trans (fun heq => heq ▸ rfl) h'.folders⟩

/-! ### What calls assert -/

namespace Registering

variable {R Ω : Type} [DecidableEq Ω] {q : Registering R Ω} {K : R → R → Prop} {draw : ℕ → String}
  {t t' : CatalogTables} {r : R}

/-- What the methods rely on in the parts that they do not have in common; `K` asserts how a row is kept. -/
structure Lawful (q : Registering R Ω) (K : R → R → Prop) : Prop where
  refl : ∀ r, K r r
  trans : ∀ {r r' r''}, K r r' → K r' r'' → K r r''
  columns : ∀ {r r'}, K r r' → q.columns.owner r' = q.columns.owner r ∧ q.columns.id r' = q.columns.id r ∧
    q.columns.key r' = q.columns.key r ∧ q.columns.registration r' = q.columns.registration r
  rows_setRows : ∀ t rows, q.rows (q.setRows t rows) = rows
  kept : ∀ {t}, t.Kept → q.columns.Kept (q.rows t)
  kept_setRows : ∀ {t rows}, t.Kept → q.columns.Kept rows → (q.setRows t rows).Kept
  grows : ∀ {fresh t t'}, TablesGrow fresh t t' → Grows K fresh q.columns.id (q.rows t) (q.rows t')
  grows_setRows : ∀ {fresh t rows}, Grows K fresh q.columns.id (q.rows t) rows → TablesGrow fresh t (q.setRows t rows)
  guard_grows : ∀ {fresh t t'}, TablesGrow fresh t t' → q.guard t = .ok () → q.guard t' = .ok ()
  base : Machines.KeyText q.base
  row : ∀ id key, q.columns.owner (q.row id key) = q.owner ∧ q.columns.id (q.row id key) = id ∧
    q.columns.key (q.row id key) = key ∧ q.columns.registration (q.row id key) = q.registration
  adopt : ∀ {r}, q.adopts = true → q.vacant r = true → K r (q.adopt r)
  verdict_row : ∀ id key, q.verdict (q.row id key) = .ok (q.record (q.row id key))
  verdict_kept : ∀ {r r' record}, K r r' → q.verdict r = .ok record → q.verdict r' = .ok record

def Unused (q : Registering R Ω) (draw : ℕ → String) (t : CatalogTables) : Prop :=
  ∀ r ∈ q.rows t, ∀ n, q.columns.id r ≠ draw n

/-- A row of the owner has the key that is tried with this suffix. -/
def Taken (q : Registering R Ω) (t : CatalogTables) (suffix : ℕ) : Prop :=
  ∃ r ∈ q.rows t, q.columns.owner r = q.owner ∧ q.columns.key r = Machines.suffixedKey q.base suffix

/-- The row of the registration. -/
def Owned (q : Registering R Ω) (t : CatalogTables) (r : R) : Prop :=
  r ∈ q.rows t ∧ q.columns.owner r = q.owner ∧ q.columns.registration r = q.registration

def stageAsserts (q : Registering R Ω) (draw : ℕ → String) (inside : Bool) (t : CatalogTables) : CallStage → Prop
  | .called => inside = false ∧ q.Unused draw t
  | .searching => inside = false ∧ q.Unused draw t ∧ q.guard t = .ok ()
  | .inserting n => (inside = false → n = 1) ∧ 1 ≤ n ∧ (∀ k, 1 ≤ k → k < n → q.Taken t k) ∧ q.Unused draw t ∧
      q.guard t = .ok ()
  | .refused n => inside = true ∧ 1 ≤ n ∧ (∀ k, 1 ≤ k → k < n → q.Taken t k) ∧ q.Unused draw t ∧ q.guard t = .ok () ∧
      ∃ r ∈ q.rows t, q.columns.clash (q.row (draw n) (Machines.suffixedKey q.base n)) r = true
  | .adopting id => q.adopts = true ∧ q.guard t = .ok () ∧ ∃ r, q.Owned t r ∧ q.columns.id r = id
  | .adopted id => inside = true ∧ q.guard t = .ok () ∧ ∃ r, q.Owned t r ∧ q.columns.id r = id
  | .inserted id => inside = true ∧ q.guard t = .ok () ∧
      ∃ r, q.Owned t r ∧ q.columns.id r = id ∧ q.verdict r = .ok (q.record r)
  | .returning record => q.guard t = .ok () ∧ ∃ r, q.Owned t r ∧ q.verdict r = .ok record
  | .raising _ => True

def asserts (q : Registering R Ω) (draw : ℕ → String) (inside : Bool) (status : Status CallStage Outcome)
    (t : CatalogTables) : Prop :=
  match status with
  | .running stage => q.stageAsserts draw inside t stage
  | .ended (.ok record) => q.guard t = .ok () ∧ ∃ r, q.Owned t r ∧ q.verdict r = .ok record
  | .ended (.error _) => True
  | .abandoned => True

theorem Lawful.owned_grows (h : q.Lawful K) {fresh : String → Prop} (hgrows : TablesGrow fresh t t')
    (howned : q.Owned t r) : ∃ r', q.Owned t' r' ∧ K r r' := by
  obtain ⟨hr, howner, hregistration⟩ := howned
  obtain ⟨r', hr', hkeeps⟩ := (h.grows hgrows).kept r hr
  obtain ⟨howner', -, -, hregistration'⟩ := h.columns hkeeps
  exact ⟨r', ⟨hr', howner'.trans howner, hregistration'.trans hregistration⟩, hkeeps⟩

private theorem Lawful.unused_grows (h : q.Lawful K) {fresh : String → Prop} (hfresh : ∀ n, ¬fresh (draw n))
    (hgrows : TablesGrow fresh t t') (hunused : q.Unused draw t) : q.Unused draw t' := by
  intro r' hr' n hid
  rcases (h.grows hgrows).came r' hr' with ⟨r, hr, hkeeps⟩ | hnew
  · exact hunused r hr n ((h.columns hkeeps).2.1.symm.trans hid)
  · rw [hid] at hnew
    exact hfresh n hnew

omit [DecidableEq Ω] in
/-- There are not many more keys to try than rows. -/
private theorem le_of_taken {n : ℕ} (h : ∀ k, 1 ≤ k → k < n → q.Taken t k) : n ≤ (q.rows t).length + 2 := by
  have hnodup : ((List.range' 2 (n - 2)).map (Machines.suffixedKey q.base)).Nodup := by
    refine List.Nodup.map_on (fun k hk m hm heq => ?_) List.nodup_range'
    rw [List.mem_range'_1] at hk hm
    exact Machines.suffixedKey_injective hk.1 hm.1 heq
  have hsubset : (List.range' 2 (n - 2)).map (Machines.suffixedKey q.base) ⊆ (q.rows t).map q.columns.key := by
    intro key hkey
    obtain ⟨k, hk, rfl⟩ := List.mem_map.1 hkey
    rw [List.mem_range'_1] at hk
    obtain ⟨r, hr, -, htaken⟩ := h k (by omega) (by omega)
    exact List.mem_map.2 ⟨r, hr, htaken⟩
  have hlength := hnodup.length_le_of_subset hsubset
  rw [List.length_map, List.length_range', List.length_map] at hlength
  omega

theorem Lawful.inserting_le (h : q.Lawful K) (hinv : t.Kept) {n : ℕ} (htaken : ∀ k, 1 ≤ k → k < n → q.Taken t k) :
    n ≤ maxRows + 2 := by
  have hle := le_of_taken htaken
  have hlength := (h.kept hinv).length_le
  omega

/-! ### Reading -/

private theorem asserts_judge {inside : Bool} (hguard : q.guard t = .ok ()) (howned : q.Owned t r) :
    q.stageAsserts draw inside t (q.judge r) := by
  unfold judge
  cases hverdict : q.verdict r with
  | ok record => exact ⟨hguard, r, howned, hverdict⟩
  | error e => trivial

private theorem asserts_settle {inside : Bool} (hguard : q.guard t = .ok ()) (howned : q.Owned t r) :
    q.stageAsserts draw inside t (q.settle r) := by
  unfold settle
  split
  · rename_i hadopts
    rw [Bool.and_eq_true] at hadopts
    exact ⟨hadopts.1, hguard, r, howned, rfl⟩
  · exact asserts_judge hguard howned

/-- An insertion that is refused although there is no row with the registration id is refused for its key. -/
private theorem Lawful.taken_of_refused (h : q.Lawful K) {n : ℕ} (hunused : q.Unused draw t) (hr : r ∈ q.rows t)
    (hclash : q.columns.clash (q.row (draw n) (Machines.suffixedKey q.base n)) r = true)
    (hnone : q.columns.byRegistration (q.rows t) q.owner q.registration = none) : q.Taken t n := by
  obtain ⟨howner, hid, hkey, hregistration⟩ := h.row (draw n) (Machines.suffixedKey q.base n)
  rw [Columns.clash_iff, howner, hid, hkey, hregistration] at hclash
  obtain ⟨howner', hsame | hsame | hsame⟩ := hclash
  · exact absurd hsame (hunused r hr n)
  · exact ⟨r, hr, howner', hsame⟩
  · exact absurd hsame (Columns.ne_of_byRegistration hnone hr howner')

theorem Lawful.read (h : q.Lawful K) {inside : Bool} {stage : CallStage} {next : CatalogTables → CallStage}
    (hinv : t.Kept) (hasserts : q.stageAsserts draw inside t stage) (hact : q.act draw stage = .read next) :
    q.stageAsserts draw inside t (next t) := by
  have howned : ∀ {r}, q.columns.byRegistration (q.rows t) q.owner q.registration = some r → q.Owned t r :=
    fun hfound => Columns.mem_of_byRegistration hfound
  cases stage with
  | called =>
    cases hact
    obtain ⟨hinside, hunused⟩ := hasserts
    dsimp only
    cases hguard : q.guard t with
    | ok u => exact ⟨hinside, hunused, hguard⟩
    | error e => trivial
  | searching =>
    cases hact
    obtain ⟨hinside, hunused, hguard⟩ := hasserts
    dsimp only
    cases hfound : q.columns.byRegistration (q.rows t) q.owner q.registration with
    | some r => exact asserts_settle hguard (howned hfound)
    | none => exact ⟨fun _ => rfl, le_rfl, fun k hk hlt => by omega, hunused, hguard⟩
  | inserting n => cases hact
  | refused n =>
    cases hact
    obtain ⟨hinside, hn, htaken, hunused, hguard, r, hr, hclash⟩ := hasserts
    dsimp only
    cases hfound : q.columns.byRegistration (q.rows t) q.owner q.registration with
    | some r => exact asserts_settle hguard (howned hfound)
    | none =>
      refine ⟨fun hout => ?_, by omega, fun k hk hlt => ?_, hunused, hguard⟩
      · rw [hinside] at hout
        cases hout
      · by_cases hkn : k = n
        · rw [hkn]
          exact h.taken_of_refused hunused hr hclash hfound
        · exact htaken k hk (by omega)
  | adopting id => cases hact
  | adopted id =>
    cases hact
    obtain ⟨-, hguard, r, hown, hid⟩ := hasserts
    dsimp only
    rw [(h.kept hinv).byId_of_mem hown.1 hown.2.1 hid]
    exact asserts_judge hguard hown
  | inserted id =>
    cases hact
    obtain ⟨-, hguard, r, hown, hid, hverdict⟩ := hasserts
    dsimp only
    rw [(h.kept hinv).byId_of_mem hown.1 hown.2.1 hid]
    exact ⟨hguard, r, hown, hverdict⟩
  | returning record => cases hact
  | raising e => cases hact

/-! ### Writing -/

theorem Lawful.adoptRow_keeps (h : q.Lawful K) (hadopts : q.adopts = true) (id : String) (r : R) :
    K r (q.adoptRow id r) := by
  unfold adoptRow
  split
  · rename_i hrow
    rw [Bool.and_eq_true] at hrow
    exact h.adopt hadopts hrow.2
  · exact h.refl r

private theorem Lawful.write (h : q.Lawful K) {inside : Bool} {stage : CallStage}
    {run : CatalogTables → CatalogTables × CallStage} (hinv : t.Kept) (hasserts : q.stageAsserts draw inside t stage)
    (hact : q.act draw stage = .write run) :
    (run t).1.Kept ∧ TablesGrow (fun id => ∃ n, id = draw n) t (run t).1 ∧
      q.stageAsserts draw true (run t).1 (run t).2 := by
  cases stage with
  | called => cases hact
  | searching => cases hact
  | inserting n =>
    cases hact
    obtain ⟨-, hn, htaken, hunused, hguard⟩ := hasserts
    unfold insert
    split
    · exact ⟨hinv, .refl t, trivial⟩
    rename_i hfull
    dsimp only
    split
    · rename_i hclash
      obtain ⟨r, hr, hclash⟩ := List.any_eq_true.1 hclash
      exact ⟨hinv, .refl t, rfl, hn, htaken, hunused, hguard, r, hr, hclash⟩
    · rename_i hfree
      obtain ⟨howner, hid, hkey, hregistration⟩ := h.row (draw n) (Machines.suffixedKey q.base n)
      have hle := h.inserting_le hinv htaken
      have hvalid : Machines.ValidKey (q.columns.key (q.row (draw n) (Machines.suffixedKey q.base n))) := by
        rw [hkey]
        refine (Machines.keyText_suffixedKey h.base ?_).validKey
        unfold maxRows at hle
        omega
      have hgrows : TablesGrow (fun id => ∃ n, id = draw n) t
          (q.setRows t (q.rows t ++ [q.row (draw n) (Machines.suffixedKey q.base n)])) :=
        h.grows_setRows (.append h.refl ⟨n, hid⟩)
      refine ⟨h.kept_setRows hinv ((h.kept hinv).append (by omega) (by simpa using hfree) hvalid), hgrows, rfl,
        h.guard_grows hgrows hguard, _, ⟨?_, howner, hregistration⟩, hid, h.verdict_row _ _⟩
      rw [h.rows_setRows]
      exact List.mem_append_right _ (List.mem_singleton.2 rfl)
  | refused n => cases hact
  | adopting id =>
    cases hact
    obtain ⟨hadopts, hguard, r, hown, hid⟩ := hasserts
    have hkeeps := h.adoptRow_keeps hadopts id
    have hgrows : TablesGrow (fun id => ∃ n, id = draw n) t (q.setRows t ((q.rows t).map (q.adoptRow id))) :=
      h.grows_setRows (.map hkeeps)
    obtain ⟨r', hown', hkeeps'⟩ := h.owned_grows hgrows hown
    refine ⟨h.kept_setRows hinv ((h.kept hinv).map (fun r => (h.columns (hkeeps r)).1)
      (fun r => (h.columns (hkeeps r)).2.1) (fun r => (h.columns (hkeeps r)).2.2.1)
      fun r => (h.columns (hkeeps r)).2.2.2), hgrows, rfl, h.guard_grows hgrows hguard, r', hown', ?_⟩
    exact (h.columns hkeeps').2.1.trans hid
  | adopted id => cases hact
  | inserted id => cases hact
  | returning record => cases hact
  | raising e => cases hact

/-! ### Calls of one method -/

private theorem Lawful.stable (h : q.Lawful K) {fresh : String → Prop} (hfresh : ∀ n, ¬fresh (draw n))
    {status : Status CallStage Outcome} (hasserts : q.asserts draw false status t) (hgrows : TablesGrow fresh t t') :
    q.asserts draw false status t' := by
  have hanswer : ∀ {record}, (q.guard t = .ok () ∧ ∃ r, q.Owned t r ∧ q.verdict r = .ok record) →
      q.guard t' = .ok () ∧ ∃ r, q.Owned t' r ∧ q.verdict r = .ok record := by
    intro record hrecord
    obtain ⟨hguard, r, hown, hverdict⟩ := hrecord
    obtain ⟨r', hown', hkeeps⟩ := h.owned_grows hgrows hown
    exact ⟨h.guard_grows hgrows hguard, r', hown', h.verdict_kept hkeeps hverdict⟩
  cases status with
  | running stage =>
    change q.stageAsserts draw false t stage at hasserts
    show q.stageAsserts draw false t' stage
    cases stage with
    | called => exact ⟨rfl, h.unused_grows hfresh hgrows hasserts.2⟩
    | searching => exact ⟨rfl, h.unused_grows hfresh hgrows hasserts.2.1, h.guard_grows hgrows hasserts.2.2⟩
    | inserting n =>
      obtain ⟨hout, hn, -, hunused, hguard⟩ := hasserts
      refine ⟨hout, hn, fun k hk hlt => ?_, h.unused_grows hfresh hgrows hunused, h.guard_grows hgrows hguard⟩
      have hone := hout rfl
      omega
    | refused n => cases hasserts.1
    | adopting id =>
      obtain ⟨hadopts, hguard, r, hown, hid⟩ := hasserts
      obtain ⟨r', hown', hkeeps⟩ := h.owned_grows hgrows hown
      exact ⟨hadopts, h.guard_grows hgrows hguard, r', hown', (h.columns hkeeps).2.1.trans hid⟩
    | adopted id => cases hasserts.1
    | inserted id => cases hasserts.1
    | returning record => exact hanswer hasserts
    | raising e => trivial
  | ended outcome =>
    cases outcome with
    | ok record => exact hanswer hasserts
    | error e => trivial
  | abandoned => trivial

theorem Lawful.keeps (h : q.Lawful K) {rely : CatalogTables → CatalogTables → Prop}
    (hrely : ∀ t t', rely t t' → ∃ fresh : String → Prop, (∀ n, ¬fresh (draw n)) ∧ TablesGrow fresh t t') :
    Keeps CatalogTables.Kept (TablesGrow fun id => ∃ n, id = draw n) rely (q.act draw) (q.asserts draw) where
  read hinv hasserts hact := h.read hinv hasserts hact
  write hinv hasserts hact := h.write hinv hasserts hact
  commit := by
    intro inside stage out t hinv hasserts hact
    cases stage <;> cases hact
    exact hasserts
  rollback := by
    intro inside stage out t t' hinv hasserts hact
    cases stage <;> cases hact
    trivial
  abandon _ := trivial
  stable := by
    intro status t t' hinv hasserts hrelies
    obtain ⟨fresh, hfresh, hgrows⟩ := hrely t t' hrelies
    exact h.stable hfresh hasserts hgrows

end Registering

/-! ### The two methods -/

private theorem machineColumns_keeps {r r' : MachineRow} (h : r.Keeps r') :
    machineColumns.owner r' = machineColumns.owner r ∧ machineColumns.id r' = machineColumns.id r ∧
      machineColumns.key r' = machineColumns.key r ∧ machineColumns.registration r' = machineColumns.registration r :=
  h.columns

theorem machineVerdict_ok {q : Machines.Requested} {enrollmentKeyId : Option String} {r : MachineRow}
    {record : Record} :
    machineVerdict q enrollmentKeyId r = .ok record ↔
      (enrollmentKeyId = none ∨ r.enrollmentKeyId = enrollmentKeyId) ∧ Machines.Replays r q ∧
        record = .machine r.toMachine := by
  unfold machineVerdict
  split
  · rename_i hother
    constructor
    · intro h
      cases h
    · rintro ⟨hnone | hsame, -⟩
      · rw [hnone] at hother
        cases hother.1
      · exact absurd hsame hother.2
  · rename_i hown
    have hkey : enrollmentKeyId = none ∨ r.enrollmentKeyId = enrollmentKeyId := by
      cases enrollmentKeyId with
      | none => exact .inl rfl
      | some key =>
        right
        by_contra hne
        exact hown ⟨rfl, hne⟩
    rw [and_iff_right hkey]
    cases hreplay : Machines.replayMachine r q with
    | ok m =>
      obtain ⟨hreplays, rfl⟩ := Machines.replayMachine_ok.1 hreplay
      rw [and_iff_right hreplays]
      constructor
      · intro h
        cases h
        rfl
      · rintro rfl
        rfl
    | error e =>
      constructor
      · intro h
        cases h
      · rintro ⟨hreplays, -⟩
        rw [Machines.replayMachine_ok.2 ⟨hreplays, rfl⟩] at hreplay
        cases hreplay

theorem registeringMachine_ok {nfkd : String → String} {user : String} {request : MachineRegistrationRequest}
    {enrollmentKeyId : Option String} {enrollmentRecovered : Bool} {now : Int} {q : Registering MachineRow String}
    (h : registeringMachine nfkd user request enrollmentKeyId enrollmentRecovered now = .ok q) :
    q.Lawful MachineRow.Keeps ∧ ∃ requested, Machines.requested request = .ok requested ∧ q.owner = user ∧
      q.registration = requested.registrationId ∧ q.verdict = machineVerdict requested enrollmentKeyId ∧
      q.rows = CatalogTables.machines ∧ q.columns = machineColumns ∧ (∀ t, q.guard t = .ok ()) ∧
      ∀ r, q.adopt r = { r with enrollmentKeyId := enrollmentKeyId } := by
  obtain ⟨requested, hrequested, h⟩ := Program.bind_eq_ok.1 h
  obtain ⟨registeredAt, -, h⟩ := Program.bind_eq_ok.1 h
  cases h
  refine ⟨?_, requested, hrequested, rfl, rfl, rfl, rfl, rfl, fun _ => rfl, fun _ => rfl⟩
  exact {
    refl := MachineRow.Keeps.refl
    trans := MachineRow.Keeps.trans
    columns := machineColumns_keeps
    rows_setRows := fun _ _ => rfl
    kept := fun h => h.machines
    kept_setRows := fun h hrows => ⟨hrows, h.folders⟩
    grows := fun h => h.machines
    grows_setRows := fun h => ⟨h, .refl (fun _ => rfl) _⟩
    guard_grows := fun _ _ => rfl
    base := by
      dsimp only
      exact Machines.keyText_catalogKey nfkd _ (by simp [Machines.isKeyChar]) (by decide)
    row := fun _ _ => ⟨rfl, rfl, rfl, rfl⟩
    adopt := fun {r} _ hvacant => ⟨rfl, fun hsome => absurd (Option.isNone_iff_eq_none.1 hvacant) hsome⟩
    verdict_row := fun _ _ => machineVerdict_ok.2 ⟨.inr rfl, ⟨rfl, rfl, rfl, rfl⟩, rfl⟩
    verdict_kept := by
      intro r r' record hkeeps hverdict
      obtain ⟨hkey, hreplays, hrecord⟩ := machineVerdict_ok.1 hverdict
      refine machineVerdict_ok.2 ⟨?_, ?_, ?_⟩
      · rcases hkey with hnone | hsame
        · exact .inl hnone
        · by_cases hsome : r.enrollmentKeyId = none
          · left
            rw [← hsame, hsome]
          · right
            rw [hkeeps.2 hsome, hsame]
      · rw [hkeeps.1]
        exact hreplays
      · rw [hrecord, hkeeps.1] }

theorem folderVerdict_ok {q : RequestedFolder} {r : FolderRow} {record : Record} :
    ((replayFolder r q).map Record.folder).mapError RegistrationError.raised = .ok record ↔
      (r.registrationName = q.name ∧ r.registrationDescription = q.description) ∧
        record = .folder r.toTrackedFolder := by
  unfold replayFolder
  split
  · rename_i hne
    constructor
    · intro h
      cases h
    · rintro ⟨hsame, -⟩
      exact absurd (Prod.ext hsame.1 hsame.2) hne
  · rename_i heq
    rw [ne_eq, not_not, Prod.mk.injEq] at heq
    rw [and_iff_right heq]
    constructor
    · intro h
      cases h
      rfl
    · rintro rfl
      rfl

theorem guard_folder {t : CatalogTables} {user machineId : String} :
    ((Machines.machine t.machines user machineId).map fun _ => ()).mapError RegistrationError.raised = .ok () ↔
      ∃ r ∈ t.machines, r.userId = user ∧ r.machineId = machineId := by
  unfold Machines.machine
  cases hrow : Machines.row? t.machines user machineId with
  | none =>
    constructor
    · intro h
      cases h
    · rintro ⟨r, hr, hu, hid⟩
      unfold Machines.row? at hrow
      simpa [hu, hid] using List.find?_eq_none.1 hrow r hr
  | some r => exact ⟨fun _ => ⟨r, Machines.mem_of_row? hrow⟩, fun _ => rfl⟩

/-- A machine stays, so that a folder may be registered for it later too. -/
private theorem guard_folder_grows {fresh : String → Prop} {t t' : CatalogTables} {user machineId : String}
    (hgrows : TablesGrow fresh t t')
    (hguard : ((Machines.machine t.machines user machineId).map fun _ => ()).mapError RegistrationError.raised =
      .ok ()) :
    ((Machines.machine t'.machines user machineId).map fun _ => ()).mapError RegistrationError.raised = .ok () := by
  obtain ⟨r, hr, hu, hid⟩ := guard_folder.1 hguard
  obtain ⟨r', hr', hkeeps⟩ := hgrows.machines.kept r hr
  obtain ⟨hu', hid', -⟩ := hkeeps.columns
  exact guard_folder.2 ⟨r', hr', hu'.trans hu, hid'.trans hid⟩

theorem registeringFolder_ok {nfkd : String → String} {user machineId : String} {request : FolderRegistrationRequest}
    {now : Int} {q : Registering FolderRow (String × String)}
    (h : registeringFolder nfkd user machineId request now = .ok q) :
    q.Lawful Eq ∧ ∃ requested, requestedFolder request = .ok requested ∧ q.owner = (user, machineId) ∧
      q.registration = requested.registrationId ∧
      (q.verdict = fun r => ((replayFolder r requested).map Record.folder).mapError RegistrationError.raised) ∧
      q.rows = CatalogTables.folders ∧ q.columns = folderColumns ∧
      ∀ t, q.guard t = ((Machines.machine t.machines user machineId).map fun _ => ()).mapError .raised := by
  obtain ⟨requested, hrequested, h⟩ := Program.bind_eq_ok.1 h
  obtain ⟨registeredAt, -, h⟩ := Program.bind_eq_ok.1 h
  cases h
  refine ⟨?_, requested, hrequested, rfl, rfl, rfl, rfl, rfl, fun _ => rfl⟩
  exact {
    refl := fun _ => rfl
    trans := Eq.trans
    columns := fun h => by
      rw [h]
      exact ⟨rfl, rfl, rfl, rfl⟩
    rows_setRows := fun _ _ => rfl
    kept := fun h => h.folders
    kept_setRows := fun h hrows => ⟨h.machines, hrows⟩
    grows := fun h => h.folders
    grows_setRows := fun h => ⟨.refl MachineRow.Keeps.refl _, h⟩
    guard_grows := guard_folder_grows
    base := by
      dsimp only
      exact Machines.keyText_catalogKey nfkd _ (by simp [Machines.isKeyChar]) (by decide)
    row := fun _ _ => ⟨rfl, rfl, rfl, rfl⟩
    adopt := fun {r} hadopts => by cases hadopts
    verdict_row := fun _ _ => folderVerdict_ok.2 ⟨⟨rfl, rfl⟩, rfl⟩
    verdict_kept := fun h hverdict => h ▸ hverdict }

end Ctxd

import Ctxd.Operations

/-!
# A batch of moves

`_move_batch` plans all moves first, takes one document of each cycle to a temporary place, gives the rows of these
documents temporary paths, and then moves one document after the other.  `Batch` is the invariant of the last two
loops: the documents still to be moved are at their old or their temporary place, the others are where they belong.
-/

namespace Ctxd

open Program

/-! ### Plans -/

/-- What `planMoves` has checked about a move. -/
structure Planned (c : Catalog) (user writer : String) (p : PlannedMove) : Prop where
  row : c.row (user, writer, p.operation.sourceKey) = some p.entry
  hash : p.entry.contentHash = p.operation.expectedContentHash
  destination : p.destination = p.operation.path
  normal : Normalized p.destination

theorem Planned.source {c : Catalog} {user writer : String} {p : PlannedMove} (h : Planned c user writer p) :
    p.entry.source = (user, writer, p.operation.sourceKey) := (Catalog.mem_of_row h.row).2

theorem Planned.mem {c : Catalog} {user writer : String} {p : PlannedMove} (h : Planned c user writer p) :
    p.entry ∈ c.entries := (Catalog.mem_of_row h.row).1

theorem Planned.userId {c : Catalog} {user writer : String} {p : PlannedMove} (h : Planned c user writer p) :
    p.entry.userId = user := congrArg Prod.fst h.source

private theorem validatedMoveEntry_ok {c : Catalog} {user writer : String} {op : MoveOperation} {e : Entry}
    (h : validatedMoveEntry c user writer op = .ok e) :
    c.row (user, writer, op.sourceKey) = some e ∧ e.contentHash = op.expectedContentHash := by
  unfold validatedMoveEntry at h
  simp only [bind, Except.bind, Catalog.entryBySourceKey_eq_row] at h
  split at h
  · cases h
  · split at h
    · cases h
    · split at h
      · cases h
      · rename_i e' he'
        split at h
        · cases h
        · split at h
          · cases h
          · rename_i hhash
            cases h
            exact ⟨he', not_not.1 hhash⟩

theorem planMoves_ok {c : Catalog} {user writer : String} {ops : List MoveOperation} {plans : List PlannedMove}
    (h : planMoves c user writer ops = .ok plans) :
    plans.map (·.operation) = ops ∧ ∀ p ∈ plans, Planned c user writer p := by
  induction ops generalizing plans with
  | nil =>
    cases h
    simp
  | cons op ops ih =>
    unfold planMoves at h
    simp only [bind, Except.bind] at h
    split at h
    · cases h
    · rename_i e he
      split at h
      · cases h
      · rename_i destination hdest
        split at h
        · cases h
        · rename_i rest hrest
          cases h
          obtain ⟨hops, hall⟩ := ih hrest
          obtain ⟨hrow, hhash⟩ := validatedMoveEntry_ok he
          refine ⟨by simp [hops], fun p hp => ?_⟩
          rcases List.mem_cons.1 hp with rfl | hp
          · exact ⟨hrow, hhash, normalizePath_eq hdest, normalizePath_eq hdest ▸ .of_ok hdest⟩
          · exact hall p hp

/-- The plans of a batch: one for each source. -/
structure Plans (c : Catalog) (user writer : String) (plans : List PlannedMove) : Prop where
  planned : ∀ p ∈ plans, Planned c user writer p
  distinct : (plans.map fun p => p.operation.sourceKey).Nodup

namespace Plans

variable {c : Catalog} {user writer : String} {plans : List PlannedMove}

theorem eq_of_source (h : Plans c user writer plans) {p p' : PlannedMove} (hp : p ∈ plans) (hp' : p' ∈ plans)
    (hs : p.entry.source = p'.entry.source) : p = p' := by
  rw [(h.planned p hp).source, (h.planned p' hp').source] at hs
  exact List.inj_on_of_nodup_map h.distinct hp hp' (by simpa using hs)

private theorem eq_of_path (h : Plans c user writer plans) (hc : c.Distinct) {p p' : PlannedMove} (hp : p ∈ plans)
    (hp' : p' ∈ plans) (hpath : p.entry.path = p'.entry.path) : p = p' := by
  refine h.eq_of_source hp hp'
    (congrArg Entry.source (hc.eq_of_path (h.planned p hp).mem (h.planned p' hp').mem ?_ hpath))
  rw [(h.planned p hp).userId, (h.planned p' hp').userId]

private theorem right {moved : List PlannedMove} (h : Plans c user writer (moved ++ plans)) :
    Plans c user writer plans := by
  refine ⟨fun p hp => h.planned p (List.mem_append_right _ hp), ?_⟩
  have hd := h.distinct
  rw [List.map_append] at hd
  exact (List.nodup_append.1 hd).2.1

private theorem source_ne {p p' : PlannedMove} (h : Plans c user writer (p :: plans)) (hp' : p' ∈ plans) :
    p'.entry.source ≠ p.entry.source := by
  intro hs
  obtain rfl := h.eq_of_source (List.mem_cons_of_mem _ hp') (by simp) hs
  exact (List.nodup_cons.1 h.distinct).1 (List.mem_map.2 ⟨p', hp', rfl⟩)

end Plans

/-- The temporary places of the documents that are still to be moved. -/
def parkedOf (temps : Dict String TempLocation) (plans : List PlannedMove) (i : SourceId) : Option Loc :=
  (plans.find? fun p => p.entry.source = i).bind fun p => (temps.get? p.entry.path).map TempLocation.file

section

variable {c : Catalog} {user writer : String} {plans : List PlannedMove} {temps : Dict String TempLocation}

private theorem parkedOf_of_mem (h : Plans c user writer plans) {p : PlannedMove} (hp : p ∈ plans) :
    parkedOf temps plans p.entry.source = (temps.get? p.entry.path).map TempLocation.file := by
  unfold parkedOf
  cases hf : plans.find? fun q => q.entry.source = p.entry.source with
  | none =>
    have := List.find?_eq_none.1 hf p hp
    simp at this
  | some q =>
    have hs := List.find?_some hf
    rw [h.eq_of_source (List.mem_of_find?_eq_some hf) hp (by simpa using hs)]
    rfl

private theorem parkedOf_of_forall {i : SourceId} (h : ∀ p ∈ plans, p.entry.source ≠ i) :
    parkedOf temps plans i = none := by
  unfold parkedOf
  rw [List.find?_eq_none.2 fun p hp => by simpa using h p hp]
  rfl

private theorem parkedOf_nil_temps (plans : List PlannedMove) : parkedOf [] plans = fun _ => none := by
  funext i
  unfold parkedOf
  cases plans.find? fun p => p.entry.source = i <;> rfl

private theorem mem_of_parkedOf {i : SourceId} {l : Loc} (h : parkedOf temps plans i = some l) :
    ∃ p ∈ plans, p.entry.source = i ∧ ∃ t, temps.get? p.entry.path = some t ∧ t.file = l := by
  unfold parkedOf at h
  obtain ⟨p, hf, ht⟩ := Option.bind_eq_some_iff.1 h
  obtain ⟨t, ht', rfl⟩ := Option.map_eq_some_iff.1 ht
  exact ⟨p, List.mem_of_find?_eq_some hf, by simpa using List.find?_some hf, t, ht', rfl⟩

/-- A document that has been moved is not in a temporary place any more. -/
private theorem parkedOf_tail {p : PlannedMove} (h : Plans c user writer (p :: plans)) :
    parkedOf temps plans = Function.update (parkedOf temps (p :: plans)) p.entry.source none := by
  funext i
  rw [Function.update_apply]
  split
  · rename_i hi
    rw [hi]
    exact parkedOf_of_forall fun p' hp' => h.source_ne hp'
  · rename_i hi
    unfold parkedOf
    rw [List.find?_cons_of_neg (by simpa using Ne.symm hi)]

/-- Parking one more document. -/
private theorem parkedOf_set {d : Dict String TempLocation} (h : Plans c user writer plans) (hc : c.Distinct)
    {p : PlannedMove} (hp : p ∈ plans) (t : TempLocation) :
    parkedOf (d.set p.entry.path t) plans =
      Function.update (parkedOf d plans) p.entry.source (some t.file) := by
  funext i
  rw [Function.update_apply]
  split
  · rename_i hi
    rw [hi, parkedOf_of_mem h hp, Dict.get?_set_self]
    rfl
  · rename_i hi
    unfold parkedOf
    cases hf : plans.find? fun q => q.entry.source = i with
    | none => rfl
    | some q =>
      have hs : q.entry.source = i := by simpa using List.find?_some hf
      simp only [Option.bind_some]
      rw [Dict.get?_set_of_ne]
      intro hpath
      rw [h.eq_of_path hc (List.mem_of_find?_eq_some hf) hp hpath] at hs
      exact hi hs.symm

end

/-! ### Breaking cycles -/

theorem Forward.refl (w : World) : Forward w w.fs := ⟨le_rfl, id, rfl⟩

theorem Forward.trans {w v : World} {s : Fs} (h : Forward w v.fs) (h' : Forward v s) : Forward w s :=
  ⟨h.uuids.trans h'.uuids, fun hq => h'.quiet (h.quiet hq), h'.pathMax.trans h.pathMax⟩

section

variable {user writer : String} {d0 : Disk} {G K : Prop} {V V' : Set TreePath} {parked : SourceId → Option Loc}
  {lost : Set SourceId} {w : World} {s : Fs}

/-- Calls that leave the disk alone. -/
private theorem Running.of_onward (h : Running user d0 K V parked lost w) (hon : w.fs.Onward s)
    (hd : s.disk = w.fs.disk) :
    Running user d0 K V parked lost { w with fs := s } := by
  refine ⟨?_, ?_, ?_, ?_, h.journaled.onward hon hd, h.tidy.of_eq hon.cleanupStack,
    fun i l hi => (h.slots i l hi).mono hon.uuids, h.users, ?_⟩ <;> simp only [hd]
  · exact h.wf
  · exact h.fresh.mono hon.uuids
  · exact h.flat
  · exact h.synced
  · exact h.clear

private theorem Forward.of_onward (hon : w.fs.Onward s) (hd : s.disk = w.fs.disk) : Forward w s :=
  ⟨hon.uuids, hon.quiet, by rw [hd]⟩

/-- A document in the tree is at its path. -/
private theorem Running.place_in_tree (h : Running user d0 K V parked lost w) {e : Entry} {r : TreePath}
    (heq : (⟨.users user, r⟩ : Loc) = place parked e) : parked e.source = none ∧ r = treePath e.path := by
  cases hp : parked e.source with
  | none =>
    rw [place_of_none hp] at heq
    exact ⟨rfl, congrArg Loc.path heq⟩
  | some l =>
    rw [place_of_some hp] at heq
    have hundo := h.synced.undo _ _ hp
    rw [← heq] at hundo
    cases hundo

/-- What is found at the place of a document is its file. -/
private theorem Running.file_of_found (h : Running user d0 K V parked lost w) (hK : K) {e : Entry}
    (he : e ∈ w.catalog.entries) (hu : e.userId = user) (hfound : (w.fs.disk.node (place parked e)).isSome = true) :
    ∃ x, w.fs.disk.file (place parked e) = some x := by
  rcases h.synced.files e he with ⟨x, hx, -⟩ | ⟨-, hp, hV, hx⟩
  · exact ⟨x, hx⟩
  · exfalso
    rw [place_of_none hp, hu] at hfound
    rw [hu] at hx
    rw [Disk.node_eq_none_of hx (h.clear hK _ hV)] at hfound
    cases hfound

/-- Taking the file of a document to a fresh temporary place. -/
private theorem renameTreeFile_park {e : Entry} {missingPath : String} {m : Nat} (h : Running user d0 K V parked lost w)
    (he : e ∈ w.catalog.entries) (hslot : Slot w.fs.uuids user (place parked e)) (hm : m < w.fs.uuids)
    (hfree : w.fs.disk.node (undoLoc .cycle m) = none) (hparked : ∀ i, parked i ≠ some (undoLoc .cycle m))
    {x : ByteArray} (hx : w.fs.disk.file (place parked e) = some x) :
    Ends (renameTreeFile user (place parked e) (undoLoc .cycle m) missingPath)
      (fun _ s => Running user d0 K (V ∪ {p | ⟨.users user, p⟩ = place parked e})
          (Function.update parked e.source (some (undoLoc .cycle m))) lost { w with fs := s } ∧
        docs w.catalog s.disk (Function.update parked e.source (some (undoLoc .cycle m))) =
          docs w.catalog w.fs.disk parked ∧ Forward w s)
      (fun _ s => Failing user d0 G s ∧ w.fs.fault ≠ none) w.fs := by
  have hne : place parked e ≠ undoLoc .cycle m := by
    intro heq
    rw [heq, Disk.file_of_node_none hfree] at hx
    cases hx
  have hnodir : w.fs.disk.node (place parked e) ≠ some .dir := by rw [Disk.file_eq_some_iff.1 hx]; simp
  refine (renameTreeFile_spec h.wf h.fresh (.inr ⟨.cycle, m, hm, rfl⟩) hnodir hne).mono (fun _ s hs => ?_)
    (fun _ s hs => ⟨?_, ?_⟩)
  · obtain ⟨x', b, hx', hbs, hbelow, hc⟩ := hs
    rw [hx] at hx'
    cases hx'
    -- nothing was at the temporary place, so there is no backup
    obtain rfl : b = none := by
      cases b with
      | none => rfl
      | some b =>
        obtain ⟨-, -, y, hy⟩ := hc.saved
        rw [Disk.file_of_node_none hfree] at hy
        cases hy
    have hroot : [] ∉ V ∪ {p | (⟨.users user, p⟩ : Loc) = place parked e} := by
      rintro (hp | hp)
      · exact h.journaled.nonroot hp
      · rw [← show (⟨.users user, []⟩ : Loc) = place parked e from hp, Disk.file_of_node_dir rfl] at hx
        cases hx
    have htemp : s.disk.file (undoLoc .cycle m) = some x := by rw [hc.edit.file, renamed, if_pos rfl, hx]
    have hothers : ∀ e' ∈ w.catalog.entries, e'.source ≠ e.source →
        s.disk.file (place parked e') = w.fs.disk.file (place parked e') := by
      intro e' he' hs'
      have hpe : place parked e' ≠ place parked e := h.synced.place_ne he' he hs'
      have hpt : place parked e' ≠ undoLoc .cycle m := by
        cases hp : parked e'.source with
        | none =>
          rw [place_of_none hp]
          intro heq
          cases congrArg Loc.area heq
        | some l =>
          rw [place_of_some hp]
          rintro rfl
          exact hparked _ hp
      rw [hc.edit.file, renamed, if_neg hpt, if_neg hpe, if_neg (by simp)]
    have howned : ∀ v p, s.disk.file ⟨.users v, p⟩ ≠ none →
        w.fs.disk.file ⟨.users v, p⟩ ≠ none ∧ place parked e ≠ ⟨.users v, p⟩ := by
      intro v p hf
      rw [hc.edit.file, renamed, if_neg (by simp [undoLoc])] at hf
      split at hf
      · exact absurd rfl hf
      · rename_i hpe
        rw [if_neg (by simp)] at hf
        exact ⟨hf, Ne.symm hpe⟩
    refine ⟨⟨hc.edit.wf, hc.fresh, hc.edit.flat h.flat, ?_, ?_, h.tidy.completed hc, fun i l hi => ?_, h.users,
      fun hk p hp hdir => ?_⟩, ?_, ⟨hc.uuids, hc.quiet, hc.edit.pathMax⟩⟩
    · exact h.synced.park he rfl hparked hx htemp hothers howned Set.subset_union_left
    · refine h.journaled.rename h.wf hslot (.inr ⟨.cycle, m, hm, rfl⟩) hne hx hbs (by simp) hbelow hc
        Set.subset_union_left hroot (fun ha => .inr ?_) fun p hp => hp.imp id Eq.symm
      rw [← ha]
      rfl
    · rw [Function.update_apply] at hi
      split at hi
      · cases hi
        exact .inr ⟨.cycle, m, hm.trans_le hc.uuids, rfl⟩
      · exact (h.slots i l hi).mono hc.uuids
    · rcases hc.edit.dirs _ hdir with hdir' | ⟨-, hdir'⟩
      · rcases hp with hp | hp
        · exact h.clear hk p hp hdir'
        · rw [show (⟨.users user, p⟩ : Loc) = place parked e from hp] at hdir'
          exact hnodir hdir'
      · rw [show p = [] from List.suffix_nil.1 hdir'] at hp
        exact hroot hp
    · exact docs_park (h.synced.distinct.row_eq_some_iff.2 ⟨he, rfl⟩) (htemp.trans hx.symm) hothers
  · refine h.journaled.aborted h.flat h.tidy hs.1 fun _ _ r hr => ?_
    rw [List.suffix_nil.1 hr]
    exact h.journaled.nonroot
  -- the temporary place is free and its path is short, so only a fault makes the rename fail
  · rcases hs.2 with hb | hb
    · rcases hb with hb | hb | ⟨r, hr, hb⟩ | hb
      · exact hb
      · exact absurd (w.fs.disk.fits_undoLoc _ _) hb
      · rw [List.suffix_nil.1 hr] at hb
        exact absurd (Disk.file_of_node_dir rfl) hb
      · rw [hfree] at hb
        cases hb
    · rw [Disk.file_of_node_none hb] at hx
      cases hx

/-- The tree paths that `breakMoveCycles` empties. -/
def parkedPaths (destinations : Dict String String) (cycles : List (List String)) : Set TreePath :=
  {p | ∃ cycle ∈ cycles, ∃ q, destinations.get? (cycle.headD "") = some q ∧ p = treePath q}

/-- The state between two rounds of `breakMoveCycles`: the catalog is as before and the documents are where
`locations` says. -/
structure Parking (user writer : String) (d0 : Disk) (K : Prop) (V : Set TreePath) (lost : Set SourceId)
    (plans : List PlannedMove) (locations : Dict String Loc) (temps : Dict String TempLocation) (w0 w : World) :
    Prop where
  running : Running user d0 K V (parkedOf temps plans) lost w
  forward : Forward w0 w.fs
  catalog : w.catalog = w0.catalog
  docs : docs w.catalog w.fs.disk (parkedOf temps plans) = docs w0.catalog w0.fs.disk (fun _ => none)
  located : ∀ q l, locations.get? q = some l →
    ∃ p ∈ plans, p.entry.path = q ∧ l = place (parkedOf temps plans) p.entry
  everyone : ∀ p ∈ plans, (locations.get? p.entry.path).isSome
  vacant : ∀ q t, temps.get? q = some t → treePath q ∈ V
  known : ∀ q t, temps.get? q = some t → ∃ p ∈ plans, p.entry.path = q

/-- A cycle whose documents cannot be looked up. -/
def Unresolved (destinations : Dict String String) (plans : List PlannedMove) (cycle : List String) : Prop :=
  ∀ q, destinations.get? (cycle.headD "") = some q → ∀ p ∈ plans, p.entry.path ≠ q

namespace Parking

variable {plans : List PlannedMove} {locations : Dict String Loc} {temps : Dict String TempLocation} {w0 : World}

private theorem of_onward (h : Parking user writer d0 K V lost plans locations temps w0 w) (hon : w.fs.Onward s)
    (hd : s.disk = w.fs.disk) : Parking user writer d0 K V lost plans locations temps w0 { w with fs := s } := by
  refine ⟨h.running.of_onward hon hd, h.forward.trans (Forward.of_onward hon hd), h.catalog, ?_, h.located, h.everyone,
    h.vacant, h.known⟩
  rw [← h.docs, hd]

/-- No document is in a place under a uuid that has not been drawn. -/
private theorem ne_undoLoc (h : Parking user writer d0 K V lost plans locations temps w0 w) {m : Nat}
    (hm : w.fs.uuids ≤ m) (i : SourceId) : parkedOf temps plans i ≠ some (undoLoc .cycle m) := by
  intro hi
  rcases h.running.slots i _ hi with ⟨ha, -⟩ | ⟨kind, m', hm', heq⟩
  · cases ha
  · have hsame := undoLoc_injective heq
    omega

/-- One more document is parked. -/
private theorem park (h : Parking user writer d0 K V lost plans locations temps w0 w)
    (hplans : Plans w0.catalog user writer plans)
    {p : PlannedMove} (hp : p ∈ plans) {t : TempLocation} {v : World} (hcatalog : v.catalog = w.catalog)
    (hforward : Forward w0 v.fs)
    (hrunning : Running user d0 K (V ∪ {r | (⟨.users user, r⟩ : Loc) = place (parkedOf temps plans) p.entry})
      (Function.update (parkedOf temps plans) p.entry.source (some t.file)) lost v)
    (hdocs : Ctxd.docs v.catalog v.fs.disk (Function.update (parkedOf temps plans) p.entry.source (some t.file)) =
      Ctxd.docs w.catalog w.fs.disk (parkedOf temps plans)) :
    Parking user writer d0 K (V ∪ {r | (⟨.users user, r⟩ : Loc) = place (parkedOf temps plans) p.entry}) lost plans
      (locations.set p.entry.path t.file) (temps.set p.entry.path t) w0 v := by
  have hdistinct : w0.catalog.Distinct := by
    rw [← h.catalog]
    exact h.running.synced.distinct
  have hset := parkedOf_set (d := temps) hplans hdistinct hp t
  rw [← hset] at hrunning hdocs
  refine ⟨hrunning, hforward, hcatalog.trans h.catalog, hdocs.trans h.docs, fun q l hl => ?_, fun p' hp' => ?_,
    fun q t' ht => ?_, fun q t' ht => ?_⟩
  · rw [Dict.get?_set] at hl
    split at hl
    · rename_i hq
      cases hl
      refine ⟨p, hp, hq.symm, ?_⟩
      rw [place_of_some (by rw [hset]; exact Function.update_self ..)]
    · rename_i hq
      obtain ⟨p', hp', hpath, rfl⟩ := h.located q l hl
      refine ⟨p', hp', hpath, ?_⟩
      unfold place
      rw [hset, Function.update_of_ne]
      intro hs
      rw [hplans.eq_of_source hp' hp hs] at hpath
      exact hq hpath.symm
  · rw [Dict.get?_set]
    split
    · rfl
    · exact h.everyone p' hp'
  · rw [Dict.get?_set] at ht
    split at ht
    · rename_i hq
      rw [hq]
      -- it has left the tree, now or when it was parked before
      cases hpk : parkedOf temps plans p.entry.source with
      | none =>
        right
        rw [Set.mem_ofPred_eq, place_of_none hpk, treeLoc, (hplans.planned p hp).userId]
      | some l =>
        left
        obtain ⟨p', hp', hs', t, ht, -⟩ := mem_of_parkedOf hpk
        rw [hplans.eq_of_source hp' hp hs'] at ht
        exact h.vacant _ _ ht
    · exact .inl (h.vacant q t' ht)
  · rw [Dict.get?_set] at ht
    split at ht
    · rename_i hq
      exact ⟨p, hp, hq.symm⟩
    · exact h.known q t' ht

end Parking

private theorem breakMoveCycles_spec {plans : List PlannedMove} {destinations : Dict String String}
    {locations : Dict String Loc} {temps : Dict String TempLocation} {w0 : World} (cycles : List (List String))
    (hplans : Plans w0.catalog user writer plans) (hK : K)
    (h : Parking user writer d0 K V lost plans locations temps w0 w) :
    Ends (breakMoveCycles user destinations cycles locations temps)
      (fun temps' w' => ∃ V' locations', V' ⊆ V ∪ parkedPaths destinations cycles ∧
        Parking user writer d0 K V' lost plans locations' temps' w0 w')
      (fun _ w' => Failing user d0 G w'.fs ∧
        (w0.fs.fault ≠ none ∨ lost.Nonempty ∨ ∃ cycle ∈ cycles, Unresolved destinations plans cycle)) w := by
  induction cycles generalizing V locations temps w with
  | nil => exact ⟨V, locations, Set.subset_union_left, h⟩
  | cons cycle cycles ih =>
    have hmono : V ∪ parkedPaths destinations cycles ⊆ V ∪ parkedPaths destinations (cycle :: cycles) := by
      refine Set.union_subset_union_right _ ?_
      rintro p ⟨cycle', hc, hq⟩
      exact ⟨cycle', List.mem_cons_of_mem _ hc, hq⟩
    have hreason : (w0.fs.fault ≠ none ∨ lost.Nonempty ∨ ∃ cycle' ∈ cycles, Unresolved destinations plans cycle') →
        w0.fs.fault ≠ none ∨ lost.Nonempty ∨ ∃ cycle' ∈ cycle :: cycles, Unresolved destinations plans cycle' := by
      rintro (hf | hl | ⟨cycle', hc, hu⟩)
      · exact .inl hf
      · exact .inr (.inl hl)
      · exact .inr (.inr ⟨cycle', List.mem_cons_of_mem _ hc, hu⟩)
    unfold breakMoveCycles
    rw [ends_bind, ends_orRaise]
    refine ⟨fun q hq => ?_, fun e he => ⟨h.running.failing, .inr (.inr ⟨cycle, by simp, fun q hq => ?_⟩)⟩⟩
    · have hq : destinations.get? (cycle.headD "") = some q := lookupKey_ok hq
      rw [ends_bind, ends_orRaise]
      refine ⟨fun l hl => ?_, fun e he =>
        ⟨h.running.failing, .inr (.inr ⟨cycle, by simp, fun q' hq' p hp hpath => ?_⟩)⟩⟩
      · obtain ⟨p, hp, rfl, rfl⟩ := h.located q l (lookupKey_ok hl)
        have hplan := hplans.planned p hp
        have hmem : p.entry ∈ w.catalog.entries := by rw [h.catalog]; exact hplan.mem
        rw [ends_bind, ends_onDisk]
        refine (pathExists_spec h.running.wf _).mono (fun found s1 hs1 => ?_) (fun _ s1 hs1 => ⟨?_, ?_⟩)
        · obtain ⟨hk, rfl⟩ := hs1
          have hon1 := hk.toSameJournal.onward
          refine Ends.ite (fun hfound => ?_) (fun hfound => ?_)
          -- the document at the head of the cycle is parked
          · obtain ⟨x, hx⟩ := h.running.file_of_found hK hmem hplan.userId hfound
            rw [ends_bind, ends_onDisk, ends_undoPath, ends_bind, ends_onDisk, ends_uuid4]
            set s2 : Fs := { s1 with uuids := s1.uuids + 1 + 1 } with hs2
            have hon2 : w.fs.Onward s2 := hon1.trans ⟨by simp only [hs2]; omega, rfl, rfl, id⟩
            have h2 := h.of_onward hon2 hk.disk
            have hfree : s2.disk.node (undoLoc .cycle s1.uuids) = none := by
              show s1.disk.node _ = none
              rw [hk.disk]
              exact h.running.fresh _ _ hk.uuids.ge
            have hx2 : s2.disk.file (place (parkedOf temps plans) p.entry) = some x := by
              show s1.disk.file _ = _
              rw [hk.disk]
              exact hx
            rw [ends_bind, ends_onDisk]
            refine (renameTreeFile_park (G := G) (w := { w with fs := s2 }) (m := s1.uuids) h2.running hmem
              (h2.running.slot hmem hplan.userId) (by show s1.uuids < s1.uuids + 1 + 1; omega) hfree
              (h.ne_undoLoc hk.uuids.ge) hx2).mono (fun _ s3 hs3 => ?_) (fun _ s3 hs3 => ?_)
            · obtain ⟨hrun3, hdocs3, hfor3⟩ := hs3
              have hpark := h2.park (v := { w with fs := s3 }) hplans hp
                (t := ⟨undoLoc .cycle s1.uuids, "_ctxfs_cycle/" ++ uuidText (s1.uuids + 1)⟩) rfl
                (h2.forward.trans (v := { w with fs := s2 }) hfor3) hrun3 hdocs3
              refine (ih hpark).mono (fun temps' w' hw' => ?_) (fun _ w' hw' => ⟨hw'.1, hreason hw'.2⟩)
              obtain ⟨V', locations', hV', hpark'⟩ := hw'
              refine ⟨V', locations', hV'.trans (Set.union_subset (Set.union_subset Set.subset_union_left ?_)
                (Set.subset_union_right.trans hmono)), hpark'⟩
              rintro r hr
              exact .inr ⟨cycle, by simp, _, hq, (h.running.place_in_tree hr).2⟩
            · exact ⟨hs3.1, .inl fun hq0 => hs3.2 (hon2.quiet (h.forward.quiet hq0))⟩
          -- without its file there is nothing to park
          · refine (ih (h.of_onward hon1 hk.disk)).mono (fun temps' w' hw' => ?_)
              (fun _ w' hw' => ⟨hw'.1, hreason hw'.2⟩)
            obtain ⟨V', locations', hV', hpark⟩ := hw'
            exact ⟨V', locations', hV'.trans hmono, hpark⟩
        · exact (h.running.of_onward hs1.1.toSameJournal.onward hs1.1.disk).failing
        · rcases hs1.2 with hf | hf
          · exact .inl fun hq => hf (h.forward.quiet hq)
          · rcases h.running.synced.files p.entry hmem with ⟨x, hx, -⟩ | ⟨hl, -⟩
            · exact absurd (h.running.wf.fits (by rw [Disk.file_eq_some_iff.1 hx]; rfl)) hf
            · exact .inr (.inl ⟨_, hl⟩)
      · rw [hq] at hq'
        cases hq'
        have hsome := h.everyone p hp
        rw [hpath, lookupKey_error he] at hsome
        cases hsome
    · rw [lookupKey_error he] at hq
      cases hq

/-! ### Moving the documents -/

/-- The path and the data of the documents of a store. -/
abbrev Docs := SourceId → Option (String × Option ByteArray)

/-- What a move does to the documents. -/
def moveDoc (user writer : String) (D : Docs) (op : MoveOperation) : Docs :=
  Function.update D (user, writer, op.sourceKey) ((D (user, writer, op.sourceKey)).map fun x => (op.path, x.2))

/-- The state between two rounds of the last two loops of `moveBatch`: `moved` are done, `rest` are not. -/
structure Batch (user writer : String) (d0 : Disk) (K : Prop) (V : Set TreePath) (lost : Set SourceId)
    (temps : Dict String TempLocation) (moved rest : List PlannedMove) (w0 w : World) : Prop where
  running : Running user d0 K V (parkedOf temps rest) lost w
  forward : Forward w0 w.fs
  tables : w0.catalog.SameTables w.catalog
  rows : ∀ p ∈ rest, ∃ e, w.catalog.row p.entry.source = some e ∧ e.contentHash = p.entry.contentHash ∧
    (temps.get? p.entry.path = none → e.path = p.entry.path)
  vacant : ∀ q t, temps.get? q = some t → treePath q ∈ V
  waiting : ∀ p ∈ rest, (docs w.catalog w.fs.disk (parkedOf temps rest) p.entry.source).map Prod.snd =
    (docs w0.catalog w0.fs.disk (fun _ => none) p.entry.source).map Prod.snd
  done : lost = ∅ → ∀ i, (∀ p ∈ rest, p.entry.source ≠ i) →
    docs w.catalog w.fs.disk (parkedOf temps rest) i =
      (moved.map (·.operation)).foldl (moveDoc user writer) (docs w0.catalog w0.fs.disk (fun _ => none)) i
  paths : ∀ i, (∀ p ∈ rest, p.entry.source ≠ i) →
    (docs w.catalog w.fs.disk (parkedOf temps rest) i).map Prod.fst =
      ((moved.map (·.operation)).foldl (moveDoc user writer) (docs w0.catalog w0.fs.disk (fun _ => none)) i).map
        Prod.fst

/-- Why a move is refused. -/
def MoveRefused (w : World) (user writer : String) (p : PlannedMove) (lost : Set SourceId) : Prop :=
  (p.entry.path ≠ p.destination ∧ Blocked w.fs (treeLoc user p.destination)) ∨ w.fs.fault ≠ none ∨
    w.catalog.pathTaken user writer p.operation.sourceKey p.destination = true ∨ lost.Nonempty

/-- Giving a parked document its temporary path. -/
private theorem parkEntry_spec {plans : List PlannedMove} {temps : Dict String TempLocation} {w0 : World}
    {sourceKeyByPath : Dict String String} {item : String × TempLocation}
    (hplans : Plans w0.catalog user writer plans) (hitem : temps.get? item.1 ≠ none)
    (hkeys : ∀ q key, sourceKeyByPath.get? q = some key → ∃ p ∈ plans, p.entry.path = q ∧ p.operation.sourceKey = key)
    (h : Batch user writer d0 K V lost temps [] plans w0 w) :
    Ends (parkEntry user writer sourceKeyByPath item)
      (fun _ w' => Batch user writer d0 K V lost temps [] plans w0 w')
      (fun _ w' => Failing user d0 G w'.fs ∧ (sourceKeyByPath.get? item.1 = none ∨
        ∃ key, w.catalog.pathTaken user writer key item.2.logicalPath = true)) w := by
  unfold parkEntry
  rw [ends_bind, ends_orRaise]
  refine ⟨fun key hkey => ?_, fun e he => ⟨h.running.failing, .inl (lookupKey_error he)⟩⟩
  · obtain ⟨p, hp, hpath, rfl⟩ := hkeys _ _ (lookupKey_ok hkey)
    have hplan := hplans.planned p hp
    obtain ⟨old, hold, hhash, -⟩ := h.rows p hp
    have hparked : parkedOf temps plans p.entry.source ≠ none := by
      rw [parkedOf_of_mem hplans hp, hpath]
      simpa using hitem
    rw [ends_bind, ends_now, ends_execute]
    refine ⟨fun c' hc' => ?_, fun e he => ⟨h.running.failing, .inr ⟨_, Catalog.updateEntry_error he⟩⟩⟩
    have hsrc := hplan.source
    rw [hsrc] at hold
    obtain ⟨hr, hpre⟩ := Catalog.updateEntry_ok (c := w.catalog) h.running.synced.distinct
      (f := fun e => { e with updatedAt := w.clock w.ticks }) (fun e => rfl) hold hc'
    set new : Entry := { old with updatedAt := w.clock w.ticks, path := item.2.logicalPath } with hnew
    have hns : new.source = p.entry.source := (Catalog.mem_of_row hold).2.trans hsrc.symm
    rw [← hsrc] at hold
    have hsync := h.running.synced.retitle hr (show w.catalog.row new.source = some old by rw [hns]; exact hold)
      (fun hn => absurd hn (by rw [hns]; exact hparked)) rfl
    have hrow := hr.row
    rw [hns] at hrow
    have hdocs : docs c' w.fs.disk (parkedOf temps plans) = _ := docs_retitle hr
    rw [hns] at hdocs
    have hplace : place (parkedOf temps plans) new = place (parkedOf temps plans) old := by
      unfold place
      rw [hns, (Catalog.mem_of_row hold).2]
      cases hpk : parkedOf temps plans p.entry.source with
      | none => exact absurd hpk hparked
      | some l => rfl
    have hrun := h.running
    refine ⟨⟨hrun.wf, hrun.fresh, hrun.flat, hsync, hrun.journaled, hrun.tidy, hrun.slots, hrun.users, hrun.clear⟩,
      ⟨h.forward.uuids, h.forward.quiet, h.forward.pathMax⟩, h.tables.trans hpre, fun p' hp' => ?_, h.vacant,
      fun p' hp' => ?_, fun hl i hi => ?_, fun i hi => ?_⟩
    · by_cases hpp : p'.entry.source = p.entry.source
      · obtain rfl := hplans.eq_of_source hp' hp hpp
        refine ⟨new, by rw [hrow, if_pos rfl], hhash, fun hn => ?_⟩
        rw [hpath] at hn
        exact absurd hn hitem
      · rw [hrow, if_neg hpp]
        exact h.rows p' hp'
    · rw [hdocs, Function.update_apply, ← h.waiting p' hp']
      split
      · rename_i hpp
        rw [hpp]
        unfold docs
        rw [hold, hplace]
        rfl
      · rfl
    · rw [hdocs, Function.update_of_ne (hi p hp).symm]
      exact h.done hl i hi
    · rw [hdocs, Function.update_of_ne (hi p hp).symm]
      exact h.paths i hi

private theorem moveDocs_of_forall {ops : List MoveOperation} {i : SourceId} (D : Docs)
    (h : ∀ op ∈ ops, i ≠ (user, writer, op.sourceKey)) : ops.foldl (moveDoc user writer) D i = D i := by
  induction ops generalizing D with
  | nil => rfl
  | cons op ops ih =>
    rw [List.foldl_cons, ih _ fun op' hop' => h op' (List.mem_cons_of_mem _ hop'), moveDoc,
      Function.update_of_ne (h op (by simp))]

/-- One more document has been moved. -/
private theorem Batch.step {p : PlannedMove} {temps : Dict String TempLocation} {moved rest : List PlannedMove}
    {w0 w' : World} (h : Batch user writer d0 K V lost temps moved (p :: rest) w0 w)
    (hplans : Plans w0.catalog user writer (moved ++ p :: rest))
    (hrun : Running user d0 K V' (Function.update (parkedOf temps (p :: rest)) p.entry.source none) lost w')
    (hV : V ⊆ V') (hfor : Forward w w'.fs) (hpre : w.catalog.SameTables w'.catalog)
    (hrow : ∀ i, i ≠ p.entry.source → w'.catalog.row i = w.catalog.row i)
    (hothers : ∀ i, i ≠ p.entry.source →
      docs w'.catalog w'.fs.disk (Function.update (parkedOf temps (p :: rest)) p.entry.source none) i =
        docs w.catalog w.fs.disk (parkedOf temps (p :: rest)) i)
    (hself : lost = ∅ →
      docs w'.catalog w'.fs.disk (Function.update (parkedOf temps (p :: rest)) p.entry.source none) p.entry.source =
        (docs w.catalog w.fs.disk (parkedOf temps (p :: rest)) p.entry.source).map fun x => (p.operation.path, x.2))
    (hpath : (docs w'.catalog w'.fs.disk (Function.update (parkedOf temps (p :: rest)) p.entry.source none)
      p.entry.source).map Prod.fst = some p.operation.path) :
    Batch user writer d0 K V' lost temps (moved ++ [p]) rest w0 w' := by
  have htail := hplans.right
  rw [← parkedOf_tail htail] at hrun hothers hself hpath
  have hsrc := (htail.planned p (by simp)).source
  have hfold : (moved.map (·.operation)).foldl (moveDoc user writer) (docs w0.catalog w0.fs.disk fun _ => none)
      p.entry.source = docs w0.catalog w0.fs.disk (fun _ => none) p.entry.source := by
    refine moveDocs_of_forall _ fun op hop heq => ?_
    obtain ⟨q, hq, rfl⟩ := List.mem_map.1 hop
    rw [hsrc] at heq
    have hd := hplans.distinct
    rw [List.map_append, List.map_cons] at hd
    refine (List.nodup_append.1 hd).2.2 _ (List.mem_map.2 ⟨q, hq, rfl⟩) _ (List.mem_cons_self ..) ?_
    simpa using heq.symm
  have hrest : ∀ i, i ≠ p.entry.source → (∀ q ∈ rest, q.entry.source ≠ i) →
      ∀ q ∈ p :: rest, q.entry.source ≠ i := by
    intro i hne hi q hq
    rcases List.mem_cons.1 hq with rfl | hq
    · exact Ne.symm hne
    · exact hi q hq
  refine ⟨hrun, h.forward.trans hfor, h.tables.trans hpre, fun q hq => ?_, fun q t hq => hV (h.vacant q t hq),
    fun q hq => ?_, fun hl i hi => ?_, fun i hi => ?_⟩
  · rw [hrow _ (htail.source_ne hq)]
    exact h.rows q (List.mem_cons_of_mem _ hq)
  · rw [hothers _ (htail.source_ne hq)]
    exact h.waiting q (List.mem_cons_of_mem _ hq)
  · rw [List.map_append, List.foldl_append, List.map_singleton, List.foldl_cons, List.foldl_nil, moveDoc, ← hsrc,
      Function.update_apply]
    split
    · rename_i heq
      subst heq
      rw [hself hl, hfold]
      have hsame := congrArg (Option.map fun y => (p.operation.path, y)) (h.waiting p (by simp))
      rw [Option.map_map, Option.map_map] at hsame
      exact hsame
    · rename_i hne
      rw [hothers i hne]
      exact h.done hl i (hrest i hne hi)
  · rw [List.map_append, List.foldl_append, List.map_singleton, List.foldl_cons, List.foldl_nil, moveDoc, ← hsrc,
      Function.update_apply]
    split
    · rename_i heq
      subst heq
      obtain ⟨x, hx⟩ : ∃ x, docs w0.catalog w0.fs.disk (fun _ => none) p.entry.source = some x := by
        obtain ⟨e, hrow, -⟩ := h.rows p (by simp)
        have hwait := h.waiting p (by simp)
        unfold docs at hwait ⊢
        rw [hrow] at hwait
        cases h0 : w0.catalog.row p.entry.source with
        | none =>
          rw [h0] at hwait
          cases hwait
        | some e0 => exact ⟨_, rfl⟩
      rw [hpath, hfold, hx]
      rfl
    · rename_i hne
      rw [hothers i hne]
      exact h.paths i (hrest i hne hi)

/-- The row of the document that is moved next. -/
structure NextRow (user : String) (temps : Dict String TempLocation) (p : PlannedMove) (rest : List PlannedMove)
    (w : World) (e : Entry) : Prop where
  row : w.catalog.row p.entry.source = some e
  userId : e.userId = user
  parked : parkedOf temps (p :: rest) p.entry.source = (temps.get? p.entry.path).map TempLocation.file
  inTree : temps.get? p.entry.path = none → e.path = p.entry.path

section

variable {p : PlannedMove} {temps : Dict String TempLocation} {moved rest : List PlannedMove} {w0 : World} {e : Entry}

private theorem Batch.nextRow (h : Batch user writer d0 K V lost temps moved (p :: rest) w0 w)
    (hplans : Plans w0.catalog user writer (moved ++ p :: rest)) : ∃ e, NextRow user temps p rest w e := by
  have htail := hplans.right
  obtain ⟨e, hrow, -, hpath⟩ := h.rows p (by simp)
  have hu : e.userId = user :=
    (congrArg Prod.fst (Catalog.mem_of_row hrow).2).trans (htail.planned p (by simp)).userId
  exact ⟨e, hrow, hu, parkedOf_of_mem htail (by simp), hpath⟩

namespace NextRow

private theorem source (he : NextRow user temps p rest w e) : e.source = p.entry.source := (Catalog.mem_of_row he.row).2

private theorem mem (he : NextRow user temps p rest w e) : e ∈ w.catalog.entries := (Catalog.mem_of_row he.row).1

/-- The source of the rename is the place of the document. -/
private theorem place_eq (he : NextRow user temps p rest w e) :
    ((temps.get? p.entry.path).map TempLocation.file).getD (treeLoc user p.entry.path) =
      place (parkedOf temps (p :: rest)) e := by
  unfold place
  rw [he.source, he.parked]
  cases ht : temps.get? p.entry.path with
  | none => rw [he.userId, he.inTree ht]
  | some t => rfl

private theorem path_of_unparked (he : NextRow user temps p rest w e)
    (hnone : parkedOf temps (p :: rest) e.source = none) :
    e.path = p.entry.path := by
  rw [he.source, he.parked, Option.map_eq_none_iff] at hnone
  exact he.inTree hnone

/-- A document that is moved is not yet where it goes. -/
private theorem place_ne (he : NextRow user temps p rest w e)
    (h : Running user d0 K V (parkedOf temps (p :: rest)) lost w)
    (hnormal : Normalized p.destination) (hne : p.entry.path ≠ p.destination) :
    place (parkedOf temps (p :: rest)) e ≠ treeLoc user p.destination := by
  intro heq
  obtain ⟨hnone, htree⟩ := h.place_in_tree heq.symm
  have hpath := he.path_of_unparked hnone
  have hnorm : Normalized p.entry.path := hpath ▸ h.synced.normal e he.mem hnone
  rw [hpath] at htree
  exact hne ((treeLoc_inj hnorm hnormal).1 (congrArg (Loc.mk (.users user)) htree.symm)).2

end NextRow

/-- Writing the row of a document that has been moved. -/
private theorem updateMoved_spec {w1 : World} {Q : World → Prop} (hdistinct : w.catalog.Distinct)
    (hrow : w.catalog.row (user, writer, p.operation.sourceKey) = some e) (hc : w1.catalog = w.catalog)
    (hfail : Failing user d0 G w1.fs)
    (hQ : ∀ c' : Catalog, w.catalog.RowSet c' { e with
        sourceVersion := p.operation.sourceVersion, updatedAt := w1.clock w1.ticks, path := p.destination } →
      w.catalog.SameTables c' → Q { w1 with catalog := c', ticks := w1.ticks + 1 }) :
    Ends (now >>= fun time => execute fun c => c.updateEntry user writer p.operation.sourceKey p.destination
        fun e => { e with sourceVersion := p.operation.sourceVersion, updatedAt := time })
      (fun _ w' => Q w') (fun _ w' => Failing user d0 G w'.fs ∧ MoveRefused w user writer p lost) w1 := by
  rw [ends_bind, ends_now, ends_execute]
  simp only [hc]
  refine ⟨fun c' hc' => ?_, fun err herr => ⟨hfail, .inr (.inr (.inl (Catalog.updateEntry_error herr)))⟩⟩
  obtain ⟨hr, hpre⟩ := Catalog.updateEntry_ok hdistinct
    (f := fun e => { e with sourceVersion := p.operation.sourceVersion, updatedAt := w1.clock w1.ticks })
    (fun e => rfl) hrow hc'
  exact hQ c' hr hpre

/-- The file has been renamed and the row is written. -/
private theorem Batch.renamed (h : Batch user writer d0 K V lost temps moved (p :: rest) w0 w)
    (hplans : Plans w0.catalog user writer (moved ++ p :: rest)) (he : NextRow user temps p rest w e)
    (hne : p.entry.path ≠ p.destination) {x : ByteArray}
    (hx : w.fs.disk.file (place (parkedOf temps (p :: rest)) e) = some x) (hhash : contentHash x = e.contentHash)
    {s1 s2 : Fs} (hon : w.fs.Onward s1) (hd : s1.disk = w.fs.disk)
    (hhalf : Half user d0 K (V ∪ {r | ⟨.users user, r⟩ = place (parkedOf temps (p :: rest)) e})
      (parkedOf temps (p :: rest))
      lost { w with fs := s1 } s2 p.entry.source p.destination x) {c' : Catalog}
    (hr : w.catalog.RowSet c' { e with
      sourceVersion := p.operation.sourceVersion, updatedAt := w.clock w.ticks, path := p.destination })
    (htables : w.catalog.SameTables c') :
    ∃ V', V ⊆ V' ∧ (∀ r ∈ V', r ∈ V ∨ (p.entry.path ≠ p.destination ∧ r = treePath p.entry.path)) ∧
      Batch user writer d0 K V' lost temps (moved ++ [p])
        rest w0 { w with catalog := c', fs := s2, ticks := w.ticks + 1 } := by
  have hplan := hplans.right.planned p (by simp)
  set new : Entry := { e with
    sourceVersion := p.operation.sourceVersion, updatedAt := w.clock w.ticks, path := p.destination } with hnew
  have hns : new.source = p.entry.source := he.source
  have hdocs : docs w.catalog w.fs.disk (parkedOf temps (p :: rest)) p.entry.source = some (e.path, some x) := by
    unfold docs
    rw [he.row, Option.map_some, hx]
  obtain ⟨hrunning, hdocs'⟩ := hhalf.finish (v := { w with catalog := c', fs := s2, ticks := w.ticks + 1 })
    (h.running.of_onward hon hd) Set.subset_union_left hr he.source hplan.userId rfl hplan.normal hhash rfl rfl
  have hforward : Forward w s2 := (Forward.of_onward hon hd).trans (v := { w with fs := s1 }) hhalf.toForward
  refine ⟨_, Set.subset_union_left, ?_, h.step hplans hrunning Set.subset_union_left hforward htables (fun i hi => ?_)
    (fun i hi => ?_) (fun _ => ?_) ?_⟩
  · rintro r (hr | hr)
    · exact .inl hr
    · obtain ⟨hnone, htree⟩ := h.running.place_in_tree hr
      rw [he.path_of_unparked hnone] at htree
      exact .inr ⟨hne, htree⟩
  · rw [hr.row, if_neg]
    rwa [hns]
  · rw [hdocs', Function.update_of_ne hi, hd]
  · rw [hdocs', Function.update_self, hdocs, hplan.destination, Option.map_some]
  · rw [hdocs', Function.update_self, hplan.destination]
    rfl

/-- The document stays, and only its row is written. -/
private theorem Batch.stayed (h : Batch user writer d0 K V lost temps moved (p :: rest) w0 w)
    (hplans : Plans w0.catalog user writer (moved ++ p :: rest)) (he : NextRow user temps p rest w e)
    (hsame : p.entry.path = p.destination) (hl : p.entry.source ∈ lost) {c' : Catalog}
    (hr : w.catalog.RowSet c' { e with
      sourceVersion := p.operation.sourceVersion, updatedAt := w.clock w.ticks, path := p.destination })
    (htables : w.catalog.SameTables c') :
    Batch user writer d0 K V lost temps (moved ++ [p]) rest w0 { w with catalog := c', ticks := w.ticks + 1 } := by
  have hplan := hplans.right.planned p (by simp)
  set new : Entry := { e with
    sourceVersion := p.operation.sourceVersion, updatedAt := w.clock w.ticks, path := p.destination } with hnew
  have hns : new.source = p.entry.source := he.source
  have hsync : Synced c' w.fs.disk (Function.update (parkedOf temps (p :: rest)) p.entry.source none) V lost := by
    cases ht : temps.get? p.entry.path with
    | none =>
      have hnone : parkedOf temps (p :: rest) p.entry.source = none := by rw [he.parked, ht]; rfl
      rw [Function.update_eq_self_iff.2 hnone.symm]
      refine h.running.synced.retitle hr (show w.catalog.row new.source = some e by rw [hns]; exact he.row)
        (fun _ => ?_) rfl
      exact hsame.symm.trans (he.inTree ht).symm
    | some t =>
      rw [← hns]
      refine h.running.synced.settle hr hplan.normal (by rw [hns]; exact hl) ?_ ?_
      · show treePath p.destination ∈ V
        rw [← hsame]
        exact h.vacant _ _ ht
      · rw [hns, he.parked, ht]
        simp
  have hrun := h.running
  refine h.step hplans ⟨hrun.wf, hrun.fresh, hrun.flat, hsync, hrun.journaled, hrun.tidy, fun i l hi => ?_, hrun.users,
    hrun.clear⟩ subset_rfl ⟨le_rfl, id, rfl⟩ htables (fun i hi => ?_) (fun i hi => ?_) (fun hempty => ?_) ?_
  · rw [Function.update_apply] at hi
    split at hi
    · cases hi
    · exact hrun.slots i l hi
  · rw [hr.row, if_neg]
    rwa [hns]
  · unfold docs
    rw [hr.row, if_neg (by rwa [hns])]
    cases hrow : w.catalog.row i with
    | none => rfl
    | some e' =>
      have hs := (Catalog.mem_of_row hrow).2
      simp only [Option.map_some, place]
      rw [hs, Function.update_of_ne hi]
  · rw [hempty] at hl
    cases hl
  · unfold docs
    rw [hr.row, if_pos hns.symm, ← hplan.destination]
    rfl

private theorem moveEntry_spec (h : Batch user writer d0 K V lost temps moved (p :: rest) w0 w)
    (hplans : Plans w0.catalog user writer (moved ++ p :: rest))
    (hlost : p.entry.source ∈ lost ↔ p.entry.path = p.destination)
    (hsafe : G → p.entry.path ≠ p.destination → Safe w.fs V lost (treeLoc user p.destination))
    (hK : K → G ∧ lost.Nonempty) :
    Ends (moveEntry user writer temps p)
      (fun _ w' => ∃ V', V ⊆ V' ∧ (∀ r ∈ V', r ∈ V ∨ (p.entry.path ≠ p.destination ∧ r = treePath p.entry.path)) ∧
        Batch user writer d0 K V' lost temps (moved ++ [p]) rest w0 w')
      (fun _ w' => Failing user d0 G w'.fs ∧ MoveRefused w user writer p lost) w := by
  have hplan := hplans.right.planned p (by simp)
  obtain ⟨e, he⟩ := h.nextRow hplans
  have hrow := he.row
  rw [hplan.source] at hrow
  unfold moveEntry
  refine Ends.ite (fun hne => ?_) (fun hne => ?_)
  · -- the document has a file, since it is not one that is lost
    have hnl : p.entry.source ∉ lost := fun hl => hne (hlost.1 hl)
    obtain ⟨x, hx, hxh⟩ : ∃ x, w.fs.disk.file (place (parkedOf temps (p :: rest)) e) = some x ∧
        contentHash x = e.contentHash := by
      rcases h.running.synced.files e he.mem with hf | ⟨hl, -⟩
      · exact hf
      · rw [he.source] at hl
        exact absurd hl hnl
    simp only [he.place_eq]
    rw [ends_bind, ends_onDisk]
    refine (pathExists_spec h.running.wf _).mono (fun found s1 hs1 => ?_) (fun _ s1 hs1 => ?_)
    · obtain ⟨hk, rfl⟩ := hs1
      have hon := hk.toSameJournal.onward
      have hrun1 : Running user d0 K V (parkedOf temps (p :: rest)) lost { w with fs := s1 } :=
        h.running.of_onward hon hk.disk
      refine Ends.ite (fun _ => ?_) (fun hfound => ?_)
      · rw [ends_bind, ends_onDisk]
        have hsafe1 : G → Safe s1 V lost (treeLoc user p.destination) := by
          intro hG hbad
          refine hsafe hG hne ?_
          rw [hk.disk] at hbad
          exact hbad.imp (fun hf hq => hf (hk.quiet hq)) id
        have hx1 : s1.disk.file (place (parkedOf temps (p :: rest)) e) = some x := by
          rw [hk.disk]
          exact hx
        refine (renameTreeFile_half (w := { w with fs := s1 }) (i := p.entry.source) (m := p.entry.path) hrun1 he.row
          hplan.normal (he.place_ne h.running hplan.normal hne) (hrun1.slot he.mem he.userId) hx1 hsafe1 hK).mono
          (fun _ s2 hs2 => ?_) (fun _ s2 hs2 => ?_)
        · exact updateMoved_spec h.running.synced.distinct hrow rfl hs2.failing fun c' hr htables =>
            h.renamed hplans he hne hx hxh hon hk.disk hs2 hr htables
        · refine ⟨hs2.1, .inl ⟨hne, ?_⟩⟩
          have hb := hs2.2
          unfold Blocked at hb ⊢
          simp only [hk.disk] at hb
          exact hb.imp (fun hf hq => hf (hk.quiet hq)) id
      · rw [Disk.file_eq_some_iff.1 hx] at hfound
        simp at hfound
    · refine ⟨(h.running.of_onward hs1.1.toSameJournal.onward hs1.1.disk).failing, .inr (.inl ?_)⟩
      exact hs1.2.resolve_right fun hf => hf (h.running.wf.fits (by rw [Disk.file_eq_some_iff.1 hx]; rfl))
  · have hsame : p.entry.path = p.destination := not_not.1 hne
    exact updateMoved_spec h.running.synced.distinct hrow rfl h.running.failing fun c' hr htables =>
      ⟨V, subset_rfl, fun r hr => .inl hr, h.stayed hplans he hsame (hlost.2 hsame) hr htables⟩

end

/-! ### The batch -/

def destinationsOf (plans : List PlannedMove) : Dict String String :=
  plans.foldl (fun d p => d.set p.entry.path p.destination) []

/-- The tree paths that are empty, or have been, when `moved` of the moves `plans` are done. -/
def emptied (plans moved : List PlannedMove) : Set TreePath :=
  parkedPaths (destinationsOf plans) (moveCycles (destinationsOf plans)) ∪
    {r | ∃ q ∈ moved, q.entry.path ≠ q.destination ∧ r = treePath q.entry.path}

/-- No move can leave directories at a place where a file was taken away, which a rollback could not put back. -/
def MovesSafe (user : String) (V : Set TreePath) (lost : Set SourceId) (s : Fs) (plans : List PlannedMove) : Prop :=
  ∀ moved p rest, plans = moved ++ p :: rest → p.entry.path ≠ p.destination →
    Safe s (V ∪ emptied plans moved) lost (treeLoc user p.destination)

/-- Why a batch of planned moves is refused. -/
def BatchRefused (user writer : String) (d0 : Disk) (K : Prop) (lost : Set SourceId) (plans : List PlannedMove)
    (w0 : World) : Prop :=
  w0.fs.fault ≠ none ∨ lost.Nonempty ∨
    (∃ cycle ∈ moveCycles (destinationsOf plans), Unresolved (destinationsOf plans) plans cycle) ∨
    (∃ V temps item key w, Batch user writer d0 K V lost temps [] plans w0 w ∧ item ∈ temps ∧
      w.catalog.pathTaken user writer key (Prod.snd item).logicalPath = true) ∨
    ∃ V temps moved p rest w, plans = moved ++ p :: rest ∧ Batch user writer d0 K V lost temps moved (p :: rest) w0 w ∧
      MoveRefused w user writer p lost

theorem moveBatch_spec {ops : List MoveOperation} (h : Running user d0 True V (fun _ => none) lost w)
    (hdup : (ops.map (·.sourceKey)).Nodup)
    (hlost : ∀ plans, planMoves w.catalog user writer ops = .ok plans →
      ∀ p ∈ plans, p.entry.source ∈ lost ↔ p.entry.path = p.destination)
    (hsafe : G → ∀ plans, planMoves w.catalog user writer ops = .ok plans → MovesSafe user V lost w.fs plans) :
    Ends (moveBatch user writer ops)
      (fun _ w' => ∃ plans, planMoves w.catalog user writer ops = .ok plans ∧ ∃ V', V' ⊆ V ∪ emptied plans plans ∧
        Running user d0 (G ∧ lost.Nonempty) V' (fun _ => none) lost w' ∧ Forward w w'.fs ∧
        w.catalog.SameTables w'.catalog ∧
        (∀ i, (docs w'.catalog w'.fs.disk (fun _ => none) i).map Prod.fst =
          (ops.foldl (moveDoc user writer) (docs w.catalog w.fs.disk (fun _ => none)) i).map Prod.fst) ∧
        (lost = ∅ → docs w'.catalog w'.fs.disk (fun _ => none) =
          ops.foldl (moveDoc user writer) (docs w.catalog w.fs.disk (fun _ => none))))
      (fun _ w' => Failing user d0 G w'.fs ∧ ((∃ e, planMoves w.catalog user writer ops = .error e) ∨
        ∃ plans, planMoves w.catalog user writer ops = .ok plans ∧
          BatchRefused user writer d0 (G ∧ lost.Nonempty) lost plans w)) w := by
  unfold moveBatch
  rw [ends_bind, ends_catalog, ends_bind, ends_orRaise]
  refine ⟨fun plans hp => ?_, fun e he => ⟨h.failing, .inl ⟨e, he⟩⟩⟩
  obtain ⟨hops, hplanned⟩ := planMoves_ok hp
  have hplans : Plans w.catalog user writer plans := by
    refine ⟨hplanned, ?_⟩
    rw [← hops, List.map_map] at hdup
    exact hdup
  have hdist := h.synced.distinct
  have refused : ∀ {w' : World}, Failing user d0 G w'.fs →
      BatchRefused user writer d0 (G ∧ lost.Nonempty) lost plans w →
      Failing user d0 G w'.fs ∧ ((∃ e, planMoves w.catalog user writer ops = .error e) ∨
        ∃ plans, planMoves w.catalog user writer ops = .ok plans ∧
          BatchRefused user writer d0 (G ∧ lost.Nonempty) lost plans w) :=
    fun hf hb => ⟨hf, .inr ⟨plans, hp, hb⟩⟩
  -- before the cycles are broken every document is at its own path
  have hstart : Parking user writer d0 True V lost plans
      (plans.foldl (fun (d : Dict String Loc) p => d.set p.entry.path (treeLoc user p.entry.path)) []) [] w w := by
    refine ⟨by rw [parkedOf_nil_temps]; exact h, .refl w, rfl, by rw [parkedOf_nil_temps], fun q l hq => ?_,
      fun p hp => ?_, fun q t hq => (nomatch hq), fun q t hq => (nomatch hq)⟩
    · rcases Dict.get?_foldl_set hq with hq | ⟨p, hp, hkey, hval⟩
      · cases hq
      · refine ⟨p, hp, hkey, ?_⟩
        rw [← hval, parkedOf_nil_temps, place_of_none rfl, (hplanned p hp).userId]
    · rw [Dict.get?_foldl_set_of_mem (k := fun p : PlannedMove => p.entry.path)
        (v := fun p : PlannedMove => treeLoc user p.entry.path) hp fun b _ hb => by rw [hb]]
      rfl
  simp only
  rw [ends_bind]
  refine (breakMoveCycles_spec (moveCycles (destinationsOf plans)) hplans trivial hstart).mono (fun temps w1 hw1 => ?_)
    (fun _ w' hw' => refused hw'.1 ?_)
  · obtain ⟨V1, locations, hV1, hpark⟩ := hw1
    -- the moves begin, and none of them is made yet
    have hbatch : Batch user writer d0 (G ∧ lost.Nonempty) V1 lost temps [] plans w w1 := by
      refine ⟨hpark.running.weaken fun _ => trivial, hpark.forward, by rw [hpark.catalog]; exact .refl _, fun p hp =>
        ⟨p.entry, ?_, rfl, fun _ => rfl⟩,
        hpark.vacant, fun p hp => by rw [hpark.docs], fun _ i _ => by rw [hpark.docs]; rfl,
        fun i _ => by rw [hpark.docs]; rfl⟩
      rw [hpark.catalog, (hplanned p hp).source]
      exact (hplanned p hp).row
    rw [ends_bind]
    refine (Ends.forM_inv (I := Batch user writer d0 (G ∧ lost.Nonempty) V1 lost temps [] plans w)
      (fun item hitem w2 hw2 => ?_)
      hbatch).mono (fun _ w2 hw2 => ?_) (fun _ w' hw' => hw')
    · have hsome : temps.get? item.1 ≠ none := by
        rw [Ne, Dict.get?_eq_none_iff, not_not]
        exact List.mem_map_of_mem hitem
      refine (parkEntry_spec (G := G) hplans hsome (fun q key hq => ?_) hw2).mono (fun _ _ hw' => hw')
        (fun _ w' hw' => ?_)
      · rcases Dict.get?_foldl_set hq with hq | ⟨p, hp, hkey, hval⟩
        · cases hq
        · exact ⟨p, hp, hkey, hval⟩
      · rcases hw'.2 with hnone | ⟨key, hkey⟩
        · exfalso
          obtain ⟨t, ht⟩ := Option.ne_none_iff_exists'.1 hsome
          obtain ⟨p, hp, hpath⟩ := hpark.known _ _ ht
          rw [← hpath, Dict.get?_foldl_set_of_mem (k := fun p : PlannedMove => p.entry.path)
            (v := fun p : PlannedMove => p.operation.sourceKey) hp fun b hb hbp => by
              rw [hplans.eq_of_path hdist hb hp hbp]] at hnone
          cases hnone
        · exact refused hw'.1 (.inr (.inr (.inr (.inl ⟨V1, temps, item, key, w2, hw2, hitem, hkey⟩))))
    · refine (Ends.forM plans
        (I := fun moved w' => ∃ V', (∀ r ∈ V', r ∈ V1 ∨
            ∃ q ∈ moved, q.entry.path ≠ q.destination ∧ r = treePath q.entry.path) ∧
          ∃ rest, plans = moved ++ rest ∧ Batch user writer d0 (G ∧ lost.Nonempty) V' lost temps moved rest w w')
        (fun moved p rest hxs w3 hw3 => ?_) ⟨V1, fun r hr => .inl hr, plans, rfl, hw2⟩).mono (fun _ w3 hw3 => ?_)
        (fun _ _ hw' => hw')
      · obtain ⟨V', hV', rest', hxs', hb⟩ := hw3
        rw [hxs] at hxs'
        obtain rfl := List.append_cancel_left hxs'
        have hsafe' : G → p.entry.path ≠ p.destination → Safe w3.fs V' lost (treeLoc user p.destination) := by
          intro hG hne hbad r hr hrV
          refine hsafe hG plans hp moved p rest hxs hne ?_ r hr ?_
          · rcases hbad with hf | hf | hl
            · exact .inl fun hq => hf (hb.forward.quiet hq)
            · refine .inr (.inl ?_)
              unfold Disk.Fits Disk.pathTooLong at hf ⊢
              rwa [← hb.forward.pathMax]
            · exact .inr (.inr hl)
          · rcases hV' r hrV with hr1 | hr1
            · rcases hV1 hr1 with hr2 | hr2
              · exact .inl hr2
              · exact .inr (.inl hr2)
            · exact .inr (.inr hr1)
        refine (moveEntry_spec hb (hxs ▸ hplans) (hlost plans hp p (by simp [hxs])) hsafe' id).mono (fun _ w4 hw4 => ?_)
          (fun _ w4 hw4 => ?_)
        · obtain ⟨V'', -, hV'', hb'⟩ := hw4
          refine ⟨V'', fun r hr => ?_, rest, by simp [hxs], hb'⟩
          rcases hV'' r hr with hr | ⟨hne, rfl⟩
          · rcases hV' r hr with hr | ⟨q, hq, hq', rfl⟩
            · exact .inl hr
            · exact .inr ⟨q, by simp [hq], hq', rfl⟩
          · exact .inr ⟨p, by simp, hne, rfl⟩
        · exact refused hw4.1 (.inr (.inr (.inr (.inr ⟨V', temps, moved, p, rest, w3, hxs, hb, hw4.2⟩))))
      -- all moves are made
      · obtain ⟨V', hV', rest, hxs, hb⟩ := hw3
        obtain rfl : rest = [] := by simpa using hxs
        refine ⟨plans, hp, V', fun r hr => ?_, hb.running, hb.forward, hb.tables, fun i => ?_, fun hl => ?_⟩
        · rcases hV' r hr with hr | ⟨q, hq, hq', rfl⟩
          · rcases hV1 hr with hr | hr
            · exact .inl hr
            · exact .inr (.inl hr)
          · exact .inr (.inr ⟨q, hq, hq', rfl⟩)
        · rw [← hops]
          exact hb.paths i (by simp)
        · funext i
          rw [← hops]
          exact hb.done hl i (by simp)
  · rcases hw'.2 with hf | hl | hu
    · exact .inl hf
    · exact .inr (.inl hl)
    · exact .inr (.inr (.inl hu))

end

end Ctxd

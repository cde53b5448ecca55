import Ctxd.Running

/-!
# The operations of a submission

Each operation, started in a state of the running submission, either returns in such a state, with its effect on the
documents, or raises in a state that can be rolled back unless a directory is in the way.  A put or a move first brings
the file to its place and then writes the row (`Half`); the statement on the row raises if another document has the
path.  A put of a document that has lost its file may rename a directory instead, and from then on nothing is known of
the files (`Astray`).
-/

namespace Ctxd

open Program

/-! ### Programs on the parts of a store -/

section

variable {α : Type} {Q : α → World → Prop} {E : StoreError → World → Prop} {w : World}

@[simp] theorem ends_onDisk {m : FsM α} :
    Ends (onDisk m) Q E w ↔ Ends m (fun a s => Q a { w with fs := s }) (fun e s => E e { w with fs := s }) w.fs :=
  ends_focus

@[simp] theorem ends_now {Q : Int → World → Prop} :
    Ends now Q E w ↔ Q (w.clock w.ticks) { w with ticks := w.ticks + 1 } := Iff.rfl

@[simp] theorem ends_catalog {Q : Catalog → World → Prop} : Ends catalog Q E w ↔ Q w.catalog w := Iff.rfl

@[simp] theorem ends_execute {statement : Catalog → Except StoreError Catalog} {Q : Unit → World → Prop} :
    Ends (execute statement) Q E w ↔
      (∀ c, statement w.catalog = .ok c → Q () { w with catalog := c }) ∧
      (∀ e, statement w.catalog = .error e → E e w) := by
  unfold execute
  rw [ends_bind, ends_catalog, ends_bind, ends_orRaise]
  rfl

@[simp] theorem ends_transaction {body : StoreM α} :
    Ends (transaction body) Q E w ↔ Ends body Q (fun e w' => E e { w' with catalog := w.catalog }) w := by
  unfold transaction
  rw [ends_bind, ends_catalog, ends_tryCatch]
  rfl

end

theorem lookupKey_ok {ν : Type} {d : Dict String ν} {key : String} {v : ν} (h : lookupKey d key = .ok v) :
    d.get? key = some v := by
  unfold lookupKey at h
  split at h
  · rename_i v' hv
    cases h
    exact hv
  · cases h

theorem lookupKey_error {ν : Type} {d : Dict String ν} {key : String} {e : StoreError}
    (h : lookupKey d key = .error e) : d.get? key = none := by
  unfold lookupKey at h
  split at h
  · cases h
  · assumption

/-! ### Half an operation -/

/-- What the part of an operation that has run may not change. -/
structure Forward (w : World) (s : Fs) : Prop where
  uuids : w.fs.uuids ≤ s.uuids
  quiet : w.fs.fault = none → s.fault = none
  pathMax : s.disk.pathMax = w.fs.disk.pathMax

/-- The file of document `i` is at the tree path of `path`; its row in `w` has not been written yet. -/
structure Half (user : String) (d0 : Disk) (K : Prop) (V : Set TreePath) (parked : SourceId → Option Loc)
    (lost : Set SourceId) (w : World) (s : Fs) (i : SourceId) (path : String) (y : ByteArray) : Prop extends
    Forward w s where
  wf : s.disk.WF
  fresh : s.disk.FreshFrom s.uuids
  flat : s.disk.Flat
  journaled : Journaled user V d0 s
  tidy : Tidy s
  clear : K → ∀ p ∈ V, s.disk.node ⟨.users user, p⟩ ≠ some .dir
  target : s.disk.file (treeLoc user path) = some y
  others : ∀ e ∈ w.catalog.entries, e.source ≠ i → place parked e ≠ treeLoc user path →
    s.disk.file (place parked e) = w.fs.disk.file (place parked e)
  owned : ∀ v p, (⟨.users v, p⟩ : Loc) ≠ treeLoc user path → s.disk.file ⟨.users v, p⟩ ≠ none →
    w.fs.disk.file ⟨.users v, p⟩ ≠ none ∧ ∀ e, w.catalog.row i = some e → place parked e ≠ ⟨.users v, p⟩

section

variable {user : String} {d0 : Disk} {G K : Prop} {V V' : Set TreePath} {parked : SourceId → Option Loc}
  {lost : Set SourceId} {w : World} {s : Fs} {i : SourceId} {path : String} {y : ByteArray}

theorem Half.failing (h : Half user d0 K V parked lost w s i path y) : Failing user d0 G s :=
  h.journaled.failing h.wf h.fresh h.flat h.tidy

/-- A document is in the tree or in a temporary place. -/
theorem Running.slot (h : Running user d0 K V parked lost w) {e : Entry} (he : e ∈ w.catalog.entries)
    (hu : e.userId = user) : Slot w.fs.uuids user (place parked e) := by
  cases hp : parked e.source with
  | none =>
    rw [place_of_none hp]
    exact .inl ⟨by rw [treeLoc, hu], (h.synced.normal _ he hp).treePath_ne_nil⟩
  | some l =>
    rw [place_of_some hp]
    exact h.slots _ _ hp

/-- Writing the row completes the operation. -/
theorem Half.finish {c' : Catalog} {new : Entry} {v : World} (hh : Half user d0 K V' parked lost w s i path y)
    (h : Running user d0 K V parked lost w) (hV : V ⊆ V') (hr : w.catalog.RowSet c' new) (hi : new.source = i)
    (hu : i.1 = user) (hpath : new.path = path) (hn : Normalized path) (hhash : contentHash y = new.contentHash)
    (hc : v.catalog = c') (hs : v.fs = s) :
    Running user d0 K V' (Function.update parked i none) lost v ∧
      docs v.catalog v.fs.disk (Function.update parked i none) =
        Function.update (docs w.catalog w.fs.disk parked) i (some (path, some y)) := by
  subst hi hpath hc hs
  have hu' : new.userId = user := hu
  have hn' : Normalized new.path := hn
  have htarget : v.fs.disk.file (treeLoc new.userId new.path) = some y := by rw [hu']; exact hh.target
  have hothers : ∀ e ∈ w.catalog.entries, e.source ≠ new.source →
      v.fs.disk.file (place parked e) = w.fs.disk.file (place parked e) := by
    intro e he hne
    refine hh.others e he hne ?_
    have := h.synced.place_ne_new hr hn' he hne
    rwa [hu'] at this
  refine ⟨⟨hh.wf, hh.fresh, hh.flat, ?_, hh.journaled, hh.tidy, fun j l hj => ?_, h.users, hh.clear⟩, ?_⟩
  · refine h.synced.set hr hn' htarget hhash hothers (fun u p hne hf => ?_) hV
    rw [hu'] at hne
    exact hh.owned u p hne hf
  · rw [Function.update_apply] at hj
    split at hj
    · cases hj
    · exact (h.slots j l hj).mono hh.uuids
  · exact docs_set hr htarget hothers

/-- Moving the file of a document to another tree path. -/
theorem renameTreeFile_half {e : Entry} {m : String} (h : Running user d0 K V parked lost w)
    (he : w.catalog.row i = some e) (hn : Normalized path) (hne : place parked e ≠ treeLoc user path)
    (hslot : Slot w.fs.uuids user (place parked e)) {x : ByteArray}
    (hx : w.fs.disk.file (place parked e) = some x) (hsafe : G → Safe w.fs V lost (treeLoc user path))
    (hK : K → G ∧ lost.Nonempty) :
    Ends (renameTreeFile user (place parked e) (treeLoc user path) m)
      (fun _ s => Half user d0 K (V ∪ {p | ⟨.users user, p⟩ = place parked e}) parked lost w s i path x)
      (fun _ s => Failing user d0 G s ∧ Blocked w.fs (treeLoc user path)) w.fs := by
  have htarget : Slot w.fs.uuids user (treeLoc user path) := .inl ⟨rfl, hn.treePath_ne_nil⟩
  have hnodir : w.fs.disk.node (place parked e) ≠ some .dir := by rw [Disk.file_eq_some_iff.1 hx]; simp
  refine (renameTreeFile_spec h.wf h.fresh htarget hnodir hne).mono (fun _ s hs => ?_) (fun _ s hs => ?_)
  · obtain ⟨x', b, hx', hbs, hbelow, hc⟩ := hs
    rw [hx] at hx'
    cases hx'
    obtain ⟨hemem, hesrc⟩ := Catalog.mem_of_row he
    have hbo : ∀ v p, b ≠ some ⟨.users v, p⟩ := by
      rintro v p rfl
      cases hc.saved.area
    have hroot : [] ∉ V ∪ {p | (⟨.users user, p⟩ : Loc) = place parked e} := by
      rintro (hp | hp)
      · exact h.journaled.nonroot hp
      · rw [← show (⟨.users user, []⟩ : Loc) = place parked e from hp, Disk.file_of_node_dir rfl] at hx
        cases hx
    refine ⟨⟨hc.uuids, hc.quiet, hc.edit.pathMax⟩, hc.edit.wf, hc.fresh, hc.edit.flat h.flat, ?_, h.tidy.completed hc,
      fun hk p hp hdir => ?_, ?_, fun e' he' hs' hpl => ?_, fun v p hpl hf => ?_⟩
    · refine h.journaled.rename h.wf hslot htarget hne hx hbs (fun _ _ => rfl) hbelow hc Set.subset_union_left hroot
        (fun ha => .inr ?_) fun p hp => hp.imp id Eq.symm
      rw [← ha]
      rfl
    · rcases hp with hp | hp
      · rcases hc.edit.dirs _ hdir with hdir | ⟨-, hdir⟩
        · exact h.clear hk p hp hdir
        · exact hsafe (hK hk).1 (.inr (.inr (hK hk).2)) p hdir hp
      · rcases hc.edit.dirs _ hdir with hdir | ⟨-, hdir⟩
        · rw [show (⟨.users user, p⟩ : Loc) = place parked e from hp] at hdir
          exact hnodir hdir
        · rw [← show (⟨.users user, p⟩ : Loc) = place parked e from hp] at hbelow
          exact hbelow rfl hdir
    · rw [hc.edit.file, renamed, if_pos rfl, hx]
    · have hpe : place parked e' ≠ place parked e := h.synced.place_ne he' hemem (by rw [hesrc]; exact hs')
      rw [hc.edit.file, renamed, if_neg hpl, if_neg hpe]
      split
      · rename_i hb
        exfalso
        have hfree := hc.saved
        rw [hb] at hfree
        rcases h.synced.files e' he' with ⟨z, hz, -⟩ | ⟨-, hp, -, -⟩
        · rw [Disk.file_of_node_none hfree.2.1] at hz
          cases hz
        · rw [place_of_none hp] at hb
          exact hbo _ _ hb
      · rfl
    · rw [hc.edit.file, renamed, if_neg hpl] at hf
      split at hf
      · exact absurd rfl hf
      · rename_i hpe
        rw [if_neg (hbo v p)] at hf
        refine ⟨hf, fun e' he' => ?_⟩
        rw [he] at he'
        cases he'
        exact Ne.symm hpe
  · refine ⟨h.aborted hs.1 hsafe, hs.2.resolve_right fun hnone => ?_⟩
    rw [Disk.file_of_node_none hnone] at hx
    cases hx

/-- New data is at the tree path of `path`, and the other tree files are as in `w`. -/
structure Stage (user : String) (d0 : Disk) (K : Prop) (V : Set TreePath) (w : World) (s : Fs) (path : String)
    (y : ByteArray) : Prop extends Forward w s where
  wf : s.disk.WF
  fresh : s.disk.FreshFrom s.uuids
  flat : s.disk.Flat
  journaled : Journaled user V d0 s
  tidy : Tidy s
  clear : K → ∀ p ∈ V, s.disk.node ⟨.users user, p⟩ ≠ some .dir
  target : s.disk.file (treeLoc user path) = some y
  others : ∀ v p, (⟨.users v, p⟩ : Loc) ≠ treeLoc user path → s.disk.file ⟨.users v, p⟩ = w.fs.disk.file ⟨.users v, p⟩

private theorem objectLoc_not_dir {d : Disk} (hf : d.Flat) (user : String) (objectId : Nat) :
    d.node (objectLoc user objectId) ≠ some .dir := by
  intro hdir
  obtain ⟨v, hv⟩ := hf _ hdir (by simp [objectLoc])
  cases hv

/-- An object can be written under any name: no directory has it. -/
private theorem create_known {d : Disk} (h : d.WF) (hf : d.Flat) (user : String) (objectId : Nat) :
    d.create (objectLoc user objectId) = .ok (d.put (objectLoc user objectId) (.file .empty)) := by
  unfold Disk.create
  cases hn : d.node (objectLoc user objectId) with
  | none => rw [h.resolve_noent rfl hn ⟨rfl, fun _ _ => rfl⟩]
  | some n =>
    rw [(h.resolve_ok_iff _ _).2 hn]
    cases n with
    | file x => rfl
    | dir => exact absurd hn (objectLoc_not_dir hf user objectId)

private theorem Edit.put_object {d : Disk} (h : d.WF) (hf : d.Flat) (user : String) (objectId : Nat)
    (data : ByteArray) :
    Edit user d (d.put (objectLoc user objectId) (.file data)) []
      (Function.update d.file (objectLoc user objectId) (some data)) :=
  .put_file h (by simp [objectLoc]) rfl ⟨rfl, fun _ _ => rfl⟩ (objectLoc_not_dir hf user objectId)

/-- An object does not matter to the files of the tree. -/
private theorem below_put_object {d : Disk} {n : Nat} (h : d.WF) (hf : d.Flat) (hfresh : d.FreshFrom n) (user : String)
    (objectId : Nat) (data : ByteArray) :
    Below n {r | r <:+ []} user d (d.put (objectLoc user objectId) (.file data)) := by
  have hedit := Edit.put_object h hf user objectId data
  have hne : ∀ l : Loc, l.area ≠ .objects user →
      Function.update d.file (objectLoc user objectId) (some data) l = d.file l := by
    intro l hl
    rw [Function.update_of_ne]
    rintro rfl
    exact hl rfl
  refine hedit.below (hedit.freshFrom hfresh (update_undrawn hfresh.file (.inr fun _ _ _ heq => ?_)))
    (fun v p => hne _ (by simp)) fun p x hx => ?_
  · cases congrArg Loc.area heq
  · rw [hne _ (by simp), hx]

/-- Writing the data of a new object.  Where it fails a part of them may be left, which no callback removes. -/
private theorem writeObject_spec {data : ByteArray} (h : Running user d0 K V parked lost w) :
    Ends (writeBytes (objectLoc user w.fs.uuids) data)
      (fun _ s' => Fs.SameJournal { w.fs with uuids := w.fs.uuids + 1 } s' ∧ Edit user w.fs.disk s'.disk []
        (Function.update w.fs.disk.file (objectLoc user w.fs.uuids) (some data)))
      (fun _ s' => Unharmed user w.fs s' ∧ w.fs.fault ≠ none) { w.fs with uuids := w.fs.uuids + 1 } := by
  refine (writeBytes_spec (s := { w.fs with uuids := w.fs.uuids + 1 }) data
    (create_known h.wf h.flat user w.fs.uuids)).mono (fun _ s1 hs1 => ⟨hs1.1, ?_⟩) (fun _ s1 hs1 => ?_)
  · rw [hs1.2]
    exact .put_object h.wf h.flat user w.fs.uuids data
  · have hon : w.fs.Onward s1 := (Fs.Onward.draw w.fs).trans hs1.1.onward
    have hfresh : w.fs.disk.FreshFrom s1.uuids := h.fresh.mono hon.uuids
    rcases hs1.2 with ⟨hfault, hd⟩ | ⟨n, hfault, -, part, hd⟩
    · refine ⟨⟨hon, ?_⟩, fun hq => ?_⟩
      · rw [hd]
        exact .refl h.wf hfresh
      · rw [show w.fs.fault = some 0 from hfault] at hq
        cases hq
    · refine ⟨⟨hon, ?_⟩, fun hq => ?_⟩
      · rw [hd]
        exact below_put_object h.wf h.flat hfresh user w.fs.uuids part
      · rw [show w.fs.fault = some (n + 1) from hfault] at hq
        cases hq

/-- Storing new data as an object and linking it to its tree path. -/
private theorem replaceTreeEntry_stage {β : Type} {data : ByteArray} {k : Nat → StoreM β} {Q : β → World → Prop}
    {E : StoreError → World → Prop} (h : Running user d0 K V (fun _ => none) lost w) (hn : Normalized path)
    (hsafe : G → Safe w.fs V lost (treeLoc user path)) (hK : K → G ∧ lost.Nonempty)
    (hk : ∀ objectId s, Stage user d0 K V w s path data → Ends (k objectId) Q E { w with fs := s })
    (hE : ∀ e s, Failing user d0 G s → Blocked w.fs (treeLoc user path) → E e { w with fs := s }) :
    Ends (onDisk uuid4 >>= fun objectId =>
        onDisk (writeBytes (objectLoc user objectId) data) >>= fun _ =>
        onDisk (pushUndo (.removeObject (objectLoc user objectId))) >>= fun _ =>
        onDisk (replaceTreeEntry user path (objectLoc user objectId)) >>= fun _ => k objectId) Q E w := by
  have htp : (treeLoc user path).path ≠ [] := hn.treePath_ne_nil
  rw [ends_bind, ends_onDisk, ends_uuid4, ends_bind, ends_onDisk]
  -- the object is written under a name that nothing has
  refine (writeObject_spec h).mono (fun _ s1 hs1 => ?_)
    (fun e s1 hs1 => hE e s1 (h.unharmed hs1.1) (.inl hs1.2))
  obtain ⟨hj1, hedit⟩ := hs1
  have hne : ∀ l : Loc, l.area ≠ .objects user → w.fs.disk.file l = s1.disk.file l := by
    intro l hl
    rw [hedit.file, Function.update_of_ne]
    rintro rfl
    exact hl rfl
  have hfresh : s1.disk.FreshFrom w.fs.uuids :=
    hedit.freshFrom h.fresh (update_undrawn h.fresh.file (.inr fun _ _ _ heq => by cases congrArg Loc.area heq))
  have huuids : s1.uuids = w.fs.uuids + 1 := hj1.uuids
  rw [ends_bind, ends_onDisk]
  unfold pushUndo
  rw [ends_modify, ends_bind, ends_onDisk]
  set s2 : Fs := { s1 with undoStack := .removeObject (objectLoc user w.fs.uuids) :: s1.undoStack } with hs2
  -- undoing the new object leads back to the files before it
  have hjour : Journaled user V d0 s2 := by
    have hle : w.fs.uuids ≤ s2.uuids := by
      show w.fs.uuids ≤ s1.uuids
      omega
    exact h.journaled.object hle (congrArg _ hj1.undoStack) hedit
  have hfresh2 : s2.disk.FreshFrom s2.uuids := hfresh.mono (by show w.fs.uuids ≤ s1.uuids; omega)
  have hquiet : w.fs.fault = none → s2.fault = none := hj1.quiet
  refine (replaceTreeEntry_spec (s := s2) (y := data) hedit.wf hfresh2
    ?_ (by simp [objectLoc]) htp).mono (fun _ s3 hs3 => ?_) (fun e s3 hs3 => ?_)
  · rw [hedit.file, Function.update_self]
  · obtain ⟨b, hc⟩ := hs3
    have htidy : Tidy s2 := h.tidy.of_eq hj1.cleanupStack
    refine hk _ s3 ⟨⟨?_, ?_, ?_⟩, hc.edit.wf, hc.fresh, hc.edit.flat (hedit.flat h.flat), ?_, htidy.completed hc,
      fun hk p hp hdir => ?_, ?_, fun v p hpl => ?_⟩
    · have : s1.uuids ≤ s3.uuids := hc.uuids
      show w.fs.uuids ≤ s3.uuids
      omega
    · exact fun hq => hc.quiet (hquiet hq)
    · exact hc.edit.pathMax.trans hedit.pathMax
    · exact hjour.replace hedit.wf rfl hc
    · rcases hc.edit.dirs _ hdir with hdir | ⟨-, hdir⟩
      · rcases hedit.dirs _ hdir with hdir | ⟨-, hdir⟩
        · exact h.clear hk p hp hdir
        · rw [show p = [] from List.suffix_nil.1 hdir] at hp
          exact h.journaled.nonroot hp
      · exact hsafe (hK hk).1 (.inr (.inr (hK hk).2)) p hdir hp
    · rw [hc.edit.file, placed, if_pos rfl]
    · rw [hc.edit.file, placed, if_neg hpl, if_neg, hne _ (by simp)]
      rintro rfl
      cases hc.saved.area
  · have hfits : s2.disk.Fits (treeLoc user path) ↔ w.fs.disk.Fits (treeLoc user path) := hedit.fits_iff _
    have hfault : s2.fault ≠ none → w.fs.fault ≠ none := fun hf hq => hf (hquiet hq)
    refine hE e s3 ?_ ?_
    · refine hjour.aborted (hedit.flat h.flat) (h.tidy.of_eq hj1.cleanupStack) hs3.1 fun hG hbad => hsafe hG ?_
      rcases hbad with hb | hb
      · exact .inl (hfault hb)
      · exact .inr (.inl fun hfit => hb (hfits.2 hfit))
    · rcases hs3.2 with hb | hb | ⟨r, hr, hb⟩ | hb
      · exact .inl (hfault hb)
      · exact .inr (.inl fun hfit => hb (hfits.2 hfit))
      · refine .inr (.inr (.inl ⟨r, hr, ?_⟩))
        rwa [hne _ (by simp [treeLoc])]
      · rcases hedit.dirs _ hb with hb | ⟨-, hb⟩
        · exact .inr (.inr (.inr hb))
        · exact absurd (List.suffix_nil.1 hb) htp

/-- The document had no other file. -/
private theorem Stage.half (hs : Stage user d0 K V w s path y)
    (hold : ∀ e, w.catalog.row i = some e → treeLoc e.userId e.path = treeLoc user path) :
    Half user d0 K V (fun _ => none) lost w s i path y where
  toForward := hs.toForward
  wf := hs.wf
  fresh := hs.fresh
  flat := hs.flat
  journaled := hs.journaled
  tidy := hs.tidy
  clear := hs.clear
  target := hs.target
  others e _ _ hpl := hs.others e.userId (treePath e.path) hpl
  owned v p hpl hf := by
    rw [hs.others v p hpl] at hf
    refine ⟨hf, fun e he heq => hpl ?_⟩
    rw [← heq]
    exact hold e he

/-- The tree path that document `i` leaves when it goes to `path`. -/
def vacated (c : Catalog) (i : SourceId) (path : String) : Set TreePath :=
  {p | ∃ e, c.row i = some e ∧ e.path ≠ path ∧ p = treePath e.path}

private theorem vacated_of_row {c : Catalog} {e : Entry} (he : c.row i = some e) (hu : e.userId = user)
    (hne : e.path ≠ path)
    {V : Set TreePath} : V ∪ {p | (⟨.users user, p⟩ : Loc) = treeLoc e.userId e.path} = V ∪ vacated c i path := by
  congr 1
  ext p
  simp only [Set.mem_ofPred_eq, vacated, treeLoc, hu, Loc.mk.injEq, true_and]
  constructor
  · exact fun hp => ⟨e, he, hne, hp⟩
  · rintro ⟨e', he', -, rfl⟩
    rw [he] at he'
    cases he'
    rfl

/-- The file at the tree path of `path` is gone, and its path counts as vacated. -/
private structure FileRemoved (user : String) (d0 : Disk) (K : Prop) (V' : Set TreePath) (path : String) (s s' : Fs) :
    Prop where
  uuids : s.uuids ≤ s'.uuids
  quiet : s.fault = none → s'.fault = none
  pathMax : s'.disk.pathMax = s.disk.pathMax
  wf : s'.disk.WF
  fresh : s'.disk.FreshFrom s'.uuids
  flat : s'.disk.Flat
  journaled : Journaled user V' d0 s'
  tidy : Tidy s'
  clear : K → ∀ p ∈ V', s'.disk.node ⟨.users user, p⟩ ≠ some .dir
  gone : s'.disk.file (treeLoc user path) = none
  files : ∀ v p, (⟨.users v, p⟩ : Loc) ≠ treeLoc user path → s'.disk.file ⟨.users v, p⟩ = s.disk.file ⟨.users v, p⟩

/-- A file that is missing was lost before, and a file that is there fails to be removed by a fault only. -/
private theorem removeTreeEntry_removed (hw : s.disk.WF) (hf : s.disk.FreshFrom s.uuids) (hflat : s.disk.Flat)
    (hj : Journaled user V d0 s) (ht : Tidy s) (hclear : K → ∀ p ∈ V, s.disk.node ⟨.users user, p⟩ ≠ some .dir)
    (hp : treePath path ≠ []) (hV : V ⊆ V') (hmem : treePath path ∈ V') (honly : ∀ p ∈ V', p ∈ V ∨ p = treePath path)
    (hlost : s.disk.file (treeLoc user path) = none → treePath path ∈ V) :
    Ends (removeTreeEntry user path) (fun _ s' => FileRemoved user d0 K V' path s s')
      (fun _ s' => Failing user d0 G s' ∧ (s.fault ≠ none ∨ s.disk.file (treeLoc user path) = none)) s := by
  have hroot : [] ∉ V' := fun hroot => (honly _ hroot).elim hj.nonroot fun heq => hp heq.symm
  refine (removeTreeEntry_spec hw hf hp).mono (fun _ s' hs' => ?_) (fun _ s' hs' => ?_)
  · rcases hs' with ⟨hon, hd, hnone⟩ | ⟨b, hc⟩
    · -- its path has been counted as vacated already
      have hgone := Disk.file_of_node_none hnone
      obtain rfl : V' = V :=
        Set.Subset.antisymm (fun p hp => (honly p hp).elim id fun heq => heq ▸ hlost hgone) hV
      refine ⟨hon.uuids, hon.quiet, by rw [hd], by rw [hd]; exact hw, ?_, by rw [hd]; exact hflat, hj.onward hon hd,
        ht.of_eq hon.cleanupStack, by rw [hd]; exact hclear, by rw [hd]; exact hgone, fun _ _ _ => by rw [hd]⟩
      rw [hd]
      exact hf.mono hon.uuids
    · refine ⟨hc.uuids, hc.quiet, hc.edit.pathMax, hc.edit.wf, hc.fresh, hc.edit.flat hflat,
        hj.remove hw rfl hc hV hroot hmem fun p hp => (honly p hp).imp id fun heq => by rw [heq, treeLoc],
        ht.completed hc, fun hk p hp hdir => ?_, ?_, fun v p hne => ?_⟩
      · rcases hc.edit.dirs _ hdir with hdir | ⟨-, hdir⟩
        · rcases honly p hp with hp | rfl
          · exact hclear hk p hp hdir
          · exact hc.saved.not_dir hdir
        · rw [show p = [] from List.suffix_nil.1 hdir] at hp
          exact hroot hp
      · rw [hc.edit.file, removed, if_pos rfl]
      · rw [hc.edit.file, removed, if_neg hne, if_neg]
        intro heq
        cases (hc.saved.free _ heq).1
  · refine ⟨hj.unharmed hflat ht hs'.1, ?_⟩
    cases hx : s.disk.file (treeLoc user path) with
    | none => exact .inr rfl
    | some x =>
      have hnode := Disk.file_eq_some_iff.1 hx
      left
      rcases hs'.2 with hb | hb | ⟨r, hr, hb⟩ | hb
      · exact hb
      · exact absurd (hw.fits (by rw [hnode]; rfl)) hb
      · exact absurd (Disk.file_of_node_dir (hw.dir_above (p := treePath path) hx hr)) hb
      · rw [hnode] at hb
        cases hb

/-- The document's old file is removed. -/
private theorem Stage.remove {e : Entry} (hs : Stage user d0 K V w s path y)
    (h : Running user d0 K V (fun _ => none) lost w) (he : w.catalog.row i = some e) (hu : e.userId = user)
    (hn : Normalized path) (hne : e.path ≠ path) :
    Ends (removeTreeEntry user e.path)
      (fun _ s' => Half user d0 K (V ∪ vacated w.catalog i path) (fun _ => none) lost w s' i path y)
      (fun _ s' => Failing user d0 G s' ∧ (w.fs.fault ≠ none ∨ lost.Nonempty)) s := by
  obtain ⟨hemem, rfl⟩ := Catalog.mem_of_row he
  have hne' := h.synced.normal e hemem rfl
  have hloc : treeLoc user e.path ≠ treeLoc user path := by
    rw [Ne, treeLoc_inj hne' hn]
    exact fun h => hne h.2
  have hold : s.disk.file (treeLoc user e.path) = w.fs.disk.file (treeLoc user e.path) :=
    hs.others user (treePath e.path) hloc
  have hV' : ∀ p ∈ V ∪ vacated w.catalog e.source path, p ∈ V ∨ p = treePath e.path := by
    rintro p (hp | ⟨e', he', -, rfl⟩)
    · exact .inl hp
    · rw [he] at he'
      cases he'
      exact .inr rfl
  have hvacated : treePath e.path ∈ V ∪ vacated w.catalog e.source path := .inr ⟨e, he, hne, rfl⟩
  have hrow : ∀ e', w.catalog.row e.source = some e' → place (fun _ => none) e' = treeLoc user e.path := by
    intro e' he'
    rw [he] at he'
    cases he'
    rw [place_of_none rfl, hu]
  -- the old file is there, or it was lost before and its path counts as vacated
  have hfile : s.disk.file (treeLoc user e.path) = none → lost.Nonempty ∧ treePath e.path ∈ V := by
    intro hgone
    rcases h.synced.files e hemem with ⟨x, hx, -⟩ | ⟨hl, -, hV, -⟩
    · rw [place_of_none rfl, hu, ← hold, hgone] at hx
      cases hx
    · exact ⟨⟨_, hl⟩, hV⟩
  refine (removeTreeEntry_removed (K := K) hs.wf hs.fresh hs.flat hs.journaled hs.tidy hs.clear hne'.treePath_ne_nil
    Set.subset_union_left hvacated hV' fun hgone => (hfile hgone).2).mono (fun _ s' hr => ?_)
    (fun _ s' hs' => ⟨hs'.1, hs'.2.imp (fun hfault hq => hfault (hs.quiet hq)) fun hgone => (hfile hgone).1⟩)
  refine ⟨⟨hs.uuids.trans hr.uuids, fun hq => hr.quiet (hs.quiet hq), hr.pathMax.trans hs.pathMax⟩, hr.wf, hr.fresh,
    hr.flat, hr.journaled, hr.tidy, hr.clear, (hr.files user (treePath path) hloc.symm).trans hs.target,
    fun e' he' hother hpl => ?_, fun v p hpl hf => ?_⟩
  · have hpe : treeLoc e'.userId e'.path ≠ treeLoc user e.path := by
      intro heq
      rw [← hu, treeLoc_inj (h.synced.normal e' he' rfl) hne'] at heq
      exact hother (congrArg Entry.source (h.synced.distinct.eq_of_path he' hemem heq.1 heq.2))
    exact (hr.files e'.userId (treePath e'.path) hpe).trans (hs.others e'.userId (treePath e'.path) hpl)
  · have hpe : (⟨.users v, p⟩ : Loc) ≠ treeLoc user e.path := by
      intro heq
      rw [heq] at hf
      exact hf hr.gone
    rw [hr.files v p hpe, hs.others v p hpl] at hf
    refine ⟨hf, fun e' he' => ?_⟩
    rw [hrow e' he']
    exact hpe.symm

/-- The last statement of a put. -/
private theorem upsert_half {user writer sourceKey : String} {w1 : World} {row : Entry}
    (hh : Half user d0 K V' (fun _ => none) lost w s (user, writer, sourceKey) path y)
    (h : Running user d0 K V (fun _ => none) lost w) (hV : V ⊆ V') (hn : Normalized path) (hc : w1.catalog = w.catalog)
    (hs : w1.fs = s) (hsrc : row.source = (user, writer, sourceKey)) (hpath : row.path = path)
    (hhash : contentHash y = row.contentHash) :
    Ends (execute fun c => c.upsertEntry row)
      (fun _ w' => Running user d0 K V' (fun _ => none) lost w' ∧ Forward w w'.fs ∧
        w.catalog.SameTables w'.catalog ∧
        docs w'.catalog w'.fs.disk (fun _ => none) =
          Function.update (docs w.catalog w.fs.disk (fun _ => none)) (user, writer, sourceKey) (some (path, some y)))
      (fun _ w' => Failing user d0 G w'.fs ∧ w.catalog.pathTaken user writer sourceKey path = true) w1 := by
  rw [ends_execute, hc]
  refine ⟨fun c' hc' => ?_, fun e he => ?_⟩
  · obtain ⟨createdAt, hr, hpre⟩ := Catalog.upsertEntry_ok h.synced.distinct hc'
    have hfin := hh.finish (v := { w1 with catalog := c' }) h hV hr hsrc rfl hpath hn hhash rfl hs
    rw [show Function.update (fun _ => none : SourceId → Option Loc) (user, writer, sourceKey) none = fun _ => none from
      Function.update_eq_self ..] at hfin
    refine ⟨hfin.1, ?_, hpre, hfin.2⟩
    show Forward w w1.fs
    rw [hs]
    exact hh.toForward
  · refine ⟨?_, ?_⟩
    · show Failing user d0 G w1.fs
      rw [hs]
      exact hh.failing
    · have := Catalog.upsertEntry_error he
      rw [Entry.source, Prod.mk.injEq, Prod.mk.injEq] at hsrc
      rwa [hsrc.1, hsrc.2.1, hsrc.2.2, hpath] at this

/-- The data of a document after a put: its old data if these have the same hash. -/
def putData (old : Option (String × Option ByteArray)) (data : ByteArray) : ByteArray :=
  match old with
  | some (_, some x) => if contentHash x = contentHash data then x else data
  | _ => data

/-- Why a put is refused. -/
def PutRefused (w : World) (user writer : String) (op : PutOperation) (lost : Set SourceId) : Prop :=
  (∃ e, normalizePath op.path = .error e) ∨ (∃ e, w.catalog.requireAuthorizedPath user writer op.path = .error e) ∨
    (∃ e, normalizeText op.text = .error e) ∨ Blocked w.fs (treeLoc user op.path) ∨
    w.catalog.pathTaken user writer op.sourceKey op.path = true ∨ lost.Nonempty

/-- What a put has done: the document is at its path, with its data. -/
def PutDone (user writer : String) (d0 : Disk) (K : Prop) (V : Set TreePath) (lost : Set SourceId) (op : PutOperation)
    (w w' : World) : Prop :=
  ∃ text, normalizeText op.text = .ok text ∧ Normalized op.path ∧
    Running user d0 K (V ∪ vacated w.catalog (user, writer, op.sourceKey) op.path) (fun _ => none) lost w' ∧
    Forward w w'.fs ∧ w.catalog.SameTables w'.catalog ∧
    ∃ y, docs w'.catalog w'.fs.disk (fun _ => none) =
        Function.update (docs w.catalog w.fs.disk (fun _ => none)) (user, writer, op.sourceKey) (some (op.path, y)) ∧
      (lost = ∅ → y = some (putData (docs w.catalog w.fs.disk (fun _ => none) (user, writer, op.sourceKey))
        text.toUTF8))

section

variable {writer : String} {op : PutOperation} {text : String}

private theorem vacated_of_none {c : Catalog} {i : SourceId} (hnone : c.row i = none) : V = V ∪ vacated c i path := by
  refine (Set.union_eq_left.2 ?_).symm
  rintro p ⟨e, he, -⟩
  rw [hnone] at he
  cases he

private theorem vacated_of_same {c : Catalog} {i : SourceId} {entry : Entry} (hrow : c.row i = some entry)
    (hpath : entry.path = path) : V = V ∪ vacated c i path := by
  refine (Set.union_eq_left.2 ?_).symm
  rintro p ⟨e, he, hne, -⟩
  rw [hrow] at he
  cases he
  exact absurd hpath hne

private theorem docs_of_file {c : Catalog} {d : Disk} {entry : Entry} {x : ByteArray} (hrow : c.row i = some entry)
    (hx : d.file (treeLoc entry.userId entry.path) = some x) : docs c d (fun _ => none) i =
      some (entry.path, some x) := by
  unfold docs
  rw [hrow, Option.map_some, place_of_none rfl, hx]

/-- A put gives a document whose data have another hash the new data. -/
private theorem Running.putData_eq (h : Running user d0 K V (fun _ => none) lost w) {entry : Entry}
    (hrow : w.catalog.row i = some entry) (hhash : entry.contentHash ≠ contentHash text.toUTF8) (hl : lost = ∅) :
    text.toUTF8 = putData (docs w.catalog w.fs.disk (fun _ => none) i) text.toUTF8 := by
  rcases h.synced.files entry (Catalog.mem_of_row hrow).1 with ⟨x, hx, hxh⟩ | ⟨hl', -⟩
  · rw [place_of_none rfl] at hx
    rw [docs_of_file hrow hx, putData, if_neg]
    rw [hxh]
    exact hhash
  · rw [hl] at hl'
    cases hl'

/-- The file of an object goes when the submission is done. -/
private theorem Half.pushCleanup {objectId : Nat} (hh : Half user d0 K V parked lost w s i path y) :
    Half user d0 K V parked lost w
      { s with cleanupStack := s.cleanupStack ++ [.removeObject (objectLoc user objectId)] } i path y := by
  refine { hh with
    uuids := hh.uuids, quiet := hh.quiet, pathMax := hh.pathMax
    journaled := hh.journaled.of_same le_rfl rfl rfl
    tidy := fun c hc => ?_ }
  rcases List.mem_append.1 hc with hc | hc
  · exact hh.tidy c hc
  · rw [List.mem_singleton.1 hc]
    exact ⟨_, _, rfl⟩

/-- Writing the row completes the put. -/
private theorem put_finish {w1 : World} {row : Entry} (w2 : World) (hn : Normalized op.path)
    (htext : normalizeText op.text = .ok text)
    (h1 : Running user d0 K V (fun _ => none) lost w1) (hcatalog : w1.catalog = w.catalog) (hfs : w1.fs = w.fs)
    (hh : Half user d0 K V' (fun _ => none) lost w1 s (user, writer, op.sourceKey) op.path y)
    (hV : V' = V ∪ vacated w.catalog (user, writer, op.sourceKey) op.path) (hc : w2.catalog = w.catalog)
    (hs : w2.fs = s) (hsrc : row.source = (user, writer, op.sourceKey)) (hpath : row.path = op.path)
    (hhash : contentHash y = row.contentHash)
    (hdata : lost = ∅ → y = putData (docs w.catalog w.fs.disk (fun _ => none) (user, writer, op.sourceKey))
      text.toUTF8) :
    Ends (execute fun c => c.upsertEntry row) (fun _ w' => PutDone user writer d0 K V lost op w w')
      (fun _ w' => Failing user d0 G w'.fs ∧ PutRefused w user writer op lost) w2 := by
  refine (upsert_half (G := G) hh h1 (by rw [hV]; exact Set.subset_union_left) hn (hc.trans hcatalog.symm)
    hs hsrc hpath hhash).mono
    (fun _ w' hw' => ?_) (fun _ w' hw' => ?_)
  · obtain ⟨hrun, hfor, hpre, hdocs⟩ := hw'
    rw [hcatalog] at hpre hdocs
    rw [hfs] at hdocs
    have hforward : Forward w w'.fs := ⟨hfs ▸ hfor.uuids, fun hq => hfor.quiet (hfs ▸ hq), hfs ▸ hfor.pathMax⟩
    exact ⟨text, htext, hn, hV ▸ hrun, hforward, hpre, some y, hdocs, fun hl => congrArg some (hdata hl)⟩
  · rw [hcatalog] at hw'
    exact ⟨hw'.1, .inr (.inr (.inr (.inr (.inl hw'.2))))⟩

/-- A step has renamed a directory in the place of a file, which `G` rules out. -/
def Astray (G : Prop) (user : String) (w : World) : Prop := ¬G ∧ Misplaces user w.fs.undoStack

theorem Astray.of_suffix {w' : World} (h : Astray G user w) (hs : w.fs.undoStack <:+ w'.fs.undoStack) :
    Astray G user w' :=
  ⟨h.1, h.2.of_suffix hs⟩

/-- The put renames a directory: the document's file is lost, and a directory has been made where it lay. -/
def Carries (w : World) (user writer : String) (op : PutOperation) (lost : Set SourceId) : Prop :=
  ∃ entry text, w.catalog.row (user, writer, op.sourceKey) = some entry ∧ normalizeText op.text = .ok text ∧
    entry.contentHash = contentHash text.toUTF8 ∧ entry.path ≠ op.path ∧ entry.source ∈ lost ∧
    w.fs.disk.node (treeLoc user entry.path) = some .dir

/-- A put that renames no directory. -/
private theorem putOperation_files (h : Running user d0 K V (fun _ => none) lost w)
    (hsafe : G → Safe w.fs V lost (treeLoc user op.path)) (hK : K → G ∧ lost.Nonempty)
    (hfile : ¬Carries w user writer op lost) :
    Ends (putOperation user writer op) (fun _ w' => PutDone user writer d0 K V lost op w w')
      (fun _ w' => Failing user d0 G w'.fs ∧ PutRefused w user writer op lost) w := by
  unfold putOperation
  rw [ends_bind, ends_orRaise]
  refine ⟨fun path hpath => ?_, fun e he => ⟨h.failing, .inl ⟨e, he⟩⟩⟩
  have hn : Normalized op.path := .of_ok hpath
  obtain rfl := normalizePath_eq hpath
  rw [ends_bind, ends_catalog, ends_bind, ends_orRaise]
  refine ⟨fun _ _ => ?_, fun e he => ⟨h.failing, .inr (.inl ⟨e, he⟩)⟩⟩
  rw [ends_bind, ends_orRaise]
  refine ⟨fun text htext => ?_, fun e he => ⟨h.failing, .inr (.inr (.inl ⟨e, he⟩))⟩⟩
  rw [ends_bind, ends_now]
  simp only [Catalog.entryBySourceKey_eq_row]
  set w1 : World := { w with ticks := w.ticks + 1 } with hw1
  have h1 : Running user d0 K V (fun _ => none) lost w1 :=
    ⟨h.wf, h.fresh, h.flat, h.synced, h.journaled, h.tidy, h.slots, h.users, h.clear⟩
  have hsafe1 : G → Safe w1.fs V lost (treeLoc user op.path) := hsafe
  have hrefused : ∀ s, Failing user d0 G s → Blocked w.fs (treeLoc user op.path) →
      Failing user d0 G s ∧ PutRefused w user writer op lost :=
    fun s hf hb => ⟨hf, .inr (.inr (.inr (.inl hb)))⟩
  cases he : w.catalog.row (user, writer, op.sourceKey) with
  | none =>
    simp only
    refine replaceTreeEntry_stage h1 hn hsafe1 hK (fun objectId s hs => ?_) (fun e s hf hb => hrefused s hf hb)
    rw [ends_bind, ends_pure]
    refine put_finish _ hn htext h1 rfl rfl (hs.half fun e he' => ?_) (vacated_of_none he)
      rfl rfl rfl rfl rfl fun _ => ?_
    · rw [show w1.catalog = w.catalog from rfl, he] at he'
      cases he'
    · unfold docs
      rw [he]
      rfl
  | some entry =>
    simp only
    obtain ⟨hmem, hsrc⟩ := Catalog.mem_of_row he
    have hu : entry.userId = user := congrArg Prod.fst hsrc
    have hne := h.synced.normal entry hmem rfl
    have hplace : place (fun _ => none) entry = treeLoc user entry.path := by rw [place_of_none rfl, hu]
    refine Ends.ite (fun hhash => ?_) (fun hhash => ?_)
    · refine Ends.ite (fun hpath' => ?_) (fun hpath' => ?_)
      · -- the same text at another path: the file is renamed
        rw [ends_bind, ends_onDisk]
        unfold renameTreeEntry
        have hnew : treeLoc user entry.path ≠ treeLoc user op.path := by
          rw [Ne, treeLoc_inj hne hn]
          exact fun h => hpath' h.2
        rcases h.synced.files entry hmem with ⟨x, hx, hxh⟩ | ⟨hl, -, -, hx⟩
        · have hhalf := renameTreeFile_half (i := (user, writer, op.sourceKey)) (m := entry.path) h1 he hn
            (by rw [hplace]; exact hnew) (h1.slot hmem hu) hx hsafe1 hK
          rw [hplace] at hhalf
          refine hhalf.mono (fun _ s hs => ?_) (fun _ s hs => hrefused s hs.1 hs.2)
          rw [ends_bind, ends_pure]
          refine put_finish _ hn htext h1 rfl rfl hs ?_ rfl rfl rfl rfl (hxh.trans hhash) fun _ => ?_
          · have hvacated := vacated_of_row (V := V) he hu hpath'
            rwa [hu] at hvacated
          · rw [docs_of_file he (by rw [hu, ← hplace]; exact hx), putData, if_pos (hxh.trans hhash)]
        · -- its file is lost, so there is nothing to rename
          rw [hu] at hx
          have hnode : w.fs.disk.node (treeLoc user entry.path) = none :=
            Disk.node_eq_none_of hx fun hdir => hfile ⟨entry, text, he, htext, hhash, hpath', hl, hdir⟩
          refine (renameTreeFile_spec (u := user) h.wf h.fresh
            (.inl ⟨rfl, hn.treePath_ne_nil⟩) (by rw [hnode]; simp) hnew).mono (fun _ s hs => ?_) (fun _ s hs => ?_)
          · obtain ⟨x, -, hx', -⟩ := hs
            rw [hx] at hx'
            cases hx'
          · exact ⟨h.aborted hs.1 hsafe, .inr (.inr (.inr (.inr (.inr ⟨_, hl⟩))))⟩
      · -- the same text at the same path: only the row is written
        have hp : entry.path = op.path := not_not.1 hpath'
        rw [ends_bind, ends_pure, ends_execute]
        refine ⟨fun c' hc' => ?_, fun e he' =>
          ⟨h.failing, .inr (.inr (.inr (.inr (.inl (Catalog.upsertEntry_error he')))))⟩⟩
        obtain ⟨createdAt, hr, hpre⟩ := Catalog.upsertEntry_ok h1.synced.distinct hc'
        refine ⟨text, htext, hn, ?_, ⟨le_rfl, id, rfl⟩, hpre, w.fs.disk.file (treeLoc user op.path), ?_, fun hl => ?_⟩
        · rw [← vacated_of_same he hp]
          have hsync := h1.synced.retitle hr he (fun _ => hp.symm) hhash.symm
          exact ⟨h.wf, h.fresh, h.flat, hsync, h.journaled, h.tidy, h.slots, h.users, h.clear⟩
        · refine (docs_retitle hr).trans ?_
          rw [place_of_none rfl]
          rfl
        · rcases h.synced.files entry hmem with ⟨x, hx, hxh⟩ | ⟨hl', -⟩
          · rw [place_of_none rfl] at hx
            rw [docs_of_file he hx, putData, if_pos (hxh.trans hhash), ← hp, ← hu]
            exact hx
          · rw [hl] at hl'
            cases hl'
    · -- another text
      refine replaceTreeEntry_stage h1 hn hsafe1 hK (fun objectId s hs => ?_) (fun e s hf hb => hrefused s hf hb)
      unfold pushCleanup
      refine Ends.ite (fun hpath' => ?_) (fun hpath' => ?_)
      · rw [ends_bind, ends_onDisk]
        refine (hs.remove h1 he hu hn hpath').mono (fun _ s' hs' => ?_) (fun _ s' hs' => ⟨hs'.1, ?_⟩)
        · rw [ends_bind, ends_onDisk, ends_modify, ends_bind, ends_pure]
          exact put_finish _ hn htext h1 rfl rfl hs'.pushCleanup rfl rfl rfl rfl rfl rfl (h.putData_eq he hhash)
        · rcases hs'.2 with hq | hl
          · exact .inr (.inr (.inr (.inl (.inl hq))))
          · exact .inr (.inr (.inr (.inr (.inr hl))))
      · have hp : entry.path = op.path := not_not.1 hpath'
        rw [ends_bind, ends_onDisk, ends_modify, ends_bind, ends_pure]
        refine put_finish _ hn htext h1 rfl rfl (hs.half fun e he' => ?_).pushCleanup (vacated_of_same he hp)
          rfl rfl rfl rfl rfl (h.putData_eq he hhash)
        rw [show w1.catalog = w.catalog from rfl, he] at he'
        cases he'
        rw [hu, hp]

/-- A put that renames a directory says so in the journal. -/
private theorem putOperation_carries (h : Running user d0 K V (fun _ => none) lost w) (hG : ¬G)
    (hcarries : Carries w user writer op lost) :
    Ends (putOperation user writer op) (fun _ w' => Misplaces user w'.fs.undoStack)
      (fun _ w' => (Failing user d0 G w'.fs ∧ PutRefused w user writer op lost) ∨ Misplaces user w'.fs.undoStack)
      w := by
  obtain ⟨entry, text, he, htext, hhash, hmoved, hl, hdir⟩ := hcarries
  obtain ⟨hmem, hsrc⟩ := Catalog.mem_of_row he
  have hu : entry.userId = user := congrArg Prod.fst hsrc
  have hgone := Disk.file_of_node_dir hdir
  -- the path has been vacated
  have hfreed : Freed user (treePath entry.path) w.fs.undoStack := by
    rcases h.synced.files entry hmem with ⟨x, hx, -⟩ | ⟨-, -, hV, -⟩
    · rw [place_of_none rfl, hu, hgone] at hx
      cases hx
    · exact h.journaled.gone _ hV hgone
  unfold putOperation
  rw [ends_bind, ends_orRaise]
  refine ⟨fun path hpath => ?_, fun e he => .inl ⟨h.failing, .inl ⟨e, he⟩⟩⟩
  have hn : Normalized op.path := .of_ok hpath
  obtain rfl := normalizePath_eq hpath
  rw [ends_bind, ends_catalog, ends_bind, ends_orRaise]
  refine ⟨fun _ _ => ?_, fun e he => .inl ⟨h.failing, .inr (.inl ⟨e, he⟩)⟩⟩
  rw [htext, ends_bind, ends_orRaise]
  refine ⟨fun text' ht => ?_, fun e he => by cases he⟩
  cases ht
  rw [ends_bind, ends_now]
  simp only [Catalog.entryBySourceKey_eq_row, he, if_pos hhash, if_pos hmoved]
  rw [ends_bind, ends_onDisk]
  unfold renameTreeEntry
  refine (renameTreeFile_dir (u := user) h.wf h.fresh (.inl ⟨rfl, hn.treePath_ne_nil⟩) hdir).mono (fun _ s hs => ?_)
    (fun _ s hs => .inl ⟨h.journaled.halted h.flat h.tidy hs hG, .inr (.inr (.inr (.inr (.inr ⟨_, hl⟩))))⟩)
  obtain ⟨backup, hstack⟩ := hs
  have hmis : Misplaces user s.undoStack := by
    rw [hstack]
    exact .inl ⟨treePath entry.path, Loc.mem_inTree.2 rfl, hfreed⟩
  rw [ends_bind, ends_pure, ends_execute]
  exact ⟨fun _ _ => hmis, fun _ _ => .inr hmis⟩

/-- A put, which may go astray unless `G` holds. -/
theorem putOperation_spec (h : Running user d0 K V (fun _ => none) lost w)
    (hsafe : G → Safe w.fs V lost (treeLoc user op.path)) (hK : K ↔ G ∧ lost.Nonempty) :
    Ends (putOperation user writer op)
      (fun _ w' => Astray G user w' ∨ PutDone user writer d0 K V lost op w w')
      (fun _ w' => Astray G user w' ∨ (Failing user d0 G w'.fs ∧ PutRefused w user writer op lost)) w := by
  by_cases hcarries : Carries w user writer op lost
  · have hG : ¬G := by
      intro hG
      obtain ⟨entry, text, he, -, -, -, hl, hdir⟩ := hcarries
      obtain ⟨hmem, hsrc⟩ := Catalog.mem_of_row he
      have hu : entry.userId = user := congrArg Prod.fst hsrc
      rcases h.synced.files entry hmem with ⟨x, hx, -⟩ | ⟨-, -, hV, -⟩
      · rw [place_of_none rfl, hu, Disk.file_of_node_dir hdir] at hx
        cases hx
      · exact h.clear (hK.2 ⟨hG, _, hl⟩) _ hV hdir
    refine (putOperation_carries h hG hcarries).mono (fun _ _ hw' => .inl ⟨hG, hw'⟩) (fun _ _ hw' => ?_)
    exact hw'.symm.imp (fun hmis => ⟨hG, hmis⟩) id
  · exact (putOperation_files h hsafe hK.1 hcarries).mono (fun _ _ hw' => .inr hw') (fun _ _ hw' => .inr hw')

end

/-- The tree path of document `i`. -/
def gone (c : Catalog) (i : SourceId) : Set TreePath := {p | ∃ e, c.row i = some e ∧ p = treePath e.path}

/-- Why a delete is refused. -/
def DeleteRefused (w : World) (user writer : String) (op : DeleteOperation) (lost : Set SourceId) : Prop :=
  w.fs.fault ≠ none ∨ lost.Nonempty ∨ ∃ e err, w.catalog.row (user, writer, op.sourceKey) = some e ∧
    w.catalog.requireAuthorizedPath user writer e.path = .error err

theorem deleteOperation_spec {writer : String} {op : DeleteOperation}
    (h : Running user d0 K V (fun _ => none) lost w) :
    Ends (deleteOperation user writer op)
      (fun _ w' => Running user d0 K (V ∪ gone w.catalog (user, writer, op.sourceKey)) (fun _ => none) lost w' ∧
        Forward w w'.fs ∧ w'.catalog = w.catalog.deleteEntry user writer op.sourceKey ∧
        docs w'.catalog w'.fs.disk (fun _ => none) =
          Function.update (docs w.catalog w.fs.disk (fun _ => none)) (user, writer, op.sourceKey) none)
      (fun _ w' => Failing user d0 G w'.fs ∧ DeleteRefused w user writer op lost) w := by
  unfold deleteOperation
  rw [ends_bind, ends_catalog]
  simp only [Catalog.entryBySourceKey_eq_row]
  cases he : w.catalog.row (user, writer, op.sourceKey) with
  | none =>
    have hempty : gone w.catalog (user, writer, op.sourceKey) ⊆ V := by
      rintro p ⟨e, he', -⟩
      rw [he] at he'
      cases he'
    rw [Set.union_eq_left.2 hempty]
    refine ⟨h, ⟨le_rfl, id, rfl⟩, (Catalog.deleteEntry_of_none he).symm, ?_⟩
    rw [Function.eq_update_self_iff]
    unfold docs
    rw [he]
    rfl
  | some e =>
    obtain ⟨hmem, hsrc⟩ := Catalog.mem_of_row he
    have hu : e.userId = user := congrArg Prod.fst hsrc
    have hne := h.synced.normal e hmem rfl
    have hV' : ∀ p ∈ V ∪ gone w.catalog (user, writer, op.sourceKey), p ∈ V ∨ p = treePath e.path := by
      rintro p (hp | ⟨e', he', rfl⟩)
      · exact .inl hp
      · rw [he] at he'
        cases he'
        exact .inr rfl
    have hvacated : treePath e.path ∈ V ∪ gone w.catalog (user, writer, op.sourceKey) := .inr ⟨e, he, rfl⟩
    have hplace : place (fun _ => none) e = treeLoc user e.path := by rw [place_of_none rfl, hu]
    simp only
    rw [ends_bind, ends_orRaise]
    refine ⟨fun _ _ => ?_, fun err herr => ⟨h.failing, .inr (.inr ⟨e, err, he, herr⟩)⟩⟩
    rw [ends_bind, ends_onDisk]
    have hmem' : ∀ e', e' ∈ (w.catalog.deleteEntry user writer op.sourceKey).entries ↔
        e' ∈ w.catalog.entries ∧ e'.source ≠ (user, writer, op.sourceKey) := fun e' => Catalog.mem_deleteEntry
    have hdist := h.synced.distinct.deleteEntry user writer op.sourceKey
    have hrow := Catalog.row_deleteEntry h.synced.distinct user writer op.sourceKey
    -- the file was lost before, or it is removed now
    have hlost : w.fs.disk.file (treeLoc user e.path) = none → lost.Nonempty ∧ treePath e.path ∈ V := by
      intro hgone
      rcases h.synced.files e hmem with ⟨x, hx, -⟩ | ⟨hl, -, hV, -⟩
      · rw [hplace, hgone] at hx
        cases hx
      · exact ⟨⟨_, hl⟩, hV⟩
    refine (removeTreeEntry_removed (K := K) h.wf h.fresh h.flat h.journaled h.tidy h.clear hne.treePath_ne_nil
      Set.subset_union_left hvacated hV' fun hgone => (hlost hgone).2).mono (fun _ s hr => ?_)
      (fun _ s hs => ⟨hs.1, hs.2.imp id fun hgone => .inl (hlost hgone).1⟩)
    rw [ends_execute]
    refine ⟨fun c' hc' => ?_, fun err herr => by cases herr⟩
    cases hc'
    have hothers : ∀ e' ∈ w.catalog.entries, e'.source ≠ (user, writer, op.sourceKey) →
        s.disk.file (place (fun _ => none) e') = w.fs.disk.file (place (fun _ => none) e') := by
      intro e' he' hs'
      have hpe := h.synced.place_ne he' hmem (by rw [hsrc]; exact hs')
      rw [hplace] at hpe
      exact hr.files e'.userId (treePath e'.path) hpe
    refine ⟨⟨hr.wf, hr.fresh, hr.flat, ?_, hr.journaled, hr.tidy, fun i l hi => (h.slots i l hi).mono hr.uuids, h.users,
      hr.clear⟩, ⟨hr.uuids, hr.quiet, hr.pathMax⟩, rfl, docs_delete hrow hothers⟩
    refine h.synced.delete hdist hmem' he hothers (fun v p hf => ?_) Set.subset_union_left
    have hpe : (⟨.users v, p⟩ : Loc) ≠ treeLoc user e.path := by
      intro heq
      rw [heq] at hf
      exact hf hr.gone
    rw [hr.files v p hpe] at hf
    exact ⟨hf, by rw [hplace]; exact hpe.symm⟩

/-- A change of the catalog that leaves `entries` alone. -/
private theorem Running.of_entries {w' : World} (h : Running user d0 K V parked lost w)
    (hc : w'.catalog.entries = w.catalog.entries) (hs : w'.fs = w.fs) : Running user d0 K V parked lost w' := by
  have hsync := h.synced
  refine ⟨by rw [hs]; exact h.wf, by rw [hs]; exact h.fresh, by rw [hs]; exact h.flat,
    ?_, by rw [hs]; exact h.journaled,
    by rw [hs]; exact h.tidy, by rw [hs]; exact h.slots, h.users, by rw [hs]; exact h.clear⟩
  rw [hs]
  exact ⟨⟨by rw [hc]; exact hsync.distinct.paths, by rw [hc]; exact hsync.distinct.sources⟩,
    by rw [hc]; exact hsync.normal, hsync.inj, hsync.undo, by rw [hc]; exact hsync.files, by rw [hc]; exact hsync.owned⟩

theorem docs_of_entries {c c' : Catalog} {d : Disk} (hc : c'.entries = c.entries) :
    docs c' d parked = docs c d parked := by
  funext i
  unfold docs Catalog.row
  rw [hc]

theorem upsertDecision_entries (c : Catalog) (row : Decision) :
    (c.upsertDecision row).entries = c.entries ∧ c.SameTables (c.upsertDecision row) := by
  unfold Catalog.upsertDecision
  simp only
  split <;> exact ⟨rfl, ⟨rfl, rfl⟩⟩

/-- Why a decision is refused. -/
def DecisionRefused (w : World) (user writer : String) (op : DecisionOperation) : Prop :=
  ∃ path, op.path = some path ∧ ((∃ e, normalizePath path = .error e) ∨
    ∃ e, w.catalog.requireAuthorizedPath user writer path = .error e)

theorem decisionOperation_spec {writer : String} {op : DecisionOperation} (h : Running user d0 K V parked lost w) :
    Ends (decisionOperation user writer op)
      (fun _ w' => Running user d0 K V parked lost w' ∧ w'.fs = w.fs ∧
        w'.catalog.entries = w.catalog.entries ∧ w.catalog.SameTables w'.catalog)
      (fun _ w' => Failing user d0 G w'.fs ∧ DecisionRefused w user writer op) w := by
  unfold decisionOperation
  rw [ends_bind, ends_catalog]
  simp only
  have record : ∀ (row : Int → Decision),
      Ends (now >>= fun time => execute fun c => .ok (c.upsertDecision (row time)))
        (fun _ w' => Running user d0 K V parked lost w' ∧ w'.fs = w.fs ∧
          w'.catalog.entries = w.catalog.entries ∧ w.catalog.SameTables w'.catalog)
        (fun _ w' => Failing user d0 G w'.fs ∧ DecisionRefused w user writer op) w := by
    intro row
    rw [ends_bind, ends_now, ends_execute]
    refine ⟨fun c' hc' => ?_, fun e he => by cases he⟩
    cases hc'
    have hup := upsertDecision_entries w.catalog (row (w.clock w.ticks))
    exact ⟨h.of_entries hup.1 rfl, rfl, hup.1, hup.2⟩
  cases hpath : op.path with
  | none => exact record _
  | some path =>
    simp only
    refine Ends.ite (fun _ => record _) (fun _ => ?_)
    rw [ends_bind, ends_orRaise]
    refine ⟨fun path' hpath' => ?_, fun e he => ⟨h.failing, path, hpath, .inl ⟨e, he⟩⟩⟩
    obtain rfl := normalizePath_eq hpath'
    rw [ends_bind, ends_orRaise]
    refine ⟨fun _ _ => record _, fun e he => ⟨h.failing, _, hpath, .inr ⟨e, he⟩⟩⟩

end

end Ctxd

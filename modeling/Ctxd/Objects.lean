import Ctxd.ObjectFrame
import Ctxd.Runs

/-!
# Exactness of the object directories

The object directories should hold the contents the rows name and nothing else.  Two callbacks of the journal keep them
so: the undo callback that removes a new object, and the cleanup callback that removes a superseded one.  `delete`
pushes neither, so the object of a deleted document stays for ever; the first is pushed only when the object has been
written, so one that could not be written to its end stays as well; and the cleanup callbacks run after a rollback too,
when the rows name the superseded objects again.  In a run without these three things, the directories are exact after
every call.
-/

namespace Ctxd

open Program

/-! ### Removing objects -/

/-- What the callbacks that remove objects rely on. -/
structure Fs.Sound (s : Fs) : Prop where
  free : ∀ v n, s.uuids ≤ n → s.disk.objects (objectLoc v n) = none
  files : ∀ l, s.disk.objects l ≠ some .dir
  named : ∀ l, l ∈ s.made ∨ l ∈ s.dropped → ∃ v n, l = objectLoc v n
  outside : s.Outside

/-- The objects of `out` are gone and nothing else has happened to the objects or the journal. -/
structure Fs.Loses (out : Set Loc) (s s' : Fs) : Prop where
  objects : Blobs.Removes out s.disk.objects s'.disk.objects
  uuids : s.uuids ≤ s'.uuids
  made : s'.made = s.made
  dropped : s'.dropped = s.dropped
  outside : s.Outside → s'.Outside
  quiet : s.fault = none → s'.fault = none

section

variable {s s' s'' : Fs} {out out' : Set Loc}

private theorem Fs.Spares.loses (h : s.Spares s') : s.Loses ∅ s' where
  objects := by
    rw [h.objects]
    exact ⟨fun _ ho => absurd ho (Set.notMem_empty _), fun _ _ => rfl⟩
  uuids := h.uuids
  made := h.made
  dropped := h.dropped
  outside := h.outside
  quiet := h.quiet

private theorem Fs.Loses.trans (h : s.Loses out s') (h' : s'.Loses out' s'') : s.Loses (out ∪ out') s'' where
  objects := h.objects.trans h'.objects
  uuids := h.uuids.trans h'.uuids
  made := h'.made.trans h.made
  dropped := h'.dropped.trans h.dropped
  outside ho := h'.outside (h.outside ho)
  quiet hq := h'.quiet (h.quiet hq)

private theorem Fs.Loses.objects_or (h : s.Loses out s') (l : Loc) :
    s'.disk.objects l = none ∨ s'.disk.objects l = s.disk.objects l := by
  by_cases hl : l ∈ out
  · exact .inl (h.objects.gone l hl)
  · exact .inr (h.objects.kept l hl)

private theorem Fs.Sound.loses (h : s.Sound) (hl : s.Loses out s') : s'.Sound where
  free v n hn := by
    rcases hl.objects_or (objectLoc v n) with e | e
    · exact e
    · rw [e]
      exact h.free v n (hl.uuids.trans hn)
  files l := by
    rcases hl.objects_or l with e | e
    · simp [e]
    · rw [e]
      exact h.files l
  named l hm := by
    rw [hl.made, hl.dropped] at hm
    exact h.named l hm
  outside := hl.outside h.outside

private theorem objects_objectLoc (d : Disk) (v : String) (n : Nat) :
    d.objects (objectLoc v n) = d.nodes.get? (objectLoc v n) := d.objects_eq rfl

private theorem objects_remove_objectLoc (d : Disk) (v : String) (n : Nat) :
    Blobs.Removes {objectLoc v n} d.objects (d.remove (objectLoc v n)).objects := by
  refine ⟨fun l hl => ?_, fun l hl => ?_⟩
  · rw [Set.mem_singleton_iff.1 hl, objects_objectLoc]
    show (d.nodes.pop (objectLoc v n)).get? (objectLoc v n) = none
    rw [Dict.get?_pop, if_pos rfl]
  · unfold Disk.objects
    split
    · show (d.nodes.pop (objectLoc v n)).get? l = _
      rw [Dict.get?_pop, if_neg fun e => hl (Set.mem_singleton_iff.2 e)]
    · rfl

/-- The path walk to an object needs no directory but the root. -/
private theorem resolve_objectLoc (d : Disk) (v : String) (n : Nat) :
    d.resolve (objectLoc v n) = match d.objects (objectLoc v n) with
      | none => .error .ENOENT
      | some node => .ok node := by
  rw [objects_objectLoc]
  rfl

private theorem removeObjectEntry_loses (hq : s.fault = none) (hf : ∀ l, s.disk.objects l ≠ some .dir) (v : String)
    (n : Nat) :
    Ends (removeObjectEntry (objectLoc v n)) (fun _ s' => s.Loses {objectLoc v n} s') (fun _ _ => False) s := by
  have hres := resolve_objectLoc s.disk v n
  show Ends (tryCatch (call fun d => d.unlink (objectLoc v n)) fun e =>
    if e = .osError .ENOENT then pure () else throw e) _ _ s
  rw [ends_tryCatch]
  unfold call tick
  rw [ends_bind, ends_bind, ends_get]
  simp only [hq]
  rw [ends_pure, ends_bind, ends_get]
  unfold Disk.unlink
  cases hobj : s.disk.objects (objectLoc v n) with
  | none =>
    rw [hobj] at hres
    simp only [hres]
    rw [ends_throw, if_pos rfl, ends_pure]
    refine ⟨⟨fun l hl => ?_, fun _ _ => rfl⟩, le_rfl, rfl, rfl, id, id⟩
    rw [Set.mem_singleton_iff.1 hl]
    exact hobj
  | some node =>
    rw [hobj] at hres
    cases node with
    | dir => exact absurd hobj (hf _)
    | file data =>
      simp only [hres]
      exact ⟨objects_remove_objectLoc s.disk v n, le_rfl, rfl, rfl, fun h => ⟨h.undo, h.cleanup⟩, id⟩

/-- A callback, or a failed one. -/
private theorem loses_of_keeps {m : FsM Unit} (h : Keeps Fs.Spares (fun _ => True) m) (s : Fs) :
    Ends m (fun _ s' => s.Loses ∅ s') (fun _ s' => s.Loses ∅ s') s :=
  (h s).mono (fun _ _ hs => hs.1.loses) (fun _ _ hs => hs.loses)

private theorem undo_loses {u : Undo} (h : s.Sound) (hq : s.fault = none) (hu : u.Outside)
    (hn : ∀ l, u = .removeObject l → ∃ v n, l = objectLoc v n) :
    Ends u.run (fun _ s' => s.Loses {l | u = .removeObject l} s') (fun _ s' => s.Loses {l | u = .removeObject l} s')
      s := by
  by_cases hne : ∀ l, u ≠ .removeObject l
  · have hempty : {l | u = .removeObject l} = (∅ : Set Loc) := Set.eq_empty_of_forall_notMem hne
    rw [hempty]
    exact loses_of_keeps (spares_frame.undo (hu.within hne)) s
  · obtain ⟨l, hl⟩ := not_forall_not.1 hne
    subst hl
    obtain ⟨v, n, rfl⟩ := hn l rfl
    have hout : {l | Undo.removeObject (objectLoc v n) = .removeObject l} = {objectLoc v n} := by
      ext l
      simp [eq_comm]
    rw [hout]
    exact (removeObjectEntry_loses hq h.files v n).mono (fun _ _ hs => hs) (fun _ _ hf => hf.elim)

private theorem runUndos_loses (undos : List Undo) (h : s.Sound) (hq : s.fault = none) (hu : ∀ u ∈ undos, u.Outside)
    (hn : ∀ l, Undo.removeObject l ∈ undos → ∃ v n, l = objectLoc v n) :
    Ends (runUndos undos) (fun _ s' => s.Loses {l | Undo.removeObject l ∈ undos} s') (fun _ _ => False) s := by
  induction undos generalizing s with
  | nil =>
    have hempty : {l | Undo.removeObject l ∈ ([] : List Undo)} = (∅ : Set Loc) := by simp
    rw [hempty]
    exact (refl_of Fs.Spares s).loses
  | cons u undos ih =>
    have hset : {l | Undo.removeObject l ∈ u :: undos} =
      {l | u = .removeObject l} ∪ {l | Undo.removeObject l ∈ undos} := by
      ext l
      simp [eq_comm]
    have hrest : ∀ failed s1, s.Loses {l | u = .removeObject l} s1 →
        Ends (runUndos undos >>= fun failedLater => pure (failed || failedLater))
          (fun _ s' => s.Loses {l | Undo.removeObject l ∈ u :: undos} s') (fun _ _ => False) s1 := by
      intro failed s1 h1
      rw [ends_bind, hset]
      refine (ih (h.loses h1) (h1.quiet hq) (fun x hx => hu x (List.mem_cons_of_mem _ hx))
        (fun l hl => hn l (List.mem_cons_of_mem _ hl))).mono (fun _ s2 h2 => h1.trans h2) (fun _ _ hf => hf)
    unfold runUndos
    rw [ends_bind, ends_tryCatch, ends_bind]
    refine (undo_loses h hq (hu u (List.mem_cons_self ..)) fun l hl => hn l (hl ▸ List.mem_cons_self ..)).mono
      (fun _ s1 h1 => ?_) (fun _ s1 h1 => ?_)
    · exact hrest false s1 h1
    · exact hrest true s1 h1

private theorem cleanup_loses {c : Cleanup} (h : s.Sound) (hq : s.fault = none) (hc : c.Outside)
    (hn : ∀ l, c = .removeObject l → ∃ v n, l = objectLoc v n) :
    Ends (tryCatch c.run fun _ => pure ()) (fun _ s' => s.Loses {l | c = .removeObject l} s') (fun _ _ => False) s := by
  rw [ends_tryCatch]
  cases c with
  | unlinkBackup backup =>
    have hempty : {l | Cleanup.unlinkBackup backup = .removeObject l} = (∅ : Set Loc) := by simp
    rw [hempty]
    exact (loses_of_keeps (spares_frame.unlinkIfExists hc) s).mono (fun _ _ hs => hs) (fun _ _ hs => hs)
  | removeObject l =>
    obtain ⟨v, n, rfl⟩ := hn l rfl
    have hout : {l | Cleanup.removeObject (objectLoc v n) = .removeObject l} = {objectLoc v n} := by
      ext l
      simp [eq_comm]
    rw [hout]
    exact (removeObjectEntry_loses hq h.files v n).mono (fun _ _ hs => hs) (fun _ _ hf => hf.elim)

private theorem cleanups_lose (cleanups : List Cleanup) (h : s.Sound) (hq : s.fault = none)
    (hc : ∀ c ∈ cleanups, c.Outside) (hn : ∀ l, Cleanup.removeObject l ∈ cleanups → ∃ v n, l = objectLoc v n) :
    Ends (cleanups.forM fun cleanup => tryCatch cleanup.run fun _ => pure ())
      (fun _ s' => s.Loses {l | Cleanup.removeObject l ∈ cleanups} s') (fun _ _ => False) s := by
  induction cleanups generalizing s with
  | nil =>
    have hempty : {l | Cleanup.removeObject l ∈ ([] : List Cleanup)} = (∅ : Set Loc) := by simp
    rw [hempty]
    exact (refl_of Fs.Spares s).loses
  | cons c cleanups ih =>
    have hset : {l | Cleanup.removeObject l ∈ c :: cleanups} =
        {l | c = .removeObject l} ∪ {l | Cleanup.removeObject l ∈ cleanups} := by
      ext l
      simp [eq_comm]
    rw [hset]
    show Ends (_ >>= fun _ => cleanups.forM _) _ _ s
    rw [ends_bind]
    refine (cleanup_loses h hq (hc c (List.mem_cons_self ..)) fun l hl => hn l (hl ▸ List.mem_cons_self ..)).mono
      (fun _ s1 h1 => ?_) (fun _ _ hf => hf)
    exact (ih (h.loses h1) (h1.quiet hq) (fun x hx => hc x (List.mem_cons_of_mem _ hx))
      (fun l hl => hn l (List.mem_cons_of_mem _ hl))).mono (fun _ s2 h2 => h1.trans h2) (fun _ _ hf => hf)

private theorem rollbackFilesystem_loses (h : s.Sound) :
    Ends rollbackFilesystem (fun _ s' => s.Loses s.made s' ∧ s'.fault = none) (fun _ _ => False) s := by
  unfold rollbackFilesystem
  rw [ends_bind, ends_modify, ends_bind, ends_get]
  have h0 : Fs.Sound { s with fault := none } := ⟨h.free, h.files, h.named, ⟨h.outside.undo, h.outside.cleanup⟩⟩
  refine (runUndos_loses s.undoStack h0 rfl h.outside.undo fun l hl => h.named l (.inl hl)).mono
    (fun _ s' hs' => ⟨?_, hs'.quiet rfl⟩) (fun _ _ hf => hf)
  exact ⟨hs'.objects, hs'.uuids, hs'.made, hs'.dropped, fun ho => hs'.outside ⟨ho.undo, ho.cleanup⟩, fun _ =>
    hs'.quiet rfl⟩

private theorem cleanupFilesystem_loses (h : s.Sound) :
    Ends cleanupFilesystem (fun _ s' => s.Loses s.dropped s') (fun _ _ => False) s := by
  unfold cleanupFilesystem
  rw [ends_bind, ends_modify, ends_bind, ends_get]
  have h0 : Fs.Sound { s with fault := none } := ⟨h.free, h.files, h.named, ⟨h.outside.undo, h.outside.cleanup⟩⟩
  refine (cleanups_lose s.cleanupStack h0 rfl h.outside.cleanup fun l hl => h.named l (.inr hl)).mono
    (fun _ s' hs' => ?_) (fun _ _ hf => hf)
  exact ⟨hs'.objects, hs'.uuids, hs'.made, hs'.dropped, fun ho => hs'.outside ⟨ho.undo, ho.cleanup⟩, fun _ =>
    hs'.quiet rfl⟩

end

/-! ### The ledger of a submission -/

/-- The blob of a digest. -/
def Node.Suits : Node → String → Prop
  | .file data, hash => contentHash data = hash
  | .dir, _ => False

def Fs.journal (s : Fs) : Blobs.Journal Loc Node := ⟨s.disk.objects, s.made, s.dropped⟩

/-- A submission that began in `w0` and runs on. -/
structure Booked (w0 : World) (erased replaced : Prop) (w : World) : Prop where
  ledger : Blobs.Ledger Node.Suits w0.catalog.holdings w0.fs.disk.objects erased replaced w.catalog.holdings
    w.fs.journal
  sound : w.fs.Sound

/-- A submission that began in `w0` and has raised. -/
structure Broken (w0 : World) (replaced : Prop) (s : Fs) : Prop where
  pending : Blobs.Pending w0.fs.disk.objects replaced s.journal
  sound : s.Sound

/-- A put up to its row statement, which is given the row. -/
def putFiles (user writer : String) (operation : PutOperation) : StoreM Entry := do
  let path ← orRaise (normalizePath operation.path)
  let c ← catalog
  orRaise (c.requireAuthorizedPath user writer path)
  let text ← orRaise (normalizeText operation.text)
  let data := text.toUTF8
  let hash := contentHash data
  let time ← now
  let existing := c.entryBySourceKey user writer operation.sourceKey
  let objectId ← match existing with
    | some entry =>
      if entry.contentHash = hash then do
        if entry.path ≠ path then onDisk (renameTreeEntry user entry.path path)
        pure entry.objectId
      else do
        let objectId ← onDisk uuid4
        onDisk (writeBytes (objectLoc user objectId) data)
        onDisk (pushUndo (.removeObject (objectLoc user objectId)))
        onDisk (replaceTreeEntry user path (objectLoc user objectId))
        if entry.path ≠ path then onDisk (removeTreeEntry user entry.path)
        onDisk (pushCleanup (.removeObject (objectLoc user entry.objectId)))
        pure objectId
    | none => do
      let objectId ← onDisk uuid4
      onDisk (writeBytes (objectLoc user objectId) data)
      onDisk (pushUndo (.removeObject (objectLoc user objectId)))
      onDisk (replaceTreeEntry user path (objectLoc user objectId))
      pure objectId
  pure
    { userId := user, writerId := writer, path := path, sourceKey := operation.sourceKey,
      sourceVersion := operation.sourceVersion, docClass := operation.docClass, fileFormat := operation.fileFormat,
      contentHash := hash, sizeBytes := data.size, lineCount := lineCount text, objectId := objectId,
      provenance := operation.provenance, createdAt := (existing.map (·.createdAt)).getD time, updatedAt := time }

/-- A delete that finds a row. -/
def erases (user writer : String) : Step → World → Bool
  | .delete op, w => (w.catalog.entryBySourceKey user writer op.sourceKey).isSome
  | _, _ => false

/-- A put that gives a document another content, when the rows of `c0` name the content it had; it comes as far as its
row statement. -/
def supersedes (c0 : Catalog) (user writer : String) : Step → World → Bool
  | .put op, w =>
    returns (putFiles user writer op) w &&
      (w.catalog.entryBySourceKey user writer op.sourceKey).any fun e =>
        e.contentHash ≠ contentHash (lineFeedText op.text).toUTF8 &&
          c0.entries.any fun e0 => e0.userId = user && e0.objectId = e.objectId
  | _, _ => false

/-- The data that a put stores as a new object, if it comes to store one. -/
def newData (c : Catalog) (user writer : String) (operation : PutOperation) : Except StoreError (Option ByteArray) := do
  let path ← normalizePath operation.path
  c.requireAuthorizedPath user writer path
  let text ← normalizeText operation.text
  let data := text.toUTF8
  match c.entryBySourceKey user writer operation.sourceKey with
  | some entry => return if entry.contentHash = contentHash data then none else some data
  | none => return some data

/-- A call that faults when the object of a put is open and not yet written to its end. -/
def torn (user writer : String) : Step → World → Bool
  | .put op, w =>
    match newData w.catalog user writer op with
    | .ok (some data) => w.fs.fault.any fun n => 0 < n && n ≤ data.size
    | _ => false
  | _, _ => false

/-- Some step that the loop of `submit` comes to meets `p`. -/
def reached (p : Step → World → Bool) (user writer : String) : List Step → World → Bool
  | [], _ => false
  | step :: rest, w => p step w || match runStep user writer step w with
    | .ok _ w' => reached p user writer rest w'
    | .error _ _ => false

section

variable {user writer : String} {w0 w w' : World} {erased replaced : Prop} {s s' : Fs}

private theorem putOperation_eq (operation : PutOperation) :
    putOperation user writer operation =
      putFiles user writer operation >>= fun row => execute fun c => c.upsertEntry row := by
  unfold putOperation putFiles
  simp only [bind_assoc, pure_bind]
  refine bind_congr fun path => bind_congr fun c => bind_congr fun _ => bind_congr fun text => bind_congr fun time => ?_
  cases c.entryBySourceKey user writer operation.sourceKey with
  | none => simp only [bind_assoc, pure_bind]
  | some entry =>
    by_cases hhash : entry.contentHash = contentHash text.toUTF8
    · by_cases hpath : entry.path ≠ path
      · simp only [if_pos hhash, if_pos hpath, bind_assoc, pure_bind]
      · simp only [if_pos hhash, if_neg hpath, pure_bind]
    · by_cases hpath : entry.path ≠ path
      · simp only [if_neg hhash, if_pos hpath, bind_assoc, pure_bind]
      · simp only [if_neg hhash, if_neg hpath, bind_assoc, pure_bind]

/-! ### Steps that leave the objects alone -/

private theorem Fs.Spares.journal (h : s.Spares s') : s'.journal = s.journal := by
  unfold Fs.journal
  rw [h.objects, h.made, h.dropped]

private theorem Booked.broken (h : Booked w0 erased replaced w) :
    Broken w0 replaced w.fs := ⟨h.ledger.toPending, h.sound⟩

private theorem Booked.spares (h : Booked w0 erased replaced w) (hs : w.Spares w') : Booked w0 erased replaced w' := by
  refine ⟨?_, h.sound.loses hs.fs.loses⟩
  rw [hs.holdings, hs.fs.journal]
  exact h.ledger

private theorem Broken.spares (h : Broken w0 replaced s) (hs : s.Spares s') : Broken w0 replaced s' := by
  refine ⟨?_, h.sound.loses hs.loses⟩
  rw [hs.journal]
  exact h.pending

private theorem Broken.mono {replaced' : Prop} (h : Broken w0 replaced s) (hr : replaced → replaced') :
    Broken w0 replaced' s :=
  ⟨h.pending.mono hr, h.sound⟩

private theorem Booked.mono {erased' replaced' : Prop} (h : Booked w0 erased replaced w) (he : erased → erased')
    (hr : replaced → replaced') : Booked w0 erased' replaced' w :=
  ⟨{ h.ledger with
      toPending := h.ledger.toPending.mono hr, named := fun hn => h.ledger.named fun hn' => hn (he hn') }, h.sound⟩

private theorem ends_spares {α : Type} {P : α → Prop} {m : StoreM α} (hm : Keeps World.Spares P m)
    (h : Booked w0 erased replaced w) :
    Ends m (fun _ w' => Booked w0 erased replaced w') (fun _ w' => Broken w0 replaced w'.fs) w :=
  (hm w).mono (fun _ _ hw => h.spares hw.1) (fun _ _ hw => (h.spares hw).broken)

/-! ### Deletes -/

private theorem Catalog.holdings_deleteEntry (c : Catalog) (user writer sourceKey : String) :
    (c.deleteEntry user writer sourceKey).holdings = {r | r ∈ c.holdings ∧ r.key ≠ (user, writer, sourceKey)} := by
  ext r
  constructor
  · rintro ⟨e, he, rfl⟩
    obtain ⟨he, hne⟩ := mem_deleteEntry.1 he
    exact ⟨⟨e, he, rfl⟩, hne⟩
  · rintro ⟨⟨e, he, rfl⟩, hne⟩
    exact ⟨e, mem_deleteEntry.2 ⟨he, hne⟩, rfl⟩

private theorem deleteOperation_booked (op : DeleteOperation) (h : Booked w0 erased replaced w) :
    Ends (deleteOperation user writer op)
      (fun _ w' => Booked w0 (erased ∨ erases user writer (.delete op) w = true) replaced w')
      (fun _ w' => Broken w0 replaced w'.fs) w := by
  unfold deleteOperation
  rw [ends_bind, ends_catalog]
  cases hrow : w.catalog.entryBySourceKey user writer op.sourceKey with
  | none => exact h.mono .inl id
  | some existing =>
    have hfound : erases user writer (.delete op) w = true := by
      show (w.catalog.entryBySourceKey user writer op.sourceKey).isSome = true
      rw [hrow]
      rfl
    rw [ends_bind, ends_orRaise]
    refine ⟨fun _ _ => ?_, fun _ _ => h.broken⟩
    rw [ends_bind]
    refine (ends_spares (keeps_onDisk (spares_frame.removeTreeEntry (Loc.outside_treeLoc user existing.path))) h).mono
      (fun _ w1 h1 => ?_)
      (fun _ _ hw => hw)
    rw [ends_execute]
    refine ⟨fun c hc => ?_, fun _ he => by cases he⟩
    cases hc
    refine ⟨?_, h1.sound⟩
    rw [Catalog.holdings_deleteEntry]
    have herase := h1.ledger.erase (user, writer, op.sourceKey)
    exact { herase with named := fun hn => herase.named fun hn' => hn (hn'.elim .inl fun _ => .inr hfound) }

/-! ### Puts -/

private theorem Catalog.holdings_upsertEntry {c c' : Catalog} {row : Entry} (h : c.upsertEntry row = .ok c') :
    c'.holdings = insert row.holding {r | r ∈ c.holdings ∧ r.key ≠ row.source} := by
  unfold upsertEntry at h
  split at h
  · cases h
  · split at h
    · rename_i hany
      cases h
      obtain ⟨old, hold, hs⟩ := List.any_eq_true.1 hany
      ext r
      constructor
      · rintro ⟨e, he, rfl⟩
        obtain ⟨e0, he0, rfl⟩ := List.mem_map.1 he
        split
        · exact .inl rfl
        · rename_i hne
          rw [Entry.isSource_iff] at hne
          exact .inr ⟨⟨e0, he0, rfl⟩, hne⟩
      · rintro (rfl | ⟨⟨e, he, rfl⟩, hne⟩)
        · refine ⟨_, List.mem_map_of_mem hold, ?_⟩
          rw [if_pos hs]
          rfl
        · refine ⟨_, List.mem_map_of_mem he, ?_⟩
          rw [if_neg fun hs => hne ((Entry.isSource_iff ..).1 hs)]
    · rename_i hany
      cases h
      ext r
      constructor
      · rintro ⟨e, he, rfl⟩
        rcases List.mem_append.1 he with he | he
        · refine .inr ⟨⟨e, he, rfl⟩, fun hs => hany (List.any_eq_true.2 ⟨e, he, ?_⟩)⟩
          exact (Entry.isSource_iff ..).2 hs
        · rw [List.mem_singleton.1 he]
          exact .inl rfl
      · rintro (rfl | ⟨⟨e, he, rfl⟩, -⟩)
        · exact ⟨row, List.mem_append_right _ (List.mem_singleton_self _), rfl⟩
        · exact ⟨e, List.mem_append_left _ he, rfl⟩

private theorem objectLoc_inj {v v' : String} {n n' : Nat} (h : objectLoc v n = objectLoc v' n') : v = v' ∧ n = n' := by
  simp only [objectLoc, uuidText, Loc.mk.injEq, Area.objects.injEq, List.cons.injEq, and_true] at h
  exact ⟨h.1, Nat.repr_injective h.2⟩

/-- Writing an object under a new name makes one object and changes no other. -/
private theorem objects_put_object (s : Fs) (user : String) (n : Nat) (data : ByteArray) :
    (s.disk.put (objectLoc user n) (.file data)).objects =
      (s.journal.make (objectLoc user n) (.file data)).blobs := by
  funext l
  by_cases hl : l = objectLoc user n
  · rw [hl, Blobs.Journal.make_blobs_self, objects_objectLoc]
    exact Dict.get?_set_self _ _ _
  · rw [Blobs.Journal.make_blobs_of_ne _ _ hl]
    show _ = s.disk.objects l
    unfold Disk.objects
    split
    · exact Dict.get?_set_of_ne hl _
    · rfl

/-- The journal when a new object has been written and its callback is entered. -/
private theorem journal_of_made {l : Loc} {data : ByteArray}
    (hobj : s'.disk.objects = (s.journal.make l (.file data)).blobs)
    (hundo : s'.undoStack = .removeObject l :: s.undoStack) (hcleanup : s'.cleanupStack = s.cleanupStack) :
    s'.journal = s.journal.make l (.file data) := by
  have hmade : s'.made = insert l s.made := by
    ext l'
    show Undo.removeObject l' ∈ s'.undoStack ↔ _
    rw [hundo, List.mem_cons, Undo.removeObject.injEq]
    rfl
  have hdropped : s'.dropped = s.dropped := by
    show {l | Cleanup.removeObject l ∈ s'.cleanupStack} = _
    rw [hcleanup]
    rfl
  unfold Fs.journal
  rw [hmade, hdropped, hobj]
  rfl

private theorem Fs.Sound.made {n : Nat} {data : ByteArray} (h : s.Sound) (hn : n < s'.uuids)
    (huuids : s.uuids ≤ s'.uuids) (hobj : s'.disk.objects = (s.journal.make (objectLoc user n) (.file data)).blobs)
    (hundo : s'.undoStack = .removeObject (objectLoc user n) :: s.undoStack)
    (hcleanup : s'.cleanupStack = s.cleanupStack) : s'.Sound := by
  have hjournal := journal_of_made hobj hundo hcleanup
  refine ⟨fun v m hm => ?_, fun l => ?_, fun l hl => ?_, ⟨fun u hu => ?_, ?_⟩⟩
  · rw [hobj, Blobs.Journal.make_blobs_of_ne]
    · exact h.free v m (huuids.trans hm)
    · intro heq
      have hmn := (objectLoc_inj heq).2
      omega
  · rw [hobj]
    by_cases hl : l = objectLoc user n
    · rw [hl, Blobs.Journal.make_blobs_self]
      simp
    · rw [Blobs.Journal.make_blobs_of_ne _ _ hl]
      exact h.files l
  · rw [show s'.made = _ from congrArg Blobs.Journal.made hjournal,
      show s'.dropped = _ from congrArg Blobs.Journal.dropped hjournal] at hl
    rcases hl with (rfl | hl) | hl
    · exact ⟨user, _, rfl⟩
    · exact h.named l (.inl hl)
    · exact h.named l (.inr hl)
  · rw [hundo] at hu
    rcases List.mem_cons.1 hu with rfl | hu
    · trivial
    · exact h.outside.undo u hu
  · rw [hcleanup]
    exact h.outside.cleanup

/-- Only the supply of uuids and the countdown have changed. -/
private theorem spares_of_kept (hj : Fs.SameJournal { s with uuids := s.uuids + 1 } s') (hd : s'.disk = s.disk) :
    s.Spares s' := by
  refine ⟨by rw [hd], ?_, ?_, ?_, fun ho => ⟨?_, ?_⟩, hj.quiet⟩
  · rw [hj.uuids]
    exact Nat.le_succ _
  · unfold Fs.made
    rw [hj.undoStack]
  · unfold Fs.dropped
    rw [hj.cleanupStack]
  · rw [hj.undoStack]
    exact ho.undo
  · rw [hj.cleanupStack]
    exact ho.cleanup

/-- A new object: written, entered in the journal and linked into the tree. -/
private theorem newObject_booked {β : Type} {path : String} {data : ByteArray} {k : Nat → StoreM β}
    {Q : β → World → Prop} {E : StoreError → World → Prop} (h : Booked w0 erased replaced w)
    (hwhole : (w.fs.fault.any fun n => 0 < n && n ≤ data.size) = false)
    (hk : ∀ n s, w.fs.disk.objects (objectLoc user n) = none → s.Sound →
      s.journal = w.fs.journal.make (objectLoc user n) (.file data) → Ends (k n) Q E { w with fs := s })
    (hE : ∀ e s, Broken w0 replaced s → E e { w with fs := s }) :
    Ends (onDisk uuid4 >>= fun objectId =>
        onDisk (writeBytes (objectLoc user objectId) data) >>= fun _ =>
        onDisk (pushUndo (.removeObject (objectLoc user objectId))) >>= fun _ =>
        onDisk (replaceTreeEntry user path (objectLoc user objectId)) >>= fun _ => k objectId) Q E w := by
  have hfree := h.sound.free user w.fs.uuids le_rfl
  have hcreate : w.fs.disk.create (objectLoc user w.fs.uuids) =
      .ok (w.fs.disk.put (objectLoc user w.fs.uuids) (.file .empty)) := by
    have hres := resolve_objectLoc w.fs.disk user w.fs.uuids
    rw [hfree] at hres
    unfold Disk.create
    rw [hres]
  rw [ends_bind, ends_onDisk, ends_uuid4, ends_bind, ends_onDisk]
  refine (writeBytes_spec (s := { w.fs with uuids := w.fs.uuids + 1 }) data hcreate).mono (fun _ s1 hs1 => ?_)
    (fun e s1 hs1 => hE e s1 (h.broken.spares (spares_of_kept hs1.1 ?_)))
  · obtain ⟨hj1, hd1⟩ := hs1
    have hobj := (congrArg Disk.objects hd1).trans (objects_put_object w.fs user w.fs.uuids data)
    have huuids : s1.uuids = w.fs.uuids + 1 := hj1.uuids
    rw [ends_bind, ends_onDisk]
    unfold pushUndo
    rw [ends_modify, ends_bind, ends_onDisk]
    set s2 : Fs := { s1 with undoStack := .removeObject (objectLoc user w.fs.uuids) :: s1.undoStack } with hs2
    have hundo : s2.undoStack = .removeObject (objectLoc user w.fs.uuids) :: w.fs.undoStack :=
      congrArg _ hj1.undoStack
    have hjour : s2.journal = w.fs.journal.make (objectLoc user w.fs.uuids) (.file data) :=
      journal_of_made hobj hundo hj1.cleanupStack
    have hsound : s2.Sound := by
      refine h.sound.made ?_ ?_ hobj hundo hj1.cleanupStack
      · exact huuids.ge
      · exact (Nat.le_succ _).trans huuids.ge
    -- whatever fails from here on, undoing removes the object again
    have hbroken : Broken w0 replaced s2 := by
      refine ⟨?_, hsound⟩
      rw [hjour]
      exact h.ledger.toPending.make hfree
    refine (spares_frame.replaceTreeEntry (Loc.outside_treeLoc user path) (objectLoc user w.fs.uuids) s2).mono
      (fun _ s3 hs3 => ?_)
      (fun e s3 hs3 => hE e s3 (hbroken.spares hs3))
    exact hk _ s3 hfree (hsound.loses hs3.1.loses) (hs3.1.journal.trans hjour)
  · -- the file has not been opened, since no call faults while it is written
    rcases hs1.2 with ⟨-, hd⟩ | ⟨n, hfault, hlt, -⟩
    · exact hd
    · rw [show w.fs.fault = some (n + 1) from hfault] at hwhole
      simp only [Option.any_some, Nat.zero_lt_succ, decide_true, Bool.true_and, decide_eq_false_iff_not] at hwhole
      omega

/-- The files of a put are in place; only its row is missing. -/
structure Filed (w0 : World) (erased replaced : Prop) (c0 : Catalog) (row : Entry) (w' : World) : Prop where
  catalog : w'.catalog = c0
  broken : Broken w0 replaced w'.fs
  finish : ∀ c : Catalog, c.holdings = insert row.holding {r | r ∈ c0.holdings ∧ r.key ≠ row.source} →
    Booked w0 erased replaced { w' with catalog := c }

private theorem Filed.mono {replaced' : Prop} {c0 : Catalog} {row : Entry} (h : Filed w0 erased replaced c0 row w)
    (hr : replaced → replaced') : Filed w0 erased replaced' c0 row w :=
  ⟨h.catalog, h.broken.mono hr, fun c hc => (h.finish c hc).mono id hr⟩

/-- A document keeps its object. -/
private theorem Booked.filed {row e : Entry} (h : Booked w0 erased replaced w) (he : e ∈ w.catalog.entries)
    (hrow : row.holding = e.holding) (hs : w.fs.Spares s) :
      Filed w0 erased replaced w.catalog row { w with fs := s } := by
  refine ⟨rfl, h.broken.spares hs, fun c hc => h.spares ⟨hs, hc.trans ?_⟩⟩
  have hmem : e.holding ∈ w.catalog.holdings := ⟨e, he, rfl⟩
  have hkey : row.source = e.holding.key := congrArg Blobs.Row.key hrow
  rw [hrow, hkey]
  ext r
  constructor
  · rintro (rfl | ⟨hr, -⟩)
    · exact hmem
    · exact hr
  · intro hr
    by_cases hk : r.key = e.holding.key
    · exact .inl (h.ledger.key r hr _ hmem hk)
    · exact .inr ⟨hr, hk⟩

/-- A document that had no row gets an object. -/
private theorem Booked.filed_new {row : Entry} {data : ByteArray} (h : Booked w0 erased replaced w)
    (hnone : w.catalog.row row.source = none)
    (hfree : w.fs.disk.objects (objectLoc row.userId row.objectId) = none) (hs : s.Sound)
    (hj : s.journal = w.fs.journal.make (objectLoc row.userId row.objectId) (.file data))
    (hhash : contentHash data = row.contentHash) : Filed w0 erased replaced w.catalog row { w with fs := s } := by
  have hkey : ∀ r ∈ w.catalog.holdings, r.key ≠ row.source := by
    rintro r ⟨e, he, rfl⟩
    exact Catalog.row_eq_none_iff.1 hnone e he
  have hall : {r | r ∈ w.catalog.holdings ∧ r.key ≠ row.source} = w.catalog.holdings :=
    Set.sep_eq_self_iff_mem_true.2 hkey
  have hsuits : Node.Suits (.file data) row.holding.digest := hhash
  have hledger := h.ledger.insert (r := row.holding) hkey hfree hsuits
  rw [show row.holding.blob = objectLoc row.userId row.objectId from rfl, ← hj] at hledger
  refine ⟨rfl, ⟨hledger.toPending, hs⟩, fun c hc => ⟨?_, hs⟩⟩
  show Blobs.Ledger _ _ _ _ _ c.holdings _
  rw [hc, hall]
  exact hledger

/-- A document gets another object, and the old one is put aside. -/
private theorem Booked.filed_other {row e : Entry} {data : ByteArray} {replaced' : Prop}
    (h : Booked w0 erased replaced w) (he : e ∈ w.catalog.entries) (hsource : e.source = row.source)
    (hfree : w.fs.disk.objects (objectLoc row.userId row.objectId) = none) (hs : s.Sound)
    (hj : s.journal = w.fs.journal.make (objectLoc row.userId row.objectId) (.file data))
    (hhash : contentHash data = row.contentHash) (hrep : replaced → replaced')
    (hold : (∃ e0 ∈ w0.catalog.entries, e0.holding = e.holding) → replaced') :
    Filed w0 erased replaced' w.catalog row
      { w with
        fs := { s with cleanupStack := s.cleanupStack ++ [.removeObject (objectLoc e.userId e.objectId)] } } := by
  have hmem : e.holding ∈ w.catalog.holdings := ⟨e, he, rfl⟩
  have hsuits : Node.Suits (.file data) row.holding.digest := hhash
  have hledger := h.ledger.replace (r := row.holding) hmem hsource hfree hsuits
  set s' : Fs := { s with cleanupStack := s.cleanupStack ++ [.removeObject (objectLoc e.userId e.objectId)] } with hs'
  have hdropped : s'.dropped = insert (objectLoc e.userId e.objectId) s.dropped := by
    ext l
    show Cleanup.removeObject l ∈ s.cleanupStack ++ [_] ↔ _
    rw [List.mem_append, List.mem_singleton, Cleanup.removeObject.injEq, or_comm]
    rfl
  have hjour : s'.journal = { w.fs.journal.make (objectLoc row.userId row.objectId) (.file data) with
      dropped := insert e.holding.blob w.fs.journal.dropped } := by
    rw [← hj]
    unfold Fs.journal
    rw [hdropped]
    have hd : s.dropped = w.fs.dropped := congrArg Blobs.Journal.dropped hj
    rw [hd]
    rfl
  have hsound : s'.Sound := by
    refine ⟨hs.free, hs.files, fun l hl => ?_, ⟨hs.outside.undo, fun c hc => ?_⟩⟩
    · rw [hdropped] at hl
      rcases hl with hl | rfl | hl
      · exact hs.named l (.inl hl)
      · exact ⟨_, _, rfl⟩
      · exact hs.named l (.inr hl)
    · rcases List.mem_append.1 hc with hc | hc
      · exact hs.outside.cleanup c hc
      · rw [List.mem_singleton.1 hc]
        trivial
  have hrep' : (replaced ∨ e.holding.blob ∉ w.fs.journal.made) → replaced' := by
    rintro (hr | hm)
    · exact hrep hr
    · exact hold (h.ledger.original _ hmem hm)
  have hb : Blobs.Ledger Node.Suits w0.catalog.holdings w0.fs.disk.objects erased replaced'
      (insert row.holding {r | r ∈ w.catalog.holdings ∧ r.key ≠ row.source}) s'.journal := by
    rw [hjour]
    exact { hledger with toPending := hledger.toPending.mono hrep' }
  refine ⟨rfl, ⟨hb.toPending, hsound⟩, fun c hc => ⟨?_, hsound⟩⟩
  show Blobs.Ledger _ _ _ _ _ c.holdings _
  rw [hc]
  exact hb

private theorem putFiles_booked (user writer : String) (op : PutOperation) (h : Booked w0 erased replaced w)
    (hwhole : torn user writer (.put op) w = false) :
    Ends (putFiles user writer op)
      (fun row w' => Filed w0 erased (replaced ∨ ∃ e, w.catalog.entryBySourceKey user writer op.sourceKey = some e ∧
        e.contentHash ≠ contentHash (lineFeedText op.text).toUTF8 ∧
          ∃ e0 ∈ w0.catalog.entries, e0.holding = e.holding) w.catalog row w')
      (fun _ w' => Broken w0 replaced w'.fs) w := by
  unfold putFiles
  unfold torn newData at hwhole
  rw [ends_bind, ends_orRaise]
  refine ⟨fun path hpath => ?_, fun _ _ => h.broken⟩
  rw [ends_bind, ends_catalog, ends_bind, ends_orRaise]
  refine ⟨fun _ hauth => ?_, fun _ _ => h.broken⟩
  rw [ends_bind, ends_orRaise]
  refine ⟨fun text htext => ?_, fun _ _ => h.broken⟩
  simp only [hpath, hauth, htext, bind, Except.bind, pure, Except.pure] at hwhole
  obtain rfl := normalizeText_ok htext
  simp only
  rw [ends_bind, ends_now]
  have h' : Booked w0 erased replaced { w with ticks := w.ticks + 1 } := ⟨h.ledger, h.sound⟩
  have hcat : w.catalog.entryBySourceKey user writer op.sourceKey = w.catalog.row (user, writer, op.sourceKey) :=
    Catalog.entryBySourceKey_eq_row _ _ _ _
  cases hrow : w.catalog.entryBySourceKey user writer op.sourceKey with
  | none =>
    simp only
    rw [hrow] at hwhole
    refine newObject_booked h' hwhole (fun n s hfree hs hj => ?_) (fun _ s hs => hs)
    rw [ends_bind, ends_pure, ends_pure]
    refine (h'.filed_new ?_ hfree hs hj rfl).mono .inl
    rw [← hrow, hcat]
    rfl
  | some e =>
    simp only
    rw [hrow] at hwhole
    rw [hcat] at hrow
    obtain ⟨he, hsource⟩ := Catalog.mem_of_row hrow
    have huser : e.userId = user := congrArg Prod.fst hsource
    -- a text with the hash of the row keeps its object
    refine Ends.ite (fun hhash => ?_) (fun hhash => ?_)
    · have hkeep : ∀ row : Entry, row.source = e.source → row.objectId = e.objectId → row.contentHash = e.contentHash →
          row.holding = e.holding := by
        intro row h1 h2 h3
        unfold Entry.holding
        rw [h1, h2, h3, show row.userId = e.userId from congrArg Prod.fst h1]
      refine Ends.ite (fun _ => ?_) (fun _ => ?_)
      · rw [ends_bind, ends_onDisk]
        refine (spares_frame.renameTreeFile user (Loc.outside_treeLoc user e.path) (Loc.outside_treeLoc user path)
          e.path
          w.fs).mono (fun _ s hs => ?_) (fun _ s hs => h.broken.spares hs)
        rw [ends_bind, ends_pure, ends_pure]
        refine Filed.mono (h'.filed he ?_ hs.1) .inl
        exact hkeep _ hsource.symm rfl hhash.symm
      · rw [ends_bind, ends_pure, ends_pure]
        refine Filed.mono (h'.filed he ?_ (refl_of Fs.Spares w.fs)) .inl
        exact hkeep _ hsource.symm rfl hhash.symm
    · simp only [if_neg hhash] at hwhole
      refine newObject_booked h' hwhole (fun n s hfree hs hj => ?_) (fun _ s hs => hs)
      have hbroken : Broken w0 replaced s := by
        refine ⟨?_, hs⟩
        rw [hj]
        exact h.ledger.toPending.make hfree
      -- the old object is not removed before the submission is done
      have hlast : ∀ s', s.Spares s' →
        Ends (onDisk (pushCleanup (.removeObject (objectLoc user e.objectId))) >>= fun _ =>
          pure n >>= fun objectId => pure
            ({ userId := user, writerId := writer, path := path, sourceKey := op.sourceKey,
               sourceVersion := op.sourceVersion, docClass := op.docClass, fileFormat := op.fileFormat,
               contentHash := contentHash (lineFeedText op.text).toUTF8,
                 sizeBytes := (lineFeedText op.text).toUTF8.size,
               lineCount := lineCount (lineFeedText op.text), objectId := objectId, provenance := op.provenance,
               createdAt := (Option.map (fun x => x.createdAt) (some e)).getD (w.clock w.ticks),
               updatedAt := w.clock w.ticks } : Entry))
          (fun row w' => Filed w0 erased (replaced ∨ ∃ e', some e = some e' ∧
            e'.contentHash ≠ contentHash (lineFeedText op.text).toUTF8 ∧
              ∃ e0 ∈ w0.catalog.entries, e0.holding = e'.holding) w.catalog row w')
          (fun _ w' => Broken w0 replaced w'.fs) { w with ticks := w.ticks + 1, fs := s' } := by
        intro s' hs'
        rw [ends_bind, ends_onDisk]
        unfold pushCleanup
        rw [ends_modify, ends_bind, ends_pure, ends_pure, ← huser]
        refine h'.filed_other he ?_ ?_ (hs.loses hs'.loses) (hs'.journal.trans ?_) rfl .inl fun h0 =>
          .inr ⟨e, rfl, hhash, h0⟩
        · rw [huser]
          exact hsource
        · rw [huser]
          exact hfree
        · rw [huser]
          exact hj
      refine Ends.ite (fun _ => ?_) (fun _ => hlast s (refl_of Fs.Spares s))
      rw [ends_bind, ends_onDisk]
      exact (spares_frame.removeTreeEntry (Loc.outside_treeLoc user e.path) s).mono (fun _ s' hs' => hlast s' hs'.1)
        (fun _ s' hs' => hbroken.spares hs')

/-! ### Steps -/

private theorem runStep_booked (user writer : String) (step : Step) (h : Booked w0 erased replaced w)
    (hwhole : torn user writer step w = false) :
    Ends (runStep user writer step)
      (fun _ w' => Booked w0 (erased ∨ erases user writer step w = true)
        (replaced ∨ supersedes w0.catalog user writer step w = true) w')
      (fun _ w' => Broken w0 (replaced ∨ supersedes w0.catalog user writer step w = true) w'.fs) w := by
  cases step with
  | put op =>
    show Ends (putOperation user writer op) _ _ w
    rw [putOperation_eq, ends_bind]
    have hfiles := putFiles_booked user writer op h hwhole
    cases hm : putFiles user writer op w with
    | error e w1 => exact (ends_of_error hm).2 ((hfiles.of_error hm).mono .inl)
    | ok row w1 =>
      have hfiled : Filed w0 erased (replaced ∨ supersedes w0.catalog user writer (.put op) w = true)
        w.catalog row w1 := by
        refine (hfiles.of_ok hm).mono fun hr => ?_
        rcases hr with hr | ⟨e, he, hhash, e0, he0, hold⟩
        · exact .inl hr
        · right
          have hblob := objectLoc_inj (congrArg Blobs.Row.blob hold)
          have huser : e.userId = user := by
            rw [Catalog.entryBySourceKey_eq_row] at he
            exact congrArg Prod.fst (Catalog.mem_of_row he).2
          have hany : (w0.catalog.entries.any fun e0 => e0.userId = user && e0.objectId = e.objectId) = true :=
            List.any_eq_true.2 ⟨e0, he0, by simp [hblob.1.trans huser, hblob.2]⟩
          simp only [supersedes, returns_of_ok hm, he, Option.any_some, hany, Bool.true_and, Bool.and_true]
          exact decide_eq_true hhash
      rw [ends_of_ok hm, ends_execute, hfiled.catalog]
      refine ⟨fun c hc => ?_, fun _ _ => hfiled.broken⟩
      exact (hfiled.finish c (Catalog.holdings_upsertEntry hc)).mono .inl id
  | moves ops =>
    exact (ends_spares (keeps_moveBatch ops) h).mono (fun _ _ hw => hw.mono .inl .inl) (fun _ _ hw => hw.mono .inl)
  | delete op =>
    exact (deleteOperation_booked op h).mono (fun _ _ hw => hw.mono id .inl) (fun _ _ hw => hw.mono .inl)
  | decision op =>
    exact (ends_spares (keeps_decisionOperation op) h).mono (fun _ _ hw => hw.mono .inl .inl)
      (fun _ _ hw => hw.mono .inl)

private theorem steps_booked (user writer : String) (steps : List Step) (h : Booked w0 erased replaced w)
    (hwhole : reached (torn user writer) user writer steps w = false) :
    Ends (steps.forM (runStep user writer))
      (fun _ w' => Booked w0 (erased ∨ reached (erases user writer) user writer steps w = true)
        (replaced ∨ reached (supersedes w0.catalog user writer) user writer steps w = true) w')
      (fun _ w' => Broken w0 (replaced ∨ reached (supersedes w0.catalog user writer) user writer steps w = true) w'.fs)
      w := by
  induction steps generalizing w erased replaced with
  | nil => exact h.mono .inl .inl
  | cons step steps ih =>
    unfold reached at hwhole
    rw [Bool.or_eq_false_iff] at hwhole
    have hstep := runStep_booked user writer step h hwhole.1
    show Ends (runStep user writer step >>= fun _ => steps.forM (runStep user writer)) _ _ w
    rw [ends_bind]
    cases hm : runStep user writer step w with
    | error e w1 =>
      refine (ends_of_error hm).2 ((hstep.of_error hm).mono fun hr => hr.imp_right fun hs => ?_)
      unfold reached
      rw [hs, Bool.true_or]
    | ok a w1 =>
      have hreached : ∀ (p : Step → World → Bool) (o : Prop),
          (o ∨ p step w = true) ∨ reached p user writer steps w1 = true →
            o ∨ reached p user writer (step :: steps) w = true := by
        intro p o ho
        unfold reached
        rw [hm, Bool.or_eq_true, ← or_assoc]
        exact ho
      rw [ends_of_ok hm]
      rw [hm] at hwhole
      exact (ih (hstep.of_ok hm) hwhole.2).mono (fun _ _ hw => hw.mono (hreached _ _) (hreached _ _))
        (fun _ _ hw => hw.mono (hreached _ _))

end

/-! ### Submissions -/

/-- The directory of a user holds the objects that the user's rows name and nothing else, each with the content of its
row. -/
def ObjectsExact (w : World) (user : String) : Prop :=
  (∀ path, (∃ data, w.fs.disk.file ⟨.objects user, path⟩ = some data) ↔
      ∃ e ∈ w.catalog.entries, e.userId = user ∧ path = [uuidText e.objectId]) ∧
    ∀ e ∈ w.catalog.entries, e.userId = user →
      ∃ data, w.fs.disk.file (objectLoc user e.objectId) = some data ∧ contentHash data = e.contentHash

/-- What every call keeps: exactness, and that no object has an identifier that is still to be drawn. -/
structure Kempt (w : World) : Prop where
  exact : Blobs.Exact Node.Suits w.catalog.holdings w.fs.disk.objects
  free : ∀ v n, w.fs.uuids ≤ n → w.fs.disk.objects (objectLoc v n) = none

/-- The store when the steps of a submission begin. -/
def begun (user writer : String) (operationCount : Nat) (w : World) : World :=
  finalState (do
    let _ ← recordSubmission user writer operationCount
    onDisk (modify fun s => { s with undoStack := [], cleanupStack := [] })) w

/-- No call faults while a new object is written, a submission that returns has deleted no document, and one that raises
has given none of the documents it found another object. -/
def Sparing (user writer : String) (w : World) (operations : List Operation) : Prop :=
  ∀ ordered, checked w.catalog user writer operations = .ok ordered →
    reached (torn user writer) user writer (groupSteps ordered) (begun user writer operations.length w) = false ∧
    if returns ((groupSteps ordered).forM (runStep user writer)) (begun user writer operations.length w) then
      reached (erases user writer) user writer (groupSteps ordered) (begun user writer operations.length w) = false
    else
      reached (supersedes w.catalog user writer) user writer (groupSteps ordered)
        (begun user writer operations.length w) = false

section

variable {user writer : String} {w w' : World}

private theorem file_objects (d : Disk) {user : String} {path : TreePath} {data : ByteArray} :
    d.file ⟨.objects user, path⟩ = some data ↔ path ≠ [] ∧ d.objects ⟨.objects user, path⟩ = some (.file data) := by
  rw [Disk.file_eq_some_iff]
  constructor
  · intro h
    have hne : path ≠ [] := by
      rintro rfl
      cases h
    exact ⟨hne, (d.node_of_ne_nil hne).symm.trans h⟩
  · rintro ⟨hne, h⟩
    exact (d.node_of_ne_nil hne).trans h

private theorem Kempt.file_of_row (h : Kempt w) {e : Entry} (he : e ∈ w.catalog.entries) :
    ∃ data, w.fs.disk.file (objectLoc e.userId e.objectId) = some data ∧ contentHash data = e.contentHash := by
  obtain ⟨node, hnode, hsuits⟩ := h.exact.stored e.holding ⟨e, he, rfl⟩
  cases node with
  | dir => exact hsuits.elim
  | file data => exact ⟨data, (file_objects _).2 ⟨by simp, hnode⟩, hsuits⟩

private theorem Kempt.objectsExact (h : Kempt w) (user : String) : ObjectsExact w user := by
  refine ⟨fun path => ⟨fun ⟨data, hdata⟩ => ?_, fun ⟨e, he, hu, hp⟩ => ?_⟩, fun e he hu => ?_⟩
  · obtain ⟨hne, hobj⟩ := (file_objects _).1 hdata
    obtain ⟨r, ⟨e, he, rfl⟩, hr⟩ := h.exact.named ⟨.objects user, path⟩ (by simp [hobj])
    have hr : objectLoc e.userId e.objectId = ⟨.objects user, path⟩ := hr
    unfold objectLoc at hr
    simp only [Loc.mk.injEq, Area.objects.injEq] at hr
    exact ⟨e, he, hr.1, hr.2.symm⟩
  · obtain ⟨data, hdata, -⟩ := h.file_of_row he
    rw [hu] at hdata
    rw [hp]
    exact ⟨data, hdata⟩
  · obtain ⟨data, hdata, hhash⟩ := h.file_of_row he
    rw [hu] at hdata
    exact ⟨data, hdata, hhash⟩

private theorem Kempt.of_eq (h : Kempt w) (hc : w'.catalog.holdings = w.catalog.holdings)
    (hd : w'.fs.disk.objects = w.fs.disk.objects) (hu : w.fs.uuids ≤ w'.fs.uuids) : Kempt w' := by
  refine ⟨?_, fun v n hn => ?_⟩
  · rw [hc, hd]
    exact h.exact
  · rw [hd]
    exact h.free v n (hu.trans hn)

/-- A submission begins with an empty journal. -/
private theorem Kempt.booked (h : Kempt w) (hundo : w.fs.undoStack = []) (hcleanup : w.fs.cleanupStack = []) :
    Booked w False False w := by
  have hmade : w.fs.made = ∅ := by
    unfold Fs.made
    rw [hundo]
    simp
  have hdropped : w.fs.dropped = ∅ := by
    unfold Fs.dropped
    rw [hcleanup]
    simp
  refine ⟨?_, h.free, fun l hdir => ?_, fun l hl => ?_, ⟨fun u hu => ?_, fun c hc => ?_⟩⟩
  · unfold Fs.journal
    rw [hmade, hdropped]
    exact h.exact.ledger
  · obtain ⟨r, hr, rfl⟩ := h.exact.named l (by simp [hdir])
    obtain ⟨node, hnode, hsuits⟩ := h.exact.stored r hr
    rw [hdir] at hnode
    cases hnode
    exact hsuits
  · rw [hmade, hdropped] at hl
    exact (hl.elim id id).elim
  · rw [hundo] at hu
    cases hu
  · rw [hcleanup] at hc
    cases hc

/-- A submission that returns. -/
private theorem Booked.settle {w0 : World} {erased replaced : Prop} {s : Fs} (h : Booked w0 erased replaced w)
    (hn : ¬erased) (hs : w.fs.Loses w.fs.dropped s) : Kempt { w with fs := s } :=
  ⟨h.ledger.settle hn hs.objects, (h.sound.loses hs).free⟩

/-- A submission that raises. -/
private theorem abandonSubmission_kempt {w0 : World} {replaced : Prop} (h0 : Kempt w0) (h : Broken w0 replaced w.fs)
    (hn : ¬replaced) (hc : w.catalog.holdings = w0.catalog.holdings) (submissionId : Nat) (e : StoreError) :
    Ends (abandonSubmission submissionId e) (fun _ _ => False) (fun _ w' => Kempt w') w := by
  unfold abandonSubmission
  rw [ends_bind, ends_onDisk]
  refine (rollbackFilesystem_loses h.sound).mono (fun failed s1 hs1 => ?_) (fun _ _ hf => hf.elim)
  have hsound := h.sound.loses hs1.1
  rw [ends_bind, ends_now, ends_bind, ends_transaction, ends_execute]
  refine ⟨fun c hc1 => ?_, fun _ he => by cases he⟩
  cases hc1
  rw [ends_bind, ends_onDisk]
  refine (cleanupFilesystem_loses hsound).mono (fun _ s2 hs2 => ?_) (fun _ _ hf => hf.elim)
  rw [ends_throw]
  have hdropped := hs2.objects
  rw [hs1.1.dropped] at hdropped
  refine ⟨?_, (hsound.loses hs2).free⟩
  show Blobs.Exact Node.Suits w.catalog.holdings s2.disk.objects
  rw [hc, h.pending.abandon hn hs1.1.objects hdropped]
  exact h0.exact

/-- The store when the steps begin is the one in which the submission is recorded. -/
private theorem begun_eq {n : Nat} {c : Catalog} (h : w.catalog.insertSubmission
      ⟨w.fs.uuids, user, writer, .queued, n, none, w.clock w.ticks, w.clock w.ticks⟩ = .ok c) :
    begun user writer n w = recorded user writer n w := by
  refine Ends.finalState (P := fun v => v = recorded user writer n w) ?_
  rw [ends_bind]
  unfold recordSubmission
  rw [ends_bind, ends_onDisk, ends_uuid4, ends_bind, ends_now, ends_bind, ends_transaction, ends_execute]
  refine ⟨fun c' hc' => ?_, fun e he => ?_⟩
  · obtain rfl := Catalog.insertSubmission_ok hc'
    rfl
  · cases h.symm.trans he

private theorem submit_kempt {operations : List Operation} (h : Kempt w) (hs : Sparing user writer w operations) :
    Ends (submit user writer operations) (fun _ w' => Kempt w') (fun _ w' => Kempt w') w := by
  unfold submit
  rw [ends_bind]
  unfold recordSubmission
  rw [ends_bind, ends_onDisk, ends_uuid4, ends_bind, ends_now, ends_bind, ends_transaction, ends_execute]
  refine ⟨fun c hc => ?_, fun e he => h.of_eq rfl rfl (Nat.le_succ _)⟩
  have hbegun : begun user writer operations.length w = recorded user writer operations.length w := begun_eq hc
  obtain rfl := Catalog.insertSubmission_ok hc
  rw [ends_pure, ends_bind, ends_onDisk, ends_modify, ends_bind, ends_tryCatch]
  show Ends _ _ _ (recorded user writer operations.length w)
  generalize hw1 : recorded user writer operations.length w = w1 at hbegun ⊢
  have hk1 : Kempt w1 := by
    rw [← hw1]
    exact h.of_eq (Catalog.holdings_congr rfl) rfl (Nat.le_succ _)
  have hcheck : checked w1.catalog user writer operations = checked w.catalog user writer operations := by
    rw [← hw1]
    rfl
  have hsup : supersedes w1.catalog user writer = supersedes w.catalog user writer := by
    rw [← hw1]
    rfl
  have hundone : w1.fs.undoStack = [] ∧ w1.fs.cleanupStack = [] := by
    rw [← hw1]
    exact ⟨rfl, rfl⟩
  have hbooked : Booked w1 False False w1 := hk1.booked hundone.1 hundone.2
  have refused : ∀ e, Ends (abandonSubmission w.fs.uuids e) (fun _ _ => False) (fun _ w' => Kempt w') w1 := fun e =>
    abandonSubmission_kempt hk1 hbooked.broken id rfl _ e
  refine ends_applySubmission (fun e _ => (refused e).mono (fun _ _ hf => hf.elim) (fun _ _ h => h))
    fun ordered hok => ?_
  obtain ⟨hwhole, hspare⟩ := hs ordered (hcheck ▸ hok)
  rw [hbegun] at hwhole hspare
  have hsteps := steps_booked user writer (groupSteps ordered) hbooked hwhole
  rw [hsup] at hsteps
  rw [ends_bind]
  cases hm : (groupSteps ordered).forM (runStep user writer) w1 with
  | error e w2 =>
    rw [if_neg (by rw [returns_of_error hm]; simp)] at hspare
    have hnot : ¬(False ∨ reached (supersedes w.catalog user writer) user writer (groupSteps ordered) w1 = true) := by
      rw [hspare]
      simp
    rw [ends_of_error hm]
    have hbroken := hsteps.of_error hm
    exact (abandonSubmission_kempt (w := { w2 with catalog := w1.catalog }) hk1 hbroken hnot rfl w.fs.uuids e).mono
      (fun _ _ hf => hf.elim) (fun _ _ h => h)
  | ok a w2 =>
    have hbooked2 := hsteps.of_ok hm
    rw [if_pos (returns_of_ok hm)] at hspare
    have hnot : ¬(False ∨ reached (erases user writer) user writer (groupSteps ordered) w1 = true) := by
      rw [hspare]
      simp
    rw [ends_of_ok hm, ends_bind, ends_now, ends_execute]
    refine ⟨fun c hc => ?_, fun e he => by cases he⟩
    cases hc
    rw [ends_bind, ends_onDisk]
    refine (cleanupFilesystem_loses hbooked2.sound).mono (fun _ s4 hs4 => ?_) (fun _ _ hf => hf.elim)
    have hend : Kempt { marked w.fs.uuids w2 with fs := s4 } :=
      (hbooked2.settle hnot hs4).of_eq (Catalog.holdings_congr rfl) rfl le_rfl
    unfold submission
    rw [ends_bind, ends_catalog]
    split
    · exact hend
    · exact hend

end

/-! ### Runs -/

def Call.Sparing (w : World) : Call → Prop
  | .register _ _ _ => True
  | .submit user writer operations fault =>
    Ctxd.Sparing user writer { w with fs := { w.fs with fault := fault } } operations

/-- Every submission of the run is sparing in the state it meets. -/
def SparingRun : World → List Call → Prop
  | _, [] => True
  | w, call :: rest => call.Sparing w ∧ SparingRun (call.run w) rest

instance (user writer : String) (w : World) (operations : List Operation) :
    Decidable (Sparing user writer w operations) := by
  unfold Sparing
  exact @decidableOfOk _ _ _ _ fun _ => inferInstance

instance (w : World) (call : Call) : Decidable (call.Sparing w) :=
  match call with
  | .register _ _ _ => isTrue trivial
  | .submit user writer operations fault =>
    inferInstanceAs (Decidable (Sparing user writer { w with fs := { w.fs with fault := fault } } operations))

def decideSparingRun : (w : World) → (calls : List Call) → Decidable (SparingRun w calls)
  | _, [] => isTrue trivial
  | w, call :: rest => @instDecidableAnd _ _ inferInstance (decideSparingRun (call.run w) rest)

instance (w : World) (calls : List Call) : Decidable (SparingRun w calls) := decideSparingRun w calls

section

variable {w : World}

private theorem Call.run_kempt {call : Call} (h : Kempt w) (hs : call.Sparing w) : Kempt (call.run w) := by
  cases call with
  | register user writer pre =>
    have hreg : (finalState (registerPrefix user writer pre) w).catalog.entries = w.catalog.entries ∧
        (finalState (registerPrefix user writer pre) w).fs = w.fs := Ends.finalState registerPrefix_entries
    refine h.of_eq (Catalog.holdings_congr hreg.1) ?_ ?_
    · rw [Call.run, hreg.2]
    · rw [Call.run, hreg.2]
  | submit user writer operations fault =>
    exact Ends.finalState (submit_kempt (w := { w with fs := { w.fs with fault := fault } })
      (h.of_eq rfl rfl le_rfl) hs)

private theorem runCalls_kempt {calls : List Call} (h : Kempt w) (hs : SparingRun w calls) :
    Kempt (runCalls calls w) := by
  induction calls generalizing w with
  | nil => exact h
  | cons call calls ih => exact ih (Call.run_kempt h hs.1) hs.2

private theorem SparingRun.left {pre post : List Call} (h : SparingRun w (pre ++ post)) : SparingRun w pre := by
  induction pre generalizing w with
  | nil => trivial
  | cons call pre ih => exact ⟨h.1, ih h.2⟩

private theorem emptyStore_kempt (clock : Nat → Int) (pathMax : Nat) : Kempt (emptyStore clock pathMax) := by
  have hrows : (emptyStore clock pathMax).catalog.holdings = ∅ := by
    ext r
    simp [Catalog.holdings, emptyStore]
  have hobjects : ∀ l, (emptyStore clock pathMax).fs.disk.objects l = none := by
    intro l
    unfold Disk.objects
    split <;> rfl
  refine ⟨?_, fun v n _ => hobjects _⟩
  rw [hrows]
  exact ⟨fun r hr => hr.elim, fun r hr => hr.elim, fun r hr => hr.elim, fun o ho => absurd (hobjects o) ho⟩

end

/-! ### The three defects -/

def supersedingCalls : List Call :=
  [.register "user" "writer" "d", .submit "user" "writer" [putText "1" "d/a" "x", putText "2" "d/b" "y"] none,
    .submit "user" "writer" [moveText "2" "d/c" "y", putText "1" "d/a" "z"] none,
    .submit "user" "writer" [putText "2" "d/b" "y\x00"] none]

def deletingCalls : List Call :=
  [.register "user" "writer" "d", .submit "user" "writer" [putText "1" "d/a" "x"] none,
    .submit "user" "writer" [.delete ⟨"1", "2"⟩] none]

def revertingCalls : List Call :=
  [.register "user" "writer" "d", .submit "user" "writer" [putText "1" "d/a" "x"] none,
    .submit "user" "writer" [putText "1" "d/a" "y", putText "2" "d/b" "\x00"] none]

def tearingCalls : List Call :=
    [.register "user" "writer" "d", .submit "user" "writer" [putText "1" "d/a" "x"] (some 1)]

/-- An object file that no row names. -/
private theorem not_objectsExact_of_stray {w : World} {user : String} {objectId : Nat}
    (hfile : (w.fs.disk.file (objectLoc user objectId)).isSome) (hrows : w.catalog.entries.length = 0) :
    ¬ObjectsExact w user := by
  rintro ⟨hfiles, -⟩
  obtain ⟨e, he, -⟩ := (hfiles _).1 (Option.isSome_iff_exists.1 hfile)
  rw [List.length_eq_zero_iff.1 hrows] at he
  cases he

end Ctxd

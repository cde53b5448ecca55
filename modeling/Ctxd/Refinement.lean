import Ctxd.Containment
import Ctxd.Documents
import Ctxd.NameListings

/-!
# A store holds the documents of its users

In a faithful run, and as long as no two of its texts have one hash, the calls that a store has answered are a history
of `documents`: the submissions that have returned have had their effect, those that have raised have had none, and
every read has been answered with the text that the documents have at its path (`store_refines`).
-/

namespace Ctxd

open Program

/-! ### What the operations make of one document -/

section

variable {user writer key : String} {D : Docs}

private theorem source_inj {key' : String} (h : ((user, writer, key) : SourceId) = (user, writer, key')) : key' = key :=
  (congrArg (fun i : SourceId => i.2.2) h).symm

private theorem deletes_apply (ops : List DeleteOperation) (D : Docs) :
    ops.foldl (deleteDoc user writer) D (user, writer, key) =
      if ∃ op ∈ ops, op.sourceKey = key then none else D (user, writer, key) := by
  induction ops generalizing D with
  | nil => simp
  | cons op ops ih =>
    rw [List.foldl_cons, ih, deleteDoc, Function.update_apply]
    by_cases hkey : op.sourceKey = key
    · simp [hkey]
    · rw [if_neg (c := (user, writer, key) = (user, writer, op.sourceKey)) fun h => hkey (source_inj h)]
      simp [hkey]

private theorem moves_apply {ops : List MoveOperation} (hdistinct : (ops.map (·.sourceKey)).Nodup) (D : Docs) :
    ops.foldl (moveDoc user writer) D (user, writer, key) =
      match ops.find? fun op => op.sourceKey = key with
      | some op => (D (user, writer, key)).map fun x => (op.path, x.2)
      | none => D (user, writer, key) := by
  induction ops generalizing D with
  | nil => rfl
  | cons op ops ih =>
    obtain ⟨hnew, hrest⟩ := List.nodup_cons.1 hdistinct
    rw [List.foldl_cons, ih hrest]
    by_cases hkey : op.sourceKey = key
    -- no later move has this key
    · have hfirst : (op :: ops).find? (fun op => op.sourceKey = key) = some op := by simp [hkey]
      have hnone : ops.find? (fun op => op.sourceKey = key) = none := by
        rw [List.find?_eq_none]
        intro op' hop' hkey'
        refine hnew ?_
        show op.sourceKey ∈ _
        rw [hkey, ← of_decide_eq_true hkey']
        exact List.mem_map_of_mem hop'
      rw [hfirst, hnone, moveDoc, hkey]
      exact Function.update_self ..
    · have hfirst : (op :: ops).find? (fun op => op.sourceKey = key) = ops.find? fun op => op.sourceKey = key := by
        simp [hkey]
      have hsame : moveDoc user writer D op (user, writer, key) = D (user, writer, key) := by
        rw [moveDoc, Function.update_of_ne fun h => hkey (source_inj h)]
      rw [hfirst, hsame]

/-- Where moves are distinct, their order does not matter. -/
private theorem find?_moves_perm {ops ops' : List MoveOperation} (h : ops.Perm ops')
    (hdistinct : (ops.map (·.sourceKey)).Nodup) :
    (ops.find? fun op => op.sourceKey = key) = ops'.find? fun op => op.sourceKey = key := by
  cases hfound : ops.find? fun op => op.sourceKey = key with
  | none =>
    refine (List.find?_eq_none.2 fun op hop => ?_).symm
    exact List.find?_eq_none.1 hfound op (h.mem_iff.2 hop)
  | some op =>
    have hkey : op.sourceKey = key := of_decide_eq_true (List.find?_some hfound :)
    cases hfound' : ops'.find? fun op => op.sourceKey = key with
    | none =>
      have hne := List.find?_eq_none.1 hfound' op (h.mem_iff.1 (List.mem_of_find?_eq_some hfound))
      simp [hkey] at hne
    | some op' =>
      have hkey' : op'.sourceKey = key := of_decide_eq_true (List.find?_some hfound' :)
      have hsame := List.inj_on_of_nodup_map hdistinct (List.mem_of_find?_eq_some hfound)
        (h.mem_iff.2 (List.mem_of_find?_eq_some hfound')) (hkey.trans hkey'.symm)
      rw [hsame]

/-- The documents hold texts of the run. -/
def Holding (texts : Set String) (x : Option (String × Option ByteArray)) : Prop :=
  ∀ p y, x = some (p, y) → ∃ text ∈ texts, y = some text.toUTF8

variable {texts : Set String}

private theorem putData_of_apart (hapart : Set.InjOn (fun text : String => contentHash text.toUTF8) texts)
    {x : Option (String × Option ByteArray)} (hx : Holding texts x) {text : String} (htext : text ∈ texts) :
    putData x text.toUTF8 = text.toUTF8 := by
  unfold putData
  split
  · rename_i p y
    obtain ⟨old, hold, hy⟩ := hx p _ rfl
    obtain rfl := Option.some.inj hy
    split
    · rename_i hhash
      rw [hapart hold htext hhash]
    · rfl
  · rfl

private theorem puts_apply (hapart : Set.InjOn (fun text : String => contentHash text.toUTF8) texts)
    {ops : List PutOperation}
    (hops : ∀ op ∈ ops, lineFeedText op.text ∈ texts) (hD : Holding texts (D (user, writer, key))) :
    ops.foldl (putDoc user writer) D (user, writer, key) =
      match lastPut ops key with
      | some op => some (op.path, some (lineFeedText op.text).toUTF8)
      | none => D (user, writer, key) := by
  -- from the back, since the last put of a key counts
  induction ops using List.reverseRecOn with
  | nil => rfl
  | append_singleton ops op ih =>
    have ih := ih fun op hop => hops op (List.mem_append_left _ hop)
    have hlast : lastPut (ops ++ [op]) key = if op.sourceKey = key then some op else lastPut ops key := by
      unfold lastPut
      rw [List.reverse_append, List.reverse_singleton, List.singleton_append, List.find?_cons]
      by_cases hkey : op.sourceKey = key
      · simp [hkey]
      · simp [hkey]
    rw [List.foldl_append, List.foldl_cons, List.foldl_nil, hlast, putDoc]
    by_cases hkey : op.sourceKey = key
    · rw [if_pos hkey, hkey, Function.update_self]
      have hholding : Holding texts (ops.foldl (putDoc user writer) D (user, writer, key)) := by
        rw [ih]
        split
        · rename_i op' hop'
          intro p y hxy
          have hmem : op' ∈ ops := by
            unfold lastPut at hop'
            exact List.mem_reverse.1 (List.mem_of_find?_eq_some hop')
          refine ⟨_, hops op' (List.mem_append_left _ hmem), ?_⟩
          exact (congrArg Prod.snd (Option.some.inj hxy)).symm
        · exact hD
      rw [putData_of_apart hapart hholding (hops op (by simp))]
    · rw [if_neg hkey, Function.update_of_ne fun h => hkey (source_inj h), ih]

/-- Documents of other sources stay as they are. -/
private theorem effect_of_ne {ordered : List Operation} {i : SourceId} (h : ¬(i.1 = user ∧ i.2.1 = writer)) (D : Docs) :
    effect user writer ordered D i = D i := by
  have hne : ∀ key : String, i ≠ (user, writer, key) := by
    rintro key rfl
    exact h ⟨rfl, rfl⟩
  have hfold : ∀ {α : Type} (f : Docs → α → Docs), (∀ D a, f D a i = D i) → ∀ (as : List α) (D : Docs),
      as.foldl f D i = D i := by
    intro α f hf as
    induction as with
    | nil => exact fun D => rfl
    | cons a as ih => exact fun D => (ih _).trans (hf D a)
  unfold effect
  rw [hfold, hfold, hfold]
  · exact fun D op => Function.update_of_ne (hne _) ..
  · exact fun D op => Function.update_of_ne (hne _) ..
  · exact fun D op => Function.update_of_ne (hne _) ..

end

/-! ### The documents of a store -/

/-- A document of a store, by its place in the tree. -/
def shown (x : String × Option ByteArray) : List String × Option ByteArray := (posixParts x.1, x.2)

/-- A text as it is stored. -/
def stored (y : List String × String) : List String × Option ByteArray := (y.1, some y.2.toUTF8)

/-- The documents of a consistent store, all of them texts of the run. -/
structure Holds (texts : Set String) (w : World) (D : Documents) : Prop where
  consistent : Consistent w
  docs : ∀ user writer key, (docs w.catalog w.fs.disk (fun _ => none) (user, writer, key)).map shown =
    ((D user).item writer key).map stored
  ground : ∀ user writer g, g ∈ (D user).ground writer ↔
    ∃ r ∈ w.catalog.writerPrefixes, r.userId = user ∧ r.writerId = writer ∧ posixParts r.prefixPath = g
  normal : ∀ r ∈ w.catalog.writerPrefixes, Normalized r.prefixPath
  known : ∀ user writer key p text, (D user).item writer key = some (p, text) → text ∈ texts

section

variable {texts : Set String} {w w' : World} {D : Documents} {user writer : String}

private theorem Holds.empty (texts : Set String) (clock : Nat → Int) (pathMax : Nat) :
    Holds texts (emptyStore clock pathMax) .none where
  consistent := emptyStore_consistent clock pathMax
  docs _ _ _ := rfl
  ground _ _ _ := by
    constructor
    · exact fun h => h.elim
    · exact fun ⟨_, hr, _⟩ => nomatch hr
  normal _ hr := nomatch hr
  known _ _ _ _ _ h := nomatch h

/-- Where nothing is changed but the rows of submissions and decisions. -/
private theorem Holds.of_same (h : Holds texts w D) (hcons : Consistent w')
    (hentries : w'.catalog.entries = w.catalog.entries) (hrows : w'.catalog.writerPrefixes = w.catalog.writerPrefixes)
    (hfiles : ∀ v p, w'.fs.disk.file ⟨.users v, p⟩ = w.fs.disk.file ⟨.users v, p⟩) : Holds texts w' D := by
  refine ⟨hcons, fun user writer key => ?_, ?_, ?_, h.known⟩
  · rw [← h.docs, docs_of_entries hentries]
    unfold Ctxd.docs
    congr 2
    funext e
    exact congrArg (e.path, ·) (hfiles _ _)
  · rw [hrows]
    exact h.ground
  · rw [hrows]
    exact h.normal

theorem Holds.withFault (h : Holds texts w D) (fault : Option Nat) : Holds texts (w.withFault fault) D :=
  h.of_same (h.consistent.of_entries rfl rfl rfl) rfl rfl fun _ _ => rfl

private theorem entry_of_shown {c : Catalog} {disk : Disk} {i : SourceId} {p : List String} {text : String}
    (h : (docs c disk (fun _ => none) i).map shown = some (stored (p, text))) :
    ∃ e ∈ c.entries, e.source = i ∧ posixParts e.path = p ∧
      disk.file (treeLoc e.userId e.path) = some text.toUTF8 := by
  obtain ⟨x, hx, hshown⟩ := Option.map_eq_some_iff.1 h
  obtain ⟨e, he, rfl⟩ := Option.map_eq_some_iff.1 hx
  obtain ⟨hmem, hsource⟩ := Catalog.mem_of_row he
  exact ⟨e, hmem, hsource, congrArg Prod.fst hshown, congrArg Prod.snd hshown⟩

/-- The row of a document, and its file. -/
private theorem Holds.row (h : Holds texts w D) {key text : String} {p : List String}
    (hitem : (D user).item writer key = some (p, text)) :
    ∃ e ∈ w.catalog.entries, e.source = (user, writer, key) ∧ posixParts e.path = p ∧
      w.fs.disk.file (treeLoc e.userId e.path) = some text.toUTF8 := by
  have hdoc := h.docs user writer key
  rw [hitem] at hdoc
  exact entry_of_shown hdoc

/-- The document of a row. -/
private theorem Holds.item (h : Holds texts w D) {e : Entry} (he : e ∈ w.catalog.entries) :
    ∃ text, (D e.userId).item e.writerId e.sourceKey = some (posixParts e.path, text) ∧
      w.fs.disk.file (treeLoc e.userId e.path) = some text.toUTF8 ∧ contentHash text.toUTF8 = e.contentHash := by
  have hdoc := h.docs e.userId e.writerId e.sourceKey
  have hrow : w.catalog.row (e.userId, e.writerId, e.sourceKey) = some e :=
    h.consistent.distinct.row_eq_some_iff.2 ⟨he, rfl⟩
  unfold Ctxd.docs at hdoc
  rw [hrow] at hdoc
  obtain ⟨⟨p, text⟩, hitem, hstored⟩ := Option.map_eq_some_iff.1 hdoc.symm
  have hp : p = posixParts e.path := congrArg Prod.fst hstored
  have hfile : some text.toUTF8 = w.fs.disk.file (treeLoc e.userId e.path) := congrArg Prod.snd hstored
  obtain ⟨data, hnode, hhash⟩ := h.consistent.agrees.files e he
  refine ⟨text, hp ▸ hitem, hfile.symm, ?_⟩
  rw [Disk.file_eq_some_iff.2 hnode] at hfile
  rw [Option.some.inj hfile]
  exact hhash

/-! ### Registrations -/

/-- A path that is authorised for a writer lies below one of its prefixes. -/
private theorem registered_of_authorized {c : Catalog} {path : String}
    (hrows : ∀ r ∈ c.writerPrefixes, Normalized r.prefixPath)
    (hpath : Normalized path) (h : c.requireAuthorizedPath user writer path = .ok ()) :
    ∃ r ∈ c.writerPrefixes, r.userId = user ∧ r.writerId = writer ∧ posixParts r.prefixPath <+: posixParts path := by
  unfold Catalog.requireAuthorizedPath at h
  obtain ⟨found, hfound, h⟩ := bind_eq_ok.1 h
  cases found with
  | false => cases h
  | true =>
    obtain ⟨g, hg, hwithin⟩ := Server.withinAny_ok hfound
    obtain ⟨r, hr, rfl⟩ := List.mem_map.1 hg
    obtain ⟨hmem, hown⟩ := List.mem_filter.1 hr
    simp only [Bool.and_eq_true, decide_eq_true_eq] at hown
    rw [pathIsWithinPrefix_eq hpath (hrows r hmem)] at hwithin
    exact ⟨r, hmem, hown.1, hown.2, of_decide_eq_true (Except.ok.inj hwithin)⟩

/-- The prefixes of a writer after a registration. -/
private theorem mem_ground_insert {row : WriterPrefix} {rows : List WriterPrefix} {u o : String} {g : List String} :
    (∃ r ∈ insertPrefixRow row rows, r.userId = u ∧ r.writerId = o ∧ posixParts r.prefixPath = g) ↔
      (∃ r ∈ rows, r.userId = u ∧ r.writerId = o ∧ posixParts r.prefixPath = g) ∨
        row.userId = u ∧ row.writerId = o ∧ posixParts row.prefixPath = g := by
  constructor
  · rintro ⟨r, hr, hrow⟩
    rcases mem_insertPrefixRow hr with hr | rfl
    · exact .inl ⟨r, hr, hrow⟩
    · exact .inr hrow
  · rintro (⟨r, hr, hrow⟩ | hrow)
    · exact ⟨r, mem_insertPrefixRow_of_mem hr, hrow⟩
    · unfold insertPrefixRow
      split
      · rename_i hany
        obtain ⟨r, hr, hsame⟩ := List.any_eq_true.1 hany
        simp only [Bool.and_eq_true, decide_eq_true_eq] at hsame
        refine ⟨r, hr, ?_⟩
        rw [hsame.1.1, hsame.1.2, hsame.2]
        exact hrow
      · exact ⟨row, by simp, hrow⟩

private theorem Holds.registered (h : Holds texts w D) (user writer pre : String) :
    Ends (registerPrefix user writer pre)
      (fun _ w' => ∃ D', D.step (.registered user writer pre) D' ∧ Holds texts w' D')
      (fun _ w' => Holds texts w' D) w := by
  refine ((registerPrefix_spec user writer pre w).and registerPrefix_entries).mono
    (fun _ w' hw' => ?_) (fun _ w' hw' => ?_)
  · obtain ⟨⟨hpre, hcheck, hrows⟩, hentries, hfs⟩ := hw'
    have hfree : ∀ o' g', g' ∈ (D user).ground o' → Meet (posixParts pre) g' → o' = writer := by
      intro o' g' hg' hmeet
      obtain ⟨r, hr, hu, rfl, rfl⟩ := (h.ground _ _ _).1 hg'
      by_contra hne
      have hother : r ∈ otherPrefixes user writer w.catalog.writerPrefixes :=
        List.mem_filter.2 ⟨hr, by simp [hu, hne]⟩
      refine rejectOverlaps_ok hpre (fun r hr => h.normal r (List.mem_filter.1 hr).1) hcheck r hother ?_
      exact hmeet
    refine ⟨_, ⟨hpre, hfree, rfl⟩, h.consistent.of_entries hentries (by rw [hfs]) (by rw [hfs]), fun u o key => ?_,
      fun u o g => ?_, fun r hr => ?_, fun u o key p text hitem => ?_⟩
    · rw [docs_of_entries hentries, hfs, h.docs, Function.update_apply]
      split
      · rename_i hu
        rw [hu]
        rfl
      · rfl
    · rw [hrows, mem_ground_insert, ← h.ground, Function.update_apply]
      by_cases hu : u = user
      · rw [if_pos hu, hu]
        by_cases ho : o = writer
        · rw [ho, Holdings.claim_ground_self, Set.mem_insert_iff, or_comm]
          simp [eq_comm]
        · rw [Holdings.claim_ground_of_ne ho]
          simp [Ne.symm ho]
      · rw [if_neg hu]
        simp [Ne.symm hu]
    · rw [hrows] at hr
      rcases mem_insertPrefixRow hr with hr | rfl
      · exact h.normal r hr
      · exact hpre
    · rw [Function.update_apply] at hitem
      split at hitem
      · rename_i hu
        exact h.known user o key p text hitem
      · exact h.known u o key p text hitem
  · obtain ⟨⟨-, hrows⟩, hentries, hfs⟩ := hw'
    exact h.of_same (h.consistent.of_entries hentries (by rw [hfs]) (by rw [hfs])) hentries hrows
      fun _ _ => by rw [hfs]

/-! ### Submissions -/

private theorem mem_putsOf {operations : List Operation} {op : PutOperation} :
    op ∈ Catalog.putsOf operations ↔ .put op ∈ operations := by
  unfold Catalog.putsOf
  rw [List.mem_filterMap]
  constructor
  · rintro ⟨o, ho, hop⟩
    cases o <;> cases hop
    exact ho
  · exact fun h => ⟨_, h, rfl⟩

private theorem mem_movesOf {operations : List Operation} {op : MoveOperation} :
    op ∈ Catalog.movesOf operations ↔ .move op ∈ operations := by
  unfold Catalog.movesOf
  rw [List.mem_filterMap]
  constructor
  · rintro ⟨o, ho, hop⟩
    cases o <;> cases hop
    exact ho
  · exact fun h => ⟨_, h, rfl⟩

/-- A document is below a prefix that is registered for its writer. -/
def registeredPlacement (rows : List WriterPrefix) : Placement where
  entry i path := Normalized path ∧ ∃ r ∈ rows, r.userId = i.1 ∧ r.writerId = i.2.1 ∧
    posixParts r.prefixPath <+: posixParts path
  decision _ _ := True

/-- Before its submission is carried out, every path of an operation lies below a prefix of the writer. -/
private theorem registered_of_checked {c : Catalog} {operations ordered : List Operation}
    (hrows : ∀ r ∈ c.writerPrefixes, Normalized r.prefixPath) (h : checked c user writer operations = .ok ordered) :
    (∀ op ∈ Catalog.putsOf ordered, ∃ r ∈ c.writerPrefixes, r.userId = user ∧ r.writerId = writer ∧
      posixParts r.prefixPath <+: posixParts op.path) ∧
    ∀ op ∈ Catalog.movesOf ordered, Normalized op.path ∧ ∃ r ∈ c.writerPrefixes, r.userId = user ∧ r.writerId = writer ∧
      posixParts r.prefixPath <+: posixParts op.path := by
  have hallows : (registeredPlacement c.writerPrefixes).AllowsChecked user writer operations c.writerPrefixes := by
    refine .of_authorized (fun c' hc' path hpath hauthorized key => ?_) operations
    have hbelow := registered_of_authorized (hc' ▸ hrows) hpath hauthorized
    rw [hc'] at hbelow
    exact ⟨⟨hpath, hbelow⟩, trivial⟩
  have hallowed := hallows c ordered rfl h
  exact ⟨fun op hop => (hallowed _ (mem_putsOf.1 hop)).2, fun op hop => hallowed _ (mem_movesOf.1 hop)⟩

/-- The effect of the operations on a document, whatever their order. -/
private theorem effect_shown {operations ordered : List Operation} {Δ : Docs}
    {items : String → Option (List String × String)}
    {key : String} (hapart : Set.InjOn (fun text : String => contentHash text.toUTF8) texts)
    (htexts : ∀ op ∈ Catalog.putsOf operations, lineFeedText op.text ∈ texts)
    (hdeletes : Catalog.deletesOf ordered = Catalog.deletesOf operations)
    (hmoves : (Catalog.movesOf ordered).Perm (Catalog.movesOf operations))
    (hputs : Catalog.putsOf ordered = Catalog.putsOf operations)
    (hdistinct : ((Catalog.movesOf ordered).map (·.sourceKey)).Nodup)
    (hΔ : (Δ (user, writer, key)).map shown = (items key).map stored)
    (hitems : ∀ p text, items key = some (p, text) → text ∈ texts) :
    (effect user writer ordered Δ (user, writer, key)).map shown = ((changeOf operations).on items key).map stored := by
  have hholding : Holding texts (Δ (user, writer, key)) := by
    intro p y hx
    rw [hx] at hΔ
    obtain ⟨⟨p', text⟩, hitem, hstored⟩ := Option.map_eq_some_iff.1 hΔ.symm
    exact ⟨text, hitems p' text hitem, (congrArg Prod.snd hstored).symm⟩
  have hmoved : (Catalog.movesOf ordered).foldl (moveDoc user writer)
      ((Catalog.deletesOf ordered).foldl (deleteDoc user writer) Δ) (user, writer, key) =
        match (Catalog.movesOf operations).find? fun op => op.sourceKey = key with
        | some op => (if ∃ op ∈ Catalog.deletesOf operations, op.sourceKey = key then none
            else Δ (user, writer, key)).map fun x => (op.path, x.2)
        | none => if ∃ op ∈ Catalog.deletesOf operations, op.sourceKey = key then none else Δ (user, writer, key) := by
    rw [moves_apply hdistinct, find?_moves_perm hmoves hdistinct, deletes_apply, hdeletes]
  unfold effect
  rw [hputs, puts_apply hapart htexts, hmoved]
  · rw [changeOf_on]
    cases lastPut (Catalog.putsOf operations) key with
    | some op => rfl
    | none =>
      dsimp only
      by_cases hdeleted : ∃ op ∈ Catalog.deletesOf operations, op.sourceKey = key
      · rw [if_pos hdeleted, if_pos hdeleted]
        cases (Catalog.movesOf operations).find? fun op => op.sourceKey = key <;> rfl
      · rw [if_neg hdeleted, if_neg hdeleted]
        cases (Catalog.movesOf operations).find? fun op => op.sourceKey = key with
        | none => exact hΔ
        | some op =>
          dsimp only
          cases hx : Δ (user, writer, key) with
          | none =>
            rw [hx] at hΔ
            rw [Option.map_eq_none_iff.1 hΔ.symm]
            rfl
          | some x =>
            rw [hx] at hΔ
            obtain ⟨y, hy, hstored⟩ := Option.map_eq_some_iff.1 hΔ.symm
            rw [hy]
            exact congrArg (fun z => some (posixParts op.path, z)) (congrArg Prod.snd hstored).symm
  · rw [hmoved]
    intro p y hx
    split at hx
    · split at hx
      · cases hx
      · obtain ⟨x, hx, hxy⟩ := Option.map_eq_some_iff.1 hx
        obtain ⟨text, htext, hy⟩ := hholding x.1 x.2 hx
        exact ⟨text, htext, (congrArg Prod.snd hxy).symm.trans hy⟩
    · split at hx
      · cases hx
      · exact hholding p y hx

private theorem mem_foldl_deleteEntry {ops : List DeleteOperation} {c : Catalog} {e : Entry} :
    e ∈ (ops.foldl (fun c op => c.deleteEntry user writer op.sourceKey) c).entries ↔
      e ∈ c.entries ∧ ∀ op ∈ ops, e.source ≠ (user, writer, op.sourceKey) := by
  induction ops generalizing c with
  | nil => simp
  | cons op ops ih =>
    rw [List.foldl_cons, ih, Catalog.mem_deleteEntry]
    simp only [List.mem_cons, forall_eq_or_imp]
    exact and_assoc

/-- The texts of the documents after a submission. -/
private theorem known_of_changeOf {operations : List Operation} {items : String → Option (List String × String)}
    {key : String} (htexts : ∀ op ∈ Catalog.putsOf operations, lineFeedText op.text ∈ texts)
    (hitems : ∀ p text, items key = some (p, text) → text ∈ texts) {p : List String} {text : String}
    (h : (changeOf operations).on items key = some (p, text)) : text ∈ texts := by
  rw [changeOf_on] at h
  split at h
  · rename_i op hop
    cases h
    exact htexts op (List.mem_reverse.1 (List.mem_of_find?_eq_some hop))
  · split at h
    · cases h
    · split at h
      · obtain ⟨x, hx, hxy⟩ := Option.map_eq_some_iff.1 h
        cases hxy
        exact hitems x.1 x.2 hx
      · exact hitems p text h

/-- What the moves of a submission that has returned are about. -/
private theorem Holds.moves (h : Holds texts w D) {ordered : List Operation} {plans : List PlannedMove}
    (hplans : plannedMoves w.catalog user writer ordered = .ok plans) {op : MoveOperation}
    (hop : op ∈ Catalog.movesOf ordered) :
    (∀ op' ∈ Catalog.deletesOf ordered, op'.sourceKey ≠ op.sourceKey) ∧
      ∃ p text, (D user).item writer op.sourceKey = some (p, text) ∧
        contentHash text.toUTF8 = op.expectedContentHash := by
  obtain ⟨hops, hplanned⟩ := planMoves_ok hplans
  rw [← hops] at hop
  obtain ⟨plan, hplan, rfl⟩ := List.mem_map.1 hop
  have hmove := hplanned plan hplan
  obtain ⟨hmem, hkept⟩ := mem_foldl_deleteEntry.1 hmove.mem
  obtain ⟨text, hitem, -, hhash⟩ := h.item hmem
  have hsource := hmove.source
  constructor
  · intro op' hop' hkey
    exact hkept op' hop' (by rw [hsource, hkey])
  · obtain ⟨rfl, hrest⟩ := Prod.mk.inj hsource
    obtain ⟨rfl, hkey⟩ := Prod.mk.inj hrest
    rw [← hkey]
    exact ⟨_, text, hitem, hhash.trans hmove.hash⟩

private theorem wellFormed_of_checked {c : Catalog} {operations ordered : List Operation}
    (hrows : ∀ r ∈ c.writerPrefixes, Normalized r.prefixPath) (hc : checked c user writer operations = .ok ordered)
    (hputs : ∀ op ∈ Catalog.putsOf ordered, normalizeText op.text = .ok (lineFeedText op.text) ∧ Normalized op.path) :
    WellFormed operations := by
  obtain ⟨hdup, hord, -⟩ := checked_ok hc
  obtain ⟨-, -, hperm, hsamePuts, hdistinct⟩ := orderedOperations_ok hdup hord
  refine ⟨fun op hop => ?_, fun op hop => ?_, (hperm.map _).nodup_iff.1 hdistinct⟩
  · obtain ⟨htext, hpath⟩ := hputs op (hsamePuts ▸ hop)
    refine ⟨hpath, fun hnul => ?_⟩
    unfold normalizeText at htext
    rw [if_pos (List.contains_iff_mem.2 hnul)] at htext
    cases htext
  · exact ((registered_of_checked hrows hc).2 op (hperm.mem_iff.2 hop)).1

/-- The documents permit a submission that returns and leaves a consistent store. -/
private theorem Holds.permits (h : Holds texts w D) {operations ordered : List Operation} {plans : List PlannedMove}
    (hc : checked w.catalog user writer operations = .ok ordered)
    (hplans : plannedMoves w.catalog user writer ordered = .ok plans) (hcons : Consistent w')
    (hshown : ∀ key, (Ctxd.docs w'.catalog w'.fs.disk (fun _ => none) (user, writer, key)).map shown =
      ((changeOf operations).on ((D user).item writer) key).map stored) :
    (D user).Permits writer (changeOf operations) := by
  obtain ⟨hdup, hord, -⟩ := checked_ok hc
  obtain ⟨-, hsameDeletes, hperm, hsamePuts, -⟩ := orderedOperations_ok hdup hord
  obtain ⟨hputRows, hmoveRows⟩ := registered_of_checked h.normal hc
  have hground : ∀ path, (∃ r ∈ w.catalog.writerPrefixes, r.userId = user ∧ r.writerId = writer ∧
      posixParts r.prefixPath <+: posixParts path) → ∃ g ∈ (D user).ground writer, g <+: posixParts path := by
    rintro path ⟨r, hr, hu, ho, hp⟩
    exact ⟨_, (h.ground user writer _).2 ⟨r, hr, hu, ho, rfl⟩, hp⟩
  refine ⟨fun key p text hput => ?_, fun key p expected hmove => ?_, fun key key' p text text' hkey hkey' => ?_⟩
  · obtain ⟨op, hop, hx⟩ := Option.map_eq_some_iff.1 hput
    cases hx
    have hmem : op ∈ Catalog.putsOf operations := List.mem_reverse.1 (List.mem_of_find?_eq_some hop)
    exact hground op.path (hputRows op (hsamePuts ▸ hmem))
  · obtain ⟨op, hop, hx⟩ := Option.map_eq_some_iff.1 hmove
    cases hx
    have hmem := hperm.mem_iff.2 (List.mem_of_find?_eq_some hop)
    have hkey : op.sourceKey = key := of_decide_eq_true (List.find?_some hop :)
    obtain ⟨hkept, p', text, hitem, hhash⟩ := h.moves hplans hmem
    refine ⟨hground op.path (hmoveRows op hmem).2, ?_, p', text, hkey ▸ hitem, hhash⟩
    rintro ⟨op', hop', hkey'⟩
    exact hkept op' (hsameDeletes ▸ hop') (hkey'.trans hkey.symm)
  -- two documents at one path have two rows with this path in the catalog that the submission has left
  · have hdoc := hshown key
    have hdoc' := hshown key'
    rw [hkey] at hdoc
    rw [hkey'] at hdoc'
    obtain ⟨e, he, hsource, hp, -⟩ := entry_of_shown hdoc
    obtain ⟨e', he', hsource', hp', -⟩ := entry_of_shown hdoc'
    have hpath : e.path = e'.path := parts_injective (hcons.normal e he) (hcons.normal e' he') (hp.trans hp'.symm)
    have huser : e.userId = e'.userId := (congrArg Prod.fst hsource).trans (congrArg Prod.fst hsource').symm
    rw [hcons.distinct.eq_of_path he he' huser hpath] at hsource
    exact congrArg (fun i : SourceId => i.2.2) (hsource.symm.trans hsource')

/-- A submission that returns is a change that the documents permit; one that raises has had no effect. -/
theorem Holds.submitted (h : Holds texts w D) (hapart : Set.InjOn (fun text : String => contentHash text.toUTF8) texts)
    {operations : List Operation} (hf : Faithful user writer w operations)
    (htexts : ∀ op ∈ Catalog.putsOf operations, lineFeedText op.text ∈ texts) :
    Ends (submit user writer operations)
      (fun _ w' => ∃ D', D.step (.submitted user writer operations) D' ∧ Holds texts w' D')
      (fun _ w' => Holds texts w' D) w := by
  refine (submit_spec h.consistent fun ordered hc => hf.undoable hc).mono (fun _ w' hw' => ?_) (fun _ w' hw' => ?_)
  swap
  · obtain ⟨hrestored, hcons, -⟩ := hw'
    exact h.of_same hcons hrestored.entries hrestored.writerPrefixes hrestored.files
  obtain ⟨ordered, hc, ⟨plans, hplans⟩, hputs, hrows, -, hgood⟩ := hw'
  obtain ⟨hcons, hdocs⟩ := hgood (selfMoved_eq_empty fun plans hp => (hf ordered hc plans hp).1)
  have hshown : ∀ key, (Ctxd.docs w'.catalog w'.fs.disk (fun _ => none) (user, writer, key)).map shown =
      ((changeOf operations).on ((D user).item writer) key).map stored := by
    intro key
    obtain ⟨hdup, hord, -⟩ := checked_ok hc
    obtain ⟨-, hsameDeletes, hperm, hsamePuts, hdistinct⟩ := orderedOperations_ok hdup hord
    rw [hdocs]
    exact effect_shown hapart htexts hsameDeletes hperm hsamePuts hdistinct (h.docs user writer key)
      fun p text => h.known user writer key p text
  have hpermits := h.permits hc hplans hcons hshown
  refine ⟨_, ⟨wellFormed_of_checked h.normal hc hputs, hpermits, rfl⟩, hcons, fun u o key => ?_, fun u o g => ?_, ?_,
    fun u o key p text hitem => ?_⟩
  -- the documents of other writers are untouched
  · by_cases hown : u = user ∧ o = writer
    · obtain ⟨rfl, rfl⟩ := hown
      rw [hshown, Function.update_self, Holdings.change_item_self]
    · rw [hdocs, effect_of_ne (i := (u, o, key)) hown, h.docs, Function.update_apply]
      split
      · rename_i hu
        have ho : o ≠ writer := fun ho => hown ⟨hu, ho⟩
        rw [hu, Holdings.change_item_of_ne ho]
      · rfl
  · rw [hrows, ← h.ground, Function.update_apply]
    split
    · rename_i hu
      rw [hu]
      rfl
    · rfl
  · rw [hrows]
    exact h.normal
  · rw [Function.update_apply] at hitem
    split at hitem
    · rename_i hu
      by_cases ho : o = writer
      · rw [ho, Holdings.change_item_self] at hitem
        exact known_of_changeOf htexts (fun p text => h.known user writer key p text) hitem
      · rw [Holdings.change_item_of_ne ho] at hitem
        exact h.known user o key p text hitem
    · exact h.known u o key p text hitem

/-! ### Reading -/

/-- The row of the data that are read. -/
private theorem entry_of_readData {path : String} {data : ByteArray} (h : readData user path w = .ok data) :
    ∃ entry, requireEntry user path w = .ok entry ∧ entry.path = path ∧ entry.contentHash = contentHash data := by
  obtain ⟨entry, hentry, hfound, -, hhash⟩ := readData_ok h
  have hkey := List.find?_some hfound
  simp only [Bool.and_eq_true, decide_eq_true_eq] at hkey
  exact ⟨entry, hentry, hkey.2, hhash⟩

theorem read_of_readData {path : String} {data : ByteArray} (h : readData user path w = .ok data) {maxBytes : Int}
    (hmax : 0 < maxBytes) :
    read user path maxBytes w = .ok ⟨path, String.ofList (decodeReplace
        (if (data.size : Int) ≤ maxBytes then data.data.toList else truncateUtf8 data.data.toList maxBytes.toNat)),
      contentHash data, decide ((data.size : Int) ≤ maxBytes),
      if (data.size : Int) ≤ maxBytes then none else some "max_bytes"⟩ := by
  obtain ⟨entry, hentry, hpath, hhash⟩ := entry_of_readData h
  unfold read
  rw [if_neg (by omega), hentry]
  simp only [bind, Except.bind, h, decide_eq_true_eq, hpath, hhash]
  rfl

theorem readLines_of_readData {path : String} {data : ByteArray} (h : readData user path w = .ok data)
    {startLine endLine : Int} (hstart : 0 < startLine) (hend : startLine ≤ endLine) :
    readLines user path startLine endLine w = .ok ⟨path, startLine.toNat,
      min endLine.toNat (splitLines (decodeReplace data.data.toList)).length,
      ((splitLines (decodeReplace data.data.toList)).take endLine.toNat).drop (startLine.toNat - 1), contentHash data,
      decide (endLine ≤ (splitLines (decodeReplace data.data.toList)).length),
      if endLine ≤ (splitLines (decodeReplace data.data.toList)).length then none else some "eof"⟩ := by
  obtain ⟨entry, hentry, hpath, hhash⟩ := entry_of_readData h
  unfold readLines
  rw [if_neg (by omega), if_neg (by omega), hentry]
  simp only [bind, Except.bind, h, decide_eq_true_eq, hpath, hhash]
  rfl

theorem read_of_le {path : String} {maxBytes : Int} (h : maxBytes ≤ 0) :
    read user path maxBytes w = .error (.valueError "max_bytes must be positive") := by
  unfold read
  rw [if_pos h]
  rfl

theorem readLines_of_le {path : String} {startLine endLine : Int} (h : startLine ≤ 0) :
    readLines user path startLine endLine w = .error (.valueError "start_line must be positive") := by
  unfold readLines
  rw [if_pos h]
  rfl

theorem readLines_of_lt {path : String} {startLine endLine : Int} (hstart : 0 < startLine) (h : endLine < startLine) :
    readLines user path startLine endLine w =
      .error (.valueError "end_line must be greater than or equal to start_line") := by
  unfold readLines
  rw [if_neg (by omega), if_pos h]
  rfl

/-- What `requireEntry` raises, the reads raise. -/
theorem read_error {path : String} {e : StoreError} (h : requireEntry user path w = .error e) {maxBytes : Int}
    (hmax : 0 < maxBytes) : read user path maxBytes w = .error e := by
  unfold read
  rw [if_neg (by omega), h]
  rfl

theorem readLines_error {path : String} {e : StoreError} (h : requireEntry user path w = .error e)
    {startLine endLine : Int} (hstart : 0 < startLine) (hend : startLine ≤ endLine) :
    readLines user path startLine endLine w = .error e := by
  unfold readLines
  rw [if_neg (by omega), if_neg (by omega), h]
  rfl

theorem requireEntry_invalid {path : String} (h : ¬Normalized path) :
    requireEntry user path w = .error (invalidPath path) := by
  unfold requireEntry
  cases hpath : normalizePath path with
  | ok q => exact absurd (.of_ok hpath) h
  | error e =>
    rw [normalizePath_error hpath]
    rfl

/-- A read meets what the documents have at the path. -/
theorem Holds.found (h : Holds texts w D) (user : String) {path : String} (hpath : Normalized path) :
    (∃ text, D.Found user path (some text) ∧ readData user path w = .ok text.toUTF8) ∨
      D.Found user path none ∧ requireEntry user path w = .error (.fileNotFound path) := by
  cases hfind : w.catalog.entries.find? fun e => e.userId = user && e.path = path with
  | none =>
    right
    constructor
    · intro text
      constructor
      · intro heq
        cases heq
      · rintro ⟨writer, key, hitem⟩
        obtain ⟨e, he, hsource, hp, -⟩ := h.row hitem
        have hsame := parts_injective (h.consistent.normal e he) hpath hp
        have huser : e.userId = user := congrArg Prod.fst hsource
        have hnone := List.find?_eq_none.1 hfind e he
        simp [huser, hsame] at hnone
    · unfold requireEntry
      rw [show normalizePath path = .ok path from hpath]
      simp only [bind, Except.bind, hfind]
      rfl
  | some e =>
    left
    have hkey := List.find?_some hfind
    simp only [Bool.and_eq_true, decide_eq_true_eq] at hkey
    obtain ⟨rfl, rfl⟩ := hkey
    obtain ⟨text, hitem, hfile, hhash⟩ := h.item (List.mem_of_find?_eq_some hfind)
    refine ⟨text, fun text' => ⟨fun heq => ?_, fun hlies => ?_⟩, ?_⟩
    · obtain rfl := Option.some.inj heq
      exact ⟨_, _, hitem⟩
    · exact congrArg some (Holdings.Lies.unique ⟨_, _, hitem⟩ hlies)
    · refine readData_of_row hpath hfind rfl ?_ hhash.symm
      exact (h.consistent.wf.resolve_ok_iff _ _).2 (Disk.file_eq_some_iff.1 hfile)

/-- Some text, or none, is at every path. -/
private theorem Documents.exists_found (D : Documents) (user path : String) : ∃ found, D.Found user path found := by
  by_cases hlies : ∃ text, (D user).Lies (posixParts path) text
  · obtain ⟨text, htext⟩ := hlies
    refine ⟨some text, fun text' => ⟨fun heq => ?_, fun h => congrArg some (htext.unique h)⟩⟩
    exact Option.some.inj heq ▸ htext
  · refine ⟨Option.none, fun text => ⟨fun heq => ?_, fun h => (hlies ⟨text, h⟩).elim⟩⟩
    cases heq

private theorem decodeReplace_toUTF8 (text : String) : decodeReplace text.toUTF8.data.toList = text.toList := by
  rw [Utf8.bytes_eq_encode, decodeReplace, Utf8.decode_encode]

private theorem Holds.readAnswer (h : Holds texts w D) (user path : String) (maxBytes : Int) :
    ∃ found, D.Found user path found ∧ ReadAnswer path maxBytes found (read user path maxBytes w) := by
  unfold ReadAnswer
  by_cases hmax : maxBytes ≤ 0
  · obtain ⟨found, hfound⟩ := D.exists_found user path
    refine ⟨found, hfound, ?_⟩
    rw [if_pos hmax]
    exact read_of_le hmax
  simp only [if_neg hmax]
  by_cases hpath : Normalized path
  swap
  · obtain ⟨found, hfound⟩ := D.exists_found user path
    refine ⟨found, hfound, ?_⟩
    rw [if_pos hpath]
    exact read_error (requireEntry_invalid hpath) (by omega)
  simp only [if_neg (not_not.2 hpath)]
  rcases h.found user hpath with ⟨text, hfound, hdata⟩ | ⟨hfound, herror⟩
  · refine ⟨some text, hfound, ?_⟩
    obtain ⟨result, hread, hkept, -, -⟩ := read_of_data hdata (show 0 < maxBytes by omega)
    have hshape := read_of_readData hdata (show 0 < maxBytes by omega)
    rw [hread] at hshape
    obtain rfl := Except.ok.inj hshape
    exact ⟨_, hkept, hread⟩
  · exact ⟨none, hfound, read_error herror (by omega)⟩

private theorem Holds.linesAnswer (h : Holds texts w D) (user path : String) (startLine endLine : Int) :
    ∃ found, D.Found user path found ∧
      LinesAnswer path startLine endLine found (readLines user path startLine endLine w) := by
  unfold LinesAnswer
  by_cases hstart : startLine ≤ 0
  · obtain ⟨found, hfound⟩ := D.exists_found user path
    refine ⟨found, hfound, ?_⟩
    rw [if_pos hstart]
    exact readLines_of_le hstart
  simp only [if_neg hstart]
  by_cases hend : endLine < startLine
  · obtain ⟨found, hfound⟩ := D.exists_found user path
    refine ⟨found, hfound, ?_⟩
    rw [if_pos hend]
    exact readLines_of_lt (by omega) hend
  simp only [if_neg hend]
  by_cases hpath : Normalized path
  swap
  · obtain ⟨found, hfound⟩ := D.exists_found user path
    refine ⟨found, hfound, ?_⟩
    rw [if_pos hpath]
    exact readLines_error (requireEntry_invalid hpath) (by omega) (by omega)
  simp only [if_neg (not_not.2 hpath)]
  rcases h.found user hpath with ⟨text, hfound, hdata⟩ | ⟨hfound, herror⟩
  · refine ⟨some text, hfound, ?_⟩
    have hshape := readLines_of_readData hdata (show 0 < startLine by omega) (show startLine ≤ endLine by omega)
    rw [decodeReplace_toUTF8] at hshape
    exact hshape
  · exact ⟨none, hfound, readLines_error herror (by omega) (by omega)⟩

end

/-! ### The system of the store -/

/-- A call to the store with its answer.  Submissions are faithful, may meet one filesystem call that faults, and put
only texts of the run. -/
def storeStep (texts : Set String) (w : World) : Exchange → World → Prop
  | .registered user writer pre, w' => registerPrefix user writer pre w = .ok () w'
  | .submitted user writer operations, w' => ∃ fault submission,
    Faithful user writer (w.withFault fault) operations ∧
      (∀ op ∈ Catalog.putsOf operations, lineFeedText op.text ∈ texts) ∧
      submit user writer operations (w.withFault fault) = .ok submission w'
  | .refused, w' => (∃ user writer pre e, registerPrefix user writer pre w = .error e w') ∨
    ∃ user writer operations fault e, Faithful user writer (w.withFault fault) operations ∧
      (∀ op ∈ Catalog.putsOf operations, lineFeedText op.text ∈ texts) ∧
      submit user writer operations (w.withFault fault) = .error e w'
  | .read user path maxBytes answer, w' => w' = w ∧ answer = read user path maxBytes w
  | .readLines user path startLine endLine answer, w' => w' = w ∧ answer = readLines user path startLine endLine w

def store (clock : Nat → Int) (pathMax : Nat) (texts : Set String) : System World Exchange where
  start w := w = emptyStore clock pathMax
  step := storeStep texts

section

variable {texts : Set String} {clock : Nat → Int} {pathMax : Nat} {exchanges : List Exchange} {w : World}

/-- A call that returns is an exchange. -/
theorem history_registered
    (h : (store clock pathMax texts).History exchanges w) {user writer pre : String}
    (hreturns : returns (registerPrefix user writer pre) w = true) :
    (store clock pathMax texts).History (exchanges ++ [.registered user writer pre])
      (endState (registerPrefix user writer pre) w) := by
  obtain ⟨_, hok⟩ := ok_of_returns hreturns
  exact .step h hok

theorem history_submitted
    (h : (store clock pathMax texts).History exchanges w) {user writer : String} {operations : List Operation}
    (hfaithful : Faithful user writer (w.withFault none) operations)
    (htexts : ∀ op ∈ Catalog.putsOf operations, lineFeedText op.text ∈ texts)
    (hreturns : returns (submit user writer operations) (w.withFault none) = true) :
    (store clock pathMax texts).History (exchanges ++ [.submitted user writer operations])
      (endState (submit user writer operations) (w.withFault none)) := by
  obtain ⟨submission, hok⟩ := ok_of_returns hreturns
  exact .step h ⟨none, submission, hfaithful, htexts, hok⟩

private theorem history_read
    (h : (store clock pathMax texts).History exchanges w) (user path : String) (maxBytes : Int) :
    (store clock pathMax texts).History (exchanges ++ [.read user path maxBytes (read user path maxBytes w)]) w :=
  .step h ⟨rfl, rfl⟩

end

theorem mem_singleton_of_put {op op' : PutOperation} {text : String} (hop : op ∈ [op'])
    (htext : lineFeedText op'.text = text) : lineFeedText op.text ∈ ({text} : Set String) := by
  rw [List.mem_singleton.1 hop, htext]
  exact Set.mem_singleton text

/-- A store after the first call. -/
def writerStore : World := endState (registerPrefix "user" "writer" "d") (emptyStore (fun _ => 0) 4000)

private theorem writerStore_history (texts : Set String) :
    (store (fun _ => 0) 4000 texts).History [.registered "user" "writer" "d"] writerStore :=
  history_registered (.start rfl) (by decide +kernel)

/-- A store with a document. -/
def putStore : World :=
  endState (submit "user" "writer" [putText "1" "d/a" "x\r\ny"]) (writerStore.withFault none)

theorem putStore_history : (store (fun _ => 0) 4000 {"x\ny"}).History
    [.registered "user" "writer" "d", .submitted "user" "writer" [putText "1" "d/a" "x\r\ny"]] putStore :=
  history_submitted (writerStore_history {"x\ny"})
    (show Faithful "user" "writer" (writerStore.withFault none) [putText "1" "d/a" "x\r\ny"] by decide +kernel)
    (fun op hop => mem_singleton_of_put hop (by decide +kernel)) (by decide +kernel)

section

variable {texts : Set String} (hapart : Set.InjOn (fun text : String => contentHash text.toUTF8) texts)

include hapart

private theorem store_simulated (clock : Nat → Int) (pathMax : Nat) :
    System.Simulates (store clock pathMax texts) documents (Holds texts) := by
  constructor
  · rintro w rfl
    exact ⟨.none, rfl, .empty texts clock pathMax⟩
  · intro w D e w' h hstep
    cases e with
    | registered user writer pre => exact (h.registered user writer pre).of_ok hstep
    | submitted user writer operations =>
      obtain ⟨fault, submission, hf, htexts, hsubmit⟩ := hstep
      exact ((h.withFault fault).submitted hapart hf htexts).of_ok hsubmit
    | refused =>
      -- a call that raises leaves the documents as they are
      refine ⟨D, rfl, ?_⟩
      rcases hstep with ⟨user, writer, pre, e, hraises⟩ | ⟨user, writer, operations, fault, e, hf, htexts, hraises⟩
      · exact (h.registered user writer pre).of_error hraises
      · exact ((h.withFault fault).submitted hapart hf htexts).of_error hraises
    | read user path maxBytes answer =>
      obtain ⟨rfl, rfl⟩ := hstep
      exact ⟨D, ⟨rfl, h.readAnswer user path maxBytes⟩, h⟩
    | readLines user path startLine endLine answer =>
      obtain ⟨rfl, rfl⟩ := hstep
      exact ⟨D, ⟨rfl, h.linesAnswer user path startLine endLine⟩, h⟩

end

end Ctxd

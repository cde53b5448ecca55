import Ctxd.Lib.Dict
import Ctxd.Lib.Program
import Ctxd.Text

/-!
# The disk and its calls

A disk maps locations to directories and files.  A location is a place in one of three areas of the store: the tree
of a user, the objects of a user, and the undo directory.  `resolve` is the path walk of the kernel: it fails at the
first missing directory, at a file in the way, or at a name that is too long.  Every other call is written with it.

Two assumptions are built in.  The roots of the areas exist, since the store creates them before it uses them, and a
directory is never a symbolic link.  Contents are not shared between names: an object, its tree file and its backups
are links of one file, but no call writes to a file that has more than one name, and no two names that meet in one
`os.replace` are links of the same file.
-/

namespace Ctxd

inductive Area
  | users (userId : String)
  | objects (userId : String)
  | undo
  deriving DecidableEq, Repr

/-- A place below the root of an area, leaf first. -/
structure Loc where
  area : Area
  path : TreePath
  deriving DecidableEq, Repr

/-- Bytes are compared as lists of numbers. -/
local instance bytesDecEq : DecidableEq ByteArray := fun _ _ => decidable_of_decidable_of_iff ByteArray.ext_iff.symm

inductive Node
  | dir
  | file (data : ByteArray)
  deriving DecidableEq

structure Disk where
  nodes : Dict Loc Node
  /-- The bytes that the root of the store leaves for a path below a user's root. -/
  pathMax : Nat

/-- `NAME_MAX` of the filesystem. -/
def nameMax : Nat := 255

def Loc.parent (l : Loc) : Loc := ⟨l.area, l.path.tail⟩

/-- The names of objects and undo files are short; those of tree files depend on the document's path. -/
def Area.nameTooLong : Area → String → Bool
  | .users _, name => nameMax < name.utf8ByteSize
  | _, _ => false

namespace Disk

variable (d : Disk)

def node (l : Loc) : Option Node := if l.path = [] then some .dir else d.nodes.get? l

def pathTooLong (l : Loc) : Bool :=
  match l.area with
  | .users _ => d.pathMax < (l.path.map fun name => name.utf8ByteSize + 1).sum
  | _ => false

def walk (a : Area) : TreePath → Except Errno Node
  | [] => .ok .dir
  | name :: rest =>
    match walk a rest with
    | .error e => .error e
    | .ok (.file _) => .error .ENOTDIR
    | .ok .dir =>
      if a.nameTooLong name then .error .ENAMETOOLONG
      else match d.nodes.get? ⟨a, name :: rest⟩ with
        | none => .error .ENOENT
        | some n => .ok n

def resolve (l : Loc) : Except Errno Node :=
  if d.pathTooLong l then .error .ENAMETOOLONG else d.walk l.area l.path

def put (l : Loc) (n : Node) : Disk := { d with nodes := d.nodes.set l n }

def remove (l : Loc) : Disk := { d with nodes := d.nodes.pop l }

def hasChildren (l : Loc) : Bool := d.nodes.any fun item => item.1.path ≠ [] && item.1.parent = l

/-- Where a node ends up when the directory `source` becomes `target`. -/
def rebase (source target l : Loc) : Loc :=
  if l.area = source.area ∧ source.path <:+ l.path then
    ⟨target.area, l.path.take (l.path.length - source.path.length) ++ target.path⟩
  else l

def moveTree (source target : Loc) : Disk :=
  { d with nodes := (d.nodes.pop target).map fun item => (rebase source target item.1, item.2) }

/-- `os.mkdir(l)`. -/
def mkdir (l : Loc) : Except Errno Disk :=
  match d.resolve l.parent with
  | .error e => .error e
  | .ok (.file _) => .error .ENOTDIR
  | .ok .dir =>
    match d.resolve l with
    | .ok _ => .error .EEXIST
    | .error .ENOENT => .ok (d.put l .dir)
    | .error e => .error e

/-- `os.replace(source, target)`. -/
def replace (source target : Loc) : Except Errno Disk :=
  match d.resolve source with
  | .error e => .error e
  | .ok n =>
    match d.resolve target.parent with
    | .error e => .error e
    | .ok (.file _) => .error .ENOTDIR
    | .ok .dir =>
      match d.resolve target with
      | .error .ENOENT | .ok (.file _) =>
        if source = target then .ok d
        else match n, d.node target with
          | .file data, _ => .ok ((d.remove source).put target (.file data))
          | .dir, some _ => .error .ENOTDIR
          | .dir, none =>
            if target.area = source.area ∧ source.path <:+ target.path then .error .EINVAL
            else .ok (d.moveTree source target)
      | .error e => .error e
      | .ok .dir =>
        match n with
        | .file _ => .error .EISDIR
        | .dir =>
          if source = target then .ok d
          else if target.area = source.area ∧ source.path <:+ target.path then .error .EINVAL
          else if d.hasChildren target then .error .ENOTEMPTY
          else .ok (d.moveTree source target)

/-- `os.link(source, target)`. -/
def link (source target : Loc) : Except Errno Disk :=
  match d.resolve source with
  | .error e => .error e
  | .ok .dir => .error .EPERM
  | .ok (.file data) =>
    match d.resolve target with
    | .ok _ => .error .EEXIST
    | .error .ENOENT => .ok (d.put target (.file data))
    | .error e => .error e

/-- `os.unlink(l)`. -/
def unlink (l : Loc) : Except Errno Disk :=
  match d.resolve l with
  | .error e => .error e
  | .ok .dir => .error .EISDIR
  | .ok (.file _) => .ok (d.remove l)

/-- `os.rmdir(l)`. -/
def rmdir (l : Loc) : Except Errno Disk :=
  match d.resolve l with
  | .error e => .error e
  | .ok (.file _) => .error .ENOTDIR
  | .ok .dir => if l.path = [] || d.hasChildren l then .error .ENOTEMPTY else .ok (d.remove l)

/-- `open(path, "wb")` on a location whose directory exists: a file without any bytes. -/
def create (l : Loc) : Except Errno Disk :=
  match d.resolve l with
  | .ok .dir => .error .EISDIR
  | .ok (.file _) | .error .ENOENT => .ok (d.put l (.file .empty))
  | .error e => .error e

/-! ### Lookups after a call -/

@[simp] theorem node_root (a : Area) : d.node ⟨a, []⟩ = some .dir := rfl

theorem node_of_ne_nil {l : Loc} (h : l.path ≠ []) : d.node l = d.nodes.get? l := if_neg h

theorem node_put {l : Loc} (hl : l.path ≠ []) (n : Node) (l' : Loc) :
    (d.put l n).node l' = if l' = l then some n else d.node l' := by
  unfold node put
  simp only [Dict.get?_set]
  split
  · rename_i h
    rw [if_neg (by rintro rfl; exact hl h)]
  · rfl

@[simp] theorem put_put (l : Loc) (n n' : Node) : (d.put l n).put l n' = d.put l n' := by
  unfold put
  rw [Dict.set_set]

theorem node_remove {l : Loc} (hl : l.path ≠ []) (l' : Loc) :
    (d.remove l).node l' = if l' = l then none else d.node l' := by
  unfold node remove
  simp only [Dict.get?_pop]
  split
  · rename_i h
    rw [if_neg (by rintro rfl; exact hl h)]
  · rfl

@[simp] theorem pathMax_put (l : Loc) (n : Node) : (d.put l n).pathMax = d.pathMax := rfl

@[simp] theorem pathMax_remove (l : Loc) : (d.remove l).pathMax = d.pathMax := rfl

private theorem hasChildren_iff {l : Loc} :
    d.hasChildren l = true ↔ ∃ name, (d.node ⟨l.area, name :: l.path⟩).isSome := by
  unfold hasChildren
  rw [List.any_eq_true]
  constructor
  · rintro ⟨⟨⟨a, p⟩, n⟩, hmem, h⟩
    simp only [Bool.and_eq_true, decide_eq_true_eq] at h
    obtain ⟨hne, rfl⟩ := h
    cases p with
    | nil => exact absurd rfl hne
    | cons name rest =>
      refine ⟨name, ?_⟩
      show (d.node ⟨a, name :: rest⟩).isSome
      rw [node_of_ne_nil d (by simp), Dict.get?_isSome_iff]
      exact List.mem_map.2 ⟨_, hmem, rfl⟩
  · rintro ⟨name, h⟩
    rw [node_of_ne_nil d (by simp), Dict.get?_isSome_iff] at h
    obtain ⟨item, hmem, e⟩ := List.mem_map.1 h
    refine ⟨item, hmem, ?_⟩
    rw [e]
    simp [Loc.parent]

/-! ### Well-formed disks -/

/-- Every node has its directory, and its name and path are short enough. -/
structure WF : Prop where
  parent : ∀ a name rest, (d.node ⟨a, name :: rest⟩).isSome → d.node ⟨a, rest⟩ = some .dir
  name : ∀ a name rest, (d.node ⟨a, name :: rest⟩).isSome → a.nameTooLong name = false
  path : ∀ l, (d.node l).isSome → d.pathTooLong l = false

/-- The location can be reached by a path walk once its directories exist. -/
def Fits (l : Loc) : Prop := d.pathTooLong l = false ∧ ∀ name ∈ l.path, l.area.nameTooLong name = false

instance (l : Loc) : Decidable (d.Fits l) := by
  unfold Fits
  infer_instance

variable {d}

/-- A location above a node is a directory. -/
theorem WF.ancestor (h : d.WF) {a : Area} {p q : TreePath} (hp : (d.node ⟨a, p⟩).isSome) (hq : q <:+ p)
    (hne : q ≠ p) : d.node ⟨a, q⟩ = some .dir := by
  induction p with
  | nil => exact absurd (List.suffix_nil.1 hq) hne
  | cons name rest ih =>
    have hrest := h.parent a name rest hp
    rcases List.suffix_cons_iff.1 hq with rfl | hq
    · exact absurd rfl hne
    · by_cases e : q = rest
      · rw [e]; exact hrest
      · exact ih (by rw [hrest]; rfl) hq e

theorem WF.fits (h : d.WF) {l : Loc} (hl : (d.node l).isSome) : d.Fits l := by
  refine ⟨h.path l hl, ?_⟩
  obtain ⟨a, p⟩ := l
  show ∀ name ∈ p, a.nameTooLong name = false
  induction p with
  | nil => simp
  | cons name rest ih =>
    intro x hx
    rcases List.mem_cons.1 hx with rfl | hx
    · exact h.name a x rest hl
    · exact ih (by rw [h.parent a name rest hl]; rfl) x hx

private theorem WF.walk_ok_iff (h : d.WF) (a : Area) (p : TreePath) (n : Node) :
    d.walk a p = .ok n ↔ d.node ⟨a, p⟩ = some n := by
  induction p generalizing n with
  | nil => simp [walk, eq_comm]
  | cons name rest ih =>
    unfold walk
    constructor
    · intro hw
      split at hw
      · cases hw
      · cases hw
      · split at hw
        · cases hw
        · split at hw
          · cases hw
          · rename_i hn
            cases hw
            rw [node_of_ne_nil d (by simp)]
            exact hn
    · intro hn
      have hsome : (d.node ⟨a, name :: rest⟩).isSome := by rw [hn]; rfl
      rw [(ih .dir).2 (h.parent a name rest hsome)]
      rw [node_of_ne_nil d (by simp)] at hn
      simp [h.name a name rest hsome, hn]

/-- On a well-formed disk the path walk finds exactly what is there. -/
theorem WF.resolve_ok_iff (h : d.WF) (l : Loc) (n : Node) : d.resolve l = .ok n ↔ d.node l = some n := by
  unfold resolve
  constructor
  · intro hr
    split at hr
    · cases hr
    · exact (h.walk_ok_iff l.area l.path n).1 hr
  · intro hn
    rw [h.path l (by rw [hn]; rfl)]
    exact (h.walk_ok_iff l.area l.path n).2 hn

theorem WF.resolve_error (h : d.WF) {l : Loc} (hl : d.node l = none) : ∃ e, d.resolve l = .error e := by
  cases hr : d.resolve l with
  | error e => exact ⟨e, rfl⟩
  | ok n => rw [(h.resolve_ok_iff l n).1 hr] at hl; cases hl

private theorem walk_error_of_parent_dir {a : Area} {name : String} {rest : TreePath} (h : d.WF)
    (hrest : d.node ⟨a, rest⟩ = some .dir) (hname : a.nameTooLong name = false)
    (hn : d.node ⟨a, name :: rest⟩ = none) : d.walk a (name :: rest) = .error .ENOENT := by
  unfold walk
  rw [(h.walk_ok_iff a rest .dir).2 hrest]
  rw [node_of_ne_nil d (by simp)] at hn
  simp [hname, hn]

/-- A missing location in an existing directory. -/
theorem WF.resolve_noent (h : d.WF) {l : Loc} (hp : d.node l.parent = some .dir) (hl : d.node l = none)
    (hfit : d.Fits l) : d.resolve l = .error .ENOENT := by
  obtain ⟨a, p⟩ := l
  cases p with
  | nil => cases hl
  | cons name rest =>
    unfold resolve
    rw [hfit.1]
    exact walk_error_of_parent_dir h hp (hfit.2 name (by simp)) hl

private theorem walk_error_cases {a : Area} {p : TreePath} {e : Errno} (hw : d.walk a p = .error e) :
    e = .ENOENT ∨ e = .ENOTDIR ∨ (e = .ENAMETOOLONG ∧ ∃ name ∈ p, a.nameTooLong name = true) := by
  induction p generalizing e with
  | nil => cases hw
  | cons name rest ih =>
    unfold walk at hw
    split at hw
    · rename_i e' he'
      cases hw
      rcases ih he' with h | h | ⟨h, x, hx, hlong⟩
      · exact .inl h
      · exact .inr (.inl h)
      · exact .inr (.inr ⟨h, x, List.mem_cons_of_mem _ hx, hlong⟩)
    · cases hw; exact .inr (.inl rfl)
    · split at hw
      · rename_i hlong
        cases hw
        exact .inr (.inr ⟨rfl, name, by simp, hlong⟩)
      · split at hw
        · cases hw; exact .inl rfl
        · cases hw

/-- A path walk fails at a missing or misplaced node, or because the location does not fit. -/
theorem resolve_error_cases {l : Loc} {e : Errno} (hr : d.resolve l = .error e) :
    e = .ENOENT ∨ e = .ENOTDIR ∨ (e = .ENAMETOOLONG ∧ ¬d.Fits l) := by
  unfold resolve at hr
  split at hr
  · rename_i hlong
    cases hr
    refine .inr (.inr ⟨rfl, fun hfit => ?_⟩)
    rw [hfit.1] at hlong
    cases hlong
  · rcases walk_error_cases hr with h | h | ⟨h, x, hx, hlong⟩
    · exact .inl h
    · exact .inr (.inl h)
    · refine .inr (.inr ⟨h, fun hfit => ?_⟩)
      rw [hfit.2 x hx] at hlong
      cases hlong

private theorem WF.walk_enotdir (h : d.WF) {a : Area} {p : TreePath} (hw : d.walk a p = .error .ENOTDIR) :
    ∃ r, r <:+ p ∧ ∃ data, d.node ⟨a, r⟩ = some (.file data) := by
  induction p with
  | nil => cases hw
  | cons name rest ih =>
    unfold walk at hw
    split at hw
    · rename_i e he
      cases hw
      obtain ⟨r, hr, hfile⟩ := ih he
      exact ⟨r, hr.trans (List.suffix_cons _ _), hfile⟩
    · rename_i data hfile
      exact ⟨rest, List.suffix_cons _ _, data, (h.walk_ok_iff _ _ _).1 hfile⟩
    · split at hw
      · cases hw
      · split at hw <;> cases hw

/-- A misplaced location has a file above it. -/
theorem WF.resolve_enotdir (h : d.WF) {l : Loc} (hr : d.resolve l = .error .ENOTDIR) :
    ∃ r, r <:+ l.path ∧ ∃ data, d.node ⟨l.area, r⟩ = some (.file data) := by
  unfold resolve at hr
  split at hr
  · cases hr
  · exact h.walk_enotdir hr

private theorem WF.walk_below_file (h : d.WF) {a : Area} {p r : TreePath} {data : ByteArray} (hr : r <:+ p)
    (hne : r ≠ p) (hfile : d.node ⟨a, r⟩ = some (.file data)) : d.walk a p = .error .ENOTDIR := by
  induction p with
  | nil => exact absurd (List.suffix_nil.1 hr) hne
  | cons name rest ih =>
    unfold walk
    by_cases hrest : r = rest
    · rw [hrest] at hfile
      rw [(h.walk_ok_iff a rest _).2 hfile]
    · rw [ih ((List.suffix_cons_iff.1 hr).resolve_left hne) hrest]

/-- A location below a file is misplaced, if it is not too long. -/
theorem WF.resolve_below_file (h : d.WF) {l : Loc} (hfit : d.Fits l) {r : TreePath} {data : ByteArray}
    (hr : r <:+ l.path) (hne : r ≠ l.path) (hfile : d.node ⟨l.area, r⟩ = some (.file data)) :
    d.resolve l = .error .ENOTDIR := by
  unfold resolve
  rw [hfit.1]
  exact h.walk_below_file hr hne hfile

/-- Adding a node to an existing directory. -/
theorem WF.put (h : d.WF) {l : Loc} (hl : l.path ≠ []) {n : Node} (hp : d.node l.parent = some .dir)
    (hfit : d.Fits l) (hdir : n = .dir ∨ ∀ name, d.node ⟨l.area, name :: l.path⟩ = none) : (d.put l n).WF := by
  have key : ∀ l', ((d.put l n).node l').isSome → l' = l ∨ (d.node l').isSome := by
    intro l' h'
    rw [node_put d hl] at h'
    split at h'
    · exact .inl ‹_›
    · exact .inr h'
  refine ⟨?_, ?_, ?_⟩
  · intro a name rest hs
    rw [node_put d hl]
    rcases key _ hs with e | hs'
    · subst e
      rw [if_neg (by simp)]
      exact hp
    · split
      · rename_i e
        subst e
        rcases hdir with rfl | hdir
        · rfl
        · rw [hdir name] at hs'
          cases hs'
      · exact h.parent a name rest hs'
  · intro a name rest hs
    rcases key _ hs with e | hs'
    · subst e; exact hfit.2 name (by simp)
    · exact h.name a name rest hs'
  · intro l' hs
    rcases key _ hs with e | hs'
    · subst e; exact hfit.1
    · exact h.path l' hs'

/-- Removing a node that has nothing below it. -/
theorem WF.remove (h : d.WF) {l : Loc} (hl : l.path ≠ [])
    (hleaf : ∀ name, d.node ⟨l.area, name :: l.path⟩ = none) : (d.remove l).WF := by
  have key : ∀ l', ((d.remove l).node l').isSome → l' ≠ l ∧ (d.node l').isSome := by
    intro l' h'
    rw [node_remove d hl] at h'
    split at h'
    · cases h'
    · exact ⟨‹_›, h'⟩
  refine ⟨?_, ?_, ?_⟩
  · intro a name rest hs
    obtain ⟨_, hs'⟩ := key _ hs
    rw [node_remove d hl]
    split
    · rename_i e
      subst e
      rw [hleaf name] at hs'
      cases hs'
    · exact h.parent a name rest hs'
  · intro a name rest hs
    exact h.name a name rest (key _ hs).2
  · intro l' hs
    exact h.path l' (key _ hs).2

/-- Nothing lies below a file. -/
theorem WF.file_leaf (h : d.WF) {l : Loc} {data : ByteArray} (hl : d.node l = some (.file data)) (name : String) :
    d.node ⟨l.area, name :: l.path⟩ = none := by
  cases hn : d.node ⟨l.area, name :: l.path⟩ with
  | none => rfl
  | some n =>
    have := h.parent l.area name l.path (by rw [hn]; rfl)
    rw [show (⟨l.area, l.path⟩ : Loc) = l from rfl, hl] at this
    cases this

/-- Nothing lies below a missing node. -/
theorem WF.none_leaf (h : d.WF) {l : Loc} (hl : d.node l = none) (name : String) :
    d.node ⟨l.area, name :: l.path⟩ = none := by
  cases hn : d.node ⟨l.area, name :: l.path⟩ with
  | none => rfl
  | some n =>
    have := h.parent l.area name l.path (by rw [hn]; rfl)
    rw [show (⟨l.area, l.path⟩ : Loc) = l from rfl, hl] at this
    cases this

/-! ### What a successful call does -/

theorem Fits.suffix {a : Area} {p q : TreePath} (h : d.Fits ⟨a, p⟩) (hq : q <:+ p) : d.Fits ⟨a, q⟩ := by
  refine ⟨?_, fun name hn => h.2 name (hq.subset hn)⟩
  have h1 := h.1
  unfold pathTooLong at h1 ⊢
  cases a with
  | users u =>
    obtain ⟨r, rfl⟩ := hq
    simp only [List.map_append, List.sum_append, decide_eq_false_iff_not] at h1 ⊢
    omega
  | objects u => rfl
  | undo => rfl

theorem WF.resolve_eq_none (h : d.WF) {l : Loc} {e : Errno} (hr : d.resolve l = .error e) : d.node l = none := by
  cases hn : d.node l with
  | none => rfl
  | some n => rw [(h.resolve_ok_iff l n).2 hn] at hr; cases hr

private theorem WF.fits_of_noent (h : d.WF) {l : Loc} (hp : d.node l.parent = some .dir)
    (hr : d.resolve l = .error .ENOENT) : d.Fits l := by
  obtain ⟨a, p⟩ := l
  have hpar := h.fits (l := ⟨a, p.tail⟩) (by rw [show d.node ⟨a, p.tail⟩ = some .dir from hp]; rfl)
  unfold resolve at hr
  split at hr
  · cases hr
  · rename_i hlong
    refine ⟨by simpa using hlong, ?_⟩
    cases p with
    | nil => simp
    | cons name rest =>
      intro x hx
      rcases List.mem_cons.1 hx with rfl | hx
      · rw [show d.walk a (x :: rest) = _ from rfl] at hr
        unfold walk at hr
        rw [(h.walk_ok_iff a rest .dir).2 hp] at hr
        simp only at hr
        split at hr
        · cases hr
        · rename_i hname
          exact Bool.eq_false_iff.2 hname
      · exact hpar.2 x hx

theorem WF.mkdir_ok (h : d.WF) {l : Loc} {d' : Disk} (hm : d.mkdir l = .ok d') :
    l.path ≠ [] ∧ d.node l.parent = some .dir ∧ d.node l = none ∧ d.Fits l ∧ d' = d.put l .dir := by
  unfold mkdir at hm
  split at hm
  · cases hm
  · cases hm
  · rename_i hp
    have hp := (h.resolve_ok_iff _ _).1 hp
    split at hm
    · cases hm
    · rename_i hr
      cases hm
      refine ⟨?_, hp, h.resolve_eq_none hr, h.fits_of_noent hp hr, rfl⟩
      intro hl
      have := h.resolve_eq_none hr
      rw [node, if_pos hl] at this
      cases this
    · cases hm

theorem WF.mkdir_of_none (h : d.WF) {l : Loc} (hp : d.node l.parent = some .dir) (hl : d.node l = none)
    (hfit : d.Fits l) : d.mkdir l = .ok (d.put l .dir) := by
  unfold mkdir
  rw [(h.resolve_ok_iff _ _).2 hp, h.resolve_noent hp hl hfit]

theorem WF.link_ok (h : d.WF) {source target : Loc} {d' : Disk} (hl : d.link source target = .ok d') :
    ∃ data, d.node source = some (.file data) ∧ d.node target = none ∧ d' = d.put target (.file data) := by
  unfold link at hl
  split at hl
  · cases hl
  · cases hl
  · rename_i data hs
    split at hl
    · cases hl
    · rename_i hr
      cases hl
      exact ⟨data, (h.resolve_ok_iff _ _).1 hs, h.resolve_eq_none hr, rfl⟩
    · cases hl

theorem WF.unlink_ok (h : d.WF) {l : Loc} {d' : Disk} (hu : d.unlink l = .ok d') :
    ∃ data, d.node l = some (.file data) ∧ d' = d.remove l := by
  unfold unlink at hu
  split at hu
  · cases hu
  · cases hu
  · rename_i data hr
    cases hu
    exact ⟨data, (h.resolve_ok_iff _ _).1 hr, rfl⟩

theorem WF.unlink_of_file (h : d.WF) {l : Loc} {data : ByteArray} (hl : d.node l = some (.file data)) :
    d.unlink l = .ok (d.remove l) := by
  unfold unlink
  rw [(h.resolve_ok_iff _ _).2 hl]

theorem WF.rmdir_ok (h : d.WF) {l : Loc} {d' : Disk} (hr : d.rmdir l = .ok d') :
    l.path ≠ [] ∧ d.node l = some .dir ∧ (∀ name, d.node ⟨l.area, name :: l.path⟩ = none) ∧ d' = d.remove l := by
  unfold rmdir at hr
  split at hr
  · cases hr
  · cases hr
  · rename_i hd
    split at hr
    · cases hr
    · rename_i hc
      cases hr
      simp only [Bool.or_eq_true, decide_eq_true_eq, not_or, Bool.not_eq_true] at hc
      refine ⟨hc.1, (h.resolve_ok_iff _ _).1 hd, fun name => ?_, rfl⟩
      have := hc.2
      rw [← Bool.not_eq_true, hasChildren_iff] at this
      simp only [not_exists, Bool.not_eq_true, Option.isSome_eq_false_iff, Option.isNone_iff_eq_none] at this
      exact this name

theorem WF.rmdir_of_empty (h : d.WF) {l : Loc} (hl : l.path ≠ []) (hd : d.node l = some .dir)
    (hc : ∀ name, d.node ⟨l.area, name :: l.path⟩ = none) : d.rmdir l = .ok (d.remove l) := by
  unfold rmdir
  rw [(h.resolve_ok_iff _ _).2 hd]
  have : d.hasChildren l = false := by
    rw [← Bool.not_eq_true, hasChildren_iff]
    simp [hc]
  simp [hl, this]

/-- A file that is renamed, over a file or onto a free name. -/
theorem WF.replace_ok (h : d.WF) {source target : Loc} {data : ByteArray} {d' : Disk}
    (hs : d.node source = some (.file data)) (hne : source ≠ target) (hr : d.replace source target = .ok d') :
    target.path ≠ [] ∧ d.node target.parent = some .dir ∧ d.node target ≠ some .dir ∧ d.Fits target ∧
      d' = (d.remove source).put target (.file data) := by
  unfold replace at hr
  rw [(h.resolve_ok_iff _ _).2 hs] at hr
  simp only at hr
  split at hr
  · cases hr
  · cases hr
  · rename_i hp
    have hp := (h.resolve_ok_iff _ _).1 hp
    split at hr
    · rename_i ht
      rw [if_neg hne] at hr
      cases hr
      have hn := h.resolve_eq_none ht
      refine ⟨?_, hp, by rw [hn]; simp, h.fits_of_noent hp ht, rfl⟩
      intro e
      rw [node, if_pos e] at hn
      cases hn
    · rename_i ht
      rw [if_neg hne] at hr
      cases hr
      have hn := (h.resolve_ok_iff _ _).1 ht
      refine ⟨?_, hp, by rw [hn]; simp, h.fits (by rw [hn]; rfl), rfl⟩
      intro e
      rw [node, if_pos e] at hn
      cases hn
    · cases hr
    · cases hr

theorem WF.replace_of_file (h : d.WF) {source target : Loc} {data : ByteArray}
    (hs : d.node source = some (.file data)) (hne : source ≠ target) (hp : d.node target.parent = some .dir)
    (ht : d.node target ≠ some .dir) (hfit : d.Fits target) :
    d.replace source target = .ok ((d.remove source).put target (.file data)) := by
  unfold replace
  rw [(h.resolve_ok_iff _ _).2 hs, (h.resolve_ok_iff _ _).2 hp]
  cases hn : d.node target with
  | none => simp [h.resolve_noent hp hn hfit, hne]
  | some n =>
    cases n with
    | dir => exact absurd hn ht
    | file x => simp [(h.resolve_ok_iff _ _).2 hn, hne]

/-- The disk after a file has been renamed. -/
theorem WF.renamed (h : d.WF) {source target : Loc} {data : ByteArray} (hs : d.node source = some (.file data))
    (hne : source ≠ target) (hpath : target.path ≠ []) (hp : d.node target.parent = some .dir)
    (ht : d.node target ≠ some .dir) (hfit : d.Fits target) :
    ((d.remove source).put target (.file data)).WF ∧
      ∀ l, ((d.remove source).put target (.file data)).node l =
        if l = target then some (.file data) else if l = source then none else d.node l := by
  have hsp : source.path ≠ [] := by
    intro e
    rw [node, if_pos e] at hs
    cases hs
  have hwf := h.remove hsp (h.file_leaf hs)
  have hleaf : ∀ name, d.node ⟨target.area, name :: target.path⟩ = none := by
    cases hn : d.node target with
    | none => exact h.none_leaf hn
    | some n =>
      cases n with
      | dir => exact absurd hn ht
      | file x => exact h.file_leaf hn
  refine ⟨hwf.put hpath ?_ hfit (.inr fun name => ?_), fun l => ?_⟩
  · rw [node_remove d hsp, if_neg, hp]
    rintro rfl
    rw [hp] at hs
    cases hs
  · rw [node_remove d hsp]
    split
    · rfl
    · exact hleaf name
  · rw [node_put _ hpath, node_remove d hsp]

end Disk

end Ctxd

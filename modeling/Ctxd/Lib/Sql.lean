import Ctxd.Lib.Program
import Mathlib.Data.List.Basic
import Mathlib.Data.List.Pairwise

/-!
# Tables and connections of an SQL database

A `Table` is its rows together with what decides whether a row may be inserted: the columns that are not NULL and the
columns of each unique index.  `insertRows_eq_ok_iff` says which rows an `INSERT ... SELECT` accepts.

A `Connection` is that of a driver that opens a transaction by itself before a statement that changes rows, and only
then: a statement that changes the schema commits on its own unless a transaction is open.  What a program has not
committed is lost when it raises or is stopped.  `ends_schema` and `ends_change` are the rules of the two kinds of
statement, `ends_within` is that of a `with` block on the connection, and `ends_stopAt` that of the places where a
program may be stopped.  A program whose statements keep a property of the database `Preserves` it in the file.
-/

namespace Sql

open Program

/-! ### Tables -/

/-- A value as the declared type of its column stores it. -/
inductive Value where
  | null
  | integer (n : Int)
  | real (n : Int)
  | text (s : String)
  deriving DecidableEq, Repr

/-- The values of a row by the names of their columns. -/
abbrev Row := String → Value

structure Table where
  columns : List String
  notNull : List String
  /-- The columns of each unique index, the primary key's among them. -/
  unique : List (List String)
  rows : List Row

inductive Error where
  | integrity
  | operational (message : String)
  deriving DecidableEq, Repr

namespace Table

variable {t t' : Table} {r : Row} {rs : List Row}

/-- NULL is different from every value in a unique index, itself included. -/
def clashes (key : List String) (old new : Row) : Bool :=
  key.map old = key.map new && !key.any fun c => new c = .null

def insertRow (t : Table) (r : Row) : Except Error Table :=
  if t.notNull.any (fun c => r c = .null) then .error .integrity
  else if t.unique.any (fun key => t.rows.any fun old => clashes key old r) then .error .integrity
  else .ok { t with rows := t.rows ++ [r] }

def insertRows (t : Table) (rs : List Row) : Except Error Table := rs.foldlM insertRow t

/-- The rows may be inserted one after the other. -/
structure Admits (t : Table) (rs : List Row) : Prop where
  notNull : ∀ r ∈ rs, ∀ c ∈ t.notNull, r c ≠ .null
  distinct : ∀ key ∈ t.unique, rs.Pairwise fun r r' => key.map r ≠ key.map r'
  free : ∀ key ∈ t.unique, ∀ r ∈ rs, ∀ old ∈ t.rows, key.map old ≠ key.map r

theorem insertRow_eq_ok_iff (hkeys : ∀ key ∈ t.unique, ∀ c ∈ key, c ∈ t.notNull) :
    insertRow t r = .ok t' ↔ t' = { t with rows := t.rows ++ [r] } ∧ (∀ c ∈ t.notNull, r c ≠ .null) ∧
      ∀ key ∈ t.unique, ∀ old ∈ t.rows, key.map old ≠ key.map r := by
  unfold insertRow
  by_cases hnull : t.notNull.any (fun c => r c = .null) = true
  · rw [if_pos hnull]
    obtain ⟨c, hc, hr⟩ := List.any_eq_true.1 hnull
    constructor
    · intro h
      cases h
    · intro h
      exact absurd (of_decide_eq_true hr) (h.2.1 c hc)
  rw [if_neg hnull]
  have hvalues : ∀ c ∈ t.notNull, r c ≠ .null := by
    intro c hc hr
    exact hnull (List.any_eq_true.2 ⟨c, hc, decide_eq_true hr⟩)
  have hclash : ∀ key ∈ t.unique, ∀ old, clashes key old r = true ↔ key.map old = key.map r := by
    intro key hkey old
    have hany : (key.any fun c => decide (r c = .null)) = false := by
      rw [List.any_eq_false]
      intro c hc h
      exact hvalues c (hkeys key hkey c hc) (of_decide_eq_true h)
    simp [clashes, hany]
  by_cases hused : t.unique.any (fun key => t.rows.any fun old => clashes key old r) = true
  · rw [if_pos hused]
    obtain ⟨key, hkey, hold⟩ := List.any_eq_true.1 hused
    obtain ⟨old, hmem, hold⟩ := List.any_eq_true.1 hold
    constructor
    · intro h
      cases h
    · intro h
      exact absurd ((hclash key hkey old).1 hold) (h.2.2 key hkey old hmem)
  · rw [if_neg hused]
    constructor
    · intro h
      cases h
      refine ⟨rfl, hvalues, ?_⟩
      intro key hkey old hmem heq
      exact hused (List.any_eq_true.2 ⟨key, hkey, List.any_eq_true.2 ⟨old, hmem, (hclash key hkey old).2 heq⟩⟩)
    · intro h
      rw [h.1]

/-- What a table of which every key column is not NULL accepts. -/
theorem insertRows_eq_ok_iff (hkeys : ∀ key ∈ t.unique, ∀ c ∈ key, c ∈ t.notNull) :
    insertRows t rs = .ok t' ↔ t' = { t with rows := t.rows ++ rs } ∧ t.Admits rs := by
  induction rs generalizing t with
  | nil =>
    constructor
    · intro h
      cases h
      exact ⟨by simp, ⟨by simp, by simp, by simp⟩⟩
    · intro h
      rw [h.1]
      simp [insertRows, pure, Except.pure]
  | cons r rs ih =>
    have hfold : insertRows t (r :: rs) = (insertRow t r >>= fun t => insertRows t rs) := List.foldlM_cons
    rw [hfold, bind_eq_ok]
    constructor
    · rintro ⟨t₁, hfirst, hrest⟩
      obtain ⟨rfl, hvalues, hfree⟩ := (insertRow_eq_ok_iff hkeys).1 hfirst
      obtain ⟨rfl, hadmits⟩ := (ih (t := { t with rows := t.rows ++ [r] }) hkeys).1 hrest
      refine ⟨by simp, ⟨?_, ?_, ?_⟩⟩
      · intro r' hr'
        rcases List.mem_cons.1 hr' with rfl | hr'
        · exact hvalues
        · exact hadmits.notNull r' hr'
      · intro key hkey
        rw [List.pairwise_cons]
        exact ⟨fun r' hr' => hadmits.free key hkey r' hr' r (by simp), hadmits.distinct key hkey⟩
      · intro key hkey r' hr' old hold
        rcases List.mem_cons.1 hr' with rfl | hr'
        · exact hfree key hkey old hold
        · exact hadmits.free key hkey r' hr' old (by simp [hold])
    · rintro ⟨rfl, hadmits⟩
      refine ⟨{ t with rows := t.rows ++ [r] }, ?_, ?_⟩
      · refine (insertRow_eq_ok_iff hkeys).2 ⟨rfl, hadmits.notNull r (by simp), ?_⟩
        intro key hkey old hold
        exact hadmits.free key hkey r (by simp) old hold
      · refine (ih (t := { t with rows := t.rows ++ [r] }) hkeys).2 ⟨by simp, ⟨?_, ?_, ?_⟩⟩
        · intro r' hr'
          exact hadmits.notNull r' (by simp [hr'])
        · intro key hkey
          exact (List.pairwise_cons.1 (hadmits.distinct key hkey)).2
        · intro key hkey r' hr' old hold
          rcases List.mem_append.1 hold with hold | hold
          · exact hadmits.free key hkey r' (by simp [hr']) old hold
          · rw [List.mem_singleton.1 hold]
            exact (List.pairwise_cons.1 (hadmits.distinct key hkey)).1 r' hr'

end Table

/-! ### Connections -/

/-- A connection: what the database file holds and what its transaction, if one is open, has made of it. -/
structure Connection (σ : Type) where
  saved : σ
  pending : Option σ

/-- A program that does not return has raised an exception or was stopped. -/
inductive Halt (ε : Type) where
  | raised (error : ε)
  | stopped
  deriving DecidableEq, Repr

abbrev Session (ε σ α : Type) := EStateM (Halt ε) (Connection σ) α

variable {ε σ α π : Type} {c : Connection σ} {f : σ → Except ε σ}

/-- What the statements of the connection read. -/
def Connection.view (c : Connection σ) : σ := c.pending.getD c.saved

def query (read : σ → α) : Session ε σ α := return read (← get).view

/-- A statement that changes the schema: without a transaction it commits by itself. -/
def schema (f : σ → Except ε σ) : Session ε σ Unit := do
  let c ← get
  match f c.view with
  | .error error => throw (.raised error)
  | .ok s => set (if c.pending.isSome then { c with pending := some s } else { c with saved := s })

/-- A statement that changes rows: it opens a transaction when there is none. -/
def change (f : σ → Except ε σ) : Session ε σ Unit := do
  let c ← get
  set { c with pending := some c.view }
  match f c.view with
  | .error error => throw (.raised error)
  | .ok s => set { c with pending := some s }

def commit : Session ε σ Unit := modify fun c => ⟨c.view, none⟩

def rollback : Session ε σ Unit := modify fun c => ⟨c.saved, none⟩

/-- `with connection:`: the block is committed when it returns and rolled back when it raises. -/
def within (body : Session ε σ Unit) : Session ε σ Unit := do
  tryCatch body fun halt => do
    rollback
    throw halt
  commit

/-- The program is stopped when it comes to the point `stop`. -/
def stopAt [DecidableEq π] (stop : Option π) (point : π) (m : Session ε σ α) : Session ε σ α :=
  if stop = some point then throw .stopped else m

/-! ### The rules of the statements -/

/-- What a statement that changes the schema leaves. -/
def Connection.store (c : Connection σ) (s : σ) : Connection σ :=
  if c.pending.isSome then { c with pending := some s } else { c with saved := s }

@[simp] theorem Connection.store_idle {s s' : σ} : (⟨s, none⟩ : Connection σ).store s' = ⟨s', none⟩ := rfl

@[simp] theorem Connection.store_begun {s s' s'' : σ} :
    (⟨s, some s'⟩ : Connection σ).store s'' = ⟨s, some s''⟩ := rfl

@[simp] theorem Connection.view_idle {s : σ} : (⟨s, none⟩ : Connection σ).view = s := rfl

@[simp] theorem Connection.view_begun {s s' : σ} : (⟨s, some s'⟩ : Connection σ).view = s' := rfl

variable {Q : Unit → Connection σ → Prop} {E : Halt ε → Connection σ → Prop}

@[simp] theorem ends_query {read : σ → α} {Q : α → Connection σ → Prop} :
    Ends (query read) Q E c ↔ Q (read c.view) c := Iff.rfl

@[simp] theorem ends_schema : Ends (schema f) Q E c ↔
    (∀ s, f c.view = .ok s → Q () (c.store s)) ∧ ∀ error, f c.view = .error error → E (.raised error) c := by
  unfold schema
  rw [ends_bind, ends_get]
  cases f c.view with
  | error error => simp
  | ok s => simp [Connection.store]

@[simp] theorem ends_change : Ends (change f) Q E c ↔
    (∀ s, f c.view = .ok s → Q () ⟨c.saved, some s⟩) ∧
      ∀ error, f c.view = .error error → E (.raised error) ⟨c.saved, some c.view⟩ := by
  unfold change
  rw [ends_bind, ends_get, ends_bind, ends_set]
  cases f c.view with
  | error error => simp
  | ok s => simp

@[simp] theorem ends_stopAt [DecidableEq π] {stop : Option π} {point : π} {m : Session ε σ α}
    {Q : α → Connection σ → Prop} :
    Ends (stopAt stop point m) Q E c ↔ if stop = some point then E .stopped c else Ends m Q E c := by
  unfold stopAt
  split <;> simp

@[simp] theorem ends_within {body : Session ε σ Unit} : Ends (within body) Q E c ↔
    Ends body (fun _ c' => Q () ⟨c'.view, none⟩) (fun halt c' => E halt ⟨c'.saved, none⟩) c := by
  simp [within, commit, rollback]

/-- A statement inside a transaction, with the place before it. -/
theorem ends_begun [DecidableEq π] {stop : Option π} {point : π} {s s' s'' : σ} (hf : f s' = .ok s'')
    (hstop : stop = some point → E .stopped ⟨s, some s'⟩) (h : stop ≠ some point → Q () ⟨s, some s''⟩) :
    Ends (stopAt stop point (schema f)) Q E ⟨s, some s'⟩ := by
  rw [ends_stopAt]
  split
  · rename_i heq
    exact hstop heq
  · rename_i hne
    rw [ends_schema, Connection.view_begun, hf]
    refine ⟨?_, fun error herror => by cases herror⟩
    intro s hs
    cases hs
    exact h hne

/-! ### What the file holds at every stop -/

/-- The file has `P`, and so has what an open transaction has made of it. -/
structure Connection.Keeps (P : σ → Prop) (c : Connection σ) : Prop where
  saved : P c.saved
  pending : ∀ s, c.pending = some s → P s

/-- However the program ends, the file still has `P`. -/
def Preserves (P : σ → Prop) (m : Session ε σ α) : Prop :=
  ∀ c, c.Keeps P → Ends m (fun _ c' => c'.Keeps P) (fun _ c' => c'.Keeps P) c

variable {β : Type} {P : σ → Prop} {m : Session ε σ α}

theorem Connection.keeps_idle {s : σ} (hs : P s) : (⟨s, none⟩ : Connection σ).Keeps P :=
  ⟨hs, fun _ h => by cases h⟩

theorem Connection.Keeps.view (h : c.Keeps P) : P c.view := by
  unfold Connection.view
  cases hc : c.pending with
  | none => exact h.saved
  | some s => exact h.pending s hc

theorem Connection.Keeps.store (h : c.Keeps P) {s : σ} (hs : P s) : (c.store s).Keeps P := by
  unfold Connection.store
  split
  · exact ⟨h.saved, fun _ hc => Option.some.inj hc ▸ hs⟩
  · exact ⟨hs, h.pending⟩

namespace Preserves

theorem pure {a : α} : Preserves P (pure a : Session ε σ α) := fun _ h => h

theorem throw {halt : Halt ε} : Preserves P (throw halt : Session ε σ α) := fun _ h => h

theorem bind {k : α → Session ε σ β} (hm : Preserves P m) (hk : ∀ a, Preserves P (k a)) : Preserves P (m >>= k) := by
  intro c h
  rw [ends_bind]
  exact (hm c h).mono (fun a c' h' => hk a c' h') (fun _ _ h' => h')

/-- A program that reads a state of which `P` holds. -/
theorem query {read : σ → α} {k : α → Session ε σ β} (hk : ∀ s, P s → Preserves P (k (read s))) :
    Preserves P (query read >>= k) := by
  intro c h
  rw [ends_bind, ends_query]
  exact hk c.view h.view c h

theorem schema (hf : ∀ s s', P s → f s = .ok s' → P s') : Preserves P (schema f) :=
  fun _ h => ends_schema.2 ⟨fun s hs => h.store (hf _ s h.view hs), fun _ _ => h⟩

theorem stopAt [DecidableEq π] {stop : Option π} {point : π} (hm : Preserves P m) :
    Preserves P (stopAt stop point m) := by
  intro c h
  rw [ends_stopAt]
  split
  · exact h
  · exact hm c h

theorem tryCatch {handler : Halt ε → Session ε σ α} (hm : Preserves P m) (hh : ∀ halt, Preserves P (handler halt)) :
    Preserves P (tryCatch m handler) := by
  intro c h
  rw [ends_tryCatch]
  exact (hm c h).mono (fun _ _ h' => h') (fun halt c' h' => hh halt c' h')

theorem within {body : Session ε σ Unit} (hm : Preserves P body) : Preserves P (within body) := by
  intro c h
  rw [ends_within]
  exact (hm c h).mono (fun _ _ h' => Connection.keeps_idle h'.view) (fun _ _ h' => Connection.keeps_idle h'.saved)

end Preserves

end Sql

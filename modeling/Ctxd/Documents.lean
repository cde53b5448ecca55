import Ctxd.Lib.Holdings
import Ctxd.Lib.Simulation
import Ctxd.Reads
import Ctxd.Registrations

/-!
# What a store is for

Every user has documents.  A writer has some prefixes of the user's paths to itself, knows each of its documents by a
source key, and changes them a submission at a time: all operations of a submission take effect at once, or none does.
A document is read back as the text that was put last, with its line ends written as LF.  Here the documents are the
holdings of each user's writers, and `documents` is the system of the calls that a store answers; nothing is said of
files and rows.
-/

namespace Ctxd

/-- A call to a store with its answer. -/
inductive Exchange
  | registered (user writer pre : String)
  | submitted (user writer : String) (operations : List Operation)
  | refused
  | read (user path : String) (maxBytes : Int) (answer : Except StoreError ReadResult)
  | readLines (user path : String) (startLine endLine : Int) (answer : Except StoreError ReadLinesResult)

/-- By user: the items of the writers are texts, and their keys are source keys. -/
abbrev Documents := String → Holdings String String String String

def Documents.none : Documents := fun _ => .empty

/-! ### Submissions -/

/-- The last put of a document decides. -/
def lastPut (ops : List PutOperation) (key : String) : Option PutOperation :=
  ops.reverse.find? fun op => op.sourceKey = key

/-- What the operations do to the documents, in whatever order they stand. -/
def changeOf (operations : List Operation) : Change String String String where
  put key := (lastPut (Catalog.putsOf operations) key).map fun op => (posixParts op.path, lineFeedText op.text)
  move key := ((Catalog.movesOf operations).find? fun op => op.sourceKey = key).map fun op =>
    (posixParts op.path, {text | contentHash text.toUTF8 = op.expectedContentHash})
  delete := {key | ∃ op ∈ Catalog.deletesOf operations, op.sourceKey = key}

theorem changeOf_on (operations : List Operation) (items : String → Option (List String × String)) (key : String) :
    (changeOf operations).on items key =
      match lastPut (Catalog.putsOf operations) key with
      | some op => some (posixParts op.path, lineFeedText op.text)
      | none =>
        if ∃ op ∈ Catalog.deletesOf operations, op.sourceKey = key then none
        else match (Catalog.movesOf operations).find? fun op => op.sourceKey = key with
          | some op => (items key).map fun x => (posixParts op.path, x.2)
          | none => items key := by
  have hput : (changeOf operations).put key =
      (lastPut (Catalog.putsOf operations) key).map fun op => (posixParts op.path, lineFeedText op.text) := rfl
  have hmove : (changeOf operations).move key =
      ((Catalog.movesOf operations).find? fun op => op.sourceKey = key).map fun op =>
        (posixParts op.path, {text | contentHash text.toUTF8 = op.expectedContentHash}) := rfl
  have hdelete : key ∈ (changeOf operations).delete ↔ ∃ op ∈ Catalog.deletesOf operations, op.sourceKey = key := .rfl
  unfold Change.on
  rw [hput, hmove]
  cases lastPut (Catalog.putsOf operations) key with
  | some op => rfl
  | none =>
    simp only [Option.map_none, hdelete]
    by_cases hdeleted : ∃ op ∈ Catalog.deletesOf operations, op.sourceKey = key
    · rw [if_pos hdeleted, if_pos hdeleted]
    · rw [if_neg hdeleted, if_neg hdeleted]
      cases (Catalog.movesOf operations).find? fun op => op.sourceKey = key <;> rfl

/-- Paths are normalised, texts have no NUL, and no document is moved twice. -/
structure WellFormed (operations : List Operation) : Prop where
  puts : ∀ op ∈ Catalog.putsOf operations, Normalized op.path ∧ Char.ofNat 0 ∉ op.text.toList
  moves : ∀ op ∈ Catalog.movesOf operations, Normalized op.path
  distinct : ((Catalog.movesOf operations).map (·.sourceKey)).Nodup

/-! ### Reading -/

/-- The text at a path, if there is one. -/
def Documents.Found (D : Documents) (user path : String) (found : Option String) : Prop :=
  ∀ text, found = some text ↔ (D user).Lies (posixParts path) text

def ReadAnswer (path : String) (maxBytes : Int) (found : Option String) (answer : Except StoreError ReadResult) :
    Prop :=
  if maxBytes ≤ 0 then answer = .error (.valueError "max_bytes must be positive")
  else if ¬Normalized path then answer = .error (invalidPath path)
  else match found with
    | none => answer = .error (.fileNotFound path)
    | some text => ∃ kept, LongestPrefix text maxBytes kept ∧
      answer = .ok ⟨path, kept, contentHash text.toUTF8, decide ((text.toUTF8.size : Int) ≤ maxBytes),
        if (text.toUTF8.size : Int) ≤ maxBytes then none else some "max_bytes"⟩

def LinesAnswer (path : String) (startLine endLine : Int) (found : Option String)
    (answer : Except StoreError ReadLinesResult) : Prop :=
  if startLine ≤ 0 then answer = .error (.valueError "start_line must be positive")
  else if endLine < startLine then
    answer = .error (.valueError "end_line must be greater than or equal to start_line")
  else if ¬Normalized path then answer = .error (invalidPath path)
  else match found with
    | none => answer = .error (.fileNotFound path)
    | some text =>
      answer = .ok ⟨path, startLine.toNat, min endLine.toNat (splitLines text.toList).length,
        ((splitLines text.toList).take endLine.toNat).drop (startLine.toNat - 1), contentHash text.toUTF8,
        decide (endLine ≤ (splitLines text.toList).length),
        if endLine ≤ (splitLines text.toList).length then none else some "eof"⟩

/-! ### The system -/

/-- What a call with its answer does to the documents.  A submission or a registration may always be refused. -/
def Documents.step (D : Documents) : Exchange → Documents → Prop
  | .registered user writer pre, D' => Normalized pre ∧
    ∃ h, D' = Function.update D user ((D user).claim writer (posixParts pre) h)
  | .submitted user writer operations, D' => WellFormed operations ∧
    ∃ h, D' = Function.update D user ((D user).change writer (changeOf operations) h)
  | .refused, D' => D' = D
  | .read user path maxBytes answer, D' => D' = D ∧ ∃ found, D.Found user path found ∧
    ReadAnswer path maxBytes found answer
  | .readLines user path startLine endLine answer, D' =>
    D' = D ∧ ∃ found, D.Found user path found ∧ LinesAnswer path startLine endLine found answer

def documents : System Documents Exchange where
  start D := D = .none
  step := Documents.step

/-! ### What becomes of one writer's documents -/

/-- The documents of a writer and its prefixes. -/
abbrev Share := (String → Option (List String × String)) × Set (List String)

def Documents.share (user writer : String) (D : Documents) : Share := ((D user).item writer, (D user).ground writer)

/-- The writer's own calls. -/
def Exchange.isOf (user writer : String) : Exchange → Bool
  | .registered user' writer' _ => user' = user && writer' = writer
  | .submitted user' writer' _ => user' = user && writer' = writer
  | _ => false

noncomputable def Share.after (s : Share) : Exchange → Share
  | .registered _ _ pre => (s.1, insert (posixParts pre) s.2)
  | .submitted _ _ operations => ((changeOf operations).on s.1, s.2)
  | _ => s

private theorem Documents.share_step (user writer : String) {D D' : Documents} {e : Exchange} (h : D.step e D') :
    D'.share user writer = if e.isOf user writer then (D.share user writer).after e else D.share user writer := by
  have hother : ∀ {user' writer' : String} {H : Holdings String String String String},
      (∀ o, o ≠ writer' → H.item o = (D user').item o ∧ H.ground o = (D user').ground o) →
      (user' = user && writer' = writer) = false →
      Documents.share user writer (Function.update D user' H) = D.share user writer := by
    intro user' writer' H hsame hne
    unfold Documents.share
    rw [Function.update_apply]
    split
    · rename_i huser
      subst huser
      have hwriter : writer ≠ writer' := by
        rintro rfl
        simp at hne
      rw [(hsame writer hwriter).1, (hsame writer hwriter).2]
    · rfl
  cases e with
  | registered user' writer' pre =>
    obtain ⟨-, hclaim, rfl⟩ := h
    by_cases hown : (Exchange.registered user' writer' pre).isOf user writer
    · rw [if_pos hown]
      obtain ⟨rfl, rfl⟩ : user' = user ∧ writer' = writer := by simpa [Exchange.isOf] using hown
      unfold Documents.share
      rw [Function.update_self, Holdings.claim_item, Holdings.claim_ground_self]
      rfl
    · rw [if_neg hown]
      exact hother (fun o ho => ⟨rfl, Holdings.claim_ground_of_ne ho⟩) (Bool.eq_false_iff.2 hown)
  | submitted user' writer' operations =>
    obtain ⟨-, hpermits, rfl⟩ := h
    by_cases hown : (Exchange.submitted user' writer' operations).isOf user writer
    · rw [if_pos hown]
      obtain ⟨rfl, rfl⟩ : user' = user ∧ writer' = writer := by simpa [Exchange.isOf] using hown
      unfold Documents.share
      rw [Function.update_self, Holdings.change_item_self, Holdings.change_ground]
      rfl
    · rw [if_neg hown]
      exact hother (fun o ho => ⟨Holdings.change_item_of_ne ho, rfl⟩) (Bool.eq_false_iff.2 hown)
  | refused =>
    obtain rfl := h
    rfl
  | read user' path maxBytes answer =>
    obtain ⟨rfl, -⟩ := h
    rfl
  | readLines user' path startLine endLine answer =>
    obtain ⟨rfl, -⟩ := h
    rfl

/-- A writer's documents are what its own calls have made of them. -/
theorem Documents.share_history (user writer : String) {exchanges : List Exchange} {D : Documents}
    (h : documents.History exchanges D) :
    D.share user writer = (exchanges.filter (·.isOf user writer)).foldl Share.after (fun _ => Option.none, ∅) := by
  refine System.History.replay (Documents.share user writer) (·.isOf user writer) (fun D' hstart => ?_)
    (fun _ _ _ hstep => Documents.share_step user writer hstep) h
  obtain rfl := hstart
  rfl

end Ctxd

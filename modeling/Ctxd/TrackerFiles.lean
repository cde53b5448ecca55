import Ctxd.HealthFile
import Ctxd.Lib.JsonDump
import Ctxd.TrackerScan

/-!
# The files of the tracker

The tracker keeps its health and its state in two JSON files.  What `_save_health` and `_save_state` write is what
`load_tracker_health` and `_load_state` read back, whatever characters stand in it.  So a tracker that is stopped and
started again goes on with the record that it has written last, and its last success never goes back
(`restarts_resume`); and the state of a run is the one that the next run compares the folders with
(`loadState_saveState`).
-/

namespace Ctxd

open JsonText (Text Value textOf Layout Joined Writable Printable)
open Program

namespace Tracker

/-! ### The health file -/

/-- What `_save_health` raises, but for an `OSError`. -/
inductive HealthError
  | invalid
  | tooLarge
  | raised (e : PyError)
  deriving DecidableEq

def healthLayout : Layout := ⟨none, [','], [':'], true⟩

/-- `_save_health`, up to the bytes that it writes. -/
def saveHealth (h : Health) : Except HealthError (List UInt8) :=
  match validHealth (.object h.items) with
  | .error e => .error (.raised e)
  | .ok false => .error .invalid
  | .ok true =>
    let encoded := Utf8.encode (JsonText.dumps healthLayout (.object h.items) ++ ['\n'])
    if maxHealthFileBytes < encoded.length then .error .tooLarge else .ok encoded

/-- `load_tracker_health(paths.health_file) or _empty_health()`. -/
def startHealth (limit : Nat) (file : Option (List UInt8)) : Except PyError Health := do
  match ← loadTrackerHealth limit file with
  | some (.object items) => return (fieldsOf items).getD emptyHealth
  | _ => return emptyHealth

/-- The tracker with its health file. -/
structure Daemon where
  health : Health
  file : Option (List UInt8)

/-- A turn of the loop whose record gets into the file or not, or a new start. -/
inductive Event
  | turn (it : Iteration) (written : Bool)
  | restart

/-- `_persist_health_safely` lets no error pass but one of the validator. -/
def Daemon.step (limit : Nat) (d : Daemon) : Event → Except PyError Daemon
  | .turn it written =>
    let health := iterate d.health it
    match saveHealth health with
    | .ok encoded => .ok ⟨health, if written then some encoded else d.file⟩
    | .error (.raised e) => .error e
    | .error _ => .ok ⟨health, d.file⟩
  | .restart => do return ⟨← startHealth limit d.file, d.file⟩

def Daemon.run (limit : Nat) (d : Daemon) (events : List Event) : Except PyError Daemon := events.foldlM (step limit) d

private theorem healthLayout_proper : healthLayout.Proper := ⟨⟨[], rfl, by simp⟩, ⟨[], rfl, by simp⟩⟩

private theorem joined_identifier {t : Text} (h : isIdentifier t = true) : Joined t := by
  have hsmall : ∀ c ∈ t, c < 128 := by
    cases t with
    | nil => simp
    | cons c cs =>
      simp only [isIdentifier, isLetter, Bool.and_eq_true, List.all_eq_true, Bool.or_eq_true, decide_eq_true_eq] at h
      intro d hd
      rcases List.mem_cons.1 hd with rfl | hd
      · omega
      · have hdigit := h.2 d hd
        omega
  refine ⟨fun c hc => Nat.lt_trans (hsmall c hc) (by omega), ?_⟩
  have hapart : t.Pairwise fun high low => ¬(JsonText.isHigh high ∧ JsonText.isLow low) := by
    refine List.pairwise_of_forall_mem_list fun high hhigh _ _ hpair => ?_
    have hlt := hsmall high hhigh
    have hle := hpair.1.1
    omega
  exact hapart.isChain

private theorem writable_text {s : String} {v : Value} (h : isText s v = true) : Writable 0 v := by
  unfold isText at h
  split at h
  · rw [of_decide_eq_true h]
    exact .str (JsonText.joined_textOf s)
  · cases h

private theorem writable_null {v : Value} (h : isNull v = true) : Writable 0 v := by
  unfold isNull at h
  split at h
  · exact .null
  · cases h

private theorem writable_count {v : Value} (h : isCount v = true) : Writable 0 v := by
  unfold isCount at h
  split at h
  · exact .null
  · exact .int _
  · cases h

private theorem writable_flag {v : Value} (h : isFlag v = true) : Writable 0 v := by
  unfold isFlag at h
  split at h
  · exact .null
  · exact .bool _
  · cases h

private theorem writable_category {v : Value} (h : isCategory v = true) : Writable 0 v := by
  unfold isCategory at h
  split at h
  · exact .null
  · rw [Bool.and_eq_true] at h
    exact .str (joined_identifier h.2)
  · cases h

private theorem writable_result {v : Value} (h : isResult v = .ok true) : Writable 0 v := by
  unfold isResult at h
  split at h
  · cases h
  · cases h
  · have hcases := Except.ok.inj h
    simp only [Bool.or_eq_true] at hcases
    rcases hcases with ((h | h) | h) | h
    · exact writable_null h
    · exact writable_text h
    · exact writable_text h
    · exact writable_text h

private theorem nodup_healthKeys : healthKeys.Nodup := by
  refine List.Nodup.map JsonText.textOf_injective ?_
  decide

private theorem Health.keys_items (h : Health) : h.items.keys = healthKeys := by
  obtain ⟨⟩ := h
  rfl

/-- A valid record is written so that it can be read back. -/
private theorem Health.Valid.writable {h : Health} (hvalid : h.Valid) : Writable 1 (.object h.items) := by
  obtain ⟨hversion, hfields⟩ := (Health.valid_iff h).1 hvalid
  obtain ⟨hresult, hcounts, hflag, hcategory, hmessage, -⟩ := (validFields_iff h).1 hfields
  refine .object ?_ (fun m hm => ?_) fun m hm => ?_
  · have hkeys := nodup_healthKeys
    rw [← h.keys_items] at hkeys
    exact hkeys
  · have hkey : m.1 ∈ healthKeys := h.keys_items ▸ List.mem_map_of_mem hm
    obtain ⟨s, -, hs⟩ := List.mem_map.1 hkey
    rw [← hs]
    exact JsonText.joined_textOf s
  · have hvalue : m.2 ∈ [h.version, h.lastAttempt, h.lastSuccess, h.lastResult, h.lastErrorCategory, h.lastErrorMessage,
        h.complete, h.foldersScanned, h.operations] := (List.of_mem_zip hm).2
    simp only [List.mem_cons, List.not_mem_nil, or_false] at hvalue
    rcases hvalue with hv | hv | hv | hv | hv | hv | hv | hv | hv <;> rw [hv]
    · rw [hversion]
      exact .int _
    · exact writable_count (hcounts _ (by simp))
    · exact writable_count (hcounts _ (by simp))
    · exact writable_result hresult
    · exact writable_category hcategory
    · rw [Bool.or_eq_true] at hmessage
      rcases hmessage with h | h
      · exact writable_null h
      · exact writable_text h
    · exact writable_flag hflag
    · exact writable_count (hcounts _ (by simp))
    · exact writable_count (hcounts _ (by simp))

private theorem sorted_of_writable {v : Value} (h : Writable 0 v) : v.sorted = v := by
  cases h <;> rfl

/-- The record in the file has its keys in order. -/
private theorem Health.Valid.arrange {h : Health} (hvalid : h.Valid) :
    healthLayout.arrange (.object h.items) = .object (h.items.insertionSort JsonText.inKeyOrder) := by
  cases hvalid.writable with
  | object hkeys hjoined hvalues =>
    have hscalar : h.items.map (fun m => (m.1, m.2.sorted)) = h.items.map id :=
      List.map_congr_left fun m hm => by rw [sorted_of_writable (hvalues m hm), id]
    show (Value.object h.items).sorted = _
    rw [Value.sorted, JsonText.sortedMembers_eq_map, hscalar, List.map_id]

/-- A dict with the items of a record in another order is the same record. -/
private theorem fieldsOf_of_perm {h : Health} {items : Dict Text Value} (hperm : items.Perm h.items) :
    fieldsOf items = some h ∧ hasVersion items = hasVersion h.items := by
  have hkeys : h.items.keys.Nodup := h.keys_items ▸ nodup_healthKeys
  have hget : ∀ x, items.get? x = Dict.get? h.items x := fun x => Dict.get?_of_perm hperm hkeys x
  have hall : items.keys.all (· ∈ healthKeys) = true := by
    rw [List.all_eq_true]
    intro x hx
    have hmem : x ∈ h.items.keys := ((hperm.map Prod.fst).mem_iff).1 hx
    rw [h.keys_items] at hmem
    exact decide_eq_true hmem
  have hself : h.items.keys.all (· ∈ healthKeys) = true := by
    rw [h.keys_items, List.all_eq_true]
    exact fun x hx => decide_eq_true hx
  have hfields := fieldsOf_items h
  constructor
  · unfold fieldsOf at hfields ⊢
    rw [if_pos hall]
    rw [if_pos hself] at hfields
    simp only [hget]
    exact hfields
  · unfold hasVersion
    rw [hget]

private theorem covers_noReturn {layout : Layout} (hindent : ∀ level, '\r' ∉ layout.newline level)
    (hitem : '\r' ∉ layout.itemSeparator) (hkey : '\r' ∉ layout.keySeparator) : layout.Covers (· ≠ '\r') := by
  refine ⟨fun c hc heq => ?_, fun c hc heq => hitem (heq ▸ hc), fun c hc heq => hkey (heq ▸ hc), fun level c hc heq =>
    ?_⟩
  · rw [heq] at hc
    exact absurd hc.1 (by decide)
  · exact hindent level (heq ▸ hc)

/-- A JSON file is read from its bytes as the value that was written. -/
private theorem read_written {layout : Layout} (hlayout : layout.Proper) (hcovers : layout.Covers (· ≠ '\r'))
    {limit : Nat} {v : Value} (h : Writable limit v) :
    ∃ text, decodeStrict (Utf8.encode (JsonText.dumps layout v ++ ['\n'])) = some text ∧
      JsonText.loads limit (replaceLineEnds text.toList) = .ok (layout.arrange v) := by
  refine ⟨_, decodeStrict_encode _, ?_⟩
  have hlines : replaceLineEnds (JsonText.dumps layout v ++ ['\n']) = JsonText.dumps layout v ++ ['\n'] := by
    refine replaceLineEnds_of_notMem fun hmem => ?_
    rcases List.mem_append.1 hmem with hmem | hmem
    · exact hcovers.dumps h _ hmem rfl
    · simp at hmem
  have hspace : ∀ c ∈ ['\n'], JsonText.isSpace c = true := by
    simp only [List.mem_singleton, forall_eq]
    decide
  rw [String.toList_ofList, hlines]
  exact JsonText.loads_dumps hlayout h ['\n'] hspace

/-- A record that is saved is valid, and the one that a new start finds. -/
private theorem startHealth_saveHealth {limit : Nat} (hlimit : 1 ≤ limit) {h : Health} {encoded : List UInt8}
    (hsaved : saveHealth h = .ok encoded) : startHealth limit (some encoded) = .ok h := by
  unfold saveHealth at hsaved
  split at hsaved
  · cases hsaved
  · cases hsaved
  rename_i hvalid
  dsimp only at hsaved
  split at hsaved
  · cases hsaved
  rename_i hsize
  cases hsaved
  have hwritable : Writable limit (.object h.items) := (Health.Valid.writable hvalid).mono hlimit
  have hcovers : healthLayout.Covers (· ≠ '\r') :=
    covers_noReturn (fun level => by simp [healthLayout, Layout.newline]) (by decide) (by decide)
  obtain ⟨text, htext, hloads⟩ := read_written healthLayout_proper hcovers hwritable
  rw [Health.Valid.arrange hvalid] at hloads
  obtain ⟨hfields, hversion⟩ := fieldsOf_of_perm (h.items.perm_insertionSort JsonText.inKeyOrder)
  -- the record with its keys in order passes the validator too
  have hsorted : validHealth (.object (h.items.insertionSort JsonText.inKeyOrder)) = .ok true := by
    have hself := fieldsOf_items h
    unfold validHealth at hvalid ⊢
    dsimp only at hvalid ⊢
    rw [hversion, hfields]
    rw [hself] at hvalid
    exact hvalid
  unfold startHealth loadTrackerHealth
  dsimp only
  rw [if_neg hsize, htext]
  dsimp only
  unfold parseHealth
  rw [hloads]
  dsimp only
  rw [hsorted]
  show Except.ok ((fieldsOf _).getD emptyHealth) = _
  rw [hfields]
  rfl

/-! ### New starts -/

/-- The last success of a record is not after that of another. -/
def NotAfter (h h' : Health) : Prop :=
  ∀ success, h.lastSuccess = .int success → ∃ later, h'.lastSuccess = .int later ∧ success ≤ later

private theorem NotAfter.refl (h : Health) : NotAfter h h := fun success hs => ⟨success, hs, Int.le_refl _⟩

private theorem NotAfter.trans {h h' h'' : Health} (hfirst : NotAfter h h') (hsecond : NotAfter h' h'') :
    NotAfter h h'' := by
  intro success hs
  obtain ⟨later, hlater, hle⟩ := hfirst success hs
  obtain ⟨last, hlast, hle'⟩ := hsecond later hlater
  exact ⟨last, hlast, Int.le_trans hle hle'⟩

private theorem version_of_fieldsOf {items : Dict Text Value} {h : Health} (hfields : fieldsOf items = some h) :
    items.get? (textOf "version") = some h.version := by
  unfold fieldsOf at hfields
  split at hfields
  · cases hversion : items.get? (textOf "version") with
    | none =>
      rw [hversion] at hfields
      cases hfields
    | some version =>
      simp only [hversion, Option.bind_eq_bind, Option.bind_some, Option.bind_eq_some_iff, Option.pure_def,
        Option.some.injEq] at hfields
      obtain ⟨_, -, _, -, _, -, _, -, _, -, _, -, _, -, _, -, rfl⟩ := hfields
      rfl
  · cases hfields

private theorem valid_of_validHealth {payload : Value} (h : validHealth payload = .ok true) :
    ∃ items record, payload = .object items ∧ fieldsOf items = some record ∧ record.Valid := by
  unfold validHealth at h
  split at h
  · rename_i items
    split at h
    · rename_i hversion
      split at h
      · rename_i record hfields
        refine ⟨items, record, rfl, hfields, (Health.valid_iff record).2 ⟨?_, h⟩⟩
        unfold hasVersion at hversion
        rw [version_of_fieldsOf hfields] at hversion
        split at hversion
        · rename_i n heq
          rw [Option.some.inj heq, of_decide_eq_true hversion]
        · cases hversion
      · cases h
    · cases h
  · cases h

private theorem valid_of_parseHealth {limit : Nat} {text : List Char} {payload : Value}
    (h : parseHealth limit text = .ok (some payload)) : validHealth payload = .ok true := by
  unfold parseHealth at h
  split at h
  · cases h
  · cases h
  · rename_i loaded _
    obtain ⟨valid, hvalid, h⟩ := bind_eq_ok.1 h
    cases valid with
    | false => cases h
    | true =>
      cases h
      exact hvalid

/-- A new start begins with a valid record. -/
private theorem startHealth_valid {limit : Nat} {file : Option (List UInt8)} {h : Health}
    (hstart : startHealth limit file = .ok h) :
    h.Valid := by
  obtain ⟨loaded, hload, hstart⟩ := bind_eq_ok.1 hstart
  cases loaded with
  | none =>
    cases hstart
    exact emptyHealth_valid
  | some payload =>
    have hvalid : validHealth payload = .ok true := by
      unfold loadTrackerHealth at hload
      split at hload
      · cases hload
      · split at hload
        · cases hload
        · split at hload
          · cases hload
          · exact valid_of_parseHealth hload
    obtain ⟨items, record, rfl, hfields, hrecord⟩ := valid_of_validHealth hvalid
    dsimp only at hstart
    rw [hfields] at hstart
    cases hstart
    exact hrecord

/-- The next start of a tracker goes on with a record that is not after its own. -/
structure Daemon.Resumes (limit : Nat) (d : Daemon) (record : Health) : Prop where
  valid : d.health.Valid
  start : startHealth limit d.file = .ok record
  notAfter : NotAfter record d.health

def Event.Timed : Event → Prop
  | .turn it _ => 0 ≤ it.clock
  | .restart => True

private theorem notAfter_iterate (h : Health) (it : Iteration) :
    NotAfter h (iterate h it) := fun _ hs => iterate_success hs it

private theorem saveHealth_of_valid {h : Health} (hvalid : h.Valid) :
    saveHealth h = .error .tooLarge ∨ ∃ encoded, saveHealth h = .ok encoded := by
  unfold saveHealth
  rw [hvalid]
  dsimp only
  split
  · exact .inl rfl
  · exact .inr ⟨_, rfl⟩

private theorem Daemon.Resumes.step {limit : Nat} (hlimit : 1 ≤ limit) {d : Daemon} {record : Health}
    (h : d.Resumes limit record) {e : Event} (he : e.Timed) :
    ∃ d' record', d.step limit e = .ok d' ∧ d'.Resumes limit record' ∧ NotAfter record record' := by
  cases e with
  | turn it written =>
    have hvalid := iterate_valid h.valid he
    have hnext : NotAfter record (iterate d.health it) := h.notAfter.trans (notAfter_iterate d.health it)
    unfold Daemon.step
    dsimp only
    rcases saveHealth_of_valid hvalid with hsave | ⟨encoded, hsave⟩
    · rw [hsave]
      exact ⟨_, record, rfl, ⟨hvalid, h.start, hnext⟩, NotAfter.refl record⟩
    · rw [hsave]
      cases written with
      | false => exact ⟨_, record, rfl, ⟨hvalid, h.start, hnext⟩, NotAfter.refl record⟩
      | true => exact ⟨_, _, rfl, ⟨hvalid, startHealth_saveHealth hlimit hsave, NotAfter.refl _⟩, hnext⟩
  | restart =>
    refine ⟨⟨record, d.file⟩, record, ?_, ⟨startHealth_valid h.start, h.start, NotAfter.refl record⟩,
      NotAfter.refl record⟩
    unfold Daemon.step
    dsimp only
    rw [h.start]
    rfl

private theorem Daemon.Resumes.run {limit : Nat} (hlimit : 1 ≤ limit) {events : List Event}
    (htimed : ∀ e ∈ events, e.Timed) {d : Daemon} {record : Health} (h : d.Resumes limit record) :
    ∃ d' record', d.run limit events = .ok d' ∧ d'.Resumes limit record' ∧ NotAfter record record' := by
  induction events generalizing d record with
  | nil => exact ⟨d, record, rfl, h, NotAfter.refl record⟩
  | cons e events ih =>
    obtain ⟨d', record', hstep, h', hafter⟩ := h.step hlimit (htimed e (List.mem_cons_self ..))
    obtain ⟨d'', record'', hrun, h'', hafter'⟩ := ih (fun e' he' => htimed e' (List.mem_cons_of_mem _ he')) h'
    refine ⟨d'', record'', ?_, h'', hafter.trans hafter'⟩
    unfold Daemon.run at hrun ⊢
    rw [List.foldlM_cons, hstep]
    exact hrun

/-- After any turns and new starts the tracker has a valid record, and its file holds one that the next start goes on
with: the last success in the file never goes back, and is never after that of the tracker.  A record that gets into the
file is the one that the next start finds. -/
theorem restarts_resume {limit : Nat} (hlimit : 1 ≤ limit) {file : Option (List UInt8)} {h : Health}
    (hstart : startHealth limit file = .ok h) (earlier later : List Event) (htimed : ∀ e ∈ earlier ++ later, e.Timed) :
    ∃ d record d' record', Daemon.run limit ⟨h, file⟩ earlier = .ok d ∧
      Daemon.run limit ⟨h, file⟩ (earlier ++ later) = .ok d' ∧ d'.health.Valid ∧
      startHealth limit d.file = .ok record ∧ startHealth limit d'.file = .ok record' ∧ NotAfter record record' ∧
      NotAfter record' d'.health ∧ ∀ it encoded, saveHealth (iterate d'.health it) = .ok encoded →
        d'.step limit (.turn it true) = .ok ⟨iterate d'.health it, some encoded⟩ ∧
          startHealth limit (some encoded) = .ok (iterate d'.health it) := by
  have hfirst : Daemon.Resumes limit ⟨h, file⟩ h := ⟨startHealth_valid hstart, hstart, NotAfter.refl h⟩
  obtain ⟨d, record, hrun, hd, -⟩ := hfirst.run hlimit fun e he => htimed e (List.mem_append_left _ he)
  obtain ⟨d', record', hrun', hd', hafter⟩ := hd.run hlimit fun e he => htimed e (List.mem_append_right _ he)
  have hboth : Daemon.run limit ⟨h, file⟩ (earlier ++ later) = .ok d' := by
    unfold Daemon.run at hrun hrun' ⊢
    rw [List.foldlM_append, hrun]
    exact hrun'
  refine ⟨d, record, d', record', hrun, hboth, hd'.valid, hd.start, hd'.start, hafter, hd'.notAfter, ?_⟩
  intro it encoded hsaved
  refine ⟨?_, startHealth_saveHealth hlimit hsaved⟩
  unfold Daemon.step
  dsimp only
  rw [hsaved]
  rfl

/-- A success that gets into the file, a new start, and a turn that fails before its record is written. -/
theorem restarts_resume_sample : ∃ d record d' record',
    Daemon.run 1 ⟨emptyHealth, none⟩ [.turn ⟨9 / 2, .returned true 1 2⟩ true, .restart] = .ok d ∧
      Daemon.run 1 ⟨emptyHealth, none⟩
        ([.turn ⟨9 / 2, .returned true 1 2⟩ true, .restart] ++ [.turn ⟨3, .raised "TimeoutError"⟩ false]) = .ok d' ∧
      d'.health.Valid ∧ startHealth 1 d.file = .ok record ∧ startHealth 1 d'.file = .ok record' ∧
      NotAfter record record' ∧ NotAfter record' d'.health ∧ ∀ it encoded,
        saveHealth (iterate d'.health it) = .ok encoded →
          d'.step 1 (.turn it true) = .ok ⟨iterate d'.health it, some encoded⟩ ∧
            startHealth 1 (some encoded) = .ok (iterate d'.health it) := by
  have hclock : (0 : Rat) ≤ 9 / 2 := by norm_num
  have hclock' : (0 : Rat) ≤ 3 := by norm_num
  refine restarts_resume (Nat.le_refl 1) rfl _ _ ?_
  simp only [List.cons_append, List.nil_append, List.forall_mem_cons]
  exact ⟨hclock, trivial, hclock', by simp⟩

/-! ### The state file -/

def stateLayout : Layout := ⟨some 2, [','], [':', ' '], true⟩

def optionalText : Option String → Value
  | none => .null
  | some s => .str (textOf s)

def fileFields (file : TrackedFile) : Dict Text Value :=
  [(textOf "source_version", .str (textOf file.sourceVersion)), (textOf "path", optionalText file.path),
    (textOf "file_format", optionalText file.fileFormat), (textOf "content_hash", optionalText file.contentHash)]

def fileValue (file : TrackedFile) : Value := .object (fileFields file)

def filesValue (files : Dict String TrackedFile) : Value :=
  .object (files.map fun item => (textOf item.1, fileValue item.2))

def stateValue (state : SavedState) : Value := .object (state.map fun item => (textOf item.1, filesValue item.2))

/-- `_save_state`: the bytes that it writes. -/
def saveState (state : SavedState) : List UInt8 :=
  Utf8.encode (JsonText.dumps stateLayout (stateValue state) ++ ['\n'])

/-- What `_load_state` raises; a text with a lone surrogate, which is no string here, is outside the model. -/
inductive StateError
  | unicodeDecodeError
  | recursionError
  | loneSurrogate
  deriving DecidableEq

def stringOf (t : Text) : Except StateError String :=
  if t.all fun c => Nat.isValidChar c then .ok (String.ofList (t.map Char.ofNat)) else .error .loneSurrogate

/-- `value if isinstance(value, str) else None`. -/
def optionalString : Option Value → Except StateError (Option String)
  | some (.str t) => do return some (← stringOf t)
  | _ => .ok none

/-- The file for a value, or none if it is skipped. -/
def loadFile : Value → Except StateError (Option TrackedFile)
  | .str version => do return some ⟨← stringOf version, none, none, none⟩
  | .object fields =>
    match Dict.get? fields (textOf "source_version") with
    | some (.str version) => do
      return some ⟨← stringOf version, ← optionalString (Dict.get? fields (textOf "path")),
        ← optionalString (Dict.get? fields (textOf "file_format")),
        ← optionalString (Dict.get? fields (textOf "content_hash"))⟩
    | _ => .ok none
  | _ => .ok none

def loadFiles (files : Dict Text Value) : Except StateError (Dict String TrackedFile) :=
  files.foldlM (fun tracked item => do
    match ← loadFile item.2 with
    | none => return tracked
    | some file => return Dict.set tracked (← stringOf item.1) file) []

def loadPrefixes (payload : Dict Text Value) : Except StateError SavedState :=
  payload.foldlM (fun (state : SavedState) item => do
    match item.2 with
    | .object files => return Dict.set state (← stringOf item.1) (← loadFiles files)
    | _ => return state) []

/-- `_load_state` of a file with some bytes, or of none that can be opened. -/
def loadState (limit : Nat) (content : Option (List UInt8)) : Except StateError SavedState :=
  match content with
  | none => .ok []
  | some raw =>
    match decodeStrict raw with
    | none => .error .unicodeDecodeError
    | some text =>
      match JsonText.loads limit (replaceLineEnds text.toList) with
      | .error .decode => .ok []
      | .error .recursion => .error .recursionError
      | .ok (.object payload) => loadPrefixes payload
      | .ok _ => .ok []

/-- Two keys in the order of the file. -/
def inTextOrder {ν : Type} (item item' : String × ν) : Prop := textOf item.1 ≤ textOf item'.1

instance {ν : Type} : DecidableRel (@inTextOrder ν) :=
  fun item item' => inferInstanceAs (Decidable (textOf item.1 ≤ textOf item'.1))

/-- The state in the order of its file. -/
def SavedState.arranged (state : SavedState) : SavedState :=
  (state.map fun item => (item.1, item.2.insertionSort inTextOrder)).insertionSort inTextOrder

/-- No prefix of a state and no key of a prefix is there twice. -/
structure SavedState.Proper (state : SavedState) : Prop where
  prefixes : state.keys.Nodup
  files : ∀ item ∈ state, item.2.keys.Nodup

private theorem stringOf_textOf (s : String) : stringOf (textOf s) = .ok s := by
  have hall : (textOf s).all (fun c => Nat.isValidChar c) = true := by
    rw [List.all_eq_true]
    intro c hc
    obtain ⟨d, -, rfl⟩ := List.mem_map.1 hc
    exact decide_eq_true d.valid
  unfold stringOf
  rw [if_pos hall]
  have hchars : (textOf s).map Char.ofNat = s.toList := by
    unfold textOf
    rw [List.map_map]
    exact (List.map_congr_left fun c _ => Char.ofNat_toNat c).trans (List.map_id _)
  rw [hchars, String.ofList_toList]

private theorem optionalString_optionalText (s : Option String) : optionalString (some (optionalText s)) = .ok s := by
  cases s with
  | none => rfl
  | some s =>
    unfold optionalText optionalString
    dsimp only
    rw [stringOf_textOf]
    rfl

private theorem nodup_fileFields (file : TrackedFile) : (fileFields file).keys.Nodup := by
  have hnames : ["source_version", "path", "file_format", "content_hash"].Nodup := by decide
  show (["source_version", "path", "file_format", "content_hash"].map textOf).Nodup
  exact List.Nodup.map JsonText.textOf_injective hnames

/-- A file is loaded from its fields in any order. -/
private theorem loadFile_sorted (file : TrackedFile) : loadFile (fileValue file).sorted = .ok (some file) := by
  have hscalar : ∀ s, (optionalText s).sorted = optionalText s := by
    intro s
    cases s <;> rfl
  have hsorted : (fileValue file).sorted = .object ((fileFields file).insertionSort JsonText.inKeyOrder) := by
    unfold fileValue fileFields
    rw [Value.sorted]
    simp only [JsonText.sortedMembers, hscalar]
    rfl
  have hget : ∀ x, Dict.get? ((fileFields file).insertionSort JsonText.inKeyOrder) x = (fileFields file).get? x :=
    fun x => Dict.get?_of_perm ((fileFields file).perm_insertionSort JsonText.inKeyOrder) (nodup_fileFields file) x
  have hversion : (fileFields file).get? (textOf "source_version") = some (.str (textOf file.sourceVersion)) := rfl
  have hpath : (fileFields file).get? (textOf "path") = some (optionalText file.path) := rfl
  have hformat : (fileFields file).get? (textOf "file_format") = some (optionalText file.fileFormat) := rfl
  have hhash : (fileFields file).get? (textOf "content_hash") = some (optionalText file.contentHash) := rfl
  rw [hsorted]
  unfold loadFile
  simp only [hget, hversion, hpath, hformat, hhash, stringOf_textOf, optionalString_optionalText]
  rfl

/-- The values of a dict in the order of their keys. -/
private theorem sortedMembers_insertionSort {ν : Type} (value : ν → Value) (items : List (String × ν)) :
    (JsonText.sortedMembers (items.map fun item => (textOf item.1, value item.2))).insertionSort JsonText.inKeyOrder =
      (items.insertionSort inTextOrder).map fun item => (textOf item.1, (value item.2).sorted) := by
  rw [JsonText.sortedMembers_eq_map, List.map_map]
  have hmap := List.map_insertionSort (r := inTextOrder) (s := JsonText.inKeyOrder)
    (fun item : String × ν => (textOf item.1, (value item.2).sorted)) items fun _ _ _ _ => Iff.rfl
  exact hmap.symm

private theorem loadFiles_append (items files : Dict String TrackedFile) (h : (Dict.keys (files ++ items)).Nodup) :
    List.foldlM (fun tracked (item : Text × Value) => do
      match ← loadFile item.2 with
      | none => return tracked
      | some file => return Dict.set tracked (← stringOf item.1) file) files
        (items.map fun item => (textOf item.1, (fileValue item.2).sorted)) =
        (.ok (files ++ items) : Except StateError _) := by
  induction items generalizing files with
  | nil => simp [pure, Except.pure]
  | cons item items ih =>
    have hnew : item.1 ∉ files.keys := by
      intro hmem
      rw [Dict.keys, List.map_append, List.map_cons, List.nodup_append] at h
      exact h.2.2 _ hmem _ (List.mem_cons_self ..) rfl
    rw [List.map_cons, List.foldlM_cons, loadFile_sorted, stringOf_textOf]
    show List.foldlM _ (Dict.set files item.1 item.2) _ = _
    rw [Dict.set_of_notMem hnew, ih _ (by simpa using h)]
    simp

/-- The files of a prefix, in the order of the file. -/
private theorem loadFiles_sorted {files : Dict String TrackedFile} (h : files.keys.Nodup) :
    ∃ fields, (filesValue files).sorted = .object fields ∧
      loadFiles fields = .ok (files.insertionSort inTextOrder) := by
  refine ⟨_, ?_, loadFiles_append (files.insertionSort inTextOrder) [] ?_⟩
  · unfold filesValue
    rw [Value.sorted, sortedMembers_insertionSort]
  · rw [List.nil_append]
    exact (((files.perm_insertionSort inTextOrder).map Prod.fst).nodup_iff).2 h

private theorem loadPrefixes_append (items state : SavedState) (h : (Dict.keys (state ++ items)).Nodup)
    (hfiles : ∀ item ∈ items, item.2.keys.Nodup) :
    List.foldlM (fun (state : SavedState) (item : Text × Value) => do
      match item.2 with
      | .object files => return Dict.set state (← stringOf item.1) (← loadFiles files)
      | _ => return state) state (items.map fun item => (textOf item.1, (filesValue item.2).sorted)) =
        (.ok (state ++ items.map fun item => (item.1, item.2.insertionSort inTextOrder)) : Except StateError _) := by
  induction items generalizing state with
  | nil => simp [pure, Except.pure]
  | cons item items ih =>
    have hnew : item.1 ∉ state.keys := by
      intro hmem
      rw [Dict.keys, List.map_append, List.map_cons, List.nodup_append] at h
      exact h.2.2 _ hmem _ (List.mem_cons_self ..) rfl
    obtain ⟨fields, hfields, hload⟩ := loadFiles_sorted (hfiles item (List.mem_cons_self ..))
    have hrest := ih (state ++ [(item.1, item.2.insertionSort inTextOrder)]) (by simpa [Dict.keys] using h)
      fun item' hitem' => hfiles item' (List.mem_cons_of_mem _ hitem')
    rw [List.map_cons, List.foldlM_cons, hfields, stringOf_textOf]
    dsimp only
    rw [hload]
    show List.foldlM _ (Dict.set state item.1 _) _ = _
    rw [Dict.set_of_notMem hnew, hrest]
    simp

private theorem stateValue_writable {state : SavedState} (h : state.Proper) : Writable 3 (stateValue state) := by
  have hoptional : ∀ s, Writable 0 (optionalText s) := by
    intro s
    cases s with
    | none => exact .null
    | some s => exact .str (JsonText.joined_textOf s)
  have hfile : ∀ file : TrackedFile, Writable 1 (fileValue file) := by
    intro file
    refine .object (nodup_fileFields file) ?_ ?_
    · unfold fileFields
      simp only [List.forall_mem_cons]
      exact ⟨JsonText.joined_textOf _, JsonText.joined_textOf _, JsonText.joined_textOf _,
        JsonText.joined_textOf _, by simp⟩
    · unfold fileFields
      simp only [List.forall_mem_cons]
      exact ⟨.str (JsonText.joined_textOf _), hoptional _, hoptional _, hoptional _, by simp⟩
  have hkeys : ∀ {ν : Type} (items : List (String × ν)) (value : ν → Value), (items.map Prod.fst).Nodup →
      ((items.map fun item => (textOf item.1, value item.2)).map Prod.fst).Nodup := by
    intro ν items value hnodup
    rw [List.map_map]
    have hmapped := List.Nodup.map JsonText.textOf_injective hnodup
    rw [List.map_map] at hmapped
    exact hmapped
  refine .object (hkeys state filesValue h.prefixes) (fun m hm => ?_) fun m hm => ?_
  · obtain ⟨item, -, rfl⟩ := List.mem_map.1 hm
    exact JsonText.joined_textOf _
  · obtain ⟨item, hitem, rfl⟩ := List.mem_map.1 hm
    refine .object (hkeys item.2 fileValue (h.files item hitem)) (fun m hm => ?_) fun m hm => ?_
    · obtain ⟨file, -, rfl⟩ := List.mem_map.1 hm
      exact JsonText.joined_textOf _
    · obtain ⟨file, -, rfl⟩ := List.mem_map.1 hm
      exact hfile _

private theorem stateLayout_proper :
    stateLayout.Proper := ⟨⟨[], rfl, by simp⟩, ⟨[' '], rfl, by simp [JsonText.isSpace]⟩⟩

/-- The state that a run saves is the one that the next run loads, with its prefixes and keys in the order of the
file. -/
theorem loadState_saveState {limit : Nat} (hlimit : 3 ≤ limit) {state : SavedState} (h : state.Proper) :
    loadState limit (some (saveState state)) = .ok state.arranged := by
  have hwritable := (stateValue_writable h).mono hlimit
  have hcovers : stateLayout.Covers (· ≠ '\r') :=
    covers_noReturn (fun level => by simp [stateLayout, Layout.newline]) (by decide) (by decide)
  obtain ⟨text, htext, hloads⟩ := read_written stateLayout_proper hcovers hwritable
  have harrange : stateLayout.arrange (stateValue state) =
      .object ((state.insertionSort inTextOrder).map fun item => (textOf item.1, (filesValue item.2).sorted)) := by
    show (stateValue state).sorted = _
    unfold stateValue
    rw [Value.sorted, sortedMembers_insertionSort]
  have hperm := state.perm_insertionSort inTextOrder
  have hload := loadPrefixes_append (state.insertionSort inTextOrder) []
    (by rw [List.nil_append]; exact ((hperm.map Prod.fst).nodup_iff).2 h.prefixes)
    fun item hitem => h.files item (hperm.mem_iff.1 hitem)
  unfold loadState saveState
  dsimp only
  rw [htext]
  dsimp only
  rw [hloads, harrange]
  dsimp only
  unfold loadPrefixes
  rw [hload]
  unfold SavedState.arranged
  rw [List.nil_append, List.map_insertionSort (r := inTextOrder) (s := inTextOrder)]
  exact fun _ _ _ _ => Iff.rfl

end Tracker

end Ctxd

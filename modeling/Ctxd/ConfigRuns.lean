import Ctxd.ConfigFile

/-!
# Commands that run at the same time

In every run of commands in which a command replaces `config.json` only while it is as the command has loaded it, the
configuration, the proof and the results are those of the commands one after the other; two commands that take the lock
never meet another file (`config_updates_hold`).  `add_folder` and `save_ctxfs_endpoint` take no lock, and one undoes
what the other has saved (`config_update_lost`).
-/

namespace Ctxd

open SharedFile

inductive ConfigCommand
  | addFolder (folder : FolderPath) (name : Option String) (uuid : String)
  | removeFolder (name : String)
  | saveCtxfsEndpoint (endpoint : String)
  | loadOrCreateMachineIdentity (ids : Installation.Identifiers) (defaultName : String)
  | configureMachine (ids : Installation.Identifiers) (defaultName : String) (name : Option String)
      (description : Option (Option String))

namespace ConfigCommand

/-- The command takes the lock. -/
def isLocked : ConfigCommand → Bool
  | .loadOrCreateMachineIdentity .. | .configureMachine .. => true
  | _ => false

def program (normalize : String → Except ConfigError String) : ConfigCommand → ConfigProgram ConfigResult
  | .addFolder folder name uuid => Ctxd.addFolder folder name uuid
  | .removeFolder name => Ctxd.removeFolder name
  | .saveCtxfsEndpoint endpoint => Ctxd.saveCtxfsEndpoint normalize endpoint
  | .loadOrCreateMachineIdentity ids defaultName => Ctxd.loadOrCreateMachineIdentity ids defaultName
  | .configureMachine ids defaultName name description => Ctxd.configureMachine ids defaultName name description

end ConfigCommand

/-! ### The part of the identity -/

/-- `config["machine"]`, which only the commands with the lock write. -/
def machinePart : SharedFile.Part ConfigFile Config Json where
  view file := (loadConfigStrict file).toOption
  file := .config
  put c m := Config.set c "machine" m
  view_file _ := rfl
  put_put _ _ _ := Function.update_idem ..

private theorem loadConfigStrict_of_view {file : ConfigFile} {c : Config} (h : machinePart.view file = some c) :
    loadConfigStrict file = .ok c := by
  have hview : (loadConfigStrict file).toOption = some c := h
  cases hstrict : loadConfigStrict file with
  | ok c' =>
    rw [hstrict] at hview
    cases hview
    rfl
  | error e =>
    rw [hstrict] at hview
    cases hview

private theorem loadConfig_of_view {file : ConfigFile} {c : Config} (h : machinePart.view file = some c) :
    loadConfig file = .ok c := by
  have hstrict := loadConfigStrict_of_view h
  cases file with
  | absent => exact hstrict
  | unreadable | undecodable | malformed | foreign => cases hstrict
  | config c' => exact hstrict

/-- An update that reads and writes other keys. -/
def SparesMachine (update : Config → Except ConfigError (Config × ConfigOutcome)) : Prop :=
  ∀ c m, update (Config.set c "machine" m) = (update c).map fun p => (Config.set p.1 "machine" m, p.2)

/-- What is saved, and the result. -/
def savedBy : Except ConfigError (Config × ConfigOutcome) → Option Config × ConfigResult
  | .ok (c, outcome) => (some c, .ok outcome)
  | .error e => (none, .error e)

private theorem updateConfig_eq (update : Config → Except ConfigError (Config × ConfigOutcome)) :
    updateConfig update = machinePart.edit fun file => savedBy (loadConfig file >>= update) := by
  unfold updateConfig SharedFile.Part.edit
  congr 1
  funext file
  dsimp only
  cases loadConfig file >>= update with
  | ok p => rfl
  | error e => rfl

private theorem SparesMachine.fits {update : Config → Except ConfigError (Config × ConfigOutcome)}
    (h : SparesMachine update) :
    machinePart.Fits (updateConfig update) := by
  rw [updateConfig_eq]
  refine .edit fun file c m hview => ?_
  have hfile : loadConfig (machinePart.file (machinePart.put c m)) = .ok (Config.set c "machine" m) := rfl
  rw [hfile, loadConfig_of_view hview]
  show savedBy (update (Config.set c "machine" m)) =
    ((savedBy (update c)).1.map (machinePart.put · m), (savedBy (update c)).2)
  rw [h c m]
  cases update c with
  | ok p => rfl
  | error e => rfl

private theorem set_of_ne (c : Config) {key : String} (hkey : key ≠ "machine") (value m : Json) :
    Config.set (Config.set c "machine" m) key value = Config.set (Config.set c key value) "machine" m :=
  Function.update_comm hkey.symm _ _ _

private theorem foldersFromConfig_set (c : Config) (m : Json) :
    foldersFromConfig (Config.set c "machine" m) = foldersFromConfig c := by
  unfold foldersFromConfig Config.set
  rw [Function.update_of_ne (by decide)]

private theorem insertFolder_spares (folder : FolderConfig) : SparesMachine (insertFolder folder) := by
  intro c m
  unfold insertFolder
  rw [foldersFromConfig_set]
  cases foldersFromConfig c with
  | error e => rfl
  | ok folders =>
    show (if folders.contains folder.name then _ else _) = Except.map _ (if folders.contains folder.name then _ else _)
    split
    · rfl
    · show Except.ok _ = Except.ok _
      rw [set_of_ne c (by decide)]

private theorem popFolder_spares (name : String) : SparesMachine (popFolder name) := by
  intro c m
  unfold popFolder
  rw [foldersFromConfig_set]
  cases foldersFromConfig c with
  | error e => rfl
  | ok folders =>
    dsimp only [bind, Except.bind]
    cases folders.get? name with
    | none => rfl
    | some removed =>
      show Except.ok _ = Except.ok _
      rw [set_of_ne c (by decide)]

private theorem setEndpoint_spares (endpoint : String) : SparesMachine (setEndpoint endpoint) := by
  intro c m
  show Except.ok _ = Except.ok _
  have hpop : Config.pop (Config.set c "machine" m) "ctxfs_socket" =
    Config.set (Config.pop c "ctxfs_socket") "machine" m :=
    Function.update_comm (by decide) _ _ _
  rw [hpop, set_of_ne _ (by decide)]

/-! ### Commands with the lock -/

section

variable {R : Type} {ids : Installation.Identifiers} {defaultName : String}
  {tail : Except ConfigError LocalMachineIdentity → ConfigProgram R}

/-- What goes on from the identity saves only the part of the identity, and only as it has been loaded. -/
structure Follows (tail : Except ConfigError LocalMachineIdentity → ConfigProgram R) : Prop where
  careful : ∀ clean result, Careful clean (tail result)
  will : ∀ result p, ∃ m q r, ∀ c, machinePart.Will p c (tail result) m q r
  /-- An error is raised. -/
  error : ∀ e, ∃ r, tail (.error e) = .release (.done r)

/-- The identity is saved as it has been loaded. -/
private theorem Follows.locked (h : Follows tail) :
    Locked (.acquire ((loadOrCreateUnlocked ids defaultName).bind tail)) := by
  refine .inl ⟨_, rfl, .load fun file => ?_⟩
  unfold settleLoaded
  cases loadConfigStrict file with
  | error e => exact h.careful true _
  | ok c =>
    refine .loadSide fun proof => ?_
    unfold settleProof
    cases proof >>= settleIdentity ids defaultName (c "machine") with
    | error e => exact h.careful true _
    | ok settled =>
      obtain ⟨identity, new⟩ := settled
      cases new with
      | false => exact h.careful true _
      | true => exact .save (.saveSide (h.careful false _))

/-- The identity is the only part that is saved. -/
private theorem Follows.will_settle (h : Follows tail) (c : Config) (p : StoredProof) :
    ∃ m q r, machinePart.Will p c ((settleProof ids defaultName c p).bind tail) m q r := by
  unfold settleProof
  cases p >>= settleIdentity ids defaultName (c "machine") with
  | error e =>
    obtain ⟨m, q, r, hwill⟩ := h.will (.error e) p
    exact ⟨m, q, r, hwill c⟩
  | ok settled =>
    obtain ⟨identity, new⟩ := settled
    cases new with
    | false =>
      obtain ⟨m, q, r, hwill⟩ := h.will (.ok identity) p
      exact ⟨m, q, r, hwill c⟩
    | true =>
      obtain ⟨m, q, r, hwill⟩ := h.will (.ok identity) (.ok (some identity.installationId))
      exact ⟨_, _, r, .save fun c' => .saveSide (hwill c')⟩

private theorem Follows.fits (h : Follows tail) :
    machinePart.Fits (.acquire ((loadOrCreateUnlocked ids defaultName).bind tail)) := by
  refine .locked (fun file hview => ?_) fun file c p hview => ?_
  · have hstrict : (loadConfigStrict file).toOption = none := hview
    show ∃ r, (settleLoaded ids defaultName file).bind tail = _
    unfold settleLoaded
    cases hload : loadConfigStrict file with
    | error e => exact h.error e
    | ok c =>
      rw [hload] at hstrict
      cases hstrict
  · show ∃ m q r, machinePart.Will p c ((settleLoaded ids defaultName file).bind tail) m q r
    unfold settleLoaded
    rw [loadConfigStrict_of_view hview]
    obtain ⟨m, q, r, hwill⟩ := h.will_settle c p
    exact ⟨m, q, r, .loadSide hwill⟩

end

/-- The lock is let go after the body. -/
private theorem withIdentityLock_loadOrCreate {R : Type} (ids : Installation.Identifiers) (defaultName : String)
    (k : Except ConfigError LocalMachineIdentity → ConfigProgram R) :
    withIdentityLock ((loadOrCreateUnlocked ids defaultName).bind k) =
      .acquire ((loadOrCreateUnlocked ids defaultName).bind fun result => (k result).bind fun r =>
        .release (.done r)) := by
  unfold withIdentityLock
  rw [Program.bind_assoc]

private theorem follows_done (f : Except ConfigError LocalMachineIdentity → ConfigResult) :
    Follows fun result => (Program.done (f result) : ConfigProgram ConfigResult).bind fun r => .release (.done r) :=
  ⟨fun _ _ => .release, fun result _ => ⟨none, none, f result, fun _ => .release⟩, fun e => ⟨f (.error e), rfl⟩⟩

private theorem follows_configured (name : Option String) (description : Option (Option String)) :
    Follows fun result => (configured name description result).bind fun r => .release (.done r) := by
  refine ⟨fun clean result => ?_, fun result p => ?_, fun e => ⟨.error e, rfl⟩⟩
  · cases result with
    | error e => exact .release
    | ok identity =>
      unfold configured
      dsimp only
      cases renameIdentity identity name description with
      | error e => exact .release
      | ok updated =>
        refine .load fun file => ?_
        dsimp only
        cases loadConfigStrict file with
        | error e => exact .release
        | ok c => exact .save .release
  · cases result with
    | error e => exact ⟨none, none, .error e, fun _ => .release⟩
    | ok identity =>
      unfold configured
      dsimp only
      cases renameIdentity identity name description with
      | error e => exact ⟨none, none, .error e, fun _ => .release⟩
      | ok updated =>
        refine ⟨some (identityDict updated), none, .ok (.machine updated), fun c => .load fun file c' hview => ?_⟩
        dsimp only
        rw [loadConfigStrict_of_view hview]
        exact .save fun _ => .release

namespace ConfigCommand

variable (normalize : String → Except ConfigError String)

private theorem fits (command : ConfigCommand) : machinePart.Fits (command.program normalize) := by
  cases command with
  | addFolder folder name uuid =>
    show machinePart.Fits (Ctxd.addFolder folder name uuid)
    unfold Ctxd.addFolder
    cases checkFolder folder name with
    | error e => exact .done _
    | ok folderName => exact (insertFolder_spares _).fits
  | removeFolder name => exact (popFolder_spares name).fits
  | saveCtxfsEndpoint endpoint =>
    show machinePart.Fits (Ctxd.saveCtxfsEndpoint normalize endpoint)
    unfold Ctxd.saveCtxfsEndpoint
    cases normalize endpoint with
    | error e => exact .done _
    | ok normalized => exact (setEndpoint_spares normalized).fits
  | loadOrCreateMachineIdentity ids defaultName =>
    show machinePart.Fits (Ctxd.loadOrCreateMachineIdentity ids defaultName)
    unfold Ctxd.loadOrCreateMachineIdentity
    rw [withIdentityLock_loadOrCreate]
    exact (follows_done _).fits
  | configureMachine ids defaultName name description =>
    show machinePart.Fits (Ctxd.configureMachine ids defaultName name description)
    unfold Ctxd.configureMachine
    by_cases hnothing : name = none ∧ description = none
    · rw [if_pos hnothing]
      exact .done _
    · rw [if_neg hnothing, withIdentityLock_loadOrCreate]
      exact (follows_configured name description).fits

private theorem locked {command : ConfigCommand} (h : command.isLocked = true) :
    Locked (command.program normalize) := by
  cases command with
  | addFolder folder name uuid => cases h
  | removeFolder name => cases h
  | saveCtxfsEndpoint endpoint => cases h
  | loadOrCreateMachineIdentity ids defaultName =>
    show Locked (Ctxd.loadOrCreateMachineIdentity ids defaultName)
    unfold Ctxd.loadOrCreateMachineIdentity
    rw [withIdentityLock_loadOrCreate]
    exact (follows_done _).locked
  | configureMachine ids defaultName name description =>
    show Locked (Ctxd.configureMachine ids defaultName name description)
    unfold Ctxd.configureMachine
    by_cases hnothing : name = none ∧ description = none
    · rw [if_pos hnothing]
      exact .inr ⟨_, rfl⟩
    · rw [if_neg hnothing, withIdentityLock_loadOrCreate]
      exact (follows_configured name description).locked

end ConfigCommand

/-! ### Runs -/

section

variable {ι : Type} [DecidableEq ι]

abbrev ConfigState (ι : Type) := SharedFile.State ι ConfigFile StoredProof ConfigResult

/-- The state after some operations of the commands, each in a process of its own. -/
def configRun (normalize : String → Except ConfigError String) (commands : ι → ConfigCommand)
    (files : Files ConfigFile StoredProof) (turns : List ι) : ConfigState ι :=
  (start (fun i => (commands i).program normalize) files).run turns

/-- Every command has ended, and the files and the results are those of the commands one after the other. -/
def OneAfterTheOther (normalize : String → Except ConfigError String) (commands : ι → ConfigCommand)
    (files : Files ConfigFile StoredProof) (turns : List ι) : Prop :=
  Serialized (fun i => (commands i).program normalize) files (configRun normalize commands files turns)

/-- In every run to the end, the configuration has the update of every command, if the file that a command replaces is
always what it has loaded, or if the commands take the lock. -/
theorem config_updates_hold [Fintype ι] (normalize : String → Except ConfigError String) (commands : ι → ConfigCommand)
    (files : Files ConfigFile StoredProof) (turns : List ι)
    (hfinished : (configRun normalize commands files turns).Finished)
    (hundisturbed : (start (fun i => (commands i).program normalize) files).UndisturbedRun turns ∨
      ∀ i, (commands i).isLocked = true) : OneAfterTheOther normalize commands files turns := by
  refine SharedFile.Part.serialized_of_undisturbed (fun i => (commands i).fits normalize) files ?_ hfinished
  rcases hundisturbed with hundisturbed | hlocked
  · exact hundisturbed
  · exact undisturbed_of_locked (fun i => ConfigCommand.locked normalize (hlocked i)) files turns

end

/-! ### A folder and an endpoint -/

/-- One process adds a folder, the other saves an endpoint. -/
def twoCommands : Bool → ConfigCommand
  | true => .addFolder ⟨"/home/user/notes", "notes", true, true⟩ none "00000000-0000-4000-8000-000000000000"
  | false => .saveCtxfsEndpoint "https://one.example"

/-- Nothing is configured. -/
def noFiles : Files ConfigFile StoredProof := ⟨.absent, .ok none⟩

/-- Each process wants the identity of the machine, and would make one of its own. -/
def twoIdentities : Bool → ConfigCommand
  | true => .loadOrCreateMachineIdentity
    ⟨"00000000-0000-4000-8000-000000000001",
      "00000000-0000-4000-8000-000000000002", by decide +kernel, by decide +kernel⟩
    "one"
  | false => .loadOrCreateMachineIdentity
    ⟨"00000000-0000-4000-8000-000000000003",
      "00000000-0000-4000-8000-000000000004", by decide +kernel, by decide +kernel⟩
    "two"

/-- The second process waits for the lock while the first makes the identity. -/
def lockedTurns : List Bool := [true, false, true, true, false, true, true, false, true, false, false, false, false]

theorem config_updates_locked : OneAfterTheOther .ok twoIdentities noFiles lockedTurns := by
  refine config_updates_hold .ok twoIdentities noFiles lockedTurns (fun i => ?_) (.inr fun i => ?_)
  · cases i <;> exact ⟨_, rfl⟩
  · cases i <;> rfl

/-- `config["ctxfs_url"]`. -/
def hasEndpoint (files : Files ConfigFile StoredProof) : Bool :=
  match files.main with
  | .config c => (c "ctxfs_url").isSome
  | _ => false

/-- Both have loaded the empty configuration, and the folder is saved after the endpoint. -/
theorem config_update_lost :
    (configRun .ok twoCommands noFiles [true, false, false, true]).Finished ∧
      ¬OneAfterTheOther .ok twoCommands noFiles [true, false, false, true] := by
  refine ⟨fun i => ?_, ?_⟩
  · cases i <;> exact ⟨_, rfl⟩
  · rintro ⟨order, hnodup, hmem, hfiles, -⟩
    have hlength : order.length = 2 := by
      rw [← List.toFinset_card_of_nodup hnodup, Finset.eq_univ_of_forall fun i => List.mem_toFinset.2 (hmem i)]
      rfl
    have hlost : hasEndpoint (configRun .ok twoCommands noFiles [true, false, false, true]).files = false := by
      decide +kernel
    rw [← hfiles] at hlost
    -- in either order the endpoint is there
    have hkept : ∀ a b : Bool, [a, b].Nodup →
        hasEndpoint (serial (fun i => (twoCommands i).program .ok) noFiles [a, b]).1 = true := by decide +kernel
    obtain ⟨a, b, rfl⟩ := List.length_eq_two.1 hlength
    rw [hkept a b hnodup] at hlost
    cases hlost

end Ctxd

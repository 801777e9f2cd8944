import CereDB.Proofs.StoreReads
import CereDB.Storage.RaftKv2

/-!
# `CereDB.Proofs.RaftApply`: what applying the Raft log does to a replica

A replica is meant to hold the map that the committed commands leave. `KVStateMachine::apply` keeps
track of the last entry (`lastApplied_applyCalls`) and hands no command to the write component
(`store_applyCalls`), although every command can be read back from its entry
(`mapM_deserialize`). So a replica shows the map of the log exactly when it showed that map
before the log was applied (`applied_log_readable_iff`).
-/

set_option autoImplicit false

namespace CereDB.Storage

open CereDB.Lib ReadManager

/-! ### Commands in the log -/

/-- The fields are values of their types: both lengths and the sequence number are 64 bits wide. -/
structure LogCommand.InRange (command : LogCommand) : Prop where
  key : command.key.length < 256 ^ 8
  value : command.value.length < 256 ^ 8
  lsn : command.lsn < 256 ^ 8

namespace LogCommand

theorem decode_serialize {command : LogCommand} (h : command.InRange) :
    Reader.Parses decode command.serialize command := by
  have hkind : Reader.Parses (MemtableRecord.decodeRecordType [command.recordType.toByte]) []
      command.recordType := by
    cases command.recordType <;> exact Reader.Parses.pure _
  have henc : command.serialize = [command.recordType.toByte] ++ ([] ++
      (leBytes 8 command.key.length ++ (command.key ++ (leBytes 8 command.value.length ++
        (command.value ++ (leBytes 8 command.lsn ++ [])))))) := by
    simp only [serialize, List.append_assoc, List.append_nil, List.nil_append]
  rw [henc]
  -- one rule per field, in the order they are written
  refine (Reader.Parses.readExact outOfRange List.length_singleton).bind ?_
  refine hkind.bind ?_
  refine (Reader.Parses.readLe outOfRange h.key).bind ?_
  refine (Reader.Parses.readExact outOfRange rfl).bind ?_
  refine (Reader.Parses.readLe outOfRange h.value).bind ?_
  refine (Reader.Parses.readExact outOfRange rfl).bind ?_
  exact (Reader.Parses.readLe outOfRange h.lsn).bind (Reader.Parses.pure command)

/-- A command is read back from the log. -/
theorem deserialize_serialize {command : LogCommand} (h : command.InRange) :
    deserialize command.serialize = .ok command := by
  have hparse := decode_serialize h []
  rw [List.append_nil] at hparse
  rw [deserialize, hparse]
  rfl

/-- The commands of a log are read back from its payloads. -/
theorem mapM_deserialize {commands : List LogCommand}
    (h : ∀ command ∈ commands, command.InRange) :
    (commands.map serialize).mapM deserialize = .ok commands := by
  induction commands with
  | nil => rfl
  | cons command commands ih =>
    rw [List.map_cons, List.mapM_cons, deserialize_serialize (h command List.mem_cons_self),
      ih fun other hmem => h other (List.mem_cons_of_mem command hmem)]
    rfl

end LogCommand

/-- The bytes of the normal entries, in log order. -/
def normalPayloads (entries : List Entry) : List Bytes :=
  entries.filterMap fun entry =>
    match entry.payload with
    | .normal data => some data
    | .membership _ => none
    | .blank => none

/-! ### The state machine -/

namespace KVStateMachine

theorem store_applyEntry (machine : KVStateMachine) (entry : Entry) :
    (machine.applyEntry entry).store = machine.store := by
  cases entry with
  | mk logId payload => cases payload <;> rfl

theorem lastApplied_applyEntry (machine : KVStateMachine) (entry : Entry) :
    (machine.applyEntry entry).lastApplied = some entry.logId := by
  cases entry with
  | mk logId payload => cases payload <;> rfl

/-- How a log is split into calls makes no difference. -/
theorem applyCalls_eq (machine : KVStateMachine) (calls : List (List Entry)) :
    machine.applyCalls calls = calls.flatten.foldl applyEntry machine := by
  induction calls generalizing machine with
  | nil => rfl
  | cons entries calls ih =>
    rw [List.flatten_cons, List.foldl_append, ← ih]
    rfl

theorem store_applyCalls (machine : KVStateMachine) (calls : List (List Entry)) :
    (machine.applyCalls calls).store = machine.store := by
  rw [applyCalls_eq]
  induction calls.flatten generalizing machine with
  | nil => rfl
  | cons entry entries ih => rw [List.foldl_cons, ih, store_applyEntry]

theorem lastApplied_applyCalls (machine : KVStateMachine) (calls : List (List Entry)) :
    (machine.applyCalls calls).lastApplied
      = (calls.flatten.getLast?.map Entry.logId).or machine.lastApplied := by
  rw [applyCalls_eq]
  induction calls.flatten using List.reverseRecOn with
  | nil => rfl
  | append_singleton entries entry _ =>
    rw [List.foldl_append, List.foldl_cons, List.foldl_nil, lastApplied_applyEntry,
      List.getLast?_concat]
    rfl

end KVStateMachine

/-! ### What a replica shows -/

/-- The reads of a store at a sequence number show a map. -/
def Store.Shows (fastbloom : FastBloom) (store : Store) (sequenceNumber : Nat)
    (map : OrdMap Key Bytes) : Prop :=
  Storage.Shows fastbloom store.files store.component.memtable store.levels sequenceNumber map

/-- A node holds the map of a log and reports its last entry, after the log was applied in calls. -/
structure AgreesWithLog (fastbloom : FastBloom) (node : RaftKv2) (calls : List (List Entry))
    (map : OrdMap Key Bytes) : Prop where
  readable : (node.machine.applyCalls calls).store.Shows fastbloom node.sequenceNumber map
  applied : (node.machine.applyCalls calls).appliedState.1
    = (calls.flatten.getLast?.map Entry.logId).or node.machine.lastApplied

theorem agreesWithLog_iff (fastbloom : FastBloom) (node : RaftKv2) (calls : List (List Entry))
    (map : OrdMap Key Bytes) :
    AgreesWithLog fastbloom node calls map ↔
      node.machine.store.Shows fastbloom node.sequenceNumber map := by
  constructor
  · intro hagrees
    have hreadable := hagrees.readable
    rw [KVStateMachine.store_applyCalls] at hreadable
    exact hreadable
  · intro hshows
    refine ⟨?_, KVStateMachine.lastApplied_applyCalls node.machine calls⟩
    rw [KVStateMachine.store_applyCalls]
    exact hshows

/-- The payloads of a log read back as its commands. A node that applied the log agrees with the
map of these commands exactly when it showed that map already; a node that showed nothing before
agrees with the logs that leave no key. -/
theorem applied_log_readable_iff (fastbloom : FastBloom) (node : RaftKv2)
    (calls : List (List Entry)) (commands : List LogCommand)
    (hrange : ∀ command ∈ commands, command.InRange)
    (hpayloads : normalPayloads calls.flatten = commands.map LogCommand.serialize) :
    (normalPayloads calls.flatten).mapM LogCommand.deserialize = .ok commands ∧
      (AgreesWithLog fastbloom node calls (commandMap commands) ↔
        node.machine.store.Shows fastbloom node.sequenceNumber (commandMap commands)) ∧
      (node.machine.store.Shows fastbloom node.sequenceNumber ∅ →
        (AgreesWithLog fastbloom node calls (commandMap commands) ↔ commandMap commands = ∅)) := by
  rw [hpayloads]
  refine ⟨LogCommand.mapM_deserialize hrange, agreesWithLog_iff fastbloom node calls _, ?_⟩
  intro hempty
  rw [agreesWithLog_iff]
  constructor
  · intro hshows
    exact Storage.Shows.unique hshows hempty
  · intro hmap
    rw [hmap]
    exact hempty

/-- The command of a put under sequence number 1. -/
def committedPut : LogCommand := ⟨.put, [97], [118], 1⟩

/-- The command that deletes the key again. -/
def committedDelete : LogCommand := ⟨.delete, [97], [], 2⟩

/-- A log that holds commands under consecutive indices of one term. -/
def committedLog (commands : List LogCommand) : List Entry :=
  commands.mapIdx fun index command =>
    ⟨⟨⟨1, 1⟩, index + 1⟩, .normal command.serialize⟩

/-- A store without records shows the empty map. -/
theorem Store.shows_empty (fastbloom : FastBloom) (store : Store) (sequenceNumber : Nat)
    (hmemtable : store.component.memtable = ∅) (hlevels : store.levels.byLevel = []) :
    store.Shows fastbloom sequenceNumber ∅ := by
  constructor
  · intro key
    rw [ReadManager.get, hmemtable, hlevels]
    rfl
  · intro range
    rw [ReadManager.scanRange, ReadManager.scanRecordsRange, hmemtable, hlevels]
    rfl

/-- A new node applies a log whose key is deleted again, and agrees with it. -/
theorem applied_log_readable_iff_deleted :
    ∃ node, RaftKv2.opened .default .empty 1 (some 1) = some node ∧
      AgreesWithLog .acceptAll node [committedLog [committedPut, committedDelete]]
        (commandMap [committedPut, committedDelete]) := by
  refine ⟨(RaftKv2.opened .default .empty 1 (some 1)).get (by decide +kernel), by simp, ?_⟩
  have hmap : commandMap [committedPut, committedDelete] = ∅ := by
    apply OrdMap.ext
    intro key
    simp [commandMap, LogCommand.get?_apply, LogCommand.outcome, committedPut, committedDelete]
  refine ((applied_log_readable_iff .acceptAll _ [committedLog [committedPut, committedDelete]]
    [committedPut, committedDelete] ?_ (by decide +kernel)).2.2
      (Store.shows_empty _ _ _ rfl (by decide +kernel))).mpr hmap
  intro command hmem
  rcases List.mem_cons.mp hmem with rfl | hmem
  · exact ⟨by decide, by decide, by decide⟩
  · obtain rfl := List.mem_singleton.mp hmem
    exact ⟨by decide, by decide, by decide⟩

/-- A node that was opened on an empty directory and became the leader shows nothing of a log that
puts a key. -/
theorem applied_put_unreadable :
    ∃ node, RaftKv2.opened .default .empty 1 (some 1) = some node ∧ node.isLeader = true ∧
      normalPayloads [committedLog [committedPut]].flatten
        = [committedPut].map LogCommand.serialize ∧
      RaftKv2.get .acceptAll
          { node with machine := node.machine.applyCalls [committedLog [committedPut]] } [97]
        = .ok none ∧
      (commandMap [committedPut])[([97] : Key)]? = some [118] ∧
      ¬ AgreesWithLog .acceptAll node [committedLog [committedPut]]
        (commandMap [committedPut]) := by
  refine ⟨(RaftKv2.opened .default .empty 1 (some 1)).get (by decide +kernel), by simp,
    by decide +kernel, by decide +kernel, by decide +kernel, by decide +kernel, ?_⟩
  intro hagrees
  have hget := hagrees.readable.get [97]
  rw [show (commandMap [committedPut])[([97] : Key)]? = some [118] by decide +kernel] at hget
  revert hget
  decide +kernel

end CereDB.Storage

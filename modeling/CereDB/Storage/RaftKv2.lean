import CereDB.Storage.Kv2
import CereDB.Storage.RaftLog

/-!
# `CereDB.Storage.RaftKv2`: the Raft-backed engine

`RaftKV2` of `src/storage/kv2.rs` with its state machine (`src/storage/raft/state_machine.rs`) and
the encoding of commands in the Raft log (`src/storage/recovermanager/log_store.rs`).

Consensus is the work of `openraft`: `propose` returns after the command was committed under a log
id that `openraft` chose and handed to `apply`. Which node leads is also its decision. The
compaction worker of this engine is the one of `CereDB.Storage.Kv2`.
-/

set_option autoImplicit false

namespace CereDB.Storage

open CereDB.Lib

/-! ### Commands in the log -/

namespace LogCommand

/-- `serialize`. -/
def serialize (command : LogCommand) : Bytes :=
  [command.recordType.toByte] ++ leBytes 8 command.key.length ++ command.key ++
    leBytes 8 command.value.length ++ command.value ++ leBytes 8 command.lsn

/-- An index or a range that does not lie in the slice. -/
def outOfRange : Halt := .panic "index out of range"

/-- The steps of `deserialize`. -/
def decode : Decode LogCommand := do
  let kind ← readExact outOfRange 1
  let recordType ← MemtableRecord.decodeRecordType kind
  let keyLen ← readLe outOfRange 8
  let key ← readExact outOfRange keyLen
  let valueLen ← readLe outOfRange 8
  let value ← readExact outOfRange valueLen
  let lsn ← readLe outOfRange 8
  return { recordType, key, value, lsn }

/-- `deserialize`. Bytes behind the command are not looked at. -/
def deserialize (data : Bytes) : Exec LogCommand := (decode data).map Prod.fst

end LogCommand

/-! ### The state machine -/

/-- `StoredMembership` of `openraft`. -/
structure StoredMembership where
  logId : Option LogId
  membership : Membership
deriving DecidableEq, Repr

/-- `StoredMembership::default`. -/
def StoredMembership.default : StoredMembership := { logId := none, membership := ⟨[], []⟩ }

/-- `KVStateMachine`: the write component it shares with the engine, and `SMInner`. -/
structure KVStateMachine where
  store : Store
  lastApplied : Option LogId
  membership : StoredMembership

namespace KVStateMachine

/-- `new`. -/
def new (store : Store) : KVStateMachine :=
  { store, lastApplied := none, membership := StoredMembership.default }

/-- `applied_state`. -/
def appliedState (machine : KVStateMachine) : Option LogId × StoredMembership :=
  (machine.lastApplied, machine.membership)

/-- The body of the loop in `apply`. The bytes of a command are not used. -/
def applyEntry (machine : KVStateMachine) (entry : Entry) : KVStateMachine :=
  let machine := { machine with lastApplied := some entry.logId }
  match entry.payload with
  | .normal _ => machine
  | .membership membership => { machine with membership := ⟨some entry.logId, membership⟩ }
  | .blank => machine

/-- `apply`, with the response to each entry. -/
def apply (machine : KVStateMachine) (entries : List Entry) : List Bytes × KVStateMachine :=
  (entries.map fun _ => [], entries.foldl applyEntry machine)

/-- A log that is applied in several calls. -/
def applyCalls (machine : KVStateMachine) (calls : List (List Entry)) : KVStateMachine :=
  calls.foldl (fun machine entries => (machine.apply entries).2) machine

end KVStateMachine

/-! ### The engine -/

/-- `RaftKV2`, with the part of the consensus layer that its calls ask for. -/
structure RaftKv2 where
  machine : KVStateMachine
  sequenceNumber : Nat
  nodeId : Nat
  currentLeader : Option Nat

namespace RaftKv2

/-- `is_leader`. -/
def isLeader (node : RaftKv2) : Bool := node.currentLeader = some node.nodeId

/-- `{:?}` of an optional node id. -/
def debugNode : Option Nat → String
  | some node => "Some(" ++ toString node ++ ")"
  | none => "None"

/-- The write component and the read manager of `open` on the directory of the engine. The log in
`raft-wal` has no checkpoint owner, and nothing of it is read back. -/
def openStore (config : StorageConfig) : Op StoreDir WriteComponent := do
  let manager ← Act.ofExcept (ManifestManager.loadOrCreate (← get).manifest)
  let wal ← StoreDir.onSegments (WALManager.newInner config.walSegmentSize none false)
  return WriteComponent.new wal manager.state 0

/-- `open`, with the leader that consensus elects afterwards. -/
def opened (config : StorageConfig) (dir : StoreDir) (nodeId : Nat) (currentLeader : Option Nat) :
    Option RaftKv2 :=
  (StoreDir.opened (openStore config) dir).map fun store =>
    { machine := KVStateMachine.new store, sequenceNumber := 0, nodeId, currentLeader }

/-- Runs a computation on the write component. -/
def onStore {α : Type} (x : Op Store α) : Op RaftKv2 α :=
  Act.zoom (fun node => node.machine.store)
    (fun node store => { node with machine := { node.machine with store } }) x

/-- The check at the start of the reads. -/
def redirectReads (node : RaftKv2) : Exec Unit :=
  if node.isLeader then .ok () else storageError "not the leader; redirect reads to leader node"

/-- `get`. -/
def get (fastbloom : FastBloom) (node : RaftKv2) (key : Key) : Exec (Option Bytes) := do
  node.redirectReads
  node.machine.store.getAt fastbloom key node.sequenceNumber

/-- `scan`. -/
def scan (node : RaftKv2) (range : KeyRange) : Exec (List (Key × Bytes)) := do
  node.redirectReads
  node.machine.store.scanAt range node.sequenceNumber

/-- `fetch_add` on the sequence number. -/
def nextLsn : Op RaftKv2 Nat := do
  let node ← MonadState.get
  set { node with sequenceNumber := (node.sequenceNumber + 1) % u64Limit }
  Act.ofExcept (addOrPanic node.sequenceNumber 1)

/-- `propose` on the leader, with the log id the command is committed under. -/
def propose (logId : LogId) (data : Bytes) : Op RaftKv2 Unit :=
  modify fun node =>
    { node with machine := (node.machine.apply [⟨logId, .normal data⟩]).2 }

/-- `put` and `delete`, which differ in the type and the value of the command. -/
def write (fastbloom : FastBloom) (config : StorageConfig) (logId : LogId)
    (recordType : RecordType) (key : Key) (value : Bytes) : Op RaftKv2 Unit := do
  let node ← MonadState.get
  if !node.isLeader then
    throw (.error (.storageError
      ("not the leader; redirect to leader node " ++ debugNode node.currentLeader)))
  let lsn ← nextLsn
  let command : LogCommand := { recordType, key, value, lsn }
  propose logId command.serialize
  onStore (Store.applyReplicatedCommand command)
  onStore (Kv2.maybeFlushAndCompact fastbloom config)

/-- `put`. -/
def put (fastbloom : FastBloom) (config : StorageConfig) (logId : LogId) (key : Key)
    (value : Bytes) : Op RaftKv2 Unit :=
  write fastbloom config logId .put key value

/-- `delete`. -/
def delete (fastbloom : FastBloom) (config : StorageConfig) (logId : LogId) (key : Key) :
    Op RaftKv2 Unit :=
  write fastbloom config logId .delete key []

end RaftKv2

end CereDB.Storage

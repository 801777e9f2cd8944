import CereDB.Storage.Batch
import CereDB.Storage.Compaction
import CereDB.Storage.Wal

/-!
# `CereDB.Storage.Store`: the write component of an engine over its directory

`WriteComponent` of `src/storage/writemanager/write.rs` and the compaction of
`src/storage/compactionmanager/compaction.rs`, as programs on a `Store`: the files of an engine
(WAL segments, the manifest, tables) and what the engine keeps in memory.

Every call that changes a file can fail or be the last one of the process, as the plan of the
directory says (`CereDB.Lib.Disk`). The manifest is one file, and an append to it writes and syncs
one entry. One call runs at a time here, so the locks and the admission queue are left out: a write
finds the queue empty and is the only request of its group.
-/

set_option autoImplicit false

namespace CereDB.Storage

open CereDB.Lib

/-- The files of an engine, and how the coming I/O calls end. -/
structure StoreDir where
  segments : Disk Nat
  manifest : Bytes
  tables : Disk String
  plan : List Answer

/-- `WriteComponent` with the managers it shares, without their files. -/
structure WriteComponent where
  wal : WALManager
  manifest : ManifestState
  memtable : Memtable
  memtableSize : Nat
  sequenceNumber : Nat
  checkpointOwner : Option CheckpointOwner

/-- An open engine. -/
structure Store where
  dir : StoreDir
  component : WriteComponent

namespace Store

/-! ### The parts of a store -/

/-- The write-ahead log of a store. -/
def wal (store : Store) : Wal := ⟨⟨store.dir.segments, store.dir.plan⟩, store.component.wal⟩

/-- Puts the write-ahead log back. -/
def setWal (store : Store) (wal : Wal) : Store :=
  { dir := { store.dir with segments := wal.io.disk, plan := wal.io.plan }
    component := { store.component with wal := wal.manager } }

/-- The table files of a store. -/
def tables (store : Store) : Io String := ⟨store.dir.tables, store.dir.plan⟩

/-- Puts the table files back. -/
def setTables (store : Store) (io : Io String) : Store :=
  { store with dir := { store.dir with tables := io.disk, plan := io.plan } }

/-- The manifest of a store. -/
def manifest (store : Store) : ManifestManager := ⟨store.component.manifest, store.dir.manifest⟩

/-- Puts the manifest back. -/
def setManifest (store : Store) (manager : ManifestManager) : Store :=
  { dir := { store.dir with manifest := manager.file }
    component := { store.component with manifest := manager.state } }

/-- Runs a computation on the write-ahead log. -/
def onWal {α : Type} (x : Op Wal α) : Op Store α := Act.zoom wal setWal x

/-- Runs a computation on the table files. -/
def onTables {α : Type} (x : Op (Io String) α) : Op Store α := Act.zoom tables setTables x

/-- Runs a computation on the manifest that does not append to its file. -/
def onManifest {α : Type} (x : Op ManifestManager α) : Op Store α := Act.zoom manifest setManifest x

/-- Runs a computation that appends an entry to the manifest file. When the process stops on the
way, some bytes of the entry may have reached the file. -/
def appendManifest {α : Type} (x : ManifestManager.AppendOutcome → Op ManifestManager α) :
    Op Store α := do
  match ← onTables Io.answer with
  | .ok => onManifest (x .ok)
  | .fails written => onManifest (x (.fails written))
  | .crash written => do
      tryCatch (do let _ ← onManifest (x (.fails written))) fun _ => return
      throw .crash

/-- The contents of the table files, as a read sees them. -/
def files (store : Store) (path : String) : Option Bytes :=
  (store.dir.tables[path]?).map DurableFile.bytes

/-- The registered tables. -/
def levels (store : Store) : Levels := store.component.manifest.levels

/-- Changes what is in memory. -/
def modifyComponent (f : WriteComponent → WriteComponent) : Op Store Unit :=
  modify fun store => { store with component := f store.component }

/-! ### Reading -/

/-- `ReadManager::get` at the sequence number of the engine. -/
def getRecord (fastbloom : FastBloom) (store : Store) (key : Key) (sequenceNumber : Nat) :
    Exec (Option MemtableRecord) :=
  FileProg.result fileErrors store.files
    (ReadManager.get fastbloom store.component.memtable store.levels key sequenceNumber)

/-- The `match` of `get` on the record that was found. -/
def liveValue : Option MemtableRecord → Option Bytes
  | some record => if record.recordType = .delete then none else some record.value
  | none => none

/-- `get` of the engines at a sequence number. -/
def getAt (fastbloom : FastBloom) (store : Store) (key : Key) (sequenceNumber : Nat) :
    Exec (Option Bytes) :=
  (store.getRecord fastbloom key sequenceNumber).map liveValue

/-- `scan` of the engines at a sequence number. -/
def scanAt (store : Store) (range : KeyRange) (sequenceNumber : Nat) : Exec (List (Key × Bytes)) :=
  FileProg.result fileErrors store.files
    (ReadManager.scanRange store.component.memtable store.levels range sequenceNumber)

/-! ### Writing -/

/-- `append_to_memtable`. `fetch_add` wraps around. -/
def appendToMemtable (component : WriteComponent) (command : LogCommand) : WriteComponent :=
  { component with
    memtable := component.memtable.append command.key command.value command.recordType command.lsn
    memtableSize := (component.memtableSize + if command.recordType = .delete then
        command.key.length
      else command.key.length + command.value.length) % u64Limit }

/-- `run_write_admission` on a group with inline values. The writer stores the sequence number
after all records are in the memtable. -/
def runGroup (requests : List (List BatchOperation)) : Op Store Unit := do
  let component := (← get).component
  let (groups, nextLsn) ← Act.ofExcept (buildGroups component.sequenceNumber requests)
  onWal (Wal.writeEngineTransactions groups component.checkpointOwner)
  modifyComponent fun component =>
    { groups.flatten.foldl appendToMemtable component with sequenceNumber := nextLsn }

/-- `write_batch` of the write component. -/
def writeBatch (operations : List BatchOperation) : Op Store Unit := do
  if operations = [] then return
  else
    let _ ← Act.ofExcept (validateBatch operations)
    runGroup [operations]

/-- `apply_replicated_command`. -/
def applyReplicatedCommand (command : LogCommand) : Op Store Unit := do
  onWal Wal.markUntrackedMutation
  let value := if command.recordType = .delete then [] else command.value
  modifyComponent fun component =>
    { appendToMemtable component { command with value } with
      sequenceNumber := max component.sequenceNumber command.lsn }

/-! ### Flushing -/

/-- One round of the loops that look for a file id whose path is free. -/
def createTable (level : Nat) : Nat → Op Store Nat
  | 0 => throw (.panic "no free table path")
  | attempts + 1 => do
      let fileId ← onManifest ManifestManager.allocateFileId
      let created ← tryCatch
        (do onTables (Io.createNew ioErrors (tablePath level fileId)); return true) fun halt =>
          if halt = ioErrors.alreadyExists then return false else throw halt
      if created then return fileId
      else createTable level attempts

/-- Creates a table file under a new id. Each round of the loop that does not succeed finds another
file, so one more round than there are files is enough. -/
def newTable (level : Nat) : Op Store Nat := do
  onTables (Io.syncDir ioErrors)
  createTable level ((← get).dir.tables.size + 1)

/-- Writes and syncs a table file. -/
def writeTable (path : String) (encoded : Bytes) : Op Store Unit := do
  onTables (Io.append ioErrors path encoded)
  onTables (Io.sync ioErrors path)
  onTables (Io.syncDir ioErrors)

/-- The end of `flush_inner`: the recovery checkpoint, when the component owns the log and nothing
else has written to it. A failed reclamation is retried later. -/
def publishCheckpoint (committedSequence : Nat) : Op Store Unit := do
  let component := (← get).component
  if Wal.ownsRecoveryCheckpoints component.wal component.checkpointOwner then
    match ← onWal Wal.trustedRecoveryPosition with
    | none => return
    | some (replayStartSegment, nextPhysicalLsn) =>
      let checkpoint : RecoveryCheckpoint :=
        { replayStartSegment, nextPhysicalLsn, committedSequence }
      appendManifest fun outcome =>
        ManifestManager.publishRecoveryCheckpoint outcome checkpoint
      tryCatch (onWal (Wal.reclaimCheckpointedSegments checkpoint)) fun halt =>
        match halt with
        | .error _ => return
        | halt => throw halt
  else return

/-- `flush_inner`. It returns the number of records of the table. -/
def flushInner (fastbloom : FastBloom) (config : StorageConfig) (memtable : Memtable)
    (trustedSequence : Option Nat) : Op Store Nat := do
  let table ← Act.ofExcept (flushTable fastbloom config memtable)
  let fileId ← newTable 0
  writeTable (tablePath 0 fileId) table.encoded
  appendManifest fun outcome =>
    ManifestManager.registerSstable outcome (flushMeta fileId table)
  let activeSegment ← onWal Wal.rotateWalFile
  appendManifest fun outcome =>
    ManifestManager.markCheckpoint outcome table.checkpointLsn activeSegment
  trustedSequence.forM publishCheckpoint
  return table.recordCount

/-- The loop of `flush_active_memtable` that removes what was flushed. -/
def removeFlushed (component : WriteComponent) (snapshot : Memtable) : WriteComponent :=
  let removedBytes := (snapshot.toList.map fun entry =>
    match component.memtable[entry.1]? with
    | some record => (ofLex entry.1).1.length + record.value.length
    | none => 0).sum
  { component with
    memtable := snapshot.toList.foldl (fun memtable entry => memtable.erase entry.1)
      component.memtable
    memtableSize := (component.memtableSize + u64Limit - removedBytes) % u64Limit }

/-- `flush_active_memtable`. -/
def flushActiveMemtable (fastbloom : FastBloom) (config : StorageConfig) : Op Store Nat := do
  let component := (← get).component
  let recordCount ← flushInner fastbloom config component.memtable (some component.sequenceNumber)
  modifyComponent fun after => removeFlushed after component.memtable
  return recordCount

/-! ### Compacting -/

/-- `write_compaction_output`. -/
def writeCompactionOutput (level : Nat) (codec : SSTableCodec) : Op Store SSTableMeta := do
  let fileId ← newTable level
  let (encoded, footer) ← Act.ofExcept codec.serialize
  writeTable (tablePath level fileId) encoded
  Act.ofExcept (outputMeta level fileId codec footer)

/-- The loop over the outputs. -/
def writeOutputs (level : Nat) : List SSTableCodec → Op Store (List SSTableMeta)
  | [] => return []
  | codec :: codecs => do
      let output ← writeCompactionOutput level codec
      let outputs ← writeOutputs level codecs
      return output :: outputs

/-- `remove_compacted_files`: a file that cannot be removed stays. -/
def removeCompactedFiles : List SSTableMeta → Op Store Unit
  | [] => return
  | input :: inputs => do
      tryCatch (onTables (Io.remove ioErrors input.path)) fun halt =>
        match halt with
        | .error _ => return
        | halt => throw halt
      removeCompactedFiles inputs

/-- `compaction`. It returns the merged table. -/
def compaction (fastbloom : FastBloom) (config : StorageConfig) (level : Nat) :
    Op Store SSTableCodec := do
  let store ← get
  let plan ← Act.ofExcept (planCompaction store.files fastbloom config store.levels level)
  let outputs ← writeOutputs (level + 1) plan.outputs
  appendManifest fun outcome => ManifestManager.publishCompaction outcome
    store.component.manifest.snapshot plan.inputs outputs
  removeCompactedFiles plan.inputs
  return plan.merged

end Store

end CereDB.Storage

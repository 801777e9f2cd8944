import CereDB.Storage.Preflight
import CereDB.Storage.Store

/-!
# `CereDB.Storage.Kv2`: the KV2 engine

`KV2` of `src/storage/kv2.rs`: opening a directory, the calls of `AsyncKVEngine`, and
`compact_levels` of `src/storage/compactionmanager/compaction.rs`. The compaction worker runs
`compact_levels` on its own when it is triggered, so the trigger is left out and a compaction is a
call of its own here.
-/

set_option autoImplicit false

namespace CereDB.Storage

open CereDB.Lib

namespace StoreDir

/-- An empty directory. -/
def empty : StoreDir := { segments := ∅, manifest := [], tables := ∅, plan := [] }

/-- Runs a computation on the WAL segments. -/
def onSegments {α : Type} (x : Op (Io Nat) α) : Op StoreDir α :=
  Act.zoom (fun dir => ⟨dir.segments, dir.plan⟩)
    (fun dir io => { dir with segments := io.disk, plan := io.plan }) x

/-- Runs a computation on the table files. -/
def onTables {α : Type} (x : Op (Io String) α) : Op StoreDir α :=
  Act.zoom (fun dir => ⟨dir.tables, dir.plan⟩)
    (fun dir io => { dir with tables := io.disk, plan := io.plan }) x

/-- Runs a computation on a write-ahead log that has just been opened. -/
def withWal {α : Type} (manager : WALManager) (x : Op Wal α) : Op StoreDir (α × WALManager) :=
  Act.zoom (fun dir => ⟨⟨dir.segments, dir.plan⟩, manager⟩)
    (fun dir wal => { dir with segments := wal.io.disk, plan := wal.io.plan })
    (do
      let a ← x
      return (a, (← get).manager))

/-- The engine after a directory was opened. -/
def opened (x : Op StoreDir WriteComponent) (dir : StoreDir) : Option Store :=
  match x.exec dir with
  | (.ok component, dir) => some ⟨dir, component⟩
  | (.error _, _) => none

/-- The contents of the table files. -/
def files (dir : StoreDir) (path : String) : Option Bytes :=
  (dir.tables[path]?).map DurableFile.bytes

end StoreDir

/-- `WriteComponent::new`. The first component of an engine-owned log becomes its checkpoint
owner. -/
def WriteComponent.new (wal : WALManager) (manifest : ManifestState) (sequenceNumber : Nat) :
    WriteComponent :=
  let registers := wal.checkpointOwner && !wal.checkpointOwnerRegistered
  { wal := if registers then
        { wal with checkpointOwnerRegistered := true, checkpointToken := some {} }
      else wal
    manifest
    memtable := ∅
    memtableSize := 0
    sequenceNumber
    checkpointOwner := if registers then some {} else none }

namespace Kv2

/-- The memtable, the largest sequence number and the size that recovery builds. -/
structure Recovered where
  memtable : Memtable
  maxLsn : Nat
  totalSize : Nat

/-- One round of the loop in `build_recovered_memtable`. A record of another type is skipped. -/
def recoverRecord (recovered : Recovered) (record : WALRecord) : Recovered :=
  let insert (recordType : RecordType) (value : Bytes) : Recovered :=
    { memtable := recovered.memtable.append record.key value recordType record.lsn
      maxLsn := max recovered.maxLsn record.lsn
      totalSize := recovered.totalSize + (record.key.length + value.length) }
  if record.recordType = 1 then insert .put record.value
  else if record.recordType = 2 then insert .delete []
  else recovered

/-- `build_recovered_memtable`. -/
def buildRecoveredMemtable (records : List WALRecord) : Recovered :=
  records.foldl recoverRecord { memtable := ∅, maxLsn := 0, totalSize := 0 }

end Kv2

/-- `restore_memtable`, with what `build_recovered_memtable` returned. -/
def WriteComponent.restoreMemtable (component : WriteComponent) (recovered : Kv2.Recovered) :
    WriteComponent :=
  { component with memtable := recovered.memtable, memtableSize := recovered.totalSize }

namespace Kv2

/-- The part of `KV2::open` behind the validation of the tables. -/
def openWal (config : StorageConfig) (manifest : ManifestState) : Op StoreDir WriteComponent := do
  let checkpoint := manifest.recoveryCheckpoint
  let wal ← StoreDir.onSegments (WALManager.newInner config.walSegmentSize checkpoint true)
  let (records, wal) ← StoreDir.withWal wal Wal.recoverRecords
  let (_, wal) ← StoreDir.withWal wal (checkpoint.forM fun checkpoint =>
    tryCatch (Wal.reclaimCheckpointedSegments checkpoint) fun halt =>
      match halt with
      | .error _ => return
      | halt => throw halt)
  let recovered := buildRecoveredMemtable records
  let sequenceNumber := max recovered.maxLsn
    ((checkpoint.map RecoveryCheckpoint.committedSequence).getD 0)
  return (WriteComponent.new wal manifest sequenceNumber).restoreMemtable recovered

/-- `KV2::open`. Each directory that is created durably is one I/O call. -/
def openStore (config : StorageConfig) : Op StoreDir WriteComponent := do
  StoreDir.onTables (Io.syncDir ioErrors)
  StoreDir.onTables (Io.syncDir ioErrors)
  StoreDir.onTables (Io.syncDir ioErrors)
  let manager ← Act.ofExcept (ManifestManager.loadOrCreate (← get).manifest)
  let files := (← get).files
  manager.state.levels.all.forM fun table => Act.ofExcept (validateManifestSstable files table)
  openWal config manager.state

/-! ### Calls -/

/-- `get`. -/
def get (fastbloom : FastBloom) (store : Store) (key : Key) : Exec (Option Bytes) :=
  store.getAt fastbloom key store.component.sequenceNumber

/-- `scan`. -/
def scan (store : Store) (range : KeyRange) : Exec (List (Key × Bytes)) :=
  store.scanAt range store.component.sequenceNumber

/-- `maybe_flush_and_compact`. -/
def maybeFlushAndCompact (fastbloom : FastBloom) (config : StorageConfig) : Op Store Unit := do
  if (← MonadState.get).component.memtableSize < config.memtableSizeThreshold then return
  else
    let _ ← Store.flushActiveMemtable fastbloom config

/-- `maintain_after_commit`: an error is only logged. -/
def maintainAfterCommit (fastbloom : FastBloom) (config : StorageConfig) : Op Store Unit :=
  tryCatch (maybeFlushAndCompact fastbloom config) fun halt =>
    match halt with
    | .error _ => return
    | halt => throw halt

/-- `write_batch`. -/
def writeBatch (fastbloom : FastBloom) (config : StorageConfig) (operations : List BatchOperation) :
    Op Store Unit := do
  if operations = [] then return
  else
    Store.writeBatch operations
    maintainAfterCommit fastbloom config

/-- `put`. -/
def put (fastbloom : FastBloom) (config : StorageConfig) (key : Key) (value : Bytes) :
    Op Store Unit := do
  Store.writeBatch [.put key value]
  maintainAfterCommit fastbloom config

/-- `delete`. -/
def delete (fastbloom : FastBloom) (config : StorageConfig) (key : Key) : Op Store Unit := do
  Store.writeBatch [.delete key]
  maintainAfterCommit fastbloom config

/-! ### Compaction of the levels -/

/-- `saturating_mul` and `saturating_pow` on `u64`. -/
def saturating (n : Nat) : Nat := min n (u64Limit - 1)

/-- The byte target of a level. -/
def levelTarget (config : StorageConfig) (level : Nat) : Nat :=
  saturating (config.levelBaseBytes * saturating (config.levelSizeMultiplier ^ (level - 1)))

/-- The bytes of the files of a level. -/
def levelBytes (files : String → Option Bytes) (sstables : List SSTableMeta) : Exec Nat :=
  sstables.foldlM (fun bytes sstable => do return saturatingAdd bytes (← fileLen files sstable.path)) 0

/-- The deepest level above its target. -/
def findDebt (files : String → Option Bytes) (config : StorageConfig) (levels : Levels) :
    List Nat → Exec (Option Nat)
  | [] => return none
  | level :: rest => do
      if levelTarget config level < (← levelBytes files (levels.files level)) then return some level
      else findDebt files config levels rest

/-- The choice of the next level in `compact_levels`. -/
def pendingLevel (files : String → Option Bytes) (config : StorageConfig) (levels : Levels)
    (requested : Option Nat) : Exec (Option Nat) := do
  let level0Full := decide (levels.files 0 ≠ [] ∧ config.maxLevel0Files ≤ (levels.files 0).length)
  match requested.filter fun level =>
      decide (levels.files level ≠ []) && (decide (level ≠ 0) || level0Full) with
  | some level => return some level
  | none =>
    let deeper := (levels.byLevel.map Prod.fst).filter (0 < ·)
    match ← findDebt files config levels deeper.reverse with
    | some level => return some level
    | none => return if level0Full then some 0 else none

/-- The loop of `compact_levels`, cut off after a number of rounds. -/
def compactRounds (fastbloom : FastBloom) (config : StorageConfig) :
    Nat → Option Nat → Op Store Unit
  | 0, _ => throw (.panic "out of rounds")
  | rounds + 1, requested => do
      let store ← MonadState.get
      match ← Act.ofExcept (pendingLevel store.files config store.levels requested) with
      | none => return
      | some level =>
        let _ ← Store.compaction fastbloom config level
        compactRounds fastbloom config rounds none

/-- `compact_levels`, cut off after a number of rounds. -/
def compactLevels (fastbloom : FastBloom) (config : StorageConfig) (rounds requestedLevel : Nat) :
    Op Store Unit := do
  if config.targetSstableBytes = 0 ∨ config.levelBaseBytes = 0 ∨ config.levelSizeMultiplier < 2 ∨
      config.maxLevel0Files = 0 then
    throw (.error (.storageError "invalid compaction targets"))
  compactRounds fastbloom config rounds (some requestedLevel)

end Kv2

end CereDB.Storage

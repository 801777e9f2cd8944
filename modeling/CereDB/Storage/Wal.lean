import CereDB.Storage.Manifest
import CereDB.Storage.WalFormat

/-!
# `CereDB.Storage.Wal`: the write-ahead log manager

`WALManager` of `src/storage/recovermanager/wal.rs` over a directory of segment files. A segment
file goes by its id; the source derives its name from the id and nothing else creates files in
that directory, so the checks for foreign names and file kinds are left out. The file handle of
the writer is the segment file with the writer's segment id.

Every call that changes a file can fail or be the last one of the process, as the plan of the
directory says (`CereDB.Lib.Disk`).
-/

set_option autoImplicit false

namespace CereDB.Storage

open CereDB.Lib

/-- `MAX_GROUP_COUNT`. -/
def maxGroupCount : Nat := 1024

/-- `MAX_GROUP_ENCODED_SIZE`. -/
def maxGroupEncodedSize : Nat := 256 * 1024 * 1024

/-- `CheckpointOwner`: the token that `register_checkpoint_owner` gives out once. -/
structure CheckpointOwner where
deriving DecidableEq, Repr

/-- `WriterState`, without the file handle. -/
structure WriterState where
  segmentId : Nat
  size : Nat
  nextLsn : Nat
  poisoned : Bool
  sealed : Finset Nat
  checkpoint : Option RecoveryCheckpoint
deriving DecidableEq

/-- `WALManager`, without the directory. -/
structure WALManager where
  writer : WriterState
  maxSegmentSize : Nat
  rawWrites : Bool
  checkpointOwner : Bool
  checkpointOwnerRegistered : Bool
  checkpointToken : Option CheckpointOwner
deriving DecidableEq

/-- An open log: the manager and the directory of segments. -/
structure Wal where
  io : Io Nat
  manager : WALManager

/-- `TailHandling`. -/
inductive TailHandling where
  | repair
  | allow
  | reject
deriving DecidableEq, Repr

/-! ### Opening -/

/-- `create_segment`. -/
def createSegment (id : Nat) : Op (Io Nat) Unit := do
  Io.createNew ioErrors id
  Io.append ioErrors id WALHeader.default.encode
  Io.sync ioErrors id
  Io.syncDir ioErrors

/-- Every id is the successor of the one before. -/
def consecutive : List Nat → Bool
  | id :: next :: ids => checkedAdd id 1 == some next && consecutive (next :: ids)
  | _ => true

/-- `segment_paths`: the ids from the floor on, in ascending order and without a gap. -/
def segmentPaths (disk : Disk Nat) (floor : Option Nat) : Exec (List Nat) :=
  let ids := disk.toList.map Prod.fst |>.filter fun id => floor.all fun floor => floor ≤ id
  if floor.isSome ∧ ids.head? ≠ floor then corrupted "Missing WAL checkpoint segment"
  else if !consecutive ids then corrupted "Duplicate or missing WAL segment"
  else .ok ids

/-- The header part of `scan_segment_with_tail_handling`: a file shorter than a header is
completed. -/
def completeHeader (id : Nat) (tail : TailHandling) (latestLsn : Nat) (bytes : Bytes) :
    Op (Io Nat) Bytes :=
  if bytes.length < walHeaderSize ∧ tail ≠ .reject then
    match headerFor latestLsn bytes with
    | none => throw (.error (.corrupted "Invalid incomplete WAL header"))
    | some header => do
        if tail = .repair then
          Io.append ioErrors id (header.drop bytes.length)
          Io.sync ioErrors id
          Io.syncDir ioErrors
        return header
  else return bytes

/-- The tail part of `scan_segment_with_tail_handling`: what stands behind the last whole record
is cut off, let be, or refused. -/
def handleTail (id : Nat) (tail : TailHandling) (length offset : Nat) : Op (Io Nat) Unit :=
  if offset = length then return
  else
    match tail with
    | .repair => do
        Io.setLen ioErrors id offset
        Io.sync ioErrors id
    | .allow => return
    | .reject => throw (.error (.corrupted "Incomplete WAL frame in sealed segment"))

/-- `scan_segment_with_tail_handling`. -/
def scanSegmentWithTailHandling (id : Nat) (tail : TailHandling) (analysis : Analysis) :
    Op (Io Nat) (Analysis × Nat) := do
  let bytes ← Io.readFile ioErrors id
  let bytes ← completeHeader id tail analysis.latestLsn bytes
  let (analysis, version, offset) ← Act.ofExcept (scanBytes id bytes analysis)
  handleTail id tail bytes.length offset
  return (analysis, version)

/-- The scan of several segments. Only the tail of the last one is treated as `tail` says. -/
def scanSegments (tail : TailHandling) : List Nat → Analysis × Nat → Op (Io Nat) (Analysis × Nat)
  | [], found => return found
  | id :: ids, (analysis, _) => do
      let found ← scanSegmentWithTailHandling id (if ids = [] then tail else .reject) analysis
      scanSegments tail ids found

/-- The LSN in front of the first frame the checkpoint leaves to replay. -/
def startLsn (checkpoint : Option RecoveryCheckpoint) : Exec Nat :=
  match checkpoint with
  | none => .ok 0
  | some checkpoint =>
    if checkpoint.nextPhysicalLsn = 0 then corrupted "invalid checkpoint physical LSN"
    else .ok (checkpoint.nextPhysicalLsn - 1)

/-- The segment a new manager writes to: the last one, or a new one behind a legacy segment. -/
def activeSegment (ids : List Nat) (latestVersion : Nat) : Exec Nat :=
  let last := ids.getLast?.getD 0
  if latestVersion = legacyWalVersion ∧ ids ≠ [] then
    match checkedAdd last 1 with
    | some next => .ok next
    | none => storageError "WAL segment ID exhausted"
  else .ok last

/-- `WALManager::new_inner`. -/
def WALManager.newInner (maxSegmentSize : Nat) (checkpoint : Option RecoveryCheckpoint)
    (checkpointOwner : Bool) : Op (Io Nat) WALManager := do
  let ids ← Act.ofExcept (segmentPaths (← get).disk (checkpoint.map (·.replayStartSegment)))
  let latestLsn ← Act.ofExcept (startLsn checkpoint)
  let (analysis, latestVersion) ← scanSegments .repair ids (.new latestLsn false, walVersion)
  let segmentId ← Act.ofExcept (activeSegment ids latestVersion)
  if ids = [] ∨ latestVersion = legacyWalVersion then
    createSegment segmentId
  let file ← Io.readFile ioErrors segmentId
  let nextLsn ← Act.ofExcept (addOrPanic analysis.latestLsn 1)
  return {
    writer := {
      segmentId
      size := file.length
      nextLsn
      poisoned := false
      sealed := ids.toFinset.erase segmentId
      checkpoint }
    maxSegmentSize
    rawWrites := false
    checkpointOwner
    checkpointOwnerRegistered := false
    checkpointToken := none }

/-! ### Appending -/

/-- `PlannedUpdate`. -/
structure PlannedUpdate where
  transactionId : Nat
  transactionStartOffset : Nat
  frameOffset : Nat
  frameLength : Nat
  physicalLsn : Nat
  applicationSequence : Nat
  recordType : RecordType
  keyLength : Nat
  keyChecksum : Nat
  valueLength : Nat
  valueChecksum : Nat
deriving DecidableEq, Repr

/-- `PlannedTransaction`. -/
structure PlannedTransaction where
  updates : List PlannedUpdate
  commitOffset : Nat
  commitLsn : Nat
deriving DecidableEq, Repr

/-- The variables of the loop over the commands of one transaction. -/
structure UpdateLoop where
  bytes : Bytes
  nextLsn : Nat
  previousLsn : Nat
  groupSize : Nat
  updates : List PlannedUpdate

/-- The variables of the loop over the transactions. -/
structure GroupLoop where
  bytes : Bytes
  nextLsn : Nat
  planned : List PlannedTransaction

/-- One round of the loop over the commands of one transaction. -/
def planUpdate (collecting : Bool) (transactionId transactionStartOffset : Nat)
    (loop : UpdateLoop) (command : LogCommand) : Exec UpdateLoop := do
  if command.recordType = .delete ∧ command.value ≠ [] then
    storageError "Delete contains a value"
  else if u32Limit ≤ command.key.length then storageError "WAL key length overflow"
  else
    let frame ← encodeFrame ⟨loop.nextLsn, transactionId, loop.previousLsn, .update command⟩
    let groupSize := loop.groupSize + frame.length
    if maxGroupEncodedSize < groupSize then storageError "WAL transaction exceeds group limit"
    else
      match checkedAdd loop.nextLsn 1 with
      | none => storageError "WAL LSN exhausted"
      | some nextLsn =>
        let planned : PlannedUpdate := {
          transactionId
          transactionStartOffset
          frameOffset := loop.bytes.length
          frameLength := frame.length
          physicalLsn := loop.nextLsn
          applicationSequence := command.lsn
          recordType := command.recordType
          keyLength := command.key.length
          keyChecksum := crc32 command.key
          valueLength := command.value.length
          valueChecksum := crc32 command.value }
        return {
          bytes := loop.bytes ++ frame
          nextLsn
          previousLsn := loop.nextLsn
          groupSize
          updates := if collecting then loop.updates ++ [planned] else loop.updates }

/-- One round of the loop over the transactions: the updates, and the commit frame. The id of a
transaction is the LSN of its first frame. -/
def planTransaction (collecting : Bool) (group : GroupLoop) (commands : List LogCommand) :
    Exec GroupLoop := do
  if commands = [] then storageError "WAL transaction must contain an update"
  else
    let loop ← commands.foldlM (planUpdate collecting group.nextLsn group.bytes.length)
      { bytes := group.bytes, nextLsn := group.nextLsn, previousLsn := 0, groupSize := 0,
        updates := [] }
    let commit ← encodeFrame ⟨loop.nextLsn, group.nextLsn, loop.previousLsn, .commit⟩
    if maxGroupEncodedSize < loop.groupSize + commit.length then
      storageError "WAL transaction exceeds group limit"
    else
      match checkedAdd loop.nextLsn 1 with
      | none => storageError "WAL LSN exhausted"
      | some nextLsn =>
        let planned : PlannedTransaction := {
          updates := loop.updates
          commitOffset := loop.bytes.length
          commitLsn := loop.nextLsn }
        return {
          bytes := loop.bytes ++ commit
          nextLsn
          planned := if collecting then group.planned ++ [planned] else group.planned }

/-- `segment_start.checked_add(offset)` with its error. -/
def walOffset (segmentStart offset : Nat) : Exec Nat :=
  match checkedAdd segmentStart offset with
  | some sum => .ok sum
  | none => storageError "WAL offset overflow"

/-- The receipt of one update, once the segment is known. -/
def PlannedUpdate.receipt (segmentId segmentStart commitOffset commitLsn : Nat)
    (update : PlannedUpdate) : Exec WalValueRef := do
  return {
    segmentId
    transactionId := update.transactionId
    transactionStartOffset := ← walOffset segmentStart update.transactionStartOffset
    commitOffset
    commitLsn
    frameOffset := ← walOffset segmentStart update.frameOffset
    frameLength := update.frameLength
    physicalLsn := update.physicalLsn
    applicationSequence := update.applicationSequence
    recordType := update.recordType
    keyLength := update.keyLength
    keyChecksum := update.keyChecksum
    valueLength := update.valueLength
    valueChecksum := update.valueChecksum }

/-- The receipts of one transaction. -/
def PlannedTransaction.receipts (segmentId segmentStart : Nat)
    (transaction : PlannedTransaction) : Exec (List WalValueRef) := do
  let commitOffset ← walOffset segmentStart transaction.commitOffset
  transaction.updates.mapM
    (PlannedUpdate.receipt segmentId segmentStart commitOffset transaction.commitLsn)

namespace Wal

/-- Runs a computation on the directory. -/
def onDisk {α : Type} (x : Op (Io Nat) α) : Op Wal α :=
  Act.zoom Wal.io (fun wal io => { wal with io }) x

/-- Changes the writer state. -/
def modifyWriter (f : WriterState → WriterState) : Op Wal Unit :=
  modify fun wal => { wal with manager := { wal.manager with writer := f wal.manager.writer } }

/-- `ensure_healthy`. -/
def ensureHealthy : Op Wal Unit := do
  if (← get).manager.writer.poisoned then
    throw (.error (.storageError "WAL write interrupted or failed; reopen before reuse"))

/-- `rotate_locked`. -/
def rotateLocked : Op Wal Unit := do
  let segmentId := (← get).manager.writer.segmentId
  onDisk (Io.sync ioErrors segmentId)
  match checkedAdd segmentId 1 with
  | none => throw (.error (.storageError "WAL segment ID exhausted"))
  | some nextId =>
    onDisk (createSegment nextId)
    modifyWriter fun writer => { writer with
      sealed := insert segmentId writer.sealed
      segmentId := nextId
      size := walHeaderSize }

/-- `rotate_wal_file`. -/
def rotateWalFile : Op Wal Nat := do
  ensureHealthy
  modifyWriter fun writer => { writer with poisoned := true }
  rotateLocked
  modifyWriter fun writer => { writer with poisoned := false }
  return (← get).manager.writer.segmentId

/-- The rotation in `append_transactions`: a segment that holds frames is not grown beyond the
maximal size. -/
def rotateIfFull (added : Nat) : Op Wal Unit := do
  let manager := (← get).manager
  if walHeaderSize < manager.writer.size ∧
      manager.maxSegmentSize < saturatingAdd manager.writer.size added then
    rotateLocked

/-- The write of the planned frames in `append_transactions`, with the writer poisoned until all
is synced. -/
def writePlanned (plan : GroupLoop) : Op Wal (List (List WalValueRef)) := do
  modifyWriter fun writer => { writer with poisoned := true }
  rotateIfFull plan.bytes.length
  let writer := (← get).manager.writer
  let receipts ← Act.ofExcept
    (plan.planned.mapM (PlannedTransaction.receipts writer.segmentId writer.size))
  onDisk (Io.append ioErrors writer.segmentId plan.bytes)
  onDisk (Io.sync ioErrors writer.segmentId)
  modifyWriter fun writer => { writer with
    size := writer.size + plan.bytes.length
    nextLsn := plan.nextLsn
    poisoned := false }
  return receipts

/-- `append_transactions`. -/
def appendTransactions (collecting : Bool) (groups : List (List LogCommand)) :
    Op Wal (List (List WalValueRef)) := do
  if groups = [] then return []
  else if maxGroupCount < groups.length then
    throw (.error (.storageError "WAL transaction group exceeds count limit"))
  else
    ensureHealthy
    let nextLsn := (← get).manager.writer.nextLsn
    let plan ← Act.ofExcept
      (groups.foldlM (planTransaction collecting) { bytes := [], nextLsn, planned := [] })
    writePlanned plan

/-- `mark_untracked_mutation`. -/
def markUntrackedMutation : Op Wal Unit :=
  modify fun wal => { wal with manager := { wal.manager with rawWrites := true } }

/-- `write_transaction`. -/
def writeTransaction (commands : List LogCommand) : Op Wal Unit := do
  markUntrackedMutation
  let _ ← appendTransactions false [commands]

/-- `write_log`. -/
def writeLog (command : LogCommand) : Op Wal Nat := do
  writeTransaction [command]
  return command.lsn

/-- The owner is the registered one. -/
def ownsCheckpoint (manager : WALManager) (owner : Option CheckpointOwner) : Bool :=
  manager.checkpointToken.isSome && owner == manager.checkpointToken

/-- `append_engine_transactions`. -/
def appendEngineTransactions (collecting : Bool) (groups : List (List LogCommand))
    (owner : Option CheckpointOwner) : Op Wal (List (List WalValueRef)) := do
  if !ownsCheckpoint (← get).manager owner then
    markUntrackedMutation
  appendTransactions collecting groups

/-- `write_engine_transactions`. -/
def writeEngineTransactions (groups : List (List LogCommand)) (owner : Option CheckpointOwner) :
    Op Wal Unit := do
  let _ ← appendEngineTransactions false groups owner

/-! ### Recovery -/

/-- `analyze_committed`. -/
def analyzeCommitted (trackRefs : Bool) : Op Wal Analysis := do
  ensureHealthy
  let checkpoint := (← get).manager.writer.checkpoint
  let latestLsn ← Act.ofExcept (startLsn checkpoint)
  let ids ← Act.ofExcept
    (segmentPaths (← get).io.disk (checkpoint.map (·.replayStartSegment)))
  let (analysis, _) ← onDisk (scanSegments .reject ids (.new latestLsn trackRefs, walVersion))
  return analysis

/-- `recover_records`. -/
def recoverRecords : Op Wal (List WALRecord) := do
  return (← analyzeCommitted false).redo

/-! ### Checkpoints -/

/-- `trusted_recovery_position`. -/
def trustedRecoveryPosition : Op Wal (Option (Nat × Nat)) := do
  ensureHealthy
  let manager := (← get).manager
  if manager.rawWrites then return none
  else return some (manager.writer.segmentId, manager.writer.nextLsn)

/-- `register_checkpoint_owner`. -/
def registerCheckpointOwner : Op Wal (Option CheckpointOwner) := do
  let manager := (← get).manager
  if !manager.checkpointOwner || manager.checkpointOwnerRegistered then return none
  else
    modify fun wal => { wal with manager := { wal.manager with
      checkpointOwnerRegistered := true
      checkpointToken := some {} } }
    return some {}

/-- `owns_recovery_checkpoints`. -/
def ownsRecoveryCheckpoints (manager : WALManager) (owner : Option CheckpointOwner) : Bool :=
  manager.checkpointOwner && ownsCheckpoint manager owner

/-- The removal loop of `reclaim_checkpointed_segments`: it stops at the first error and
returns it, together with whether a file was removed. -/
def removeCovered : List Nat → Bool → Op Wal (Bool × Option DBError)
  | [], removedAny => return (removedAny, none)
  | id :: ids, removedAny => do
      let failed ← tryCatch (do onDisk (Io.remove ioErrors id); return none) fun halt =>
        match halt with
        | .error e => return some e
        | halt => throw halt
      match failed with
      | some e => return (removedAny, some e)
      | none =>
        modifyWriter fun writer => { writer with sealed := writer.sealed.erase id }
        removeCovered ids true

/-- `reclaim_checkpointed_segments`. -/
def reclaimCheckpointedSegments (checkpoint : RecoveryCheckpoint) : Op Wal Unit := do
  if !(← get).manager.checkpointOwner then
    throw (.error (.storageError "WAL manager has no engine checkpoint authority"))
  ensureHealthy
  let writer := (← get).manager.writer
  if writer.segmentId < checkpoint.replayStartSegment ∨
      writer.nextLsn < checkpoint.nextPhysicalLsn then
    throw (.error (.storageError "WAL checkpoint is ahead of the writer state"))
  modifyWriter fun writer => { writer with checkpoint := some checkpoint }
  let covered := (← get).io.disk.toList.map Prod.fst |>.filter (· < checkpoint.replayStartSegment)
  let (removedAny, cleanupError) ← removeCovered covered false
  if removedAny then
    onDisk (Io.syncDir ioErrors)
  match cleanupError with
  | some e => throw (.error e)
  | none => return

end Wal

end CereDB.Storage

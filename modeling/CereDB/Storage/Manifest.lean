import CereDB.Storage.Base

/-!
# `CereDB.Storage.Manifest`: the append-only manifest

`ManifestManager` of `src/storage/manifest_codec.rs`: the file of entries and the state in
memory. Every operation encodes an entry, appends it to the file, and changes the state only
after the append returned. `replayManifest` rebuilds the state from the file.

The append takes an `AppendOutcome`, which says whether it succeeded, or how many bytes of the
entry had reached the file when it failed.

`levels` maps a level and a file id to the metadata of the table. The source keeps a map of
maps and drops a level when its last file goes, so a level is there exactly when it has a file.
-/

set_option autoImplicit false

namespace CereDB.Storage

open CereDB.Lib

/-- `SSTableMeta`. -/
structure SSTableMeta where
  fileId : Nat
  level : Nat
  path : String
  recordCount : Nat
  smallestKey : Key
  largestKey : Key
  bloomOffset : Nat
  bloomSize : Nat
deriving DecidableEq, Repr

/-- `RecoveryCheckpoint`. -/
structure RecoveryCheckpoint where
  replayStartSegment : Nat
  nextPhysicalLsn : Nat
  committedSequence : Nat
deriving DecidableEq, Repr

instance placeTransCmp : Std.TransCmp (@compare (Nat ×ₗ Nat) LinearOrder.toOrd) := OrdMap.transCmp

/-- The tables by level and file id. -/
abbrev Levels := OrdMap (Nat ×ₗ Nat) SSTableMeta

/-- `levels.entry(meta.level).or_default().insert(meta.file_id, meta)`. -/
def Levels.add (levels : Levels) (table : SSTableMeta) : Levels :=
  levels.insert (toLex (table.level, table.fileId)) table

/-- Removes a file, and its level when it was the last one there. -/
def Levels.remove (levels : Levels) (level fileId : Nat) : Levels :=
  levels.erase (toLex (level, fileId))

/-- The files of a level in the order of their ids. -/
def Levels.files (levels : Levels) (level : Nat) : List SSTableMeta :=
  (levels.toList.filter fun entry => (ofLex entry.1).1 == level).map Prod.snd

/-- The files of all levels. -/
def Levels.all (levels : Levels) : List SSTableMeta := levels.toList.map Prod.snd

/-- `ManifestState`. -/
structure ManifestState where
  version : Nat
  nextFileId : Nat
  checkpointLsn : Nat
  activeWalSegment : Nat
  recoveryCheckpoint : Option RecoveryCheckpoint
  levels : Levels

/-- `ManifestSnapshot`: what the manifest tells other components. -/
structure ManifestSnapshot where
  version : Nat
  nextFileId : Nat
  activeWalSegment : Nat
  recoveryCheckpoint : Option RecoveryCheckpoint
  levels : Levels

/-- `MANIFEST_VERSION`. -/
def manifestVersion : Nat := 1

/-- `ManifestState::default`. -/
def ManifestState.default : ManifestState where
  version := manifestVersion
  nextFileId := 1
  checkpointLsn := 0
  activeWalSegment := 0
  recoveryCheckpoint := none
  levels := ∅

/-- `snapshot_from_state`. -/
def ManifestState.snapshot (state : ManifestState) : ManifestSnapshot where
  version := state.version
  nextFileId := state.nextFileId
  activeWalSegment := state.activeWalSegment
  recoveryCheckpoint := state.recoveryCheckpoint
  levels := state.levels

/-! ### Encoding -/

/-- `ENTRY_KIND_ADD`. -/
def entryKindAdd : UInt8 := 1

/-- `ENTRY_KIND_REMOVE`. -/
def entryKindRemove : UInt8 := 2

/-- `ENTRY_KIND_CHECKPOINT`. -/
def entryKindCheckpoint : UInt8 := 3

/-- `ENTRY_KIND_COMPACTION`. -/
def entryKindCompaction : UInt8 := 4

/-- `ENTRY_KIND_RECOVERY_CHECKPOINT`. -/
def entryKindRecoveryCheckpoint : UInt8 := 5

/-- `ENTRY_KIND_COMPACTION_OUTPUTS`. -/
def entryKindCompactionOutputs : UInt8 := 6

/-- `str::as_bytes`. -/
def asBytes (s : String) : Bytes := s.toUTF8.data.toList

/-- `push_bytes`. -/
def pushBytes (value : Bytes) : Exec Bytes :=
  if value.length < u32Limit then .ok (beBytes 4 value.length ++ value)
  else storageError "field length exceeds u32"

/-- `encode_entry`: kind, length, payload, and the checksum of all three. -/
def encodeEntry (kind : UInt8) (payload : Bytes) : Exec Bytes :=
  if payload.length < u32Limit then
    let bytes := kind :: (beBytes 4 payload.length ++ payload)
    .ok (bytes ++ beBytes 4 (crc32 bytes))
  else storageError "manifest entry payload too large"

/-- `encode_add_payload`. -/
def encodeAddPayload (table : SSTableMeta) : Exec Bytes := do
  let path ← pushBytes (asBytes table.path)
  let smallestKey ← pushBytes table.smallestKey
  let largestKey ← pushBytes table.largestKey
  return beBytes 4 table.level ++ beBytes 8 table.fileId ++ beBytes 8 table.recordCount ++ path ++
    beBytes 8 table.bloomOffset ++ beBytes 8 table.bloomSize ++ smallestKey ++ largestKey

/-- `encode_remove_payload`. -/
def encodeRemovePayload (removal : Nat × Nat) : Bytes :=
  beBytes 4 removal.1 ++ beBytes 8 removal.2

/-- `encode_checkpoint_payload`. -/
def encodeCheckpointPayload (checkpointLsn activeWalSegment : Nat) : Bytes :=
  beBytes 8 checkpointLsn ++ beBytes 8 activeWalSegment

/-- The payload `publish_recovery_checkpoint` builds. -/
def encodeRecoveryPayload (checkpoint : RecoveryCheckpoint) : Bytes :=
  beBytes 8 checkpoint.replayStartSegment ++ beBytes 8 checkpoint.nextPhysicalLsn ++
    beBytes 8 checkpoint.committedSequence

/-- The removals at the head of `encode_compaction_payload`. -/
def encodeRemovals (removals : List (Nat × Nat)) : Exec Bytes :=
  if removals.length < u32Limit then
    .ok (beBytes 4 removals.length ++ removals.flatMap encodeRemovePayload)
  else storageError "too many compaction inputs"

/-- `encode_compaction_payload`. -/
def encodeCompactionPayload (removals : List (Nat × Nat)) (output : Option SSTableMeta) :
    Exec Bytes := do
  let head ← encodeRemovals removals
  match output with
  | some table => return head ++ (← encodeAddPayload table)
  | none => return head

/-- One output of a payload with several: the add payload with its length in front. -/
def encodeOutput (table : SSTableMeta) : Exec Bytes := do
  pushBytes (← encodeAddPayload table)

/-- The payload `publish_compaction` builds for several outputs. -/
def encodeCompactionOutputs (removals : List (Nat × Nat)) (outputs : List SSTableMeta) :
    Exec Bytes := do
  let head ← encodeCompactionPayload removals none
  if outputs.length < u32Limit then
    let parts ← outputs.mapM encodeOutput
    return head ++ beBytes 4 outputs.length ++ parts.flatten
  else storageError "too many compaction outputs"

/-- The entry of `publish_compaction`: one kind for at most one output, one for several. -/
def encodeCompactionEntry (removals : List (Nat × Nat)) (outputs : List SSTableMeta) :
    Exec Bytes := do
  if outputs.length ≤ 1 then
    encodeEntry entryKindCompaction (← encodeCompactionPayload removals outputs.head?)
  else
    encodeEntry entryKindCompactionOutputs (← encodeCompactionOutputs removals outputs)

/-! ### Decoding -/

/-- `decode_entry` at the head of the unread bytes: kind, payload and what follows. -/
def decodeEntry (data : Bytes) : Exec (UInt8 × Bytes × Bytes) :=
  match data with
  | kind :: rest =>
    if rest.length < 4 then corrupted "truncated manifest entry header"
    else
      let len := beNat (rest.take 4)
      let tail := rest.drop 4
      if tail.length < len + 4 then corrupted "truncated manifest entry payload"
      else
        let payload := tail.take len
        let stored := beNat ((tail.drop len).take 4)
        if stored ≠ crc32 (kind :: (rest.take 4 ++ payload)) then
          corrupted "manifest entry checksum mismatch"
        else .ok (kind, payload, tail.drop (len + 4))
  | [] => corrupted "truncated manifest entry header"

/-- `read_vec`. -/
def readVec : Decode Bytes := do
  let len ← readBe eof 4
  readExact eof len

/-- `String::from_utf8` with the error of `read_string`. -/
def fromUtf8 (bytes : Bytes) : Exec String :=
  match String.fromUTF8? ⟨bytes.toArray⟩ with
  | some s => .ok s
  | none => corrupted "invalid UTF-8 in manifest path"

/-- `read_string`. -/
def readString : Decode String := do
  let bytes ← readVec
  fun rest => (fromUtf8 bytes).map fun s => (s, rest)

/-- The Bloom filter position of `decode_add_payload`, absent in old payloads. -/
def readBloomPosition : Decode (Nat × Nat) := fun rest =>
  if 16 ≤ rest.length then
    (do return (← readBe eof 8, ← readBe eof 8) : Decode (Nat × Nat)) rest
  else .ok ((0, 0), rest)

/-- The key range of `decode_add_payload`, absent in old payloads. -/
def readKeyRange : Decode (Key × Key) := fun rest =>
  if 0 < rest.length then
    (do return (← readVec, ← readVec) : Decode (Key × Key)) rest
  else .ok (([], []), rest)

/-- `decode_add_payload` as a reader: bytes behind the fields are left over. -/
def readAddPayload : Decode SSTableMeta := do
  let level ← readBe eof 4
  let fileId ← readBe eof 8
  let recordCount ← readBe eof 8
  let path ← readString
  let (bloomOffset, bloomSize) ← readBloomPosition
  let (smallestKey, largestKey) ← readKeyRange
  return { fileId, level, path, recordCount, smallestKey, largestKey, bloomOffset, bloomSize }

/-- `decode_add_payload`. -/
def decodeAddPayload (payload : Bytes) : Exec SSTableMeta :=
  (readAddPayload payload).map Prod.fst

/-- `decode_remove_payload`. -/
def decodeRemovePayload (payload : Bytes) : Exec (Nat × Nat) :=
  if payload.length ≠ 12 then corrupted "remove payload length must be 12 bytes"
  else .ok (beNat (payload.take 4), beNat (payload.drop 4))

/-- `decode_checkpoint_payload`. -/
def decodeCheckpointPayload (payload : Bytes) : Exec (Nat × Nat) :=
  if payload.length ≠ 16 then corrupted "checkpoint payload length must be 16 bytes"
  else .ok (beNat (payload.take 8), beNat (payload.drop 8))

/-- The recovery checkpoint branch of `replay_manifest`. -/
def decodeRecoveryPayload (payload : Bytes) : Exec RecoveryCheckpoint :=
  if payload.length ≠ 24 then corrupted "recovery checkpoint payload length must be 24 bytes"
  else .ok {
    replayStartSegment := beNat (payload.take 8)
    nextPhysicalLsn := beNat ((payload.drop 8).take 8)
    committedSequence := beNat (payload.drop 16) }

/-- One removal. -/
def readRemoval : Decode (Nat × Nat) := do
  let level ← readBe eof 4
  let fileId ← readBe eof 8
  return (level, fileId)

/-- The removals at the head of a compaction payload; `reserved` is what the count check
subtracts from the payload length. -/
def readRemovals (payloadLen reserved : Nat) : Decode (List (Nat × Nat)) := do
  let count ← readBe eof 4
  if (payloadLen - reserved) / 12 < count then
    throw (.error (.corrupted "invalid compaction input count"))
  readRemoval.replicate count

/-- `decode_compaction_payload`. -/
def decodeCompactionPayload (payload : Bytes) : Exec (List (Nat × Nat) × List SSTableMeta) := do
  let (removals, remaining) ← readRemovals payload.length 4 payload
  if remaining = [] then return (removals, [])
  else return (removals, [← decodeAddPayload remaining])

/-- One output of `decode_compaction_outputs`. -/
def readOutput : Decode SSTableMeta := fun data => do
  let (len, rest) ← readBe eof 4 data
  if rest.length < len then corrupted "truncated compaction output"
  else return (← decodeAddPayload (rest.take len), rest.drop len)

/-- The outputs of `decode_compaction_outputs`. -/
def readOutputs : Decode (List SSTableMeta) := fun data => do
  let (count, rest) ← readBe eof 4 data
  if rest.length / 4 < count then corrupted "invalid compaction output count"
  else readOutput.replicate count rest

/-- `decode_compaction_outputs`. -/
def decodeCompactionOutputs (payload : Bytes) : Exec (List (Nat × Nat) × List SSTableMeta) := do
  let (removals, rest) ← readRemovals payload.length 8 payload
  let (outputs, rest) ← readOutputs rest
  if rest ≠ [] then corrupted "trailing compaction output bytes"
  else return (removals, outputs)

/-! ### Replay -/

/-- `file_id + 1`, which panics on overflow. -/
def nextId (fileId : Nat) : Exec Nat := addOrPanic fileId 1

/-- One output of `apply_compaction`. -/
def applyOutput (state : ManifestState) (table : SSTableMeta) : Exec ManifestState := do
  let next ← nextId table.fileId
  return { state with
    nextFileId := max state.nextFileId next
    levels := state.levels.add table }

/-- The removals of `apply_compaction`. -/
def applyRemovals (state : ManifestState) (removals : List (Nat × Nat)) : ManifestState :=
  { state with
    levels := removals.foldl (fun levels removal => levels.remove removal.1 removal.2) state.levels }

/-- `apply_compaction`. -/
def applyCompaction (state : ManifestState) (removals : List (Nat × Nat))
    (outputs : List SSTableMeta) : Exec ManifestState :=
  outputs.foldlM applyOutput (applyRemovals state removals)

/-- One round of the loop in `replay_manifest`. -/
def replayEntry (state : ManifestState) (kind : UInt8) (payload : Bytes) : Exec ManifestState :=
  if kind = entryKindAdd then do
    let table ← decodeAddPayload payload
    let state := { state with levels := state.levels.add table }
    if state.nextFileId ≤ table.fileId then
      return { state with nextFileId := ← nextId table.fileId }
    else return state
  else if kind = entryKindRemove then do
    let (level, fileId) ← decodeRemovePayload payload
    return { state with levels := state.levels.remove level fileId }
  else if kind = entryKindCompaction then do
    let (removals, outputs) ← decodeCompactionPayload payload
    applyCompaction state removals outputs
  else if kind = entryKindCompactionOutputs then do
    let (removals, outputs) ← decodeCompactionOutputs payload
    applyCompaction state removals outputs
  else if kind = entryKindCheckpoint then do
    let (_, activeWalSegment) ← decodeCheckpointPayload payload
    return { state with activeWalSegment }
  else if kind = entryKindRecoveryCheckpoint then do
    let checkpoint ← decodeRecoveryPayload payload
    return { state with
      activeWalSegment := checkpoint.replayStartSegment
      recoveryCheckpoint := some checkpoint }
  else corrupted "unknown manifest entry kind"

/-- The loop of `replay_manifest`. Every round consumes at least nine bytes, so as many rounds
as there are bytes are enough. -/
def replayFrom : Nat → ManifestState → Bytes → Exec ManifestState
  | 0, state, _ => .ok state
  | _ + 1, state, [] => .ok state
  | fuel + 1, state, byte :: data => do
      let (kind, payload, rest) ← decodeEntry (byte :: data)
      let state ← replayEntry state kind payload
      replayFrom fuel state rest

/-- `replay_manifest`. -/
def replayManifest (data : Bytes) : Exec ManifestState :=
  replayFrom data.length .default data

/-! ### The manager -/

/-- `ManifestManager`: the state in memory and the bytes of the file. -/
structure ManifestManager where
  state : ManifestState
  file : Bytes

namespace ManifestManager

/-- `load_or_create` on a file that exists: a missing file is created empty. -/
def loadOrCreate (file : Bytes) : Exec ManifestManager := do
  return { state := ← replayManifest file, file }

/-- `snapshot`. -/
def snapshot (manager : ManifestManager) : ManifestSnapshot := manager.state.snapshot

/-- How an append to the file ends: it returns, or it fails after some bytes of the entry have
reached the file (none when the open failed, all when only the sync failed). -/
inductive AppendOutcome where
  | ok
  | fails (written : Nat)
deriving DecidableEq, Repr

/-- `append_manifest_entry`. -/
def appendManifestEntry (outcome : AppendOutcome) (entry : Bytes) : Op ManifestManager Unit := do
  match outcome with
  | .ok => modify fun manager => { manager with file := manager.file ++ entry }
  | .fails written =>
    modify fun manager => { manager with file := manager.file ++ entry.take written }
    throw (.error (.io .other))

/-- Changes the state in memory. -/
def modifyState (f : ManifestState → ManifestState) : Op ManifestManager Unit :=
  modify fun manager => { manager with state := f manager.state }

/-- `allocate_file_id`. -/
def allocateFileId : Op ManifestManager Nat := do
  let fileId := (← get).state.nextFileId
  match checkedAdd fileId 1 with
  | some next =>
    modifyState fun state => { state with nextFileId := next }
    return fileId
  | none => throw (.error (.storageError "manifest file id overflow"))

/-- `register_sstable`. The overflow check comes after the table is in memory. -/
def registerSstable (outcome : AppendOutcome) (table : SSTableMeta) : Op ManifestManager Unit := do
  let payload ← Act.ofExcept (encodeAddPayload table)
  let entry ← Act.ofExcept (encodeEntry entryKindAdd payload)
  appendManifestEntry outcome entry
  modifyState fun state => { state with levels := state.levels.add table }
  if (← get).state.nextFileId ≤ table.fileId then
    match checkedAdd table.fileId 1 with
    | some next => modifyState fun state => { state with nextFileId := next }
    | none => throw (.error (.storageError "manifest file id overflow"))

/-- The part of `apply_compaction` for the outputs, on the state in memory: what was applied
before an overflow stays. -/
def applyOutputs : List SSTableMeta → Op ManifestManager Unit
  | [] => return
  | table :: outputs => do
      let next ← Act.ofExcept (nextId table.fileId)
      modifyState fun state => { state with
        nextFileId := max state.nextFileId next
        levels := state.levels.add table }
      applyOutputs outputs

/-- `publish_compaction`. The state must still be the one the compaction started from. -/
def publishCompaction (outcome : AppendOutcome) (expected : ManifestSnapshot)
    (inputs outputs : List SSTableMeta) : Op ManifestManager Unit := do
  let state := (← get).state
  if state.levels.toList ≠ expected.levels.toList then
    throw (.error (.storageError "manifest changed during compaction"))
  let removals := inputs.map fun table => (table.level, table.fileId)
  let entry ← Act.ofExcept (encodeCompactionEntry removals outputs)
  appendManifestEntry outcome entry
  modifyState fun state => applyRemovals state removals
  applyOutputs outputs

/-- `remove_sstable`. -/
def removeSstable (outcome : AppendOutcome) (level fileId : Nat) : Op ManifestManager Unit := do
  let entry ← Act.ofExcept (encodeEntry entryKindRemove (encodeRemovePayload (level, fileId)))
  appendManifestEntry outcome entry
  modifyState fun state => { state with levels := state.levels.remove level fileId }

/-- `mark_checkpoint`. -/
def markCheckpoint (outcome : AppendOutcome) (checkpointLsn activeWalSegment : Nat) :
    Op ManifestManager Unit := do
  let payload := encodeCheckpointPayload checkpointLsn activeWalSegment
  let entry ← Act.ofExcept (encodeEntry entryKindCheckpoint payload)
  appendManifestEntry outcome entry
  modifyState fun state => { state with checkpointLsn, activeWalSegment }

/-- `publish_recovery_checkpoint`. -/
def publishRecoveryCheckpoint (outcome : AppendOutcome) (checkpoint : RecoveryCheckpoint) :
    Op ManifestManager Unit := do
  let entry ← Act.ofExcept
    (encodeEntry entryKindRecoveryCheckpoint (encodeRecoveryPayload checkpoint))
  appendManifestEntry outcome entry
  modifyState fun state => { state with
    activeWalSegment := checkpoint.replayStartSegment
    recoveryCheckpoint := some checkpoint }

end ManifestManager

end CereDB.Storage

import CereDB.Storage.Wal

/-!
# `CereDB.Storage.WalRead`: values behind references, and the read-only recovery

`WalValueRef::validate`, `read_value`, `recover_records_with_refs` and `preflight_recovery` of
`src/storage/recovermanager/wal.rs`. A read goes over the contents of one segment file. Slices and
subtractions panic as in the source where nothing guards them. The conversions between `usize` and
`u64` are left out: both have 64 bits.
-/

set_option autoImplicit false

namespace CereDB.Storage

open CereDB.Lib

/-- `if bad { return Err(DBError::Corrupted(message)) }`. -/
def rejectIf (bad : Prop) [Decidable bad] (message : String) : Exec Unit :=
  if bad then corrupted message else .ok ()

/-- `checked_add` on offsets and lengths. -/
def addOrCorrupted (message : String) (a b : Nat) : Exec Nat :=
  match checkedAdd a b with
  | some sum => .ok sum
  | none => corrupted message

/-- `u32::try_from(n).ok()`. -/
def toU32 (n : Nat) : Option Nat := if n < u32Limit then some n else none

/-- `bytes[start..stop]`. -/
def sliceOf (bytes : Bytes) (start stop : Nat) : Exec Bytes :=
  if start ≤ stop ∧ stop ≤ bytes.length then .ok ((bytes.drop start).take (stop - start))
  else .error (.panic "range out of bounds")

/-- `read_exact_at`. -/
def readExactAt (bytes : Bytes) (offset length : Nat) : Exec Bytes :=
  if offset + length ≤ bytes.length then .ok ((bytes.drop offset).take length) else .error eof

/-- `MIN_WAL_UPDATE_FRAME_SIZE`. -/
def minWalUpdateFrameSize : Nat := frameHeaderSize + 42

/-- `MAX_WAL_UPDATE_FRAME_SIZE`. -/
def maxWalUpdateFrameSize : Nat := frameHeaderSize + maxFrameSize

/-- `WalValueRef::validate`. -/
def WalValueRef.validate (reference : WalValueRef) : Exec Unit := do
  rejectIf (reference.transactionId = 0 ∨ reference.physicalLsn < reference.transactionId ∨
    reference.commitLsn ≤ reference.physicalLsn) "Invalid WAL value reference LSNs"
  rejectIf (reference.transactionStartOffset < walHeaderSize ∨
    reference.commitOffset ≤ reference.transactionStartOffset ∨
    reference.frameOffset < reference.transactionStartOffset) "Invalid WAL value reference offsets"
  let frameEnd ← addOrCorrupted "WAL value reference overflow" reference.frameOffset
    reference.frameLength
  rejectIf (reference.commitOffset < frameEnd) "WAL value reference frame is not before its commit"
  let length ← addOrCorrupted "WAL value reference length overflow" 42 reference.keyLength
  let bodyLength ← addOrCorrupted "WAL value reference length overflow" length reference.valueLength
  rejectIf (maxFrameSize < bodyLength) "WAL value reference payload is too large"
  rejectIf (reference.frameLength ≠ frameHeaderSize + bodyLength ∨
    reference.frameLength < minWalUpdateFrameSize ∨ maxWalUpdateFrameSize < reference.frameLength)
    "Invalid WAL value reference frame length"
  rejectIf (reference.recordType = .delete ∧ reference.valueLength ≠ 0)
    "Delete WAL value reference has a value"

/-! ### The loop over a transaction -/

/-- The variables of the loop in `read_value`. -/
structure TransactionLoop where
  cursor : Nat
  previousLsn : Nat
  firstLsn : Option Nat
  selected : Option LogCommand
deriving DecidableEq, Repr

/-- The frame at the cursor and the place behind it. -/
def frameAt (transaction : Bytes) (cursor : Nat) : Exec (Frame × Nat) := do
  rejectIf (transaction.length - cursor < frameHeaderSize) "Incomplete WAL transaction frame"
  let bodyStart := cursor + frameHeaderSize
  let frameHeader ← sliceOf transaction cursor bodyStart
  let (frameLsn, frameBodyLength) ← decodeFrameHeader frameHeader
  rejectIf (frameBodyLength < 17 ∨ maxFrameSize < frameBodyLength) "Invalid WAL frame size"
  let frameLength ← addOrCorrupted "WAL frame length overflow" frameHeaderSize frameBodyLength
  let frameEnd ← addOrCorrupted "WAL frame length overflow" cursor frameLength
  rejectIf (transaction.length < frameEnd) "Incomplete WAL transaction frame"
  let body ← sliceOf transaction bodyStart frameEnd
  let _ ← verifyFrameBody frameHeader body
  let frame ← decodeFrame frameLsn body
  return (frame, frameEnd)

/-- The checks that link a frame to the reference and to the frame before. -/
def checkChain (reference : WalValueRef) (loop : TransactionLoop) (frame : Frame) : Exec Unit := do
  rejectIf (frame.transactionId ≠ reference.transactionId) "WAL transaction identity mismatch"
  if loop.firstLsn.isSome then
    let expectedLsn ← addOrCorrupted "WAL transaction LSN overflow" loop.previousLsn 1
    rejectIf (frame.lsn ≠ expectedLsn ∨ frame.previousLsn ≠ loop.previousLsn)
      "Invalid WAL transaction chain"
  else
    rejectIf (frame.lsn ≠ reference.transactionId ∨ frame.previousLsn ≠ 0)
      "Invalid WAL transaction start"

/-- The part of a round that looks at the record: an update may be the selected one, and a commit
has to be the one of the reference, at the end. -/
def selectCommand (reference : WalValueRef) (length : Nat) (loop : TransactionLoop) (frame : Frame)
    (frameEnd : Nat) : Exec (Option LogCommand) := do
  let frameOffset ← addOrCorrupted "WAL offset overflow" reference.transactionStartOffset loop.cursor
  match frame.record with
  | .update command =>
    rejectIf (frameEnd = length) "WAL transaction has no commit"
    if frameOffset = reference.frameOffset then
      rejectIf loop.selected.isSome "WAL value reference frame is duplicated"
      rejectIf (frame.lsn ≠ reference.physicalLsn ∨
        toU32 (frameEnd - loop.cursor) ≠ some reference.frameLength)
        "WAL value reference frame mismatch"
      return some command
    else return loop.selected
  | .commit =>
    rejectIf (frameOffset ≠ reference.commitOffset ∨ frame.lsn ≠ reference.commitLsn ∨
      frameEnd ≠ length) "WAL value reference commit mismatch"
    return loop.selected

/-- The loop over the frames of the transaction. A frame has at least 37 bytes, so as many rounds as
there are bytes, and one to see the end, are enough. -/
def readTransaction (reference : WalValueRef) (transaction : Bytes) :
    Nat → TransactionLoop → Exec TransactionLoop
  | 0, _ => .error (.panic "out of rounds")
  | fuel + 1, loop => do
      if loop.cursor < transaction.length then
        let (frame, frameEnd) ← frameAt transaction loop.cursor
        checkChain reference loop frame
        let selected ← selectCommand reference transaction.length loop frame frameEnd
        readTransaction reference transaction fuel {
          cursor := frameEnd
          previousLsn := frame.lsn
          firstLsn := some (loop.firstLsn.getD frame.lsn)
          selected }
      else return loop

/-! ### `read_value` -/

/-- The checks of the segment header. -/
def checkSegmentHeader (bytes : Bytes) : Exec Unit := do
  rejectIf (bytes.length < walHeaderSize) "WAL segment is shorter than its header"
  let header ← WALHeader.decode (← readExactAt bytes 0 walHeaderSize)
  if header.version ≠ walVersion then
    storageError "Legacy WAL segments do not support value references"
  else
    rejectIf (header.lastCheckpoint ≠ 0 ∨ header.lastCheckpointOffset ≠ 0)
      "Unsupported WAL checkpoint metadata"

/-- The checks of the commit frame: the offset behind it. -/
def checkCommit (bytes : Bytes) (reference : WalValueRef) : Exec Nat := do
  let commitHeaderEnd ← addOrCorrupted "WAL value reference commit overflow" reference.commitOffset
    frameHeaderSize
  rejectIf (bytes.length < commitHeaderEnd) "WAL value reference commit is outside the segment"
  let commitHeader ← readExactAt bytes reference.commitOffset frameHeaderSize
  let (commitLsn, commitBodyLength) ← decodeFrameHeader commitHeader
  rejectIf (commitLsn ≠ reference.commitLsn) "WAL value reference commit LSN mismatch"
  rejectIf (commitBodyLength < 17 ∨ maxFrameSize < commitBodyLength) "Invalid WAL commit frame size"
  let commitEnd ← addOrCorrupted "WAL value reference commit overflow" commitHeaderEnd
    commitBodyLength
  rejectIf (bytes.length < commitEnd) "WAL value reference commit is truncated"
  return commitEnd

/-- The checks of the header of the referenced frame. -/
def checkFrame (bytes : Bytes) (reference : WalValueRef) : Exec Unit := do
  let frameHeader ← readExactAt bytes reference.frameOffset frameHeaderSize
  let (frameLsn, frameBodyLength) ← decodeFrameHeader frameHeader
  rejectIf (frameBodyLength < 17 ∨ maxFrameSize < frameBodyLength)
    "Invalid WAL value reference frame size"
  let frameLength ← addOrCorrupted "WAL frame length overflow" frameHeaderSize frameBodyLength
  rejectIf (frameLsn ≠ reference.physicalLsn ∨ toU32 frameLength ≠ some reference.frameLength)
    "WAL value reference frame mismatch"

/-- The bytes from the start of the transaction up to the end of its commit frame. -/
def readSpan (bytes : Bytes) (reference : WalValueRef) (commitEnd : Nat) : Exec Bytes := do
  rejectIf (commitEnd < reference.transactionStartOffset)
    "WAL value reference transaction order is invalid"
  let span := commitEnd - reference.transactionStartOffset
  rejectIf (maxGroupEncodedSize < span) "WAL value reference transaction is too large"
  readExactAt bytes reference.transactionStartOffset span

/-- The checks of the selected command: its value. -/
def checkSelected (reference : WalValueRef) (expectedKey : Key) (expectedApplicationSequence : Nat)
    (command : LogCommand) : Exec Bytes := do
  rejectIf (command.recordType ≠ .put ∨ reference.recordType ≠ .put)
    "WAL value reference is not a put"
  rejectIf (command.lsn ≠ reference.applicationSequence ∨
    command.lsn ≠ expectedApplicationSequence) "WAL value reference application sequence mismatch"
  rejectIf (command.key ≠ expectedKey) "WAL value reference key mismatch"
  rejectIf (toU32 command.key.length ≠ some reference.keyLength ∨
    crc32 command.key ≠ reference.keyChecksum) "WAL value reference key metadata mismatch"
  rejectIf (command.value.length ≠ reference.valueLength ∨
    crc32 command.value ≠ reference.valueChecksum) "WAL value reference value metadata mismatch"
  return command.value

/-- `read_value` on the contents of the segment file. -/
def readSegmentValue (bytes : Bytes) (reference : WalValueRef) (expectedKey : Key)
    (expectedApplicationSequence : Nat) : Exec Bytes := do
  checkSegmentHeader bytes
  let commitEnd ← checkCommit bytes reference
  checkFrame bytes reference
  let transaction ← readSpan bytes reference commitEnd
  let loop ← readTransaction reference transaction (transaction.length + 1)
    { cursor := 0, previousLsn := 0, firstLsn := none, selected := none }
  rejectIf (loop.cursor ≠ transaction.length ∨ loop.firstLsn ≠ some reference.transactionId)
    "WAL transaction does not end at its commit"
  match loop.selected with
  | none => corrupted "WAL value reference frame is missing"
  | some command => checkSelected reference expectedKey expectedApplicationSequence command

/-- `read_value`. -/
def readValue (disk : Disk Nat) (reference : WalValueRef) (expectedKey : Key)
    (expectedApplicationSequence : Nat) : Exec Bytes := do
  reference.validate
  match disk[reference.segmentId]? with
  | none => corrupted "WAL value reference segment is missing"
  | some file => readSegmentValue file.bytes reference expectedKey expectedApplicationSequence

/-! ### Recovery with references -/

/-- `recover_records_with_refs`. -/
def Wal.recoverRecordsWithRefs : Op Wal (List RecoveredWalUpdate) := do
  let analysis ← Wal.analyzeCommitted true
  Act.ofExcept analysis.redoWithRefs

/-- `preflight_recovery`: the largest recovered sequence number and the next physical LSN. -/
def preflightRecovery : Op (Io Nat) (Nat × Nat) := do
  let ids ← Act.ofExcept (segmentPaths (← get).disk none)
  let (analysis, _) ← scanSegments .allow ids (.new 0 true, walVersion)
  let nextPhysicalLsn ← Act.ofExcept
    (addOrCorrupted "WAL physical LSN overflow" analysis.latestLsn 1)
  let recovered ← Act.ofExcept analysis.redoWithRefs
  return ((recovered.map fun update => update.record.lsn).max?.getD 0, nextPhysicalLsn)

end CereDB.Storage

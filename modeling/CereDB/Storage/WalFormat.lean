import CereDB.Storage.Base

/-!
# `CereDB.Storage.WalFormat`: the bytes of a WAL segment

The header, the frames and the recovery analysis of `src/storage/recovermanager/wal.rs`. A
segment is a header of 36 bytes and a sequence of frames. A frame carries its physical LSN, the
length and two checksums in front of a body, which is an update or the commit of a transaction.
Segments of version 1 hold records without transactions.

`scanFrames` and `scanLegacy` are the two forms of the loop in `scan_segment_with_tail_handling`.
They return the analysis and the offset behind the last whole record. The checks of the source
that a length fits in `usize` or `u64` are left out: lengths of vectors always do.
-/

set_option autoImplicit false

namespace CereDB.Storage

open CereDB.Lib

/-- `WAL_HEADER_SIZE`. -/
def walHeaderSize : Nat := 36

/-- `WAL_MAGIC`: `WALMGIC` and a zero byte. -/
def walMagic : Bytes := [87, 65, 76, 77, 71, 73, 67, 0]

/-- `WAL_VERSION`. -/
def walVersion : Nat := 2

/-- `LEGACY_WAL_VERSION`. -/
def legacyWalVersion : Nat := 1

/-- `MAX_FRAME_SIZE`. -/
def maxFrameSize : Nat := 64 * 1024 * 1024

/-- `FRAME_HEADER_SIZE`. -/
def frameHeaderSize : Nat := 20

/-! ### The segment header -/

/-- `WALHeader`. -/
structure WALHeader where
  magic : Bytes
  version : Nat
  lastCheckpoint : Nat
  lastCheckpointOffset : Nat
deriving DecidableEq, Repr

namespace WALHeader

/-- `WALHeader::default`. -/
def default : WALHeader where
  magic := walMagic
  version := walVersion
  lastCheckpoint := 0
  lastCheckpointOffset := 0

/-- The fields in front of the checksum. -/
def fields (header : WALHeader) : Bytes :=
  header.magic ++ beBytes 8 header.version ++ beBytes 8 header.lastCheckpoint ++
    beBytes 8 header.lastCheckpointOffset

/-- `WALHeader::encode`. -/
def encode (header : WALHeader) : Bytes := header.fields ++ beBytes 4 (crc32 header.fields)

/-- `WALHeader::decode`. -/
def decode (buf : Bytes) : Exec WALHeader :=
  if buf.length < walHeaderSize then corrupted "Buffer too short for WAL header"
  else if buf.take 8 ≠ walMagic then corrupted "Invalid WAL magic number"
  else
    let version := beNat ((buf.drop 8).take 8)
    if version ≠ legacyWalVersion ∧ version ≠ walVersion then corrupted "Unsupported WAL version"
    else if beNat ((buf.drop 32).take 4) ≠ crc32 (buf.take 32) then
      corrupted "WAL header checksum mismatch"
    else .ok {
      magic := buf.take 8
      version
      lastCheckpoint := beNat ((buf.drop 16).take 8)
      lastCheckpointOffset := beNat ((buf.drop 24).take 8) }

end WALHeader

/-! ### Frames -/

/-- `TransactionRecord`. -/
inductive TransactionRecord where
  | update (command : LogCommand)
  | commit
deriving DecidableEq, Repr

/-- `Frame`. -/
structure Frame where
  lsn : Nat
  transactionId : Nat
  previousLsn : Nat
  record : TransactionRecord
deriving DecidableEq, Repr

/-- The kind byte of a frame body. -/
def TransactionRecord.kind : TransactionRecord → UInt8
  | .update _ => 1
  | .commit => 2

/-- The part of a frame body that only an update has. -/
def TransactionRecord.payload : TransactionRecord → Bytes
  | .update command =>
    command.recordType.toByte :: (beBytes 8 command.lsn ++ beBytes 8 command.key.length ++
      beBytes 8 command.value.length ++ command.key ++ command.value)
  | .commit => []

namespace Frame

/-- The body `encode_frame` builds. -/
def body (frame : Frame) : Bytes :=
  frame.record.kind :: (beBytes 8 frame.transactionId ++ beBytes 8 frame.previousLsn ++
    frame.record.payload)

/-- The LSN and the length of the body. -/
def lead (frame : Frame) : Bytes := beBytes 8 frame.lsn ++ beBytes 4 frame.body.length

/-- The checksum of the lead and the body. -/
def checksum (frame : Frame) : Nat := crc32 (frame.lead ++ frame.body)

/-- The header in front of the body: the lead and two checksums, the second one over all in
front of it. -/
def header (frame : Frame) : Bytes :=
  frame.lead ++ beBytes 4 frame.checksum ++
    beBytes 4 (crc32 (frame.lead ++ beBytes 4 frame.checksum))

/-- The bytes of a frame. -/
def bytes (frame : Frame) : Bytes := frame.header ++ frame.body

end Frame

/-- The size check at the head of `encode_frame`. -/
def TransactionRecord.tooLarge : TransactionRecord → Bool
  | .update command => maxFrameSize < 42 + command.key.length + command.value.length
  | .commit => false

/-- `encode_frame`. -/
def encodeFrame (frame : Frame) : Exec Bytes :=
  if frame.record.tooLarge then storageError "WAL frame exceeds 64 MiB"
  else if maxFrameSize < frame.body.length then storageError "WAL frame exceeds 64 MiB"
  else .ok frame.bytes

/-- `decode_frame_header` on the 20 bytes of a frame header. -/
def decodeFrameHeader (header : Bytes) : Exec (Nat × Nat) :=
  if beNat ((header.drop 16).take 4) ≠ crc32 (header.take 16) then
    corrupted "WAL frame header checksum mismatch"
  else .ok (beNat (header.take 8), beNat ((header.drop 8).take 4))

/-- `verify_frame_body`. -/
def verifyFrameBody (header body : Bytes) : Exec Nat :=
  let checksum := beNat ((header.drop 12).take 4)
  if checksum ≠ crc32 (header.take 12 ++ body) then corrupted "WAL frame checksum mismatch"
  else .ok checksum

/-- `decode_record_type` of the WAL. -/
def decodeWalRecordType (value : UInt8) : Exec RecordType :=
  if value = 1 then .ok .put
  else if value = 2 then .ok .delete
  else corrupted "Invalid WAL operation"

/-- One byte. -/
def readByte : Decode UInt8 := fun bytes =>
  match bytes with
  | byte :: rest => .ok (byte, rest)
  | [] => .error eof

/-- A record type. -/
def readWalRecordType : Decode RecordType := do
  let byte ← readByte
  fun rest => (decodeWalRecordType byte).map fun recordType => (recordType, rest)

/-- The update branch of `decode_frame`. -/
def readUpdate : Decode LogCommand := do
  let recordType ← readWalRecordType
  let lsn ← readBe eof 8
  let keyLength ← readBe eof 8
  let valueLength ← readBe eof 8
  let key ← readExact eof keyLength
  let value ← readExact eof valueLength
  if recordType = .delete ∧ value ≠ [] then
    throw (.error (.corrupted "Delete contains a value"))
  return { recordType, key, value, lsn }

/-- The record of a frame body, by its kind. -/
def readTransactionRecord (kind : UInt8) : Decode TransactionRecord :=
  if kind = 1 then do return .update (← readUpdate)
  else if kind = 2 then return .commit
  else throw (.error (.corrupted "Invalid WAL transaction record"))

/-- The body of a frame, with the bytes behind it left over. -/
def readFrame (lsn : Nat) : Decode Frame := do
  let kind ← readByte
  let transactionId ← readBe eof 8
  let previousLsn ← readBe eof 8
  let record ← readTransactionRecord kind
  return { lsn, transactionId, previousLsn, record }

/-- `decode_frame`. -/
def decodeFrame (lsn : Nat) (body : Bytes) : Exec Frame := do
  let (frame, rest) ← readFrame lsn body
  if rest ≠ [] then corrupted "Trailing WAL record bytes" else return frame

/-! ### Analysis -/

/-- `WALRecord`. -/
structure WALRecord where
  recordType : UInt8
  lsn : Nat
  key : Key
  value : Bytes
  checksum : Nat
deriving DecidableEq, Repr

/-- `FramePosition`. -/
structure FramePosition where
  segmentId : Nat
  offset : Nat
  length : Nat
deriving DecidableEq, Repr

/-- `UpdatePosition`. -/
structure UpdatePosition where
  segmentId : Nat
  transactionStartOffset : Nat
  frameOffset : Nat
  frameLength : Nat
  physicalLsn : Nat
deriving DecidableEq, Repr

/-- `CommitPosition`. -/
structure CommitPosition where
  frameOffset : Nat
  commitLsn : Nat
deriving DecidableEq, Repr

/-- `LoggedUpdate`. -/
structure LoggedUpdate where
  transactionId : Nat
  command : LogCommand
  checksum : Nat
  position : Option UpdatePosition
deriving DecidableEq, Repr

/-- `Analysis`: what the scan of the segments has found. -/
structure Analysis where
  latestLsn : Nat
  previousLsns : OrdMap Nat Nat
  committedTransactions : Finset Nat
  updates : List LoggedUpdate
  legacy : List WALRecord
  trackRefs : Bool
  transactionStarts : OrdMap Nat Nat
  commitPositions : OrdMap Nat CommitPosition

namespace Analysis

/-- `Analysis::default`, with the two fields its callers set. -/
def new (latestLsn : Nat) (trackRefs : Bool) : Analysis where
  latestLsn := latestLsn
  previousLsns := ∅
  committedTransactions := ∅
  updates := []
  legacy := []
  trackRefs := trackRefs
  transactionStarts := ∅
  commitPositions := ∅

/-- The previous LSN of a transaction, zero when it has none. -/
def previousLsn (analysis : Analysis) (transactionId : Nat) : Nat :=
  (analysis.previousLsns[transactionId]?).getD 0

/-- The update branch of `accept`. -/
def acceptUpdate (analysis : Analysis) (frame : Frame) (command : LogCommand) (checksum : Nat)
    (position : FramePosition) : Analysis :=
  let starts :=
    if analysis.trackRefs && analysis.previousLsn frame.transactionId == 0 then
      analysis.transactionStarts.insert frame.transactionId position.offset
    else analysis.transactionStarts
  let updatePosition : UpdatePosition := {
    segmentId := position.segmentId
    transactionStartOffset := (starts[frame.transactionId]?).getD position.offset
    frameOffset := position.offset
    frameLength := position.length
    physicalLsn := frame.lsn }
  { analysis with
    transactionStarts := starts
    updates := analysis.updates ++ [{
      transactionId := frame.transactionId
      command
      checksum
      position := if analysis.trackRefs then some updatePosition else none }] }

/-- The commit branch of `accept`. -/
def acceptCommit (analysis : Analysis) (frame : Frame) (position : FramePosition) : Analysis :=
  { analysis with
    committedTransactions := insert frame.transactionId analysis.committedTransactions
    commitPositions :=
      if analysis.trackRefs then
        analysis.commitPositions.insert frame.transactionId ⟨position.offset, frame.lsn⟩
      else analysis.commitPositions }

/-- `Analysis::accept`. -/
def accept (analysis : Analysis) (frame : Frame) (checksum : Nat) (position : FramePosition) :
    Exec Analysis := do
  let previousLsn := analysis.previousLsn frame.transactionId
  let expected ← addOrPanic analysis.latestLsn 1
  if frame.lsn ≠ expected ∨ frame.transactionId = 0 ∨
      frame.transactionId ∈ analysis.committedTransactions ∨ frame.previousLsn ≠ previousLsn then
    corrupted "Invalid WAL transaction chain"
  else do
    let accepted ← match frame.record with
      | .update command => (.ok (analysis.acceptUpdate frame command checksum position) : Exec _)
      | .commit =>
        if previousLsn = 0 then corrupted "Commit without update"
        else .ok (analysis.acceptCommit frame position)
    return { accepted with
      latestLsn := frame.lsn
      previousLsns := accepted.previousLsns.insert frame.transactionId frame.lsn }

end Analysis

/-- The record `redo` returns for an update. -/
def LoggedUpdate.toRecord (update : LoggedUpdate) : WALRecord where
  recordType := update.command.recordType.toByte
  lsn := update.command.lsn
  key := update.command.key
  value := update.command.value
  checksum := update.checksum

/-- `WalValueRef`. -/
structure WalValueRef where
  segmentId : Nat
  transactionId : Nat
  transactionStartOffset : Nat
  commitOffset : Nat
  commitLsn : Nat
  frameOffset : Nat
  frameLength : Nat
  physicalLsn : Nat
  applicationSequence : Nat
  recordType : RecordType
  keyLength : Nat
  keyChecksum : Nat
  valueLength : Nat
  valueChecksum : Nat
deriving DecidableEq, Repr

/-- `RecoveredWalUpdate`. -/
structure RecoveredWalUpdate where
  record : WALRecord
  reference : WalValueRef
deriving DecidableEq, Repr

namespace Analysis

/-- The updates of committed transactions, in the order of the log. -/
def committedUpdates (analysis : Analysis) : List LoggedUpdate :=
  analysis.updates.filter fun update => update.transactionId ∈ analysis.committedTransactions

/-- `Analysis::redo`. -/
def redo (analysis : Analysis) : List WALRecord :=
  analysis.legacy ++ analysis.committedUpdates.map LoggedUpdate.toRecord

/-- The reference of one committed update in `redo_with_refs`. -/
def redoWithRef (analysis : Analysis) (update : LoggedUpdate) : Exec RecoveredWalUpdate :=
  match update.position with
  | none => storageError "WAL recovery is missing an update position"
  | some position =>
    match analysis.commitPositions[update.transactionId]? with
    | none => storageError "WAL recovery is missing a commit position"
    | some commit =>
      let command := update.command
      if u32Limit ≤ command.key.length then corrupted "WAL key length overflow"
      else .ok {
        record := update.toRecord
        reference := {
          segmentId := position.segmentId
          transactionId := update.transactionId
          transactionStartOffset := position.transactionStartOffset
          commitOffset := commit.frameOffset
          commitLsn := commit.commitLsn
          frameOffset := position.frameOffset
          frameLength := position.frameLength
          physicalLsn := position.physicalLsn
          applicationSequence := command.lsn
          recordType := command.recordType
          keyLength := command.key.length
          keyChecksum := crc32 command.key
          valueLength := command.value.length
          valueChecksum := crc32 command.value } }

/-- `Analysis::redo_with_refs`. -/
def redoWithRefs (analysis : Analysis) : Exec (List RecoveredWalUpdate) :=
  if analysis.legacy ≠ [] then storageError "Legacy WAL records do not carry value references"
  else analysis.committedUpdates.mapM analysis.redoWithRef

end Analysis

/-! ### Scanning -/

/-- The fields of a legacy record in front of its checksum. -/
def readLegacyFields : Decode (UInt8 × Nat × Bytes × Bytes) := do
  let recordType ← readByte
  let _ ← (fun rest => (decodeWalRecordType recordType).map fun _ => ((), rest) : Decode Unit)
  let lsn ← readBe eof 8
  let keyLength ← readBe eof 8
  let key ← readExact eof keyLength
  let valueLength ← readBe eof 8
  let value ← readExact eof valueLength
  return (recordType, lsn, key, value)

/-- `decode_legacy`: the record and what follows it. -/
def decodeLegacy (bytes : Bytes) : Exec (WALRecord × Bytes) := do
  let ((recordType, lsn, key, value), rest) ← readLegacyFields bytes
  let payloadLength := bytes.length - rest.length
  let (checksum, rest) ← readBe eof 4 rest
  if crc32 (bytes.take payloadLength) ≠ checksum then corrupted "Legacy WAL checksum mismatch"
  else return ({ recordType, lsn, key, value, checksum }, rest)

/-- The loop over a segment of version 1. A record has at least 29 bytes, so as many rounds as
there are bytes are enough. -/
def scanLegacy : Nat → Bytes → Nat → Analysis → Exec (Analysis × Nat)
  | 0, _, offset, analysis => .ok (analysis, offset)
  | fuel + 1, rest, offset, analysis =>
    if rest = [] then .ok (analysis, offset)
    else
      match decodeLegacy rest with
      | .ok (record, rest') =>
        scanLegacy fuel rest' (offset + (rest.length - rest'.length))
          { analysis with legacy := analysis.legacy ++ [record] }
      | .error halt => if halt = eof then .ok (analysis, offset) else .error halt

/-- `decode_frame` as the scan calls it: every error becomes corruption. -/
def decodeScannedFrame (lsn : Nat) (body : Bytes) : Exec Frame :=
  match decodeFrame lsn body with
  | .error (.error e) => corrupted ("Invalid WAL frame: " ++ e.display)
  | outcome => outcome

/-- The loop over a segment of version 2. It stops in front of a frame that is not whole. A frame
has at least 37 bytes, so as many rounds as there are bytes are enough. -/
def scanFrames (segmentId : Nat) : Nat → Bytes → Nat → Analysis → Exec (Analysis × Nat)
  | 0, _, offset, analysis => .ok (analysis, offset)
  | fuel + 1, rest, offset, analysis =>
    if rest.length < frameHeaderSize then .ok (analysis, offset)
    else do
      let header := rest.take frameHeaderSize
      let (lsn, length) ← decodeFrameHeader header
      if length < 17 ∨ maxFrameSize < length then corrupted "Invalid WAL frame size"
      else if rest.length - frameHeaderSize < length then .ok (analysis, offset)
      else do
        let body := (rest.drop frameHeaderSize).take length
        let checksum ← verifyFrameBody header body
        let frame ← decodeScannedFrame lsn body
        let analysis ← analysis.accept frame checksum ⟨segmentId, offset, frameHeaderSize + length⟩
        scanFrames segmentId fuel (rest.drop (frameHeaderSize + length))
          (offset + frameHeaderSize + length) analysis

/-- The headers a file shorter than a header may be the start of: a legacy one only in front of
all transactional frames. -/
def headerFor (latestLsn : Nat) (bytes : Bytes) : Option Bytes :=
  ([walVersion, legacyWalVersion].filter fun version =>
      version ≠ legacyWalVersion ∨ latestLsn = 0).map (fun version =>
        ({ WALHeader.default with version } : WALHeader).encode)
    |>.find? fun header => bytes.isPrefixOf header

/-- The scan of whole segment bytes: the version and the offset behind the last whole record. -/
def scanBytes (segmentId : Nat) (bytes : Bytes) (analysis : Analysis) :
    Exec (Analysis × Nat × Nat) := do
  let header ← WALHeader.decode bytes
  if header.version = legacyWalVersion ∧ analysis.latestLsn ≠ 0 then
    corrupted "Legacy WAL after transactional segment"
  else if header.lastCheckpoint ≠ 0 ∨ header.lastCheckpointOffset ≠ 0 then
    corrupted "Unsupported WAL checkpoint metadata"
  else do
    let rest := bytes.drop walHeaderSize
    let (analysis, offset) ←
      if header.version = legacyWalVersion then
        scanLegacy rest.length rest walHeaderSize analysis
      else
        scanFrames (if analysis.trackRefs then segmentId else 0) rest.length rest walHeaderSize
          analysis
    return (analysis, header.version, offset)

end CereDB.Storage

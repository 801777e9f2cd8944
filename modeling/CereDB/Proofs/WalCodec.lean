import CereDB.Storage.WalFormat

/-!
# `CereDB.Proofs.WalCodec`: frames are read back

The bytes of a valid frame decode to that frame (`decodeFrame_body`, with the two checksum
checks `decodeFrameHeader_header` and `verifyFrameBody_body`). From them comes what one round of
the scan does: in front of a whole frame it accepts the frame and goes on (`scanFrames_frame`),
and in front of a torn one it stops (`scanFrames_torn`). `scanFrames_frames` is the whole loop:
the scan of the bytes of frames is the analysis of the frames.
-/

set_option autoImplicit false

namespace CereDB.Storage

open CereDB.Lib

/-! ### Valid frames -/

/-- A command the log takes: a delete has no value, the frame is not too large, and the LSN is a
`u64`. -/
structure LogCommand.Loggable (command : LogCommand) : Prop where
  delete_empty : command.recordType = .delete → command.value = []
  size : 42 + command.key.length + command.value.length ≤ maxFrameSize
  lsn : command.lsn < 256 ^ 8

/-- The command of an update can be logged. -/
def TransactionRecord.Valid : TransactionRecord → Prop
  | .update command => command.Loggable
  | .commit => True

/-- A frame whose fields fit their widths. -/
structure Frame.Valid (frame : Frame) : Prop where
  lsn : frame.lsn < 256 ^ 8
  transactionId : frame.transactionId < 256 ^ 8
  previousLsn : frame.previousLsn < 256 ^ 8
  record : frame.record.Valid

/-- The number of bytes of a frame, by its record. -/
def TransactionRecord.size : TransactionRecord → Nat
  | .update command => 62 + command.key.length + command.value.length
  | .commit => 37

theorem Frame.length_body (frame : Frame) : frame.body.length + 20 = frame.record.size := by
  unfold Frame.body
  cases frame.record with
  | update command =>
    simp only [TransactionRecord.payload, TransactionRecord.size, List.length_cons,
      List.length_append, length_beBytes]
    omega
  | commit =>
    simp [TransactionRecord.payload, TransactionRecord.size]

theorem Frame.length_lead (frame : Frame) : frame.lead.length = 12 := by
  simp [Frame.lead]

theorem Frame.length_header (frame : Frame) : frame.header.length = frameHeaderSize := by
  simp [Frame.header, Frame.length_lead, frameHeaderSize]

theorem Frame.length_bytes (frame : Frame) : frame.bytes.length = frame.record.size := by
  rw [Frame.bytes, List.length_append, Frame.length_header, ← Frame.length_body, frameHeaderSize,
    Nat.add_comm]

theorem Frame.Valid.length_body_le {frame : Frame} (h : frame.Valid) :
    17 ≤ frame.body.length ∧ frame.body.length ≤ maxFrameSize := by
  have hlength := frame.length_body
  have hrecord := h.record
  cases hkind : frame.record with
  | update command =>
    rw [hkind] at hlength hrecord
    have hsize := LogCommand.Loggable.size hrecord
    simp only [TransactionRecord.size] at hlength
    omega
  | commit =>
    rw [hkind] at hlength
    simp only [TransactionRecord.size] at hlength
    have hmax : 17 ≤ maxFrameSize := by decide
    omega

/-- A valid frame passes the size checks of the encoder. -/
theorem encodeFrame_valid {frame : Frame} (h : frame.Valid) :
    encodeFrame frame = .ok frame.bytes := by
  have hsmall : frame.record.tooLarge = false := by
    have hrecord := h.record
    cases hkind : frame.record with
    | update command =>
      rw [hkind] at hrecord
      have hsize := LogCommand.Loggable.size hrecord
      simp only [TransactionRecord.tooLarge, decide_eq_false_iff_not]
      omega
    | commit => rfl
  rw [encodeFrame, hsmall, if_neg (by simp), if_neg (by have := h.length_body_le; omega)]

/-! ### The checksums -/

theorem maxFrameSize_lt : maxFrameSize < 256 ^ 4 := by decide

/-- The header of a valid frame gives back the LSN and the length of the body. -/
theorem decodeFrameHeader_header {frame : Frame} (h : frame.Valid) :
    decodeFrameHeader frame.header = .ok (frame.lsn, frame.body.length) := by
  -- The header in front of its own checksum, and the parts of it.
  have htake : frame.header.take 16 = frame.lead ++ beBytes 4 frame.checksum :=
    List.take_left' (by simp [Frame.length_lead])
  have hdrop : (frame.header.drop 16).take 4
      = beBytes 4 (crc32 (frame.lead ++ beBytes 4 frame.checksum)) := by
    rw [Frame.header, List.drop_left' (by simp [Frame.length_lead]), List.take_of_length_le (by simp)]
  have hlsn : frame.header.take 8 = beBytes 8 frame.lsn := by
    rw [Frame.header, Frame.lead, List.append_assoc, List.append_assoc, List.append_assoc,
      List.take_left' (by simp)]
  have hlength : (frame.header.drop 8).take 4 = beBytes 4 frame.body.length := by
    rw [Frame.header, Frame.lead, List.append_assoc, List.append_assoc, List.append_assoc,
      List.drop_left' (by simp), List.take_left' (by simp)]
  have hbody := h.length_body_le
  have hmax := maxFrameSize_lt
  rw [decodeFrameHeader, htake, hdrop, hlsn, hlength, beNat_beBytes 4 _ (crc32_lt _),
    beNat_beBytes 8 _ h.lsn, beNat_beBytes 4 _ (by omega), if_neg (by simp)]

/-- The body of a valid frame passes its checksum. -/
theorem verifyFrameBody_body (frame : Frame) :
    verifyFrameBody frame.header frame.body = .ok frame.checksum := by
  have htake : frame.header.take 12 = frame.lead := by
    rw [Frame.header, List.append_assoc, List.take_left' frame.length_lead]
  have hdrop : (frame.header.drop 12).take 4 = beBytes 4 frame.checksum := by
    rw [Frame.header, List.append_assoc, List.drop_left' frame.length_lead,
      List.take_left' (by simp)]
  have hsum : beNat (beBytes 4 frame.checksum) = frame.checksum := beNat_beBytes 4 _ (crc32_lt _)
  rw [verifyFrameBody, htake, hdrop, hsum, if_neg (by simp [Frame.checksum])]

/-! ### The body -/

theorem readByte_parses (byte : UInt8) : readByte.Parses [byte] byte := fun _ => rfl

theorem readWalRecordType_parses (recordType : RecordType) :
    readWalRecordType.Parses [recordType.toByte] recordType := by
  intro rest
  cases recordType <;> rfl

/-- The fields of an update read back. -/
theorem readUpdate_parses {command : LogCommand} (h : command.Loggable) :
    readUpdate.Parses (TransactionRecord.update command).payload command := by
  have hsize := h.size
  have hmax := maxFrameSize_lt
  have hkey : command.key.length < 256 ^ 8 := by omega
  have hvalue : command.value.length < 256 ^ 8 := by omega
  have hdelete : ¬(command.recordType = .delete ∧ command.value ≠ []) :=
    fun hbad => hbad.2 (h.delete_empty hbad.1)
  have hfields : readUpdate.Parses
      ([command.recordType.toByte] ++ (beBytes 8 command.lsn ++ (beBytes 8 command.key.length ++
        (beBytes 8 command.value.length ++ (command.key ++ (command.value ++ [])))))) command := by
    refine (readWalRecordType_parses _).bind ((Reader.Parses.readBe eof h.lsn).bind
      ((Reader.Parses.readBe eof hkey).bind ((Reader.Parses.readBe eof hvalue).bind
        ((Reader.Parses.readExact eof rfl).bind ((Reader.Parses.readExact eof rfl).bind ?_)))))
    rw [if_neg hdelete]
    exact Reader.Parses.pure _
  simpa [TransactionRecord.payload] using hfields

theorem readTransactionRecord_parses {record : TransactionRecord} (h : record.Valid) :
    (readTransactionRecord record.kind).Parses record.payload record := by
  cases record with
  | update command =>
    have hupdate := (readUpdate_parses h).bind
      (f := fun command => (pure (.update command) : Decode TransactionRecord))
      (Reader.Parses.pure _)
    rw [List.append_nil] at hupdate
    exact hupdate
  | commit => exact Reader.Parses.pure _

/-- The body of a valid frame decodes to the frame. -/
theorem decodeFrame_body {frame : Frame} (h : frame.Valid) :
    decodeFrame frame.lsn frame.body = .ok frame := by
  have hframe : (readFrame frame.lsn).Parses ([frame.record.kind] ++
      (beBytes 8 frame.transactionId ++ (beBytes 8 frame.previousLsn ++
        (frame.record.payload ++ [])))) frame :=
    (readByte_parses _).bind ((Reader.Parses.readBe eof h.transactionId).bind
      ((Reader.Parses.readBe eof h.previousLsn).bind
        ((readTransactionRecord_parses h.record).bind (Reader.Parses.pure _))))
  have hread := hframe []
  have hbody : frame.body = [frame.record.kind] ++ (beBytes 8 frame.transactionId ++
      (beBytes 8 frame.previousLsn ++ (frame.record.payload ++ []))) ++ [] := by
    simp [Frame.body]
  rw [decodeFrame, hbody, hread]
  rfl

/-! ### The header of a segment -/

theorem WALHeader.length_encode : WALHeader.default.encode.length = walHeaderSize := by
  decide +kernel

theorem WALHeader.durable_encode : 32 ≤ WALHeader.default.encode.length := by decide

/-- The header decodes in front of anything: only its own bytes are looked at. -/
theorem WALHeader.decode_default (rest : Bytes) :
    WALHeader.decode (WALHeader.default.encode ++ rest) = .ok .default := by
  have hlength : WALHeader.default.encode.length = 36 := WALHeader.length_encode
  have htake (n : Nat) (h : n ≤ 36) :
      (WALHeader.default.encode ++ rest).take n = WALHeader.default.encode.take n :=
    List.take_append_of_le_length (by omega)
  have hfield (n m : Nat) (h : n + m ≤ 36) :
      ((WALHeader.default.encode ++ rest).drop n).take m
        = (WALHeader.default.encode.drop n).take m := by
    rw [List.drop_append_of_le_length (by omega),
      List.take_append_of_le_length (by rw [List.length_drop]; omega)]
  have halone : WALHeader.decode WALHeader.default.encode = .ok .default := by decide +kernel
  have hlong : ¬(WALHeader.default.encode ++ rest).length < walHeaderSize := by
    rw [List.length_append, WALHeader.length_encode]
    omega
  rw [← halone]
  unfold WALHeader.decode
  simp only [if_neg hlong, htake 8 (by omega), htake 32 (by omega), hfield 8 8 (by omega),
    hfield 16 8 (by omega), hfield 24 8 (by omega), hfield 32 4 (by omega),
    WALHeader.length_encode, lt_self_iff_false, if_false]

/-! ### The scan -/

/-- In front of a whole frame the scan accepts the frame and goes on behind it. -/
theorem scanFrames_frame {frame : Frame} (h : frame.Valid) (segmentId fuel : Nat) (rest : Bytes)
    (offset : Nat) (analysis : Analysis) :
    scanFrames segmentId (fuel + 1) (frame.bytes ++ rest) offset analysis
      = (analysis.accept frame frame.checksum ⟨segmentId, offset, frame.bytes.length⟩ >>=
          scanFrames segmentId fuel rest (offset + frame.bytes.length)) := by
  have hheader := frame.length_header
  have hbody := h.length_body_le
  have hlength : frame.bytes.length = frameHeaderSize + frame.body.length := by
    rw [Frame.bytes, List.length_append, hheader]
  have hlong : ¬(frame.bytes ++ rest).length < frameHeaderSize := by
    rw [List.length_append, hlength]
    omega
  have htake : (frame.bytes ++ rest).take frameHeaderSize = frame.header := by
    rw [Frame.bytes, List.append_assoc, List.take_left' hheader]
  have hdrop : (frame.bytes ++ rest).drop frameHeaderSize = frame.body ++ rest := by
    rw [Frame.bytes, List.append_assoc, List.drop_left' hheader]
  have hrest : (frame.bytes ++ rest).drop (frameHeaderSize + frame.body.length) = rest :=
    List.drop_left' hlength
  rw [scanFrames, if_neg hlong]
  dsimp only
  rw [htake, decodeFrameHeader_header h]
  show (if _ then _ else _) = _
  rw [if_neg (by omega), if_neg (by rw [List.length_append, hlength]; omega), hdrop,
    List.take_left' rfl, verifyFrameBody_body, hrest, hlength, decodeScannedFrame,
    decodeFrame_body h, ← Nat.add_assoc]
  rfl

/-- The bytes are a proper start of a valid frame. -/
def Torn (bytes : Bytes) : Prop :=
  ∃ frame : Frame, frame.Valid ∧ bytes <+: frame.bytes ∧ bytes.length < frame.bytes.length

/-- In front of a torn frame the scan stops. -/
theorem scanFrames_torn {bytes : Bytes} (h : Torn bytes) (segmentId fuel offset : Nat)
    (analysis : Analysis) :
    scanFrames segmentId fuel bytes offset analysis = .ok (analysis, offset) := by
  obtain ⟨frame, hvalid, hpre, hshort⟩ := h
  cases fuel with
  | zero => rfl
  | succ fuel =>
    rw [scanFrames]
    by_cases hheader : bytes.length < frameHeaderSize
    · rw [if_pos hheader]
    · -- The header is whole, so it tells how long the body should be.
      have hbody := hvalid.length_body_le
      have htake : bytes.take frameHeaderSize = frame.header := by
        have hle : frameHeaderSize ≤ bytes.length := by omega
        obtain ⟨tail, htail⟩ := hpre
        rw [← @List.take_append_of_le_length _ bytes tail _ hle, htail, Frame.bytes,
          List.take_left' frame.length_header]
      have hmissing : bytes.length - frameHeaderSize < frame.body.length := by
        rw [Frame.bytes, List.length_append, frame.length_header] at hshort
        omega
      rw [if_neg hheader]
      dsimp only
      rw [htake, decodeFrameHeader_header hvalid]
      show (if _ then _ else _) = _
      rw [if_neg (by omega), if_pos hmissing]

/-- The bytes of frames in sequence. -/
def frameBytes (frames : List Frame) : Bytes := frames.flatMap Frame.bytes

@[simp] theorem frameBytes_nil : frameBytes [] = [] := rfl

@[simp] theorem frameBytes_cons (frame : Frame) (frames : List Frame) :
    frameBytes (frame :: frames) = frame.bytes ++ frameBytes frames := rfl

@[simp] theorem frameBytes_append (frames frames' : List Frame) :
    frameBytes (frames ++ frames') = frameBytes frames ++ frameBytes frames' :=
  List.flatMap_append

/-- A frame has at least one byte. -/
theorem length_le_frameBytes (frames : List Frame) :
    frames.length ≤ (frameBytes frames).length := by
  induction frames with
  | nil => exact le_rfl
  | cons frame frames ih =>
    have hpos : 1 ≤ frame.bytes.length := by
      rw [Frame.length_bytes, ← Frame.length_body]
      omega
    rw [frameBytes_cons, List.length_append, List.length_cons]
    omega

/-- The analysis of frames that stand in a segment from an offset on. -/
def acceptFrames (segmentId : Nat) : List Frame → Nat → Analysis → Exec Analysis
  | [], _, analysis => .ok analysis
  | frame :: frames, offset, analysis => do
      let analysis ← analysis.accept frame frame.checksum ⟨segmentId, offset, frame.bytes.length⟩
      acceptFrames segmentId frames (offset + frame.bytes.length) analysis

/-- The scan of whole frames and a torn one behind them is the analysis of the whole ones. -/
theorem scanFrames_frames {frames : List Frame} {torn : Bytes}
    (hvalid : ∀ frame ∈ frames, frame.Valid) (htorn : Torn torn) (segmentId fuel offset : Nat)
    (analysis : Analysis) (hfuel : frames.length ≤ fuel) :
    scanFrames segmentId fuel (frameBytes frames ++ torn) offset analysis
      = (acceptFrames segmentId frames offset analysis).map
          fun analysis => (analysis, offset + (frameBytes frames).length) := by
  induction frames generalizing fuel offset analysis with
  | nil =>
    rw [frameBytes_nil, List.nil_append, scanFrames_torn htorn]
    rfl
  | cons frame frames ih =>
    obtain ⟨fuel, rfl⟩ : ∃ n, fuel = n + 1 := ⟨fuel - 1, by simp at hfuel; omega⟩
    have hfuel' : frames.length ≤ fuel := by simpa using hfuel
    rw [frameBytes_cons, List.append_assoc,
      scanFrames_frame (hvalid frame List.mem_cons_self), acceptFrames]
    cases analysis.accept frame frame.checksum ⟨segmentId, offset, frame.bytes.length⟩ with
    | error halt => rfl
    | ok analysis =>
      have htail := ih (fun f hf => hvalid f (List.mem_cons_of_mem _ hf)) fuel
        (offset + frame.bytes.length) analysis hfuel'
      rw [List.length_append, ← Nat.add_assoc]
      exact htail

end CereDB.Storage

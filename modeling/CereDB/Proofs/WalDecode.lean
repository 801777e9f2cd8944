import CereDB.Proofs.WalCodec

/-!
# `CereDB.Proofs.WalDecode`: what bytes that decode as frames look like

`CereDB.Proofs.WalCodec` says that encoded frames decode. This is the other direction, for bytes that
nobody has to have encoded: a header and a body that pass the checks are the bytes of the decoded
frame (`bytes_of_decoded`), and whatever the scan of a segment accepts is a sequence of such frames
(`scanFrames_eq_ok`).
-/

set_option autoImplicit false

namespace CereDB.Storage

open CereDB.Lib

/-! ### The body of a frame -/

theorem readByte_eq_ok {bs rest : Bytes} {byte : UInt8} (h : readByte bs = .ok (byte, rest)) :
    bs = [byte] ++ rest := by
  cases bs with
  | nil => cases h
  | cons first bs =>
    obtain ⟨rfl, rfl⟩ := Prod.mk.inj (Except.ok.inj h)
    rfl

theorem decodeWalRecordType_eq_ok {byte : UInt8} {recordType : RecordType}
    (h : decodeWalRecordType byte = .ok recordType) : byte = recordType.toByte := by
  rw [decodeWalRecordType] at h
  split at h
  · rename_i hput
    rw [← Except.ok.inj h, hput]
    rfl
  · split at h
    · rename_i hdelete
      rw [← Except.ok.inj h, hdelete]
      rfl
    · cases h

theorem readWalRecordType_eq_ok {bs rest : Bytes} {recordType : RecordType}
    (h : readWalRecordType bs = .ok (recordType, rest)) : bs = [recordType.toByte] ++ rest := by
  obtain ⟨byte, bs₁, hbyte, h⟩ := Reader.bind_eq_ok h
  obtain ⟨found, htype, heq⟩ := Exec.map_eq_ok h
  obtain ⟨rfl, rfl⟩ := Prod.mk.inj heq
  rw [readByte_eq_ok hbyte, decodeWalRecordType_eq_ok htype]

/-- The fields of an update stand in its bytes. -/
theorem readUpdate_eq_ok {bs rest : Bytes} {command : LogCommand}
    (h : readUpdate bs = .ok (command, rest)) :
    bs = (TransactionRecord.update command).payload ++ rest ∧ command.lsn < 256 ^ 8 ∧
      (command.recordType = .delete → command.value = []) := by
  obtain ⟨recordType, bs₁, htype, h⟩ := Reader.bind_eq_ok h
  obtain ⟨lsn, bs₂, hlsn, h⟩ := Reader.bind_eq_ok h
  obtain ⟨keyLength, bs₃, hkeyLength, h⟩ := Reader.bind_eq_ok h
  obtain ⟨valueLength, bs₄, hvalueLength, h⟩ := Reader.bind_eq_ok h
  obtain ⟨key, bs₅, hkey, h⟩ := Reader.bind_eq_ok h
  obtain ⟨value, bs₆, hvalue, hlast⟩ := Reader.bind_eq_ok h
  obtain rfl := readWalRecordType_eq_ok htype
  obtain ⟨rfl, hlsnFits⟩ := readBe_eq_ok hlsn
  obtain ⟨rfl, -⟩ := readBe_eq_ok hkeyLength
  obtain ⟨rfl, -⟩ := readBe_eq_ok hvalueLength
  obtain ⟨rfl, rfl⟩ := readExact_eq_ok hkey
  obtain ⟨rfl, rfl⟩ := readExact_eq_ok hvalue
  by_cases hdelete : recordType = .delete ∧ value ≠ []
  · simp only [if_pos hdelete] at hlast
    cases hlast
  · simp only [if_neg hdelete] at hlast
    obtain ⟨rfl, rfl⟩ := Prod.mk.inj (Except.ok.inj hlast)
    refine ⟨?_, hlsnFits, fun htype => ?_⟩
    · simp only [TransactionRecord.payload, List.append_assoc, List.cons_append, List.nil_append]
    · by_contra hvalue
      exact hdelete ⟨htype, hvalue⟩

theorem readTransactionRecord_eq_ok {kind : UInt8} {bs rest : Bytes} {record : TransactionRecord}
    (h : readTransactionRecord kind bs = .ok (record, rest)) :
    kind = record.kind ∧ bs = record.payload ++ rest ∧
      (record.payload.length ≤ maxFrameSize - 17 → record.Valid) := by
  rw [readTransactionRecord] at h
  split at h
  · rename_i hupdate
    obtain ⟨command, bs₁, hread, hlast⟩ := Reader.bind_eq_ok h
    obtain ⟨rfl, rfl⟩ := Prod.mk.inj (Except.ok.inj hlast)
    obtain ⟨hbytes, hlsn, hdelete⟩ := readUpdate_eq_ok hread
    refine ⟨hupdate, hbytes, fun hsize => ⟨hdelete, ?_, hlsn⟩⟩
    have hmax : 17 ≤ maxFrameSize := by decide
    simp only [TransactionRecord.payload, List.length_cons, List.length_append, length_beBytes]
      at hsize
    omega
  · split at h
    · rename_i hcommit
      obtain ⟨rfl, rfl⟩ := Prod.mk.inj (Except.ok.inj h)
      exact ⟨hcommit, rfl, fun _ => trivial⟩
    · cases h

/-- A body that decodes is the body of the frame. -/
theorem decodeFrame_eq_ok {lsn : Nat} {body : Bytes} {frame : Frame}
    (h : decodeFrame lsn body = .ok frame) (hlsn : lsn < 256 ^ 8)
    (hsize : body.length ≤ maxFrameSize) :
    frame.lsn = lsn ∧ frame.body = body ∧ frame.Valid := by
  rw [decodeFrame] at h
  obtain ⟨⟨frame', rest⟩, hread, htrailing⟩ := Exec.bind_eq_ok h
  obtain ⟨kind, bs₁, hkind, hread⟩ := Reader.bind_eq_ok hread
  obtain ⟨id, bs₂, hid, hread⟩ := Reader.bind_eq_ok hread
  obtain ⟨previous, bs₃, hprevious, hread⟩ := Reader.bind_eq_ok hread
  obtain ⟨record, bs₄, hrecord, hlast⟩ := Reader.bind_eq_ok hread
  obtain ⟨rfl, rfl⟩ := Prod.mk.inj (Except.ok.inj hlast)
  obtain ⟨hkindEq, rfl, hvalid⟩ := readTransactionRecord_eq_ok hrecord
  obtain ⟨rfl, hpreviousFits⟩ := readBe_eq_ok hprevious
  obtain ⟨rfl, hidFits⟩ := readBe_eq_ok hid
  obtain rfl := readByte_eq_ok hkind
  dsimp only at htrailing
  by_cases hrest : bs₄ = []
  · rw [if_neg (not_not.mpr hrest)] at htrailing
    obtain rfl := Except.ok.inj htrailing
    have hbody : Frame.body ⟨lsn, id, previous, record⟩ = [kind] ++ (beBytes 8 id ++
        (beBytes 8 previous ++ (record.payload ++ bs₄))) := by
      simp only [Frame.body, hkindEq, hrest, List.append_nil, List.append_assoc, List.cons_append,
        List.nil_append]
    refine ⟨rfl, hbody, hlsn, hidFits, hpreviousFits, hvalid ?_⟩
    simp only [hrest, List.length_append, length_beBytes, List.length_singleton, List.length_nil]
      at hsize
    omega
  · rw [if_pos hrest] at htrailing
    cases htrailing

/-! ### Whole frames -/

/-- The bytes of a slice are the number they encode. -/
theorem beBytes_slice {bytes : Bytes} {offset width : Nat} (h : offset + width ≤ bytes.length) :
    beBytes width (beNat ((bytes.drop offset).take width)) = (bytes.drop offset).take width := by
  have hlength : ((bytes.drop offset).take width).length = width := by
    rw [List.length_take, List.length_drop]
    omega
  have hback := beBytes_beNat ((bytes.drop offset).take width)
  rwa [hlength] at hback

/-- A header and a body that pass all checks are the bytes of the decoded frame. -/
theorem bytes_of_decoded {header body : Bytes} {lsn checksum : Nat} {frame : Frame}
    (hlength : header.length = frameHeaderSize) (hsize : body.length ≤ maxFrameSize)
    (hheader : decodeFrameHeader header = .ok (lsn, body.length))
    (hverify : verifyFrameBody header body = .ok checksum)
    (hframe : decodeFrame lsn body = .ok frame) :
    header ++ body = frame.bytes ∧ checksum = frame.checksum ∧ frame.Valid := by
  rw [decodeFrameHeader] at hheader
  split at hheader
  · cases hheader
  rename_i hheaderSum
  obtain ⟨rfl, hbody⟩ := Prod.mk.inj (Except.ok.inj hheader)
  rw [verifyFrameBody] at hverify
  split at hverify
  · cases hverify
  rename_i hbodySum
  obtain rfl := Except.ok.inj hverify
  rw [not_not] at hheaderSum hbodySum
  rw [frameHeaderSize] at hlength
  have hlsn : beNat (header.take 8) < 256 ^ 8 := by
    have hlt := beNat_lt (header.take 8)
    rwa [List.length_take, hlength] at hlt
  obtain ⟨hlsnEq, hbodyEq, hvalid⟩ := decodeFrame_eq_ok hframe hlsn hsize
  -- the header, field by field
  have hlead : header.take 12 = frame.lead := by
    have hsplit : header.take (8 + 4) = header.take 8 ++ (header.drop 8).take 4 :=
      List.take_add
    have hfirst : beBytes 8 (beNat (header.take 8)) = header.take 8 :=
      beBytes_slice (by omega : 0 + 8 ≤ header.length)
    rw [Frame.lead, hlsnEq, hbodyEq, ← hbody, hfirst, beBytes_slice (by omega)]
    exact hsplit
  have hchecksum : beNat ((header.drop 12).take 4) = frame.checksum := by
    rw [Frame.checksum, ← hlead, hbodyEq, hbodySum]
  have hfront : header.take 16 = frame.lead ++ beBytes 4 frame.checksum := by
    have hsplit : header.take (12 + 4) = header.take 12 ++ (header.drop 12).take 4 :=
      List.take_add
    rw [← hlead, ← hchecksum, beBytes_slice (by omega)]
    exact hsplit
  have hwhole : header = frame.header := by
    have hsplit : header.take (16 + 4) = header.take 16 ++ (header.drop 16).take 4 :=
      List.take_add
    have hall : header.take (16 + 4) = header := List.take_of_length_le hlength.le
    rw [hall] at hsplit
    rw [Frame.header, ← hfront, ← hheaderSum, beBytes_slice (by omega)]
    exact hsplit
  rw [Frame.bytes, hbodyEq, ← hwhole]
  exact ⟨rfl, hchecksum, hvalid⟩

/-! ### Scans -/

theorem decodeScannedFrame_eq_ok {lsn : Nat} {body : Bytes} {frame : Frame}
    (h : decodeScannedFrame lsn body = .ok frame) : decodeFrame lsn body = .ok frame := by
  rw [decodeScannedFrame] at h
  split at h
  · cases h
  · exact h

/-- No whole frame stands at the start of the bytes. -/
def Unfinished (bytes : Bytes) : Prop := ∀ frame : Frame, frame.Valid → ¬frame.bytes <+: bytes

theorem unfinished_of_short {bytes : Bytes} (h : bytes.length < frameHeaderSize) :
    Unfinished bytes := by
  intro frame _ hpre
  have hle := hpre.length_le
  rw [Frame.bytes, List.length_append, Frame.length_header] at hle
  omega

/-- A header that announces more bytes than there are. -/
theorem unfinished_of_header {bytes : Bytes} {lsn length : Nat}
    (hheader : decodeFrameHeader (bytes.take frameHeaderSize) = .ok (lsn, length))
    (hshort : bytes.length - frameHeaderSize < length) : Unfinished bytes := by
  rintro frame hvalid ⟨tail, rfl⟩
  have htake : (frame.bytes ++ tail).take frameHeaderSize = frame.header := by
    rw [Frame.bytes, List.append_assoc, List.take_left' frame.length_header]
  rw [htake, decodeFrameHeader_header hvalid] at hheader
  obtain ⟨-, rfl⟩ := Prod.mk.inj (Except.ok.inj hheader)
  rw [List.length_append, Frame.bytes, List.length_append, frame.length_header] at hshort
  omega

/-- The bytes are whole frames that the analysis accepts, and an unfinished rest. -/
structure Scanned (segmentId offset : Nat) (bytes : Bytes) (analysis analysis' : Analysis)
    (frames : List Frame) (tail : Bytes) : Prop where
  bytes : bytes = frameBytes frames ++ tail
  valid : ∀ frame ∈ frames, frame.Valid
  unfinished : Unfinished tail
  accepted : acceptFrames segmentId frames offset analysis = .ok analysis'

/-- A scan goes over all whole frames at the start of the bytes and stops behind the last one. -/
theorem scanFrames_eq_ok {segmentId fuel offset stop : Nat} {bytes : Bytes}
    {analysis analysis' : Analysis} (hfuel : bytes.length ≤ fuel)
    (h : scanFrames segmentId fuel bytes offset analysis = .ok (analysis', stop)) :
    ∃ frames tail, Scanned segmentId offset bytes analysis analysis' frames tail ∧
      stop = offset + (frameBytes frames).length := by
  have hstop {bytes : Bytes} {analysis : Analysis} {offset : Nat} (hunfinished : Unfinished bytes)
      (h : (Except.ok (analysis, offset) : Exec _) = .ok (analysis', stop)) :
      ∃ frames tail, Scanned segmentId offset bytes analysis analysis' frames tail ∧
        stop = offset + (frameBytes frames).length := by
    obtain ⟨rfl, rfl⟩ := Prod.mk.inj (Except.ok.inj h)
    exact ⟨[], bytes, ⟨rfl, fun _ hmem => absurd hmem List.not_mem_nil, hunfinished, rfl⟩, rfl⟩
  induction fuel generalizing bytes offset analysis with
  | zero => exact hstop (unfinished_of_short (by rw [frameHeaderSize]; omega)) h
  | succ fuel ih =>
    rw [scanFrames] at h
    by_cases hshort : bytes.length < frameHeaderSize
    · rw [if_pos hshort] at h
      exact hstop (unfinished_of_short hshort) h
    rw [if_neg hshort] at h
    obtain ⟨⟨lsn, length⟩, hheader, h⟩ := Exec.bind_eq_ok h
    dsimp only at h
    split at h
    · cases h
    rename_i hsize
    by_cases hmissing : bytes.length - frameHeaderSize < length
    · rw [if_pos hmissing] at h
      exact hstop (unfinished_of_header hheader hmissing) h
    rw [if_neg hmissing] at h
    obtain ⟨checksum, hverify, h⟩ := Exec.bind_eq_ok h
    obtain ⟨frame, hdecode, h⟩ := Exec.bind_eq_ok h
    obtain ⟨analysis₁, haccept, h⟩ := Exec.bind_eq_ok h
    have hheaderLength : (bytes.take frameHeaderSize).length = frameHeaderSize := by
      rw [List.length_take]
      omega
    have hbodyLength : ((bytes.drop frameHeaderSize).take length).length = length := by
      rw [List.length_take, List.length_drop]
      omega
    obtain ⟨hbytes, hchecksum, hvalid⟩ := bytes_of_decoded hheaderLength
      (by rw [hbodyLength]; omega) (by rw [hbodyLength]; exact hheader) hverify
      (decodeScannedFrame_eq_ok hdecode)
    have hlength : frame.bytes.length = frameHeaderSize + length := by
      rw [← hbytes, List.length_append, hheaderLength, hbodyLength]
    obtain ⟨frames, tail, hscanned, hend⟩ := ih
      (by rw [List.length_drop]; rw [frameHeaderSize]; omega) h
    refine ⟨frame :: frames, tail, ⟨?_, ?_, hscanned.unfinished, ?_⟩, ?_⟩
    · rw [frameBytes_cons, List.append_assoc, ← hscanned.bytes, ← hbytes, List.append_assoc,
        ← List.drop_drop, List.take_append_drop, List.take_append_drop]
    · intro other hother
      rcases List.mem_cons.mp hother with rfl | hother
      · exact hvalid
      · exact hscanned.valid other hother
    · rw [acceptFrames, hlength, ← hchecksum, haccept, ← Nat.add_assoc]
      exact hscanned.accepted
    · rw [hend, frameBytes_cons, List.length_append, hlength]
      omega

end CereDB.Storage

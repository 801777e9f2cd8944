import CereDB.Proofs.Checksum
import CereDB.Proofs.WalDecode
import CereDB.Proofs.WalSegment

/-!
# `CereDB.Proofs.WalRescan`: scanning a segment up to where a scan stopped

The scan of a segment stops behind the last whole record, in either format. The bytes up to there
scan to the same analysis and stop at their end (`scanBytes_again`), and no record that decodes in
sequence from the start of the segment ends behind it (`Decodes.le_stop`). So a repair that cuts a
file there loses nothing a later scan could use.

The positions that `recover_records_with_refs` asks for play no part in this: an analysis that does
not track them accepts the same frames (`scanBytes_untracked`).
-/

set_option autoImplicit false

namespace CereDB.Storage

open CereDB.Lib

/-! ### Legacy records -/

namespace WALRecord

/-- The bytes of a legacy record in front of its checksum. -/
def legacyPayload (record : WALRecord) : Bytes :=
  [record.recordType] ++ (beBytes 8 record.lsn ++ (beBytes 8 record.key.length ++ (record.key ++
    (beBytes 8 record.value.length ++ record.value))))

/-- The bytes of a legacy record. -/
def legacyBytes (record : WALRecord) : Bytes := sealed record.legacyPayload

/-- The fields have the widths of the format, and the checksum is right. -/
structure Legacy (record : WALRecord) : Prop where
  recordType : ∃ recordType, decodeWalRecordType record.recordType = .ok recordType
  lsn : record.lsn < 256 ^ 8
  key : record.key.length < 256 ^ 8
  value : record.value.length < 256 ^ 8
  checksum : record.checksum = crc32 record.legacyPayload

end WALRecord

/-- The fields of a legacy record stand in the bytes. -/
theorem readLegacyFields_eq_ok {bytes rest : Bytes} {recordType : UInt8} {lsn : Nat}
    {key value : Bytes} (h : readLegacyFields bytes = .ok ((recordType, lsn, key, value), rest)) :
    bytes = [recordType] ++ (beBytes 8 lsn ++ (beBytes 8 key.length ++ (key ++
        (beBytes 8 value.length ++ value)))) ++ rest ∧
      (∃ found, decodeWalRecordType recordType = .ok found) ∧ lsn < 256 ^ 8 ∧
      key.length < 256 ^ 8 ∧ value.length < 256 ^ 8 := by
  obtain ⟨byte, bs₁, hbyte, h⟩ := Reader.bind_eq_ok h
  obtain ⟨_, bs₂, htype, h⟩ := Reader.bind_eq_ok h
  obtain ⟨lsn', bs₃, hlsn, h⟩ := Reader.bind_eq_ok h
  obtain ⟨keyLength, bs₄, hkeyLength, h⟩ := Reader.bind_eq_ok h
  obtain ⟨key', bs₅, hkey, h⟩ := Reader.bind_eq_ok h
  obtain ⟨valueLength, bs₆, hvalueLength, h⟩ := Reader.bind_eq_ok h
  obtain ⟨value', bs₇, hvalue, hlast⟩ := Reader.bind_eq_ok h
  obtain ⟨hfields, rfl⟩ := Prod.mk.inj (Except.ok.inj hlast)
  obtain ⟨rfl, rfl, rfl, rfl⟩ : byte = recordType ∧ lsn' = lsn ∧ key' = key ∧ value' = value := by
    simpa using hfields
  obtain ⟨found, hfound, hrest⟩ := Exec.map_eq_ok htype
  obtain ⟨-, rfl⟩ := Prod.mk.inj hrest
  obtain ⟨rfl, rfl⟩ := readExact_eq_ok hvalue
  obtain ⟨rfl, hvalueFits⟩ := readBe_eq_ok hvalueLength
  obtain ⟨rfl, rfl⟩ := readExact_eq_ok hkey
  obtain ⟨rfl, hkeyFits⟩ := readBe_eq_ok hkeyLength
  obtain ⟨rfl, hlsnFits⟩ := readBe_eq_ok hlsn
  refine ⟨?_, ⟨found, hfound⟩, hlsnFits, hkeyFits, hvalueFits⟩
  rw [readByte_eq_ok hbyte]
  simp only [List.append_assoc]

/-- A record that decodes stands in the bytes. -/
theorem decodeLegacy_eq_ok {bytes rest : Bytes} {record : WALRecord}
    (h : decodeLegacy bytes = .ok (record, rest)) :
    bytes = record.legacyBytes ++ rest ∧ record.Legacy := by
  rw [decodeLegacy] at h
  obtain ⟨⟨⟨recordType, lsn, key, value⟩, bs⟩, hfields, h⟩ := Exec.bind_eq_ok h
  obtain ⟨⟨checksum, rest'⟩, hchecksum, h⟩ := Exec.bind_eq_ok h
  obtain ⟨rfl, htype, hlsn, hkey, hvalue⟩ := readLegacyFields_eq_ok hfields
  dsimp only at h
  rw [List.length_append, Nat.add_sub_cancel, List.take_left] at h
  split at h
  · cases h
  rename_i hsum
  rw [not_not] at hsum
  obtain ⟨rfl, rfl⟩ := Prod.mk.inj (Except.ok.inj h)
  obtain ⟨rfl, -⟩ := readBe_eq_ok hchecksum
  refine ⟨?_, htype, hlsn, hkey, hvalue, hsum.symm⟩
  rw [← hsum, ← List.append_assoc]
  rfl

/-- The bytes of a record decode, whatever follows. -/
theorem decodeLegacy_legacyBytes {record : WALRecord} (h : record.Legacy) (rest : Bytes) :
    decodeLegacy (record.legacyBytes ++ rest) = .ok (record, rest) := by
  obtain ⟨recordType, hrecordType⟩ := h.recordType
  have htype : Reader.Parses (fun rest => (decodeWalRecordType record.recordType).map
      fun _ => ((), rest) : Decode Unit) [] () := by
    intro rest
    rw [hrecordType]
    rfl
  have hfields : readLegacyFields.Parses ([record.recordType] ++ ([] ++ (beBytes 8 record.lsn ++
      (beBytes 8 record.key.length ++ (record.key ++ (beBytes 8 record.value.length ++
        (record.value ++ []))))))) (record.recordType, record.lsn, record.key, record.value) :=
    (readByte_parses _).bind (htype.bind ((Reader.Parses.readBe eof h.lsn).bind
      ((Reader.Parses.readBe eof h.key).bind ((Reader.Parses.readExact eof rfl).bind
        ((Reader.Parses.readBe eof h.value).bind ((Reader.Parses.readExact eof rfl).bind
          (Reader.Parses.pure _)))))))
  rw [List.append_nil, List.nil_append] at hfields
  have hread := hfields (beBytes 4 record.checksum ++ rest)
  have hsum := Reader.Parses.readBe eof
    (show record.checksum < 256 ^ 4 by rw [h.checksum]; exact crc32_lt _) rest
  have hbytes : record.legacyBytes ++ rest
      = record.legacyPayload ++ (beBytes 4 record.checksum ++ rest) := by
    rw [WALRecord.legacyBytes, sealed, h.checksum, List.append_assoc]
  rw [decodeLegacy, hbytes]
  refine (congrArg (· >>= _) hread).trans ?_
  simp only [Exec.ok_bind, hsum, List.length_append, Nat.add_sub_cancel]
  rw [List.take_left, if_neg (not_not.mpr h.checksum.symm)]
  rfl

theorem decodeLegacy_nil : decodeLegacy [] = .error eof := rfl

/-- The bytes of legacy records in sequence. -/
def legacyRecords (records : List WALRecord) : Bytes := records.flatMap WALRecord.legacyBytes

@[simp] theorem legacyRecords_nil : legacyRecords [] = [] := rfl

@[simp] theorem legacyRecords_cons (record : WALRecord) (records : List WALRecord) :
    legacyRecords (record :: records) = record.legacyBytes ++ legacyRecords records := rfl

theorem WALRecord.length_legacyBytes_pos (record : WALRecord) : 0 < record.legacyBytes.length := by
  simp only [WALRecord.legacyBytes, sealed, WALRecord.legacyPayload, List.length_append,
    List.length_singleton]
  omega

/-- A record has at least one byte. -/
theorem length_le_legacyRecords (records : List WALRecord) :
    records.length ≤ (legacyRecords records).length := by
  induction records with
  | nil => exact le_rfl
  | cons record records ih =>
    have hpos := record.length_legacyBytes_pos
    rw [legacyRecords_cons, List.length_append, List.length_cons]
    omega

/-- The analysis of legacy records. -/
def Analysis.addLegacy (analysis : Analysis) (records : List WALRecord) : Analysis :=
  { analysis with legacy := analysis.legacy ++ records }

/-- The scan of legacy records reads all of them. -/
theorem scanLegacy_records {records : List WALRecord} (hvalid : ∀ r ∈ records, r.Legacy)
    {fuel : Nat} (hfuel : records.length ≤ fuel) (offset : Nat) (analysis : Analysis) :
    scanLegacy fuel (legacyRecords records) offset analysis
      = .ok (analysis.addLegacy records, offset + (legacyRecords records).length) := by
  induction records generalizing fuel offset analysis with
  | nil =>
    have hnone : analysis.addLegacy [] = analysis := by
      rw [Analysis.addLegacy, List.append_nil]
    cases fuel with
    | zero => rw [scanLegacy, hnone]; rfl
    | succ fuel => rw [scanLegacy, legacyRecords_nil, if_pos rfl, hnone]; rfl
  | cons record records ih =>
    obtain ⟨fuel, rfl⟩ : ∃ n, fuel = n + 1 := ⟨fuel - 1, by simp at hfuel; omega⟩
    have hne : record.legacyBytes ++ legacyRecords records ≠ [] := by
      have hpos := record.length_legacyBytes_pos
      intro hnil
      rw [(List.append_eq_nil_iff.mp hnil).1] at hpos
      simp at hpos
    have hrest := ih (fun r hr => hvalid r (List.mem_cons_of_mem _ hr))
      (by simpa using hfuel) (offset + record.legacyBytes.length)
      (analysis.addLegacy [record])
    have hmore : (analysis.addLegacy [record]).addLegacy records
        = analysis.addLegacy (record :: records) := by
      simp [Analysis.addLegacy]
    rw [legacyRecords_cons, scanLegacy, if_neg hne,
      decodeLegacy_legacyBytes (hvalid record List.mem_cons_self)]
    dsimp only
    rw [List.length_append, Nat.add_sub_cancel, ← Nat.add_assoc, ← hmore]
    exact hrest

/-- A scan goes over all legacy records at the start of the bytes and stops behind the last one. -/
theorem scanLegacy_eq_ok {fuel offset stop : Nat} {bytes : Bytes} {analysis analysis' : Analysis}
    (hfuel : bytes.length ≤ fuel)
    (h : scanLegacy fuel bytes offset analysis = .ok (analysis', stop)) :
    ∃ records tail, bytes = legacyRecords records ++ tail ∧ (∀ r ∈ records, r.Legacy) ∧
      (∀ found, decodeLegacy tail ≠ .ok found) ∧ analysis' = analysis.addLegacy records ∧
      stop = offset + (legacyRecords records).length := by
  have hstop {bytes : Bytes} {analysis : Analysis} {offset : Nat}
      (htail : ∀ found, decodeLegacy bytes ≠ .ok found)
      (h : (Except.ok (analysis, offset) : Exec _) = .ok (analysis', stop)) :
      ∃ records tail, bytes = legacyRecords records ++ tail ∧ (∀ r ∈ records, r.Legacy) ∧
        (∀ found, decodeLegacy tail ≠ .ok found) ∧ analysis' = analysis.addLegacy records ∧
        stop = offset + (legacyRecords records).length := by
    obtain ⟨rfl, rfl⟩ := Prod.mk.inj (Except.ok.inj h)
    refine ⟨[], bytes, rfl, by simp, htail, ?_, rfl⟩
    rw [Analysis.addLegacy, List.append_nil]
  have hnil : ∀ found, decodeLegacy [] ≠ .ok found := by
    intro found hfound
    rw [decodeLegacy_nil] at hfound
    cases hfound
  induction fuel generalizing bytes offset analysis with
  | zero =>
    obtain rfl : bytes = [] := List.length_eq_zero_iff.mp (Nat.le_zero.mp hfuel)
    exact hstop hnil h
  | succ fuel ih =>
    rw [scanLegacy] at h
    by_cases hempty : bytes = []
    · rw [if_pos hempty] at h
      rw [hempty]
      exact hstop hnil h
    rw [if_neg hempty] at h
    cases hdecode : decodeLegacy bytes with
    | error halt =>
      rw [hdecode] at h
      dsimp only at h
      split at h
      · exact hstop (fun found => by rw [hdecode]; simp) h
      · cases h
    | ok found =>
      obtain ⟨record, rest⟩ := found
      rw [hdecode] at h
      obtain ⟨rfl, hlegacy⟩ := decodeLegacy_eq_ok hdecode
      have hpos := record.length_legacyBytes_pos
      rw [List.length_append] at hfuel
      obtain ⟨records, tail, hbytes, hvalid, htail, hanalysis, hend⟩ := ih (by omega) h
      refine ⟨record :: records, tail, ?_, ?_, htail, ?_, ?_⟩
      · rw [legacyRecords_cons, List.append_assoc, ← hbytes]
      · intro other hother
        rcases List.mem_cons.mp hother with rfl | hother
        · exact hlegacy
        · exact hvalid other hother
      · rw [hanalysis]
        simp [Analysis.addLegacy]
      · rw [hend, legacyRecords_cons, List.length_append, List.length_append]
        omega

/-! ### Records in sequence -/

/-- The frame at the start of the bytes, checked and decoded as the scan does it. -/
def wholeFrame (bytes : Bytes) : Exec Frame := do
  if bytes.length < frameHeaderSize then .error eof
  else do
    let header := bytes.take frameHeaderSize
    let (lsn, length) ← decodeFrameHeader header
    if length < 17 ∨ maxFrameSize < length then corrupted "Invalid WAL frame size"
    else if bytes.length - frameHeaderSize < length then .error eof
    else do
      let body := (bytes.drop frameHeaderSize).take length
      let _ ← verifyFrameBody header body
      decodeScannedFrame lsn body

/-- The number of bytes of the record at the start of the bytes, in the format of the version. -/
def recordLength (version : Nat) (bytes : Bytes) : Exec Nat :=
  if version = legacyWalVersion then
    (decodeLegacy bytes).map fun found => bytes.length - found.2.length
  else (wholeFrame bytes).map fun frame => frame.bytes.length

/-- A record ends at the offset, and it and all in front of it decode in sequence from the end of
the segment header on. -/
inductive Decodes (version : Nat) (bytes : Bytes) : Nat → Prop where
  | start : Decodes version bytes walHeaderSize
  | next {offset length : Nat} : Decodes version bytes offset →
      recordLength version (bytes.drop offset) = .ok length →
      Decodes version bytes (offset + length)

/-- The records at the start of the bytes are those a scan goes over. -/
theorem Decodes.le_stop {version offset : Nat} {bytes tail : Bytes} {records : List Bytes}
    (hbytes : bytes.drop walHeaderSize = records.flatten ++ tail)
    (hrecords : ∀ record ∈ records, ∀ rest,
      recordLength version (record ++ rest) = .ok record.length)
    (htail : ∀ length, recordLength version tail ≠ .ok length)
    (h : Decodes version bytes offset) : offset ≤ walHeaderSize + records.flatten.length := by
  -- Every such offset is the end of one of the scanned records.
  have hend : ∃ seen left, records = seen ++ left ∧
      offset = walHeaderSize + seen.flatten.length := by
    induction h with
    | start => exact ⟨[], records, rfl, rfl⟩
    | next _ hlength ih =>
      obtain ⟨seen, left, hsplit, rfl⟩ := ih
      rw [← List.drop_drop, hbytes, hsplit, List.flatten_append, List.append_assoc,
        List.drop_left' rfl] at hlength
      cases left with
      | nil => exact absurd hlength (htail _)
      | cons record left =>
        rw [List.flatten_cons, List.append_assoc,
          hrecords record (by rw [hsplit]; simp)] at hlength
        refine ⟨seen ++ [record], left, by rw [hsplit, List.append_assoc]; rfl, ?_⟩
        rw [← Except.ok.inj hlength, List.flatten_append, List.length_append,
          List.flatten_singleton, Nat.add_assoc]
  obtain ⟨seen, left, hsplit, rfl⟩ := hend
  rw [hsplit, List.flatten_append, List.length_append]
  omega

/-- The bytes of a valid frame decode, whatever follows. -/
theorem wholeFrame_bytes {frame : Frame} (h : frame.Valid) (rest : Bytes) :
    wholeFrame (frame.bytes ++ rest) = .ok frame := by
  have hheader := frame.length_header
  have hbody := h.length_body_le
  have hlength : frame.bytes.length = frameHeaderSize + frame.body.length := by
    rw [Frame.bytes, List.length_append, hheader]
  have htake : (frame.bytes ++ rest).take frameHeaderSize = frame.header := by
    rw [Frame.bytes, List.append_assoc, List.take_left' hheader]
  have hdrop : (frame.bytes ++ rest).drop frameHeaderSize = frame.body ++ rest := by
    rw [Frame.bytes, List.append_assoc, List.drop_left' hheader]
  rw [wholeFrame, if_neg (by rw [List.length_append, hlength]; omega)]
  dsimp only
  rw [htake, decodeFrameHeader_header h, Exec.ok_bind]
  dsimp only
  rw [if_neg (by omega), if_neg (by rw [List.length_append, hlength]; omega), hdrop,
    List.take_left' rfl, verifyFrameBody_body, Exec.ok_bind, decodeScannedFrame, decodeFrame_body h]

/-- A frame that decodes stands at the start of the bytes. -/
theorem wholeFrame_eq_ok {bytes : Bytes} {frame : Frame} (h : wholeFrame bytes = .ok frame) :
    frame.Valid ∧ frame.bytes <+: bytes := by
  rw [wholeFrame] at h
  split at h
  · cases h
  rename_i hlong
  obtain ⟨⟨lsn, length⟩, hheader, h⟩ := Exec.bind_eq_ok h
  dsimp only at h
  split at h
  · cases h
  split at h
  · cases h
  rename_i hsize hwhole
  obtain ⟨checksum, hverify, h⟩ := Exec.bind_eq_ok h
  have hheaderLength : (bytes.take frameHeaderSize).length = frameHeaderSize := by
    rw [List.length_take]
    omega
  have hbodyLength : ((bytes.drop frameHeaderSize).take length).length = length := by
    rw [List.length_take, List.length_drop]
    omega
  obtain ⟨hbytes, -, hvalid⟩ := bytes_of_decoded hheaderLength (by rw [hbodyLength]; omega)
    (by rw [hbodyLength]; exact hheader) hverify (decodeScannedFrame_eq_ok h)
  refine ⟨hvalid, (bytes.drop frameHeaderSize).drop length, ?_⟩
  rw [← hbytes, List.append_assoc, List.take_append_drop, List.take_append_drop]

/-! ### Whole segments -/

/-- The header is in the first bytes. -/
theorem WALHeader.decode_take {bytes : Bytes} {n : Nat} (hn : walHeaderSize ≤ n)
    (hlong : walHeaderSize ≤ bytes.length) :
    WALHeader.decode (bytes.take n) = WALHeader.decode bytes := by
  have hsize : walHeaderSize = 36 := rfl
  have htake (m : Nat) (h : m ≤ 36) : (bytes.take n).take m = bytes.take m := by
    rw [List.take_take, min_eq_left (by omega)]
  have hfield (k m : Nat) (h : k + m ≤ 36) :
      ((bytes.take n).drop k).take m = (bytes.drop k).take m := by
    rw [List.drop_take, List.take_take, min_eq_left (by omega)]
  have hlength : ¬(bytes.take n).length < walHeaderSize := by
    rw [List.length_take]
    omega
  unfold WALHeader.decode
  simp only [if_neg hlength, if_neg (not_lt.mpr hlong), htake 8 (by omega), htake 32 (by omega),
    hfield 8 8 (by omega), hfield 16 8 (by omega), hfield 24 8 (by omega), hfield 32 4 (by omega)]

theorem WALHeader.length_of_decode {bytes : Bytes} {header : WALHeader}
    (h : WALHeader.decode bytes = .ok header) : walHeaderSize ≤ bytes.length := by
  rw [WALHeader.decode] at h
  split at h
  · cases h
  · rename_i hlong
    exact not_lt.mp hlong

/-- The checks of a scan in front of the first record. -/
def headerAccepted (header : WALHeader) (analysis : Analysis) : Prop :=
  ¬(header.version = legacyWalVersion ∧ analysis.latestLsn ≠ 0) ∧
    ¬(header.lastCheckpoint ≠ 0 ∨ header.lastCheckpointOffset ≠ 0)

/-- The loop over the records of a segment. -/
def scanRecords (version segmentId : Nat) (rest : Bytes) (analysis : Analysis) :
    Exec (Analysis × Nat) :=
  if version = legacyWalVersion then scanLegacy rest.length rest walHeaderSize analysis
  else scanFrames (if analysis.trackRefs then segmentId else 0) rest.length rest walHeaderSize
    analysis

/-- Behind an accepted header there is only the loop over the records. -/
theorem scanBytes_of_header {segmentId : Nat} {bytes : Bytes} {analysis : Analysis}
    {header : WALHeader} (hheader : WALHeader.decode bytes = .ok header)
    (haccepted : headerAccepted header analysis) :
    scanBytes segmentId bytes analysis
      = (scanRecords header.version segmentId (bytes.drop walHeaderSize) analysis).map
          fun found => (found.1, header.version, found.2) := by
  rw [scanBytes, hheader, Exec.ok_bind, if_neg haccepted.1, if_neg haccepted.2, scanRecords]
  dsimp only
  by_cases hversion : header.version = legacyWalVersion
  · rw [if_pos hversion, if_pos hversion]
    rfl
  · rw [if_neg hversion, if_neg hversion]
    rfl

/-- A scan is a header that is accepted and the loop over the records. -/
theorem scanBytes_eq_ok {segmentId version stop : Nat} {bytes : Bytes}
    {analysis analysis' : Analysis} :
    scanBytes segmentId bytes analysis = .ok (analysis', version, stop) ↔
      ∃ header, WALHeader.decode bytes = .ok header ∧ headerAccepted header analysis ∧
        header.version = version ∧
        scanRecords version segmentId (bytes.drop walHeaderSize) analysis
          = .ok (analysis', stop) := by
  constructor
  · intro h
    have hwhole := h
    rw [scanBytes] at h
    obtain ⟨header, hheader, h⟩ := Exec.bind_eq_ok h
    split at h
    · cases h
    split at h
    · cases h
    rename_i hversion hcheckpoint
    rw [scanBytes_of_header hheader ⟨hversion, hcheckpoint⟩] at hwhole
    obtain ⟨⟨analysis₁, stop₁⟩, hrecords, heq⟩ := Exec.map_eq_ok hwhole
    obtain ⟨rfl, hlast⟩ := Prod.mk.inj heq
    obtain ⟨rfl, rfl⟩ := Prod.mk.inj hlast
    exact ⟨header, hheader, ⟨hversion, hcheckpoint⟩, rfl, hrecords⟩
  · rintro ⟨header, hheader, haccepted, rfl, hrecords⟩
    rw [scanBytes_of_header hheader haccepted, hrecords]
    rfl

/-- What a scan of records leaves: it stops at the end of a sequence of records, these alone scan to
the same, and no record decodes behind them. -/
structure ScannedRecords (version segmentId : Nat) (rest : Bytes) (analysis analysis' : Analysis)
    (stop : Nat) (records : List Bytes) (tail : Bytes) : Prop where
  bytes : rest = records.flatten ++ tail
  stopped : stop = walHeaderSize + records.flatten.length
  again : scanRecords version segmentId records.flatten analysis = .ok (analysis', stop)
  decode : ∀ record ∈ records, ∀ rest, recordLength version (record ++ rest) = .ok record.length
  tail : ∀ length, recordLength version tail ≠ .ok length

theorem scanRecords_eq_ok {version segmentId stop : Nat} {rest : Bytes}
    {analysis analysis' : Analysis}
    (h : scanRecords version segmentId rest analysis = .ok (analysis', stop)) :
    ∃ records tail, ScannedRecords version segmentId rest analysis analysis' stop records tail := by
  by_cases hversion : version = legacyWalVersion
  · rw [scanRecords, if_pos hversion] at h
    obtain ⟨records, tail, rfl, hvalid, htail, rfl, rfl⟩ := scanLegacy_eq_ok le_rfl h
    refine ⟨records.map WALRecord.legacyBytes, tail, rfl, rfl, ?_, ?_, ?_⟩
    · rw [scanRecords, if_pos hversion]
      exact scanLegacy_records hvalid (length_le_legacyRecords records) _ _
    · intro bytes hmem rest
      obtain ⟨record, hrecord, rfl⟩ := List.mem_map.mp hmem
      rw [recordLength, if_pos hversion, decodeLegacy_legacyBytes (hvalid record hrecord)]
      show (Except.ok (_ - rest.length) : Exec Nat) = _
      rw [List.length_append, Nat.add_sub_cancel]
    · intro length hlength
      rw [recordLength, if_pos hversion] at hlength
      obtain ⟨found, hfound, -⟩ := Exec.map_eq_ok hlength
      exact htail found hfound
  · rw [scanRecords, if_neg hversion] at h
    obtain ⟨frames, tail, hscanned, rfl⟩ := scanFrames_eq_ok le_rfl h
    refine ⟨frames.map Frame.bytes, tail, hscanned.bytes, rfl, ?_, ?_, ?_⟩
    · rw [scanRecords, if_neg hversion]
      have hagain := scanFrames_frames hscanned.valid torn_nil
        (if analysis.trackRefs then segmentId else 0) (frameBytes frames).length walHeaderSize
        analysis (length_le_frameBytes frames)
      rw [List.append_nil, hscanned.accepted] at hagain
      exact hagain
    · intro bytes hmem rest
      obtain ⟨frame, hframe, rfl⟩ := List.mem_map.mp hmem
      rw [recordLength, if_neg hversion, wholeFrame_bytes (hscanned.valid frame hframe)]
      rfl
    · intro length hlength
      rw [recordLength, if_neg hversion] at hlength
      obtain ⟨frame, hframe, -⟩ := Exec.map_eq_ok hlength
      obtain ⟨hvalid, hpre⟩ := wholeFrame_eq_ok hframe
      exact hscanned.unfinished frame hvalid hpre

section
variable {segmentId version stop : Nat} {bytes : Bytes} {analysis analysis' : Analysis}

/-- A scan stops behind the header and within the bytes. -/
theorem scanBytes_stop
    (h : scanBytes segmentId bytes analysis = .ok (analysis', version, stop)) :
    walHeaderSize ≤ stop ∧ stop ≤ bytes.length := by
  obtain ⟨header, hheader, -, -, hrecords⟩ := scanBytes_eq_ok.mp h
  obtain ⟨records, tail, hscanned⟩ := scanRecords_eq_ok hrecords
  have hlong := WALHeader.length_of_decode hheader
  have hlength := congrArg List.length hscanned.bytes
  rw [List.length_drop, List.length_append] at hlength
  have hstop := hscanned.stopped
  omega

/-- The bytes up to where a scan stopped scan to the same, and to their end. -/
theorem scanBytes_again
    (h : scanBytes segmentId bytes analysis = .ok (analysis', version, stop)) :
    scanBytes segmentId (bytes.take stop) analysis = .ok (analysis', version, stop) := by
  obtain ⟨hheaderLe, -⟩ := scanBytes_stop h
  obtain ⟨header, hheader, haccepted, hversion, hrecords⟩ := scanBytes_eq_ok.mp h
  obtain ⟨records, tail, hscanned⟩ := scanRecords_eq_ok hrecords
  refine scanBytes_eq_ok.mpr ⟨header, ?_, haccepted, hversion, ?_⟩
  · rw [WALHeader.decode_take hheaderLe (WALHeader.length_of_decode hheader), hheader]
  · have hrest : (bytes.take stop).drop walHeaderSize = records.flatten := by
      have hlength : stop - walHeaderSize = records.flatten.length := by
        rw [hscanned.stopped]
        omega
      rw [List.drop_take, hscanned.bytes, hlength, List.take_left]
    rw [hrest]
    exact hscanned.again

/-- No record that decodes in sequence ends behind the stop of a scan. -/
theorem scanBytes_decodes
    (h : scanBytes segmentId bytes analysis = .ok (analysis', version, stop)) {offset : Nat}
    (hdecodes : Decodes version bytes offset) : offset ≤ stop := by
  obtain ⟨header, -, -, -, hrecords⟩ := scanBytes_eq_ok.mp h
  obtain ⟨records, tail, hscanned⟩ := scanRecords_eq_ok hrecords
  rw [hscanned.stopped]
  exact hdecodes.le_stop hscanned.bytes hscanned.decode hscanned.tail

end

/-! ### Positions -/

namespace Analysis

/-- The analysis without positions. -/
def untracked (analysis : Analysis) : Analysis :=
  { analysis with
    trackRefs := false
    transactionStarts := ∅
    commitPositions := ∅
    updates := analysis.updates.map fun update => { update with position := none } }

theorem untracked_new (latestLsn : Nat) (trackRefs : Bool) :
    (Analysis.new latestLsn trackRefs).untracked = Analysis.new latestLsn false := rfl

theorem redo_untracked (analysis : Analysis) : analysis.untracked.redo = analysis.redo := by
  have hupdates : analysis.untracked.committedUpdates
      = analysis.committedUpdates.map fun update => { update with position := none } := by
    rw [committedUpdates, committedUpdates, untracked, List.filter_map]
    rfl
  rw [redo, redo, hupdates, List.map_map]
  rfl

/-- The positions of the frames do not matter to an analysis that does not track them. -/
theorem accept_untracked (analysis : Analysis) (frame : Frame) (checksum : Nat)
    (position position' : FramePosition) :
    analysis.untracked.accept frame checksum position'
      = (analysis.accept frame checksum position).map untracked := by
  have hprevious : analysis.untracked.previousLsn = analysis.previousLsn := rfl
  have hlatest : analysis.untracked.latestLsn = analysis.latestLsn := rfl
  have hcommitted : analysis.untracked.committedTransactions = analysis.committedTransactions := rfl
  rw [accept, accept, hprevious, hlatest, hcommitted]
  cases addOrPanic analysis.latestLsn 1 with
  | error halt => rfl
  | ok expected =>
    simp only [Exec.ok_bind]
    split
    · rfl
    · cases hrecord : frame.record with
      | update command =>
        show (Except.ok _ : Exec Analysis) = .ok _
        congr 1
        simp [acceptUpdate, untracked]
      | commit =>
        dsimp only
        split
        · rfl
        · show (Except.ok _ : Exec Analysis) = .ok _
          simp [acceptCommit, untracked]

end Analysis

/-- A scan that does not track positions finds the same otherwise. -/
theorem scanFrames_untracked (segmentId segmentId' fuel : Nat) (bytes : Bytes) (offset : Nat)
    (analysis : Analysis) :
    scanFrames segmentId' fuel bytes offset analysis.untracked
      = (scanFrames segmentId fuel bytes offset analysis).map
          fun found => (found.1.untracked, found.2) := by
  induction fuel generalizing bytes offset analysis with
  | zero => rfl
  | succ fuel ih =>
    rw [scanFrames, scanFrames]
    split
    · rfl
    dsimp only
    cases decodeFrameHeader (bytes.take frameHeaderSize) with
    | error halt => rfl
    | ok found =>
      obtain ⟨lsn, length⟩ := found
      simp only [Exec.ok_bind]
      split
      · rfl
      split
      · rfl
      cases verifyFrameBody (bytes.take frameHeaderSize)
          ((bytes.drop frameHeaderSize).take length) with
      | error halt => rfl
      | ok checksum =>
        simp only [Exec.ok_bind]
        cases decodeScannedFrame lsn ((bytes.drop frameHeaderSize).take length) with
        | error halt => rfl
        | ok frame =>
          simp only [Exec.ok_bind]
          rw [analysis.accept_untracked frame checksum
            ⟨segmentId, offset, frameHeaderSize + length⟩]
          cases analysis.accept frame checksum
              ⟨segmentId, offset, frameHeaderSize + length⟩ with
          | error halt => rfl
          | ok analysis' => exact ih _ _ analysis'

theorem scanLegacy_untracked (fuel : Nat) (bytes : Bytes) (offset : Nat) (analysis : Analysis) :
    scanLegacy fuel bytes offset analysis.untracked
      = (scanLegacy fuel bytes offset analysis).map
          fun found => (found.1.untracked, found.2) := by
  induction fuel generalizing bytes offset analysis with
  | zero => rfl
  | succ fuel ih =>
    rw [scanLegacy, scanLegacy]
    split
    · rfl
    cases decodeLegacy bytes with
    | error halt =>
      dsimp only
      split
      · rfl
      · rfl
    | ok found =>
      obtain ⟨record, rest⟩ := found
      exact ih _ _ { analysis with legacy := analysis.legacy ++ [record] }

theorem scanBytes_untracked (segmentId : Nat) (bytes : Bytes) (analysis : Analysis) :
    scanBytes segmentId bytes analysis.untracked
      = (scanBytes segmentId bytes analysis).map fun found => (found.1.untracked, found.2) := by
  cases hheader : WALHeader.decode bytes with
  | error halt => simp only [scanBytes, hheader, Exec.error_bind]; rfl
  | ok header =>
    by_cases haccepted : headerAccepted header analysis
    · have hrecords : scanRecords header.version segmentId (bytes.drop walHeaderSize)
          analysis.untracked = (scanRecords header.version segmentId (bytes.drop walHeaderSize)
            analysis).map fun found => (found.1.untracked, found.2) := by
        rw [scanRecords, scanRecords]
        split
        · exact scanLegacy_untracked _ _ _ analysis
        · exact scanFrames_untracked _ _ _ _ _ analysis
      rw [@scanBytes_of_header _ _ analysis.untracked _ hheader haccepted,
        scanBytes_of_header hheader haccepted, hrecords]
      cases scanRecords header.version segmentId (bytes.drop walHeaderSize) analysis with
      | error halt => rfl
      | ok found => rfl
    · -- a header that is refused is refused by both
      have hlatest : analysis.untracked.latestLsn = analysis.latestLsn := rfl
      rw [headerAccepted, not_and_or, not_not, not_not] at haccepted
      simp only [scanBytes, hheader, Exec.ok_bind, hlatest]
      by_cases hlegacy : header.version = legacyWalVersion ∧ analysis.latestLsn ≠ 0
      · rw [if_pos hlegacy, if_pos hlegacy]
        rfl
      · have hcheckpoint := haccepted.resolve_left hlegacy
        rw [if_neg hlegacy, if_neg hlegacy, if_pos hcheckpoint, if_pos hcheckpoint]
        rfl

end CereDB.Storage

import CereDB.Proofs.WalRescan

/-!
# `CereDB.Proofs.WalCanonical`: one segment of version two for one list of frames

Neither the header of a version-two segment nor a frame leaves the writer a choice: the fields a
scan accepts determine every byte, the checksums among them. So a segment that is scanned to its
end is the default header and the encodings of its frames (`header_of_decode`,
`scanFrames_eq_ok`), and the scan of an encoding finds the frames again
(`segmentFrames_encoded`).
-/

set_option autoImplicit false

namespace CereDB.Storage

open CereDB.Lib

/-! ### Encoding and decoding a segment -/

/-- A segment as the writer lays it out: the default header, then each frame as `encode_frame`
writes it. -/
def encodeSegment (frames : List Frame) : Exec Bytes := do
  let encoded ← frames.mapM encodeFrame
  return WALHeader.default.encode ++ encoded.flatten

/-- The frames the loop of a scan decodes, one behind the other. -/
def decodedFrames : Nat → Bytes → List Frame
  | 0, _ => []
  | fuel + 1, rest =>
    match wholeFrame rest with
    | .error _ => []
    | .ok frame => frame :: decodedFrames fuel (rest.drop frame.bytes.length)

/-- The frames of a segment, behind its header. -/
def segmentFrames (bytes : Bytes) : List Frame :=
  decodedFrames bytes.length (bytes.drop walHeaderSize)

theorem encodeSegment_valid {frames : List Frame} (h : ∀ frame ∈ frames, frame.Valid) :
    encodeSegment frames = .ok (WALHeader.default.encode ++ frameBytes frames) := by
  have hencoded : frames.mapM encodeFrame = .ok (frames.map Frame.bytes) := by
    induction frames with
    | nil => rfl
    | cons frame frames ih =>
      rw [List.mapM_cons, encodeFrame_valid (h frame List.mem_cons_self),
        ih fun other hother => h other (List.mem_cons_of_mem frame hother)]
      rfl
  rw [encodeSegment, hencoded, Exec.ok_bind, frameBytes, List.flatMap_def]
  rfl

theorem decodedFrames_frameBytes {frames : List Frame} (h : ∀ frame ∈ frames, frame.Valid)
    {fuel : Nat} (hfuel : frames.length ≤ fuel) :
    decodedFrames fuel (frameBytes frames) = frames := by
  induction frames generalizing fuel with
  | nil => cases fuel <;> rfl
  | cons frame frames ih =>
    obtain ⟨fuel, rfl⟩ : ∃ n, fuel = n + 1 := ⟨fuel - 1, by simp at hfuel; omega⟩
    have htail := ih (fun other hother => h other (List.mem_cons_of_mem frame hother))
      (Nat.le_of_succ_le_succ hfuel)
    simp only [decodedFrames, frameBytes_cons, wholeFrame_bytes (h frame List.mem_cons_self),
      List.drop_left, htail]

/-- An encoding holds the frames it was made of, and no others. -/
theorem segmentFrames_encoded {frames : List Frame} (h : ∀ frame ∈ frames, frame.Valid) :
    segmentFrames (WALHeader.default.encode ++ frameBytes frames) = frames := by
  rw [segmentFrames, List.drop_left' WALHeader.length_encode]
  apply decodedFrames_frameBytes h
  rw [List.length_append]
  exact le_trans (length_le_frameBytes frames) (Nat.le_add_left _ _)

/-! ### The header -/

/-- The fields of a header that a scan accepts fix its bytes: the magic number, the version and
the two unused fields are constants, and the checksum is computed from them. -/
theorem header_of_decode {bytes : Bytes} {header : WALHeader} {analysis : Analysis}
    (h : WALHeader.decode bytes = .ok header) (haccepted : headerAccepted header analysis)
    (hversion : header.version = walVersion) :
    bytes.take walHeaderSize = WALHeader.default.encode := by
  have hlong : 36 ≤ bytes.length := WALHeader.length_of_decode h
  simp only [WALHeader.decode] at h
  split at h
  · cases h
  split at h
  · cases h
  rename_i hmagic
  split at h
  · cases h
  split at h
  · cases h
  rename_i hchecksum
  obtain rfl := Except.ok.inj h
  obtain ⟨hcheckpoint, hoffset⟩ := not_or.mp haccepted.2
  -- each field is the big-endian form of the number it decodes to
  have hfield {offset width value : Nat} (hfits : offset + width ≤ bytes.length)
      (hvalue : beNat ((bytes.drop offset).take width) = value) :
      (bytes.drop offset).take width = beBytes width value := by
    rw [← hvalue, beBytes_slice hfits]
  have hfields : bytes.take 32 = WALHeader.default.fields := by
    rw [show 32 = 8 + 8 + 8 + 8 from rfl, List.take_add, List.take_add, List.take_add,
      not_not.mp hmagic, hfield (by omega) hversion, hfield (by omega) (not_not.mp hcheckpoint),
      hfield (by omega) (not_not.mp hoffset)]
    rfl
  rw [show walHeaderSize = 32 + 4 from rfl, List.take_add, hfield (by omega) (not_not.mp hchecksum),
    hfields]
  rfl

/-! ### Whole segments -/

/-- The frames are well-formed, and an analysis takes them in from the end of the header on. -/
structure AcceptedFrames (segmentId : Nat) (analysis : Analysis) (frames : List Frame)
    (analysis' : Analysis) : Prop where
  valid : ∀ frame ∈ frames, frame.Valid
  accepted : acceptFrames (if analysis.trackRefs then segmentId else 0) frames walHeaderSize analysis
    = .ok analysis'

/-- A version-two segment that is scanned to its end is an encoding. -/
theorem encoded_of_scanBytes {segmentId : Nat} {bytes : Bytes} {analysis analysis' : Analysis}
    (h : scanBytes segmentId bytes analysis = .ok (analysis', walVersion, bytes.length)) :
    ∃ frames, bytes = WALHeader.default.encode ++ frameBytes frames ∧
      AcceptedFrames segmentId analysis frames analysis' := by
  obtain ⟨header, hheader, haccepted, hversion, hrecords⟩ := scanBytes_eq_ok.mp h
  rw [scanRecords, if_neg (by decide)] at hrecords
  obtain ⟨frames, tail, hscanned, hstop⟩ := scanFrames_eq_ok le_rfl hrecords
  have hlong := WALHeader.length_of_decode hheader
  -- the scan stopped at the end of the bytes, so nothing is left behind the last frame
  have htail : tail = [] := by
    have hlength := congrArg List.length hscanned.bytes
    rw [List.length_drop, List.length_append] at hlength
    exact List.eq_nil_of_length_eq_zero (by omega)
  subst htail
  refine ⟨frames, ?_, hscanned.valid, hscanned.accepted⟩
  rw [← header_of_decode hheader haccepted hversion, ← List.append_nil (frameBytes frames),
    ← hscanned.bytes, List.take_append_drop]

/-- An encoding of frames that are accepted is scanned to its end. -/
theorem scanBytes_encoded {segmentId : Nat} {frames : List Frame} {analysis analysis' : Analysis}
    (h : AcceptedFrames segmentId analysis frames analysis') :
    scanBytes segmentId (WALHeader.default.encode ++ frameBytes frames) analysis
      = .ok (analysis', walVersion, (WALHeader.default.encode ++ frameBytes frames).length) := by
  rw [scanBytes_eq_ok]
  refine ⟨.default, WALHeader.decode_default _, ⟨fun h => absurd h.1 (by decide), by decide⟩, rfl, ?_⟩
  rw [scanRecords, if_neg (by decide), List.drop_left' WALHeader.length_encode,
    ← List.append_nil (frameBytes frames),
    scanFrames_frames h.valid torn_nil _ _ _ _ (by simpa using length_le_frameBytes frames),
    h.accepted, List.append_nil, List.length_append, WALHeader.length_encode]
  rfl

/-- The version-two format is canonical. A segment that a scan accepts up to its last byte is the
encoding of the frames in it; the encoding of frames that are accepted scans to its last byte and
to those frames; and no two such lists have the same encoding. -/
theorem wal_format_canonical (segmentId : Nat) (analysis : Analysis) :
    (∀ bytes analysis',
      scanBytes segmentId bytes analysis = .ok (analysis', walVersion, bytes.length) →
      encodeSegment (segmentFrames bytes) = .ok bytes ∧
        AcceptedFrames segmentId analysis (segmentFrames bytes) analysis') ∧
    (∀ frames analysis', AcceptedFrames segmentId analysis frames analysis' →
      ∃ bytes, encodeSegment frames = .ok bytes ∧
        scanBytes segmentId bytes analysis = .ok (analysis', walVersion, bytes.length) ∧
        segmentFrames bytes = frames) ∧
    (∀ first second after after', AcceptedFrames segmentId analysis first after →
      AcceptedFrames segmentId analysis second after' →
      encodeSegment first = encodeSegment second → first = second) := by
  refine ⟨?_, ?_, ?_⟩
  · intro bytes analysis' h
    obtain ⟨frames, rfl, haccepted⟩ := encoded_of_scanBytes h
    rw [segmentFrames_encoded haccepted.valid]
    exact ⟨encodeSegment_valid haccepted.valid, haccepted⟩
  · intro frames analysis' h
    exact ⟨_, encodeSegment_valid h.valid, scanBytes_encoded h, segmentFrames_encoded h.valid⟩
  · intro first second _ _ hfirst hsecond heq
    rw [encodeSegment_valid hfirst.valid, encodeSegment_valid hsecond.valid] at heq
    rw [← segmentFrames_encoded hfirst.valid, Except.ok.inj heq,
      segmentFrames_encoded hsecond.valid]

/-- A transaction of one write and its commit. -/
def twoFrames : List Frame :=
  [⟨1, 1, 0, .update ⟨.put, [1], [2, 3], 1⟩⟩, ⟨2, 1, 1, .commit⟩]

theorem wal_format_canonical_twoFrames :
    encodeSegment (segmentFrames (WALHeader.default.encode ++ frameBytes twoFrames))
      = .ok (WALHeader.default.encode ++ frameBytes twoFrames) := by
  have hvalid : ∀ frame ∈ twoFrames, frame.Valid := by
    simp only [twoFrames, List.forall_mem_cons]
    exact ⟨⟨by decide, by decide, by decide, ⟨nofun, by decide, by decide⟩⟩,
      ⟨by decide, by decide, by decide, trivial⟩, nofun⟩
  have haccepted : (acceptFrames 0 twoFrames walHeaderSize (.new 0 false)).isOk := by
    decide +kernel
  obtain ⟨analysis', h⟩ : ∃ analysis',
      acceptFrames 0 twoFrames walHeaderSize (.new 0 false) = .ok analysis' := by
    revert haccepted
    cases acceptFrames 0 twoFrames walHeaderSize (.new 0 false) with
    | error halt => exact nofun
    | ok analysis' => exact fun _ => ⟨analysis', rfl⟩
  exact ((wal_format_canonical 0 (.new 0 false)).1 _ analysis' (scanBytes_encoded ⟨hvalid, h⟩)).1

end CereDB.Storage

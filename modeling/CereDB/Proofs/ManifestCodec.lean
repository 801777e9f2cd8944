import CereDB.Storage.Manifest

/-!
# `CereDB.Proofs.ManifestCodec`: manifest entries decode to what was encoded

`ManifestEntry` is the content of an entry, whatever operation wrote it, and `applyEntry` is what
it means for a snapshot. `replay_entry` is the round trip: replaying the bytes an operation
encoded changes the snapshot as `applyEntry` says. `Replays` states the loop of
`replay_manifest` as a relation, and `Replays.append` lets a file be replayed in two parts.
-/

set_option autoImplicit false

namespace CereDB.Storage

open CereDB.Lib

/-! ### What an entry means -/

/-- The content of a manifest entry. -/
inductive ManifestEntry where
  | add (table : SSTableMeta)
  | remove (level fileId : Nat)
  | checkpoint (checkpointLsn activeWalSegment : Nat)
  | recovery (position : RecoveryCheckpoint)
  | compaction (removals : List (Nat × Nat)) (outputs : List SSTableMeta)
deriving DecidableEq, Repr

/-- A table joins the snapshot, and later ids are larger than its id. -/
def ManifestSnapshot.addTable (snapshot : ManifestSnapshot) (table : SSTableMeta) :
    ManifestSnapshot :=
  { snapshot with
    nextFileId := max snapshot.nextFileId (table.fileId + 1)
    levels := snapshot.levels.add table }

/-- Files leave the snapshot. -/
def ManifestSnapshot.removeAll (snapshot : ManifestSnapshot) (removals : List (Nat × Nat)) :
    ManifestSnapshot :=
  { snapshot with
    levels := removals.foldl (fun levels removal => levels.remove removal.1 removal.2)
      snapshot.levels }

/-- What an entry does to a snapshot. -/
def ManifestSnapshot.applyEntry (snapshot : ManifestSnapshot) : ManifestEntry → ManifestSnapshot
  | .add table => snapshot.addTable table
  | .remove level fileId => snapshot.removeAll [(level, fileId)]
  | .checkpoint _ activeWalSegment => { snapshot with activeWalSegment }
  | .recovery position => { snapshot with
      activeWalSegment := position.replayStartSegment
      recoveryCheckpoint := some position }
  | .compaction removals outputs =>
    outputs.foldl ManifestSnapshot.addTable (snapshot.removeAll removals)

/-- The numbers fit the integer types of the source, and the file id is not the largest one. -/
structure SSTableMeta.InRange (table : SSTableMeta) : Prop where
  level : table.level < 256 ^ 4
  fileId : table.fileId + 1 < 256 ^ 8
  recordCount : table.recordCount < 256 ^ 8
  bloomOffset : table.bloomOffset < 256 ^ 8
  bloomSize : table.bloomSize < 256 ^ 8

/-- The numbers fit the integer types of the source, and no file id is the largest one. -/
def ManifestEntry.InRange : ManifestEntry → Prop
  | .add table => table.InRange
  | .remove level fileId => level < 256 ^ 4 ∧ fileId < 256 ^ 8
  | .checkpoint checkpointLsn activeWalSegment =>
    checkpointLsn < 256 ^ 8 ∧ activeWalSegment < 256 ^ 8
  | .recovery position => position.replayStartSegment < 256 ^ 8 ∧
      position.nextPhysicalLsn < 256 ^ 8 ∧ position.committedSequence < 256 ^ 8
  | .compaction removals outputs =>
    (∀ removal ∈ removals, removal.1 < 256 ^ 4 ∧ removal.2 < 256 ^ 8) ∧
      ∀ table ∈ outputs, table.InRange

/-- The bytes the operations write for an entry. -/
def ManifestEntry.encode : ManifestEntry → Exec Bytes
  | .add table => do encodeEntry entryKindAdd (← encodeAddPayload table)
  | .remove level fileId => encodeEntry entryKindRemove (encodeRemovePayload (level, fileId))
  | .checkpoint checkpointLsn activeWalSegment =>
    encodeEntry entryKindCheckpoint (encodeCheckpointPayload checkpointLsn activeWalSegment)
  | .recovery position =>
    encodeEntry entryKindRecoveryCheckpoint (encodeRecoveryPayload position)
  | .compaction removals outputs => encodeCompactionEntry removals outputs

/-! ### Payloads -/

theorem pushBytes_eq_ok {value bytes : Bytes} (h : pushBytes value = .ok bytes) :
    value.length < 256 ^ 4 ∧ bytes = beBytes 4 value.length ++ value := by
  unfold pushBytes at h
  split at h
  · rename_i hlt
    exact ⟨hlt, (Except.ok.inj h).symm⟩
  · cases h

/-- A pushed byte string is read back. -/
theorem readVec_parses {value : Bytes} (h : value.length < 256 ^ 4) :
    Reader.Parses readVec (beBytes 4 value.length ++ value) value :=
  (Reader.Parses.readBe eof h).bind (Reader.Parses.readExact eof rfl)

theorem fromUtf8_asBytes (s : String) : fromUtf8 (asBytes s) = .ok s := by
  have hbytes : (⟨(asBytes s).toArray⟩ : ByteArray) = s.toUTF8 := by simp [asBytes]
  have hvalid : String.fromUTF8? s.toUTF8 = some s := by
    unfold String.fromUTF8?
    exact dif_pos s.isValidUTF8
  rw [fromUtf8, hbytes, hvalid]

theorem readString_parses {s : String} (h : (asBytes s).length < 256 ^ 4) :
    Reader.Parses readString (beBytes 4 (asBytes s).length ++ asBytes s) s := by
  intro rest
  rw [readString, Reader.bind_ok (readVec_parses h rest), fromUtf8_asBytes]
  rfl

theorem readBloomPosition_parses {offset size : Nat} (ho : offset < 256 ^ 8)
    (hs : size < 256 ^ 8) :
    Reader.Parses readBloomPosition (beBytes 8 offset ++ beBytes 8 size) (offset, size) := by
  intro rest
  have hlong : 16 ≤ (beBytes 8 offset ++ beBytes 8 size ++ rest).length := by
    simp only [List.length_append, length_beBytes]
    omega
  have hread : Reader.Parses (do return (← readBe eof 8, ← readBe eof 8) : Decode (Nat × Nat))
      (beBytes 8 offset ++ (beBytes 8 size ++ [])) (offset, size) :=
    (Reader.Parses.readBe eof ho).bind
      ((Reader.Parses.readBe eof hs).bind (Reader.Parses.pure (offset, size)))
  rw [List.append_nil] at hread
  rw [readBloomPosition, if_pos hlong]
  exact hread rest

theorem readKeyRange_parses {smallest largest : Key} (hs : smallest.length < 256 ^ 4)
    (hl : largest.length < 256 ^ 4) :
    Reader.Parses readKeyRange ((beBytes 4 smallest.length ++ smallest) ++
      (beBytes 4 largest.length ++ largest)) (smallest, largest) := by
  intro rest
  have hlong : 0 < ((beBytes 4 smallest.length ++ smallest) ++
      (beBytes 4 largest.length ++ largest) ++ rest).length := by
    simp only [List.length_append, length_beBytes]
    omega
  have hread : Reader.Parses (do return (← readVec, ← readVec) : Decode (Key × Key))
      ((beBytes 4 smallest.length ++ smallest) ++ ((beBytes 4 largest.length ++ largest) ++ []))
      (smallest, largest) :=
    (readVec_parses hs).bind ((readVec_parses hl).bind (Reader.Parses.pure (smallest, largest)))
  rw [List.append_nil] at hread
  rw [readKeyRange, if_pos hlong]
  exact hread rest

/-- The metadata of a table is read back from its payload. -/
theorem readAddPayload_parses {table : SSTableMeta} {payload : Bytes} (hrange : table.InRange)
    (h : encodeAddPayload table = .ok payload) : Reader.Parses readAddPayload payload table := by
  obtain ⟨path, hpath, h⟩ := Exec.bind_eq_ok h
  obtain ⟨smallest, hsmallest, h⟩ := Exec.bind_eq_ok h
  obtain ⟨largest, hlargest, h⟩ := Exec.bind_eq_ok h
  obtain ⟨hpathLen, rfl⟩ := pushBytes_eq_ok hpath
  obtain ⟨hsmallestLen, rfl⟩ := pushBytes_eq_ok hsmallest
  obtain ⟨hlargestLen, rfl⟩ := pushBytes_eq_ok hlargest
  have hfileId : table.fileId < 256 ^ 8 := lt_trans (Nat.lt_succ_self _) hrange.fileId
  have hpayload : payload = beBytes 4 table.level ++ (beBytes 8 table.fileId ++
      (beBytes 8 table.recordCount ++ ((beBytes 4 (asBytes table.path).length ++
        asBytes table.path) ++ ((beBytes 8 table.bloomOffset ++ beBytes 8 table.bloomSize) ++
          (((beBytes 4 table.smallestKey.length ++ table.smallestKey) ++
            (beBytes 4 table.largestKey.length ++ table.largestKey)) ++ []))))) := by
    rw [← Except.ok.inj h]
    simp only [List.append_assoc, List.append_nil]
  rw [hpayload]
  refine (Reader.Parses.readBe eof hrange.level).bind ?_
  refine (Reader.Parses.readBe eof hfileId).bind ?_
  refine (Reader.Parses.readBe eof hrange.recordCount).bind ?_
  refine (readString_parses hpathLen).bind ?_
  refine (readBloomPosition_parses hrange.bloomOffset hrange.bloomSize).bind ?_
  exact (readKeyRange_parses hsmallestLen hlargestLen).bind (Reader.Parses.pure table)

theorem decodeAddPayload_encode {table : SSTableMeta} {payload : Bytes} (hrange : table.InRange)
    (h : encodeAddPayload table = .ok payload) : decodeAddPayload payload = .ok table := by
  have hread := readAddPayload_parses hrange h []
  rw [List.append_nil] at hread
  rw [decodeAddPayload, hread]
  rfl

/-- A payload with a table is not empty. -/
theorem encodeAddPayload_ne_nil {table : SSTableMeta} {payload : Bytes}
    (h : encodeAddPayload table = .ok payload) : payload ≠ [] := by
  obtain ⟨path, -, h⟩ := Exec.bind_eq_ok h
  obtain ⟨smallest, -, h⟩ := Exec.bind_eq_ok h
  obtain ⟨largest, -, h⟩ := Exec.bind_eq_ok h
  have hlen : 0 < payload.length := by
    rw [← Except.ok.inj h]
    simp only [List.length_append, length_beBytes]
    omega
  exact List.length_pos_iff.mp hlen

/-! ### Compaction payloads -/

theorem encodeRemovals_eq_ok {removals : List (Nat × Nat)} {head : Bytes}
    (h : encodeRemovals removals = .ok head) : removals.length < 256 ^ 4 ∧
      head = beBytes 4 removals.length ++ removals.flatMap encodeRemovePayload := by
  unfold encodeRemovals at h
  split at h
  · rename_i hlt
    exact ⟨hlt, (Except.ok.inj h).symm⟩
  · cases h

theorem readRemoval_parses {removal : Nat × Nat}
    (h : removal.1 < 256 ^ 4 ∧ removal.2 < 256 ^ 8) :
    Reader.Parses readRemoval (encodeRemovePayload removal) removal := by
  have hread : Reader.Parses readRemoval
      (beBytes 4 removal.1 ++ (beBytes 8 removal.2 ++ [])) removal :=
    (Reader.Parses.readBe eof h.1).bind
      ((Reader.Parses.readBe eof h.2).bind (Reader.Parses.pure removal))
  rw [List.append_nil] at hread
  exact hread

theorem length_removals (removals : List (Nat × Nat)) :
    (removals.flatMap encodeRemovePayload).length = 12 * removals.length := by
  induction removals with
  | nil => rfl
  | cons removal removals ih =>
    rw [List.flatMap_cons, List.length_append, ih, encodeRemovePayload, List.length_append,
      length_beBytes, length_beBytes, List.length_cons]
    omega

/-- The removals at the head of a payload are read back, if the payload is long enough for the
count check. -/
theorem readRemovals_parses {removals : List (Nat × Nat)} {payloadLen reserved : Nat}
    (hcount : removals.length < 256 ^ 4)
    (hrange : ∀ removal ∈ removals, removal.1 < 256 ^ 4 ∧ removal.2 < 256 ^ 8)
    (hlen : reserved + 12 * removals.length ≤ payloadLen) :
    Reader.Parses (readRemovals payloadLen reserved)
      (beBytes 4 removals.length ++ removals.flatMap encodeRemovePayload) removals := by
  have hcheck : ¬ (payloadLen - reserved) / 12 < removals.length := by omega
  refine (Reader.Parses.readBe eof hcount).bind ?_
  rw [if_neg hcheck]
  exact Reader.Parses.replicate fun removal h => readRemoval_parses (hrange removal h)

theorem decodeCompactionPayload_none {removals : List (Nat × Nat)} {payload : Bytes}
    (hrange : ∀ removal ∈ removals, removal.1 < 256 ^ 4 ∧ removal.2 < 256 ^ 8)
    (h : encodeCompactionPayload removals none = .ok payload) :
    decodeCompactionPayload payload = .ok (removals, []) := by
  obtain ⟨head, hhead, h⟩ := Exec.bind_eq_ok h
  obtain ⟨hcount, rfl⟩ := encodeRemovals_eq_ok hhead
  obtain rfl := Except.ok.inj h
  have hlen : 4 + 12 * removals.length
      ≤ (beBytes 4 removals.length ++ removals.flatMap encodeRemovePayload).length := by
    rw [List.length_append, length_beBytes, length_removals]
  have hread := readRemovals_parses hcount hrange hlen []
  rw [List.append_nil] at hread
  rw [decodeCompactionPayload, hread]
  rfl

theorem decodeCompactionPayload_some {removals : List (Nat × Nat)} {table : SSTableMeta}
    {payload : Bytes}
    (hrange : ∀ removal ∈ removals, removal.1 < 256 ^ 4 ∧ removal.2 < 256 ^ 8)
    (htable : table.InRange) (h : encodeCompactionPayload removals (some table) = .ok payload) :
    decodeCompactionPayload payload = .ok (removals, [table]) := by
  obtain ⟨head, hhead, h⟩ := Exec.bind_eq_ok h
  obtain ⟨hcount, rfl⟩ := encodeRemovals_eq_ok hhead
  obtain ⟨add, hadd, h⟩ := Exec.bind_eq_ok h
  obtain rfl := Except.ok.inj h
  have hlen : 4 + 12 * removals.length
      ≤ (beBytes 4 removals.length ++ removals.flatMap encodeRemovePayload ++ add).length := by
    rw [List.length_append, List.length_append, length_beBytes, length_removals]
    omega
  have hread := readRemovals_parses hcount hrange hlen add
  rw [decodeCompactionPayload, hread]
  show (if add = [] then _ else _) = _
  rw [if_neg (encodeAddPayload_ne_nil hadd), decodeAddPayload_encode htable hadd]
  rfl

/-- The bytes of one output in a payload with several. -/
def outputBytes (table : SSTableMeta) : Bytes := (encodeOutput table).toOption.getD []

theorem mapM_encodeOutput {outputs : List SSTableMeta} {parts : List Bytes}
    (h : outputs.mapM encodeOutput = .ok parts) :
    parts = outputs.map outputBytes ∧
      ∀ table ∈ outputs, encodeOutput table = .ok (outputBytes table) := by
  induction outputs generalizing parts with
  | nil =>
    rw [List.mapM_nil] at h
    exact ⟨(Except.ok.inj h).symm, fun table ht => (List.not_mem_nil ht).elim⟩
  | cons table outputs ih =>
    rw [List.mapM_cons] at h
    obtain ⟨part, hpart, h⟩ := Exec.bind_eq_ok h
    obtain ⟨rest, hrest, h⟩ := Exec.bind_eq_ok h
    obtain ⟨rfl, hall⟩ := ih hrest
    have hbytes : outputBytes table = part := by
      rw [outputBytes, hpart]
      rfl
    rw [List.map_cons, hbytes, ← Except.ok.inj h]
    refine ⟨rfl, fun t ht => ?_⟩
    rcases List.mem_cons.mp ht with rfl | ht
    · rw [hbytes, hpart]
    · exact hall t ht

theorem readOutput_parses {table : SSTableMeta} (hrange : table.InRange)
    (h : encodeOutput table = .ok (outputBytes table)) :
    Reader.Parses readOutput (outputBytes table) table := by
  obtain ⟨payload, hpayload, hpush⟩ := Exec.bind_eq_ok h
  obtain ⟨hlen, hbytes⟩ := pushBytes_eq_ok hpush
  intro rest
  have hread := Reader.Parses.readBe eof hlen (payload ++ rest)
  have hlong : ¬ (payload ++ rest).length < payload.length := by simp
  rw [hbytes, List.append_assoc, readOutput, hread]
  show (if (payload ++ rest).length < payload.length then _ else _) = _
  rw [if_neg hlong, List.take_left, List.drop_left, decodeAddPayload_encode hrange hpayload]
  rfl

theorem four_mul_length_le (outputs : List SSTableMeta)
    (h : ∀ table ∈ outputs, encodeOutput table = .ok (outputBytes table)) :
    4 * outputs.length ≤ (outputs.flatMap outputBytes).length := by
  induction outputs with
  | nil => simp
  | cons table outputs ih =>
    obtain ⟨payload, -, hpush⟩ := Exec.bind_eq_ok (h table List.mem_cons_self)
    obtain ⟨-, hbytes⟩ := pushBytes_eq_ok hpush
    have htail := ih fun t ht => h t (List.mem_cons_of_mem table ht)
    rw [List.flatMap_cons, List.length_append, hbytes, List.length_append, length_beBytes,
      List.length_cons]
    omega

theorem decodeCompactionOutputs_encode {removals : List (Nat × Nat)}
    {outputs : List SSTableMeta} {payload : Bytes}
    (hrange : ∀ removal ∈ removals, removal.1 < 256 ^ 4 ∧ removal.2 < 256 ^ 8)
    (htables : ∀ table ∈ outputs, table.InRange)
    (h : encodeCompactionOutputs removals outputs = .ok payload) :
    decodeCompactionOutputs payload = .ok (removals, outputs) := by
  obtain ⟨head, hhead, h⟩ := Exec.bind_eq_ok h
  obtain ⟨removed, hremoved, hhead⟩ := Exec.bind_eq_ok hhead
  obtain ⟨hcount, rfl⟩ := encodeRemovals_eq_ok hremoved
  obtain rfl := Except.ok.inj hhead
  split at h
  · rename_i houtputs
    obtain ⟨parts, hparts, h⟩ := Exec.bind_eq_ok h
    obtain ⟨rfl, hall⟩ := mapM_encodeOutput hparts
    obtain rfl := Except.ok.inj h
    have hflat : (outputs.map outputBytes).flatten = outputs.flatMap outputBytes := rfl
    have hlen : 8 + 12 * removals.length ≤ (beBytes 4 removals.length ++
        removals.flatMap encodeRemovePayload ++ beBytes 4 outputs.length ++
        (outputs.map outputBytes).flatten).length := by
      simp only [List.length_append, length_beBytes, length_removals]
      omega
    have hread := readRemovals_parses hcount hrange hlen
      (beBytes 4 outputs.length ++ outputs.flatMap outputBytes)
    have hoffer : ¬ (outputs.flatMap outputBytes).length / 4 < outputs.length := by
      have := four_mul_length_le outputs hall
      omega
    have hparse := Reader.Parses.replicate
      (fun table ht => readOutput_parses (htables table ht) (hall table ht)) []
    rw [List.append_nil] at hparse
    have houts : readOutputs (beBytes 4 outputs.length ++ outputs.flatMap outputBytes)
        = .ok (outputs, []) := by
      rw [readOutputs, Reader.Parses.readBe eof houtputs]
      show (if (outputs.flatMap outputBytes).length / 4 < outputs.length then _ else _) = _
      rw [if_neg hoffer, hparse]
    rw [decodeCompactionOutputs]
    rw [hflat] at hread ⊢
    rw [List.append_assoc (beBytes 4 removals.length ++ _)] at hread ⊢
    rw [hread]
    show (readOutputs _ >>= _) = _
    rw [houts]
    rfl
  · cases h

/-! ### Entries -/

theorem encodeEntry_eq_ok {kind : UInt8} {payload bytes : Bytes}
    (h : encodeEntry kind payload = .ok bytes) : payload.length < 256 ^ 4 ∧
      bytes = kind :: (beBytes 4 payload.length ++ (payload ++
        beBytes 4 (crc32 (kind :: (beBytes 4 payload.length ++ payload))))) := by
  unfold encodeEntry at h
  split at h
  · rename_i hlt
    refine ⟨hlt, ?_⟩
    rw [← Except.ok.inj h, List.cons_append, List.append_assoc]
  · cases h

/-- An encoded entry is decoded in front of anything. -/
theorem decodeEntry_encode {kind : UInt8} {payload bytes : Bytes}
    (h : encodeEntry kind payload = .ok bytes) (rest : Bytes) :
    decodeEntry (bytes ++ rest) = .ok (kind, payload, rest) := by
  obtain ⟨hlen, rfl⟩ := encodeEntry_eq_ok h
  let crc := beBytes 4 (crc32 (kind :: (beBytes 4 payload.length ++ payload)))
  have hshape : (kind :: (beBytes 4 payload.length ++ (payload ++ crc))) ++ rest
      = kind :: (beBytes 4 payload.length ++ (payload ++ (crc ++ rest))) := by
    simp only [List.cons_append, List.append_assoc]
  have htake : (beBytes 4 payload.length ++ (payload ++ (crc ++ rest))).take 4
      = beBytes 4 payload.length := List.take_left' (length_beBytes 4 _)
  have hdrop : (beBytes 4 payload.length ++ (payload ++ (crc ++ rest))).drop 4
      = payload ++ (crc ++ rest) := List.drop_left' (length_beBytes 4 _)
  have hheader : ¬ (beBytes 4 payload.length ++ (payload ++ (crc ++ rest))).length < 4 := by
    rw [List.length_append, length_beBytes]
    omega
  have hcrcLen : crc.length = 4 := length_beBytes 4 _
  have hbody : ¬ (payload ++ (crc ++ rest)).length < payload.length + 4 := by
    rw [List.length_append, List.length_append, hcrcLen]
    omega
  have hstored : beNat (((payload ++ (crc ++ rest)).drop payload.length).take 4)
      = crc32 (kind :: (beBytes 4 payload.length ++ payload)) := by
    rw [List.drop_left, List.take_left' hcrcLen]
    exact beNat_beBytes 4 _ (crc32_lt _)
  have hrest : (payload ++ (crc ++ rest)).drop (payload.length + 4) = rest := by
    rw [← List.drop_drop, List.drop_left, List.drop_left' hcrcLen]
  rw [hshape, decodeEntry, if_neg hheader]
  simp only [htake, hdrop, beNat_beBytes 4 _ hlen]
  rw [if_neg hbody, List.take_left, hstored, if_neg (fun hne => hne rfl), hrest]

/-- Decoding reads no further than the entry. -/
theorem decodeEntry_append {data payload rest : Bytes} {kind : UInt8}
    (h : decodeEntry data = .ok (kind, payload, rest)) (more : Bytes) :
    decodeEntry (data ++ more) = .ok (kind, payload, rest ++ more) := by
  cases data with
  | nil => cases h
  | cons first bytes =>
    rw [decodeEntry] at h
    rw [List.cons_append, decodeEntry]
    split at h
    · cases h
    · rename_i hheader
      have hfour : 4 ≤ bytes.length := Nat.not_lt.mp hheader
      have hheader' : ¬ (bytes ++ more).length < 4 := by
        rw [List.length_append]
        omega
      rw [if_neg hheader', List.take_append_of_le_length hfour,
        List.drop_append_of_le_length hfour]
      simp only at h ⊢
      split at h
      · cases h
      · rename_i hbody
        have hlen : beNat (bytes.take 4) + 4 ≤ (bytes.drop 4).length := Nat.not_lt.mp hbody
        have hbody' : ¬ (bytes.drop 4 ++ more).length < beNat (bytes.take 4) + 4 := by
          rw [List.length_append]
          omega
        have hfourTail : 4 ≤ ((bytes.drop 4).drop (beNat (bytes.take 4))).length := by
          rw [List.length_drop]
          omega
        rw [if_neg hbody', List.take_append_of_le_length (by omega),
          List.drop_append_of_le_length (by omega : beNat (bytes.take 4) ≤ _),
          List.take_append_of_le_length hfourTail, List.drop_append_of_le_length hlen]
        split at h
        · cases h
        · rename_i hcrc
          rw [if_neg hcrc]
          simp only [Except.ok.injEq, Prod.mk.injEq] at h ⊢
          exact ⟨h.1, h.2.1, by rw [h.2.2]⟩

theorem length_decodeEntry {data payload rest : Bytes} {kind : UInt8}
    (h : decodeEntry data = .ok (kind, payload, rest)) : rest.length < data.length := by
  cases data with
  | nil => cases h
  | cons first bytes =>
    rw [decodeEntry] at h
    split at h
    · cases h
    · simp only at h
      split at h
      · cases h
      · split at h
        · cases h
        · simp only [Except.ok.injEq, Prod.mk.injEq] at h
          rw [← h.2.2, List.length_drop, List.length_drop, List.length_cons]
          omega

/-! ### Replay of one entry -/

theorem nextId_of_inRange {table : SSTableMeta} (h : table.InRange) :
    nextId table.fileId = .ok (table.fileId + 1) :=
  addOrPanic_of_lt h.fileId

theorem applyCompaction_snapshot {outputs : List SSTableMeta}
    (h : ∀ table ∈ outputs, table.InRange) (state : ManifestState) :
    ∃ state', outputs.foldlM applyOutput state = .ok state' ∧
      state'.snapshot = outputs.foldl ManifestSnapshot.addTable state.snapshot := by
  induction outputs generalizing state with
  | nil => exact ⟨state, rfl, rfl⟩
  | cons table outputs ih =>
    have hstep : applyOutput state table = .ok { state with
        nextFileId := max state.nextFileId (table.fileId + 1)
        levels := state.levels.add table } := by
      rw [applyOutput, nextId_of_inRange (h table List.mem_cons_self)]
      rfl
    obtain ⟨state', hrun, hsnapshot⟩ := ih (fun t ht => h t (List.mem_cons_of_mem table ht))
      { state with
        nextFileId := max state.nextFileId (table.fileId + 1)
        levels := state.levels.add table }
    refine ⟨state', ?_, hsnapshot⟩
    rw [List.foldlM_cons, hstep]
    exact hrun

/-- The entry an operation encodes is decoded to a kind and a payload whose replay changes the
snapshot as the entry says. -/
theorem replay_entry {entry : ManifestEntry} {bytes : Bytes} (hrange : entry.InRange)
    (h : entry.encode = .ok bytes) :
    ∃ kind payload, (∀ rest, decodeEntry (bytes ++ rest) = .ok (kind, payload, rest)) ∧
      ∀ state : ManifestState, ∃ state', replayEntry state kind payload = .ok state' ∧
        state'.snapshot = state.snapshot.applyEntry entry := by
  cases entry with
  | add table =>
    obtain ⟨payload, hpayload, hentry⟩ := Exec.bind_eq_ok h
    refine ⟨entryKindAdd, payload, decodeEntry_encode hentry, fun state => ?_⟩
    by_cases hid : state.nextFileId ≤ table.fileId
    · refine ⟨{ state with levels := state.levels.add table, nextFileId := table.fileId + 1 },
        ?_, ?_⟩
      · rw [replayEntry, if_pos rfl, decodeAddPayload_encode hrange hpayload]
        show (if state.nextFileId ≤ table.fileId then _ else _) = _
        rw [if_pos hid, nextId_of_inRange hrange]
        rfl
      · have hmax : max state.nextFileId (table.fileId + 1) = table.fileId + 1 := by omega
        simp only [ManifestState.snapshot, ManifestSnapshot.applyEntry,
          ManifestSnapshot.addTable, hmax]
    · refine ⟨{ state with levels := state.levels.add table }, ?_, ?_⟩
      · rw [replayEntry, if_pos rfl, decodeAddPayload_encode hrange hpayload]
        show (if state.nextFileId ≤ table.fileId then _ else _) = _
        rw [if_neg hid]
        rfl
      · have hmax : max state.nextFileId (table.fileId + 1) = state.nextFileId := by omega
        simp only [ManifestState.snapshot, ManifestSnapshot.applyEntry,
          ManifestSnapshot.addTable, hmax]
  | remove level fileId =>
    have hdecode : decodeRemovePayload (encodeRemovePayload (level, fileId))
        = .ok (level, fileId) := by
      have hlen : (encodeRemovePayload (level, fileId)).length = 12 := by
        simp only [encodeRemovePayload, List.length_append, length_beBytes]
      rw [decodeRemovePayload, if_neg (fun hne => hne hlen), encodeRemovePayload,
        List.take_left' (length_beBytes 4 _), List.drop_left' (length_beBytes 4 _),
        beNat_beBytes 4 _ hrange.1, beNat_beBytes 8 _ hrange.2]
    refine ⟨entryKindRemove, _, decodeEntry_encode h, fun state =>
      ⟨{ state with levels := state.levels.remove level fileId }, ?_, rfl⟩⟩
    rw [replayEntry, if_neg (by decide), if_pos rfl, hdecode]
    rfl
  | checkpoint checkpointLsn activeWalSegment =>
    have hdecode : decodeCheckpointPayload
        (encodeCheckpointPayload checkpointLsn activeWalSegment)
        = .ok (checkpointLsn, activeWalSegment) := by
      have hlen : (encodeCheckpointPayload checkpointLsn activeWalSegment).length = 16 := by
        simp only [encodeCheckpointPayload, List.length_append, length_beBytes]
      rw [decodeCheckpointPayload, if_neg (fun hne => hne hlen), encodeCheckpointPayload,
        List.take_left' (length_beBytes 8 _), List.drop_left' (length_beBytes 8 _),
        beNat_beBytes 8 _ hrange.1, beNat_beBytes 8 _ hrange.2]
    refine ⟨entryKindCheckpoint, _, decodeEntry_encode h, fun state =>
      ⟨{ state with activeWalSegment }, ?_, rfl⟩⟩
    rw [replayEntry, if_neg (by decide), if_neg (by decide), if_neg (by decide),
      if_neg (by decide), if_pos rfl, hdecode]
    rfl
  | recovery position =>
    have hdecode : decodeRecoveryPayload (encodeRecoveryPayload position) = .ok position := by
      have hlen : (encodeRecoveryPayload position).length = 24 := by
        simp only [encodeRecoveryPayload, List.length_append, length_beBytes]
      have hdrop : (encodeRecoveryPayload position).drop 16
          = beBytes 8 position.committedSequence := by
        rw [encodeRecoveryPayload, List.drop_left' (by simp)]
      rw [decodeRecoveryPayload, if_neg (fun hne => hne hlen), hdrop, encodeRecoveryPayload,
        List.append_assoc, List.take_left' (length_beBytes 8 _),
        List.drop_left' (length_beBytes 8 _), List.take_left' (length_beBytes 8 _),
        beNat_beBytes 8 _ hrange.1, beNat_beBytes 8 _ hrange.2.1, beNat_beBytes 8 _ hrange.2.2]
    refine ⟨entryKindRecoveryCheckpoint, _, decodeEntry_encode h, fun state =>
      ⟨{ state with
        activeWalSegment := position.replayStartSegment
        recoveryCheckpoint := some position }, ?_, rfl⟩⟩
    rw [replayEntry, if_neg (by decide), if_neg (by decide), if_neg (by decide),
      if_neg (by decide), if_neg (by decide), if_pos rfl, hdecode]
    rfl
  | compaction removals outputs =>
    obtain ⟨hremovals, houtputs⟩ := hrange
    have happly : ∀ state : ManifestState, ∃ state',
        applyCompaction state removals outputs = .ok state' ∧
          state'.snapshot = state.snapshot.applyEntry (.compaction removals outputs) :=
      fun state => applyCompaction_snapshot houtputs (applyRemovals state removals)
    simp only [ManifestEntry.encode, encodeCompactionEntry] at h
    split at h
    · rename_i hone
      obtain ⟨payload, hpayload, hentry⟩ := Exec.bind_eq_ok h
      have hdecode : decodeCompactionPayload payload = .ok (removals, outputs) := by
        match outputs, hone, houtputs, hpayload with
        | [], _, _, hpayload => exact decodeCompactionPayload_none hremovals hpayload
        | [table], _, houtputs, hpayload =>
          exact decodeCompactionPayload_some hremovals
            (houtputs table List.mem_cons_self) hpayload
      refine ⟨entryKindCompaction, payload, decodeEntry_encode hentry, fun state => ?_⟩
      rw [replayEntry, if_neg (by decide), if_neg (by decide), if_pos rfl, hdecode]
      exact happly state
    · obtain ⟨payload, hpayload, hentry⟩ := Exec.bind_eq_ok h
      have hdecode := decodeCompactionOutputs_encode hremovals houtputs hpayload
      refine ⟨entryKindCompactionOutputs, payload, decodeEntry_encode hentry, fun state => ?_⟩
      rw [replayEntry, if_neg (by decide), if_neg (by decide), if_neg (by decide), if_pos rfl,
        hdecode]
      exact happly state

/-! ### Replay of a file -/

/-- The loop of `replay_manifest` as a relation: entry by entry until no byte is left. -/
inductive Replays : ManifestState → Bytes → ManifestState → Prop where
  | nil (state : ManifestState) : Replays state [] state
  | entry {state next last : ManifestState} {data payload rest : Bytes} {kind : UInt8}
      (hdecode : decodeEntry data = .ok (kind, payload, rest))
      (hentry : replayEntry state kind payload = .ok next) (hrest : Replays next rest last) :
      Replays state data last

/-- The loop with enough rounds is the relation. -/
theorem replayFrom_eq_ok_iff {fuel : Nat} {data : Bytes} (hfuel : data.length ≤ fuel)
    {state last : ManifestState} :
    replayFrom fuel state data = .ok last ↔ Replays state data last := by
  induction fuel generalizing state data with
  | zero =>
    obtain rfl : data = [] := List.length_eq_zero_iff.mp (Nat.le_zero.mp hfuel)
    constructor
    · intro h
      rw [replayFrom] at h
      rw [Except.ok.inj h]
      exact .nil last
    · intro h
      cases h with
      | nil => rfl
      | entry hdecode => cases hdecode
  | succ fuel ih =>
    cases data with
    | nil =>
      constructor
      · intro h
        rw [replayFrom] at h
        rw [Except.ok.inj h]
        exact .nil last
      · intro h
        cases h with
        | nil => rfl
        | entry hdecode => cases hdecode
    | cons byte data =>
      constructor
      · intro h
        rw [replayFrom] at h
        obtain ⟨⟨kind, payload, rest⟩, hdecode, h⟩ := Exec.bind_eq_ok h
        obtain ⟨next, hentry, h⟩ := Exec.bind_eq_ok h
        have hlt := length_decodeEntry hdecode
        exact .entry hdecode hentry ((ih (by omega)).mp h)
      · intro h
        cases h with
        | entry hdecode hentry hrest =>
          have hlt := length_decodeEntry hdecode
          rw [replayFrom, hdecode]
          show (replayEntry _ _ _ >>= _) = _
          rw [hentry]
          exact (ih (by omega)).mpr hrest

theorem replayManifest_eq_ok_iff {data : Bytes} {state : ManifestState} :
    replayManifest data = .ok state ↔ Replays .default data state :=
  replayFrom_eq_ok_iff le_rfl

/-- A file is replayed in two parts where the first part ends at an entry boundary. -/
theorem Replays.append {state middle last : ManifestState} {data more : Bytes}
    (hfirst : Replays state data middle) (hsecond : Replays middle more last) :
    Replays state (data ++ more) last := by
  induction hfirst with
  | nil state => exact hsecond
  | entry hdecode hentry hrest ih => exact .entry (decodeEntry_append hdecode more) hentry (ih hsecond)

/-- Replaying one more encoded entry applies it to the snapshot. -/
theorem Replays.snoc {state middle : ManifestState} {data bytes : Bytes} {entry : ManifestEntry}
    (hfirst : Replays state data middle) (hrange : entry.InRange) (h : entry.encode = .ok bytes) :
    ∃ last, Replays state (data ++ bytes) last ∧
      last.snapshot = middle.snapshot.applyEntry entry := by
  obtain ⟨kind, payload, hdecode, hreplay⟩ := replay_entry hrange h
  obtain ⟨last, hlast, hsnapshot⟩ := hreplay middle
  have hone := hdecode []
  rw [List.append_nil] at hone
  exact ⟨last, hfirst.append (.entry hone hlast (.nil last)), hsnapshot⟩

end CereDB.Storage

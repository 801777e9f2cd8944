import CereDB.Proofs.PreflightImage

/-!
# `CereDB.Proofs.Preflight`: the decoders on bytes that passed the preflight

Each decoder of a table takes exactly its part of the file (`Takes`): it ends behind the part and
reads nothing outside. `Accepted.decodeIndex_takes`, `Accepted.bloom_takes` and `BlockImage.takes`
say so for the three of them, and a block fails only at its checksum. `decoding_safe` puts them
together.
-/

set_option autoImplicit false

namespace CereDB.Storage

open CereDB.Lib

/-! ### The decoders on accepted bytes -/

open FileProg (Parses Reaches Sequential)

/-- The part of `deserialize_sections` between its two seeks. -/
def decodeIndex : ReadFile (List SparseIndexEntry) := do
  let indexLen ← FileProg.readBe 8
  SparseIndexEntry.asyncDecode.replicate indexLen

/-- What `read_sstable_sparse_index` does with the bytes of the section. -/
def decodeIndexPart : Decode (List SparseIndexEntry) := do
  let entryCount ← readBe eof 8
  SparseIndexEntry.decode.replicate entryCount

theorem SparseIndexEntry.sequential : Sequential asyncDecode :=
  (Sequential.readBe 8).bind fun _ => (Sequential.ofExcept _).bind fun _ =>
    (Sequential.readExact _).bind fun _ => (Sequential.readBe 8).bind fun _ =>
    (Sequential.readBe 8).bind fun _ => (Sequential.ofExcept _).bind fun _ =>
    (Sequential.readExact _).bind fun _ => (Sequential.readBe 4).bind fun _ => Sequential.pure _

theorem decodeIndex_sequential : decodeIndex.Sequential :=
  (Sequential.readBe 8).bind fun n => SparseIndexEntry.sequential.replicate n

theorem BloomFilterWrapper.sequential : Sequential asyncDecode :=
  (Sequential.readBe 16).bind fun _ => (Sequential.readBe 8).bind fun _ =>
    (Sequential.readBe 4).bind fun _ => (Sequential.readBe 8).bind fun n =>
    (Sequential.ofExcept _).bind fun _ =>
    (((Sequential.readBe 8).bind fun _ => Sequential.pure _).replicate n).bind fun _ =>
    Sequential.pure _

theorem Block.sequential : Sequential Block.asyncDecode :=
  (Sequential.readBe 4).bind fun _ => (Sequential.readExact _).bind fun _ =>
    (Sequential.readBe 4).bind fun _ => (Sequential.readExact _).bind fun _ =>
    (Sequential.readBe 4).bind fun _ => (Sequential.readBe 4).bind fun _ =>
    (Sequential.readExact _).bind fun _ => (Sequential.readBe 4).bind fun _ =>
    (Sequential.ofExcept _).bind fun _ => (Sequential.ofExcept _).bind fun _ => Sequential.pure _

theorem reader_allocate_ok {n : Nat} (h : n ≤ isizeMax) :
    Reader.Parses (liftM (allocate n) : Decode Unit) [] () := by
  intro rest
  rw [allocate, if_pos h]
  rfl

theorem SparseIndexEntry.decode_parses {entry : SparseIndexEntry} (h : entry.Fits)
    (hfirst : entry.firstKey.length ≤ isizeMax) (hlast : entry.lastKey.length ≤ isizeMax) :
    Reader.Parses decode entry.encode entry := by
  have henc : entry.encode = beBytes 8 entry.firstKey.length ++ ([] ++ (entry.firstKey ++
      (beBytes 8 entry.blockOffset ++ (beBytes 8 entry.lastKey.length ++ ([] ++ (entry.lastKey ++
        (beBytes 4 entry.recordCount ++ []))))))) := by
    simp only [encode, List.append_assoc, List.append_nil, List.nil_append]
  rw [henc]
  refine (Reader.Parses.readBe eof h.firstKey).bind ?_
  refine (reader_allocate_ok hfirst).bind ?_
  refine (Reader.Parses.readExact eof rfl).bind ?_
  refine (Reader.Parses.readBe eof h.blockOffset).bind ?_
  refine (Reader.Parses.readBe eof h.lastKey).bind ?_
  refine (reader_allocate_ok hlast).bind ?_
  refine (Reader.Parses.readExact eof rfl).bind ?_
  exact (Reader.Parses.readBe eof h.recordCount).bind (Reader.Parses.pure entry)

theorem readBe_parses_bytes {w : Nat} {bs : Bytes} (h : bs.length = w) :
    (readBe eof w).Parses bs (beNat bs) := by
  have hparse := Reader.Parses.readBe eof (beNat_lt bs)
  rw [beBytes_beNat, h] at hparse
  exact hparse

theorem BloomFilterWrapper.decode_parses {filter : BloomFilterWrapper} (bitCount : Nat)
    (hseed : filter.seed < 256 ^ 16) (hwords : 8 * filter.words.length ≤ isizeMax) :
    Reader.Parses decode (filter.image bitCount) filter := by
  have hmax : isizeMax < 256 ^ 8 := by decide
  have hword : ∀ word ∈ filter.words, Reader.Parses
      (do return UInt64.ofNat (← readBe eof 8) : Decode UInt64) (beBytes 8 word.toNat) word := by
    intro word _
    have hread := (Reader.Parses.readBe eof (show word.toNat < 256 ^ 8 from word.toNat_lt)).bind
      (f := fun n => (pure (UInt64.ofNat n) : Decode UInt64)) (Reader.Parses.pure _)
    rw [List.append_nil, UInt64.ofNat_toNat] at hread
    exact hread
  have hdone : Reader.Parses (pure { filter with
      numHashes := UInt32.ofNat filter.numHashes.toNat } : Decode BloomFilterWrapper) []
      filter := by
    rw [UInt32.ofNat_toNat]
    exact Reader.Parses.pure filter
  rw [image_eq]
  refine (Reader.Parses.readBe eof hseed).bind ?_
  refine (readBe_parses_bytes (length_beBytes 8 bitCount)).bind ?_
  refine (Reader.Parses.readBe eof filter.numHashes.toNat_lt).bind ?_
  refine (Reader.Parses.readBe eof (by omega)).bind ?_
  refine (reader_allocate_ok hwords).bind ?_
  exact (Reader.Parses.replicate hword).bind hdone

/-- A decoder takes the bytes between two positions: it ends behind them with the given outcome, and
reads nothing outside. -/
structure Takes {α : Type} (bytes : Bytes) (start stop : Nat) (decoder : ReadFile α)
    (outcome : Exec α) : Prop where
  run : ∀ files, FileProg.run fileErrors files decoder (bytes, start)
    = outcome.map fun a => (a, (bytes, stop))
  within : ∀ files, ∀ read ∈ FileProg.reads files decoder (bytes, start),
    start ≤ read.1 ∧ read.1 + read.2 ≤ stop

theorem split_slice (bytes : Bytes) {start stop : Nat} (hstart : start ≤ stop) :
    bytes = bytes.take start ++ ((bytes.take stop).drop start ++ bytes.drop stop) := by
  have htake : bytes.take start = (bytes.take stop).take start := by
    rw [List.take_take, Nat.min_eq_left hstart]
  rw [← List.append_assoc, htake, List.take_append_drop, List.take_append_drop]

/-- A decoder that reaches its outcome behind `enc` takes the part of a file that is `enc`. -/
theorem takes_of_reaches {α : Type} {bytes enc : Bytes} {start stop : Nat} {decoder : ReadFile α}
    {outcome : Exec α} (hseq : decoder.Sequential)
    (hreaches : Reaches fileErrors decoder enc (FileProg.ofExcept outcome))
    (hpart : (bytes.take stop).drop start = enc) (hstart : start ≤ stop)
    (hstop : stop ≤ bytes.length) (heof : outcome ≠ .error eof) :
    Takes bytes start stop decoder outcome := by
  have hbefore : (bytes.take start).length = start := List.length_take_of_le (hstart.trans hstop)
  have hlength : start + enc.length = stop := by
    rw [← hpart, List.length_drop, List.length_take_of_le hstop]
    omega
  have hrun (files : String → Option Bytes) (after : Bytes) :
      FileProg.run fileErrors files decoder (bytes.take start ++ (enc ++ after), start)
        = outcome.map fun a => (a, (bytes.take start ++ (enc ++ after), stop)) := by
    have hrun := hreaches files (bytes.take start) after
    rw [hbefore, hlength, FileProg.run_ofExcept] at hrun
    exact hrun
  constructor
  · intro files
    have hwhole := hrun files (bytes.drop stop)
    rw [← hpart, ← split_slice _ hstart] at hwhole
    exact hwhole
  · intro files
    refine hseq.reads_within fileErrors hstart hstop ?_
    -- in the file cut off behind the part the decoder ends the same way, so it did not need more
    have hcut := hrun files []
    have hstart : bytes.take start ++ (enc ++ []) = bytes.take stop := by
      have hsplit := split_slice (bytes.take stop) hstart
      rw [List.take_take, Nat.min_eq_left hstart, List.take_take, Nat.min_self, hpart,
        List.drop_take_self] at hsplit
      exact hsplit.symm
    rw [hstart] at hcut
    rw [hcut]
    intro h
    cases houtcome : outcome with
    | ok a =>
      rw [houtcome] at h
      cases h
    | error halt =>
      rw [houtcome] at h heof
      exact heof (congrArg Except.error (Except.error.inj h))

theorem length_encode_le_indexImage {index : List SparseIndexEntry} {entry : SparseIndexEntry}
    (hmem : entry ∈ index) : entry.encode.length ≤ (indexImage index).length := by
  have hsub : entry.encode.Sublist (index.flatMap SparseIndexEntry.encode) := by
    rw [List.flatMap_def]
    exact List.sublist_flatten_of_mem (List.mem_map_of_mem hmem)
  rw [indexImage, List.length_append]
  exact hsub.length_le.trans (Nat.le_add_left _ _)

theorem length_le_indexImage (index : List SparseIndexEntry) :
    index.length ≤ (indexImage index).length := by
  have hle : index.length ≤ (index.map fun entry => entry.encode.length).sum := by
    rw [← List.length_map (f := fun entry : SparseIndexEntry => entry.encode.length)]
    refine List.length_le_sum_of_one_le _ fun length hlength => ?_
    obtain ⟨entry, -, rfl⟩ := List.mem_map.mp hlength
    simp only [SparseIndexEntry.encode, List.length_append, length_beBytes]
    omega
  rw [indexImage, List.length_append, List.length_flatMap]
  omega

theorem SparseIndexEntry.length_keys_le (entry : SparseIndexEntry) :
    entry.firstKey.length ≤ entry.encode.length ∧ entry.lastKey.length ≤ entry.encode.length := by
  simp only [encode, List.length_append, length_beBytes]
  omega

namespace Accepted

variable {bytes : Bytes} {footer : SSTableFooter} {index : List SparseIndexEntry}
  {filter : BloomFilterWrapper} {bitCount : Nat}

theorem stop_le (h : Accepted bytes footer index filter bitCount) :
    footer.indexBlockEnd ≤ bytes.length ∧ footer.bloomBlockEnd ≤ bytes.length := by
  have hend := h.bloomBlockEnd
  have hbloom := h.bloom_le
  rw [← h.indexBlockEnd] at hbloom
  omega

theorem length_index_le (h : Accepted bytes footer index filter bitCount) :
    (indexImage index).length ≤ bytes.length := by
  rw [← h.indexBytes, List.length_drop, List.length_take]
  omega

theorem length_bloom_le (h : Accepted bytes footer index filter bitCount) :
    (filter.image bitCount).length ≤ bytes.length := by
  rw [← h.bloomBytes, List.length_drop, List.length_take]
  omega

variable (hsize : bytes.length ≤ isizeMax)

include hsize

theorem length_keys_le (h : Accepted bytes footer index filter bitCount) :
    ∀ entry ∈ index, entry.firstKey.length ≤ isizeMax ∧ entry.lastKey.length ≤ isizeMax := by
  intro entry hmem
  have hkeys := entry.length_keys_le
  have hentry := (length_encode_le_indexImage hmem).trans h.length_index_le
  omega

theorem length_index_lt (h : Accepted bytes footer index filter bitCount) :
    index.length < 256 ^ 8 := by
  have hle := (length_le_indexImage index).trans h.length_index_le
  have hmax : isizeMax < 256 ^ 8 := by decide
  omega

theorem index_parses (h : Accepted bytes footer index filter bitCount) :
    Parses fileErrors decodeIndex (indexImage index) index := by
  refine (Parses.readBe (h.length_index_lt hsize)).bind (Parses.replicate fun entry hmem => ?_)
  have hfits := (h.entries entry hmem).1
  have hkeys := h.length_keys_le hsize entry hmem
  exact SparseIndexEntry.parses hkeys.1 hfits.blockOffset hkeys.2 hfits.recordCount

theorem decodeIndex_takes (h : Accepted bytes footer index filter bitCount) :
    Takes bytes footer.indexBlockStart footer.indexBlockEnd decodeIndex (.ok index) :=
  takes_of_reaches decodeIndex_sequential (h.index_parses hsize) h.indexBytes h.index_le h.stop_le.1
    (by rintro ⟨⟩)

theorem index_decode (h : Accepted bytes footer index filter bitCount) :
    decodeIndexPart ((bytes.take footer.indexBlockEnd).drop footer.indexBlockStart)
      = .ok (index, []) := by
  have hparse := (Reader.Parses.readBe eof (h.length_index_lt hsize)).bind (f := fun entryCount =>
    SparseIndexEntry.decode.replicate entryCount) (Reader.Parses.replicate fun entry hmem =>
      SparseIndexEntry.decode_parses (h.entries entry hmem).1 (h.length_keys_le hsize entry hmem).1
        (h.length_keys_le hsize entry hmem).2)
  have hrun := hparse []
  rw [List.append_nil] at hrun
  rw [h.indexBytes]
  exact hrun

theorem words_le (h : Accepted bytes footer index filter bitCount) :
    8 * filter.words.length ≤ isizeMax :=
  (filter.length_words_le bitCount).trans (h.length_bloom_le.trans hsize)

theorem bloom_takes (h : Accepted bytes footer index filter bitCount) :
    Takes bytes footer.bloomBlockStart footer.bloomBlockEnd BloomFilterWrapper.asyncDecode
      (.ok filter) :=
  takes_of_reaches BloomFilterWrapper.sequential
    (BloomFilterWrapper.parses bitCount h.sound.seed (h.words_le hsize)) h.bloomBytes h.bloom_le h.stop_le.2
    (by rintro ⟨⟩)

theorem bloom_decode (h : Accepted bytes footer index filter bitCount) :
    BloomFilterWrapper.decode ((bytes.take footer.bloomBlockEnd).drop footer.bloomBlockStart)
      = .ok (filter, []) := by
  have hrun := BloomFilterWrapper.decode_parses bitCount h.sound.seed (h.words_le hsize) []
  rw [List.append_nil] at hrun
  rw [h.bloomBytes]
  exact hrun

end Accepted

/-- The block of an image is decoded, or the decoder stops at its checksum. -/
theorem BlockImage.takes {bytes : Bytes} {span : SparseIndexEntry × Nat} {block : Block}
    {checksum : Nat} (h : BlockImage bytes span block checksum) :
    Takes bytes span.1.blockOffset span.2 Block.asyncDecode
      ((verifyCrc32 block.body checksum).map fun _ => block) := by
  have hreaches := h.shaped.reaches h.checksum
  have hoffset : { block with offset := 0 } = block := by rw [← h.offset]
  rw [hoffset] at hreaches
  refine takes_of_reaches Block.sequential hreaches h.bytes h.start_le h.stop_le ?_
  rw [verifyCrc32]
  split
  · rintro ⟨⟩
  · rintro ⟨⟩

/-- The records of an image are no longer than the file. -/
theorem BlockImage.length_record_le {bytes : Bytes} {span : SparseIndexEntry × Nat} {block : Block}
    {checksum : Nat} (h : BlockImage bytes span block checksum) :
    recordsSize block.records ≤ bytes.length := by
  have hlength := congrArg List.length h.bytes
  rw [List.length_append, Block.body, List.length_append, length_flatMap_encode, List.length_drop,
    List.length_take] at hlength
  omega

/-- A block ends at or before the end of the data section. -/
theorem stop_le_of_mem_blockSpans {dataBlockEnd : Nat} {index : List SparseIndexEntry}
    (hindex : ∀ entry ∈ index, entry.blockOffset < dataBlockEnd) {span : SparseIndexEntry × Nat}
    (hmem : span ∈ blockSpans dataBlockEnd index) : span.2 ≤ dataBlockEnd := by
  induction index with
  | nil => cases hmem
  | cons entry index ih =>
    have hrest : ∀ entry ∈ index, entry.blockOffset < dataBlockEnd :=
      fun other hother => hindex other (List.mem_cons_of_mem entry hother)
    rcases List.mem_cons.mp hmem with rfl | hmem
    · cases index with
      | nil => exact le_refl dataBlockEnd
      | cons next index => exact (hrest next List.mem_cons_self).le
    · exact ih hrest hmem

/-- Preflight makes decoding safe. A slice is never longer than `isize::MAX`. -/
theorem decoding_safe (bytes : Bytes) (footer : SSTableFooter) (hsize : bytes.length ≤ isizeMax)
    (h : Preflight.validate bytes footer = .ok ()) :
    ∃ (index : List SparseIndexEntry) (filter : BloomFilterWrapper),
      Takes bytes footer.indexBlockStart footer.indexBlockEnd decodeIndex (.ok index) ∧
      decodeIndexPart ((bytes.take footer.indexBlockEnd).drop footer.indexBlockStart)
        = .ok (index, []) ∧
      Takes bytes footer.bloomBlockStart footer.bloomBlockEnd BloomFilterWrapper.asyncDecode
        (.ok filter) ∧
      BloomFilterWrapper.decode ((bytes.take footer.bloomBlockEnd).drop footer.bloomBlockStart)
        = .ok (filter, []) ∧
      (∀ span ∈ blockSpans footer.dataBlockEnd index,
        (∃ block, Takes bytes span.1.blockOffset span.2 Block.asyncDecode (.ok block) ∧
          block.records.length = span.1.recordCount ∧
          ∀ record ∈ block.records, record.key.length ≤ bytes.length ∧
            record.value.length ≤ bytes.length) ∨
        Takes bytes span.1.blockOffset span.2 Block.asyncDecode (corrupted "CRC32 mismatch")) ∧
      footer.dataBlockEnd ≤ bytes.length ∧ footer.indexBlockEnd ≤ bytes.length ∧
      footer.bloomBlockEnd ≤ bytes.length ∧ index.length ≤ bytes.length ∧
      (∀ span ∈ blockSpans footer.dataBlockEnd index, span.2 ≤ footer.dataBlockEnd ∧
        span.1.recordCount ≤ bytes.length) ∧
      8 * filter.words.length ≤ bytes.length := by
  obtain ⟨index, filter, bitCount, haccepted⟩ := Preflight.validate_eq_ok h
  refine ⟨index, filter, haccepted.decodeIndex_takes hsize, haccepted.index_decode hsize,
    haccepted.bloom_takes hsize, haccepted.bloom_decode hsize, ?_, ?_, haccepted.stop_le.1,
    haccepted.stop_le.2, ?_, ?_, ?_⟩
  · intro span hmem
    obtain ⟨block, checksum, himage⟩ := haccepted.blocks span hmem
    have htakes := himage.takes
    by_cases hcrc : crc32 block.body = checksum
    · rw [verifyCrc32, if_pos hcrc] at htakes
      refine .inl ⟨block, htakes, ?_, ?_⟩
      · rw [← himage.recordCount, himage.shaped.recordCount]
      · intro record hrecord
        have hle := (recordLength_le_recordsSize hrecord).trans himage.length_record_le
        rw [MemtableRecord.recordLength] at hle
        omega
    · rw [verifyCrc32, if_neg hcrc] at htakes
      exact .inr htakes
  · have hle := haccepted.index_le
    have hstop := haccepted.stop_le.1
    rw [haccepted.dataBlockEnd]
    omega
  · exact (length_le_indexImage index).trans haccepted.length_index_le
  · intro span hmem
    obtain ⟨block, checksum, himage⟩ := haccepted.blocks span hmem
    refine ⟨?_, ?_⟩
    · exact stop_le_of_mem_blockSpans (fun entry hentry => (haccepted.entries entry hentry).2) hmem
    · rw [← himage.recordCount, himage.shaped.recordCount]
      exact (length_le_recordsSize _).trans himage.length_record_le
  · exact (filter.length_words_le bitCount).trans haccepted.length_bloom_le

/-- The table of two records passes, and its index is decoded from its section. -/
theorem decoding_putAndDeleteTable : ∃ index, Takes putAndDeleteTable.encoded
    putAndDeleteTable.footer.indexBlockStart putAndDeleteTable.footer.indexBlockEnd decodeIndex
    (.ok index) := by
  have hsize : putAndDeleteTable.encoded.length ≤ isizeMax := by decide +kernel
  have hvalid : Preflight.validate putAndDeleteTable.encoded putAndDeleteTable.footer = .ok () := by
    decide +kernel
  obtain ⟨index, filter, htakes, -⟩ := decoding_safe _ _ hsize hvalid
  exact ⟨index, htakes⟩

end CereDB.Storage

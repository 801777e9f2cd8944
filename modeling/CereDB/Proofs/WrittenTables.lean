import CereDB.Proofs.CompactionOutputs
import CereDB.Proofs.TableValidation

/-!
# `CereDB.Proofs.WrittenTables`: the startup check on the tables the engine writes

A flush or a compaction writes the blocks of sorted records (`SSTableCodec.Holds`), whatever their
size. `Holds.validate_iff` says when `validate_manifest_sstable` accepts such a table: exactly when
every record fits the 32-bit lengths of a block.
-/

set_option autoImplicit false

namespace CereDB.Storage

open CereDB.Lib SSTableCodec

/-! ### The parts of a written file -/

theorem slice_middle (before part after : Bytes) :
    ((before ++ (part ++ after)).take (before.length + part.length)).drop before.length = part := by
  rw [List.take_length_add_append, List.drop_left, List.take_left]

namespace SSTableCodec

variable (codec : SSTableCodec)

theorem indexSection_eq (blocks : List Block) :
    indexSection blocks = indexImage (indexEntries 0 blocks) := by
  rw [indexSection, indexImage, length_indexEntries]

theorem encoded_index :
    (codec.encoded.take codec.footer.indexBlockEnd).drop codec.footer.indexBlockStart
      = indexSection codec.blocks := by
  have hsplit : codec.encoded = dataSection codec.blocks ++ (indexSection codec.blocks ++
      (codec.bloom.encode ++ codec.footer.encode)) := by
    simp only [encoded, List.append_assoc]
  rw [hsplit]
  exact slice_middle _ _ _

theorem encoded_bloom :
    (codec.encoded.take codec.footer.bloomBlockEnd).drop codec.footer.bloomBlockStart
      = codec.bloom.encode := by
  have hsplit : codec.encoded = (dataSection codec.blocks ++ indexSection codec.blocks) ++
      (codec.bloom.encode ++ codec.footer.encode) := by
    simp only [encoded, List.append_assoc]
  have hstart : codec.footer.bloomBlockStart
      = (dataSection codec.blocks ++ indexSection codec.blocks).length :=
    List.length_append.symm
  have hend : codec.footer.bloomBlockEnd
      = (dataSection codec.blocks ++ indexSection codec.blocks).length + codec.bloom.encode.length := by
    rw [List.length_append]
    rfl
  rw [hsplit, hstart, hend]
  exact slice_middle _ _ _

theorem bloomBlockEnd_add_footerSize :
    codec.footer.bloomBlockEnd + footerSize = codec.encoded.length := by
  rw [encoded, List.length_append, List.length_append, List.length_append,
    SSTableFooter.length_encode]
  rfl

theorem encoded_footer :
    codec.encoded.drop (codec.encoded.length - footerSize) = codec.footer.encode := by
  have hstart : codec.encoded.length - footerSize
      = (dataSection codec.blocks ++ indexSection codec.blocks ++ codec.bloom.encode).length := by
    rw [encoded, List.length_append, SSTableFooter.length_encode, Nat.add_sub_cancel]
  rw [hstart, encoded, List.drop_left]

variable {codec}

theorem dataSection_split {front back : List Block} {block : Block}
    (hblocks : codec.blocks = front ++ block :: back) :
    dataSection codec.blocks = dataSection front ++ (block.encode ++ dataSection back) := by
  rw [hblocks, dataSection_append]
  rfl

theorem encoded_block {front back : List Block} {block : Block}
    (hblocks : codec.blocks = front ++ block :: back) :
    (codec.encoded.take ((dataSection front).length + block.encode.length)).drop
      (dataSection front).length = block.encode := by
  have hsplit : codec.encoded = dataSection front ++ (block.encode ++ (dataSection back ++
      (indexSection codec.blocks ++ (codec.bloom.encode ++ codec.footer.encode)))) := by
    rw [encoded, dataSection_split hblocks]
    simp only [List.append_assoc]
  rw [hsplit]
  exact slice_middle _ _ _

/-- The span of a block in the file. -/
def spanOf (front : List Block) (block : Block) : SparseIndexEntry × Nat :=
  (entryOf (dataSection front).length block, (dataSection front).length + block.encode.length)

theorem blockSpans_split {front back : List Block} {block : Block}
    (hblocks : codec.blocks = front ++ block :: back) :
    (blockSpans codec.footer.dataBlockEnd (indexEntries 0 codec.blocks))[front.length]?
      = some (spanOf front block) := by
  have hentry : (indexEntries 0 codec.blocks)[front.length]?
      = some (entryOf (dataSection front).length block) := by
    rw [indexEntries_split hblocks, List.getElem?_append_right (by simp)]
    simp
  have hnext : (indexEntries 0 codec.blocks)[front.length + 1]?
      = (indexEntries ((dataSection front).length + block.encode.length) back)[0]? := by
    rw [indexEntries_split hblocks, List.getElem?_append_right (by simp)]
    simp
  rw [getElem?_blockSpans, hentry, hnext]
  cases back with
  | nil =>
    show some (_, (dataSection codec.blocks).length) = _
    rw [hblocks, length_dataSection_concat]
    rfl
  | cons next back => rfl

/-- Every span of the file is that of a block. -/
theorem exists_of_mem_blockSpans {span : SparseIndexEntry × Nat}
    (hmem : span ∈ blockSpans codec.footer.dataBlockEnd (indexEntries 0 codec.blocks)) :
    ∃ front block back, codec.blocks = front ++ block :: back ∧ span = spanOf front block := by
  obtain ⟨pos, hspan⟩ := List.mem_iff_getElem?.mp hmem
  have hlt : pos < codec.blocks.length := by
    rw [getElem?_blockSpans, Option.map_eq_some_iff] at hspan
    obtain ⟨entry, hentry, -⟩ := hspan
    obtain ⟨hlt, -⟩ := List.getElem?_eq_some_iff.mp hentry
    rw [length_indexEntries] at hlt
    exact hlt
  have hblocks : codec.blocks = codec.blocks.take pos ++
      codec.blocks[pos] :: codec.blocks.drop (pos + 1) := by simp
  have hsplit := blockSpans_split hblocks
  rw [List.length_take_of_le hlt.le, hspan] at hsplit
  exact ⟨_, _, _, hblocks, Option.some.inj hsplit⟩

end SSTableCodec

/-! ### Written tables -/

/-- The table holds the blocks of sorted records, of any size. -/
structure SSTableCodec.Holds (fastbloom : FastBloom) (codec : SSTableCodec)
    (records : List MemtableRecord) : Prop where
  blocks : codec.blocks = blocksOf records
  sorted : KeySorted records
  nonempty : records ≠ []
  bloom : ∃ items rate, codec.bloom
    = buildBloom fastbloom (BloomFilterWrapper.withRate fastbloom items rate) records
  size : codec.encoded.length ≤ isizeMax

/-- The metadata registered for a table. -/
structure SSTableMeta.Describes (table : SSTableMeta) (codec : SSTableCodec)
    (records : List MemtableRecord) : Prop where
  range : rangeFromBlocks codec.blocks = some (table.smallestKey, table.largestKey)
  recordCount : table.recordCount = records.length

/-- A block holds one record, or at most `SSTABLE_BLOCK_SIZE` bytes of them. -/
theorem length_le_of_mem_chunks {records chunk : List MemtableRecord}
    (h : chunk ∈ chunks blockFull records) : chunk.length ≤ sstableBlockSize := by
  have hsmall : chunk.length ≤ 1 ∨ recordsSize chunk ≤ sstableBlockSize := by
    refine chunks_invariant (P := fun chunk => chunk.length ≤ 1 ∨
      recordsSize chunk ≤ sstableBlockSize) (.inl (Nat.zero_le 1)) ?_ ?_ h
    · exact fun record _ => .inl (le_refl 1)
    · intro chunk record _ _ hfits
      rw [blockFull, decide_eq_false_iff_not, not_and_or, not_not, not_lt] at hfits
      rcases hfits with rfl | hle
      · exact .inl (le_refl 1)
      · rw [recordsSize_append]
        exact .inr hle
  rcases hsmall with hone | hsize
  · exact hone.trans (by decide)
  · exact (length_le_recordsSize chunk).trans hsize

namespace SSTableCodec.Holds

variable {fastbloom : FastBloom} {codec : SSTableCodec} {records : List MemtableRecord}

theorem ascending (h : codec.Holds fastbloom records) : BlocksAscending codec.blocks := by
  rw [h.blocks]
  refine blocksAscending_of_sorted (blocksOf_keyBounds h.sorted) ?_
  rw [records_blocksOf]
  exact h.sorted

theorem recordCount_lt (h : codec.Holds fastbloom records) {block : Block}
    (hmem : block ∈ codec.blocks) : block.recordCount < 256 ^ 4 := by
  rw [h.blocks] at hmem
  obtain ⟨chunk, hchunk, offset, rfl⟩ := exists_chunk_of_mem_layout hmem
  exact Nat.lt_of_le_of_lt (length_le_of_mem_chunks hchunk) (by decide)

theorem length_indexSection_le (h : codec.Holds fastbloom records) :
    (indexSection codec.blocks).length ≤ isizeMax := by
  have hsize := length_sections h.size
  omega

theorem length_keys_le (h : codec.Holds fastbloom records) {entry : SparseIndexEntry}
    (hmem : entry ∈ indexEntries 0 codec.blocks) :
    entry.firstKey.length ≤ isizeMax ∧ entry.lastKey.length ≤ isizeMax := by
  have hkeys := entry.length_keys_le
  have hentry := length_encode_le_indexImage hmem
  have hsize := h.length_indexSection_le
  rw [indexSection_eq] at hsize
  omega

theorem entry_fits (h : codec.Holds fastbloom records) {entry : SparseIndexEntry}
    (hmem : entry ∈ indexEntries 0 codec.blocks) : entry.Fits := by
  have hmax : isizeMax < 256 ^ 8 := by decide
  have hkeys := h.length_keys_le hmem
  have hsize := length_sections h.size
  obtain ⟨front, block, back, hblocks, rfl⟩ := exists_of_mem_indexEntries hmem
  have hoffset : (dataSection front).length ≤ (dataSection codec.blocks).length := by
    rw [hblocks, dataSection_append, List.length_append]
    omega
  exact {
    firstKey := by omega
    blockOffset := by show (dataSection front).length < _; omega
    lastKey := by omega
    recordCount := h.recordCount_lt (by rw [hblocks]; simp) }

/-- The index section is the image of one index only. -/
theorem index_eq (h : codec.Holds fastbloom records) {bytes : Bytes} {index : List SparseIndexEntry}
    {filter : BloomFilterWrapper} {bitCount : Nat} (hsize : bytes.length ≤ isizeMax)
    (haccepted : Accepted bytes codec.footer index filter bitCount)
    (hsection : (bytes.take codec.footer.indexBlockEnd).drop codec.footer.indexBlockStart
      = indexSection codec.blocks) : index = indexEntries 0 codec.blocks := by
  have hdecode := haccepted.index_decode hsize
  have hcount : (indexEntries 0 codec.blocks).length < 256 ^ 8 := by
    have hle := length_le_indexImage (indexEntries 0 codec.blocks)
    have hsize := h.length_indexSection_le
    have hmax : isizeMax < 256 ^ 8 := by decide
    rw [indexSection_eq] at hsize
    omega
  have hparse := (Reader.Parses.readBe eof hcount).bind (f := fun entryCount =>
    SparseIndexEntry.decode.replicate entryCount) (Reader.Parses.replicate fun entry hmem =>
      SparseIndexEntry.decode_parses (h.entry_fits hmem) (h.length_keys_le hmem).1
        (h.length_keys_le hmem).2)
  have hrun := hparse []
  rw [List.append_nil] at hrun
  rw [hsection, indexSection_eq] at hdecode
  exact (Prod.ext_iff.mp (Except.ok.inj (hdecode.symm.trans hrun))).1

/-- A file that ends with the footer of the table is read with that footer. -/
theorem footer_eq (h : codec.Holds fastbloom records) {bytes : Bytes} {table : SSTableMeta}
    {footer : SSTableFooter} {index : List SparseIndexEntry} {filter : BloomFilterWrapper}
    {bitCount : Nat} (hvalid : Validated bytes table footer index filter bitCount)
    (hfooter : bytes.drop (bytes.length - footerSize) = codec.footer.encode) :
    footer = codec.footer := by
  have hdecode := SSTableFooter.decode_encode hvalid.fits
  rw [← hvalid.footerBytes, hfooter, SSTableFooter.decode_encode (footer_fits h.size)] at hdecode
  exact (Prod.ext_iff.mp (Except.ok.inj hdecode)).1.symm

/-- A validated file with the footer and the index of the table has, where a block of the table
stands, a block with a right checksum that agrees with the index. -/
theorem exists_block (h : codec.Holds fastbloom records) {bytes : Bytes} {table : SSTableMeta}
    {filter : BloomFilterWrapper} {bitCount : Nat}
    (hvalid : Validated bytes table codec.footer (indexEntries 0 codec.blocks) filter bitCount)
    {front back : List Block} {block : Block} (hblocks : codec.blocks = front ++ block :: back) :
    ∃ found : Block, (bytes.take ((dataSection front).length + block.encode.length)).drop
        (dataSection front).length = found.encode ∧
      found.Shaped ∧ (entryOf (dataSection front).length block).Matches found := by
  have hmem : entryOf (dataSection front).length block ∈ indexEntries 0 codec.blocks := by
    rw [indexEntries_split hblocks]
    simp
  have hblock : block ∈ codec.blocks := by
    rw [hblocks]
    simp
  obtain ⟨found, ⟨pos, span, hpos, hspan, himage⟩, hmatches⟩ := hvalid.blocks _ hmem
  -- the blocks are in order, so the search finds this one
  have hhere := h.ascending.blockPosition_eq hblocks (le_refl block.firstKey)
    (h.ascending.bounds block hblock)
  have hsame : pos = front.length := Except.ok.inj (hpos.symm.trans hhere)
  rw [hsame, blockSpans_split hblocks] at hspan
  obtain rfl := Option.some.inj hspan
  exact ⟨found, himage.bytes, himage.shaped, hmatches⟩

end SSTableCodec.Holds

/-! ### What a compaction reads -/

theorem MemtableRecord.decode_eq_ok {bs rest : Bytes} {record : MemtableRecord}
    (h : decode bs = .ok (record, rest)) :
    bs = record.encode record.key ++ rest ∧ record.Encodable := by
  obtain ⟨keyLen, bs₁, hkeyLen, h⟩ := Reader.bind_eq_ok h
  obtain ⟨key, bs₂, hkey, h⟩ := Reader.bind_eq_ok h
  obtain ⟨valueLen, bs₃, hvalueLen, h⟩ := Reader.bind_eq_ok h
  obtain ⟨value, bs₄, hvalue, h⟩ := Reader.bind_eq_ok h
  obtain ⟨kind, bs₅, hkind, h⟩ := Reader.bind_eq_ok h
  obtain ⟨recordType, bs₆, htype, h⟩ := Reader.bind_eq_ok h
  obtain ⟨lsn, bs₇, hlsn, hpure⟩ := Reader.bind_eq_ok h
  obtain ⟨rfl, rfl⟩ := Prod.ext_iff.mp (Except.ok.inj hpure)
  obtain ⟨rfl, hkeyFits⟩ := readLe_eq_ok hkeyLen
  obtain ⟨rfl, rfl⟩ := readExact_eq_ok hkey
  obtain ⟨rfl, hvalueFits⟩ := readLe_eq_ok hvalueLen
  obtain ⟨rfl, rfl⟩ := readExact_eq_ok hvalue
  obtain ⟨rfl, -⟩ := readExact_eq_ok hkind
  obtain ⟨rfl, rfl⟩ : kind = [recordType.toByte] ∧ bs₆ = bs₅ := by
    unfold decodeRecordType at htype
    split at htype
    · obtain ⟨rfl, rfl⟩ := Prod.ext_iff.mp (Except.ok.inj htype)
      exact ⟨rfl, rfl⟩
    · obtain ⟨rfl, rfl⟩ := Prod.ext_iff.mp (Except.ok.inj htype)
      exact ⟨rfl, rfl⟩
    · cases htype
  obtain ⟨rfl, hlsnFits⟩ := readLe_eq_ok hlsn
  refine ⟨?_, ⟨hkeyFits, hvalueFits, hlsnFits⟩⟩
  simp only [encode, List.append_assoc]

/-- The records that are decoded from some bytes fill them from the front. -/
theorem records_of_replicate {count : Nat} {bs rest : Bytes} {records : List MemtableRecord}
    (h : MemtableRecord.decode.replicate count bs = .ok (records, rest)) :
    bs = (records.flatMap fun record => record.encode record.key) ++ rest ∧
      ∀ record ∈ records, record.Encodable := by
  obtain ⟨found, hbytes, hcount, hencodable⟩ := Reader.replicate_eq_ok
    (fun record : MemtableRecord => record.encode record.key) (P := MemtableRecord.Encodable)
    (fun bs record rest hread => ⟨record, MemtableRecord.decode_eq_ok hread⟩) h
  have hparses : (MemtableRecord.decode.replicate found.length).Parses
      (found.flatMap fun record => record.encode record.key) found :=
    .replicate fun record hmem => MemtableRecord.decode_parses (hencodable record hmem)
  have hback := hparses rest
  rw [hcount, ← hbytes, h] at hback
  obtain ⟨rfl, -⟩ := Prod.ext_iff.mp (Except.ok.inj hback)
  exact ⟨hbytes, hencodable⟩

/-- A record that was read from a file fits the lengths of a block. -/
theorem Block.storable_of_asyncDecode {files : String → Option Bytes} {cur cur' : FileProg.Cursor}
    {block : Block} (h : FileProg.run fileErrors files asyncDecode cur = .ok (block, cur')) :
    ∀ record ∈ block.records, record.Storable := by
  obtain ⟨_, _, -, h⟩ := FileProg.run_bind_eq_ok h
  obtain ⟨_, _, -, h⟩ := FileProg.run_bind_eq_ok h
  obtain ⟨_, _, -, h⟩ := FileProg.run_bind_eq_ok h
  obtain ⟨_, _, -, h⟩ := FileProg.run_bind_eq_ok h
  obtain ⟨_, _, -, h⟩ := FileProg.run_bind_eq_ok h
  obtain ⟨dataSize, _, hdataSize, h⟩ := FileProg.run_bind_eq_ok h
  obtain ⟨recordBytes, _, hrecordBytes, h⟩ := FileProg.run_bind_eq_ok h
  obtain ⟨_, _, -, h⟩ := FileProg.run_bind_eq_ok h
  obtain ⟨_, _, -, h⟩ := FileProg.run_bind_eq_ok h
  obtain ⟨⟨records, rest⟩, _, hrecords, hpure⟩ := FileProg.run_bind_eq_ok h
  obtain ⟨rfl, -⟩ := Prod.ext_iff.mp (Except.ok.inj hpure)
  obtain ⟨hbytes, hencodable⟩ := records_of_replicate (FileProg.run_ofExcept_eq_ok hrecords).1
  have hsize : recordsSize records ≤ dataSize := by
    rw [← FileProg.run_readExact_eq_ok hrecordBytes, hbytes, List.length_append,
      length_flatMap_encode]
    exact Nat.le_add_right _ _
  have hlt : dataSize < u32Limit := FileProg.run_readBe_eq_ok hdataSize
  intro record hmem
  exact ⟨((recordLength_le_recordsSize hmem).trans hsize).trans_lt hlt, (hencodable record hmem).lsn⟩

theorem storable_of_getBlocks {files : String → Option Bytes} {footer : SSTableFooter}
    {index entries : List SparseIndexEntry} {cur cur' : FileProg.Cursor} {blocks : List Block}
    (h : FileProg.run fileErrors files (getBlocks footer index entries) cur = .ok (blocks, cur')) :
    ∀ record ∈ blocks.flatMap Block.records, record.Storable := by
  induction entries generalizing cur cur' blocks with
  | nil =>
    obtain ⟨rfl, -⟩ := Prod.ext_iff.mp (Except.ok.inj h)
    exact fun record hmem => absurd hmem List.not_mem_nil
  | cons entry entries ih =>
    obtain ⟨block, mid, hblock, h⟩ := FileProg.run_bind_eq_ok h
    obtain ⟨others, mid', hothers, hpure⟩ := FileProg.run_bind_eq_ok h
    obtain ⟨rfl, -⟩ := Prod.ext_iff.mp (Except.ok.inj hpure)
    obtain ⟨position, _, -, hread⟩ := FileProg.run_bind_eq_ok hblock
    have hdecoded : ∃ cur, FileProg.run fileErrors files Block.asyncDecode cur = .ok (block, mid) := by
      -- the end of the block does not matter here
      have hguard {start stop : Nat} {cur : FileProg.Cursor} (h : FileProg.run fileErrors files
          (if stop < start then FileProg.ofExcept (corrupted "invalid block range in sparse index")
            else do
              FileProg.seekTo (.start start)
              Block.asyncDecode) cur = .ok (block, mid)) :
          ∃ cur, FileProg.run fileErrors files Block.asyncDecode cur = .ok (block, mid) := by
        split at h
        · cases h
        · obtain ⟨_, cur, -, hdecode⟩ := FileProg.run_bind_eq_ok h
          exact ⟨cur, hdecode⟩
      split at hread
      · cases hread
      · exact hguard hread
    obtain ⟨_, hdecode⟩ := hdecoded
    intro record hmem
    rw [List.flatMap_cons, List.mem_append] at hmem
    rcases hmem with hhead | hrest
    · exact Block.storable_of_asyncDecode hdecode record hhead
    · exact ih hothers record hrest

/-- Every record of a table that was read fits. -/
theorem storable_of_readTable {files : String → Option Bytes} {sstable : SSTableMeta}
    {codec : SSTableCodec} (h : FileProg.result fileErrors files (readTable sstable) = .ok codec) :
    ∀ record ∈ codec.records, record.Storable := by
  obtain ⟨⟨_, cur⟩, hrun, rfl⟩ := Exec.map_eq_ok h
  obtain ⟨_, _, -, hrun⟩ := FileProg.run_bind_eq_ok hrun
  obtain ⟨_, _, -, hrun⟩ := FileProg.run_bind_eq_ok hrun
  obtain ⟨blocks, _, hblocks, hpure⟩ := FileProg.run_bind_eq_ok hrun
  obtain ⟨rfl, -⟩ := Prod.ext_iff.mp (Except.ok.inj hpure)
  exact storable_of_getBlocks hblocks

/-! ### The check on a written table -/

/-- What the crate promises about the size of a filter: it has a hash and no more hashes than bits,
its number of bits is a machine word, and an insertion keeps its size. -/
structure FastBloom.WellSized (fastbloom : FastBloom) : Prop where
  hashes_pos : ∀ rate items, 0 < (fastbloom.sizing rate items).2.toNat
  hashes_le : ∀ rate items,
    (fastbloom.sizing rate items).2.toNat ≤ 64 * (fastbloom.sizing rate items).1
  bits_lt : ∀ rate items, 64 * (fastbloom.sizing rate items).1 < u64Limit
  length_insertBits : ∀ seed hashes words key,
    (fastbloom.insertBits seed hashes words key).length = words.length

theorem numHashes_buildBloom (fastbloom : FastBloom) (filter : BloomFilterWrapper)
    (records : List MemtableRecord) :
    (buildBloom fastbloom filter records).numHashes = filter.numHashes := by
  induction records generalizing filter with
  | nil => rfl
  | cons record records ih => exact ih _

theorem FastBloom.WellSized.length_buildBloom {fastbloom : FastBloom} (h : fastbloom.WellSized)
    (filter : BloomFilterWrapper) (records : List MemtableRecord) :
    (buildBloom fastbloom filter records).words.length = filter.words.length := by
  induction records generalizing filter with
  | nil => rfl
  | cons record records ih => exact (ih _).trans (h.length_insertBits _ _ _ _)

theorem map_indexEntries {α : Type} {f : SparseIndexEntry → α} {g : Block → α}
    (h : ∀ offset block, f (entryOf offset block) = g block) (offset : Nat) (blocks : List Block) :
    (indexEntries offset blocks).map f = blocks.map g := by
  induction blocks generalizing offset with
  | nil => rfl
  | cons block blocks ih => rw [indexEntries, List.map_cons, ih, List.map_cons, ← h offset block]; rfl

theorem Block.length_encode (block : Block) : block.encode.length
    = block.firstKey.length + block.lastKey.length + recordsSize block.records + 20 := by
  simp only [encode, body, List.length_append, length_beBytes, length_flatMap_encode]
  omega

theorem isChain_offsets (offset : Nat) (blocks : List Block) :
    ((indexEntries offset blocks).map SparseIndexEntry.blockOffset).IsChain (· < ·) := by
  induction blocks generalizing offset with
  | nil => exact .nil
  | cons block blocks ih =>
    have hlength := block.length_encode
    have hrest := ih (offset + block.encode.length)
    cases blocks with
    | nil => exact .singleton _
    | cons next blocks =>
      exact .cons_cons (show offset < offset + block.encode.length by omega) hrest

namespace SSTableCodec.Holds

variable {fastbloom : FastBloom} {codec : SSTableCodec} {records : List MemtableRecord}
  {table : SSTableMeta}

theorem sound_bloom (h : codec.Holds fastbloom records) (hsized : fastbloom.WellSized) :
    codec.bloom.Sound (64 * codec.bloom.words.length) := by
  obtain ⟨items, rate, hbloom⟩ := h.bloom
  have hhashes : codec.bloom.numHashes = (fastbloom.sizing rate items).2 := by
    rw [hbloom, numHashes_buildBloom]
    rfl
  have hwords : codec.bloom.words.length = (fastbloom.sizing rate items).1 := by
    rw [hbloom, hsized.length_buildBloom]
    exact List.length_replicate
  have hseed : codec.bloom.seed = 0 := by
    rw [hbloom, seed_buildBloom]
    rfl
  have hpos := hsized.hashes_pos rate items
  have hle := hsized.hashes_le rate items
  have hlt := hsized.bits_lt rate items
  rw [hwords]
  exact {
    seed := by rw [hseed]; decide
    bits := by simp only [u64Limit] at hlt ⊢; omega
    words := by rw [hwords]; omega
    hashes := by rw [hhashes]; omega
    hashes_le := by rw [hhashes]; exact hle }

theorem records_eq (h : codec.Holds fastbloom records) : codec.records = records := by
  rw [SSTableCodec.records, h.blocks, records_blocksOf]

theorem exists_mem_block (h : codec.Holds fastbloom records) {record : MemtableRecord}
    (hmem : record ∈ records) : ∃ block ∈ codec.blocks, record ∈ block.records := by
  rw [← h.records_eq] at hmem
  exact List.mem_flatMap.mp hmem

/-- In a table that the check accepts every record fits the lengths of its block. -/
theorem recordLength_lt (h : codec.Holds fastbloom records) {footer : SSTableFooter}
    {index : List SparseIndexEntry} {filter : BloomFilterWrapper} {bitCount : Nat}
    (hvalid : Validated codec.encoded table footer index filter bitCount) {record : MemtableRecord}
    (hmem : record ∈ records) : record.recordLength record.key < u32Limit := by
  obtain rfl := h.footer_eq hvalid codec.encoded_footer
  obtain rfl := h.index_eq h.size hvalid.accepted codec.encoded_index
  obtain ⟨block, hblock, hrecord⟩ := h.exists_mem_block hmem
  obtain ⟨front, back, hblocks⟩ := List.append_of_mem hblock
  obtain ⟨found, hfound, hshaped, hmatches⟩ := h.exists_block hvalid hblocks
  -- the two encodings have one length and the same keys, so the records take the same space
  have hlength := congrArg List.length hfound
  have hfirst : found.firstKey = block.firstKey := hmatches.firstKey
  have hlast : found.lastKey = block.lastKey := hmatches.lastKey
  rw [encoded_block hblocks, Block.length_encode, Block.length_encode, hfirst, hlast] at hlength
  have hle := recordLength_le_recordsSize hrecord
  have hsmall : recordsSize found.records < u32Limit := hshaped.small
  omega

theorem blocks_good (h : codec.Holds fastbloom records)
    (hstorable : ∀ record ∈ records, record.Storable) {block : Block} (hmem : block ∈ codec.blocks) :
    block.Good := by
  rw [h.blocks] at hmem
  exact blocksOf_good h.sorted hstorable block hmem

theorem sorted_block (h : codec.Holds fastbloom records) {block : Block}
    (hmem : block ∈ codec.blocks) : KeySorted block.records := by
  obtain ⟨front, back, hblocks⟩ := List.append_of_mem hmem
  have hsorted := h.sorted
  rw [← h.records_eq, SSTableCodec.records, hblocks, List.flatMap_append, List.flatMap_cons] at hsorted
  exact (List.pairwise_append.mp (List.pairwise_append.mp hsorted).2.1).1

theorem countedRecords_eq (h : codec.Holds fastbloom records) :
    countedRecords (indexEntries 0 codec.blocks) = records.length := by
  have hcounts : (indexEntries 0 codec.blocks).map SparseIndexEntry.recordCount
      = codec.blocks.map fun block => block.records.length := by
    refine (map_indexEntries (fun _ _ => rfl) 0 codec.blocks).trans (List.map_congr_left ?_)
    intro block hmem
    rw [h.blocks] at hmem
    obtain ⟨chunk, -, offset, rfl⟩ := exists_chunk_of_mem_layout hmem
    rfl
  rw [countedRecords, hcounts, ← List.length_flatMap]
  exact congrArg List.length h.records_eq

theorem length_records_le (h : codec.Holds fastbloom records) :
    records.length ≤ (dataSection codec.blocks).length := by
  rw [← h.records_eq, SSTableCodec.records, dataSection, List.length_flatMap, List.length_flatMap]
  refine List.sum_le_sum fun block _ => ?_
  have hcount := length_le_recordsSize block.records
  have hlength := block.length_encode
  omega

/-- A block of the table as the preflight and the decoder see it. -/
theorem blockImage (h : codec.Holds fastbloom records)
    (hstorable : ∀ record ∈ records, record.Storable) {front back : List Block} {block : Block}
    (hblocks : codec.blocks = front ++ block :: back) :
    BlockImage codec.encoded (spanOf front block) { block with offset := 0 } (crc32 block.body) where
  start_le := Nat.le_add_right _ _
  stop_le := by
    have hbytes := congrArg List.length (encoded_block hblocks)
    rw [List.length_drop, List.length_take] at hbytes
    have hlength := block.length_encode
    show (dataSection front).length + block.encode.length ≤ _
    omega
  bytes := encoded_block hblocks
  shaped := by
    have hmem : block ∈ codec.blocks := by
      rw [hblocks]
      simp
    exact { (h.blocks_good hstorable hmem).shaped with }
  recordCount := rfl
  offset := rfl
  checksum := crc32_lt _

theorem accepted (h : codec.Holds fastbloom records) (hsized : fastbloom.WellSized)
    (hstorable : ∀ record ∈ records, record.Storable) :
    Accepted codec.encoded codec.footer (indexEntries 0 codec.blocks) codec.bloom
      (64 * codec.bloom.words.length) where
  dataBlockStart := rfl
  dataBlockEnd := rfl
  index_le := Nat.le_add_right _ _
  indexBlockEnd := rfl
  bloom_le := Nat.le_add_right _ _
  bloomBlockEnd := codec.bloomBlockEnd_add_footerSize
  indexBytes := codec.encoded_index.trans (indexSection_eq codec.blocks)
  entries := by
    intro entry hmem
    refine ⟨h.entry_fits hmem, ?_⟩
    obtain ⟨front, block, back, hblocks, rfl⟩ := exists_of_mem_indexEntries hmem
    have hlength := block.length_encode
    show (dataSection front).length < (dataSection codec.blocks).length
    rw [dataSection_split hblocks, List.length_append, List.length_append]
    omega
  ascending := isChain_offsets 0 codec.blocks
  bloomBytes := codec.encoded_bloom
  sound := h.sound_bloom hsized
  blocks := by
    intro span hmem
    obtain ⟨front, block, back, hblocks, rfl⟩ := exists_of_mem_blockSpans hmem
    exact ⟨_, _, h.blockImage hstorable hblocks⟩

/-- The check accepts a table whose records fit. -/
theorem validated (h : codec.Holds fastbloom records) (hsized : fastbloom.WellSized)
    (hmeta : table.Describes codec records) (hstorable : ∀ record ∈ records, record.Storable) :
    Validated codec.encoded table codec.footer (indexEntries 0 codec.blocks) codec.bloom
      (64 * codec.bloom.words.length) := by
  have hsections := length_sections h.size
  have hlength := h.length_records_le
  have hmax : isizeMax < u64Limit := by decide
  obtain ⟨first, last, hfirst, hlast, hsmallest, hlargest⟩ : ∃ first last,
      codec.blocks.head? = some first ∧ codec.blocks.getLast? = some last ∧
        first.firstKey = table.smallestKey ∧ last.lastKey = table.largestKey := by
    have hrange := hmeta.range
    rw [rangeFromBlocks] at hrange
    split at hrange
    · rename_i first last hfirst hlast
      obtain ⟨hsmallest, hlargest⟩ := Prod.ext_iff.mp (Option.some.inj hrange)
      exact ⟨first, last, hfirst, hlast, hsmallest, hlargest⟩
    · cases hrange
  exact {
    accepted := h.accepted hsized hstorable
    footerBytes := codec.encoded_footer
    fits := footer_fits h.size
    indexChecksum := by rw [← indexSection_eq]; rfl
    bloomChecksum := rfl
    counted := by rw [h.countedRecords_eq]; omega
    recordCount := by rw [h.countedRecords_eq, hmeta.recordCount]
    smallestKey := by
      rw [← List.head?_map, map_indexEntries (g := Block.firstKey) (fun _ _ => rfl),
        List.head?_map, hfirst, ← hsmallest]
      rfl
    largestKey := by
      rw [← List.getLast?_map, map_indexEntries (g := Block.lastKey) (fun _ _ => rfl),
        List.getLast?_map, hlast, ← hlargest]
      rfl
    blocks := by
      intro entry hmem
      obtain ⟨front, block, back, hblocks, rfl⟩ := exists_of_mem_indexEntries hmem
      have hblock : block ∈ codec.blocks := by rw [hblocks]; simp
      have hgood := h.blocks_good hstorable hblock
      have hsorted := h.sorted_block hblock
      have hpos := h.ascending.blockPosition_eq hblocks (le_refl block.firstKey)
        (h.ascending.bounds block hblock)
      refine ⟨{ block with offset := 0 },
        ⟨_, _, hpos, blockSpans_split hblocks, h.blockImage hstorable hblocks⟩, ?_⟩
      exact {
        recordCount := hgood.recordCount.symm
        head := hgood.head?_key hsorted
        last := hgood.getLast?_key hsorted
        firstKey := rfl
        lastKey := rfl } }

/-- The check of a written table against its metadata. -/
theorem validate_iff (h : codec.Holds fastbloom records) (hsized : fastbloom.WellSized)
    (hmeta : table.Describes codec records) (hlsn : ∀ record ∈ records, record.lsn < u64Limit)
    {files : String → Option Bytes} (hfile : files table.path = some codec.encoded) :
    validateManifestSstable files table = .ok () ↔
      ∀ record ∈ records, record.recordLength record.key < u32Limit := by
  rw [Storage.validate_iff hfile h.size]
  constructor
  · rintro ⟨footer, index, filter, bitCount, hvalid⟩ record hmem
    exact h.recordLength_lt hvalid hmem
  · intro hsmall
    exact ⟨_, _, _, _, h.validated hsized hmeta fun record hmem =>
      ⟨hsmall record hmem, hlsn record hmem⟩⟩

end SSTableCodec.Holds

/-! ### Flushes and compactions -/

/-- The file of a table and its metadata, as a flush or a compaction leaves them, with the records
of the table. -/
inductive Registered (fastbloom : FastBloom) :
    SSTableMeta → Bytes → List MemtableRecord → Prop where
  | flush {config : StorageConfig} {memtable : Memtable} {table : FlushTable} (fileId : Nat)
      (h : flushTable fastbloom config memtable = .ok table) :
      Registered fastbloom (flushMeta fileId table) table.encoded (flushRecords memtable)
  | compaction {files : String → Option Bytes} {config : StorageConfig} {levels : Levels}
      {level outputLevel fileId : Nat} {plan : CompactionPlan} {output : SSTableCodec}
      {encoded : Bytes} {footer : SSTableFooter} {table : SSTableMeta}
      (hplan : planCompaction files fastbloom config levels level = .ok plan)
      (houtput : output ∈ plan.outputs) (hencoded : output.serialize = .ok (encoded, footer))
      (htable : outputMeta outputLevel fileId output footer = .ok table) :
      Registered fastbloom table encoded output.records

section
variable {fastbloom : FastBloom} {config : StorageConfig}

theorem holds_of_flushTable {memtable : Memtable} {table : FlushTable} (fileId : Nat)
    (h : flushTable fastbloom config memtable = .ok table) :
    table.codec.Holds fastbloom (flushRecords memtable) ∧
      (flushMeta fileId table).Describes table.codec (flushRecords memtable) := by
  obtain ⟨hblocks, hbloom, hsize, -, hrange, hcount⟩ := flushTable_eq_ok h
  have hsorted := sorted_flushRecords memtable
  have heq := eq_blocksOf_of_buildBlocks hsorted hblocks
  refine ⟨⟨heq, hsorted, ?_, ⟨_, _, hbloom⟩, hsize⟩, ⟨hrange, hcount⟩⟩
  intro hnil
  rw [heq, hnil] at hrange
  cases hrange

variable {files : String → Option Bytes} {levels : Levels} {level : Nat} {plan : CompactionPlan}
  {output : SSTableCodec}

/-- A plan that was made: the inputs were read, merged and partitioned. -/
theorem planCompaction_eq_ok (h : planCompaction files fastbloom config levels level = .ok plan) :
    ∃ sstables ranges,
      plan.inputs.mapM (fun sstable => FileProg.result fileErrors files (readTable sstable))
        = .ok sstables ∧
      mergeFilesWithReclamation fastbloom sstables config (some ranges) = .ok plan.merged ∧
      partitionOutput fastbloom plan.merged config = .ok plan.outputs := by
  obtain ⟨inputs, -, h⟩ := Exec.bind_eq_ok h
  obtain ⟨sstables, hsstables, h⟩ := Exec.bind_eq_ok h
  obtain ⟨ranges, -, h⟩ := Exec.bind_eq_ok h
  obtain ⟨merged, hmerged, h⟩ := Exec.bind_eq_ok h
  obtain ⟨outputs, houtputs, hpure⟩ := Exec.bind_eq_ok h
  obtain rfl := Except.ok.inj hpure
  exact ⟨sstables, ranges, hsstables, hmerged, houtputs⟩

/-- The outputs of a compaction hold records that were read from the inputs. -/
theorem storable_of_planCompaction
    (h : planCompaction files fastbloom config levels level = .ok plan)
    (houtput : output ∈ plan.outputs) : ∀ record ∈ output.records, record.Storable := by
  obtain ⟨sstables, ranges, hsstables, hmerged, houtputs⟩ := planCompaction_eq_ok h
  have hrecords := records_mergeFiles hmerged
  have hsorted : KeySorted plan.merged.records := hrecords ▸ sorted_survivors sstables (some ranges)
  obtain ⟨hparts, -⟩ := records_partitionOutput hsorted houtputs
  intro record hmem
  have hpart : output.records ∈ chunks (partitionFull config) plan.merged.records :=
    hparts ▸ List.mem_map_of_mem houtput
  have hwinner : record ∈ survivors sstables (some ranges) := by
    rw [← hrecords, ← @flatten_chunks _ (partitionFull config) plan.merged.records]
    exact List.mem_flatten_of_mem hpart hmem
  obtain ⟨sstable, hsstable, hfound⟩ := List.mem_flatMap.mp
    (newest_of_get?_mergedByKey (mem_survivors.mp hwinner).1).mem
  obtain ⟨input, -, hread⟩ := Exec.exists_of_mem_mapM hsstables hsstable
  exact storable_of_readTable hread record hfound

theorem holds_of_planCompaction
    (h : planCompaction files fastbloom config levels level = .ok plan)
    (houtput : output ∈ plan.outputs) (hsize : output.encoded.length ≤ isizeMax) :
    output.Holds fastbloom output.records := by
  obtain ⟨sstables, ranges, -, hmerged, houtputs⟩ := planCompaction_eq_ok h
  have hsorted : KeySorted plan.merged.records :=
    records_mergeFiles hmerged ▸ sorted_survivors sstables (some ranges)
  rw [partitionOutput_eq] at houtputs
  obtain ⟨part, hpart, hbuilt⟩ := Exec.exists_of_mem_mapM houtputs houtput
  have hpartSorted : KeySorted part := sorted_of_mem_parts hsorted hpart
  obtain ⟨hblocks, hrecords⟩ := buildOutput_ok hpartSorted hbuilt
  rw [hrecords]
  refine ⟨hblocks, hpartSorted, ne_nil_of_mem_chunks (partitionFull_nil config) hpart, ?_, hsize⟩
  obtain ⟨blocks, -, hpure⟩ := Exec.bind_eq_ok hbuilt
  obtain rfl := Except.ok.inj hpure
  exact ⟨_, _, rfl⟩

theorem describes_of_outputMeta {table : SSTableMeta} {footer : SSTableFooter} {outputLevel fileId : Nat}
    (h : output.Holds fastbloom output.records)
    (htable : outputMeta outputLevel fileId output footer = .ok table) :
    table.Describes output output.records := by
  have hcount : (output.blocks.map Block.recordCount).sum = output.records.length := by
    rw [← h.countedRecords_eq, countedRecords, map_indexEntries fun _ _ => rfl]
  rw [outputMeta] at htable
  split at htable
  · cases htable
  · rename_i smallestKey largestKey hrange
    obtain rfl := Except.ok.inj htable
    exact ⟨hrange, hcount⟩

/-- A registered table holds its records. -/
theorem Registered.holds {table : SSTableMeta} {bytes : Bytes} {records : List MemtableRecord}
    (h : Registered fastbloom table bytes records) : ∃ codec : SSTableCodec,
      bytes = codec.encoded ∧ codec.Holds fastbloom records ∧ table.Describes codec records := by
  cases h with
  | flush fileId h =>
    exact ⟨_, (flushTable_eq_ok h).2.2.2.1, holds_of_flushTable fileId h⟩
  | compaction hplan houtput hencoded htable =>
    obtain ⟨hsize, rfl, -⟩ := serialize_ok hencoded
    have hholds := holds_of_planCompaction hplan houtput hsize
    exact ⟨_, rfl, hholds, describes_of_outputMeta hholds htable⟩

end

/-- `validate_manifest_sstable` accepts every compaction output, and a flushed table exactly when
every record of the memtable fits the 32-bit lengths of a block. -/
theorem startup_validation_complete (fastbloom : FastBloom) (hsized : fastbloom.WellSized) :
    (∀ (config : StorageConfig) (memtable : Memtable) (table : FlushTable) (fileId : Nat)
        (files : String → Option Bytes),
      (∀ record ∈ flushRecords memtable, record.lsn < u64Limit) →
      flushTable fastbloom config memtable = .ok table →
      files (flushMeta fileId table).path = some table.encoded →
      (validateManifestSstable files (flushMeta fileId table) = .ok () ↔
        ∀ record ∈ flushRecords memtable, record.recordLength record.key < u32Limit)) ∧
    (∀ (files : String → Option Bytes) (config : StorageConfig) (levels : Levels)
        (level outputLevel fileId : Nat) (plan : CompactionPlan) (output : SSTableCodec)
        (encoded : Bytes) (footer : SSTableFooter) (table : SSTableMeta)
        (written : String → Option Bytes),
      planCompaction files fastbloom config levels level = .ok plan → output ∈ plan.outputs →
      output.serialize = .ok (encoded, footer) →
      outputMeta outputLevel fileId output footer = .ok table →
      written table.path = some encoded →
      validateManifestSstable written table = .ok ()) := by
  constructor
  · intro config memtable table fileId files hlsn hflush hfile
    obtain ⟨hholds, hmeta⟩ := holds_of_flushTable fileId hflush
    rw [(flushTable_eq_ok hflush).2.2.2.1] at hfile
    exact hholds.validate_iff hsized hmeta hlsn hfile
  · intro files config levels level outputLevel fileId plan output encoded footer table written hplan
      houtput hencoded htable hfile
    obtain ⟨hsize, rfl, -⟩ := serialize_ok hencoded
    have hholds := holds_of_planCompaction hplan houtput hsize
    -- what was read back fits the lengths it was stored with
    have hstorable := storable_of_planCompaction hplan houtput
    exact (hholds.validate_iff hsized (describes_of_outputMeta hholds htable)
      (fun record hmem => (hstorable record hmem).lsn) hfile).mpr
        fun record hmem => (hstorable record hmem).size

theorem FastBloom.acceptAll_wellSized : FastBloom.acceptAll.WellSized where
  hashes_pos _ _ := show 0 < (1 : UInt32).toNat by decide
  hashes_le _ _ := show (1 : UInt32).toNat ≤ 64 * 1 by decide
  bits_lt _ _ := show 64 * 1 < u64Limit by decide
  length_insertBits _ _ _ _ := rfl

/-- A put and a delete are flushed, and the table is accepted; so is what a compaction of three
tables writes. -/
theorem complete_putAndDelete :
    (∃ table, flushTable .acceptAll .default (Memtable.append (Memtable.append ∅ [97] [118] .put 1)
        [98] [] .delete 2) = .ok table ∧
      validateManifestSstable (fun _ => some table.encoded) (flushMeta 1 table) = .ok ()) ∧
    ∃ plan output encoded footer table,
      planCompaction threeFiles .acceptAll .default threeLevels 0 = .ok plan ∧
      plan.outputs = [output] ∧ output.serialize = .ok (encoded, footer) ∧
      outputMeta 1 7 output footer = .ok table ∧
      validateManifestSstable (fun _ => some encoded) table = .ok () := by
  have hcomplete := startup_validation_complete .acceptAll FastBloom.acceptAll_wellSized
  constructor
  · have hok : ((flushTable .acceptAll .default (Memtable.append (Memtable.append ∅ [97] [118] .put 1)
        [98] [] .delete 2)).map FlushTable.recordCount) = .ok 2 := by decide +kernel
    obtain ⟨table, htable, -⟩ := Exec.map_eq_ok hok
    exact ⟨table, htable, (hcomplete.1 _ _ table 1 _ (by decide +kernel) htable rfl).mpr
      (by decide +kernel)⟩
  · have hok : (planCompaction threeFiles .acceptAll .default threeLevels 0).map (fun plan =>
        plan.outputs.map fun output => (output.serialize >>= fun written =>
          outputMeta 1 7 output written.2).map SSTableMeta.recordCount) = .ok [.ok 3] := by
      decide +kernel
    obtain ⟨plan, hplan, houtputs⟩ := Exec.map_eq_ok hok
    obtain ⟨output, hplanOutputs, hwritten⟩ := List.map_eq_singleton_iff.mp houtputs
    obtain ⟨table, hwritten, -⟩ := Exec.map_eq_ok hwritten
    obtain ⟨⟨encoded, footer⟩, hencoded, htable⟩ := Exec.bind_eq_ok hwritten
    exact ⟨plan, output, encoded, footer, table, hplan, hplanOutputs, hencoded, htable,
      hcomplete.2 _ _ _ _ _ _ plan output encoded footer table _ hplan
        (by rw [hplanOutputs]; exact List.mem_singleton_self _) hencoded htable rfl⟩

/-! ### A record too long for its block -/

section
variable (value : Bytes)

/-- A memtable with one put. -/
def singlePut : Memtable := Memtable.append ∅ [97] value .put 1

theorem flushRecords_singlePut : flushRecords (singlePut value) = [⟨.put, 1, [97], value⟩] := by
  have hmemtable : (singlePut value).toList = [(toLex ([97], 1), MemtableRecord.new value .put 1)] := by
    have hother : ∀ key : Key ×ₗ Nat, key ≠ toLex ([97], 1) → (singlePut value)[key]? = none := by
      intro key hne
      rw [singlePut, Memtable.append, OrdMap.get?_insert, if_neg (Ne.symm hne), OrdMap.get?_empty]
    rw [OrdMap.toList_of_single hother, singlePut, Memtable.append, OrdMap.get?_insert, if_pos rfl]
    rfl
  have hvalid : (validRecords (singlePut value)).toList = [([97], MemtableRecord.new value .put 1)] := by
    have hmap : validRecords (singlePut value)
        = (∅ : OrdMap Key MemtableRecord).insert [97] (MemtableRecord.new value .put 1) := by
      rw [validRecords, hmemtable]
      show keepNewest ∅ _ = _
      rw [keepNewest, OrdMap.get?_empty]
      rfl
    have hother : ∀ key : Key, key ≠ [97] → (validRecords (singlePut value))[key]? = none := by
      intro key hne
      rw [hmap, OrdMap.get?_insert, if_neg (Ne.symm hne), OrdMap.get?_empty]
    rw [OrdMap.toList_of_single hother, hmap, OrdMap.get?_insert, if_pos rfl]
    rfl
  rw [flushRecords, hvalid]
  rfl

/-- A value of almost any length is flushed. -/
theorem flushTable_singlePut (hlength : value.length < 2 ^ 60) :
    ∃ table, flushTable .acceptAll .default (singlePut value) = .ok table := by
  have hblocks : blocksOf [⟨.put, 1, [97], value⟩] = [blockOf 0 [⟨.put, 1, [97], value⟩]] := rfl
  have hfits : FitsInMemory [⟨.put, 1, [97], value⟩] := by
    show 4 + 1 + 4 + value.length + 1 + 8 + 0 < 2 ^ 61
    omega
  refine flushTable_of_buildable .acceptAll .default ?_ ?_ ?_
  · rw [flushRecords_singlePut]
    exact List.cons_ne_nil _ _
  · rw [flushRecords_singlePut, buildable_iff_of_fits hfits]
    simp
  · have hblock : (blockOf 0 [⟨.put, 1, [97], value⟩]).encode.length
        = 1 + 1 + (4 + 1 + 4 + value.length + 1 + 8 + 0) + 20 := Block.length_encode _
    have hmax : isizeMax = 2 ^ 63 - 1 := rfl
    rw [flushRecords_singlePut, hblocks]
    show (((blockOf 0 [⟨.put, 1, [97], value⟩]).encode ++ []) ++ (beBytes 8 1 ++
      ((beBytes 8 1 ++ [97] ++ beBytes 8 0 ++ beBytes 8 1 ++ [97] ++ beBytes 4 1) ++ [])) ++
      (beBytes 16 0 ++ beBytes 8 64 ++ beBytes 4 1 ++ beBytes 8 1 ++ (beBytes 8 0 ++ [])) ++
      SSTableFooter.encode _).length ≤ isizeMax
    simp only [List.length_append, hblock, length_beBytes, SSTableFooter.length_encode, footerSize,
      List.length_singleton, List.length_nil]
    omega

/-- The table of a value of 4 GiB is written and then refused. -/
theorem singlePut_refused (hlarge : 2 ^ 32 ≤ value.length) (hlength : value.length < 2 ^ 60) :
    ∃ table e, flushTable .acceptAll .default (singlePut value) = .ok table ∧
      validateManifestSstable (fun _ => some table.encoded) (flushMeta 1 table)
        = .error (.error e) := by
  obtain ⟨table, htable⟩ := flushTable_singlePut value hlength
  obtain ⟨hholds, hmeta⟩ := holds_of_flushTable 1 htable
  have hencoded := (flushTable_eq_ok htable).2.2.2.1
  rw [flushRecords_singlePut] at hholds hmeta
  have hregular : Exec.Regular (validateManifestSstable (fun _ => some table.encoded)
      (flushMeta 1 table)) := by
    refine validate_regular fun bytes hbytes => ?_
    rw [← Option.some.inj hbytes, hencoded]
    exact hholds.size
  have hrefused : ∀ result, validateManifestSstable (fun _ => some table.encoded)
      (flushMeta 1 table) ≠ .ok result := by
    intro result hok
    rw [hencoded] at hok
    have hsmall := (hholds.validate_iff FastBloom.acceptAll_wellSized hmeta (by simp [u64Limit])
      rfl).mp hok ⟨.put, 1, [97], value⟩ (List.mem_singleton_self _)
    replace hsmall : 4 + 1 + 4 + value.length + 1 + 8 < 2 ^ 32 := hsmall
    omega
  obtain ⟨e, herror⟩ := hregular.exists_error hrefused
  exact ⟨table, e, htable, herror⟩

end

/-- A value of 4 GiB. -/
def fourGiB : Bytes := List.replicate (2 ^ 32) 0

theorem length_fourGiB : fourGiB.length = 2 ^ 32 := List.length_replicate

/-- A put of 4 GiB is flushed, and the table it was written to is refused. -/
theorem oversized_put_refused : ∃ table e,
    flushTable .acceptAll .default (singlePut fourGiB) = .ok table ∧
    validateManifestSstable (fun _ => some table.encoded) (flushMeta 1 table)
      = .error (.error e) :=
  singlePut_refused fourGiB (le_of_eq length_fourGiB.symm) (by rw [length_fourGiB]; decide)

end CereDB.Storage

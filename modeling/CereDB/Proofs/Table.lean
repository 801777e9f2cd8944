import CereDB.Proofs.Blocks
import CereDB.Storage.SSTable

/-!
# `CereDB.Proofs.Table`: what is read back from a table file

A codec is `Good` when its blocks are those the block builder makes: records in ascending key
order, with their bounds, counts and sizes, and a Bloom filter that knows every key.

The lemmas walk down the decoders once. `Block.Good.parses`, `SparseIndexEntry.parses`,
`BloomFilterWrapper.parses` and `SSTableFooter.decode_encode` are the round trips of the parts,
`run_deserializeSections` reads the footer, the index and the filter of a good codec, and
`run_getBlock` reads one of its blocks.
-/

set_option autoImplicit false

namespace CereDB.Storage

open CereDB.Lib

/-! ### Good tables -/

/-- A block as the builder makes it. -/
structure Block.Good (block : Block) : Prop where
  data : block.data = some block.records
  bounds : block.KeyBounds
  recordCount : block.recordCount = block.records.length
  dataSize : block.dataSize = recordsSize block.records
  small : recordsSize block.records < u32Limit
  lsn : ∀ record ∈ block.records, record.lsn < u64Limit

/-- The records of a table. -/
def SSTableCodec.records (codec : SSTableCodec) : List MemtableRecord :=
  codec.blocks.flatMap Block.records

/-- A table as a flush or a compaction writes it. -/
structure SSTableCodec.Good (fastbloom : FastBloom) (codec : SSTableCodec) : Prop where
  blocks : ∀ block ∈ codec.blocks, block.Good
  sorted : KeySorted codec.records
  bloom : ∀ record ∈ codec.records, codec.bloom.contains fastbloom record.key = true
  seed : codec.bloom.seed < 256 ^ 16
  size : codec.encoded.length ≤ isizeMax

/-! ### Reading at a position -/

namespace FileParse

variable {α : Type} {p : ReadFile α} {enc : Bytes} {a : α}

/-- A decoder in front of its encoding. -/
theorem run_at (h : FileProg.Parses fileErrors p enc a) (files : String → Option Bytes)
    (file before after : Bytes) {pos : Nat} (hfile : file = before ++ (enc ++ after))
    (hpos : pos = before.length) :
    FileProg.run fileErrors files p (file, pos) = .ok (a, (file, pos + enc.length)) := by
  subst hfile hpos
  exact h files before after

/-- An integer that is read and not used may be anything of its width. -/
theorem readBe_bytes {w : Nat} {bs : Bytes} (h : bs.length = w) :
    FileProg.Parses fileErrors (FileProg.readBe w) bs (beNat bs) := by
  have hread : FileProg.Parses fileErrors
      (FileProg.readExact w >>= fun bs => (pure (beNat bs) : ReadFile Nat)) (bs ++ []) (beNat bs) :=
    (FileProg.Parses.read h).bind (FileProg.Parses.pure _)
  rw [List.append_nil] at hread
  exact hread

/-- An allocation that fits. -/
theorem allocate_ok {n : Nat} (h : n ≤ isizeMax) :
    FileProg.Parses fileErrors (FileProg.ofExcept (allocate n)) [] () :=
  FileProg.Parses.ofExcept (if_pos h)

end FileParse

open FileProg (Parses)

/-! ### The parts of a file -/

theorem SparseIndexEntry.parses {entry : SparseIndexEntry}
    (hfirst : entry.firstKey.length ≤ isizeMax) (hoffset : entry.blockOffset < 256 ^ 8)
    (hlast : entry.lastKey.length ≤ isizeMax) (hcount : entry.recordCount < 256 ^ 4) :
    Parses fileErrors asyncDecode entry.encode entry := by
  have hmax : isizeMax < 256 ^ 8 := by decide
  have henc : entry.encode = beBytes 8 entry.firstKey.length ++ ([] ++ (entry.firstKey ++
      (beBytes 8 entry.blockOffset ++ (beBytes 8 entry.lastKey.length ++ ([] ++ (entry.lastKey ++
        (beBytes 4 entry.recordCount ++ []))))))) := by
    simp only [encode, List.append_assoc, List.append_nil, List.nil_append]
  rw [henc]
  refine (Parses.readBe (by omega)).bind ?_
  refine (FileParse.allocate_ok hfirst).bind ?_
  refine (Parses.read rfl).bind ?_
  refine (Parses.readBe hoffset).bind ?_
  refine (Parses.readBe (by omega)).bind ?_
  refine (FileParse.allocate_ok hlast).bind ?_
  refine (Parses.read rfl).bind ?_
  exact (Parses.readBe hcount).bind (Parses.pure entry)

theorem BloomFilterWrapper.decodeWord_parses (word : UInt64) :
    Parses fileErrors decodeWord (beBytes 8 word.toNat) word := by
  have hword : Parses fileErrors decodeWord (beBytes 8 word.toNat ++ []) (UInt64.ofNat word.toNat) :=
    (Parses.readBe word.toNat_lt).bind (Parses.pure _)
  rw [List.append_nil, UInt64.ofNat_toNat] at hword
  exact hword

/-- The encoding of a filter with any number in the place of its number of bits, which no decoder
looks at. -/
def BloomFilterWrapper.image (bitCount : Nat) (filter : BloomFilterWrapper) : Bytes :=
  beBytes 16 filter.seed ++ beBytes 8 bitCount ++ beBytes 4 filter.numHashes.toNat ++
    beBytes 8 filter.words.length ++ filter.words.flatMap fun word => beBytes 8 word.toNat

theorem BloomFilterWrapper.image_eq (bitCount : Nat) (filter : BloomFilterWrapper) :
    filter.image bitCount = beBytes 16 filter.seed ++ (beBytes 8 bitCount ++
      (beBytes 4 filter.numHashes.toNat ++ (beBytes 8 filter.words.length ++ ([] ++
        (filter.words.flatMap (fun word => beBytes 8 word.toNat) ++ []))))) := by
  simp only [image, List.append_assoc, List.append_nil, List.nil_append]

theorem BloomFilterWrapper.length_words_le (bitCount : Nat) (filter : BloomFilterWrapper) :
    8 * filter.words.length ≤ (filter.image bitCount).length := by
  simp [image, List.length_flatMap]
  omega

theorem BloomFilterWrapper.parses {filter : BloomFilterWrapper} (bitCount : Nat)
    (hseed : filter.seed < 256 ^ 16) (hwords : 8 * filter.words.length ≤ isizeMax) :
    Parses fileErrors asyncDecode (filter.image bitCount) filter := by
  have hmax : isizeMax < 256 ^ 8 := by decide
  have hhashes : UInt32.ofNat filter.numHashes.toNat = filter.numHashes := UInt32.ofNat_toNat
  have hdone : Parses fileErrors (pure { filter with
      numHashes := UInt32.ofNat filter.numHashes.toNat } : ReadFile BloomFilterWrapper) []
      filter := by
    rw [hhashes]
    exact Parses.pure filter
  rw [image_eq]
  refine (Parses.readBe hseed).bind ?_
  refine (FileParse.readBe_bytes (length_beBytes 8 _)).bind ?_
  refine (Parses.readBe filter.numHashes.toNat_lt).bind ?_
  refine (Parses.readBe (by omega)).bind ?_
  refine (FileParse.allocate_ok hwords).bind ?_
  exact (Parses.replicate fun word _ => decodeWord_parses word).bind hdone

/-- A footer whose fields fit their widths. -/
structure SSTableFooter.Fits (footer : SSTableFooter) : Prop where
  dataBlockStart : footer.dataBlockStart < 256 ^ 8
  dataBlockEnd : footer.dataBlockEnd < 256 ^ 8
  indexBlockStart : footer.indexBlockStart < 256 ^ 8
  indexBlockEnd : footer.indexBlockEnd < 256 ^ 8
  indexChecksum : footer.indexChecksum < 256 ^ 4
  bloomBlockStart : footer.bloomBlockStart < 256 ^ 8
  bloomBlockEnd : footer.bloomBlockEnd < 256 ^ 8
  bloomChecksum : footer.bloomChecksum < 256 ^ 4

theorem SSTableFooter.length_encode (footer : SSTableFooter) :
    footer.encode.length = footerSize := by
  simp [encode, body, footerSize]

theorem SSTableFooter.decode_encode {footer : SSTableFooter} (h : footer.Fits) :
    decode footer.encode = .ok (footer, []) := by
  have hparse : Reader.Parses decode footer.encode footer := by
    have henc : footer.encode = beBytes 8 footer.dataBlockStart ++ (beBytes 8 footer.dataBlockEnd ++
        (beBytes 8 footer.indexBlockStart ++ (beBytes 8 footer.indexBlockEnd ++
          (beBytes 4 footer.indexChecksum ++ (beBytes 8 footer.bloomBlockStart ++
            (beBytes 8 footer.bloomBlockEnd ++ (beBytes 4 footer.bloomChecksum ++
              (beBytes 4 magicNumber ++ (beBytes 4 (crc32 footer.body) ++ []))))))))) := by
      simp only [encode, body, List.append_assoc, List.append_nil]
    have hmagic : beNat (beBytes 4 magicNumber) = magicNumber := beNat_beBytes _ _ (by decide)
    have hdone : Reader.Parses (pure {
        dataBlockStart := beNat (beBytes 8 footer.dataBlockStart)
        dataBlockEnd := beNat (beBytes 8 footer.dataBlockEnd)
        indexBlockStart := beNat (beBytes 8 footer.indexBlockStart)
        indexBlockEnd := beNat (beBytes 8 footer.indexBlockEnd)
        indexChecksum := beNat (beBytes 4 footer.indexChecksum)
        bloomBlockStart := beNat (beBytes 8 footer.bloomBlockStart)
        bloomBlockEnd := beNat (beBytes 8 footer.bloomBlockEnd)
        bloomChecksum := beNat (beBytes 4 footer.bloomChecksum) } : Decode SSTableFooter) []
          footer := by
      rw [beNat_beBytes _ _ h.dataBlockStart, beNat_beBytes _ _ h.dataBlockEnd,
        beNat_beBytes _ _ h.indexBlockStart, beNat_beBytes _ _ h.indexBlockEnd,
        beNat_beBytes _ _ h.indexChecksum, beNat_beBytes _ _ h.bloomBlockStart,
        beNat_beBytes _ _ h.bloomBlockEnd, beNat_beBytes _ _ h.bloomChecksum]
      exact Reader.Parses.pure footer
    rw [henc]
    refine (Reader.Parses.readExact eof (length_beBytes _ _)).bind ?_
    refine (Reader.Parses.readExact eof (length_beBytes _ _)).bind ?_
    refine (Reader.Parses.readExact eof (length_beBytes _ _)).bind ?_
    refine (Reader.Parses.readExact eof (length_beBytes _ _)).bind ?_
    refine (Reader.Parses.readExact eof (length_beBytes _ _)).bind ?_
    refine (Reader.Parses.readExact eof (length_beBytes _ _)).bind ?_
    refine (Reader.Parses.readExact eof (length_beBytes _ _)).bind ?_
    refine (Reader.Parses.readExact eof (length_beBytes _ _)).bind ?_
    refine (Reader.Parses.readExact eof (length_beBytes _ _)).bind ?_
    rw [if_neg (by rw [hmagic]; simp)]
    refine (Reader.Parses.readBe eof (crc32_lt _)).bind ?_
    rw [if_neg (by simp [body])]
    exact hdone
  have hrun := hparse []
  rw [List.append_nil] at hrun
  exact hrun

theorem Block.Good.encodable {block : Block} (h : block.Good) {record : MemtableRecord}
    (hmem : record ∈ block.records) : record.Encodable := by
  have hle := recordLength_le_recordsSize hmem
  have hsmall : recordsSize block.records < 256 ^ 4 := h.small
  rw [MemtableRecord.recordLength] at hle
  exact { key := by omega, value := by omega, lsn := h.lsn record hmem }

/-- The bounds of a block are keys of its records. -/
theorem Block.Good.exists_first {block : Block} (h : block.Good) :
    ∃ record ∈ block.records, record.key = block.firstKey :=
  List.mem_map.mp h.bounds.1.1

theorem Block.Good.exists_last {block : Block} (h : block.Good) :
    ∃ record ∈ block.records, record.key = block.lastKey :=
  List.mem_map.mp h.bounds.2.1

/-- The keys of a block lie between its bounds. -/
theorem Block.Good.key_bounds {block : Block} (h : block.Good) {record : MemtableRecord}
    (hmem : record ∈ block.records) :
    block.firstKey ≤ record.key ∧ record.key ≤ block.lastKey :=
  ⟨h.bounds.1.2 (List.mem_map_of_mem hmem), h.bounds.2.2 (List.mem_map_of_mem hmem)⟩

theorem Block.Good.firstKey_le_lastKey {block : Block} (h : block.Good) :
    block.firstKey ≤ block.lastKey := by
  obtain ⟨record, hmem, hkey⟩ := h.exists_first
  rw [← hkey]
  exact (h.key_bounds hmem).2

theorem Block.Good.length_firstKey {block : Block} (h : block.Good) :
    block.firstKey.length < 256 ^ 4 := by
  obtain ⟨record, hmem, hkey⟩ := h.exists_first
  rw [← hkey]
  exact (h.encodable hmem).key

theorem Block.Good.length_lastKey {block : Block} (h : block.Good) :
    block.lastKey.length < 256 ^ 4 := by
  obtain ⟨record, hmem, hkey⟩ := h.exists_last
  rw [← hkey]
  exact (h.encodable hmem).key

theorem Block.Good.recordCount_lt {block : Block} (h : block.Good) :
    block.recordCount < 256 ^ 4 := by
  rw [h.recordCount]
  exact Nat.lt_of_le_of_lt (length_le_recordsSize _) h.small

/-- A block whose counts and lengths are right about its records and fit their widths. Its keys may
be anything. -/
structure Block.Shaped (block : Block) : Prop where
  data : block.data = some block.records
  firstKey : block.firstKey.length < 256 ^ 4
  lastKey : block.lastKey.length < 256 ^ 4
  recordCount : block.recordCount = block.records.length
  dataSize : block.dataSize = recordsSize block.records
  small : recordsSize block.records < 256 ^ 4
  encodable : ∀ record ∈ block.records, record.Encodable

theorem Block.Good.shaped {block : Block} (h : block.Good) : block.Shaped where
  data := h.data
  firstKey := h.length_firstKey
  lastKey := h.length_lastKey
  recordCount := h.recordCount
  dataSize := h.dataSize
  small := h.small
  encodable _ hmem := h.encodable hmem

/-- The body of a shaped block is decoded back, at offset 0, if the checksum behind it is right. -/
theorem Block.Shaped.reaches {block : Block} (h : block.Shaped) {checksum : Nat}
    (hchecksum : checksum < 256 ^ 4) :
    FileProg.Reaches fileErrors Block.asyncDecode (block.body ++ beBytes 4 checksum)
      (FileProg.ofExcept ((verifyCrc32 block.body checksum).map fun _ =>
        { block with offset := 0 })) := by
  have hsize : block.dataSize < 256 ^ 4 := by rw [h.dataSize]; exact h.small
  have hcount : block.recordCount < 256 ^ 4 := by
    rw [h.recordCount]
    exact Nat.lt_of_le_of_lt (length_le_recordsSize _) h.small
  have hbytes : (block.records.flatMap fun record => record.encode record.key).length
      = block.dataSize := by
    rw [length_flatMap_encode, h.dataSize]
  have henc : block.body ++ beBytes 4 checksum
      = beBytes 4 block.firstKey.length ++ (block.firstKey ++
      (beBytes 4 block.lastKey.length ++ (block.lastKey ++ (beBytes 4 block.recordCount ++
        (beBytes 4 block.dataSize ++
          ((block.records.flatMap fun record => record.encode record.key) ++
            (beBytes 4 checksum ++ []))))))) := by
    simp only [body, List.append_assoc, List.append_nil]
  have hrecords : MemtableRecord.decode.replicate block.recordCount
      (block.records.flatMap fun record => record.encode record.key)
      = .ok (block.records, []) := by
    have hparse : Reader.Parses (MemtableRecord.decode.replicate block.records.length)
        (block.records.flatMap fun record => record.encode record.key) block.records :=
      Reader.Parses.replicate fun record hmem =>
        MemtableRecord.decode_parses (h.encodable record hmem)
    have hrun := hparse []
    rw [List.append_nil] at hrun
    rw [h.recordCount]
    exact hrun
  rw [henc]
  refine FileProg.Reaches.bind (Parses.readBe h.firstKey) ?_
  refine FileProg.Reaches.bind (Parses.read rfl) ?_
  refine FileProg.Reaches.bind (Parses.readBe h.lastKey) ?_
  refine FileProg.Reaches.bind (Parses.read rfl) ?_
  refine FileProg.Reaches.bind (Parses.readBe hcount) ?_
  refine FileProg.Reaches.bind (Parses.readBe hsize) ?_
  refine FileProg.Reaches.bind (Parses.read hbytes) ?_
  refine FileProg.Reaches.bind (Parses.readBe hchecksum) ?_
  -- what is left reads nothing: the checksum decides, and then the records are there
  intro files before after
  show FileProg.run fileErrors files (FileProg.ofExcept (verifyCrc32 block.body checksum) >>= _) _
    = FileProg.run fileErrors files _ _
  cases verifyCrc32 block.body checksum with
  | error halt => rfl
  | ok _ =>
    rw [hrecords]
    show Except.ok ({ block with offset := 0, data := some block.records }, _) = _
    rw [← h.data]
    rfl

/-- A good block is decoded back, at offset 0. -/
theorem Block.Good.parses {block : Block} (h : block.Good) :
    Parses fileErrors Block.asyncDecode block.encode { block with offset := 0 } := by
  have hreaches := h.shaped.reaches (crc32_lt block.body)
  rw [verifyCrc32, if_pos rfl] at hreaches
  exact hreaches

/-! ### The sections of a file -/

namespace SSTableCodec

theorem dataSection_append (front back : List Block) :
    dataSection (front ++ back) = dataSection front ++ dataSection back :=
  List.flatMap_append

theorem length_dataSection_concat (front : List Block) (block : Block) :
    (dataSection (front ++ [block])).length
      = (dataSection front).length + block.encode.length := by
  rw [dataSection_append, List.length_append]
  simp [dataSection]

theorem indexEntries_append (offset : Nat) (front back : List Block) :
    indexEntries offset (front ++ back)
      = indexEntries offset front ++ indexEntries (offset + (dataSection front).length) back := by
  induction front generalizing offset with
  | nil => rfl
  | cons block front ih =>
    have hlength : (dataSection (block :: front)).length
        = block.encode.length + (dataSection front).length := by
      rw [dataSection, List.flatMap_cons, List.length_append]
      rfl
    rw [List.cons_append, indexEntries, indexEntries, List.cons_append, ih, hlength,
      Nat.add_assoc]

@[simp] theorem length_indexEntries (offset : Nat) (blocks : List Block) :
    (indexEntries offset blocks).length = blocks.length := by
  induction blocks generalizing offset with
  | nil => rfl
  | cons block blocks ih => rw [indexEntries, List.length_cons, ih, List.length_cons]

/-- The entry a block has in the index. -/
def entryOf (offset : Nat) (block : Block) : SparseIndexEntry :=
  { firstKey := block.firstKey
    blockOffset := offset
    lastKey := block.lastKey
    recordCount := block.recordCount }

/-- An index entry belongs to a block at the end of some blocks of the data section. -/
theorem exists_of_mem_indexEntries {blocks : List Block} {entry : SparseIndexEntry}
    (h : entry ∈ indexEntries 0 blocks) :
    ∃ front block back, blocks = front ++ block :: back ∧
      entry = entryOf (dataSection front).length block := by
  obtain ⟨before, after, hsplit⟩ := List.append_of_mem h
  have hlength : before.length < blocks.length := by
    rw [← length_indexEntries 0 blocks, hsplit]
    simp
  have hblocks : blocks = blocks.take before.length ++
      blocks[before.length] :: blocks.drop (before.length + 1) := by simp
  have hindex := indexEntries_append 0 (blocks.take before.length)
    (blocks[before.length] :: blocks.drop (before.length + 1))
  rw [← hblocks, hsplit] at hindex
  have htail := List.append_inj_right hindex (by simp; omega)
  refine ⟨_, _, _, hblocks, ?_⟩
  have hhead := List.head_eq_of_cons_eq htail
  rw [hhead, Nat.zero_add]
  rfl

theorem length_le_indexSection (blocks : List Block) :
    blocks.length ≤ (indexSection blocks).length := by
  have hle : (indexEntries 0 blocks).length
      ≤ ((indexEntries 0 blocks).map fun entry => entry.encode.length).sum := by
    rw [← List.length_map (f := fun entry : SparseIndexEntry => entry.encode.length)]
    refine List.length_le_sum_of_one_le _ fun length hlength => ?_
    obtain ⟨entry, -, rfl⟩ := List.mem_map.mp hlength
    simp only [SparseIndexEntry.encode, List.length_append, length_beBytes]
    omega
  rw [length_indexEntries] at hle
  rw [indexSection, List.length_append, List.length_flatMap]
  omega

variable {fastbloom : FastBloom} {codec : SSTableCodec}

theorem length_sections (h : codec.encoded.length ≤ isizeMax) :
    (dataSection codec.blocks).length + (indexSection codec.blocks).length +
      codec.bloom.encode.length + footerSize ≤ isizeMax := by
  rw [encoded, List.length_append, List.length_append, List.length_append,
    SSTableFooter.length_encode] at h
  exact h

theorem footer_fits (h : codec.encoded.length ≤ isizeMax) : codec.footer.Fits := by
  have hsize := length_sections h
  have hmax : isizeMax < 256 ^ 8 := by decide
  exact {
    dataBlockStart := by show 0 < 256 ^ 8; decide
    dataBlockEnd := by show (dataSection codec.blocks).length < _; omega
    indexBlockStart := by show (dataSection codec.blocks).length < _; omega
    indexBlockEnd := by
      show (dataSection codec.blocks).length + (indexSection codec.blocks).length < _
      omega
    indexChecksum := crc32_lt _
    bloomBlockStart := by
      show (dataSection codec.blocks).length + (indexSection codec.blocks).length < _
      omega
    bloomBlockEnd := by
      show (dataSection codec.blocks).length + (indexSection codec.blocks).length +
        codec.bloom.encode.length < _
      omega
    bloomChecksum := crc32_lt _ }

theorem Good.entry_parses (h : codec.Good fastbloom) {entry : SparseIndexEntry}
    (hmem : entry ∈ indexEntries 0 codec.blocks) :
    Parses fileErrors SparseIndexEntry.asyncDecode entry.encode entry := by
  obtain ⟨front, block, back, hblocks, rfl⟩ := exists_of_mem_indexEntries hmem
  have hgood : block.Good := h.blocks block (by rw [hblocks]; simp)
  have hoffset : (dataSection front).length ≤ (dataSection codec.blocks).length := by
    rw [hblocks, dataSection_append, List.length_append]
    omega
  have hsize := length_sections h.size
  have hmax : isizeMax < 256 ^ 8 := by decide
  have hkey : 256 ^ 4 ≤ isizeMax := by decide
  have hfirst : block.firstKey.length < 256 ^ 4 := hgood.length_firstKey
  have hlast : block.lastKey.length < 256 ^ 4 := hgood.length_lastKey
  exact SparseIndexEntry.parses (by show block.firstKey.length ≤ _; omega)
    (by show (dataSection front).length < _; omega)
    (by show block.lastKey.length ≤ _; omega) hgood.recordCount_lt

/-! ### The order of the blocks -/

/-- Blocks with bounds in order, each behind the one before. -/
structure BlocksAscending (blocks : List Block) : Prop where
  bounds : ∀ block ∈ blocks, block.firstKey ≤ block.lastKey
  ascending : blocks.Pairwise fun a b => a.lastKey < b.firstKey

/-- Blocks that carry the bounds of sorted records are in order. -/
theorem blocksAscending_of_sorted {blocks : List Block} (hbounds : ∀ block ∈ blocks, block.KeyBounds)
    (hsorted : KeySorted (blocks.flatMap Block.records)) : BlocksAscending blocks := by
  refine ⟨fun block hblock => ?_, ?_⟩
  · exact (hbounds block hblock).2.2 (hbounds block hblock).1.1
  · refine (List.pairwise_flatMap.mp hsorted).2.imp_of_mem ?_
    intro a b ha hb hlt
    obtain ⟨last, hlast, hlastKey⟩ := List.mem_map.mp (hbounds a ha).2.1
    obtain ⟨first, hfirst, hfirstKey⟩ := List.mem_map.mp (hbounds b hb).1.1
    rw [← hlastKey, ← hfirstKey]
    exact hlt last hlast first hfirst

/-- The index of the file, around a block. -/
theorem indexEntries_split {blocks front back : List Block} {block : Block}
    (hblocks : blocks = front ++ block :: back) :
    indexEntries 0 blocks = indexEntries 0 front ++
      entryOf (dataSection front).length block ::
        indexEntries ((dataSection front).length + block.encode.length) back := by
  rw [hblocks, indexEntries_append, Nat.zero_add]
  rfl

/-- The search with a key between the bounds of a block finds that block. -/
theorem BlocksAscending.blockPosition_eq {blocks front back : List Block} {block : Block}
    (h : BlocksAscending blocks) (hblocks : blocks = front ++ block :: back) {key : Key}
    (hfirst : block.firstKey ≤ key) (hlast : key ≤ block.lastKey) :
    blockPosition (indexEntries 0 blocks) key = .ok front.length := by
  have hbefore : (indexEntries 0 front).findIdx? (fun entry => compareEntry key entry == .eq)
      = none := by
    rw [List.findIdx?_eq_none_iff]
    intro entry hmem
    obtain ⟨front', prior, back', hfront, rfl⟩ := exists_of_mem_indexEntries hmem
    have hascending := h.ascending
    rw [hblocks] at hascending
    -- the key is behind the bounds of every earlier block
    have hlt : prior.lastKey < key := lt_of_lt_of_le
      ((List.pairwise_append.mp hascending).2.2 prior (by rw [hfront]; simp) block
        List.mem_cons_self) hfirst
    rw [compareEntry]
    split
    · rfl
    · rw [if_pos (show (entryOf _ prior).lastKey < key from hlt)]
      rfl
  have hhere : compareEntry key (entryOf (dataSection front).length block) = .eq := by
    show (if key < block.firstKey then Ordering.gt
      else if block.lastKey < key then Ordering.lt else Ordering.eq) = .eq
    rw [if_neg (not_lt.mpr hfirst), if_neg (not_lt.mpr hlast)]
  have hsearch : searchIndex (indexEntries 0 blocks) key = .ok front.length := by
    rw [searchIndex, indexEntries_split hblocks, List.findIdx?_append, hbefore,
      List.findIdx?_cons, hhere]
    simp
  rw [blockPosition, hsearch]

theorem Good.ascending (h : codec.Good fastbloom) : BlocksAscending codec.blocks :=
  blocksAscending_of_sorted (fun block hblock => (h.blocks block hblock).bounds) h.sorted

section Split
variable {front back : List Block} {block : Block}

theorem Good.block_mem (h : codec.Good fastbloom)
    (hblocks : codec.blocks = front ++ block :: back) : block.Good :=
  h.blocks block (by rw [hblocks]; exact List.mem_append_right _ List.mem_cons_self)

/-- A block lies before all that follow it. -/
theorem Good.lt_of_mem_back (h : codec.Good fastbloom)
    (hblocks : codec.blocks = front ++ block :: back) {next : Block} (hnext : next ∈ back) :
    block.lastKey < next.firstKey := by
  have hascending := h.ascending.ascending
  rw [hblocks] at hascending
  exact (List.pairwise_cons.mp (List.pairwise_append.mp hascending).2.1).1 next hnext

/-- A block lies behind all that precede it. -/
theorem Good.lt_of_mem_front (h : codec.Good fastbloom)
    (hblocks : codec.blocks = front ++ block :: back) {prior : Block} (hprior : prior ∈ front) :
    prior.lastKey < block.firstKey := by
  have hascending := h.ascending.ascending
  rw [hblocks] at hascending
  exact (List.pairwise_append.mp hascending).2.2 prior hprior block List.mem_cons_self

end Split

/-! ### Reading a file -/

variable (files : String → Option Bytes)

theorem Good.run_footer (h : codec.Good fastbloom) (pos : Nat) :
    FileProg.run fileErrors files SSTableFooter.asyncDecode (codec.encoded, pos)
      = .ok (codec.footer, (codec.encoded, codec.encoded.length)) := by
  have hlength := codec.footer.length_encode
  have hle : footerSize ≤ codec.encoded.length := by
    rw [encoded, List.length_append, hlength]
    omega
  have hseek : FileProg.run fileErrors files (FileProg.seekTo (.fromEnd footerSize))
      (codec.encoded, pos) = .ok ((), (codec.encoded, codec.encoded.length - footerSize)) := by
    rw [FileProg.seekTo, FileProg.run, FileProg.seekPos, if_pos hle]
    rfl
  have hread : Parses fileErrors (FileProg.readExact footerSize) codec.footer.encode
      codec.footer.encode := Parses.read hlength
  have hdecode : Parses fileErrors (FileProg.readExact footerSize >>= fun buf =>
      FileProg.ofExcept (SSTableFooter.decode buf) >>= fun r => (pure r.1 : ReadFile SSTableFooter))
      (codec.footer.encode ++ ([] ++ [])) codec.footer :=
    hread.bind ((Parses.ofExcept (SSTableFooter.decode_encode (footer_fits h.size))).bind
      (Parses.pure codec.footer))
  rw [List.append_nil, List.append_nil] at hdecode
  have hstart : codec.encoded.length - footerSize
      = (dataSection codec.blocks ++ indexSection codec.blocks ++ codec.bloom.encode).length := by
    rw [encoded, List.length_append, hlength]
    omega
  have hrun := FileParse.run_at hdecode files codec.encoded
    (dataSection codec.blocks ++ indexSection codec.blocks ++ codec.bloom.encode) []
    (by rw [List.append_nil]; rfl) hstart
  have hend : codec.encoded.length - footerSize + codec.footer.encode.length
      = codec.encoded.length := by omega
  rw [hend] at hrun
  exact (FileProg.run_bind_ok hseek).trans hrun

/-- The sections of a good codec are read back. -/
theorem Good.run_deserializeSections (h : codec.Good fastbloom) (pos : Nat) :
    ∃ pos', FileProg.run fileErrors files deserializeSections (codec.encoded, pos)
      = .ok ((codec.footer, indexEntries 0 codec.blocks, codec.bloom), (codec.encoded, pos')) := by
  have hsize := length_sections h.size
  have hmax : isizeMax < 256 ^ 8 := by decide
  have hcount : codec.blocks.length < 256 ^ 8 := by
    have hle := length_le_indexSection codec.blocks
    omega
  have hwords : 8 * codec.bloom.words.length ≤ isizeMax := by
    have hle : 8 * codec.bloom.words.length ≤ codec.bloom.encode.length :=
      codec.bloom.length_words_le _
    omega
  have hcountRun := FileParse.run_at (Parses.readBe hcount) files codec.encoded
    (dataSection codec.blocks) ((indexEntries 0 codec.blocks).flatMap
      SparseIndexEntry.encode ++ (codec.bloom.encode ++ codec.footer.encode))
    (by simp only [encoded, indexSection, List.append_assoc]) rfl
  have hentries : Parses fileErrors
      (SparseIndexEntry.asyncDecode.replicate (indexEntries 0 codec.blocks).length)
      ((indexEntries 0 codec.blocks).flatMap SparseIndexEntry.encode)
      (indexEntries 0 codec.blocks) :=
    Parses.replicate fun entry hmem => h.entry_parses hmem
  rw [length_indexEntries] at hentries
  have hindexRun := FileParse.run_at hentries files codec.encoded
    (dataSection codec.blocks ++ beBytes 8 codec.blocks.length)
    (codec.bloom.encode ++ codec.footer.encode)
    (by simp only [encoded, indexSection, List.append_assoc]) List.length_append.symm
  have hbloom : Parses fileErrors BloomFilterWrapper.asyncDecode codec.bloom.encode codec.bloom :=
    BloomFilterWrapper.parses _ h.seed hwords
  have hbloomRun := FileParse.run_at hbloom files codec.encoded
    (dataSection codec.blocks ++ indexSection codec.blocks) codec.footer.encode
    (by simp only [encoded, List.append_assoc]) rfl
  rw [List.length_append] at hbloomRun
  exact ⟨_, calc
    FileProg.run fileErrors files deserializeSections (codec.encoded, pos)
    _ = _ := FileProg.run_bind_ok (h.run_footer files pos)
    _ = _ := FileProg.run_bind_ok (FileProg.run_seek_start _ codec.footer.dataBlockEnd _)
    _ = _ := FileProg.run_bind_ok hcountRun
    _ = _ := FileProg.run_bind_ok hindexRun
    _ = _ := FileProg.run_bind_ok (FileProg.run_seek_start _ codec.footer.bloomBlockStart _)
    _ = _ := FileProg.run_bind_ok hbloomRun⟩

/-- A block is read back by any key between its bounds. -/
theorem Good.run_getBlock (h : codec.Good fastbloom) {front back : List Block} {block : Block}
    (hblocks : codec.blocks = front ++ block :: back) {key : Key} (hfirst : block.firstKey ≤ key)
    (hlast : key ≤ block.lastKey) (pos : Nat) :
    ∃ pos', FileProg.run fileErrors files (getBlock codec.footer (indexEntries 0 codec.blocks) key)
      (codec.encoded, pos) = .ok ({ block with offset := 0 }, (codec.encoded, pos')) := by
  have hposition := h.ascending.blockPosition_eq hblocks hfirst hlast
  have hentry : (indexEntries 0 codec.blocks)[front.length]?
      = some (entryOf (dataSection front).length block) := by
    rw [indexEntries_split hblocks, List.getElem?_append_right (by simp)]
    simp
  have hdata : (dataSection front).length ≤ codec.footer.dataBlockEnd := by
    show _ ≤ (dataSection codec.blocks).length
    rw [hblocks, dataSection_append, List.length_append]
    omega
  have hnext : (indexEntries 0 codec.blocks)[front.length + 1]?
      = (indexEntries ((dataSection front).length + block.encode.length) back)[0]? := by
    rw [indexEntries_split hblocks, List.getElem?_append_right (by simp)]
    simp
  have hread := FileParse.run_at (h.block_mem hblocks).parses files codec.encoded
    (dataSection front)
    (dataSection back ++ indexSection codec.blocks ++ codec.bloom.encode ++ codec.footer.encode)
    (by
      have hsplit : dataSection codec.blocks
          = dataSection front ++ (block.encode ++ dataSection back) := by
        rw [hblocks, dataSection_append]
        rfl
      rw [encoded, hsplit]
      simp only [List.append_assoc]) rfl
  have hok : FileProg.run fileErrors files
      (FileProg.ofExcept (blockPosition (indexEntries 0 codec.blocks) key)) (codec.encoded, pos)
      = .ok (front.length, (codec.encoded, pos)) := by
    rw [hposition]
    rfl
  have hseek := (FileProg.run_bind_ok (f := fun _ => Block.asyncDecode)
    (FileProg.run_seek_start codec.encoded (dataSection front).length pos)).trans hread
  refine ⟨_, (FileProg.run_bind_ok hok).trans (Eq.trans ?_ hseek)⟩
  rw [hentry, hnext]
  cases back with
  | nil =>
    show FileProg.run fileErrors files (if codec.footer.dataBlockEnd < (dataSection front).length
      then _ else _) _ = _
    rw [if_neg (not_lt.mpr hdata)]
    rfl
  | cons next back =>
    show FileProg.run fileErrors files (if (dataSection front).length + block.encode.length
      < (dataSection front).length then _ else _) _ = _
    rw [if_neg (by omega)]
    rfl

end SSTableCodec

end CereDB.Storage

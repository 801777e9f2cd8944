import CereDB.Storage.Block

/-!
# `CereDB.Storage.SSTable`: the table file format

A table file is its data blocks, the sparse index, the Bloom filter and a fixed footer
(`src/storage/sstable_codec.rs`, `index.rs`, `bloom.rs`, `footer.rs`). `SSTableCodec.serialize`
writes it. `deserializeSections` and `getBlock` read it back by seeking in the open file, as
programs of the type `ReadFile`.

The Bloom filter is a dependency outside the repository. `FastBloom` is what the code uses of
it: how many words and hashes a rate asks for, how an insertion changes the words, and the
membership test, with the one guarantee the engine relies on, that it has no false negatives.
-/

set_option autoImplicit false

namespace CereDB.Storage

open CereDB.Lib

/-! ### The sparse index -/

/-- `SparseIndexEntry` of `index.rs`. -/
structure SparseIndexEntry where
  firstKey : Key
  blockOffset : Nat
  lastKey : Key
  recordCount : Nat
deriving DecidableEq, Repr

namespace SparseIndexEntry

/-- `SparseIndexEntry::encode`. -/
def encode (entry : SparseIndexEntry) : Bytes :=
  beBytes 8 entry.firstKey.length ++ entry.firstKey ++ beBytes 8 entry.blockOffset ++
    beBytes 8 entry.lastKey.length ++ entry.lastKey ++ beBytes 4 entry.recordCount

/-- `SparseIndexEntry::async_decode`. -/
def asyncDecode : ReadFile SparseIndexEntry := do
  let firstKeyLen ← FileProg.readBe 8
  FileProg.ofExcept (allocate firstKeyLen)
  let firstKey ← FileProg.readExact firstKeyLen
  let blockOffset ← FileProg.readBe 8
  let lastKeyLen ← FileProg.readBe 8
  FileProg.ofExcept (allocate lastKeyLen)
  let lastKey ← FileProg.readExact lastKeyLen
  let recordCount ← FileProg.readBe 4
  return { firstKey, blockOffset, lastKey, recordCount }

end SparseIndexEntry

/-! ### The Bloom filter -/

/-- A `f64` rate of the configuration: a number or NaN. -/
inductive Rate where
  | value (q : ℚ)
  | nan
deriving DecidableEq, Repr

/-- The parts of the `fastbloom` crate the code uses, on the words of a filter's bitmap. -/
structure FastBloom where
  /-- The number of words and of hashes `with_false_pos(rate).expected_items(n)` chooses. -/
  sizing : Rate → Nat → Nat × UInt32
  /-- The bitmap after inserting a key, for a seed and a number of hashes. -/
  insertBits : Nat → UInt32 → List UInt64 → Key → List UInt64
  /-- The membership test, for a seed and a number of hashes. -/
  containsBits : Nat → UInt32 → List UInt64 → Key → Bool
  /-- An inserted key is found. -/
  contains_insert_self : ∀ seed hashes words key,
    containsBits seed hashes (insertBits seed hashes words key) key = true
  /-- A key that is found stays found. -/
  contains_insert : ∀ seed hashes words key key', containsBits seed hashes words key = true →
    containsBits seed hashes (insertBits seed hashes words key') key = true

/-- `BloomFilterWrapper` of `bloom.rs`. -/
structure BloomFilterWrapper where
  seed : Nat
  numHashes : UInt32
  words : List UInt64
deriving DecidableEq, Repr

namespace BloomFilterWrapper

/-- `BloomFilterWrapper::with_rate`, with `DEFAULT_BLOOM_SEED`. -/
def withRate (fastbloom : FastBloom) (expectedItems : Nat) (rate : Rate) : BloomFilterWrapper :=
  let (words, numHashes) := fastbloom.sizing rate expectedItems
  { seed := 0, numHashes, words := List.replicate words 0 }

/-- `BloomFilterWrapper::insert`. -/
def insert (fastbloom : FastBloom) (filter : BloomFilterWrapper) (key : Key) :
    BloomFilterWrapper :=
  { filter with words := fastbloom.insertBits filter.seed filter.numHashes filter.words key }

/-- `BloomFilterWrapper::contains`. -/
def contains (fastbloom : FastBloom) (filter : BloomFilterWrapper) (key : Key) : Bool :=
  fastbloom.containsBits filter.seed filter.numHashes filter.words key

/-- `BloomFilterWrapper::encode`. -/
def encode (filter : BloomFilterWrapper) : Bytes :=
  beBytes 16 filter.seed ++ beBytes 8 (64 * filter.words.length) ++
    beBytes 4 filter.numHashes.toNat ++ beBytes 8 filter.words.length ++
    filter.words.flatMap fun word => beBytes 8 word.toNat

/-- One word of the bitmap. -/
def decodeWord : ReadFile UInt64 := do
  let word ← FileProg.readBe 8
  return UInt64.ofNat word

/-- `BloomFilterWrapper::async_decode`. The stored number of bits is read and not used. -/
def asyncDecode : ReadFile BloomFilterWrapper := do
  let seed ← FileProg.readBe 16
  let _numBits ← FileProg.readBe 8
  let numHashes ← FileProg.readBe 4
  let numWords ← FileProg.readBe 8
  FileProg.ofExcept (allocate (8 * numWords))
  let words ← decodeWord.replicate numWords
  return { seed, numHashes := UInt32.ofNat numHashes, words }

end BloomFilterWrapper

/-! ### The footer -/

/-- `FOOTER_SIZE` of `footer.rs`. -/
def footerSize : Nat := 64

/-- `MAGIC_NUMBER` of `footer.rs`. -/
def magicNumber : Nat := 0xDB055555

/-- `SSTableFooter` of `footer.rs`. -/
structure SSTableFooter where
  dataBlockStart : Nat
  dataBlockEnd : Nat
  indexBlockStart : Nat
  indexBlockEnd : Nat
  indexChecksum : Nat
  bloomBlockStart : Nat
  bloomBlockEnd : Nat
  bloomChecksum : Nat
deriving DecidableEq, Repr

namespace SSTableFooter

/-- The part of the footer its checksum covers. -/
def body (footer : SSTableFooter) : Bytes :=
  beBytes 8 footer.dataBlockStart ++ beBytes 8 footer.dataBlockEnd ++
    beBytes 8 footer.indexBlockStart ++ beBytes 8 footer.indexBlockEnd ++
    beBytes 4 footer.indexChecksum ++ beBytes 8 footer.bloomBlockStart ++
    beBytes 8 footer.bloomBlockEnd ++ beBytes 4 footer.bloomChecksum ++ beBytes 4 magicNumber

/-- `SSTableFooter::encode`. -/
def encode (footer : SSTableFooter) : Bytes := footer.body ++ beBytes 4 (crc32 footer.body)

/-- `SSTableFooter::decode`: the magic number is checked before the checksum is read. -/
def decode : Decode SSTableFooter := do
  let dataBlockStart ← readExact eof 8
  let dataBlockEnd ← readExact eof 8
  let indexBlockStart ← readExact eof 8
  let indexBlockEnd ← readExact eof 8
  let indexChecksum ← readExact eof 4
  let bloomBlockStart ← readExact eof 8
  let bloomBlockEnd ← readExact eof 8
  let bloomChecksum ← readExact eof 4
  let magic ← readExact eof 4
  if beNat magic ≠ magicNumber then throw (.error (.corrupted "Invalid magic number"))
  let storedChecksum ← readBe eof 4
  let footerData := dataBlockStart ++ dataBlockEnd ++ indexBlockStart ++ indexBlockEnd ++
    indexChecksum ++ bloomBlockStart ++ bloomBlockEnd ++ bloomChecksum ++ magic
  if storedChecksum ≠ crc32 footerData then
    throw (.error (.corrupted "Footer checksum mismatch"))
  return {
    dataBlockStart := beNat dataBlockStart
    dataBlockEnd := beNat dataBlockEnd
    indexBlockStart := beNat indexBlockStart
    indexBlockEnd := beNat indexBlockEnd
    indexChecksum := beNat indexChecksum
    bloomBlockStart := beNat bloomBlockStart
    bloomBlockEnd := beNat bloomBlockEnd
    bloomChecksum := beNat bloomChecksum }

/-- `SSTableFooter::async_decode`: the last `FOOTER_SIZE` bytes of the file. -/
def asyncDecode : ReadFile SSTableFooter := do
  FileProg.seekTo (.fromEnd footerSize)
  let buf ← FileProg.readExact footerSize
  let (footer, _) ← FileProg.ofExcept (decode buf)
  return footer

end SSTableFooter

/-! ### The codec -/

/-- `SSTableCodec` of `sstable_codec.rs`. -/
structure SSTableCodec where
  blocks : List Block
  index : List SparseIndexEntry
  bloom : BloomFilterWrapper
deriving DecidableEq, Repr

namespace SSTableCodec

/-- The index entries `serialize` writes: every block at the offset it is written to. -/
def indexEntries : Nat → List Block → List SparseIndexEntry
  | _, [] => []
  | offset, block :: blocks =>
    { firstKey := block.firstKey
      blockOffset := offset
      lastKey := block.lastKey
      recordCount := block.recordCount } ::
      indexEntries (offset + block.encode.length) blocks

/-- The data section: the encoded blocks in order. -/
def dataSection (blocks : List Block) : Bytes := blocks.flatMap Block.encode

/-- The index section: the number of entries, then the entries. -/
def indexSection (blocks : List Block) : Bytes :=
  beBytes 8 blocks.length ++ (indexEntries 0 blocks).flatMap SparseIndexEntry.encode

/-- The footer `serialize` writes. -/
def footer (codec : SSTableCodec) : SSTableFooter :=
  let dataEnd := (dataSection codec.blocks).length
  let indexEnd := dataEnd + (indexSection codec.blocks).length
  { dataBlockStart := 0
    dataBlockEnd := dataEnd
    indexBlockStart := dataEnd
    indexBlockEnd := indexEnd
    indexChecksum := crc32 (indexSection codec.blocks)
    bloomBlockStart := indexEnd
    bloomBlockEnd := indexEnd + codec.bloom.encode.length
    bloomChecksum := crc32 codec.bloom.encode }

/-- The bytes `serialize` collects in one vector. -/
def encoded (codec : SSTableCodec) : Bytes :=
  dataSection codec.blocks ++ indexSection codec.blocks ++ codec.bloom.encode ++
    codec.footer.encode

/-- `SSTableCodec::serialize`. The index is rebuilt from the blocks. A vector cannot grow past
`isize::MAX` bytes: the allocation panics. -/
def serialize (codec : SSTableCodec) : Exec (Bytes × SSTableFooter) := do
  allocate codec.encoded.length
  return (codec.encoded, codec.footer)

/-- `SSTableCodec::range_from_index`. -/
def rangeFromIndex (index : List SparseIndexEntry) : Option (Key × Key) :=
  match index.head?, index.getLast? with
  | some first, some last => some (first.firstKey, last.lastKey)
  | _, _ => none

/-- `SSTableCodec::deserialize_sections`. -/
def deserializeSections : ReadFile (SSTableFooter × List SparseIndexEntry × BloomFilterWrapper) := do
  let footer ← SSTableFooter.asyncDecode
  FileProg.seekTo (.start footer.dataBlockEnd)
  let indexLen ← FileProg.readBe 8
  let index ← SparseIndexEntry.asyncDecode.replicate indexLen
  FileProg.seekTo (.start footer.bloomBlockStart)
  let bloom ← BloomFilterWrapper.asyncDecode
  return (footer, index, bloom)

/-- The comparison `get_block` searches the index with. -/
def compareEntry (key : Key) (entry : SparseIndexEntry) : Ordering :=
  if key < entry.firstKey then .gt else if entry.lastKey < key then .lt else .eq

/-- `binary_search_by` with the comparison above, as the standard library specifies it for a
sorted slice: the entry that compares equal, or the number of smaller entries. -/
def searchIndex (index : List SparseIndexEntry) (key : Key) : Except Nat Nat :=
  match index.findIdx? fun entry => compareEntry key entry == .eq with
  | some pos => .ok pos
  | none => .error (index.countP fun entry => compareEntry key entry == .lt)

/-- The choice of the block in `get_block`: the entry with the key, or else the last smaller
one. -/
def blockPosition (index : List SparseIndexEntry) (key : Key) : Exec Nat :=
  match searchIndex index key with
  | .ok pos => .ok pos
  | .error 0 => storageError "key is smaller than the first key in the index"
  | .error (pos + 1) => .ok pos

/-- `SSTableCodec::get_block`. -/
def getBlock (footer : SSTableFooter) (index : List SparseIndexEntry) (key : Key) :
    ReadFile Block := do
  let position ← FileProg.ofExcept (blockPosition index key)
  match index[position]? with
  | none => FileProg.throw (.panic "index out of bounds")
  | some entry =>
    let stop := match index[position + 1]? with
      | some next => next.blockOffset
      | none => footer.dataBlockEnd
    if stop < entry.blockOffset then
      FileProg.ofExcept (corrupted "invalid block range in sparse index")
    else do
      FileProg.seekTo (.start entry.blockOffset)
      Block.asyncDecode

/-- A loop over index entries that reads the block of each, `get_all_blocks` with
`entries := index`. -/
def getBlocks (footer : SSTableFooter) (index : List SparseIndexEntry) :
    List SparseIndexEntry → ReadFile (List Block)
  | [] => return []
  | entry :: entries => do
      let block ← getBlock footer index entry.firstKey
      let blocks ← getBlocks footer index entries
      return block :: blocks

/-- `SSTableCodec::get_all_blocks`. -/
def getAllBlocks (footer : SSTableFooter) (index : List SparseIndexEntry) : ReadFile (List Block) :=
  getBlocks footer index index

end SSTableCodec

end CereDB.Storage

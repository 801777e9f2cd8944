import CereDB.Storage.Compaction

/-!
# `CereDB.Storage.Preflight`: the checks on a table before an engine opens

`validate_manifest_sstable` of `src/storage/kv2.rs` reads a whole table file and compares it with its
manifest entry. Before it decodes anything it runs `validate` of `src/storage/sstable_preflight.rs`,
which walks over the lengths in the file without building the values.
-/

set_option autoImplicit false

namespace CereDB.Storage

open CereDB.Lib

/-! ### The lengths of a table file -/

namespace Preflight

/-- `corrupted`. -/
def error : Halt := .error (.corrupted "invalid SSTable serialized lengths")

/-- The check of the section offsets in the footer, which `validate_manifest_sstable` makes too. -/
def offsetsFit (footer : SSTableFooter) (fileLen : Nat) : Bool :=
  footer.dataBlockStart == 0 && footer.dataBlockEnd == footer.indexBlockStart &&
    decide (footer.indexBlockStart ≤ footer.indexBlockEnd) &&
    footer.indexBlockEnd == footer.bloomBlockStart &&
    decide (footer.bloomBlockStart ≤ footer.bloomBlockEnd) &&
    checkedAdd footer.bloomBlockEnd footerSize == some fileLen

/-- `bytes.get(start..end)`. -/
def slice (bytes : Bytes) (start stop : Nat) : Exec Bytes :=
  if start ≤ stop ∧ stop ≤ bytes.length then .ok ((bytes.take stop).drop start) else .error error

/-- Reads and skips a number of bytes. -/
def skip (n : Nat) : Decode Unit := do
  let _ ← readExact error n

/-- `Cursor::finish`. -/
def finish : Decode Unit := fun rest => if rest = [] then .ok ((), rest) else .error error

/-- `IndexEntry`. -/
structure IndexEntry where
  offset : Nat
  recordCount : Nat
deriving DecidableEq, Repr

/-- One round of the loop over the index. The offsets ascend and stay inside the data section. -/
def indexEntry (dataBlockEnd : Nat) (previousOffset : Option Nat) : Decode IndexEntry := do
  let firstLen ← readBe error 8
  skip firstLen
  let offset ← readBe error 8
  let lastLen ← readBe error 8
  skip lastLen
  let recordCount ← readBe error 4
  if dataBlockEnd ≤ offset ∨ previousOffset.any (offset ≤ ·) then throw error
  return { offset, recordCount }

/-- The loop over the index. -/
def indexEntries (dataBlockEnd : Nat) : Nat → Option Nat → Decode (List IndexEntry)
  | 0, _ => return []
  | count + 1, previousOffset => do
      let entry ← indexEntry dataBlockEnd previousOffset
      let entries ← indexEntries dataBlockEnd count (some entry.offset)
      return entry :: entries

/-- The walk over the index section. -/
def index (dataBlockEnd : Nat) (part : Bytes) : Exec (List IndexEntry) := do
  let (count, rest) ← readBe error 8 part
  if (part.length - 8) / 28 < count then .error error
  else
    let (entries, rest) ← indexEntries dataBlockEnd count none rest
    let _ ← finish rest
    return entries

/-- The walk over the Bloom section. -/
def bloom (part : Bytes) : Exec Unit := do
  let walk : Decode Unit := do
    skip 16
    let bitCount ← readBe error 8
    let hashes ← readBe error 4
    let words ← readBe error 8
    if u64Limit ≤ 8 * words ∨ hashes = 0 ∨ bitCount < hashes ∨ words = 0 ∨ bitCount = 0 ∨
        u64Limit ≤ bitCount + 63 ∨ (bitCount + 63) / 64 ≠ words ∨ part.length < 36 ∨
        part.length - 36 ≠ 8 * words then throw error
    skip (8 * words)
    finish
  let _ ← walk part

/-- One round of the loop over the records of a block. -/
def record : Decode Unit := do
  let keyLen ← readLe error 4
  skip keyLen
  let valueLen ← readLe error 4
  skip valueLen
  let kind ← readExact error 1
  if kind ≠ [1] ∧ kind ≠ [2] then throw error
  skip 8

/-- The walk over a block. -/
def block (recordCount : Nat) (bytes : Bytes) : Exec Unit := do
  let walk : Decode Bytes := do
    let firstLen ← readBe error 4
    skip firstLen
    let lastLen ← readBe error 4
    skip lastLen
    let blockCount ← readBe error 4
    let dataSize ← readBe error 4
    if blockCount ≠ recordCount ∨ dataSize / 17 < blockCount then throw error
    let records ← readExact error dataSize
    skip 4
    finish
    return records
  let (records, _) ← walk bytes
  let (_, rest) ← record.replicate recordCount records
  let _ ← finish rest

/-- The loop over the blocks: a block ends where the next one starts. -/
def blocks (bytes : Bytes) (dataBlockEnd : Nat) : List IndexEntry → Exec Unit
  | [] => return
  | entry :: entries => do
      let stop := match entries with
        | next :: _ => next.offset
        | [] => dataBlockEnd
      let found ← slice bytes entry.offset stop
      block entry.recordCount found
      blocks bytes dataBlockEnd entries

/-- `validate` of `sstable_preflight.rs`. -/
def validate (bytes : Bytes) (footer : SSTableFooter) : Exec Unit := do
  if !offsetsFit footer bytes.length then .error error
  else
    let entries ← index footer.dataBlockEnd
      (← slice bytes footer.indexBlockStart footer.indexBlockEnd)
    bloom (← slice bytes footer.bloomBlockStart footer.bloomBlockEnd)
    blocks bytes footer.dataBlockEnd entries

end Preflight

/-! ### The sections with their checksums -/

/-- `SparseIndexEntry::decode`. -/
def SparseIndexEntry.decode : Decode SparseIndexEntry := do
  let firstKeyLen ← readBe eof 8
  let _ ← allocate firstKeyLen
  let firstKey ← readExact eof firstKeyLen
  let blockOffset ← readBe eof 8
  let lastKeyLen ← readBe eof 8
  let _ ← allocate lastKeyLen
  let lastKey ← readExact eof lastKeyLen
  let recordCount ← readBe eof 4
  return { firstKey, blockOffset, lastKey, recordCount }

/-- `BloomFilterWrapper::decode`. -/
def BloomFilterWrapper.decode : Decode BloomFilterWrapper := do
  let seed ← readBe eof 16
  let _numBits ← readBe eof 8
  let numHashes ← readBe eof 4
  let numWords ← readBe eof 8
  let _ ← allocate (8 * numWords)
  let words ← (do return UInt64.ofNat (← readBe eof 8) : Decode UInt64).replicate numWords
  return { seed, numHashes := UInt32.ofNat numHashes, words }

/-- The bytes of a section and their checksum, without the checksums the message prints. -/
def readSection (start stop checksum : Nat) (message : String) : ReadFile Bytes := do
  FileProg.seekTo (.start start)
  FileProg.ofExcept (allocate (stop - start))
  let part ← FileProg.readExact (stop - start)
  if crc32 part ≠ checksum then FileProg.ofExcept (corrupted message) else return part

/-- `read_sstable_sparse_index`. -/
def readSstableSparseIndex (footer : SSTableFooter) : ReadFile (List SparseIndexEntry) := do
  let part ← readSection footer.indexBlockStart footer.indexBlockEnd footer.indexChecksum
    "Index block checksum mismatch"
  let walk : Decode (List SparseIndexEntry) := do
    let entryCount ← readBe eof 8
    SparseIndexEntry.decode.replicate entryCount
  let (index, _) ← FileProg.ofExcept (walk part)
  return index

/-- `read_sstable_bloom`. -/
def readSstableBloom (footer : SSTableFooter) : ReadFile BloomFilterWrapper := do
  let part ← readSection footer.bloomBlockStart footer.bloomBlockEnd footer.bloomChecksum
    "Bloom filter checksum mismatch"
  let (bloom, _) ← FileProg.ofExcept (BloomFilterWrapper.decode part)
  return bloom

/-! ### A table against its manifest entry -/

/-- The `checked_add` in the sums of record counts. -/
def addRecords (count added : Nat) : Exec Nat :=
  match checkedAdd count added with
  | some sum => .ok sum
  | none => corrupted "SSTable record count overflow"

/-- One round of the loop over the blocks in `validate_manifest_sstable`: the records counted so
far with those of the block. -/
def validateBlock (path : String) (actualCount : Nat) (entry : SparseIndexEntry) (block : Block) :
    Exec Nat :=
  match block.data with
  | none => corrupted s!"SSTable block has no records: {path}"
  | some records =>
    if records = [] ∨ records.length ≠ entry.recordCount ∨
        records.head?.map MemtableRecord.key ≠ some entry.firstKey ∨
        records.getLast?.map MemtableRecord.key ≠ some entry.lastKey ∨
        block.firstKey ≠ entry.firstKey ∨ block.lastKey ≠ entry.lastKey then
      corrupted s!"SSTable block does not match sparse index: {path}"
    else
      addRecords actualCount records.length

/-- The records an index counts. -/
def indexRecords (index : List SparseIndexEntry) : Exec Nat :=
  index.foldlM (fun count entry => addRecords count entry.recordCount) 0

/-- `validate_manifest_sstable` on the contents of the files. -/
def validateManifestSstable (files : String → Option Bytes) (table : SSTableMeta) : Exec Unit := do
  match files table.path with
  | none => corrupted s!"cannot inspect manifest SSTable {table.path}"
  | some bytes =>
    if bytes.length < footerSize then
      corrupted s!"manifest SSTable is shorter than its footer: {table.path}"
    else
      let footer ← FileProg.result fileErrors files (do
        FileProg.openNamed table.path
        SSTableFooter.asyncDecode)
      if !Preflight.offsetsFit footer bytes.length then
        corrupted s!"invalid SSTable section offsets: {table.path}"
      else
        Preflight.validate bytes footer
        let checkedIndex ← FileProg.result fileErrors files (do
          FileProg.openNamed table.path
          let index ← readSstableSparseIndex footer
          let _ ← readSstableBloom footer
          return index)
        let (decodedFooter, index, _) ← FileProg.result fileErrors files (do
          FileProg.openNamed table.path
          SSTableCodec.deserializeSections)
        let count ← indexRecords index
        if index = [] ∨ checkedIndex.length ≠ index.length ∨ count ≠ table.recordCount ∨
            index.head?.map SparseIndexEntry.firstKey ≠ some table.smallestKey ∨
            index.getLast?.map SparseIndexEntry.lastKey ≠ some table.largestKey then
          corrupted s!"SSTable index does not match manifest metadata: {table.path}"
        else
          -- every block is read after a seek, so it does not matter where the reader stands
          let blocks ← FileProg.result fileErrors files (do
            FileProg.openNamed table.path
            SSTableCodec.getAllBlocks decodedFooter index)
          let actualCount ← (index.zip blocks).foldlM
            (fun count entry => validateBlock table.path count entry.1 entry.2) 0
          if actualCount ≠ table.recordCount then
            corrupted s!"SSTable record count does not match manifest: {table.path}"
          else return

end CereDB.Storage

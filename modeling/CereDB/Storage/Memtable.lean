import CereDB.Storage.Config

/-!
# `CereDB.Storage.Memtable`: the memtable and the table a flush builds from it

The memtable is an ordered map from a key and a sequence number to a record
(`src/storage/writemanager/write.rs`). `flushTable` is the part of `flush_inner` before the
first file operation: the newest version of every key, the blocks with their index, the check
that the blocks hold exactly those versions, and the codec.
-/

set_option autoImplicit false

namespace CereDB.Storage

open CereDB.Lib

instance entryTransCmp : Std.TransCmp (@compare (Key ×ₗ Nat) LinearOrder.toOrd) := OrdMap.transCmp

/-- `SkipMap<(Vec<u8>, u64), MemtableRecord>`. -/
abbrev Memtable := OrdMap (Key ×ₗ Nat) MemtableRecord

/-- The insertion of `append_to_memtable`. -/
def Memtable.append (memtable : Memtable) (key : Key) (value : Bytes) (recordType : RecordType)
    (lsn : Nat) : Memtable :=
  memtable.insert (toLex (key, lsn)) (MemtableRecord.new value recordType lsn)

/-- One step of the loop in `flush_inner` that keeps the newest version of a key. -/
def keepNewest (valid : OrdMap Key MemtableRecord) (entry : (Key ×ₗ Nat) × MemtableRecord) :
    OrdMap Key MemtableRecord :=
  let key := (ofLex entry.1).1
  match valid[key]? with
  | some existing => if existing.lsn < entry.2.lsn then valid.insert key entry.2 else valid
  | none => valid.insert key entry.2

/-- `valid_records` of `flush_inner`. -/
def validRecords (memtable : Memtable) : OrdMap Key MemtableRecord :=
  memtable.toList.foldl keepNewest ∅

/-- The block building loop of `flush_inner`. -/
def flushBlocks (valid : OrdMap Key MemtableRecord) : Exec (List Block) := do
  let state ← valid.toList.foldlM (fun state entry => flushRecord state entry.1 entry.2)
    (BlockBuilder.new 0, [])
  finishBlocks state

/-- The sparse index `flush_inner` collects. Its offsets add up the data sizes of the cut
blocks, so they are not the offsets in the file: `serialize` computes those itself. -/
def flushIndex : Nat → List Block → List SparseIndexEntry
  | _, [] => []
  | offset, block :: blocks =>
    { firstKey := block.firstKey
      blockOffset := offset
      lastKey := block.lastKey
      recordCount := block.recordCount } :: flushIndex (offset + block.dataSize) blocks

/-- One step of the check that the blocks hold exactly the records of the snapshot. -/
def checkSerialized (valid : OrdMap Key MemtableRecord) (seen : List Key)
    (record : MemtableRecord) : Exec (List Key) :=
  match valid[record.key]? with
  | none => corrupted "SSTable block contains a record outside the flush snapshot"
  | some expected =>
    if record.key ∈ seen ∨ expected.lsn ≠ record.lsn ∨
        expected.recordType ≠ record.recordType ∨ expected.value ≠ record.value then
      corrupted "SSTable block records do not cover the flush snapshot"
    else .ok (record.key :: seen)

/-- What `flush_inner` knows before it touches a file. -/
structure FlushTable where
  codec : SSTableCodec
  encoded : Bytes
  footer : SSTableFooter
  smallestKey : Key
  largestKey : Key
  recordCount : Nat
  checkpointLsn : Nat
deriving DecidableEq, Repr

/-- `flush_inner` up to the first file operation. -/
def flushTable (fastbloom : FastBloom) (config : StorageConfig) (memtable : Memtable) :
    Exec FlushTable := do
  let valid := validRecords memtable
  let bloom := valid.toList.foldl (fun filter entry => filter.insert fastbloom entry.1)
    (BloomFilterWrapper.withRate fastbloom (valid.size + 10) config.bloomFalsePositiveRate)
  let blocks ← flushBlocks valid
  let seen ← (blocks.flatMap Block.records).foldlM (checkSerialized valid) []
  if seen.length ≠ valid.size then
    throw (.error (.corrupted "SSTable blocks omit records from the flush snapshot"))
  let codec : SSTableCodec := { blocks, index := flushIndex 0 blocks, bloom }
  let (encoded, footer) ← codec.serialize
  match SSTableCodec.rangeFromIndex codec.index with
  | none => corrupted "cannot register SSTable without sparse index range"
  | some (smallestKey, largestKey) =>
    return {
      codec
      encoded
      footer
      smallestKey
      largestKey
      recordCount := valid.size
      checkpointLsn := (valid.toList.map fun entry => entry.2.lsn).max?.getD 0 }

end CereDB.Storage

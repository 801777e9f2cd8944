import CereDB.Storage.Memtable

/-!
# `CereDB.Storage.Merge`: merging tables and cutting the result into outputs

The part of `src/storage/compactionmanager/compaction.rs` between reading the inputs and
writing the outputs. `mergeFilesWithReclamation` keeps the newest version of every key and
drops a tombstone whose key lies in no protected range. `partitionOutput` cuts the merged
records into tables of about the target size.
-/

set_option autoImplicit false

namespace CereDB.Storage

open CereDB.Lib

/-- `choose_winner`: the larger sequence number, and on a tie a delete. -/
def chooseWinner (current candidate : MemtableRecord) : MemtableRecord :=
  if current.lsn < candidate.lsn then candidate
  else if candidate.lsn < current.lsn then current
  else
    match current.recordType, candidate.recordType with
    | .delete, _ => current
    | _, .delete => candidate
    | _, _ => current

/-- One step of the merge: the record competes with the one kept for its key. -/
def mergeRecord (merged : OrdMap Key MemtableRecord) (record : MemtableRecord) :
    OrdMap Key MemtableRecord :=
  let winner := match merged[record.key]? with
    | some existing => chooseWinner existing record
    | none => record
  merged.insert record.key winner

/-- `merged_by_key` of `merge_files_with_reclamation`. -/
def mergedByKey (sstables : List SSTableCodec) : OrdMap Key MemtableRecord :=
  (sstables.flatMap fun sstable => sstable.blocks.flatMap Block.records).foldl mergeRecord ∅

/-- The test that drops a tombstone: no protected range holds its key. -/
def reclaimable (protectedRanges : Option (List (Key × Key))) (winner : MemtableRecord) : Bool :=
  winner.recordType == .delete &&
    match protectedRanges with
    | some ranges => !ranges.any fun range => range.1 ≤ winner.key && winner.key ≤ range.2
    | none => false

/-- The winners that are not dropped, in key order. -/
def survivors (sstables : List SSTableCodec) (protectedRanges : Option (List (Key × Key))) :
    List MemtableRecord :=
  ((mergedByKey sstables).toList.map Prod.snd).filter fun winner =>
    !reclaimable protectedRanges winner

/-- `flush_winner`, without the Bloom filter. -/
def flushWinner (state : BlockBuilder × List Block) (winner : MemtableRecord) :
    Exec (BlockBuilder × List Block) :=
  flushRecord state winner.key winner

/-- The block building loop of `build_output` and `merge_files_with_reclamation`. -/
def buildBlocks (records : List MemtableRecord) : Exec (List Block) := do
  let state ← records.foldlM flushWinner (BlockBuilder.new 0, [])
  finishBlocks state

/-- The Bloom filter over the keys of the records. -/
def buildBloom (fastbloom : FastBloom) (filter : BloomFilterWrapper)
    (records : List MemtableRecord) : BloomFilterWrapper :=
  records.foldl (fun filter record => filter.insert fastbloom record.key) filter

/-- `merge_files_with_reclamation`. -/
def mergeFilesWithReclamation (fastbloom : FastBloom) (sstables : List SSTableCodec)
    (config : StorageConfig) (protectedRanges : Option (List (Key × Key))) :
    Exec SSTableCodec := do
  let winners := survivors sstables protectedRanges
  let blocks ← buildBlocks winners
  let filter := BloomFilterWrapper.withRate fastbloom 1000000 config.bloomFalsePositiveRate
  return { blocks, index := [], bloom := buildBloom fastbloom filter winners }

/-- `build_output`. -/
def buildOutput (fastbloom : FastBloom) (records : List MemtableRecord) (config : StorageConfig) :
    Exec SSTableCodec := do
  let filter := BloomFilterWrapper.withRate fastbloom records.length config.bloomFalsePositiveRate
  let blocks ← buildBlocks records
  return { blocks, index := [], bloom := buildBloom fastbloom filter records }

/-- The state of the loop in `partition_output`. -/
structure Partition where
  outputs : List SSTableCodec
  records : List MemtableRecord
  bytes : Nat
deriving DecidableEq, Repr

/-- One step of the loop in `partition_output`. -/
def partitionRecord (fastbloom : FastBloom) (config : StorageConfig) (state : Partition)
    (record : MemtableRecord) : Exec Partition := do
  let recordBytes := record.recordLength record.key
  let state ←
    if state.records ≠ [] ∧ config.targetSstableBytes < saturatingAdd state.bytes recordBytes then do
      let output ← buildOutput fastbloom state.records config
      pure { outputs := state.outputs ++ [output], records := [], bytes := 0 : Partition }
    else pure state
  return { state with
    records := state.records ++ [record]
    bytes := saturatingAdd state.bytes recordBytes }

/-- `partition_output`. -/
def partitionOutput (fastbloom : FastBloom) (merged : SSTableCodec) (config : StorageConfig) :
    Exec (List SSTableCodec) := do
  let state ← (merged.blocks.flatMap Block.records).foldlM (partitionRecord fastbloom config)
    { outputs := [], records := [], bytes := 0 }
  if state.records ≠ [] then do
    let output ← buildOutput fastbloom state.records config
    return state.outputs ++ [output]
  else return state.outputs

/-- `ranges_overlap`. -/
def rangesOverlap (left right : Key × Key) : Bool := left.1 ≤ right.2 && right.1 ≤ left.2

/-- `range_from_blocks`. -/
def rangeFromBlocks (blocks : List Block) : Option (Key × Key) :=
  match blocks.head?, blocks.getLast? with
  | some first, some last => some (first.firstKey, last.lastKey)
  | _, _ => none

end CereDB.Storage

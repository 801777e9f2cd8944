import CereDB.Storage.Manifest
import CereDB.Storage.Memtable

/-!
# `CereDB.Storage.Read`: point reads and range scans

`ReadManager` of `src/storage/readmanager/read.rs`. A read looks into the memtable and then into
the table files, which it opens through the handle cache of the manifest. The part that touches
files is a program of the type `ReadFile`: running it alone gives the result of an undisturbed
read, and the handle cache decides what concurrent reads share.
-/

set_option autoImplicit false

namespace CereDB.Storage

open CereDB.Lib

/-- `std::ops::Bound`. -/
inductive Bound (α : Type) where
  | included (a : α)
  | excluded (a : α)
  | unbounded
deriving DecidableEq, Repr

/-- A range of keys. -/
structure KeyRange where
  start : Bound Key
  stop : Bound Key
deriving DecidableEq, Repr

/-- The range of a single key, `key..=key`. -/
def KeyRange.single (key : Key) : KeyRange := ⟨.included key, .included key⟩

/-- The levels with their files, in ascending order. -/
def Levels.byLevel (levels : Levels) : List (Nat × List SSTableMeta) :=
  (levels.toList.map fun entry => (ofLex entry.1).1).dedup.map fun level =>
    (level, levels.files level)

/-- `is_newer_record`: the larger sequence number, and on a tie a delete over a put. -/
def isNewerRecord (candidate current : MemtableRecord) : Bool :=
  current.lsn < candidate.lsn ||
    (candidate.lsn == current.lsn && candidate.recordType == .delete &&
      current.recordType != .delete)

namespace ReadManager

/-- `u64::MAX`. -/
def maxLsn : Nat := u64Limit - 1

/-- `collect_range_bounds`: the bounds of the composite memtable keys. -/
def collectRangeBounds (range : KeyRange) : Bound (Key ×ₗ Nat) × Bound (Key ×ₗ Nat) :=
  (match range.start with
    | .included key => .included (toLex (key, 0))
    | .excluded key => .excluded (toLex (key, maxLsn))
    | .unbounded => .unbounded,
   match range.stop with
    | .included key => .included (toLex (key, maxLsn))
    | .excluded key => .excluded (toLex (key, 0))
    | .unbounded => .unbounded)

/-- The test of `SkipMap::range`. -/
def withinBounds {α : Type} [LinearOrder α] (bounds : Bound α × Bound α) (a : α) : Bool :=
  (match bounds.1 with
    | .included start => decide (start ≤ a)
    | .excluded start => decide (start < a)
    | .unbounded => true) &&
  match bounds.2 with
    | .included stop => decide (a ≤ stop)
    | .excluded stop => decide (a < stop)
    | .unbounded => true

/-- `ranges_overlap`: excluded ends count as included here. -/
def rangesOverlap (range : KeyRange) (sstStart sstEnd : Key) : Bool :=
  (match range.stop with
    | .included stop | .excluded stop => !decide (stop < sstStart)
    | .unbounded => true) &&
  match range.start with
    | .included start | .excluded start => !decide (sstEnd < start)
    | .unbounded => true

/-- `key_in_range`. -/
def keyInRange (key : Key) (range : KeyRange) : Bool := withinBounds (range.start, range.stop) key

/-- The records collected so far, by key. -/
abbrev Merged := OrdMap Key MemtableRecord

/-- Keeps the candidate when it is newer than what is kept for its key. -/
def keepNewer (merged : Merged) (key : Key) (candidate : MemtableRecord) : Merged :=
  match merged[key]? with
  | some current => if isNewerRecord candidate current then merged.insert key candidate else merged
  | none => merged.insert key candidate

/-- One memtable entry of a scan. -/
def scanEntry (sequenceNumber : Nat) (merged : Merged)
    (entry : (Key ×ₗ Nat) × MemtableRecord) : Merged :=
  if sequenceNumber < (ofLex entry.1).2 then merged
  else keepNewer merged (ofLex entry.1).1 entry.2

/-- The memtable part of `scan_records_range`. -/
def scanMemtable (memtable : Memtable) (range : KeyRange) (sequenceNumber : Nat) : Merged :=
  (memtable.toList.filter fun entry => withinBounds (collectRangeBounds range) entry.1).foldl
    (scanEntry sequenceNumber) ∅

/-- One record of a table block in a scan. -/
def scanRecord (range : KeyRange) (sequenceNumber : Nat) (merged : Merged)
    (record : MemtableRecord) : Merged :=
  if sequenceNumber < record.lsn then merged
  else if !keyInRange record.key range then merged
  else keepNewer merged record.key record

/-- The loop of `scan_single_sstable` over the index: blocks outside the range are skipped. -/
def scanBlocks (footer : SSTableFooter) (index : List SparseIndexEntry) (range : KeyRange)
    (sequenceNumber : Nat) : List SparseIndexEntry → Merged → ReadFile Merged
  | [], merged => return merged
  | entry :: entries, merged =>
    if !rangesOverlap range entry.firstKey entry.lastKey then
      scanBlocks footer index range sequenceNumber entries merged
    else do
      let block ← SSTableCodec.getBlock footer index entry.firstKey
      scanBlocks footer index range sequenceNumber entries
        (block.records.foldl (scanRecord range sequenceNumber) merged)

/-- `scan_single_sstable`. -/
def scanSingleSstable (sstable : SSTableMeta) (range : KeyRange) (sequenceNumber : Nat)
    (merged : Merged) : ReadFile Merged :=
  if !rangesOverlap range sstable.smallestKey sstable.largestKey then return merged
  else do
    FileProg.openNamed sstable.path
    let (footer, index, _) ← SSTableCodec.deserializeSections
    scanBlocks footer index range sequenceNumber index merged

/-- `scan_sstables`, on the files of all levels in ascending level order. -/
def scanSstables (range : KeyRange) (sequenceNumber : Nat) :
    List SSTableMeta → Merged → ReadFile Merged
  | [], merged => return merged
  | sstable :: sstables, merged => do
      let merged ← scanSingleSstable sstable range sequenceNumber merged
      scanSstables range sequenceNumber sstables merged

/-- `scan_records_range`: the newest record of every key, without tombstones, in key order. -/
def scanRecordsRange (memtable : Memtable) (levels : Levels) (range : KeyRange)
    (sequenceNumber : Nat) : ReadFile (List (Key × MemtableRecord)) := do
  let merged := scanMemtable memtable range sequenceNumber
  let merged ← scanSstables range sequenceNumber
    (levels.byLevel.flatMap fun level => level.2) merged
  return merged.toList.filter fun entry => entry.2.recordType != .delete

/-- `scan_range`. -/
def scanRange (memtable : Memtable) (levels : Levels) (range : KeyRange)
    (sequenceNumber : Nat) : ReadFile (List (Key × Bytes)) := do
  let records ← scanRecordsRange memtable levels range sequenceNumber
  return records.map fun entry => (entry.1, entry.2.value)

/-- The loop of `get_from_single_sstable` over the index. -/
def findInBlocks (footer : SSTableFooter) (index : List SparseIndexEntry) (key : Key) :
    List SparseIndexEntry → ReadFile (Option MemtableRecord)
  | [] => return none
  | entry :: entries =>
    if key < entry.firstKey ∨ entry.lastKey < key then findInBlocks footer index key entries
    else do
      let block ← SSTableCodec.getBlock footer index entry.firstKey
      match block.records.find? fun record => record.key == key with
      | some record => return some record
      | none => findInBlocks footer index key entries

/-- `get_from_single_sstable`. The sequence number is not used. -/
def getFromSingleSstable (fastbloom : FastBloom) (sstable : SSTableMeta) (key : Key)
    (_sequenceNumber : Nat) : ReadFile (Option MemtableRecord) := do
  FileProg.openNamed sstable.path
  let (footer, index, bloom) ← SSTableCodec.deserializeSections
  if !bloom.contains fastbloom key then return none
  else findInBlocks footer index key index

/-- The search of level 0: all files, the first one with the largest sequence number wins. -/
def getFromLevel0 (fastbloom : FastBloom) (key : Key) (sequenceNumber : Nat) :
    List SSTableMeta → Option MemtableRecord → ReadFile (Option MemtableRecord)
  | [], best => return best
  | sstable :: sstables, best => do
      let found ← getFromSingleSstable fastbloom sstable key sequenceNumber
      let best := match found, best with
        | some record, some current => if current.lsn < record.lsn then some record else best
        | some record, none => some record
        | none, _ => best
      getFromLevel0 fastbloom key sequenceNumber sstables best

/-- The search of a deeper level: the first hit. -/
def getFromDeeper (fastbloom : FastBloom) (key : Key) (sequenceNumber : Nat) :
    List SSTableMeta → ReadFile (Option MemtableRecord)
  | [] => return none
  | sstable :: sstables => do
      match ← getFromSingleSstable fastbloom sstable key sequenceNumber with
      | some record => return some record
      | none => getFromDeeper fastbloom key sequenceNumber sstables

/-- `get_from_sstable`: level by level, the first level with a hit decides. -/
def getFromSstable (fastbloom : FastBloom) (key : Key) (sequenceNumber : Nat) :
    List (Nat × List SSTableMeta) → ReadFile (Option MemtableRecord)
  | [] => return none
  | (level, files) :: levels => do
      let hit ←
        if level = 0 then getFromLevel0 fastbloom key sequenceNumber files none
        else getFromDeeper fastbloom key sequenceNumber files.reverse
      match hit with
      | some record =>
        match record.recordType with
        | .delete => return none
        | .put => return some record
      | none => getFromSstable fastbloom key sequenceNumber levels

/-- The memtable part of `get`: the newest version up to the sequence number. -/
def getFromMemtable (memtable : Memtable) (key : Key) (sequenceNumber : Nat) :
    Option MemtableRecord :=
  ((memtable.toList.filter fun entry => withinBounds
    (.included (toLex (key, 0)), .included (toLex (key, sequenceNumber))) entry.1).getLast?).map
    Prod.snd

/-- `ReadManager::get`. A memtable hit is returned as it is, also when it is a tombstone. -/
def get (fastbloom : FastBloom) (memtable : Memtable) (levels : Levels) (key : Key)
    (sequenceNumber : Nat) : ReadFile (Option MemtableRecord) :=
  match getFromMemtable memtable key sequenceNumber with
  | some record => return some record
  | none => getFromSstable fastbloom key sequenceNumber levels.byLevel

end ReadManager

end CereDB.Storage

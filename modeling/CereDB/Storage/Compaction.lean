import CereDB.Storage.Merge
import CereDB.Storage.Read

/-!
# `CereDB.Storage.Compaction`: choosing, reading and merging the inputs of a compaction

The part of `compaction` in `src/storage/compactionmanager/compaction.rs` up to the first file it
writes: `planCompaction` chooses the input tables from a manifest snapshot, reads them, merges them
and partitions the result. It only reads files, and each through a handle of its own, so it is a
function of the files.

The check for cancellation is left out: a cancelled compaction returns an error before it changes
anything.
-/

set_option autoImplicit false

namespace CereDB.Storage

open CereDB.Lib

section
variable (files : String → Option Bytes)

/-- `tokio::fs::metadata(path).len()`. -/
def fileLen (path : String) : Exec Nat :=
  match files path with
  | some bytes => .ok bytes.length
  | none => .error (.error (.io .notFound))

/-- The index of a table file, as `compute_meta_range` reads it. -/
def readIndex (sstable : SSTableMeta) : ReadFile (List SparseIndexEntry) := do
  FileProg.openNamed sstable.path
  let (_, index, _) ← SSTableCodec.deserializeSections
  return index

/-- `compute_meta_range`: the range of the manifest, or that of the index when one of its ends is
empty. -/
def computeMetaRange (sstable : SSTableMeta) : Exec (Option (Key × Key)) :=
  if sstable.smallestKey ≠ [] ∧ sstable.largestKey ≠ [] then
    .ok (some (sstable.smallestKey, sstable.largestKey))
  else do
    let index ← FileProg.result fileErrors files (readIndex sstable)
    return SSTableCodec.rangeFromIndex index

/-- The smallest range around two ranges. -/
def widen (range other : Key × Key) : Key × Key := (min range.1 other.1, max range.2 other.2)

/-- `compute_level_range`. -/
def computeLevelRange : List SSTableMeta → Option (Key × Key) → Exec (Option (Key × Key))
  | [], range => .ok range
  | sstable :: sstables, range => do
      match ← computeMetaRange files sstable with
      | some found => computeLevelRange sstables (some (match range with
          | some range => widen range found
          | none => found))
      | none => computeLevelRange sstables range

/-- The loop that seeds the candidates: in level 0 oldest files up to the target size, in a deeper
level the oldest one. -/
def seedCandidates (level targetSstableBytes : Nat) :
    List SSTableMeta → List SSTableMeta → Nat → Exec (List SSTableMeta)
  | [], candidates, _ => .ok candidates
  | sstable :: sstables, candidates, inputBytes =>
    if candidates ≠ [] ∧ (level ≠ 0 ∨ targetSstableBytes ≤ inputBytes) then .ok candidates
    else do
      let length ← fileLen files sstable.path
      seedCandidates level targetSstableBytes sstables (candidates ++ [sstable])
        (saturatingAdd inputBytes length)

/-- The candidates and the range they span. -/
abbrev Selection := List SSTableMeta × (Key × Key)

/-- One candidate of the closing loop. -/
def closeCandidate (selection : Selection) (candidate : SSTableMeta) : Exec Selection :=
  if selection.1.any fun sstable => sstable.fileId == candidate.fileId then .ok selection
  else do
    match ← computeMetaRange files candidate with
    | none => corrupted "SSTable has no key range"
    | some range =>
      if rangesOverlap selection.2 range then
        return (selection.1 ++ [candidate], widen selection.2 range)
      else return selection

/-- The closing loop: passes over the files of both levels until one adds no candidate. A pass that
goes on adds a file, so as many passes as there are files are enough. -/
def closeOverlaps (sstables : List SSTableMeta) : Nat → Selection → Exec Selection
  | 0, selection => .ok selection
  | passes + 1, selection => do
      let next ← sstables.foldlM (closeCandidate files) selection
      if next.1.length = selection.1.length then return next
      else closeOverlaps sstables passes next

/-- The program that reads a whole input. -/
def readTable (sstable : SSTableMeta) : ReadFile SSTableCodec := do
  FileProg.openNamed sstable.path
  let (footer, index, bloom) ← SSTableCodec.deserializeSections
  let blocks ← SSTableCodec.getAllBlocks footer index
  return { blocks, index, bloom }

/-- The range of a table that is not an input. -/
def protectedRange (sstable : SSTableMeta) : Exec (Key × Key) := do
  match ← computeMetaRange files sstable with
  | some range => return range
  | none => corrupted "SSTable has no key range"

/-- What a compaction is about to do: the tables it replaces, the merged table it returns, and the
tables it writes. -/
structure CompactionPlan where
  inputs : List SSTableMeta
  merged : SSTableCodec
  outputs : List SSTableCodec
deriving DecidableEq

/-- The choice of the inputs in `compaction`. -/
def selectInputs (config : StorageConfig) (levels : Levels) (level : Nat) :
    Exec (List SSTableMeta) := do
  let current := levels.files level
  if current = [] then
    throw (.error (.storageError s!"Level {level} not found in manifest"))
  if u32Limit ≤ level + 1 then
    throw (.error (.storageError "compaction level overflow"))
  let candidates ← seedCandidates files level config.targetSstableBytes current [] 0
  match ← computeLevelRange files candidates none with
  | none => corrupted s!"Level {level} has no valid key range"
  | some range =>
    let sstables := current ++ levels.files (level + 1)
    let selection ← closeOverlaps files sstables (sstables.length + 1) (candidates, range)
    return selection.1

/-- `compaction` up to the first output file. -/
def planCompaction (fastbloom : FastBloom) (config : StorageConfig) (levels : Levels) (level : Nat) :
    Exec CompactionPlan := do
  let inputs ← selectInputs files config levels level
  let sstables ← inputs.mapM fun sstable => FileProg.result fileErrors files (readTable sstable)
  let untouched := levels.all.filter fun sstable =>
    !inputs.any fun input => input.fileId == sstable.fileId
  let protectedRanges ← untouched.mapM (protectedRange files)
  let merged ← mergeFilesWithReclamation fastbloom sstables config (some protectedRanges)
  let outputs ← partitionOutput fastbloom merged config
  return { inputs, merged, outputs }

end

/-- `build_compaction_output_path` and the path of a flushed table, below the table directory. -/
def tablePath (level fileId : Nat) : String := s!"level-{level}/sstable-{fileId}.dat"

/-- The metadata `flush_inner` registers. -/
def flushMeta (fileId : Nat) (table : FlushTable) : SSTableMeta where
  fileId := fileId
  level := 0
  path := tablePath 0 fileId
  recordCount := table.recordCount
  smallestKey := table.smallestKey
  largestKey := table.largestKey
  bloomOffset := table.footer.bloomBlockStart
  bloomSize := table.footer.bloomBlockEnd - table.footer.bloomBlockStart

/-- The metadata `write_compaction_output` returns for a table it wrote. -/
def outputMeta (level fileId : Nat) (codec : SSTableCodec) (footer : SSTableFooter) :
    Exec SSTableMeta :=
  match rangeFromBlocks codec.blocks with
  | none => corrupted "compaction output has no key range"
  | some (smallestKey, largestKey) =>
    .ok {
      fileId
      level
      path := tablePath level fileId
      recordCount := (codec.blocks.map Block.recordCount).sum
      smallestKey
      largestKey
      bloomOffset := footer.bloomBlockStart
      bloomSize := footer.bloomBlockEnd - footer.bloomBlockStart }

end CereDB.Storage

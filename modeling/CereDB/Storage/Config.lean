import CereDB.Storage.SSTable

/-!
# `CereDB.Storage.Config`: the storage configuration

`StorageConfig` of `src/storage/config.rs` and its validation.
-/

set_option autoImplicit false

namespace CereDB.Storage

/-- `StorageConfig` of `config.rs`. -/
structure StorageConfig where
  memtableSizeThreshold : Nat
  sstableBlockSize : Nat
  maxLevel0Files : Nat
  targetSstableBytes : Nat
  levelBaseBytes : Nat
  levelSizeMultiplier : Nat
  walSegmentSize : Nat
  bloomFalsePositiveRate : Rate
  maxSstableFileHandles : Nat
deriving DecidableEq, Repr

/-- `rate <= 0.0 || rate >= 1.0`: every comparison with NaN is false. -/
def Rate.outsideUnit : Rate → Bool
  | .value q => q ≤ 0 || 1 ≤ q
  | .nan => false

namespace StorageConfig

/-- `StorageConfig::default`. -/
def default : StorageConfig where
  memtableSizeThreshold := 4 * 1024 * 1024
  sstableBlockSize := 4096
  maxLevel0Files := 2
  targetSstableBytes := 2 * 1024 * 1024
  levelBaseBytes := 16 * 1024 * 1024
  levelSizeMultiplier := 10
  walSegmentSize := 1024 * 1024
  bloomFalsePositiveRate := .value (1 / 100)
  maxSstableFileHandles := 64

/-- `StorageConfig::validate`. -/
def validate (config : StorageConfig) : Exec Unit :=
  if config.memtableSizeThreshold < 1024 * 1024 then
    storageError "memtable_size_threshold must be >= 1 MB"
  else if 64 * 1024 * 1024 < config.memtableSizeThreshold then
    storageError "memtable_size_threshold must be <= 64 MB"
  else if config.sstableBlockSize < 1024 then
    storageError "sstable_block_size must be >= 1 KB"
  else if 64 * 1024 < config.sstableBlockSize then
    storageError "sstable_block_size must be <= 64 KB"
  else if config.maxLevel0Files < 1 || 10 < config.maxLevel0Files then
    storageError "max_level0_files must be between 1 and 10"
  else if config.targetSstableBytes == 0 || config.levelBaseBytes == 0 ||
      config.levelSizeMultiplier < 2 then
    storageError "compaction byte targets must be positive and level_size_multiplier >= 2"
  else if config.walSegmentSize < 256 * 1024 then
    storageError "wal_segment_size must be >= 256 KB"
  else if 10 * 1024 * 1024 < config.walSegmentSize then
    storageError "wal_segment_size must be <= 10 MB"
  else if config.bloomFalsePositiveRate.outsideUnit then
    storageError "bloom_false_positive_rate must be between 0.0 and 1.0 (exclusive)"
  else if config.maxSstableFileHandles < 8 || 512 < config.maxSstableFileHandles then
    storageError "max_sstable_file_handles must be between 8 and 512"
  else .ok ()

end StorageConfig

end CereDB.Storage

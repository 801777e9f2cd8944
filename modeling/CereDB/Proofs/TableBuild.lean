import CereDB.Proofs.Merge
import CereDB.Proofs.TableRead

/-!
# `CereDB.Proofs.TableBuild`: the tables that flushes and compactions write are good

A record is `Storable` when its encoding fits the 32-bit lengths of a block and its sequence
number is a `u64`. `blocksOf_good` says that the blocks of storable records are good: a block
holds one record or at most `SSTABLE_BLOCK_SIZE` bytes of them, so its size fits as well.
`flushTable_ok` says what a flush is about to write.
-/

set_option autoImplicit false

namespace CereDB.Storage

open CereDB.Lib

/-- A record that a table can hold. -/
structure MemtableRecord.Storable (record : MemtableRecord) : Prop where
  size : record.recordLength record.key < u32Limit
  lsn : record.lsn < u64Limit

/-! ### Blocks -/

/-- A chunk of storable records is small. -/
theorem recordsSize_lt_of_mem_chunks {records chunk : List MemtableRecord}
    (hstorable : ∀ record ∈ records, record.Storable) (h : chunk ∈ chunks blockFull records) :
    recordsSize chunk < u32Limit := by
  refine chunks_invariant (P := fun chunk => recordsSize chunk < u32Limit) (by decide) ?_ ?_ h
  · intro record hmem
    rw [recordsSize, List.map_singleton, List.sum_singleton]
    exact (hstorable record hmem).size
  · intro chunk record hmem hsmall hfits
    rw [recordsSize_append]
    rw [blockFull, decide_eq_false_iff_not, not_and_or, not_not, not_lt] at hfits
    rcases hfits with hnil | hle
    · rw [hnil]
      show 0 + _ < _
      rw [Nat.zero_add]
      exact (hstorable record hmem).size
    · exact Nat.lt_of_le_of_lt hle (by decide)

theorem blocksOf_good {records : List MemtableRecord} (hsorted : KeySorted records)
    (hstorable : ∀ record ∈ records, record.Storable) : ∀ block ∈ blocksOf records, block.Good := by
  intro block hblock
  have hbounds := blocksOf_keyBounds hsorted block hblock
  obtain ⟨chunk, hchunk, offset, rfl⟩ := exists_chunk_of_mem_layout hblock
  have hsmall := recordsSize_lt_of_mem_chunks hstorable hchunk
  have hsub : ∀ record ∈ chunk, record ∈ records := by
    intro record hmem
    rw [← @flatten_chunks _ blockFull records]
    exact List.mem_flatten_of_mem hchunk hmem
  exact {
    data := rfl
    bounds := hbounds
    recordCount := rfl
    dataSize := Nat.mod_eq_of_lt hsmall
    small := hsmall
    lsn := fun record hmem => (hstorable record (hsub record hmem)).lsn }

/-- The block building loop that returned made these blocks. -/
theorem eq_blocksOf_of_buildBlocks {records : List MemtableRecord} {blocks : List Block}
    (hsorted : KeySorted records) (h : buildBlocks records = .ok blocks) :
    blocks = blocksOf records := by
  by_cases hbuildable : Buildable records
  · rw [buildBlocks_ok hsorted hbuildable] at h
    exact (Except.ok.inj h).symm
  · obtain ⟨message, hpanic⟩ := buildBlocks_panic hsorted hbuildable
    rw [hpanic] at h
    cases h

/-! ### The Bloom filter -/

theorem contains_buildBloom_of_contains (fastbloom : FastBloom) {filter : BloomFilterWrapper}
    (records : List MemtableRecord) {key : Key} (h : filter.contains fastbloom key = true) :
    (buildBloom fastbloom filter records).contains fastbloom key = true := by
  induction records generalizing filter with
  | nil => exact h
  | cons record records ih => exact ih (fastbloom.contains_insert _ _ _ _ _ h)

/-- The filter over some records knows all their keys. -/
theorem contains_buildBloom (fastbloom : FastBloom) (filter : BloomFilterWrapper)
    {records : List MemtableRecord} {record : MemtableRecord} (hmem : record ∈ records) :
    (buildBloom fastbloom filter records).contains fastbloom record.key = true := by
  induction records generalizing filter with
  | nil => cases hmem
  | cons first records ih =>
    rcases List.mem_cons.mp hmem with rfl | hmem
    · exact contains_buildBloom_of_contains fastbloom records
        (fastbloom.contains_insert_self _ _ _ _)
    · exact ih _ hmem

theorem seed_buildBloom (fastbloom : FastBloom) (filter : BloomFilterWrapper)
    (records : List MemtableRecord) : (buildBloom fastbloom filter records).seed = filter.seed := by
  induction records generalizing filter with
  | nil => rfl
  | cons record records ih => exact ih _

/-! ### Codecs -/

/-- The codec of a record list, whose blocks were built in order. -/
theorem codec_good (fastbloom : FastBloom) {filter : BloomFilterWrapper}
    {records : List MemtableRecord} {blocks : List Block} {index : List SparseIndexEntry}
    (hsorted : KeySorted records) (hstorable : ∀ record ∈ records, record.Storable)
    (hblocks : buildBlocks records = .ok blocks) (hseed : filter.seed = 0)
    (hsize : (SSTableCodec.mk blocks index (buildBloom fastbloom filter records)).encoded.length
      ≤ isizeMax) :
    (SSTableCodec.mk blocks index (buildBloom fastbloom filter records)).Good fastbloom ∧
      (SSTableCodec.mk blocks index (buildBloom fastbloom filter records)).records = records := by
  have heq := eq_blocksOf_of_buildBlocks hsorted hblocks
  have hrecords : blocks.flatMap Block.records = records := by rw [heq, records_blocksOf]
  refine ⟨?_, hrecords⟩
  exact {
    blocks := by
      show ∀ block ∈ blocks, block.Good
      rw [heq]
      exact blocksOf_good hsorted hstorable
    sorted := by
      show KeySorted (blocks.flatMap Block.records)
      rw [hrecords]
      exact hsorted
    bloom := by
      intro record hmem
      have hmem' : record ∈ blocks.flatMap Block.records := hmem
      rw [hrecords] at hmem'
      exact contains_buildBloom fastbloom filter hmem'
    seed := by
      show (buildBloom fastbloom filter records).seed < _
      rw [seed_buildBloom, hseed]
      decide
    size := hsize }

/-- The bounds of a good codec cover its records. -/
theorem SSTableCodec.Good.bounds {fastbloom : FastBloom} {codec : SSTableCodec}
    (h : codec.Good fastbloom) {first last : Block} (hfirst : codec.blocks.head? = some first)
    (hlast : codec.blocks.getLast? = some last) {record : MemtableRecord}
    (hmem : record ∈ codec.records) :
    first.firstKey ≤ record.key ∧ record.key ≤ last.lastKey := by
  obtain ⟨block, hblock, hrecord⟩ := List.mem_flatMap.mp hmem
  have hkey := (h.blocks block hblock).key_bounds hrecord
  obtain ⟨rest, hcons⟩ := List.head?_eq_some_iff.mp hfirst
  obtain ⟨init, hsnoc⟩ := List.getLast?_eq_some_iff.mp hlast
  have hcons' : codec.blocks = [] ++ first :: rest := hcons
  have hsnoc' : codec.blocks = init ++ last :: [] := hsnoc
  have hfirstGood := h.block_mem hcons'
  have hlastGood := h.block_mem hsnoc'
  constructor
  · rw [hcons] at hblock
    rcases List.mem_cons.mp hblock with rfl | hrest
    · exact hkey.1
    · exact (hfirstGood.firstKey_le_lastKey.trans
        (h.lt_of_mem_back hcons' hrest).le).trans hkey.1
  · rw [hsnoc] at hblock
    rcases List.mem_append.mp hblock with hinit | hsingle
    · exact hkey.2.trans ((h.lt_of_mem_front hsnoc' hinit).le.trans
        hlastGood.firstKey_le_lastKey)
    · rw [List.mem_singleton.mp hsingle] at hkey
      exact hkey.2

/-! ### The flush -/

theorem map_bounds_flushIndex (offset : Nat) (blocks : List Block) :
    ((flushIndex offset blocks).map fun entry => (entry.firstKey, entry.lastKey))
      = blocks.map fun block => (block.firstKey, block.lastKey) := by
  induction blocks generalizing offset with
  | nil => rfl
  | cons block blocks ih => rw [flushIndex, List.map_cons, ih, List.map_cons]

/-- The range of the index is that of the first and the last block. -/
theorem rangeFromIndex_flushIndex {blocks : List Block} {range : Key × Key}
    (h : SSTableCodec.rangeFromIndex (flushIndex 0 blocks) = some range) :
    ∃ first last, blocks.head? = some first ∧ blocks.getLast? = some last ∧
      range = (first.firstKey, last.lastKey) := by
  have hbounds := map_bounds_flushIndex 0 blocks
  have hhead := congrArg List.head? hbounds
  have hlast := congrArg List.getLast? hbounds
  rw [List.head?_map, List.head?_map] at hhead
  rw [List.getLast?_map, List.getLast?_map] at hlast
  rw [SSTableCodec.rangeFromIndex] at h
  split at h
  · rename_i first last hfirst hlast'
    rw [hfirst] at hhead
    rw [hlast'] at hlast
    obtain ⟨firstBlock, hfirstBlock, hfirstKey⟩ := Option.map_eq_some_iff.mp hhead.symm
    obtain ⟨lastBlock, hlastBlock, hlastKey⟩ := Option.map_eq_some_iff.mp hlast.symm
    have hfirstEq : firstBlock.firstKey = first.firstKey := (Prod.ext_iff.mp hfirstKey).1
    have hlastEq : lastBlock.lastKey = last.lastKey := (Prod.ext_iff.mp hlastKey).2
    exact ⟨firstBlock, lastBlock, hfirstBlock, hlastBlock,
      by rw [hfirstEq, hlastEq]; exact (Option.some.inj h).symm⟩
  · cases h

theorem serialize_ok {codec : SSTableCodec} {encoded : Bytes} {footer : SSTableFooter}
    (h : codec.serialize = .ok (encoded, footer)) :
    codec.encoded.length ≤ isizeMax ∧ encoded = codec.encoded ∧ footer = codec.footer := by
  rw [SSTableCodec.serialize, allocate] at h
  split at h
  · rename_i hle
    obtain ⟨hencoded, hfooter⟩ := Prod.ext_iff.mp (Except.ok.inj h)
    exact ⟨hle, hencoded.symm, hfooter.symm⟩
  · cases h

theorem serialize_of_size {blocks : List Block} {index : List SparseIndexEntry}
    {bloom : BloomFilterWrapper} (h : (SSTableCodec.mk blocks [] bloom).encoded.length ≤ isizeMax) :
    (SSTableCodec.mk blocks index bloom).serialize
      = .ok ((SSTableCodec.mk blocks [] bloom).encoded, (SSTableCodec.mk blocks [] bloom).footer) := by
  show (allocate (SSTableCodec.mk blocks [] bloom).encoded.length).bind _ = _
  rw [allocate, if_pos h]
  rfl

theorem exists_rangeFromIndex {index : List SparseIndexEntry} (h : index ≠ []) :
    ∃ range, SSTableCodec.rangeFromIndex index = some range := by
  rw [SSTableCodec.rangeFromIndex, List.head?_eq_some_head h, List.getLast?_eq_some_getLast h]
  exact ⟨_, rfl⟩

/-- The filter of a flush is the filter over its records. -/
theorem foldl_insert_validRecords (fastbloom : FastBloom) (filter : BloomFilterWrapper)
    (memtable : Memtable) :
    (validRecords memtable).toList.foldl (fun filter entry => filter.insert fastbloom entry.1) filter
      = buildBloom fastbloom filter (flushRecords memtable) := by
  rw [buildBloom, flushRecords, List.foldl_map]
  rfl

/-- A flush that got to its file operations. -/
theorem flushTable_eq_ok {fastbloom : FastBloom} {config : StorageConfig} {memtable : Memtable}
    {table : FlushTable} (h : flushTable fastbloom config memtable = .ok table) :
    buildBlocks (flushRecords memtable) = .ok table.codec.blocks ∧
      table.codec.bloom = buildBloom fastbloom (BloomFilterWrapper.withRate fastbloom
        ((validRecords memtable).size + 10) config.bloomFalsePositiveRate) (flushRecords memtable) ∧
      table.codec.encoded.length ≤ isizeMax ∧ table.encoded = table.codec.encoded ∧
      rangeFromBlocks table.codec.blocks = some (table.smallestKey, table.largestKey) ∧
      table.recordCount = (flushRecords memtable).length := by
  rw [flushTable] at h
  obtain ⟨blocks, hblocks, h⟩ := Exec.bind_eq_ok h
  obtain ⟨seen, hseen, h⟩ := Exec.bind_eq_ok h
  split at h
  · cases h
  · obtain ⟨⟨encoded, footer⟩, hserialize, h⟩ := Exec.bind_eq_ok h
    obtain ⟨hsize, hencoded, -⟩ := serialize_ok hserialize
    rw [flushBlocks_eq] at hblocks
    simp only at h
    split at h
    · cases h
    · rename_i smallestKey largestKey hrange
      obtain ⟨first, last, hfirst, hlast, hkeys⟩ := rangeFromIndex_flushIndex hrange
      obtain rfl := Except.ok.inj h
      refine ⟨hblocks, ?_, hsize, hencoded, ?_, ?_⟩
      · exact foldl_insert_validRecords fastbloom _ memtable
      · rw [rangeFromBlocks, hfirst, hlast, hkeys]
      · rw [flushRecords, List.length_map, Std.ExtTreeMap.length_toList]

/-- What a flush of storable records is about to write. -/
theorem flushTable_ok {fastbloom : FastBloom} {config : StorageConfig} {memtable : Memtable}
    {table : FlushTable} (hstorable : ∀ record ∈ flushRecords memtable, record.Storable)
    (h : flushTable fastbloom config memtable = .ok table) :
    table.codec.Good fastbloom ∧ table.codec.records = flushRecords memtable ∧
      table.encoded = table.codec.encoded ∧
      rangeFromBlocks table.codec.blocks = some (table.smallestKey, table.largestKey) ∧
      table.recordCount = (flushRecords memtable).length := by
  obtain ⟨hblocks, hbloom, hsize, hencoded, hrange, hcount⟩ := flushTable_eq_ok h
  generalize table.codec = codec at hblocks hbloom hsize hencoded hrange ⊢
  obtain ⟨blocks, index, bloom⟩ := codec
  obtain rfl := hbloom
  obtain ⟨hgood, hrecords⟩ := codec_good fastbloom (sorted_flushRecords memtable) hstorable
    hblocks rfl hsize
  exact ⟨hgood, hrecords, hencoded, hrange, hcount⟩

/-- The check of the blocks passes on records of the snapshot with different keys. -/
theorem foldlM_checkSerialized {valid : OrdMap Key MemtableRecord} {records : List MemtableRecord}
    (hfound : ∀ record ∈ records, ∃ expected, valid[record.key]? = some expected ∧
      expected.withKey record.key = record)
    {seen : List Key} (hdistinct : (seen.reverse ++ records.map MemtableRecord.key).Nodup) :
    records.foldlM (checkSerialized valid) seen
      = .ok ((records.map MemtableRecord.key).reverse ++ seen) := by
  induction records generalizing seen with
  | nil => rfl
  | cons record records ih =>
    obtain ⟨expected, hget, hsame⟩ := hfound record List.mem_cons_self
    have hnew : record.key ∉ seen := by
      intro hmem
      exact (List.nodup_append.mp hdistinct).2.2 _ (List.mem_reverse.mpr hmem) _
        List.mem_cons_self rfl
    have hlsn : expected.lsn = record.lsn := by rw [← hsame]; rfl
    have htype : expected.recordType = record.recordType := by rw [← hsame]; rfl
    have hvalue : expected.value = record.value := by rw [← hsame]; rfl
    have hstep : checkSerialized valid seen record = .ok (record.key :: seen) := by
      rw [checkSerialized, hget]
      simp only
      rw [if_neg (by simp [hnew, hlsn, htype, hvalue])]
    rw [List.foldlM_cons, hstep, Exec.ok_bind, ih (fun other hmem =>
      hfound other (List.mem_cons_of_mem record hmem)) (by simpa using hdistinct)]
    simp

/-- A flush of records whose blocks can be built and whose file fits in memory gets to its file
operations. -/
theorem flushTable_of_buildable (fastbloom : FastBloom) (config : StorageConfig) {memtable : Memtable}
    (hne : flushRecords memtable ≠ []) (hbuildable : Buildable (flushRecords memtable))
    (hsize : (SSTableCodec.mk (blocksOf (flushRecords memtable)) [] (buildBloom fastbloom
      (BloomFilterWrapper.withRate fastbloom ((validRecords memtable).size + 10)
        config.bloomFalsePositiveRate) (flushRecords memtable))).encoded.length ≤ isizeMax) :
    ∃ table, flushTable fastbloom config memtable = .ok table := by
  have hsorted := sorted_flushRecords memtable
  have hblocks : flushBlocks (validRecords memtable) = .ok (blocksOf (flushRecords memtable)) := by
    rw [flushBlocks_eq, buildBlocks_ok hsorted hbuildable]
  have hkeys : (flushRecords memtable).map MemtableRecord.key
      = (validRecords memtable).toList.map Prod.fst := by
    rw [flushRecords, List.map_map]
    rfl
  have hchecked : ((blocksOf (flushRecords memtable)).flatMap Block.records).foldlM
      (checkSerialized (validRecords memtable)) []
      = .ok ((flushRecords memtable).map MemtableRecord.key).reverse := by
    have hdistinct : ((flushRecords memtable).map MemtableRecord.key).Nodup :=
      List.pairwise_map.mpr (List.Pairwise.imp (R := fun a b : MemtableRecord => a.key < b.key)
        (fun hlt => ne_of_lt hlt) hsorted)
    have hfound : ∀ record ∈ flushRecords memtable, ∃ expected,
        (validRecords memtable)[record.key]? = some expected ∧
          expected.withKey record.key = record := by
      intro record hmem
      obtain ⟨entry, hentry, rfl⟩ := List.mem_map.mp hmem
      exact ⟨entry.2, (OrdMap.mem_toList_iff _ _ _).mp hentry, rfl⟩
    have hloop : (flushRecords memtable).foldlM (checkSerialized (validRecords memtable)) []
        = .ok (((flushRecords memtable).map MemtableRecord.key).reverse ++ []) :=
      foldlM_checkSerialized hfound hdistinct
    rw [records_blocksOf, hloop, List.append_nil]
  have hcount : ((flushRecords memtable).map MemtableRecord.key).reverse.length
      = (validRecords memtable).size := by
    rw [List.length_reverse, hkeys, List.length_map, Std.ExtTreeMap.length_toList]
  have hindex : flushIndex 0 (blocksOf (flushRecords memtable)) ≠ [] := by
    intro hnil
    have hbounds := map_bounds_flushIndex 0 (blocksOf (flushRecords memtable))
    have hrecords := records_blocksOf (flushRecords memtable)
    rw [hnil, List.map_nil, eq_comm, List.map_eq_nil_iff] at hbounds
    rw [hbounds] at hrecords
    exact hne hrecords.symm
  obtain ⟨range, hrange⟩ := exists_rangeFromIndex hindex
  rw [flushTable, hblocks, Exec.ok_bind, hchecked, Exec.ok_bind, if_neg (not_not.mpr hcount),
    foldl_insert_validRecords]
  dsimp only
  rw [serialize_of_size hsize, Exec.ok_bind]
  dsimp only
  rw [hrange]
  exact ⟨_, rfl⟩

end CereDB.Storage

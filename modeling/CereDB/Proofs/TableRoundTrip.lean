import CereDB.Proofs.CompactionMerge

/-!
# `CereDB.Proofs.TableRoundTrip`: a table that was written is read back

`blockSpans` reads a sparse index as the source does: a block ends where the next one starts, the
last one at the end of the data section. `SparseIndexEntry.Describes` says that an entry and that
end are right about a run of records. `Good.describes_spans` shows it for every entry of a good
codec, by induction over the blocks behind a front.

`table_round_trip` puts the parts together for the records of a flush or a compaction: the whole
file, its index, and the point lookups.
-/

set_option autoImplicit false

namespace CereDB.Storage

open CereDB.Lib

/-! ### The index and the blocks -/

/-- The index entries, each with the end of its block. -/
def blockSpans (dataBlockEnd : Nat) : List SparseIndexEntry → List (SparseIndexEntry × Nat)
  | [] => []
  | entry :: entries =>
    (entry, (entries.head?.map SparseIndexEntry.blockOffset).getD dataBlockEnd) ::
      blockSpans dataBlockEnd entries

/-- An entry is right about a run of records: the block between its offset and the given end of the
file is decoded to exactly these records. -/
structure SparseIndexEntry.Describes (file : Bytes) (span : SparseIndexEntry × Nat)
    (part : List MemtableRecord) : Prop where
  firstKey : part.head?.map MemtableRecord.key = some span.1.firstKey
  lastKey : part.getLast?.map MemtableRecord.key = some span.1.lastKey
  recordCount : part.length = span.1.recordCount
  decodes : ∀ files, ∃ block,
    FileProg.run fileErrors files Block.asyncDecode (file, span.1.blockOffset)
      = .ok (block, (file, span.2)) ∧ block.data = some part

/-- In a sorted block the bounds are the keys at its ends. -/
theorem Block.Good.head?_key {block : Block} (h : block.Good) (hsorted : KeySorted block.records) :
    block.records.head?.map MemtableRecord.key = some block.firstKey := by
  obtain ⟨first, hfirst, hkey⟩ := h.exists_first
  cases hrecords : block.records with
  | nil =>
    rw [hrecords] at hfirst
    cases hfirst
  | cons head rest =>
    have hle := (h.key_bounds (hrecords ▸ List.mem_cons_self : head ∈ block.records)).1
    rw [hrecords] at hfirst hsorted
    rcases List.mem_cons.mp hfirst with rfl | hrest
    · exact congrArg some hkey
    · have hlt := (List.pairwise_cons.mp hsorted).1 first hrest
      rw [hkey] at hlt
      exact absurd hle (not_le.mpr hlt)

theorem Block.Good.getLast?_key {block : Block} (h : block.Good)
    (hsorted : KeySorted block.records) :
    block.records.getLast?.map MemtableRecord.key = some block.lastKey := by
  obtain ⟨last, hlast, hkey⟩ := h.exists_last
  have hne : block.records ≠ [] := List.ne_nil_of_mem hlast
  obtain ⟨init, final, hrecords⟩ : ∃ init final, block.records = init ++ [final] :=
    ⟨_, _, (List.dropLast_append_getLast hne).symm⟩
  have hfinal : final ∈ block.records := by
    rw [hrecords]
    simp
  have hle := (h.key_bounds hfinal).2
  rw [hrecords] at hlast hsorted
  rw [hrecords, List.getLast?_concat]
  rcases List.mem_append.mp hlast with hinit | hfinal
  · have hlt := (List.pairwise_append.mp hsorted).2.2 last hinit final List.mem_cons_self
    rw [hkey] at hlt
    exact absurd hle (not_le.mpr hlt)
  · rw [List.mem_singleton.mp hfinal] at hkey
    exact congrArg some hkey

namespace SSTableCodec

variable {fastbloom : FastBloom} {codec : SSTableCodec}

theorem Good.sorted_block (h : codec.Good fastbloom) {block : Block} (hmem : block ∈ codec.blocks) :
    KeySorted block.records :=
  List.Pairwise.sublist (List.sublist_flatten_of_mem (List.mem_map_of_mem hmem))
    (by have hsorted := h.sorted; rw [records, List.flatMap_def] at hsorted; exact hsorted)

/-- The block behind a front of the data section is decoded where it stands, up to its end. -/
theorem Good.run_block (h : codec.Good fastbloom) {front back : List Block} {block : Block}
    (hblocks : codec.blocks = front ++ block :: back) (files : String → Option Bytes) :
    FileProg.run fileErrors files Block.asyncDecode (codec.encoded, (dataSection front).length)
      = .ok ({ block with offset := 0 },
          (codec.encoded, (dataSection front).length + block.encode.length)) := by
  refine FileParse.run_at (h.block_mem hblocks).parses files codec.encoded (dataSection front)
    (dataSection back ++ indexSection codec.blocks ++ codec.bloom.encode ++ codec.footer.encode)
    ?_ rfl
  have hsplit : dataSection codec.blocks
      = dataSection front ++ (block.encode ++ dataSection back) := by
    rw [hblocks, dataSection_append]
    rfl
  rw [encoded, hsplit]
  simp only [List.append_assoc]

/-- The entries of the blocks behind a front describe their records. The end of a block is the
offset of the next entry because `indexEntries` adds up the lengths. -/
theorem Good.describes_spans (h : codec.Good fastbloom) (front : List Block) {back : List Block}
    (hblocks : codec.blocks = front ++ back) :
    List.Forall₂ (SparseIndexEntry.Describes codec.encoded)
      (blockSpans codec.footer.dataBlockEnd (indexEntries (dataSection front).length back))
      (back.map Block.records) := by
  induction back generalizing front with
  | nil => exact .nil
  | cons block back ih =>
    have hgood := h.block_mem hblocks
    have hsorted : KeySorted block.records :=
      h.sorted_block (by rw [hblocks]; exact List.mem_append_right _ List.mem_cons_self)
    have hrest := ih (front ++ [block]) (by rw [hblocks, List.append_assoc]; rfl)
    rw [length_dataSection_concat] at hrest
    have hstop : ((indexEntries ((dataSection front).length + block.encode.length) back).head?.map
        SparseIndexEntry.blockOffset).getD codec.footer.dataBlockEnd
        = (dataSection front).length + block.encode.length := by
      cases back with
      | nil =>
        show (dataSection codec.blocks).length = _
        rw [hblocks, length_dataSection_concat]
      | cons next back => rfl
    rw [indexEntries, blockSpans, List.map_cons, hstop]
    refine .cons ?_ hrest
    exact {
      firstKey := hgood.head?_key hsorted
      lastKey := hgood.getLast?_key hsorted
      recordCount := hgood.recordCount.symm
      decodes := fun files => ⟨_, h.run_block hblocks files, hgood.data⟩ }

end SSTableCodec

/-! ### The round trip -/

/-- The lookup in a sorted list finds the record of the key. -/
theorem tableGet_eq_some_iff {records : List MemtableRecord} (hsorted : KeySorted records)
    {key : Key} {record : MemtableRecord} :
    tableGet records key = some record ↔ record ∈ records ∧ record.key = key := by
  constructor
  · intro h
    have hkey := List.find?_some h
    exact ⟨List.mem_of_find?_eq_some h, beq_iff_eq.mp hkey⟩
  · rintro ⟨hmem, rfl⟩
    induction records with
    | nil => cases hmem
    | cons head rest ih =>
      obtain ⟨hhead, hrest⟩ := List.pairwise_cons.mp hsorted
      rcases List.mem_cons.mp hmem with rfl | hmem
      · rw [tableGet, List.find?_cons, beq_self_eq_true]
      · have hne : (head.key == record.key) = false :=
          beq_eq_false_iff_ne.mpr (hhead record hmem).ne
        rw [tableGet, List.find?_cons, hne]
        exact ih hrest hmem

/-- A table is read back from its file. The records may be any sorted ones whose encoding fits the
32-bit lengths of the format, which a record within the frame limit of the log always does. -/
theorem table_round_trip (fastbloom : FastBloom) (files : String → Option Bytes)
    (sstable : SSTableMeta) (expectedItems : Nat) (rate : Rate) {records : List MemtableRecord}
    {blocks : List Block} {index : List SparseIndexEntry} {encoded : Bytes} {footer : SSTableFooter}
    (hne : records ≠ []) (hsorted : KeySorted records)
    (hstorable : ∀ record ∈ records, record.Storable) (hblocks : buildBlocks records = .ok blocks)
    (hserialize : SSTableCodec.serialize ⟨blocks, index, buildBloom fastbloom
      (BloomFilterWrapper.withRate fastbloom expectedItems rate) records⟩ = .ok (encoded, footer))
    (hfile : files sstable.path = some encoded) :
    ∃ codec, FileProg.result fileErrors files (readTable sstable) = .ok codec ∧
      codec.records = records ∧
      codec.index.head?.map SparseIndexEntry.blockOffset = some 0 ∧
      (∃ parts, parts.flatten = records ∧ List.Forall₂ (SparseIndexEntry.Describes encoded)
        (blockSpans footer.dataBlockEnd codec.index) parts) ∧
      ∀ key sequenceNumber, ∃ found,
        FileProg.result fileErrors files
          (ReadManager.getFromSingleSstable fastbloom sstable key sequenceNumber) = .ok found ∧
        ∀ record, found = some record ↔ record ∈ records ∧ record.key = key := by
  obtain ⟨hsize, rfl, rfl⟩ := serialize_ok hserialize
  obtain ⟨hgood, hrecords⟩ := codec_good fastbloom hsorted hstorable hblocks rfl hsize
  refine ⟨_, hgood.result_readTable hfile, ?_, ?_, ?_, ?_⟩
  · rw [← hrecords]
    exact flatMap_records_offset blocks
  · cases blocks with
    | nil => exact absurd hrecords.symm hne
    | cons block blocks => rfl
  · refine ⟨blocks.map Block.records, ?_, hgood.describes_spans [] rfl⟩
    rw [← hrecords, SSTableCodec.records, List.flatMap_def]
  · intro key sequenceNumber
    obtain ⟨cur, hrun⟩ := ReadManager.run_getFromSingleSstable files hgood hfile key
      sequenceNumber ([], 0)
    refine ⟨tableGet records key, ?_, fun record => tableGet_eq_some_iff hsorted⟩
    rw [FileProg.result, hrun, hrecords]
    rfl

/-- A put and a delete, and the table a compaction would write for them. -/
def putAndDelete : List MemtableRecord := [⟨.put, 1, [97], [118]⟩, ⟨.delete, 2, [98], []⟩]

def putAndDeleteTable : SSTableCodec :=
  ⟨blocksOf putAndDelete, [],
    buildBloom .acceptAll (.withRate .acceptAll 2 (.value (1 / 100))) putAndDelete⟩

theorem round_trip_putAndDelete : ∃ codec,
    FileProg.result fileErrors (fun _ => some putAndDeleteTable.encoded)
      (readTable (SSTableMeta.mk 1 0 "t" 2 [97] [98] 0 0)) = .ok codec ∧
    codec.records = putAndDelete := by
  have hstorable : ∀ record ∈ putAndDelete,
      record.recordLength record.key < u32Limit ∧ record.lsn < u64Limit := by decide +kernel
  have hsize : putAndDeleteTable.encoded.length ≤ isizeMax := by decide +kernel
  have hserialize : putAndDeleteTable.serialize
      = .ok (putAndDeleteTable.encoded, putAndDeleteTable.footer) := by
    rw [SSTableCodec.serialize, allocate, if_pos hsize]
    rfl
  obtain ⟨codec, hread, hrecords, -⟩ := table_round_trip .acceptAll
    (fun _ => some putAndDeleteTable.encoded) (SSTableMeta.mk 1 0 "t" 2 [97] [98] 0 0) 2
    (.value (1 / 100)) (by decide) (by decide +kernel)
    (fun record hmem => ⟨(hstorable record hmem).1, (hstorable record hmem).2⟩)
    (buildBlocks_ok (by decide +kernel) (by decide +kernel)) hserialize rfl
  exact ⟨codec, hread, hrecords⟩

end CereDB.Storage

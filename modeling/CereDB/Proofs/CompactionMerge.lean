import CereDB.Proofs.CompactionInputs

/-!
# `CereDB.Proofs.CompactionMerge`: what a compaction writes

`get?_mergedByKey` says that the merge keeps the newest version of every key, in the order of
versions that scans use. `planCompaction_ok` puts a compaction together: its inputs are closed
(`ClosedInputs`), its outputs are built from consecutive parts of one sorted list of winners, and
the winner of a key is the newest of its input versions, unless it is a tombstone that no table
outside the inputs can need.
-/

set_option autoImplicit false

namespace CereDB.Storage

open CereDB.Lib ReadManager

/-! ### The merge -/

theorem chooseWinner_eq (current candidate : MemtableRecord) :
    some (chooseWinner current candidate)
      = better MemtableRecord.rank (some current) (some candidate) := by
  have hnewer : current.rank < candidate.rank ↔ isNewerRecord candidate current = true :=
    (isNewerRecord_iff candidate current).symm
  simp only [better, hnewer, chooseWinner, isNewerRecord]
  by_cases hlt : current.lsn < candidate.lsn
  · simp [hlt]
  · by_cases hgt : candidate.lsn < current.lsn
    · have hne : candidate.lsn ≠ current.lsn := hgt.ne
      simp [hlt, hgt, hne]
    · have heq : candidate.lsn = current.lsn := by omega
      simp only [heq]
      cases current.recordType <;> cases candidate.recordType <;> simp

/-- The records of a key compete, the others leave it alone. -/
theorem get?_foldl_mergeRecord (records : List MemtableRecord) (merged : OrdMap Key MemtableRecord)
    (key : Key) :
    (records.foldl mergeRecord merged)[key]?
      = keepBest MemtableRecord.rank merged[key]? (records.filter fun record => record.key == key) := by
  induction records generalizing merged with
  | nil => rfl
  | cons record records ih =>
    rw [List.foldl_cons, ih, List.filter_cons, mergeRecord, OrdMap.get?_insert]
    by_cases hkey : record.key = key
    · rw [if_pos hkey, beq_iff_eq.mpr hkey]
      simp only [if_true]
      rw [keepBest_cons, ← hkey]
      cases hexisting : merged[record.key]? with
      | none => rfl
      | some existing =>
        simp only
        rw [chooseWinner_eq]
    · rw [if_neg hkey, beq_eq_false_iff_ne.mpr hkey]
      rfl

theorem key_of_get?_mergedByKey {sstables : List SSTableCodec} {key : Key}
    {record : MemtableRecord} (h : (mergedByKey sstables)[key]? = some record) :
    record.key = key := by
  refine key_of_mergedByKey ?_ h
  intro k r hr
  rw [OrdMap.get?_empty] at hr
  cases hr

theorem mem_survivors {sstables : List SSTableCodec} {protectedRanges : Option (List (Key × Key))}
    {winner : MemtableRecord} : winner ∈ survivors sstables protectedRanges ↔
      (mergedByKey sstables)[winner.key]? = some winner ∧
        reclaimable protectedRanges winner = false := by
  rw [survivors, List.mem_filter, List.mem_map, Bool.not_eq_true']
  refine and_congr_left fun _ => ?_
  constructor
  · rintro ⟨⟨key, record⟩, hmem, rfl⟩
    have hget := (OrdMap.mem_toList_iff _ key record).mp hmem
    rw [key_of_get?_mergedByKey hget]
    exact hget
  · intro hget
    exact ⟨(winner.key, winner), (OrdMap.mem_toList_iff _ _ _).mpr hget, rfl⟩

/-! ### Reading the inputs -/

section Read
variable {fastbloom : FastBloom} {files : String → Option Bytes} {contents : Contents}

/-- The whole of a good codec is read back, with its blocks at offset 0 and the index of the file. -/
theorem SSTableCodec.Good.result_readTable {codec : SSTableCodec} (h : codec.Good fastbloom)
    {sstable : SSTableMeta} (hfile : files sstable.path = some codec.encoded) :
    FileProg.result fileErrors files (readTable sstable)
      = .ok { blocks := codec.blocks.map fun block => { block with offset := 0 }
              index := indexEntries 0 codec.blocks
              bloom := codec.bloom } := by
  obtain ⟨pos, hsections⟩ := h.run_deserializeSections files 0
  obtain ⟨blocks, pos', hblocks, rfl⟩ := run_getBlocks files h [] (List.nil_append _).symm pos
  have hrun : FileProg.run fileErrors files (readTable sstable) ([], 0) = _ :=
    (FileProg.run_bind_ok (FileProg.run_open hfile _)).trans
      ((FileProg.run_bind_ok hsections).trans (FileProg.run_bind_ok hblocks))
  rw [FileProg.result, hrun]
  rfl

theorem flatMap_records_offset (blocks : List Block) :
    (blocks.map fun block => { block with offset := 0 }).flatMap Block.records
      = blocks.flatMap Block.records := by
  rw [List.flatMap_map]
  rfl

theorem SSTableMeta.Written.result_readTable {sstable : SSTableMeta}
    {records : List MemtableRecord} (h : sstable.Written fastbloom files records) :
    ∃ codec, FileProg.result fileErrors files (readTable sstable) = .ok codec ∧
      codec.blocks.flatMap Block.records = records := by
  obtain ⟨codec, hgood, rfl, hfile, -⟩ := h.file
  exact ⟨_, hgood.result_readTable hfile, flatMap_records_offset codec.blocks⟩

/-- The merged records are those of the inputs in order. -/
theorem flatMap_of_readTables {inputs : List SSTableMeta} {codecs : List SSTableCodec}
    (hwritten : TablesWritten fastbloom files contents inputs)
    (h : List.Forall₂ (fun sstable codec =>
      FileProg.result fileErrors files (readTable sstable) = .ok codec) inputs codecs) :
    (codecs.flatMap fun codec => codec.blocks.flatMap Block.records) = inputs.flatMap contents := by
  induction h with
  | nil => rfl
  | @cons sstable codec inputs codecs hread _ ih =>
    obtain ⟨codec', hread', hrecords⟩ := (hwritten sstable List.mem_cons_self).result_readTable
    obtain rfl : codec' = codec := Except.ok.inj (hread'.symm.trans hread)
    rw [List.flatMap_cons, List.flatMap_cons, hrecords,
      ih fun t ht => hwritten t (List.mem_cons_of_mem sstable ht)]

theorem filter_key_flatMap {sstables : List SSTableMeta}
    (hsorted : ∀ sstable ∈ sstables, KeySorted (contents sstable)) (key : Key) :
    (sstables.flatMap contents).filter (fun record => record.key == key)
      = tableVersions contents sstables key := by
  induction sstables with
  | nil => rfl
  | cons sstable sstables ih =>
    have hhere := filter_key_eq (hsorted sstable List.mem_cons_self) key fun _ => true
    simp only [Bool.and_true, List.filter_true] at hhere
    rw [List.flatMap_cons, List.filter_append, hhere,
      ih fun t ht => hsorted t (List.mem_cons_of_mem sstable ht), tableVersions, tableVersions,
      List.filterMap_cons]
    cases tableGet (contents sstable) key <;> rfl

theorem mapM_protectedRange {sstables : List SSTableMeta}
    (hwritten : TablesWritten fastbloom files contents sstables) :
    sstables.mapM (protectedRange files) = .ok (sstables.map SSTableMeta.range) := by
  induction sstables with
  | nil => rfl
  | cons sstable sstables ih =>
    have hhere : protectedRange files sstable = .ok sstable.range := by
      rw [protectedRange, (hwritten sstable List.mem_cons_self).computeMetaRange_eq]
      rfl
    rw [List.mapM_cons, hhere, ih fun t ht => hwritten t (List.mem_cons_of_mem sstable ht)]
    rfl

end Read

/-! ### The plan -/

/-- A tombstone that no table outside the inputs can need. -/
def Reclaimed (levels : Levels) (inputs : List SSTableMeta) (winner : MemtableRecord) : Prop :=
  winner.recordType = .delete ∧ ∀ sstable ∈ levels.all,
    (∀ input ∈ inputs, input.fileId ≠ sstable.fileId) →
      winner.key < sstable.smallestKey ∨ sstable.largestKey < winner.key

/-- What a compaction writes: consecutive parts of one sorted list of winners. -/
structure CompactionPlan.Merges (fastbloom : FastBloom) (config : StorageConfig)
    (contents : Contents) (levels : Levels) (plan : CompactionPlan)
    (winners : List MemtableRecord) : Prop where
  sorted : KeySorted winners
  /-- A winner is the newest input version of its key. -/
  newest : ∀ winner ∈ winners,
    (tableVersions contents plan.inputs winner.key).argmax MemtableRecord.rank = some winner
  /-- A newest input version that does not win is a tombstone nothing needs. -/
  complete : ∀ key winner,
    (tableVersions contents plan.inputs key).argmax MemtableRecord.rank = some winner →
      winner ∈ winners ∨ Reclaimed levels plan.inputs winner
  parts : ∃ parts : List (List MemtableRecord), parts.flatten = winners ∧
    (∀ part ∈ parts, part ≠ []) ∧
    List.Forall₂ (fun part output => buildOutput fastbloom part config = .ok output) parts plan.outputs

theorem planCompaction_ok {fastbloom : FastBloom} {files : String → Option Bytes}
    {contents : Contents} {config : StorageConfig} {levels : Levels} {level : Nat}
    {plan : CompactionPlan} (hwritten : TablesWritten fastbloom files contents levels.all)
    (hdistinct : (levels.files level).Pairwise fun a b => a.fileId ≠ b.fileId)
    (h : planCompaction files fastbloom config levels level = .ok plan) :
    (∃ range, ClosedInputs levels level plan.inputs range) ∧
      ∃ winners, plan.Merges fastbloom config contents levels winners := by
  rw [planCompaction] at h
  obtain ⟨inputs, hinputs, h⟩ := Exec.bind_eq_ok h
  obtain ⟨codecs, hcodecs, h⟩ := Exec.bind_eq_ok h
  obtain ⟨range, hclosed⟩ := selectInputs_ok hwritten hdistinct hinputs
  have hinputsWritten : TablesWritten fastbloom files contents inputs := by
    intro sstable hmem
    refine hwritten sstable (mem_all.mpr ?_)
    rcases hclosed.subset sstable hmem with hin | hin
    · exact ⟨level, mem_files.mp hin⟩
    · exact ⟨level + 1, mem_files.mp hin⟩
  have huntouched : TablesWritten fastbloom files contents (levels.all.filter fun sstable =>
      !inputs.any fun input => input.fileId == sstable.fileId) :=
    fun sstable hmem => hwritten sstable (List.mem_of_mem_filter hmem)
  simp only [mapM_protectedRange huntouched] at h
  obtain ⟨ranges, hranges, h⟩ := Exec.bind_eq_ok h
  obtain rfl := Except.ok.inj hranges
  obtain ⟨merged, hmerged, h⟩ := Exec.bind_eq_ok h
  obtain ⟨outputs, houtputs, h⟩ := Exec.bind_eq_ok h
  obtain rfl := Except.ok.inj h
  refine ⟨⟨range, hclosed⟩, ?_⟩
  rw [mergeFilesWithReclamation] at hmerged
  obtain ⟨blocks, hblocks, hmerged⟩ := Exec.bind_eq_ok hmerged
  obtain rfl := Except.ok.inj hmerged
  generalize hprotected : (levels.all.filter fun sstable =>
      !inputs.any fun input => input.fileId == sstable.fileId).map SSTableMeta.range = ranges
    at hblocks houtputs
  have hsorted := sorted_survivors codecs (some ranges)
  have hrecords : blocks.flatMap Block.records = survivors codecs (some ranges) := by
    rw [eq_blocksOf_of_buildBlocks hsorted hblocks, records_blocksOf]
  have hget : ∀ key, (mergedByKey codecs)[key]?
      = (tableVersions contents inputs key).argmax MemtableRecord.rank := by
    intro key
    rw [mergedByKey, flatMap_of_readTables hinputsWritten (Exec.mapM_eq_ok hcodecs),
      get?_foldl_mergeRecord, OrdMap.get?_empty, keepBest_none,
      filter_key_flatMap fun t ht => (hinputsWritten t ht).stores.sorted]
  rw [partitionOutput_eq, hrecords] at houtputs
  refine ⟨survivors codecs (some ranges), hsorted, ?_, ?_, ?_⟩
  · intro winner hwinner
    rw [← hget]
    exact (mem_survivors.mp hwinner).1
  · intro key winner hwinner
    rw [← hget] at hwinner
    have hkey := key_of_get?_mergedByKey hwinner
    cases hreclaim : reclaimable (some ranges) winner with
    | false => exact .inl (mem_survivors.mpr ⟨by rw [hkey]; exact hwinner, hreclaim⟩)
    | true =>
      rw [reclaimable, Bool.and_eq_true, beq_iff_eq, Bool.not_eq_true', List.any_eq_false]
        at hreclaim
      refine .inr ⟨hreclaim.1, ?_⟩
      intro sstable hmem hother
      -- the range of the table is one of the protected ones
      have hrange : sstable.range ∈ ranges := by
        rw [← hprotected]
        refine List.mem_map.mpr ⟨sstable, List.mem_filter.mpr ⟨hmem, ?_⟩, rfl⟩
        rw [Bool.not_eq_true', List.any_eq_false]
        intro input hinput heq
        exact hother input hinput (beq_iff_eq.mp heq)
      have hout := hreclaim.2 sstable.range hrange
      rw [Bool.and_eq_true, decide_eq_true_iff, decide_eq_true_iff, not_and_or, not_le, not_le]
        at hout
      exact hout
  · exact ⟨_, flatten_chunks _,
      fun part hpart => ne_nil_of_mem_chunks (partitionFull_nil config) hpart,
      Exec.mapM_eq_ok houtputs⟩

/-! ### The files -/

/-- The table of a flush, once its file is written. -/
theorem written_flushMeta {fastbloom : FastBloom} {config : StorageConfig} {memtable : Memtable}
    {table : FlushTable} (hstorable : ∀ record ∈ flushRecords memtable, record.Storable)
    (h : flushTable fastbloom config memtable = .ok table) {files : String → Option Bytes}
    {fileId : Nat} (hfile : files (tablePath 0 fileId) = some table.encoded) :
    (flushMeta fileId table).Written fastbloom files (flushRecords memtable) := by
  obtain ⟨hgood, hrecords, hencoded, hrange, hcount⟩ := flushTable_ok hstorable h
  rw [hencoded] at hfile
  exact ⟨⟨table.codec, hgood, hrecords, hfile, hrange⟩, hcount⟩

/-- An output of a compaction, once its file is written. -/
theorem written_outputMeta {fastbloom : FastBloom} {config : StorageConfig}
    {part : List MemtableRecord} {codec : SSTableCodec} (hsorted : KeySorted part)
    (hstorable : ∀ record ∈ part, record.Storable)
    (hbuild : buildOutput fastbloom part config = .ok codec) {encoded : Bytes}
    {footer : SSTableFooter} (hserialize : codec.serialize = .ok (encoded, footer))
    {level fileId : Nat} {output : SSTableMeta}
    (hmeta : outputMeta level fileId codec footer = .ok output) :
    (output.level = level ∧ output.fileId = fileId ∧ output.path = tablePath level fileId) ∧
      ∀ files : String → Option Bytes, files (tablePath level fileId) = some encoded →
        output.Written fastbloom files part := by
  rw [buildOutput] at hbuild
  obtain ⟨blocks, hblocks, hbuild⟩ := Exec.bind_eq_ok hbuild
  obtain rfl := Except.ok.inj hbuild
  obtain ⟨hsize, rfl, -⟩ := serialize_ok hserialize
  obtain ⟨hgood, hrecords⟩ := codec_good fastbloom hsorted hstorable hblocks rfl hsize
  rw [outputMeta] at hmeta
  split at hmeta
  · cases hmeta
  · rename_i smallestKey largestKey hrange
    obtain rfl := Except.ok.inj hmeta
    refine ⟨⟨rfl, rfl, rfl⟩, ?_⟩
    intro files hfile
    refine ⟨⟨_, hgood, hrecords, hfile, hrange⟩, ?_⟩
    show (blocks.map Block.recordCount).sum = part.length
    rw [← hrecords, SSTableCodec.records, List.length_flatMap]
    exact congrArg List.sum (List.map_congr_left fun block hblock =>
      (hgood.blocks block hblock).recordCount)

end CereDB.Storage

import CereDB.Proofs.CompactionMerge

/-!
# `CereDB.Proofs.CompactionOutputs`: from the inputs of a compaction to its output tables

* `merge_keeps_newest`: the merged table holds the newest record of every key of the inputs, except
  for the tombstones that no protected range needs. Where no two records with one key and one
  sequence number differ, only the set of input records counts.
* `partition_lossless_bounded`: the partitions are the merged records in order, each with a key
  range behind that of the one before, and they are cut exactly where the next record would exceed
  the target size.
* `overlap_closure_complete`: the selection of the inputs ends, no table that is left behind meets
  its hull, and so no output meets a table of its level.
-/

set_option autoImplicit false

namespace CereDB.Storage

open CereDB.Lib ReadManager

/-! ### The newest record of a key -/

/-- The records of the tables, in the order the merge visits them. -/
def inputRecords (sstables : List SSTableCodec) : List MemtableRecord :=
  sstables.flatMap SSTableCodec.records

/-- The record is one of the largest sequence number for its key, and a delete when one ties. -/
structure Newest (records : List MemtableRecord) (record : MemtableRecord) : Prop where
  mem : record ∈ records
  lsn : ∀ other ∈ records, other.key = record.key → other.lsn ≤ record.lsn
  tie : ∀ other ∈ records, other.key = record.key → other.lsn = record.lsn →
    other.recordType = .delete → record.recordType = .delete

/-- A delete whose key lies in no protected range. -/
def Droppable (protectedRanges : List (Key × Key)) (record : MemtableRecord) : Prop :=
  record.recordType = .delete ∧
    ∀ range ∈ protectedRanges, ¬ (range.1 ≤ record.key ∧ record.key ≤ range.2)

/-- Records of one key and one sequence number are equal. -/
def Agreeing (records : List MemtableRecord) : Prop :=
  ∀ a ∈ records, ∀ b ∈ records, a.key = b.key → a.lsn = b.lsn → a = b

section
variable {sstables sstables' : List SSTableCodec} {protectedRanges : List (Key × Key)}
  {record : MemtableRecord}

theorem reclaimable_iff : reclaimable (some protectedRanges) record = true ↔
    Droppable protectedRanges record := by
  rw [reclaimable, Bool.and_eq_true, beq_iff_eq, Droppable]
  simp

theorem get?_mergedByKey (sstables : List SSTableCodec) (key : Key) :
    (mergedByKey sstables)[key]?
      = ((inputRecords sstables).filter fun record => record.key == key).argmax
          MemtableRecord.rank := by
  rw [mergedByKey, get?_foldl_mergeRecord, OrdMap.get?_empty, keepBest_none]
  rfl

/-- The order of versions: no larger sequence number, and no delete that ties with a put. -/
theorem rank_le_iff (a b : MemtableRecord) : a.rank ≤ b.rank ↔
    a.lsn ≤ b.lsn ∧ (a.lsn = b.lsn → a.recordType = .delete → b.recordType = .delete) := by
  rw [← not_lt, ← isNewerRecord_iff, Bool.not_eq_true, isNewerRecord]
  cases a.recordType <;> cases b.recordType <;> simp

/-- The merge keeps a newest record. -/
theorem newest_of_get?_mergedByKey (h : (mergedByKey sstables)[record.key]? = some record) :
    Newest (inputRecords sstables) record := by
  rw [get?_mergedByKey] at h
  have hmem := List.mem_filter.mp (List.argmax_mem h)
  have hle : ∀ other ∈ inputRecords sstables, other.key = record.key →
      other.rank ≤ record.rank := fun other hother hkey =>
    List.le_of_mem_argmax (List.mem_filter.mpr
      ⟨hother, show (other.key == record.key) = true from beq_iff_eq.mpr hkey⟩) h
  exact {
    mem := hmem.1
    lsn := fun other hother hkey => ((rank_le_iff other record).mp (hle other hother hkey)).1
    tie := fun other hother hkey => ((rank_le_iff other record).mp (hle other hother hkey)).2 }

/-- Every key of the inputs has a winner. -/
theorem exists_get?_mergedByKey (h : record ∈ inputRecords sstables) :
    ∃ winner, (mergedByKey sstables)[record.key]? = some winner ∧ winner.key = record.key := by
  cases hget : (mergedByKey sstables)[record.key]? with
  | some winner => exact ⟨winner, rfl, key_of_get?_mergedByKey hget⟩
  | none =>
    rw [get?_mergedByKey, List.argmax_eq_none, List.filter_eq_nil_iff] at hget
    exact absurd (beq_self_eq_true record.key) (hget record h)

/-! ### The inputs as a set -/

/-- Where the records agree, a newest record is the only one of its key. -/
theorem Newest.unique {records : List MemtableRecord} {other : MemtableRecord}
    (hagree : Agreeing records) (h : Newest records record) (hother : Newest records other)
    (hkey : other.key = record.key) : other = record :=
  hagree other hother.mem record h.mem hkey
    (le_antisymm (h.lsn other hother.mem hkey) (hother.lsn record h.mem hkey.symm))

/-- Where the records agree, the merge keeps exactly the newest ones. -/
theorem get?_mergedByKey_iff (hagree : Agreeing (inputRecords sstables)) :
    (mergedByKey sstables)[record.key]? = some record ↔ Newest (inputRecords sstables) record := by
  refine ⟨newest_of_get?_mergedByKey, fun hnewest => ?_⟩
  obtain ⟨winner, hget, hkey⟩ := exists_get?_mergedByKey hnewest.mem
  have hwinner : Newest (inputRecords sstables) winner :=
    newest_of_get?_mergedByKey (by rw [hkey]; exact hget)
  rw [hget, hnewest.unique hagree hwinner hkey]

/-- Two sorted lists with the same records are equal. -/
theorem KeySorted.eq_of_mem_iff {records records' : List MemtableRecord} (h : KeySorted records)
    (h' : KeySorted records') (hsame : ∀ record, record ∈ records ↔ record ∈ records') :
    records = records' := by
  have hnodup {list : List MemtableRecord} (hlist : KeySorted list) : list.Nodup :=
    List.Pairwise.imp (R := fun a b : MemtableRecord => a.key < b.key) (fun hlt heq => by
      rw [heq] at hlt
      exact lt_irrefl _ hlt) hlist
  refine List.Perm.eq_of_pairwise (fun a b _ _ hab hba => absurd hab (lt_asymm hba)) h h' ?_
  exact (List.perm_ext_iff_of_nodup (hnodup h) (hnodup h')).mpr hsame

theorem Newest.congr {records records' : List MemtableRecord}
    (hsame : ∀ record, record ∈ records ↔ record ∈ records') (h : Newest records record) :
    Newest records' record where
  mem := (hsame record).mp h.mem
  lsn other hother := h.lsn other ((hsame other).mpr hother)
  tie other hother := h.tie other ((hsame other).mpr hother)

/-- The survivors are a function of the set of input records. -/
theorem survivors_congr (hagree : Agreeing (inputRecords sstables))
    (hsame : ∀ record, record ∈ inputRecords sstables ↔ record ∈ inputRecords sstables')
    (ranges : Option (List (Key × Key))) :
    survivors sstables ranges = survivors sstables' ranges := by
  have hagree' : Agreeing (inputRecords sstables') := fun a ha b hb =>
    hagree a ((hsame a).mpr ha) b ((hsame b).mpr hb)
  refine (sorted_survivors sstables ranges).eq_of_mem_iff (sorted_survivors sstables' ranges) ?_
  intro winner
  rw [mem_survivors, mem_survivors, get?_mergedByKey_iff hagree, get?_mergedByKey_iff hagree']
  exact and_congr_left fun _ => ⟨Newest.congr hsame, Newest.congr fun record => (hsame record).symm⟩

/-! ### The merged table -/

theorem records_mergeFiles {fastbloom : FastBloom} {config : StorageConfig} {merged : SSTableCodec}
    {ranges : Option (List (Key × Key))}
    (h : mergeFilesWithReclamation fastbloom sstables config ranges = .ok merged) :
    merged.records = survivors sstables ranges := by
  obtain ⟨blocks, hblocks, h⟩ := Exec.bind_eq_ok h
  obtain rfl := Except.ok.inj h
  show blocks.flatMap Block.records = survivors sstables ranges
  rw [eq_blocksOf_of_buildBlocks (sorted_survivors sstables ranges) hblocks, records_blocksOf]

end

/-- A merge keeps exactly the newest record of every key of its inputs, without the tombstones that
no protected range needs. Where the input records agree, the result does not depend on the order of
the inputs or on how they were split into tables. -/
theorem merge_keeps_newest (fastbloom : FastBloom) (config : StorageConfig)
    (sstables : List SSTableCodec) (protectedRanges : List (Key × Key)) :
    (∀ merged, mergeFilesWithReclamation fastbloom sstables config (some protectedRanges)
        = .ok merged →
      KeySorted merged.records ∧
      (∀ record ∈ merged.records, Newest (inputRecords sstables) record ∧
        ¬ Droppable protectedRanges record) ∧
      ∀ record ∈ inputRecords sstables, ∃ winner, winner.key = record.key ∧
        Newest (inputRecords sstables) winner ∧
        (winner ∈ merged.records ∨ Droppable protectedRanges winner ∧
          ∀ kept ∈ merged.records, kept.key ≠ record.key)) ∧
    (Agreeing (inputRecords sstables) → ∀ sstables' : List SSTableCodec,
      (∀ record, record ∈ inputRecords sstables ↔ record ∈ inputRecords sstables') →
      mergeFilesWithReclamation fastbloom sstables' config (some protectedRanges)
        = mergeFilesWithReclamation fastbloom sstables config (some protectedRanges)) := by
  constructor
  · intro merged hmerged
    rw [records_mergeFiles hmerged]
    refine ⟨sorted_survivors sstables _, fun record hrecord => ?_, fun record hrecord => ?_⟩
    · obtain ⟨hget, hkept⟩ := mem_survivors.mp hrecord
      refine ⟨newest_of_get?_mergedByKey hget, fun hdrop => ?_⟩
      rw [reclaimable_iff.mpr hdrop] at hkept
      cases hkept
    · obtain ⟨winner, hget, hkey⟩ := exists_get?_mergedByKey hrecord
      rw [← hkey] at hget ⊢
      refine ⟨winner, rfl, newest_of_get?_mergedByKey hget, ?_⟩
      cases hreclaim : reclaimable (some protectedRanges) winner with
      | false => exact .inl (mem_survivors.mpr ⟨hget, hreclaim⟩)
      | true =>
        refine .inr ⟨reclaimable_iff.mp hreclaim, fun kept hkept hsame => ?_⟩
        obtain ⟨hgetKept, hkeptReclaim⟩ := mem_survivors.mp hkept
        -- One key has one winner, so the kept record would be the dropped one.
        rw [hsame, hget] at hgetKept
        rw [← Option.some.inj hgetKept, hreclaim] at hkeptReclaim
        cases hkeptReclaim
  · intro hagree sstables' hsame
    rw [mergeFilesWithReclamation, mergeFilesWithReclamation, survivors_congr hagree hsame]

/-- Two overlapping tables: the second deletes a key of the first, and one that only it has. -/
def overlappingTables : List SSTableCodec :=
  [⟨blocksOf [⟨.put, 1, [97], [118]⟩, ⟨.put, 2, [98], [119]⟩], [], ⟨0, 1, [0]⟩⟩,
    ⟨blocksOf [⟨.delete, 3, [97], []⟩, ⟨.delete, 4, [99], []⟩], [], ⟨0, 1, [0]⟩⟩]

/-- With the last key protected, the first tombstone is dropped and the second kept, in either order
of the tables. -/
theorem merge_overlappingTables : ∃ merged,
    mergeFilesWithReclamation .acceptAll overlappingTables .default (some [([99], [99])])
      = .ok merged ∧
    KeySorted merged.records ∧
    merged.records = [⟨.put, 2, [98], [119]⟩, ⟨.delete, 4, [99], []⟩] ∧
    mergeFilesWithReclamation .acceptAll overlappingTables.reverse .default (some [([99], [99])])
      = .ok merged := by
  obtain ⟨merged, hmerged⟩ : ∃ merged,
      mergeFilesWithReclamation .acceptAll overlappingTables .default (some [([99], [99])])
        = .ok merged := ⟨_, rfl⟩
  have hrecords : merged.records = [⟨.put, 2, [98], [119]⟩, ⟨.delete, 4, [99], []⟩] := by
    rw [records_mergeFiles hmerged]
    decide +kernel
  have hmerge := merge_keeps_newest .acceptAll .default overlappingTables [([99], [99])]
  refine ⟨merged, hmerged, (hmerge.1 merged hmerged).1, hrecords, ?_⟩
  have hagree : Agreeing (inputRecords overlappingTables) := by
    unfold Agreeing
    decide +kernel
  rw [hmerge.2 hagree overlappingTables.reverse fun record => List.Perm.mem_iff (by decide +kernel)]
  exact hmerged

/-! ### The partitions -/

/-- The range of the blocks of a list: its first and its last key. -/
theorem rangeFromBlocks_blocksOf {records : List MemtableRecord} {first last : MemtableRecord}
    (hfirst : records.head? = some first) (hlast : records.getLast? = some last) :
    rangeFromBlocks (blocksOf records) = some (first.key, last.key) := by
  have hflat : (chunks blockFull records).flatten = records := flatten_chunks records
  have hne : ∀ chunk ∈ chunks blockFull records, chunk ≠ [] := fun chunk hchunk =>
    ne_nil_of_mem_chunks blockFull_nil hchunk
  rw [blocksOf]
  rcases List.eq_nil_or_concat (chunks blockFull records) with hnil | ⟨front, final, hsnoc⟩
  · rw [← hflat, hnil] at hfirst
    cases hfirst
  · rw [List.concat_eq_append] at hsnoc
    -- The last chunk ends with the last record.
    have hfinal : final.getLast? = some last := by
      rw [← hlast, ← hflat, hsnoc, List.flatten_append, List.flatten_singleton]
      exact (List.getLast?_append_of_ne_nil _ (hne final (by rw [hsnoc]; simp))).symm
    rw [hsnoc, layout_append, rangeFromBlocks, List.getLast?_concat]
    cases front with
    | nil =>
      have hhead : final.head? = some first := by
        rw [← hfirst, ← hflat, hsnoc, List.nil_append, List.flatten_singleton]
      simp [layout, blockOf, hhead, hfinal]
    | cons chunk front =>
      have hhead : chunk.head? = some first := by
        rw [← hfirst, ← hflat, hsnoc, List.cons_append, List.flatten_cons]
        exact (List.head?_append_of_ne_nil _ (hne chunk (by rw [hsnoc]; simp))).symm
      simp [layout, blockOf, hhead, hfinal]

/-- The ends of that range are records of the list, and all others lie between them. -/
theorem exists_rangeFromBlocks {records : List MemtableRecord} (hsorted : KeySorted records)
    (hne : records ≠ []) : ∃ first ∈ records, ∃ last ∈ records,
      rangeFromBlocks (blocksOf records) = some (first.key, last.key) ∧
        ∀ record ∈ records, first.key ≤ record.key ∧ record.key ≤ last.key := by
  have hfirst : records.head? = some (records.head hne) := List.head?_eq_some_head hne
  have hlast : records.getLast? = some (records.getLast hne) := List.getLast?_eq_some_getLast hne
  refine ⟨_, List.mem_of_head? hfirst, _, List.mem_of_getLast? hlast,
    rangeFromBlocks_blocksOf hfirst hlast, fun record hmem => ⟨?_, ?_⟩⟩
  · obtain ⟨rest, hcons⟩ := List.head?_eq_some_iff.mp hfirst
    rw [hcons] at hsorted hmem
    rcases List.mem_cons.mp hmem with rfl | hmem
    · exact le_rfl
    · exact (List.rel_of_pairwise_cons hsorted hmem).le
  · obtain ⟨front, hsnoc⟩ := List.getLast?_eq_some_iff.mp hlast
    rw [hsnoc] at hsorted hmem
    rcases List.mem_append.mp hmem with hmem | hmem
    · exact ((List.pairwise_append.mp hsorted).2.2 record hmem _ List.mem_cons_self).le
    · rw [List.mem_singleton.mp hmem]

theorem buildOutput_ok {fastbloom : FastBloom} {config : StorageConfig}
    {records : List MemtableRecord} {output : SSTableCodec} (hsorted : KeySorted records)
    (h : buildOutput fastbloom records config = .ok output) :
    output.blocks = blocksOf records ∧ output.records = records := by
  obtain ⟨blocks, hblocks, h⟩ := Exec.bind_eq_ok h
  obtain rfl := Except.ok.inj h
  have heq := eq_blocksOf_of_buildBlocks hsorted hblocks
  refine ⟨heq, ?_⟩
  show blocks.flatMap Block.records = records
  rw [heq, records_blocksOf]

/-- Bytes that fit in `u64` do not saturate. -/
theorem lt_of_partitionFull {config : StorageConfig} {part : List MemtableRecord}
    {record : MemtableRecord} (h : partitionFull config part record = true) :
    config.targetSstableBytes < recordsSize part + record.recordLength record.key := by
  rw [partitionFull, decide_eq_true_iff, saturatingAdd, partitionBytes] at h
  omega

theorem le_of_partitionFull_eq_false {config : StorageConfig} {part : List MemtableRecord}
    {record : MemtableRecord} (h : partitionFull config part record = false) (hne : part ≠ [])
    (hsize : recordsSize part + record.recordLength record.key < u64Limit) :
    recordsSize part + record.recordLength record.key ≤ config.targetSstableBytes := by
  rw [partitionFull, decide_eq_false_iff_not, saturatingAdd, partitionBytes, not_and] at h
  have hle := h hne
  omega

/-- The records of a partition exceed the target only where it holds one record. -/
theorem length_le_one_of_target_lt {config : StorageConfig} {records part : List MemtableRecord}
    (hpart : part ∈ chunks (partitionFull config) records)
    (hsize : recordsSize part < u64Limit) (hlarge : config.targetSstableBytes < recordsSize part) :
    part.length ≤ 1 := by
  have hbound : recordsSize part < u64Limit →
      recordsSize part ≤ config.targetSstableBytes ∨ part.length ≤ 1 := by
    refine chunks_invariant (P := fun part => recordsSize part < u64Limit →
      recordsSize part ≤ config.targetSstableBytes ∨ part.length ≤ 1) ?_ ?_ ?_ hpart
    · exact fun _ => .inr (Nat.zero_le 1)
    · exact fun record _ _ => .inr le_rfl
    · intro chunk record _ _ hfits hsize
      rw [recordsSize_append] at hsize ⊢
      by_cases hne : chunk = []
      · rw [hne]
        exact .inr le_rfl
      · exact .inl (le_of_partitionFull_eq_false hfits hne hsize)
  rcases hbound hsize with hle | hone
  · omega
  · exact hone

/-- The outputs hold the parts of the merged records. -/
theorem records_partitionOutput {fastbloom : FastBloom} {config : StorageConfig}
    {merged : SSTableCodec} {outputs : List SSTableCodec} (hsorted : KeySorted merged.records)
    (h : partitionOutput fastbloom merged config = .ok outputs) :
    outputs.map SSTableCodec.records = chunks (partitionFull config) merged.records ∧
      ∀ output ∈ outputs, output.blocks = blocksOf output.records := by
  rw [partitionOutput_eq] at h
  have hbuilt := Exec.mapM_eq_ok h
  have hparts : ∀ part ∈ chunks (partitionFull config) merged.records, KeySorted part :=
    fun part hpart => sorted_of_mem_parts hsorted hpart
  -- The parts are generalized, because the induction is on the list of outputs.
  change List.Forall₂ _ (chunks (partitionFull config) merged.records) outputs at hbuilt
  generalize chunks (partitionFull config) merged.records = parts at hbuilt hparts ⊢
  clear h
  induction hbuilt with
  | nil => exact ⟨rfl, fun _ hmem => absurd hmem List.not_mem_nil⟩
  | @cons part output parts outputs houtput _ ih =>
    obtain ⟨hblocks, hrecords⟩ := buildOutput_ok (hparts part List.mem_cons_self) houtput
    obtain ⟨hmap, hrest⟩ := ih fun part hpart => hparts part (List.mem_cons_of_mem _ hpart)
    refine ⟨by rw [List.map_cons, hmap, hrecords], List.forall_mem_cons.mpr ⟨?_, hrest⟩⟩
    rw [hblocks, hrecords]

theorem recordsSize_le_of_sublist {records part : List MemtableRecord} (h : part.Sublist records) :
    recordsSize part ≤ recordsSize records :=
  (h.map fun record : MemtableRecord => record.recordLength record.key).sum_le_sum
    fun _ _ => Nat.zero_le _

/-- `partition_output` cuts the merged records into nonempty tables with ascending key ranges. A
table exceeds the target only where it holds one record, and it ends only where the next record
would exceed the target. -/
theorem partition_lossless_bounded (fastbloom : FastBloom) (config : StorageConfig)
    (merged : SSTableCodec) (outputs : List SSTableCodec) (hsorted : KeySorted merged.records)
    (hsize : recordsSize merged.records < u64Limit)
    (h : partitionOutput fastbloom merged config = .ok outputs) :
    outputs.flatMap SSTableCodec.records = merged.records ∧
    (∀ output ∈ outputs, output.records ≠ [] ∧
      ∃ range, rangeFromBlocks output.blocks = some range ∧ range.1 ≤ range.2 ∧
        ∀ record ∈ output.records, range.1 ≤ record.key ∧ record.key ≤ range.2) ∧
    (outputs.Pairwise fun a b => ∀ rangeA rangeB, rangeFromBlocks a.blocks = some rangeA →
      rangeFromBlocks b.blocks = some rangeB → rangeA.2 < rangeB.1) ∧
    (∀ output ∈ outputs, config.targetSstableBytes < recordsSize output.records →
      output.records.length = 1) ∧
    outputs.IsChain fun a b => ∃ first ∈ b.records.head?,
      config.targetSstableBytes < recordsSize a.records + first.recordLength first.key := by
  obtain ⟨hparts, hblocks⟩ := records_partitionOutput hsorted h
  have hmem {output : SSTableCodec} (houtput : output ∈ outputs) :
      output.records ∈ chunks (partitionFull config) merged.records := by
    rw [← hparts]
    exact List.mem_map_of_mem houtput
  have hne {output : SSTableCodec} (houtput : output ∈ outputs) : output.records ≠ [] :=
    ne_nil_of_mem_chunks (partitionFull_nil config) (hmem houtput)
  have hflat : (outputs.map SSTableCodec.records).flatten = merged.records := by
    rw [hparts, flatten_chunks]
  rw [KeySorted, ← hflat, List.pairwise_flatten, List.pairwise_map] at hsorted
  have hrange {output : SSTableCodec} (houtput : output ∈ outputs) :
      ∃ first ∈ output.records, ∃ last ∈ output.records,
        rangeFromBlocks output.blocks = some (first.key, last.key) ∧
          ∀ record ∈ output.records, first.key ≤ record.key ∧ record.key ≤ last.key := by
    rw [hblocks output houtput]
    exact exists_rangeFromBlocks (hsorted.1 output.records (List.mem_map_of_mem houtput))
      (hne houtput)
  refine ⟨?_, fun output houtput => ⟨hne houtput, ?_⟩, ?_, fun output houtput hlarge => ?_, ?_⟩
  · rw [List.flatMap_def, hflat]
  · obtain ⟨first, hfirst, last, -, heq, hbounds⟩ := hrange houtput
    exact ⟨(first.key, last.key), heq, (hbounds first hfirst).2, hbounds⟩
  · refine hsorted.2.imp_of_mem fun {a b} ha hb hlt rangeA rangeB hrangeA hrangeB => ?_
    obtain ⟨_, _, last, hlast, heqA, -⟩ := hrange ha
    obtain ⟨first, hfirst, _, _, heqB, -⟩ := hrange hb
    rw [heqA] at hrangeA
    rw [heqB] at hrangeB
    rw [← Option.some.inj hrangeA, ← Option.some.inj hrangeB]
    exact hlt last hlast first hfirst
  · have hsub : output.records.Sublist merged.records := by
      rw [← hflat]
      exact List.sublist_flatten_of_mem (List.mem_map_of_mem houtput)
    have hone := length_le_one_of_target_lt (hmem houtput)
      (lt_of_le_of_lt (recordsSize_le_of_sublist hsub) hsize) hlarge
    have hpos := List.length_pos_iff.mpr (hne houtput)
    omega
  · have hchain := isChain_chunks (partitionFull_nil config) merged.records
    rw [← hparts, List.isChain_map] at hchain
    refine hchain.imp fun a b hcut => ?_
    obtain ⟨first, hfirst, hfull⟩ := hcut
    exact ⟨first, hfirst, lt_of_partitionFull hfull⟩

/-- Three records at a target that two of them exceed: each becomes a table of its own. -/
theorem partition_threeRecords : ∃ outputs,
    partitionOutput .acceptAll ⟨blocksOf [⟨.put, 1, [97], [118]⟩, ⟨.put, 2, [98], [119]⟩,
      ⟨.delete, 3, [99], []⟩], [], ⟨0, 1, [0]⟩⟩ { StorageConfig.default with
        targetSstableBytes := 20 } = .ok outputs ∧ outputs.length = 3 ∧
    outputs.flatMap SSTableCodec.records
      = [⟨.put, 1, [97], [118]⟩, ⟨.put, 2, [98], [119]⟩, ⟨.delete, 3, [99], []⟩] := by
  refine ⟨_, rfl, by decide +kernel, ?_⟩
  exact (partition_lossless_bounded .acceptAll { StorageConfig.default with
    targetSstableBytes := 20 } ⟨blocksOf [⟨.put, 1, [97], [118]⟩, ⟨.put, 2, [98], [119]⟩,
      ⟨.delete, 3, [99], []⟩], [], ⟨0, 1, [0]⟩⟩ _ (by decide +kernel) (by decide +kernel) rfl).1

/-! ### The outputs of a compaction -/

section
variable {fastbloom : FastBloom} {files : String → Option Bytes} {contents : Contents}
  {config : StorageConfig} {levels : Levels} {level : Nat} {plan : CompactionPlan}
  {range : Key × Key}

theorem selectInputs_of_planCompaction
    (h : planCompaction files fastbloom config levels level = .ok plan) :
    selectInputs files config levels level = .ok plan.inputs := by
  obtain ⟨inputs, hinputs, h⟩ := Exec.bind_eq_ok h
  obtain ⟨codecs, -, h⟩ := Exec.bind_eq_ok h
  obtain ⟨ranges, -, h⟩ := Exec.bind_eq_ok h
  obtain ⟨merged, -, h⟩ := Exec.bind_eq_ok h
  obtain ⟨outputs, -, h⟩ := Exec.bind_eq_ok h
  rw [hinputs, ← Except.ok.inj h]

/-- A winner lies in the range of the inputs. -/
theorem CompactionPlan.Merges.key_mem {winners : List MemtableRecord}
    (h : plan.Merges fastbloom config contents levels winners)
    (hwritten : TablesWritten fastbloom files contents levels.all)
    (hclosed : ClosedInputs levels level plan.inputs range) {winner : MemtableRecord}
    (hmem : winner ∈ winners) : range.1 ≤ winner.key ∧ winner.key ≤ range.2 := by
  obtain ⟨input, hinput, hfound⟩ := mem_tableVersions.mp (List.argmax_mem (h.newest winner hmem))
  have hin : input ∈ levels.all := by
    refine mem_all.mpr ?_
    rcases hclosed.subset input hinput with hfile | hfile
    · exact ⟨level, mem_files.mp hfile⟩
    · exact ⟨level + 1, mem_files.mp hfile⟩
  have hbounds := (hwritten input hin).stores.bounds winner (tableGet_some hfound).1
  have hcovered := hclosed.covered input hinput
  exact ⟨hcovered.1.trans hbounds.1, hbounds.2.trans hcovered.2⟩

/-- An output covers a part of the range of the inputs. -/
theorem exists_outputRange (hwritten : TablesWritten fastbloom files contents levels.all)
    (hdistinct : (levels.files level).Pairwise fun a b => a.fileId ≠ b.fileId)
    (h : planCompaction files fastbloom config levels level = .ok plan)
    (hclosed : ClosedInputs levels level plan.inputs range) {output : SSTableCodec}
    (houtput : output ∈ plan.outputs) :
    ∃ found, rangeFromBlocks output.blocks = some found ∧ range.1 ≤ found.1 ∧ found.1 ≤ found.2 ∧
      found.2 ≤ range.2 := by
  obtain ⟨-, winners, hmerges⟩ := planCompaction_ok hwritten hdistinct h
  obtain ⟨parts, hflat, hne, hbuilt⟩ := hmerges.parts
  obtain ⟨part, hpart, hbuild⟩ := exists_left_of_forall₂ hbuilt houtput
  have hsub : part.Sublist winners := by
    rw [← hflat]
    exact List.sublist_flatten_of_mem hpart
  have hsorted : KeySorted part := hmerges.sorted.sublist hsub
  obtain ⟨first, hfirst, last, hlast, hrange, hbounds⟩ :=
    exists_rangeFromBlocks hsorted (hne part hpart)
  refine ⟨(first.key, last.key), ?_, ?_, (hbounds first hfirst).2, ?_⟩
  · rw [(buildOutput_ok hsorted hbuild).1, hrange]
  · exact (hmerges.key_mem hwritten hclosed (hsub.subset hfirst)).1
  · exact (hmerges.key_mem hwritten hclosed (hsub.subset hlast)).2

end

/-- The selection of the inputs ends, and its hull meets no table of the two levels that is left
behind. An output of the compaction lies inside the hull, so it meets no table that stays in its
level. -/
theorem overlap_closure_complete (fastbloom : FastBloom) (files : String → Option Bytes)
    (contents : Contents) (config : StorageConfig) (levels : Levels) (level : Nat)
    (hids : (levels.all.map SSTableMeta.fileId).Nodup) :
    (∀ (selection : Selection) (extra : Nat),
      closeOverlaps files (levels.files level ++ levels.files (level + 1))
          ((levels.files level ++ levels.files (level + 1)).length + 1 + extra) selection
        = closeOverlaps files (levels.files level ++ levels.files (level + 1))
          ((levels.files level ++ levels.files (level + 1)).length + 1) selection) ∧
    (∀ inputs, selectInputs files config levels level = .ok inputs → ∃ range,
      (∀ input ∈ inputs, input ∈ levels.files level ∨ input ∈ levels.files (level + 1)) ∧
      Hull files inputs range ∧
      ∀ sstable, sstable ∈ levels.files level ∨ sstable ∈ levels.files (level + 1) →
        sstable ∉ inputs → ∃ found, HasRange files sstable found ∧ RangesApart range found) ∧
    (TablesWritten fastbloom files contents levels.all → ∀ plan,
      planCompaction files fastbloom config levels level = .ok plan → ∃ range,
      Hull files plan.inputs range ∧
      ∀ output ∈ plan.outputs, ∃ found, rangeFromBlocks output.blocks = some found ∧
        range.1 ≤ found.1 ∧ found.1 ≤ found.2 ∧ found.2 ≤ range.2 ∧
        ∀ sstable ∈ levels.files (level + 1), sstable ∉ plan.inputs →
          RangesApart found sstable.range) := by
  have hdistinct : (levels.files level).Pairwise fun a b => a.fileId ≠ b.fileId := by
    rw [List.nodup_iff_pairwise_ne, List.pairwise_map] at hids
    exact hids.sublist (List.filter_sublist.map Prod.snd)
  have hsame {inputs : List SSTableMeta} {range : Key × Key} {sstable : SSTableMeta}
      (hclosed : ClosedSelection files levels level inputs range)
      (hmem : sstable ∈ levels.files level ∨ sstable ∈ levels.files (level + 1))
      (hout : sstable ∉ inputs) : ∀ input ∈ inputs, input.fileId ≠ sstable.fileId := by
    intro input hinput hid
    have hall {t : SSTableMeta} (ht : t ∈ levels.files level ∨ t ∈ levels.files (level + 1)) :
        t ∈ levels.all := by
      rcases ht with ht | ht
      · exact mem_all.mpr ⟨level, mem_files.mp ht⟩
      · exact mem_all.mpr ⟨level + 1, mem_files.mp ht⟩
    -- Two tables with one id are the same table.
    have heq := List.inj_on_of_nodup_map hids (hall (hclosed.subset input hinput)) (hall hmem) hid
    exact hout (heq ▸ hinput)
  refine ⟨fun selection extra => closeOverlaps_stable extra
    (Nat.lt_succ_of_le unselected_le_length), fun inputs hinputs => ?_, fun hwritten plan hplan => ?_⟩
  · obtain ⟨range, hclosed⟩ := selectInputs_closed hdistinct hinputs
    exact ⟨range, hclosed.subset, hclosed.hull, fun sstable hmem hout =>
      hclosed.apart sstable hmem (hsame hclosed hmem hout)⟩
  · obtain ⟨range, hclosed⟩ :=
      selectInputs_closed hdistinct (selectInputs_of_planCompaction hplan)
    have hinputs := hclosed.closedInputs hwritten
    refine ⟨range, hclosed.hull, fun output houtput => ?_⟩
    obtain ⟨found, hfound, hlow, hordered, hhigh⟩ :=
      exists_outputRange hwritten hdistinct hplan hinputs houtput
    refine ⟨found, hfound, hlow, hordered, hhigh, fun sstable hmem hout => ?_⟩
    rcases hinputs.apart sstable (.inr hmem) (hsame hclosed (.inr hmem) hout) with hlt | hlt
    · exact .inl (lt_of_lt_of_le hlt hlow)
    · exact .inr (lt_of_le_of_lt hhigh hlt)

/-- A table file with some records. -/
def codecOf (records : List MemtableRecord) : SSTableCodec := ⟨blocksOf records, [], ⟨0, 1, [0]⟩⟩

/-- Its manifest entry. -/
def tableOf (level fileId : Nat) (records : List MemtableRecord) : SSTableMeta where
  fileId := fileId
  level := level
  path := tablePath level fileId
  recordCount := records.length
  smallestKey := (records.head?.map MemtableRecord.key).getD []
  largestKey := (records.getLast?.map MemtableRecord.key).getD []
  bloomOffset := 0
  bloomSize := 0

theorem written_tableOf {files : String → Option Bytes} {level fileId : Nat}
    {records : List MemtableRecord} (hsorted : KeySorted records) (hne : records ≠ [])
    (hstorable : ∀ record ∈ records, record.Storable)
    (hsize : (codecOf records).encoded.length ≤ isizeMax)
    (hfile : files (tablePath level fileId) = some (codecOf records).encoded) :
    (tableOf level fileId records).Written .acceptAll files records := by
  have hrecords : (codecOf records).records = records := records_blocksOf records
  have hgood : (codecOf records).Good .acceptAll := {
    blocks := blocksOf_good hsorted hstorable
    sorted := by rw [hrecords]; exact hsorted
    bloom := fun _ _ => rfl
    seed := show 0 < 256 ^ 16 by decide
    size := hsize }
  refine ⟨⟨codecOf records, hgood, hrecords, hfile, ?_⟩, rfl⟩
  have hhead := List.head?_eq_some_head hne
  have hlast := List.getLast?_eq_some_getLast hne
  show rangeFromBlocks (blocksOf records) = some ((records.head?.map MemtableRecord.key).getD [],
    (records.getLast?.map MemtableRecord.key).getD [])
  rw [rangeFromBlocks_blocksOf hhead hlast, hhead, hlast]
  rfl

/-- The records of two overlapping tables of level 0 and of a table of level 1 behind them. -/
def threeContents (sstable : SSTableMeta) : List MemtableRecord :=
  if sstable.fileId = 1 then [⟨.put, 0, [120], [118]⟩]
  else if sstable.fileId = 2 then [⟨.put, 1, [97], [118]⟩, ⟨.put, 2, [99], [118]⟩]
  else [⟨.put, 3, [98], [119]⟩]

def threeTables : List SSTableMeta :=
  [tableOf 0 2 [⟨.put, 1, [97], [118]⟩, ⟨.put, 2, [99], [118]⟩], tableOf 0 3 [⟨.put, 3, [98], [119]⟩],
    tableOf 1 1 [⟨.put, 0, [120], [118]⟩]]

def threeLevels : Levels := threeTables.foldl Levels.add ∅

def threeFiles (path : String) : Option Bytes :=
  (threeTables.find? fun sstable => sstable.path == path).map fun sstable =>
    (codecOf (threeContents sstable)).encoded

theorem threeTables_written :
    TablesWritten .acceptAll threeFiles threeContents threeLevels.all := by
  have hall : threeLevels.all = threeTables := by decide +kernel
  rw [hall]
  intro sstable hmem
  have hstorable : ∀ sstable ∈ threeTables, ∀ record ∈ threeContents sstable,
      record.recordLength record.key < u32Limit ∧ record.lsn < u64Limit := by decide +kernel
  have hshape : ∀ sstable ∈ threeTables, sstable
      = tableOf sstable.level sstable.fileId (threeContents sstable) ∧
      threeFiles (tablePath sstable.level sstable.fileId)
        = some (codecOf (threeContents sstable)).encoded ∧
      KeySorted (threeContents sstable) ∧ threeContents sstable ≠ [] ∧
      (codecOf (threeContents sstable)).encoded.length ≤ isizeMax := by decide +kernel
  obtain ⟨heq, hfile, hsorted, hne, hsize⟩ := hshape sstable hmem
  have hwritten := written_tableOf hsorted hne (fun record hrecord =>
    ⟨(hstorable sstable hmem record hrecord).1, (hstorable sstable hmem record hrecord).2⟩) hsize hfile
  rw [← heq] at hwritten
  exact hwritten

/-- Both tables of level 0 are merged, and the output stays apart from the table of level 1. -/
theorem closure_threeTables : ∃ plan,
    planCompaction threeFiles .acceptAll .default threeLevels 0 = .ok plan ∧
    plan.inputs = threeTables.take 2 ∧ ∀ output ∈ plan.outputs, ∃ found,
      rangeFromBlocks output.blocks = some found ∧ RangesApart found ([120], [120]) := by
  have hok : (planCompaction threeFiles .acceptAll .default threeLevels 0).map CompactionPlan.inputs
      = .ok (threeTables.take 2) := by decide +kernel
  obtain ⟨plan, hplan, hinputs⟩ := Exec.map_eq_ok hok
  refine ⟨plan, hplan, hinputs, fun output houtput => ?_⟩
  obtain ⟨range, -, houtputs⟩ := (overlap_closure_complete .acceptAll threeFiles threeContents .default
    threeLevels 0 (by decide +kernel)).2.2 threeTables_written plan hplan
  obtain ⟨found, hfound, -, -, -, hapart⟩ := houtputs output houtput
  exact ⟨found, hfound, hapart (tableOf 1 1 [⟨.put, 0, [120], [118]⟩]) (by decide +kernel)
    (by rw [hinputs]; decide +kernel)⟩

end CereDB.Storage

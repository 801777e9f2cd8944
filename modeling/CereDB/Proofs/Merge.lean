import CereDB.Proofs.Blocks

/-!
# `CereDB.Proofs.Merge`: the tables a flush and a compaction build

`flushBlocks_eq` reduces the loop of `flush_inner` to `buildBlocks`. `sorted_survivors` says that
the merge hands its winners on in key order, and `partitionOutput_eq` that the partition builds
one table for each chunk of a greedy cut.

`blocks_build_iff` is the result: the flush, a compaction output, the merge and the partition
each return blocks that carry their key bounds exactly when their records are `Buildable`. The
empty key alone is not, so a memtable that holds nothing else cannot be flushed
(`flush_empty_key_panics`).
-/

set_option autoImplicit false

namespace CereDB.Storage

open CereDB.Lib

/-! ### The flush -/

/-- The records a flush writes: the newest version of every key, with its key. -/
def flushRecords (memtable : Memtable) : List MemtableRecord :=
  (validRecords memtable).toList.map fun entry => entry.2.withKey entry.1

/-- The values of an ordered map that carry their keys are in key order. -/
theorem keySorted_map_toList {valid : OrdMap Key MemtableRecord}
    {f : Key × MemtableRecord → MemtableRecord}
    (hkey : ∀ entry ∈ valid.toList, (f entry).key = entry.1) :
    KeySorted (valid.toList.map f) := by
  rw [KeySorted, List.pairwise_map]
  refine List.Pairwise.imp_of_mem ?_ (OrdMap.sorted_toList valid)
  intro a b ha hb hlt
  rw [hkey a ha, hkey b hb]
  exact hlt

theorem sorted_flushRecords (memtable : Memtable) : KeySorted (flushRecords memtable) :=
  keySorted_map_toList fun _ _ => rfl

/-- The loop of `flush_inner` is `buildBlocks` on the records with their keys. -/
theorem flushBlocks_eq (memtable : Memtable) :
    flushBlocks (validRecords memtable) = buildBlocks (flushRecords memtable) := by
  rw [flushBlocks, buildBlocks, flushRecords, List.foldlM_map]
  rfl

/-! ### The merge -/

/-- Every record of the merge is kept under its own key. -/
theorem key_of_mergedByKey {records : List MemtableRecord} {merged : OrdMap Key MemtableRecord}
    (hmerged : ∀ (key : Key) (record : MemtableRecord), merged[key]? = some record → record.key = key)
    {key : Key} {record : MemtableRecord}
    (h : (records.foldl mergeRecord merged)[key]? = some record) : record.key = key := by
  induction records generalizing merged with
  | nil => exact hmerged key record h
  | cons candidate records ih =>
    refine ih ?_ h
    intro k r hr
    rw [mergeRecord, OrdMap.get?_insert] at hr
    split at hr
    · rename_i hk
      have hr := Option.some.inj hr
      cases hexisting : merged[candidate.key]? with
      | none =>
        rw [hexisting] at hr
        rw [← hr, ← hk]
      | some existing =>
        rw [hexisting] at hr
        have hwinner : r = existing ∨ r = candidate := by
          rw [← hr]
          simp only [chooseWinner]
          split_ifs
          · exact .inr rfl
          · exact .inl rfl
          · split
            · exact .inl rfl
            · exact .inr rfl
            · exact .inl rfl
        rcases hwinner with rfl | rfl
        · rw [hmerged _ _ hexisting, hk]
        · exact hk
    · exact hmerged k r hr

/-- The winners that survive are in key order. -/
theorem sorted_survivors (sstables : List SSTableCodec)
    (protectedRanges : Option (List (Key × Key))) :
    KeySorted (survivors sstables protectedRanges) := by
  refine List.Pairwise.filter _ (keySorted_map_toList ?_)
  intro entry hentry
  have hget : (mergedByKey sstables)[entry.1]? = some entry.2 :=
    (OrdMap.mem_toList_iff _ entry.1 entry.2).mp hentry
  refine key_of_mergedByKey ?_ hget
  intro key record h
  rw [OrdMap.get?_empty] at h
  cases h

/-! ### The partition -/

/-- The byte count of `partition_output`: the sum of the record sizes, saturated. -/
def partitionBytes (records : List MemtableRecord) : Nat := min (recordsSize records) (u64Limit - 1)

/-- The test that closes a part. -/
def partitionFull (config : StorageConfig) (records : List MemtableRecord)
    (record : MemtableRecord) : Bool :=
  records ≠ [] ∧ config.targetSstableBytes
    < saturatingAdd (partitionBytes records) (record.recordLength record.key)

theorem partitionFull_nil (config : StorageConfig) (record : MemtableRecord) :
    partitionFull config [] record = false := rfl

theorem partitionBytes_append (records : List MemtableRecord) (record : MemtableRecord) :
    partitionBytes (records ++ [record])
      = saturatingAdd (partitionBytes records) (record.recordLength record.key) := by
  rw [partitionBytes, recordsSize_append, saturatingAdd, partitionBytes]
  omega

section Partition
variable (fastbloom : FastBloom) (config : StorageConfig)

/-- The loop of `partition_output`: one output for each closed part. -/
theorem foldlM_partitionRecord (outputs : List SSTableCodec) (cur records : List MemtableRecord) :
    records.foldlM (partitionRecord fastbloom config)
        { outputs, records := cur, bytes := partitionBytes cur }
      = (do
          let closed ← (greedy (partitionFull config) cur records).1.mapM
            fun part => buildOutput fastbloom part config
          return {
            outputs := outputs ++ closed
            records := (greedy (partitionFull config) cur records).2
            bytes := partitionBytes (greedy (partitionFull config) cur records).2 }) := by
  induction records generalizing outputs cur with
  | nil =>
    rw [greedy, List.mapM_nil, List.foldlM_nil]
    show Except.ok _ = Except.ok _
    rw [List.append_nil]
  | cons record records ih =>
    rw [List.foldlM_cons, partitionRecord]
    cases hfull : partitionFull config cur record with
    | false =>
      have hcond : ¬ (cur ≠ [] ∧ config.targetSstableBytes
          < saturatingAdd (partitionBytes cur) (record.recordLength record.key)) :=
        of_decide_eq_false hfull
      rw [if_neg hcond, greedy_cons_of_fits records hfull, ← ih outputs (cur ++ [record]),
        partitionBytes_append]
      rfl
    | true =>
      have hcond : cur ≠ [] ∧ config.targetSstableBytes
          < saturatingAdd (partitionBytes cur) (record.recordLength record.key) :=
        of_decide_eq_true hfull
      rw [if_pos hcond, greedy_cons_of_full records hfull, List.mapM_cons]
      cases hbuild : buildOutput fastbloom cur config with
      | error e => rfl
      | ok output =>
        have hnext := ih (outputs ++ [output]) [record]
        have hone : partitionBytes [record]
            = saturatingAdd 0 (record.recordLength record.key) :=
          partitionBytes_append [] record
        rw [hone] at hnext
        show records.foldlM _ _ = _
        refine hnext.trans ?_
        simp only [bind_assoc, pure_bind, List.append_assoc, List.singleton_append]
        rfl

/-- The partition builds one table for each chunk of the merged records. -/
theorem partitionOutput_eq (merged : SSTableCodec) :
    partitionOutput fastbloom merged config
      = (chunks (partitionFull config) (merged.blocks.flatMap Block.records)).mapM
          fun part => buildOutput fastbloom part config := by
  have hloop := foldlM_partitionRecord fastbloom config [] [] (merged.blocks.flatMap Block.records)
  have hzero : partitionBytes [] = 0 := rfl
  rw [hzero] at hloop
  rw [partitionOutput, hloop, chunks, List.mapM_append]
  simp only [bind_assoc, pure_bind]
  congr 1
  funext closed
  cases (greedy (partitionFull config) [] (merged.blocks.flatMap Block.records)).2 with
  | nil => simp [closeChunk]
  | cons a as => simp [closeChunk]

end Partition

/-! ### When blocks can be built -/

/-- A part of a sorted list is sorted. -/
theorem sorted_of_mem_parts {config : StorageConfig} {records part : List MemtableRecord}
    (hsorted : KeySorted records) (h : part ∈ chunks (partitionFull config) records) :
    KeySorted part := by
  rw [← @flatten_chunks _ (partitionFull config) records] at hsorted
  exact List.Pairwise.sublist (List.sublist_flatten_of_mem h) hsorted

/-- The blocks of an output are those of the block building loop. -/
theorem buildsBlocks_buildOutput_iff (fastbloom : FastBloom) (config : StorageConfig)
    {records : List MemtableRecord} (hsorted : KeySorted records) :
    BuildsBlocks ((buildOutput fastbloom records config).map SSTableCodec.blocks) ↔
      Buildable records := by
  rw [← buildsBlocks_iff hsorted, buildOutput]
  cases buildBlocks records <;> exact Iff.rfl

/-- A list of tables is built exactly when every one of them is. -/
theorem mapM_buildOutput_iff (fastbloom : FastBloom) (config : StorageConfig)
    {parts : List (List MemtableRecord)} (hsorted : ∀ part ∈ parts, KeySorted part) :
    BuildsBlocks ((parts.mapM fun part => buildOutput fastbloom part config).map
        fun outputs => outputs.flatMap SSTableCodec.blocks) ↔
      ∀ part ∈ parts, Buildable part := by
  induction parts with
  | nil =>
    refine ⟨fun _ part hpart => (List.not_mem_nil hpart).elim, fun _ => ⟨[], rfl, ?_⟩⟩
    exact fun block hblock => (List.not_mem_nil hblock).elim
  | cons part parts ih =>
    have hhead := buildsBlocks_buildOutput_iff fastbloom config
      (hsorted part List.mem_cons_self)
    have htail := ih fun p hp => hsorted p (List.mem_cons_of_mem part hp)
    rw [List.forall_mem_cons, ← hhead, ← htail, List.mapM_cons]
    cases buildOutput fastbloom part config with
    | error e =>
      refine ⟨fun h => ?_, fun h => ?_⟩
      · obtain ⟨blocks, hblocks, -⟩ := h
        cases hblocks
      · obtain ⟨⟨blocks, hblocks, -⟩, -⟩ := h
        cases hblocks
    | ok output =>
      cases parts.mapM fun part => buildOutput fastbloom part config with
      | error e =>
        refine ⟨fun h => ?_, fun h => ?_⟩
        · obtain ⟨blocks, hblocks, -⟩ := h
          cases hblocks
        · obtain ⟨-, blocks, hblocks, -⟩ := h
          cases hblocks
      | ok outputs =>
        constructor
        · rintro ⟨blocks, hblocks, hbounds⟩
          obtain rfl : output.blocks ++ outputs.flatMap SSTableCodec.blocks = blocks :=
            Except.ok.inj hblocks
          exact ⟨⟨_, rfl, fun b hb => hbounds b (List.mem_append_left _ hb)⟩,
            ⟨_, rfl, fun b hb => hbounds b (List.mem_append_right _ hb)⟩⟩
        · rintro ⟨⟨blocks, hblocks, hbounds⟩, ⟨rest, hrest, hrestBounds⟩⟩
          obtain rfl : output.blocks = blocks := Except.ok.inj hblocks
          obtain rfl : outputs.flatMap SSTableCodec.blocks = rest := Except.ok.inj hrest
          refine ⟨_, rfl, fun b hb => ?_⟩
          rcases List.mem_append.mp hb with hb | hb
          · exact hbounds b hb
          · exact hrestBounds b hb

/-- The first part of `partition_output` is the empty key alone: it is the first record, and it
is the only one or the second record does not fit the target with it. -/
def EmptyKeyAlone (config : StorageConfig) : List MemtableRecord → Prop
  | [] => False
  | [record] => record.key = []
  | first :: second :: _ => first.key = [] ∧ config.targetSstableBytes
      < saturatingAdd (first.recordLength first.key) (second.recordLength second.key)

instance (config : StorageConfig) : (records : List MemtableRecord) →
    Decidable (EmptyKeyAlone config records)
  | [] => inferInstanceAs (Decidable False)
  | [record] => inferInstanceAs (Decidable (record.key = []))
  | _ :: _ :: _ => inferInstanceAs (Decidable (_ ∧ _))

/-- Only the first part can hold the empty key. -/
theorem parts_keys_iff {first : MemtableRecord} {front : List MemtableRecord}
    {rest : List (List MemtableRecord)}
    (hsorted : KeySorted ((first :: front) :: rest).flatten) :
    (∀ part ∈ (first :: front) :: rest, part.map MemtableRecord.key ≠ [[]]) ↔
      (first :: front).map MemtableRecord.key ≠ [[]] := by
  refine ⟨fun h => h _ List.mem_cons_self, fun h => ?_⟩
  refine List.forall_mem_cons.mpr ⟨h, fun part hpart hkeys => ?_⟩
  obtain ⟨record, rfl⟩ : ∃ record, part = [record] := by
    rw [← List.length_eq_one_iff, ← List.length_map (f := MemtableRecord.key), hkeys]
    rfl
  have hmem : record ∈ rest.flatten := List.mem_flatten_of_mem hpart (List.mem_singleton_self _)
  have hlt : first.key < record.key := by
    rw [List.flatten_cons, List.cons_append] at hsorted
    exact (List.pairwise_cons.mp hsorted).1 record (List.mem_append_right front hmem)
  have hkey : record.key = [] := by simpa using hkeys
  exact not_key_lt_nil first.key (hkey ▸ hlt)

/-- Some part is the empty key alone exactly when the first one is. -/
theorem parts_ne_empty_key_iff {config : StorageConfig} {records : List MemtableRecord}
    (hsorted : KeySorted records) :
    (∀ part ∈ chunks (partitionFull config) records, part.map MemtableRecord.key ≠ [[]]) ↔
      ¬ EmptyKeyAlone config records := by
  have hflat := @flatten_chunks _ (partitionFull config) records
  match records, hsorted, hflat with
  | [], _, _ => exact ⟨fun _ h => h, fun _ part hpart => (List.not_mem_nil hpart).elim⟩
  | [record], _, _ =>
    have hchunks : chunks (partitionFull config) [record] = [[record]] := rfl
    rw [hchunks]
    simp [EmptyKeyAlone]
  | first :: second :: rest, hsorted, hflat =>
    have hopen : greedy (partitionFull config) [] (first :: second :: rest)
        = greedy (partitionFull config) [first] (second :: rest) :=
      greedy_cons_of_fits _ (partitionFull_nil config first)
    have hbytes : saturatingAdd (partitionBytes [first]) (second.recordLength second.key)
        = saturatingAdd (first.recordLength first.key) (second.recordLength second.key) := by
      simp only [partitionBytes, recordsSize, saturatingAdd, List.map_cons, List.map_nil,
        List.sum_cons, List.sum_nil]
      omega
    have hcond : partitionFull config [first] second = true ↔ config.targetSstableBytes
        < saturatingAdd (first.recordLength first.key) (second.recordLength second.key) := by
      rw [partitionFull, decide_eq_true_iff, hbytes]
      simp
    cases hfull : partitionFull config [first] second with
    | true =>
      have hchunks : chunks (partitionFull config) (first :: second :: rest)
          = [first] :: ((greedy (partitionFull config) [second] rest).1 ++
            closeChunk (greedy (partitionFull config) [second] rest).2) := by
        rw [chunks, hopen, greedy_cons_of_full rest hfull]
        rfl
      rw [hchunks] at hflat ⊢
      rw [parts_keys_iff (hflat ▸ hsorted)]
      simp [EmptyKeyAlone, hcond.mp hfull]
    | false =>
      obtain ⟨ext, tail, htail⟩ := @exists_first_chunk _ (partitionFull config)
        [first, second] rest (List.cons_ne_nil first [second])
      have hchunks : chunks (partitionFull config) (first :: second :: rest)
          = (first :: second :: ext) :: tail := by
        rw [chunks, hopen, greedy_cons_of_fits rest hfull]
        exact htail
      have hnot : ¬ config.targetSstableBytes
          < saturatingAdd (first.recordLength first.key) (second.recordLength second.key) :=
        fun h => Bool.false_ne_true (hfull.symm.trans (hcond.mpr h))
      rw [hchunks] at hflat ⊢
      rw [parts_keys_iff (hflat ▸ hsorted)]
      simp [EmptyKeyAlone, hnot]

theorem fitsInMemory_of_mem_parts {config : StorageConfig} {records part : List MemtableRecord}
    (hfits : FitsInMemory records) (h : part ∈ chunks (partitionFull config) records) :
    FitsInMemory part := by
  have hsub : part.Sublist records := by
    rw [← @flatten_chunks _ (partitionFull config) records]
    exact List.sublist_flatten_of_mem h
  have hle : recordsSize part ≤ recordsSize records :=
    (hsub.map fun record : MemtableRecord => record.recordLength record.key).sum_le_sum
      fun _ _ => Nat.zero_le _
  exact lt_of_le_of_lt hle hfits

/-- Blocks of records in memory are built, and carry the smallest and largest key of their
records, unless a table would hold the empty key alone: in the flush of a memtable, in one
compaction output, in the merge, and in the partition of merged records into outputs. -/
theorem blocks_build_iff (fastbloom : FastBloom) (config : StorageConfig) :
    (∀ memtable : Memtable, FitsInMemory (flushRecords memtable) →
      (BuildsBlocks (flushBlocks (validRecords memtable)) ↔
        (flushRecords memtable).map MemtableRecord.key ≠ [[]])) ∧
    (∀ records : List MemtableRecord, KeySorted records → FitsInMemory records →
      (BuildsBlocks ((buildOutput fastbloom records config).map SSTableCodec.blocks) ↔
        records.map MemtableRecord.key ≠ [[]])) ∧
    (∀ (sstables : List SSTableCodec) (protectedRanges : Option (List (Key × Key))),
      FitsInMemory (survivors sstables protectedRanges) →
      (BuildsBlocks ((mergeFilesWithReclamation fastbloom sstables config protectedRanges).map
          SSTableCodec.blocks) ↔
        (survivors sstables protectedRanges).map MemtableRecord.key ≠ [[]])) ∧
    (∀ merged : SSTableCodec, KeySorted (merged.blocks.flatMap Block.records) →
      FitsInMemory (merged.blocks.flatMap Block.records) →
      (BuildsBlocks ((partitionOutput fastbloom merged config).map
          fun outputs => outputs.flatMap SSTableCodec.blocks) ↔
        ¬ EmptyKeyAlone config (merged.blocks.flatMap Block.records))) := by
  refine ⟨fun memtable hfits => ?_, fun records hsorted hfits => ?_,
    fun sstables ranges hfits => ?_, fun merged hsorted hfits => ?_⟩
  · rw [flushBlocks_eq, buildsBlocks_iff (sorted_flushRecords memtable)]
    exact buildable_iff_of_fits hfits
  · rw [buildsBlocks_buildOutput_iff fastbloom config hsorted]
    exact buildable_iff_of_fits hfits
  · rw [← buildable_iff_of_fits hfits, ← buildsBlocks_iff (sorted_survivors sstables ranges),
      mergeFilesWithReclamation]
    cases buildBlocks (survivors sstables ranges) <;> exact Iff.rfl
  · rw [← parts_ne_empty_key_iff hsorted, partitionOutput_eq, mapM_buildOutput_iff fastbloom config
      fun part hpart => sorted_of_mem_parts hsorted hpart]
    exact forall₂_congr fun part hpart =>
      buildable_iff_of_fits (fitsInMemory_of_mem_parts hfits hpart)

/-- The filter that takes every key for a member: it has no false negative. -/
def FastBloom.acceptAll : FastBloom where
  sizing _ _ := (1, 1)
  insertBits _ _ words _ := words
  containsBits _ _ _ _ := true
  contains_insert_self _ _ _ _ := rfl
  contains_insert _ _ _ _ _ h := h

/-- The empty key followed by another one is flushed, built, merged and partitioned. -/
theorem blocks_build_with_empty_key :
    BuildsBlocks (flushBlocks (validRecords
        (Memtable.append (Memtable.append ∅ [] [118] .put 1) [97] [118] .put 2))) ∧
      BuildsBlocks ((buildOutput .acceptAll
        [⟨.put, 1, [], [118]⟩, ⟨.put, 2, [97], [118]⟩] .default).map SSTableCodec.blocks) ∧
      BuildsBlocks ((mergeFilesWithReclamation .acceptAll
        [⟨blocksOf [⟨.put, 1, [], [118]⟩, ⟨.put, 2, [97], [118]⟩], [], ⟨0, 1, []⟩⟩]
        .default none).map SSTableCodec.blocks) ∧
      BuildsBlocks ((partitionOutput .acceptAll
        ⟨blocksOf [⟨.put, 1, [], [118]⟩, ⟨.put, 2, [97], [118]⟩], [], ⟨0, 1, []⟩⟩ .default).map
        fun outputs => outputs.flatMap SSTableCodec.blocks) :=
  ⟨((blocks_build_iff .acceptAll .default).1 _ (by decide +kernel)).mpr (by decide +kernel),
    ((blocks_build_iff .acceptAll .default).2.1 _ (by decide) (by decide +kernel)).mpr
      (by decide +kernel),
    ((blocks_build_iff .acceptAll .default).2.2.1 _ _ (by decide +kernel)).mpr (by decide +kernel),
    ((blocks_build_iff .acceptAll .default).2.2.2 _ (by decide +kernel) (by decide +kernel)).mpr
      (by decide +kernel)⟩

/-- A batch that puts the empty key alone is accepted, and the flush of the memtable it leaves
panics, as does a compaction output with that record alone. -/
theorem flush_empty_key_panics :
    validateBatch [.put [] [118]] = .ok 100 ∧
      flushBlocks (validRecords (Memtable.append ∅ [] [118] .put 1))
        = .error (.panic "called `Option::unwrap()` on a `None` value") ∧
      buildOutput .acceptAll [⟨.put, 1, [], [118]⟩] .default
        = .error (.panic "called `Option::unwrap()` on a `None` value") := by
  decide +kernel

end CereDB.Storage

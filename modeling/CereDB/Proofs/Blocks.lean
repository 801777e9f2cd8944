import CereDB.Lib.Greedy
import CereDB.Storage.Batch
import CereDB.Storage.Merge

/-!
# `CereDB.Proofs.Blocks`: what the block builder makes of a sorted record list

`buildBlocks` is the loop that `flush_inner`, `build_output` and `merge_files_with_reclamation`
share. On records in strictly ascending key order it cuts them greedily at the block size
(`blockFull`, `Lib.greedy`) and lays the chunks out one behind the other (`layout`).

`buildBlocks_ok` and `buildBlocks_panic` are the two outcomes. The loop fails exactly when the
records are the empty key alone, or when an offset leaves `u64` (`Buildable`). The first
condition is a defect of `BlockBuilder`: it compares a new key with the empty key while no last
key is set, so the empty key alone leaves the last key unset and `build` unwraps it.
`buildsBlocks_iff` puts both outcomes together with the key bounds of the blocks.
-/

set_option autoImplicit false

namespace CereDB.Storage

open CereDB.Lib

/-- The encoded size of a record list. -/
def recordsSize (records : List MemtableRecord) : Nat :=
  (records.map fun record => record.recordLength record.key).sum

/-- Strictly ascending keys. -/
def KeySorted (records : List MemtableRecord) : Prop :=
  records.Pairwise fun a b => a.key < b.key

instance (records : List MemtableRecord) : Decidable (KeySorted records) :=
  inferInstanceAs (Decidable (records.Pairwise fun a b => a.key < b.key))

/-- The test that cuts a block. -/
def blockFull (records : List MemtableRecord) (record : MemtableRecord) : Bool :=
  records ≠ [] ∧ sstableBlockSize < recordsSize records + record.recordLength record.key

/-- The builder that holds the given records. -/
def BlockBuilder.holding (offset : Nat) (records : List MemtableRecord) : BlockBuilder :=
  { data := records
    dataSize := recordsSize records
    firstKey := records.head?.map MemtableRecord.key
    lastKey := (records.getLast?.map MemtableRecord.key).filter (· ≠ [])
    recordCount := records.length
    blockOffset := offset }

/-- The block that holds the given records. -/
def blockOf (offset : Nat) (records : List MemtableRecord) : Block :=
  { offset
    firstKey := (records.head?.map MemtableRecord.key).getD []
    lastKey := (records.getLast?.map MemtableRecord.key).getD []
    recordCount := records.length
    dataSize := recordsSize records % u32Limit
    data := some records }

/-- The blocks of a list of chunks, one behind the other. -/
def layout : Nat → List (List MemtableRecord) → List Block
  | _, [] => []
  | offset, chunk :: chunks =>
    blockOf offset chunk :: layout (offset + (blockOf offset chunk).encode.length) chunks

/-- The offset behind the blocks of a list of chunks. -/
def layoutEnd : Nat → List (List MemtableRecord) → Nat
  | offset, [] => offset
  | offset, chunk :: chunks => layoutEnd (offset + (blockOf offset chunk).encode.length) chunks

/-! ### One record -/

theorem recordsSize_append (records : List MemtableRecord) (record : MemtableRecord) :
    recordsSize (records ++ [record])
      = recordsSize records + record.recordLength record.key := by
  simp [recordsSize]

/-- No key is below the empty one. -/
theorem not_key_lt_nil (key : Key) : ¬ key < [] := by
  simp

theorem nil_lt_key {key : Key} (h : key ≠ []) : [] < key := by
  cases key with
  | nil => exact absurd rfl h
  | cons b bs => exact List.nil_lt_cons b bs

/-- Taking a record behind all others keeps the builder in its described form. -/
theorem BlockBuilder.holding_push {offset : Nat} {records : List MemtableRecord}
    {record : MemtableRecord} (hsorted : KeySorted (records ++ [record])) :
    (holding offset records).push record.key record = holding offset (records ++ [record]) := by
  have hlt : ∀ a ∈ records, a.key < record.key := fun a ha =>
    (List.pairwise_append.mp hsorted).2.2 a ha record (List.mem_singleton_self record)
  have hfirst : ((holding offset records).push record.key record).firstKey
      = (records ++ [record]).head?.map MemtableRecord.key := by
    cases records with
    | nil => simp [push, holding]
    | cons a as =>
      have ha : ¬ record.key < a.key := lt_asymm (hlt a List.mem_cons_self)
      simp [push, holding, ha]
  have hlast : ((holding offset records).push record.key record).lastKey
      = ((records ++ [record]).getLast?.map MemtableRecord.key).filter (· ≠ []) := by
    rw [List.getLast?_append_of_ne_nil _ (List.cons_ne_nil record []), List.getLast?_singleton]
    cases hl : records.getLast? with
    | none =>
      by_cases hk : record.key = []
      · simp [push, holding, Option.filter_some, hl, hk]
      · simp [push, holding, Option.filter_some, hl, hk, nil_lt_key hk]
    | some a =>
      have ha : a.key < record.key := hlt a (List.mem_of_getLast? hl)
      have hk : record.key ≠ [] := fun hk => not_key_lt_nil a.key (hk ▸ ha)
      by_cases hempty : a.key = []
      · simp [push, holding, Option.filter_some, hl, hk, hempty, nil_lt_key hk]
      · simp [push, holding, Option.filter_some, hl, hk, hempty, ha]
  have hdata : ((holding offset records).push record.key record).data = records ++ [record] := rfl
  have hsize : ((holding offset records).push record.key record).dataSize
      = recordsSize (records ++ [record]) := (recordsSize_append records record).symm
  have hcount : ((holding offset records).push record.key record).recordCount
      = (records ++ [record]).length := by
    rw [List.length_append]
    rfl
  show BlockBuilder.mk _ _ _ _ _ _ = BlockBuilder.mk _ _ _ _ _ _
  rw [BlockBuilder.mk.injEq]
  exact ⟨hdata, hsize, hfirst, hlast, hcount, rfl⟩

/-- A cut hands back the block of the records held. -/
theorem BlockBuilder.cutBlock_holding (offset : Nat) (records : List MemtableRecord) :
    (holding offset records).cutBlock = blockOf offset records := by
  have hlast : ((records.getLast?.map MemtableRecord.key).filter (· ≠ [])).getD []
      = (records.getLast?.map MemtableRecord.key).getD [] := by
    cases records.getLast? with
    | none => rfl
    | some a =>
      by_cases ha : a.key = []
      · simp [Option.filter_some, ha]
      · simp [Option.filter_some, ha]
  show Block.mk _ _ _ _ _ _ = Block.mk _ _ _ _ _ _
  rw [Block.mk.injEq]
  exact ⟨rfl, rfl, hlast, rfl, rfl, rfl⟩

/-- The offset never moves back. -/
theorem le_layoutEnd (offset : Nat) (chunks : List (List MemtableRecord)) :
    offset ≤ layoutEnd offset chunks := by
  induction chunks generalizing offset with
  | nil => exact le_rfl
  | cons chunk chunks ih => exact le_trans (Nat.le_add_right _ _) (ih _)

theorem layout_append (offset : Nat) (chunks : List (List MemtableRecord))
    (chunk : List MemtableRecord) :
    layout offset (chunks ++ [chunk])
      = layout offset chunks ++ [blockOf (layoutEnd offset chunks) chunk] := by
  induction chunks generalizing offset with
  | nil => rfl
  | cons c cs ih =>
    rw [List.cons_append, layout, layout, ih, layoutEnd]
    rfl

/-- One step of the loop, when the record still fits. -/
theorem flushWinner_fits {offset : Nat} {records : List MemtableRecord} {record : MemtableRecord}
    (blocks : List Block) (hsorted : KeySorted (records ++ [record]))
    (hfull : blockFull records record = false) :
    flushWinner (.holding offset records, blocks) record
      = .ok (.holding offset (records ++ [record]), blocks) := by
  have hcond : ¬ ((BlockBuilder.holding offset records).data ≠ [] ∧ sstableBlockSize
      < (BlockBuilder.holding offset records).dataSize + record.recordLength record.key) :=
    of_decide_eq_false hfull
  have hadd : (BlockBuilder.holding offset records).addRecord record.key record
      = .ok (.holding offset (records ++ [record]), .enoughSpace) := by
    rw [BlockBuilder.addRecord, if_neg hcond, BlockBuilder.holding_push hsorted]
  rw [flushWinner, flushRecord]
  show Except.bind _ _ = _
  rw [hadd]
  rfl

/-- One step of the loop, when the record cuts the block. -/
theorem flushWinner_cuts {offset : Nat} {records : List MemtableRecord} {record : MemtableRecord}
    (blocks : List Block) (hfull : blockFull records record = true) :
    flushWinner (.holding offset records, blocks) record
      = if offset + (blockOf offset records).encode.length < u64Limit then
          .ok (.holding (offset + (blockOf offset records).encode.length) [record],
            blocks ++ [blockOf offset records])
        else .error (.panic "block offset overflow") := by
  have hcond : (BlockBuilder.holding offset records).data ≠ [] ∧ sstableBlockSize
      < (BlockBuilder.holding offset records).dataSize + record.recordLength record.key :=
    of_decide_eq_true hfull
  have hadd : (BlockBuilder.holding offset records).addRecord record.key record
      = if offset + (blockOf offset records).encode.length < u64Limit then
          .ok (.new (offset + (blockOf offset records).encode.length),
            .full (blockOf offset records) (blockOf offset records).encode)
        else .error (.panic "block offset overflow") := by
    rw [BlockBuilder.addRecord, if_pos hcond]
    have hoffset : (BlockBuilder.holding offset records).blockOffset = offset := rfl
    simp only [BlockBuilder.cutBlock_holding, checkedAdd, hoffset]
    by_cases hlt : offset + (blockOf offset records).encode.length < u64Limit
    · simp only [if_pos hlt]
    · simp only [if_neg hlt]
  have hnext : ∀ next : Nat, (BlockBuilder.new next).addRecord record.key record
      = .ok (.holding next [record], .enoughSpace) := by
    intro next
    have hpush : (BlockBuilder.holding next []).push record.key record
        = .holding next ([] ++ [record]) :=
      BlockBuilder.holding_push (List.pairwise_singleton _ record)
    rw [BlockBuilder.addRecord, if_neg (fun h => h.1 rfl)]
    exact congrArg (fun b => Except.ok (b, BlockBuilderState.enoughSpace)) hpush
  rw [flushWinner, flushRecord]
  show Except.bind _ _ = _
  rw [hadd]
  by_cases hlt : offset + (blockOf offset records).encode.length < u64Limit
  · simp only [if_pos hlt, Except.bind, hnext]
    rfl
  · simp only [if_neg hlt, Except.bind]

/-! ### The loop -/

/-- The loop over all records: the closed chunks laid out, the open chunk in the builder. -/
theorem foldlM_flushWinner {offset : Nat} {cur records : List MemtableRecord}
    (blocks : List Block) (hoffset : offset < u64Limit) (hsorted : KeySorted (cur ++ records)) :
    records.foldlM flushWinner (.holding offset cur, blocks)
      = if layoutEnd offset (greedy blockFull cur records).1 < u64Limit then
          .ok (.holding (layoutEnd offset (greedy blockFull cur records).1)
            (greedy blockFull cur records).2, blocks ++ layout offset (greedy blockFull cur records).1)
        else .error (.panic "block offset overflow") := by
  induction records generalizing offset cur blocks with
  | nil =>
    rw [greedy, layoutEnd, layout, if_pos hoffset, List.append_nil]
    rfl
  | cons record records ih =>
    have hassoc : cur ++ record :: records = (cur ++ [record]) ++ records := by simp
    have hpre : KeySorted (cur ++ [record]) := by
      rw [hassoc] at hsorted
      exact (List.pairwise_append.mp hsorted).1
    have htail : KeySorted ([record] ++ records) := (List.pairwise_append.mp hsorted).2.1
    rw [List.foldlM_cons]
    cases hfull : blockFull cur record with
    | false =>
      rw [greedy_cons_of_fits records hfull, flushWinner_fits blocks hpre hfull]
      exact ih blocks hoffset (hassoc ▸ hsorted)
    | true =>
      rw [greedy_cons_of_full records hfull, flushWinner_cuts blocks hfull, layoutEnd, layout]
      split
      · rename_i hnext
        show records.foldlM flushWinner _ = _
        rw [ih _ hnext htail, List.append_assoc]
        rfl
      · rename_i hnext
        have hend : ¬ layoutEnd (offset + (blockOf offset cur).encode.length)
            (greedy blockFull [record] records).1 < u64Limit :=
          fun h => hnext (lt_of_le_of_lt (le_layoutEnd _ _) h)
        rw [if_neg hend]
        rfl

/-- The last key of a sorted list is empty only where the empty key is alone. -/
theorem keys_eq_of_getLast_nil {records : List MemtableRecord} {last : MemtableRecord}
    (hsorted : KeySorted records) (hlast : records.getLast? = some last) (hkey : last.key = []) :
    records.map MemtableRecord.key = [[]] := by
  obtain ⟨front, rfl⟩ := List.getLast?_eq_some_iff.mp hlast
  cases front with
  | nil => simp [hkey]
  | cons a as =>
    have hlt : a.key < last.key :=
      (List.pairwise_append.mp hsorted).2.2 a List.mem_cons_self last (List.mem_singleton_self _)
    exact absurd (hkey ▸ hlt) (not_key_lt_nil a.key)

/-- The last block, when the builder holds records that are not the empty key alone. -/
theorem finishBlocks_ok {offset : Nat} {records : List MemtableRecord} (blocks : List Block)
    (hsorted : KeySorted records) (hkeys : records.map MemtableRecord.key ≠ [[]]) :
    finishBlocks (.holding offset records, blocks)
      = .ok (blocks ++ (closeChunk records).map (blockOf offset)) := by
  cases records with
  | nil =>
    rw [closeChunk, List.map_nil, List.append_nil]
    rfl
  | cons a as =>
    obtain ⟨last, hlast⟩ : ∃ last, (a :: as).getLast? = some last :=
      ⟨_, List.getLast?_eq_some_getLast (List.cons_ne_nil a as)⟩
    have hne : last.key ≠ [] := fun hkey => hkeys (keys_eq_of_getLast_nil hsorted hlast hkey)
    have hbuild : (BlockBuilder.holding offset (a :: as)).build
        = .ok (some (blockOf offset (a :: as), [])) := by
      simp [BlockBuilder.build, BlockBuilder.holding, blockOf, hlast, Option.filter_some, hne]
    rw [finishBlocks]
    show Except.bind _ _ = _
    rw [hbuild]
    rfl

/-- The empty key alone: `build` unwraps a last key that was never set. -/
theorem finishBlocks_panic {offset : Nat} {records : List MemtableRecord} (blocks : List Block)
    (hkeys : records.map MemtableRecord.key = [[]]) :
    finishBlocks (.holding offset records, blocks)
      = .error (.panic "called `Option::unwrap()` on a `None` value") := by
  obtain ⟨record, rfl⟩ : ∃ record, records = [record] := by
    rw [← List.length_eq_one_iff, ← List.length_map (f := MemtableRecord.key), hkeys]
    rfl
  have hkey : record.key = [] := by simpa using hkeys
  have hbuild : (BlockBuilder.holding offset [record]).build
      = .error (.panic "called `Option::unwrap()` on a `None` value") := by
    simp [BlockBuilder.build, BlockBuilder.holding, Option.filter_some, hkey]
  rw [finishBlocks]
  show Except.bind _ _ = _
  rw [hbuild]
  rfl

/-! ### The two outcomes -/

/-- The offset of the last block of a record list. -/
def lastBlockOffset (records : List MemtableRecord) : Nat :=
  layoutEnd 0 (greedy blockFull [] records).1

/-- The block building loop succeeds: the records are not the empty key alone, and the offset
of the last block fits in `u64`. -/
def Buildable (records : List MemtableRecord) : Prop :=
  records.map MemtableRecord.key ≠ [[]] ∧ lastBlockOffset records < u64Limit

instance (records : List MemtableRecord) : Decidable (Buildable records) :=
  inferInstanceAs (Decidable (_ ∧ _))

/-- The blocks of a record list. -/
def blocksOf (records : List MemtableRecord) : List Block := layout 0 (chunks blockFull records)

theorem blockFull_nil (record : MemtableRecord) : blockFull [] record = false := rfl

/-- The open chunk is the empty key alone exactly where the whole list is. -/
theorem openChunk_keys_iff {records : List MemtableRecord} (hsorted : KeySorted records) :
    (greedy blockFull [] records).2.map MemtableRecord.key = [[]] ↔
      records.map MemtableRecord.key = [[]] := by
  constructor
  · intro hopen
    have hflat : (greedy blockFull [] records).1.flatten ++ (greedy blockFull [] records).2
        = records := flatten_greedy [] records
    obtain ⟨last, hlast⟩ : ∃ last, (greedy blockFull [] records).2 = [last] := by
      rw [← List.length_eq_one_iff, ← List.length_map (f := MemtableRecord.key), hopen]
      rfl
    have hkey : last.key = [] := by simpa [hlast] using hopen
    have hgetLast : records.getLast? = some last := by
      rw [← hflat, hlast, List.getLast?_append_of_ne_nil _ (List.cons_ne_nil last [])]
      rfl
    exact keys_eq_of_getLast_nil hsorted hgetLast hkey
  · intro hkeys
    obtain ⟨record, rfl⟩ : ∃ record, records = [record] := by
      rw [← List.length_eq_one_iff, ← List.length_map (f := MemtableRecord.key), hkeys]
      rfl
    rw [greedy_cons_of_fits [] (blockFull_nil record)]
    exact hkeys

theorem sorted_openChunk {records : List MemtableRecord} (hsorted : KeySorted records) :
    KeySorted (greedy blockFull [] records).2 := by
  rw [← List.nil_append records, ← @flatten_greedy _ blockFull [] records] at hsorted
  exact (List.pairwise_append.mp hsorted).2.1

/-- The loop before the last block, from the start. -/
theorem foldlM_flushWinner_new {records : List MemtableRecord} (hsorted : KeySorted records) :
    records.foldlM flushWinner (BlockBuilder.new 0, [])
      = if lastBlockOffset records < u64Limit then
          .ok (.holding (lastBlockOffset records) (greedy blockFull [] records).2,
            layout 0 (greedy blockFull [] records).1)
        else .error (.panic "block offset overflow") :=
  foldlM_flushWinner [] (Nat.two_pow_pos 64) hsorted

/-- A buildable list gives the blocks of its chunks. -/
theorem buildBlocks_ok {records : List MemtableRecord} (hsorted : KeySorted records)
    (hbuildable : Buildable records) : buildBlocks records = .ok (blocksOf records) := by
  have hopen : (greedy blockFull [] records).2.map MemtableRecord.key ≠ [[]] := fun h =>
    hbuildable.1 ((openChunk_keys_iff hsorted).mp h)
  have hblocks : blocksOf records = layout 0 (greedy blockFull [] records).1 ++
      (closeChunk (greedy blockFull [] records).2).map (blockOf (lastBlockOffset records)) := by
    rw [blocksOf, chunks]
    cases (greedy blockFull [] records).2 with
    | nil => simp [closeChunk]
    | cons a as => rw [closeChunk, layout_append]; rfl
  rw [buildBlocks, foldlM_flushWinner_new hsorted, if_pos hbuildable.2]
  show finishBlocks _ = _
  rw [finishBlocks_ok _ (sorted_openChunk hsorted) hopen, hblocks]

/-- A list that is not buildable panics. -/
theorem buildBlocks_panic {records : List MemtableRecord} (hsorted : KeySorted records)
    (hbuildable : ¬ Buildable records) :
    ∃ message, buildBlocks records = .error (.panic message) := by
  rw [buildBlocks, foldlM_flushWinner_new hsorted]
  by_cases hoffset : lastBlockOffset records < u64Limit
  · have hkeys : records.map MemtableRecord.key = [[]] := by
      by_contra hkeys
      exact hbuildable ⟨hkeys, hoffset⟩
    rw [if_pos hoffset]
    exact ⟨_, finishBlocks_panic _ ((openChunk_keys_iff hsorted).mpr hkeys)⟩
  · rw [if_neg hoffset]
    exact ⟨_, rfl⟩

/-! ### Key bounds -/

/-- The first key of the block is its smallest record key and the last key its largest. -/
def Block.KeyBounds (block : Block) : Prop :=
  IsLeast {key | key ∈ block.records.map MemtableRecord.key} block.firstKey ∧
    IsGreatest {key | key ∈ block.records.map MemtableRecord.key} block.lastKey

/-- A block of records in ascending order carries its bounds. -/
theorem blockOf_keyBounds {offset : Nat} {records : List MemtableRecord}
    (hne : records ≠ []) (hsorted : KeySorted records) : (blockOf offset records).KeyBounds := by
  have hkeys : (records.map MemtableRecord.key).Pairwise (· < ·) := List.pairwise_map.mpr hsorted
  constructor
  · cases records with
    | nil => exact absurd rfl hne
    | cons a as =>
      refine ⟨List.mem_cons_self, ?_⟩
      intro key hkey
      rcases List.mem_cons.mp hkey with rfl | hkey
      · exact le_rfl
      · exact le_of_lt ((List.pairwise_cons.mp hkeys).1 key hkey)
  · obtain ⟨front, last, rfl⟩ : ∃ front last, records = front ++ [last] :=
      ⟨_, _, (List.dropLast_append_getLast hne).symm⟩
    have hlast : (blockOf offset (front ++ [last])).lastKey = last.key := by
      simp [blockOf]
    rw [hlast]
    refine ⟨by simp [Block.records, blockOf], ?_⟩
    intro key hkey
    obtain ⟨record, hrecord, rfl⟩ := List.mem_map.mp hkey
    rcases List.mem_append.mp hrecord with hfront | hlast'
    · exact le_of_lt ((List.pairwise_append.mp hsorted).2.2 record hfront last
        (List.mem_singleton_self last))
    · rw [List.mem_singleton.mp hlast']

/-- Every block of a layout is the block of one of the chunks. -/
theorem exists_chunk_of_mem_layout {offset : Nat} {chunks : List (List MemtableRecord)}
    {block : Block} (h : block ∈ layout offset chunks) :
    ∃ chunk ∈ chunks, ∃ at_, block = blockOf at_ chunk := by
  induction chunks generalizing offset with
  | nil => cases h
  | cons chunk chunks ih =>
    rcases List.mem_cons.mp h with rfl | h
    · exact ⟨chunk, List.mem_cons_self, offset, rfl⟩
    · obtain ⟨c, hc, at_, rfl⟩ := ih h
      exact ⟨c, List.mem_cons_of_mem chunk hc, at_, rfl⟩

/-- A chunk of a sorted list is sorted. -/
theorem sorted_of_mem_chunks {records chunk : List MemtableRecord} (hsorted : KeySorted records)
    (h : chunk ∈ chunks blockFull records) : KeySorted chunk := by
  rw [← @flatten_chunks _ blockFull records] at hsorted
  exact List.Pairwise.sublist (List.sublist_flatten_of_mem h) hsorted

/-- Every block of a sorted list carries its bounds. -/
theorem blocksOf_keyBounds {records : List MemtableRecord} (hsorted : KeySorted records) :
    ∀ block ∈ blocksOf records, block.KeyBounds := by
  intro block hblock
  obtain ⟨chunk, hchunk, at_, rfl⟩ := exists_chunk_of_mem_layout hblock
  exact blockOf_keyBounds (ne_nil_of_mem_chunks blockFull_nil hchunk)
    (sorted_of_mem_chunks hsorted hchunk)

/-- The blocks of a layout hold the chunks. -/
theorem records_layout (offset : Nat) (chunks : List (List MemtableRecord)) :
    (layout offset chunks).flatMap Block.records = chunks.flatten := by
  induction chunks generalizing offset with
  | nil => rfl
  | cons chunk chunks ih =>
    rw [layout, List.flatMap_cons, ih, List.flatten_cons]
    rfl

/-- The blocks of a list hold its records in order. -/
theorem records_blocksOf (records : List MemtableRecord) :
    (blocksOf records).flatMap Block.records = records := by
  rw [blocksOf, records_layout, flatten_chunks]

/-- The loop returned and every block carries its bounds. -/
def BuildsBlocks (result : Exec (List Block)) : Prop :=
  ∃ blocks, result = .ok blocks ∧ ∀ block ∈ blocks, block.KeyBounds

/-- The loop succeeds exactly on the buildable lists. -/
theorem buildsBlocks_iff {records : List MemtableRecord} (hsorted : KeySorted records) :
    BuildsBlocks (buildBlocks records) ↔ Buildable records := by
  constructor
  · rintro ⟨blocks, hblocks, -⟩
    by_contra hbuildable
    obtain ⟨message, hpanic⟩ := buildBlocks_panic hsorted hbuildable
    rw [hpanic] at hblocks
    cases hblocks
  · intro hbuildable
    exact ⟨_, buildBlocks_ok hsorted hbuildable, blocksOf_keyBounds hsorted⟩

/-! ### Records that fit in memory -/

theorem recordLength_le_recordsSize {records : List MemtableRecord} {record : MemtableRecord}
    (h : record ∈ records) : record.recordLength record.key ≤ recordsSize records :=
  List.single_le_sum (fun _ _ => Nat.zero_le _) _
    (List.mem_map_of_mem (f := fun r : MemtableRecord => r.recordLength r.key) h)

theorem keyLength_le_recordsSize {records : List MemtableRecord} {record : MemtableRecord}
    (h : record ∈ records) : record.key.length + 17 ≤ recordsSize records := by
  have hle := recordLength_le_recordsSize h
  rw [MemtableRecord.recordLength] at hle
  omega

theorem length_flatMap_encode (records : List MemtableRecord) :
    (records.flatMap fun record => record.encode record.key).length = recordsSize records := by
  rw [List.length_flatMap, recordsSize]
  simp only [MemtableRecord.length_encode]

/-- A record takes at least a byte. -/
theorem length_le_recordsSize (records : List MemtableRecord) :
    records.length ≤ recordsSize records := by
  induction records with
  | nil => exact Nat.zero_le _
  | cons record records ih =>
    have hcons : recordsSize (record :: records)
        = record.recordLength record.key + recordsSize records := rfl
    have hpos : 1 ≤ record.recordLength record.key := by
      rw [MemtableRecord.recordLength]
      omega
    rw [hcons, List.length_cons]
    omega

/-- An encoded block is at most five times the size of its records. -/
theorem length_encode_blockOf_le {offset : Nat} {records : List MemtableRecord}
    (hne : records ≠ []) : (blockOf offset records).encode.length ≤ 5 * recordsSize records := by
  obtain ⟨first, hfirst⟩ : ∃ first, records.head? = some first :=
    ⟨_, List.head?_eq_some_head hne⟩
  obtain ⟨last, hlast⟩ : ∃ last, records.getLast? = some last :=
    ⟨_, List.getLast?_eq_some_getLast hne⟩
  have hdata := length_flatMap_encode records
  have hlength : (blockOf offset records).encode.length
      = 20 + first.key.length + last.key.length + recordsSize records := by
    simp only [Block.encode, Block.body, Block.records, blockOf, hfirst, hlast, Option.map_some,
      Option.getD_some, List.length_append, length_beBytes, hdata]
    omega
  have hfirstLe := keyLength_le_recordsSize (List.mem_of_head? hfirst)
  have hlastLe := keyLength_le_recordsSize (List.mem_of_getLast? hlast)
  omega

theorem layoutEnd_le {offset : Nat} {chunks : List (List MemtableRecord)}
    (hne : ∀ chunk ∈ chunks, chunk ≠ []) :
    layoutEnd offset chunks ≤ offset + 5 * recordsSize chunks.flatten := by
  induction chunks generalizing offset with
  | nil => simp [layoutEnd]
  | cons chunk chunks ih =>
    have hblock : (blockOf offset chunk).encode.length ≤ 5 * recordsSize chunk :=
      length_encode_blockOf_le (hne chunk List.mem_cons_self)
    have htail : layoutEnd (offset + (blockOf offset chunk).encode.length) chunks
        ≤ offset + (blockOf offset chunk).encode.length + 5 * recordsSize chunks.flatten :=
      ih fun c hc => hne c (List.mem_cons_of_mem chunk hc)
    have hsum : recordsSize (chunk :: chunks).flatten
        = recordsSize chunk + recordsSize chunks.flatten := by
      simp [recordsSize]
    rw [layoutEnd, hsum]
    omega

/-- The records are small enough to be in memory together: less than `2 ^ 61` bytes. -/
def FitsInMemory (records : List MemtableRecord) : Prop := recordsSize records < 2 ^ 61

instance (records : List MemtableRecord) : Decidable (FitsInMemory records) :=
  inferInstanceAs (Decidable (_ < _))

/-- Records in memory can be built unless they are the empty key alone: there are never enough
of them for an offset to leave `u64`. -/
theorem buildable_iff_of_fits {records : List MemtableRecord} (hsize : FitsInMemory records) :
    Buildable records ↔ records.map MemtableRecord.key ≠ [[]] := by
  have hflat : (greedy blockFull [] records).1.flatten ++ (greedy blockFull [] records).2
      = records := flatten_greedy [] records
  have hclosed : recordsSize (greedy blockFull [] records).1.flatten ≤ recordsSize records := by
    have hsum := congrArg recordsSize hflat
    simp only [recordsSize, List.map_append, List.sum_append] at hsum ⊢
    omega
  have hend : lastBlockOffset records
      ≤ 0 + 5 * recordsSize (greedy blockFull [] records).1.flatten :=
    layoutEnd_le fun chunk hchunk => ne_nil_of_mem_greedy blockFull_nil hchunk
  have hlt : lastBlockOffset records < u64Limit := by
    unfold u64Limit
    unfold FitsInMemory at hsize
    omega
  exact ⟨fun h => h.1, fun h => ⟨h, hlt⟩⟩

end CereDB.Storage

import CereDB.Lib.ArgMax
import CereDB.Proofs.TableRead

/-!
# `CereDB.Proofs.ReadLevels`: reads as functions of what the tables hold

`contents` gives the records of every table. Under `TablesStored`, which says that the files hold
them, `ReadManager::get` and `ReadManager::scan_records_range` are functions of the memtable, the
levels and `contents`:

* `run_get`: a memtable version up to the sequence number, or else the first hit of the levels
  (`tablesHit`), without a tombstone.
* `run_scanRecordsRange`: for every key of the range the newest version (`scanVersion`) of all
  places up to the sequence number, without tombstones.

`tablesHit_eq_argmax` says what the first hit is under the order of the levels: the version with
the largest sequence number of all tables.
-/

set_option autoImplicit false

namespace CereDB.Storage

open CereDB.Lib ReadManager

/-- The records of every table. -/
abbrev Contents := SSTableMeta → List MemtableRecord

/-- The files hold the contents of the tables. -/
def TablesStored (fastbloom : FastBloom) (files : String → Option Bytes) (contents : Contents)
    (sstables : List SSTableMeta) : Prop :=
  ∀ sstable ∈ sstables, sstable.Stores fastbloom files (contents sstable)

/-- The order of versions: by sequence number, and a delete above a put of the same number. -/
def MemtableRecord.rank (record : MemtableRecord) : Nat ×ₗ Bool :=
  toLex (record.lsn, record.recordType == .delete)

theorem isNewerRecord_iff (candidate current : MemtableRecord) :
    isNewerRecord candidate current = true ↔ current.rank < candidate.rank := by
  have hlt : (RecordType.put == RecordType.delete) < true := by decide
  rw [isNewerRecord, MemtableRecord.rank, MemtableRecord.rank, Prod.Lex.toLex_lt_toLex]
  cases candidate.recordType <;> cases current.recordType <;> simp [hlt]
  exact or_congr_right eq_comm

theorem lsn_le_of_rank_le {a b : MemtableRecord} (h : a.rank ≤ b.rank) : a.lsn ≤ b.lsn := by
  rw [MemtableRecord.rank, MemtableRecord.rank, Prod.Lex.toLex_le_toLex] at h
  rcases h with hlt | ⟨heq, -⟩
  · exact hlt.le
  · exact heq.le

/-- The versions of a key in some tables, in the order of the tables. -/
def tableVersions (contents : Contents) (sstables : List SSTableMeta) (key : Key) :
    List MemtableRecord :=
  sstables.filterMap fun sstable => tableGet (contents sstable) key

theorem mem_tableVersions {contents : Contents} {sstables : List SSTableMeta} {key : Key}
    {record : MemtableRecord} : record ∈ tableVersions contents sstables key ↔
      ∃ sstable ∈ sstables, tableGet (contents sstable) key = some record :=
  List.mem_filterMap

theorem tableGet_some {records : List MemtableRecord} {key : Key} {record : MemtableRecord}
    (h : tableGet records key = some record) : record ∈ records ∧ record.key = key :=
  ⟨List.mem_of_find?_eq_some h, by simpa using List.find?_some h⟩

/-- In a sorted table the record of a key is the only one. -/
theorem tableGet_of_mem {records : List MemtableRecord} (hsorted : KeySorted records)
    {record : MemtableRecord} (hmem : record ∈ records) :
    tableGet records record.key = some record := by
  obtain ⟨front, back, rfl⟩ := List.append_of_mem hmem
  have hfront : tableGet front record.key = none := by
    rw [tableGet, List.find?_eq_none]
    intro other hother heq
    have hlt := (List.pairwise_append.mp hsorted).2.2 other hother record List.mem_cons_self
    rw [beq_iff_eq.mp heq] at hlt
    exact lt_irrefl _ hlt
  rw [tableGet_append, hfront, tableGet, List.find?_cons]
  simp

/-- The filter of a sorted table for a key. -/
theorem filter_key_eq {records : List MemtableRecord} (hsorted : KeySorted records) (key : Key)
    (p : MemtableRecord → Bool) :
    records.filter (fun record => record.key == key && p record)
      = ((tableGet records key).toList).filter p := by
  induction records with
  | nil => rfl
  | cons record records ih =>
    have hrest := ih (List.pairwise_cons.mp hsorted).2
    by_cases hkey : record.key = key
    · have hnone : tableGet records key = none := by
        rw [tableGet, List.find?_eq_none]
        intro other hother heq
        have hlt := (List.pairwise_cons.mp hsorted).1 other hother
        rw [beq_iff_eq.mp heq, hkey] at hlt
        exact lt_irrefl _ hlt
      have hhere : tableGet (record :: records) key = some record := by
        rw [tableGet, List.find?_cons, beq_iff_eq.mpr hkey]
      rw [hnone] at hrest
      rw [hhere, List.filter_cons, hrest, beq_iff_eq.mpr hkey, Bool.true_and,
        Option.toList_some, List.filter_singleton]
      cases p record <;> rfl
    · have hskip : tableGet (record :: records) key = tableGet records key := by
        rw [tableGet, List.find?_cons, beq_eq_false_iff_ne.mpr hkey]
        rfl
      rw [hskip, List.filter_cons, hrest, beq_eq_false_iff_ne.mpr hkey, Bool.false_and]
      rfl

/-! ### Point reads -/

/-- The hit of a level: in level 0 the first version with the largest sequence number, in a deeper
level that of the last file with the key. -/
def levelHit (contents : Contents) (key : Key) (level : Nat × List SSTableMeta) :
    Option MemtableRecord :=
  if level.1 = 0 then (tableVersions contents level.2 key).argmax MemtableRecord.lsn
  else level.2.reverse.findSome? fun sstable => tableGet (contents sstable) key

/-- The hit of the first level that has one. -/
def tablesHit (contents : Contents) (key : Key) (levels : List (Nat × List SSTableMeta)) :
    Option MemtableRecord :=
  levels.findSome? (levelHit contents key)

section Run
variable {fastbloom : FastBloom} {files : String → Option Bytes} {contents : Contents}

theorem run_getFromLevel0 {sstables : List SSTableMeta}
    (hstored : TablesStored fastbloom files contents sstables) (key : Key) (sequenceNumber : Nat)
    (best : Option MemtableRecord) (cur : FileProg.Cursor) :
    ∃ cur', FileProg.run fileErrors files
        (getFromLevel0 fastbloom key sequenceNumber sstables best) cur
      = .ok (keepBest MemtableRecord.lsn best (tableVersions contents sstables key), cur') := by
  induction sstables generalizing best cur with
  | nil => exact ⟨cur, rfl⟩
  | cons sstable sstables ih =>
    obtain ⟨cur₁, hfound⟩ := (hstored sstable List.mem_cons_self).run_getFromSingleSstable
      key sequenceNumber cur
    have hrest := fun best => ih (fun t ht => hstored t (List.mem_cons_of_mem sstable ht)) best cur₁
    rw [getFromLevel0, FileProg.run_bind_ok hfound, tableVersions, List.filterMap_cons]
    cases hget : tableGet (contents sstable) key with
    | none => cases best <;> exact hrest _
    | some record =>
      cases best with
      | none => exact hrest (some record)
      | some current =>
        simp only
        rw [keepBest_cons]
        exact hrest (if current.lsn < record.lsn then some record else some current)

theorem run_getFromDeeper {sstables : List SSTableMeta}
    (hstored : TablesStored fastbloom files contents sstables) (key : Key) (sequenceNumber : Nat)
    (cur : FileProg.Cursor) :
    ∃ cur', FileProg.run fileErrors files (getFromDeeper fastbloom key sequenceNumber sstables) cur
      = .ok (sstables.findSome? fun sstable => tableGet (contents sstable) key, cur') := by
  induction sstables generalizing cur with
  | nil => exact ⟨cur, rfl⟩
  | cons sstable sstables ih =>
    obtain ⟨cur₁, hfound⟩ := (hstored sstable List.mem_cons_self).run_getFromSingleSstable
      key sequenceNumber cur
    rw [getFromDeeper, FileProg.run_bind_ok hfound, List.findSome?_cons]
    cases hget : tableGet (contents sstable) key with
    | some record => exact ⟨cur₁, rfl⟩
    | none => exact ih (fun t ht => hstored t (List.mem_cons_of_mem sstable ht)) cur₁

/-- A record unless it is a tombstone. -/
def live (record : Option MemtableRecord) : Option MemtableRecord :=
  record.filter fun record => record.recordType == .put

/-- What `get_from_sstable` does with the hit of a level. -/
def afterHit (rest : ReadFile (Option MemtableRecord)) :
    Option MemtableRecord → ReadFile (Option MemtableRecord)
  | some record =>
    match record.recordType with
    | .delete => pure none
    | .put => pure (some record)
  | none => rest

theorem run_getFromSstable {levels : List (Nat × List SSTableMeta)}
    (hstored : TablesStored fastbloom files contents (levels.flatMap Prod.snd)) (key : Key)
    (sequenceNumber : Nat) (cur : FileProg.Cursor) :
    ∃ cur', FileProg.run fileErrors files (getFromSstable fastbloom key sequenceNumber levels) cur
      = .ok (live (tablesHit contents key levels), cur') := by
  induction levels generalizing cur with
  | nil => exact ⟨cur, rfl⟩
  | cons level levels ih =>
    have hhere : TablesStored fastbloom files contents level.2 := fun t ht =>
      hstored t (List.mem_flatMap.mpr ⟨level, List.mem_cons_self, ht⟩)
    have hrest := ih fun t ht => by
      obtain ⟨l, hl, htl⟩ := List.mem_flatMap.mp ht
      exact hstored t (List.mem_flatMap.mpr ⟨l, List.mem_cons_of_mem level hl, htl⟩)
    obtain ⟨number, sstables⟩ := level
    -- the search of this level, whichever of the two it is
    have hsearch : ∃ cur₁, FileProg.run fileErrors files
        (getFromSstable fastbloom key sequenceNumber ((number, sstables) :: levels)) cur
        = FileProg.run fileErrors files (afterHit (getFromSstable fastbloom key sequenceNumber
            levels) (levelHit contents key (number, sstables))) cur₁ := by
      rw [getFromSstable, levelHit]
      by_cases hnumber : number = 0
      · obtain ⟨cur₁, hhit⟩ := run_getFromLevel0 hhere key sequenceNumber none cur
        rw [if_pos hnumber, if_pos hnumber, FileProg.run_bind_ok hhit]
        exact ⟨cur₁, rfl⟩
      · obtain ⟨cur₁, hhit⟩ := run_getFromDeeper
          (fun t ht => hhere t (List.mem_reverse.mp ht)) key sequenceNumber cur
        rw [if_neg hnumber, if_neg hnumber, FileProg.run_bind_ok hhit]
        exact ⟨cur₁, rfl⟩
    obtain ⟨cur₁, hhit⟩ := hsearch
    rw [hhit, tablesHit, List.findSome?_cons]
    cases hlevel : levelHit contents key (number, sstables) with
    | none => exact hrest cur₁
    | some record =>
      refine ⟨cur₁, ?_⟩
      show FileProg.run fileErrors files (afterHit _ (some record)) cur₁
        = .ok (live (some record), cur₁)
      rw [afterHit, live, Option.filter_some]
      cases record.recordType <;> rfl

end Run

/-! ### The memtable -/

/-- Every record carries the sequence number of its key, and that is a `u64`. -/
def Memtable.Valid (memtable : Memtable) : Prop :=
  ∀ entry ∈ memtable.toList, entry.2.lsn = (ofLex entry.1).2 ∧ (ofLex entry.1).2 < u64Limit

/-- The versions of a key up to a sequence number, oldest first. -/
def Memtable.versions (memtable : Memtable) (key : Key) (sequenceNumber : Nat) :
    List MemtableRecord :=
  (memtable.toList.filter fun entry =>
    (ofLex entry.1).1 == key && decide ((ofLex entry.1).2 ≤ sequenceNumber)).map Prod.snd

theorem Memtable.mem_versions {memtable : Memtable} {key : Key} {sequenceNumber : Nat}
    {record : MemtableRecord} : record ∈ memtable.versions key sequenceNumber ↔
      ∃ lsn ≤ sequenceNumber, memtable[toLex (key, lsn)]? = some record := by
  rw [Memtable.versions, List.mem_map]
  constructor
  · rintro ⟨⟨composite, found⟩, hmem, rfl⟩
    obtain ⟨hentry, hkey⟩ := List.mem_filter.mp hmem
    rw [Bool.and_eq_true, beq_iff_eq, decide_eq_true_iff] at hkey
    refine ⟨(ofLex composite).2, hkey.2, ?_⟩
    rw [← hkey.1]
    exact (OrdMap.mem_toList_iff memtable _ _).mp hentry
  · rintro ⟨lsn, hle, hget⟩
    refine ⟨(toLex (key, lsn), record), List.mem_filter.mpr ⟨?_, ?_⟩, rfl⟩
    · exact (OrdMap.mem_toList_iff memtable _ _).mpr hget
    · rw [Bool.and_eq_true, beq_iff_eq, decide_eq_true_iff]
      exact ⟨rfl, hle⟩

/-- The versions of a key ascend. -/
theorem Memtable.Valid.pairwise_versions {memtable : Memtable} (h : memtable.Valid) (key : Key)
    (sequenceNumber : Nat) :
    (memtable.versions key sequenceNumber).Pairwise fun a b => a.rank < b.rank := by
  rw [Memtable.versions, List.pairwise_map]
  have hsorted : (memtable.toList.filter fun entry => (ofLex entry.1).1 == key &&
      decide ((ofLex entry.1).2 ≤ sequenceNumber)).Pairwise fun a b => a.1 < b.1 :=
    (OrdMap.sorted_toList memtable).sublist List.filter_sublist
  refine hsorted.imp_of_mem ?_
  intro a b ha hb hlt
  obtain ⟨hamem, hakey⟩ := List.mem_filter.mp ha
  obtain ⟨hbmem, hbkey⟩ := List.mem_filter.mp hb
  rw [Bool.and_eq_true, beq_iff_eq] at hakey hbkey
  -- the keys agree, so the numbers ascend
  have hlsn : (ofLex a.1).2 < (ofLex b.1).2 := by
    rcases (Prod.Lex.lt_iff.mp hlt) with hkey | ⟨-, hlsn⟩
    · rw [hakey.1, hbkey.1] at hkey
      exact absurd hkey (lt_irrefl _)
    · exact hlsn
  rw [MemtableRecord.rank, MemtableRecord.rank, Prod.Lex.toLex_lt_toLex, (h a hamem).1,
    (h b hbmem).1]
  exact .inl hlsn

/-- The newest version of a key up to a sequence number. -/
theorem getFromMemtable_eq (memtable : Memtable) (key : Key) (sequenceNumber : Nat) :
    getFromMemtable memtable key sequenceNumber
      = (memtable.versions key sequenceNumber).getLast? := by
  have hfilter : (fun entry : (Key ×ₗ Nat) × MemtableRecord => withinBounds
        (.included (toLex (key, 0)), .included (toLex (key, sequenceNumber))) entry.1)
      = fun entry => (ofLex entry.1).1 == key && decide ((ofLex entry.1).2 ≤ sequenceNumber) := by
    funext entry
    rw [Bool.eq_iff_iff]
    simp only [withinBounds, Bool.and_eq_true, decide_eq_true_iff, beq_iff_eq, Prod.Lex.le_iff,
      ofLex_toLex, Nat.zero_le, and_true]
    constructor
    · rintro ⟨hlo | hlo, hhi | hhi⟩
      · exact absurd (hlo.trans hhi) (lt_irrefl _)
      · rw [hhi.1] at hlo
        exact absurd hlo (lt_irrefl _)
      · rw [hlo] at hhi
        exact absurd hhi (lt_irrefl _)
      · exact hhi
    · rintro ⟨hkey, hle⟩
      exact ⟨.inr hkey.symm, .inr ⟨hkey, hle⟩⟩
  rw [getFromMemtable, hfilter, Memtable.versions, List.getLast?_map]

theorem Memtable.Valid.getFromMemtable_eq_argmax {memtable : Memtable} (h : memtable.Valid)
    (key : Key) (sequenceNumber : Nat) :
    getFromMemtable memtable key sequenceNumber
      = (memtable.versions key sequenceNumber).argmax MemtableRecord.rank := by
  rw [getFromMemtable_eq, argmax_eq_getLast? _ (h.pairwise_versions key sequenceNumber)]

/-! ### Scans -/

theorem get?_keepNewer (merged : Merged) (key k : Key) (candidate : MemtableRecord) :
    (keepNewer merged key candidate)[k]? =
      if key = k then better MemtableRecord.rank merged[k]? (some candidate) else merged[k]? := by
  rw [keepNewer]
  by_cases hkey : key = k
  · subst hkey
    rw [if_pos rfl]
    cases hcurrent : merged[key]? with
    | none => simp only [OrdMap.get?_insert, if_true, better]
    | some current =>
      simp only [better]
      by_cases hnewer : isNewerRecord candidate current = true
      · rw [if_pos hnewer, if_pos ((isNewerRecord_iff _ _).mp hnewer), OrdMap.get?_insert,
          if_pos rfl]
      · rw [if_neg hnewer, if_neg (fun hlt => hnewer ((isNewerRecord_iff _ _).mpr hlt)), hcurrent]
  · rw [if_neg hkey]
    split
    · split
      · rw [OrdMap.get?_insert, if_neg hkey]
      · rfl
    · rw [OrdMap.get?_insert, if_neg hkey]

/-- The memtable entries of a key compete, the others leave it alone. -/
theorem get?_foldl_scanEntry (sequenceNumber : Nat) (entries : List ((Key ×ₗ Nat) × MemtableRecord))
    (merged : Merged) (k : Key) :
    (entries.foldl (scanEntry sequenceNumber) merged)[k]?
      = keepBest MemtableRecord.rank merged[k]? ((entries.filter fun entry =>
          (ofLex entry.1).1 == k && decide ((ofLex entry.1).2 ≤ sequenceNumber)).map Prod.snd) := by
  induction entries generalizing merged with
  | nil => rfl
  | cons entry entries ih =>
    rw [List.foldl_cons, ih, List.filter_cons, scanEntry]
    by_cases hlsn : sequenceNumber < (ofLex entry.1).2
    · rw [if_pos hlsn, decide_eq_false (not_le.mpr hlsn), Bool.and_false]
      rfl
    · rw [if_neg hlsn, decide_eq_true (not_lt.mp hlsn), Bool.and_true, get?_keepNewer]
      by_cases hkey : (ofLex entry.1).1 = k
      · rw [if_pos hkey, beq_iff_eq.mpr hkey]
        exact (keepBest_cons _ _ _ _).symm
      · rw [if_neg hkey, beq_eq_false_iff_ne.mpr hkey]
        rfl

theorem get?_foldl_scanRecord (range : KeyRange) (sequenceNumber : Nat)
    (records : List MemtableRecord) (merged : Merged) {k : Key} (hrange : keyInRange k range = true) :
    (records.foldl (scanRecord range sequenceNumber) merged)[k]?
      = keepBest MemtableRecord.rank merged[k]? (records.filter fun record =>
          record.key == k && decide (record.lsn ≤ sequenceNumber)) := by
  induction records generalizing merged with
  | nil => rfl
  | cons record records ih =>
    rw [List.foldl_cons, ih, List.filter_cons, scanRecord]
    by_cases hlsn : sequenceNumber < record.lsn
    · rw [if_pos hlsn, decide_eq_false (not_le.mpr hlsn), Bool.and_false]
      rfl
    · rw [if_neg hlsn, decide_eq_true (not_lt.mp hlsn), Bool.and_true]
      by_cases hkey : record.key = k
      · rw [hkey, hrange, beq_self_eq_true]
        simp only [Bool.not_true, Bool.false_eq_true, if_false, if_true]
        rw [get?_keepNewer, if_pos rfl, keepBest_cons]
      · rw [beq_eq_false_iff_ne.mpr hkey]
        simp only [Bool.false_eq_true, if_false]
        split
        · rfl
        · rw [get?_keepNewer, if_neg hkey]

/-- A key outside the range is not collected from tables. -/
theorem get?_foldl_scanRecord_of_outside (range : KeyRange) (sequenceNumber : Nat)
    (records : List MemtableRecord) (merged : Merged) {k : Key} (hrange : keyInRange k range = false) :
    (records.foldl (scanRecord range sequenceNumber) merged)[k]? = merged[k]? := by
  induction records generalizing merged with
  | nil => rfl
  | cons record records ih =>
    rw [List.foldl_cons, ih, scanRecord]
    split
    · rfl
    · split
      · rfl
      · rename_i hin
        have hkey : record.key ≠ k := by
          rintro rfl
          rw [hrange] at hin
          simp at hin
        rw [get?_keepNewer, if_neg hkey]

/-- The bounds of the composite keys are those of the keys. -/
theorem withinBounds_collectRangeBounds (range : KeyRange) {composite : Key ×ₗ Nat}
    (hlsn : (ofLex composite).2 < u64Limit) :
    withinBounds (collectRangeBounds range) composite = keyInRange (ofLex composite).1 range := by
  have hmax : (ofLex composite).2 ≤ maxLsn := Nat.le_sub_one_of_lt hlsn
  have hno : ¬ maxLsn < (ofLex composite).2 := not_lt.mpr hmax
  obtain ⟨start, stop⟩ := range
  rw [keyInRange, withinBounds, withinBounds, collectRangeBounds]
  congr 1
  · cases start with
    | included key =>
      refine decide_eq_decide.mpr ?_
      rw [Prod.Lex.le_iff, ofLex_toLex]
      simp only [Nat.zero_le, and_true]
      exact le_iff_lt_or_eq.symm
    | excluded key =>
      refine decide_eq_decide.mpr ?_
      rw [Prod.Lex.lt_iff, ofLex_toLex]
      simp only [hno, and_false, or_false]
    | unbounded => rfl
  · cases stop with
    | included key =>
      refine decide_eq_decide.mpr ?_
      rw [Prod.Lex.le_iff, ofLex_toLex]
      simp only [hmax, and_true]
      exact le_iff_lt_or_eq.symm
    | excluded key =>
      refine decide_eq_decide.mpr ?_
      rw [Prod.Lex.lt_iff, ofLex_toLex]
      simp only [Nat.not_lt_zero, and_false, or_false]
    | unbounded => rfl

theorem Memtable.Valid.get?_scanMemtable {memtable : Memtable} (h : memtable.Valid)
    (range : KeyRange) (sequenceNumber : Nat) (k : Key) :
    (scanMemtable memtable range sequenceNumber)[k]? =
      if keyInRange k range then (memtable.versions k sequenceNumber).argmax MemtableRecord.rank
      else none := by
  rw [scanMemtable, get?_foldl_scanEntry, List.filter_filter, OrdMap.get?_empty, keepBest_none]
  by_cases hrange : keyInRange k range = true
  · rw [if_pos hrange, Memtable.versions]
    congr 2
    apply List.filter_congr
    intro entry hmem
    rw [withinBounds_collectRangeBounds range (h entry hmem).2]
    by_cases hkey : (ofLex entry.1).1 = k
    · rw [hkey, hrange, Bool.and_true]
    · rw [beq_eq_false_iff_ne.mpr hkey, Bool.false_and, Bool.false_and]
  · rw [if_neg hrange]
    have hnil : memtable.toList.filter (fun entry => ((ofLex entry.1).1 == k &&
        decide ((ofLex entry.1).2 ≤ sequenceNumber)) &&
          withinBounds (collectRangeBounds range) entry.1) = [] := by
      rw [List.filter_eq_nil_iff]
      intro entry hmem hin
      rw [withinBounds_collectRangeBounds range (h entry hmem).2] at hin
      simp only [Bool.and_eq_true, beq_iff_eq] at hin
      rw [hin.1.1] at hin
      exact hrange hin.2
    rw [hnil]
    rfl

/-- The version of a key a scan collects: the newest of all places up to the sequence number. -/
def scanVersion (memtable : Memtable) (contents : Contents) (sstables : List SSTableMeta)
    (key : Key) (sequenceNumber : Nat) : Option MemtableRecord :=
  (memtable.versions key sequenceNumber ++ (tableVersions contents sstables key).filter fun record =>
    decide (record.lsn ≤ sequenceNumber)).argmax MemtableRecord.rank

/-- What a scan collects before it drops the tombstones. -/
def scanMerged (memtable : Memtable) (contents : Contents) (sstables : List SSTableMeta)
    (range : KeyRange) (sequenceNumber : Nat) : Merged :=
  (sstables.flatMap contents).foldl (scanRecord range sequenceNumber)
    (scanMemtable memtable range sequenceNumber)

theorem filter_flatMap_contents {contents : Contents} {sstables : List SSTableMeta}
    (hsorted : ∀ sstable ∈ sstables, KeySorted (contents sstable)) (key : Key)
    (sequenceNumber : Nat) :
    (sstables.flatMap contents).filter (fun record => record.key == key &&
        decide (record.lsn ≤ sequenceNumber))
      = (tableVersions contents sstables key).filter fun record =>
          decide (record.lsn ≤ sequenceNumber) := by
  induction sstables with
  | nil => rfl
  | cons sstable sstables ih =>
    have hrest := ih fun t ht => hsorted t (List.mem_cons_of_mem sstable ht)
    rw [List.flatMap_cons, List.filter_append, hrest,
      filter_key_eq (hsorted sstable List.mem_cons_self), tableVersions, tableVersions,
      List.filterMap_cons]
    cases tableGet (contents sstable) key with
    | none => rfl
    | some record =>
      simp only [Option.toList_some, List.filter_cons, List.filter_nil]
      split <;> rfl

theorem get?_scanMerged {memtable : Memtable} (hvalid : memtable.Valid) {contents : Contents}
    {sstables : List SSTableMeta} (hsorted : ∀ sstable ∈ sstables, KeySorted (contents sstable))
    (range : KeyRange) (sequenceNumber : Nat) (k : Key) :
    (scanMerged memtable contents sstables range sequenceNumber)[k]? =
      if keyInRange k range then scanVersion memtable contents sstables k sequenceNumber
      else none := by
  rw [scanMerged]
  by_cases hrange : keyInRange k range = true
  · rw [get?_foldl_scanRecord range sequenceNumber _ _ hrange, hvalid.get?_scanMemtable,
      if_pos hrange, if_pos hrange, filter_flatMap_contents hsorted, keepBest_eq, scanVersion,
      argmax_append]
  · rw [get?_foldl_scanRecord_of_outside range sequenceNumber _ _ (Bool.eq_false_iff.mpr hrange),
      hvalid.get?_scanMemtable, if_neg hrange, if_neg hrange]

section Run
variable {fastbloom : FastBloom} {files : String → Option Bytes} {contents : Contents}

theorem result_of_run {α : Type} {p : ReadFile α} {a : α} {cur : FileProg.Cursor}
    (h : FileProg.run fileErrors files p ([], 0) = .ok (a, cur)) :
    FileProg.result fileErrors files p = .ok a := by
  rw [FileProg.result, h]
  rfl

theorem run_scanSstables {sstables : List SSTableMeta}
    (hstored : TablesStored fastbloom files contents sstables) (range : KeyRange)
    (sequenceNumber : Nat) (merged : Merged) (cur : FileProg.Cursor) :
    ∃ cur', FileProg.run fileErrors files (scanSstables range sequenceNumber sstables merged) cur
      = .ok ((sstables.flatMap contents).foldl (scanRecord range sequenceNumber) merged, cur') := by
  induction sstables generalizing merged cur with
  | nil => exact ⟨cur, rfl⟩
  | cons sstable sstables ih =>
    obtain ⟨cur₁, hscan⟩ := (hstored sstable List.mem_cons_self).run_scanSingleSstable
      range sequenceNumber merged cur
    obtain ⟨cur₂, hrest⟩ := ih (fun t ht => hstored t (List.mem_cons_of_mem sstable ht)) _ cur₁
    refine ⟨cur₂, ?_⟩
    rw [scanSstables, FileProg.run_bind_ok hscan, hrest, List.flatMap_cons, List.foldl_append]

/-- A scan of undisturbed files. -/
theorem run_scanRecordsRange (memtable : Memtable) {levels : Levels}
    (hstored : TablesStored fastbloom files contents (levels.byLevel.flatMap Prod.snd))
    (range : KeyRange) (sequenceNumber : Nat) (cur : FileProg.Cursor) :
    ∃ cur', FileProg.run fileErrors files (scanRecordsRange memtable levels range sequenceNumber) cur
      = .ok ((scanMerged memtable contents (levels.byLevel.flatMap Prod.snd) range
          sequenceNumber).toList.filter fun entry => entry.2.recordType != .delete, cur') := by
  obtain ⟨cur₁, hscan⟩ := run_scanSstables hstored range sequenceNumber
    (scanMemtable memtable range sequenceNumber) cur
  exact ⟨cur₁, FileProg.run_bind_ok hscan⟩

/-- A point read of undisturbed files. -/
theorem run_get (memtable : Memtable) {levels : Levels}
    (hstored : TablesStored fastbloom files contents (levels.byLevel.flatMap Prod.snd))
    (key : Key) (sequenceNumber : Nat) (cur : FileProg.Cursor) :
    ∃ cur', FileProg.run fileErrors files (get fastbloom memtable levels key sequenceNumber) cur
      = .ok ((getFromMemtable memtable key sequenceNumber).or
          (live (tablesHit contents key levels.byLevel)), cur') := by
  rw [ReadManager.get]
  cases getFromMemtable memtable key sequenceNumber with
  | some record => exact ⟨cur, rfl⟩
  | none => exact run_getFromSstable hstored key sequenceNumber cur

end Run

end CereDB.Storage

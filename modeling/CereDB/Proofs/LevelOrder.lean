import CereDB.Proofs.ReadLevels

/-!
# `CereDB.Proofs.LevelOrder`: the order of the levels and what it gives the point lookup

`LevelInvariant` says how the tables of a manifest snapshot lie: every file has its own id, the
files of a level below level 0 have disjoint key ranges, and the newest version of a key in a
level is at least as new as every version of it in a deeper level.

`LevelInvariant.tablesHit_eq` is what the level-by-level lookup rests on: the hit of the
first level that has one is the version with the largest sequence number in all tables.
-/

set_option autoImplicit false

namespace CereDB.Storage

open CereDB.Lib ReadManager

/-- All tables of the levels in the order in which reads visit the levels. -/
def Levels.tables (levels : Levels) : List SSTableMeta := levels.byLevel.flatMap Prod.snd

/-- The two tables share no key. -/
def SSTableMeta.Apart (a b : SSTableMeta) : Prop :=
  a.largestKey < b.smallestKey ∨ b.largestKey < a.smallestKey

/-- The newest version of a key in some tables. -/
def newestIn (contents : Contents) (sstables : List SSTableMeta) (key : Key) :
    Option MemtableRecord :=
  (tableVersions contents sstables key).argmax MemtableRecord.lsn

/-- The order of the levels. -/
structure LevelInvariant (contents : Contents) (levels : Levels) : Prop where
  /-- No two files share an id. -/
  fileIds : (levels.all.map SSTableMeta.fileId).Nodup
  /-- Below level 0 the key ranges of distinct files are disjoint. -/
  disjoint : ∀ level ≠ 0, (levels.files level).Pairwise SSTableMeta.Apart
  /-- The newest version of a key in a level is at least as new as the deeper ones. -/
  newest : ∀ shallow deep, shallow < deep → ∀ (key : Key) (record : MemtableRecord),
    newestIn contents (levels.files shallow) key = some record →
      ∀ older ∈ tableVersions contents (levels.files deep) key, older.lsn ≤ record.lsn

/-! ### The visited levels -/

theorem mem_files {levels : Levels} {level : Nat} {sstable : SSTableMeta} :
    sstable ∈ levels.files level ↔ ∃ id : Nat, levels[toLex (level, id)]? = some sstable := by
  rw [Levels.files, List.mem_map]
  constructor
  · rintro ⟨⟨composite, found⟩, hmem, rfl⟩
    obtain ⟨hentry, hlevel⟩ := List.mem_filter.mp hmem
    rw [beq_iff_eq] at hlevel
    refine ⟨(ofLex composite).2, ?_⟩
    rw [← hlevel]
    exact (OrdMap.mem_toList_iff levels _ _).mp hentry
  · rintro ⟨id, hget⟩
    refine ⟨(toLex (level, id), sstable), List.mem_filter.mpr ⟨?_, ?_⟩, rfl⟩
    · exact (OrdMap.mem_toList_iff levels _ _).mpr hget
    · rw [beq_iff_eq]
      rfl

theorem mem_all {levels : Levels} {sstable : SSTableMeta} :
    sstable ∈ levels.all ↔ ∃ level id : Nat, levels[toLex (level, id)]? = some sstable := by
  rw [Levels.all, List.mem_map]
  constructor
  · rintro ⟨⟨composite, found⟩, hmem, rfl⟩
    exact ⟨(ofLex composite).1, (ofLex composite).2, (OrdMap.mem_toList_iff levels _ _).mp hmem⟩
  · rintro ⟨level, id, hget⟩
    exact ⟨(toLex (level, id), sstable), (OrdMap.mem_toList_iff levels _ _).mpr hget, rfl⟩

/-- The visited levels ascend. -/
theorem pairwise_byLevel (levels : Levels) :
    levels.byLevel.Pairwise fun a b => a.1 < b.1 := by
  rw [Levels.byLevel, List.pairwise_map]
  have hsorted : (levels.toList.map fun entry => (ofLex entry.1).1).Pairwise (· ≤ ·) := by
    rw [List.pairwise_map]
    refine (OrdMap.sorted_toList levels).imp ?_
    intro a b hlt
    rcases Prod.Lex.lt_iff.mp hlt with hlevel | ⟨hlevel, -⟩
    · exact hlevel.le
    · exact hlevel.le
  have hdedup := hsorted.sublist (List.dedup_sublist _)
  have hnodup : (levels.toList.map fun entry => (ofLex entry.1).1).dedup.Pairwise (· ≠ ·) :=
    List.nodup_dedup _
  exact hdedup.imp₂ (fun a b hle hne => lt_of_le_of_ne hle hne) hnodup

theorem mem_byLevel {levels : Levels} {entry : Nat × List SSTableMeta}
    (h : entry ∈ levels.byLevel) : entry.2 = levels.files entry.1 := by
  obtain ⟨level, -, rfl⟩ := List.mem_map.mp h
  rfl

theorem mem_tables {levels : Levels} {sstable : SSTableMeta} :
    sstable ∈ levels.tables ↔ sstable ∈ levels.all := by
  rw [Levels.tables, List.mem_flatMap, mem_all]
  constructor
  · rintro ⟨entry, hentry, hmem⟩
    rw [mem_byLevel hentry] at hmem
    exact ⟨entry.1, mem_files.mp hmem⟩
  · rintro ⟨level, id, hget⟩
    refine ⟨(level, levels.files level), ?_, mem_files.mpr ⟨id, hget⟩⟩
    rw [Levels.byLevel]
    refine List.mem_map.mpr ⟨level, List.mem_dedup.mpr (List.mem_map.mpr ?_), rfl⟩
    exact ⟨_, (OrdMap.mem_toList_iff levels _ _).mpr hget, rfl⟩

theorem tableVersions_append (contents : Contents) (sstables sstables' : List SSTableMeta)
    (key : Key) : tableVersions contents (sstables ++ sstables') key
      = tableVersions contents sstables key ++ tableVersions contents sstables' key :=
  List.filterMap_append

/-! ### The first hit -/

section Hit
variable {fastbloom : FastBloom} {files : String → Option Bytes} {contents : Contents}

/-- A key lies in at most one of two tables with disjoint ranges. -/
theorem SSTableMeta.Apart.tableGet_none {a b : SSTableMeta} (h : a.Apart b)
    (ha : a.Stores fastbloom files (contents a)) (hb : b.Stores fastbloom files (contents b))
    {key : Key} {record record' : MemtableRecord} (hfound : tableGet (contents a) key = some record)
    (hfound' : tableGet (contents b) key = some record') : False := by
  obtain ⟨hmem, hkey⟩ := tableGet_some hfound
  obtain ⟨hmem', hkey'⟩ := tableGet_some hfound'
  have hbounds := ha.bounds record hmem
  have hbounds' := hb.bounds record' hmem'
  rw [hkey] at hbounds
  rw [hkey'] at hbounds'
  rcases h with hlt | hlt
  · exact absurd (hbounds.2.trans_lt (hlt.trans_le hbounds'.1)) (lt_irrefl _)
  · exact absurd (hbounds'.2.trans_lt (hlt.trans_le hbounds.1)) (lt_irrefl _)

/-- The hit of a level is its newest version. -/
theorem levelHit_eq_newestIn {level : Nat} {sstables : List SSTableMeta}
    (hstored : TablesStored fastbloom files contents sstables)
    (hdisjoint : level ≠ 0 → sstables.Pairwise SSTableMeta.Apart) (key : Key) :
    levelHit contents key (level, sstables) = newestIn contents sstables key := by
  rw [levelHit, newestIn]
  by_cases hlevel : level = 0
  · rw [if_pos hlevel]
  · rw [if_neg hlevel]
    -- at most one file has the key, so the last hit is the newest one
    have hpairwise : (tableVersions contents sstables key).Pairwise fun a b => a.lsn < b.lsn := by
      rw [tableVersions, List.pairwise_filterMap]
      refine (hdisjoint hlevel).imp_of_mem ?_
      intro a b ha hb hapart record hfound record' hfound'
      exact (hapart.tableGet_none (hstored a ha) (hstored b hb) hfound hfound').elim
    rw [argmax_eq_getLast? _ hpairwise, tableVersions, ← List.head?_filterMap,
      List.filterMap_reverse, List.head?_reverse]

/-- The hit of the first level is the newest version of all of them. -/
theorem tablesHit_eq_newestIn {levels : List (Nat × List SSTableMeta)} {key : Key}
    (hhit : ∀ level ∈ levels, levelHit contents key level = newestIn contents level.2 key)
    (hnewest : levels.Pairwise fun shallow deep => ∀ record,
      newestIn contents shallow.2 key = some record →
        ∀ older ∈ tableVersions contents deep.2 key, older.lsn ≤ record.lsn) :
    tablesHit contents key levels = newestIn contents (levels.flatMap Prod.snd) key := by
  induction levels with
  | nil => rfl
  | cons level levels ih =>
    have hrest := ih (fun l hl => hhit l (List.mem_cons_of_mem level hl))
      (List.pairwise_cons.mp hnewest).2
    have hfirst := (List.pairwise_cons.mp hnewest).1
    have hsplit : newestIn contents ((level :: levels).flatMap Prod.snd) key
        = (tableVersions contents level.2 key ++
            tableVersions contents (levels.flatMap Prod.snd) key).argmax MemtableRecord.lsn := by
      rw [newestIn, List.flatMap_cons, tableVersions_append]
    rw [tablesHit, List.findSome?_cons, hhit level List.mem_cons_self, hsplit]
    cases hlevel : newestIn contents level.2 key with
    | none =>
      rw [argmax_append_of_eq_none _ hlevel]
      exact hrest
    | some record =>
      refine (argmax_append_of_le _ hlevel ?_).symm
      intro older holder
      obtain ⟨sstable, hmem, hfound⟩ := mem_tableVersions.mp holder
      obtain ⟨deep, hdeep, hin⟩ := List.mem_flatMap.mp hmem
      exact hfirst deep hdeep record hlevel older (mem_tableVersions.mpr ⟨sstable, hin, hfound⟩)

/-- The level-by-level lookup finds the newest version of all tables. -/
theorem LevelInvariant.tablesHit_eq {levels : Levels} (h : LevelInvariant contents levels)
    (hstored : TablesStored fastbloom files contents levels.tables) (key : Key) :
    tablesHit contents key levels.byLevel = newestIn contents levels.tables key := by
  apply tablesHit_eq_newestIn
  · intro level hmem
    have hfiles := mem_byLevel hmem
    have hhere : TablesStored fastbloom files contents level.2 := fun sstable hsstable =>
      hstored sstable (List.mem_flatMap.mpr ⟨level, hmem, hsstable⟩)
    refine levelHit_eq_newestIn hhere ?_ key
    intro hne
    rw [hfiles]
    exact h.disjoint level.1 hne
  · refine (pairwise_byLevel levels).imp_of_mem ?_
    intro shallow deep hshallow hdeep hlt record hrecord
    rw [mem_byLevel hshallow] at hrecord
    rw [mem_byLevel hdeep]
    exact h.newest shallow.1 deep.1 hlt key record hrecord

end Hit

end CereDB.Storage

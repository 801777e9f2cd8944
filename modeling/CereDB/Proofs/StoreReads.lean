import CereDB.Proofs.StoreInvariant
import CereDB.Storage.Store

/-!
# `CereDB.Proofs.StoreReads`: what the reads of a store show

`StoreInvariant` says where the commands of a log are. Here the reads come in: `shows` says that
with the tables in order a point read returns for every key what the published commands left, and a
scan returns the entries of their map in the range, in key order.

The first part is about the answers of the tables at a sequence number (`tableAnswerAt`), which is
what a scan takes from them.
-/

set_option autoImplicit false

namespace CereDB.Storage

open CereDB.Lib ReadManager

/-- What the tables answer for a key. -/
def tableAnswer (contents : Contents) (levels : Levels) (key : Key) : Option Bytes :=
  answer (newest contents levels key)

/-- The versions of a key in the tables up to a sequence number. -/
def versionsUpTo (contents : Contents) (levels : Levels) (watermark : Nat) (key : Key) :
    List MemtableRecord :=
  (tableVersions contents levels.tables key).filter fun record => decide (record.lsn ≤ watermark)

theorem mem_versionsUpTo {contents : Contents} {levels : Levels} {watermark : Nat} {key : Key}
    {record : MemtableRecord} : record ∈ versionsUpTo contents levels watermark key ↔
      HasVersion contents levels key record ∧ record.lsn ≤ watermark := by
  rw [versionsUpTo, List.mem_filter, mem_tableVersions_tables, decide_eq_true_iff]

/-- What the tables answer for a key at a sequence number. -/
def tableAnswerAt (contents : Contents) (levels : Levels) (watermark : Nat) (key : Key) :
    Option Bytes :=
  answer ((versionsUpTo contents levels watermark key).argmax MemtableRecord.rank)

theorem rank_le_of_lsn_lt {a b : MemtableRecord} (h : a.lsn < b.lsn) : a.rank < b.rank := by
  rw [MemtableRecord.rank, MemtableRecord.rank, Prod.Lex.toLex_lt_toLex]
  exact .inl h

/-- A version above all others of its key is the best one. -/
theorem argmax_versions {versions : List MemtableRecord} {record : MemtableRecord}
    (hmem : record ∈ versions) (hmax : ∀ other ∈ versions, other.lsn ≤ record.lsn)
    (heq : ∀ other ∈ versions, other.lsn = record.lsn → other = record) :
    versions.argmax MemtableRecord.rank = some record := by
  cases hbest : versions.argmax MemtableRecord.rank with
  | none =>
    rw [List.argmax_eq_none.mp hbest] at hmem
    cases hmem
  | some best =>
    have hle := lsn_le_of_rank_le (List.le_of_mem_argmax hmem hbest)
    have hbestMem := List.argmax_mem hbest
    rw [heq best hbestMem (le_antisymm (hmax best hbestMem) hle)]

/-- Tables with the same versions up to a sequence number give the same answer there. -/
theorem tableAnswerAt_congr {contents contents' : Contents} {levels levels' : Levels}
    {watermark : Nat} {key : Key} (hdetermined : Determined contents levels)
    (h : ∀ record, record.lsn ≤ watermark →
      (HasVersion contents' levels' key record ↔ HasVersion contents levels key record)) :
    tableAnswerAt contents' levels' watermark key = tableAnswerAt contents levels watermark key := by
  have hmem : ∀ record, record ∈ versionsUpTo contents' levels' watermark key ↔
      record ∈ versionsUpTo contents levels watermark key := by
    intro record
    rw [mem_versionsUpTo, mem_versionsUpTo]
    exact and_congr_left (h record)
  rw [tableAnswerAt, tableAnswerAt]
  cases hbest : (versionsUpTo contents levels watermark key).argmax MemtableRecord.rank with
  | none =>
    have hnil : versionsUpTo contents' levels' watermark key = [] := by
      rw [List.eq_nil_iff_forall_not_mem]
      intro record hrecord
      rw [hmem, List.argmax_eq_none.mp hbest] at hrecord
      cases hrecord
    rw [hnil]
    rfl
  | some best =>
    have hbestMem := List.argmax_mem hbest
    rw [argmax_versions ((hmem best).mpr hbestMem)]
    · intro other hother
      exact lsn_le_of_rank_le (List.le_of_mem_argmax ((hmem other).mp hother) hbest)
    · intro other hother hlsn
      exact hdetermined key other best (mem_versionsUpTo.mp ((hmem other).mp hother)).1
        (mem_versionsUpTo.mp hbestMem).1 hlsn

/-- When every version is below the sequence number, the answer there is the answer. -/
theorem tableAnswerAt_eq {contents : Contents} {levels : Levels} {watermark : Nat} {key : Key}
    (hdetermined : Determined contents levels)
    (h : ∀ record, HasVersion contents levels key record → record.lsn ≤ watermark) :
    tableAnswerAt contents levels watermark key = tableAnswer contents levels key := by
  rw [tableAnswerAt, tableAnswer]
  cases hnewest : newest contents levels key with
  | none =>
    have hnil : versionsUpTo contents levels watermark key = [] := by
      rw [List.eq_nil_iff_forall_not_mem]
      intro record hrecord
      exact newest_eq_none_iff.mp hnewest record (mem_versionsUpTo.mp hrecord).1
    rw [hnil]
    rfl
  | some best =>
    obtain ⟨hbest, hmax⟩ := of_newest_eq_some hnewest
    rw [argmax_versions (mem_versionsUpTo.mpr ⟨hbest, h best hbest⟩)]
    · intro other hother
      exact hmax other (mem_versionsUpTo.mp hother).1
    · intro other hother hlsn
      exact hdetermined key other best (mem_versionsUpTo.mp hother).1 hbest hlsn

/-! ### What a scan returns -/

/-- The entries of a scan from what it collected. -/
def liveEntries (merged : Merged) : List (Key × Bytes) :=
  (merged.toList.filter fun entry => entry.2.recordType != .delete).map
    fun entry => (entry.1, entry.2.value)

theorem mem_liveEntries {merged : Merged} {key : Key} {value : Bytes} :
    (key, value) ∈ liveEntries merged ↔ answer merged[key]? = some value := by
  rw [liveEntries, List.mem_map, answer, live]
  constructor
  · rintro ⟨⟨k, record⟩, hmem, heq⟩
    obtain ⟨hlisted, hlive⟩ := List.mem_filter.mp hmem
    obtain ⟨rfl, rfl⟩ := Prod.mk.inj heq
    rw [(OrdMap.mem_toList_iff merged k record).mp hlisted, Option.filter_some]
    cases htype : record.recordType with
    | put => rfl
    | delete =>
      rw [htype] at hlive
      cases hlive
  · intro hanswer
    obtain ⟨record, hfilter, hvalue⟩ := Option.map_eq_some_iff.mp hanswer
    obtain ⟨hget, hput⟩ := Option.filter_eq_some_iff.mp hfilter
    refine ⟨(key, record), List.mem_filter.mpr ⟨(OrdMap.mem_toList_iff merged _ _).mpr hget, ?_⟩, ?_⟩
    · rw [beq_iff_eq] at hput
      show (record.recordType != .delete) = true
      rw [hput]
      rfl
    · rw [← hvalue]

theorem sorted_liveEntries (merged : Merged) :
    (liveEntries merged).Pairwise fun a b => a.1 < b.1 := by
  rw [liveEntries, List.pairwise_map]
  exact (OrdMap.sorted_toList merged).sublist List.filter_sublist

/-! ### Reading a store -/

/-- The reads of a memtable and of tables at a sequence number show a map. -/
structure Shows (fastbloom : FastBloom) (files : String → Option Bytes) (memtable : Memtable)
    (levels : Levels) (sequenceNumber : Nat) (map : OrdMap Key Bytes) : Prop where
  get : ∀ key, (FileProg.result fileErrors files
    (ReadManager.get fastbloom memtable levels key sequenceNumber)).map Store.liveValue
      = .ok map[key]?
  scan : ∀ range, FileProg.result fileErrors files
    (scanRange memtable levels range sequenceNumber)
      = .ok (map.toList.filter fun entry => keyInRange entry.1 range)

/-- The reads determine the map. -/
theorem Shows.unique {fastbloom : FastBloom} {files : String → Option Bytes} {memtable : Memtable}
    {levels : Levels} {sequenceNumber : Nat} {map map' : OrdMap Key Bytes}
    (h : Shows fastbloom files memtable levels sequenceNumber map)
    (h' : Shows fastbloom files memtable levels sequenceNumber map') : map = map' := by
  apply OrdMap.ext
  intro key
  have hget := h.get key
  rw [h'.get key] at hget
  exact (Except.ok.inj hget).symm

theorem liveValue_live (record : Option MemtableRecord) :
    Store.liveValue (live record) = answer record := by
  cases record with
  | none => rfl
  | some record =>
    rw [answer, live, Option.filter_some]
    cases htype : record.recordType with
    | put => simp [Store.liveValue, htype]
    | delete => rfl

theorem liveValue_inMemtable (command : LogCommand) :
    Store.liveValue (some command.inMemtable) = command.outcome := by
  rw [Store.liveValue, LogCommand.outcome, LogCommand.inMemtable, MemtableRecord.new]
  cases command.recordType <;> rfl

/-- A list of entries in key order is determined by its members. -/
theorem entries_ext {entries entries' : List (Key × Bytes)}
    (hsorted : entries.Pairwise fun a b => a.1 < b.1)
    (hsorted' : entries'.Pairwise fun a b => a.1 < b.1)
    (h : ∀ key value, (key, value) ∈ entries ↔ (key, value) ∈ entries') : entries = entries' := by
  exact OrdMap.entries_eq hsorted hsorted' fun entry => h entry.1 entry.2

namespace StoreInvariant

variable {fastbloom : FastBloom} {files : String → Option Bytes} {contents : Contents}
  {log : List LogCommand} {sequenceNumber nextFileId : Nat} {memtable : Memtable} {levels : Levels}

/-- The memtable holds the latest command of a key, or nothing of the key at all and the tables
answer. -/
theorem held_or_missed (h : StoreInvariant contents log sequenceNumber memtable levels) (key : Key) :
    (∃ command, latest log sequenceNumber key = some command ∧ memtable.Holds command) ∨
      memtable.versions key sequenceNumber = [] ∧
        answer (newest contents levels key) = publishedValue log sequenceNumber key := by
  by_cases hheld : ∃ command, latest log sequenceNumber key = some command ∧ memtable.Holds command
  · exact .inl hheld
  · have hmissed := h.getFromMemtable_of_not_holds le_rfl
      fun command hlatest hholds => hheld ⟨command, hlatest, hholds⟩
    rw [h.valid.getFromMemtable_eq_argmax, List.argmax_eq_none] at hmissed
    exact .inr ⟨hmissed, (h.readable key).resolve_left hheld⟩

/-- What a scan collects for a key answers with its published value. -/
theorem answer_scanVersion (h : StoreInvariant contents log sequenceNumber memtable levels)
    (key : Key) :
    answer (scanVersion memtable contents levels.tables key sequenceNumber)
      = publishedValue log sequenceNumber key := by
  rcases h.held_or_missed key with ⟨command, hlatest, hholds⟩ | ⟨hnil, hanswer⟩
  · -- every version is a command of the log, and none is newer than the latest one
    obtain ⟨⟨hmem, rfl, hle⟩, hmax⟩ := of_latest_eq_some h.sorted hlatest
    have hversion : command.inMemtable ∈ memtable.versions command.key sequenceNumber ++
        versionsUpTo contents levels sequenceNumber command.key :=
      List.mem_append_left _ (Memtable.mem_versions.mpr ⟨command.lsn, hle, hholds⟩)
    have hcommand : ∀ record ∈ memtable.versions command.key sequenceNumber ++
        versionsUpTo contents levels sequenceNumber command.key, ∃ other ∈ log,
          other.key = command.key ∧ other.lsn ≤ sequenceNumber ∧
            record.recordType = other.recordType ∧ record.value = other.value ∧
              record.lsn = other.lsn := by
      intro record hrecord
      rcases List.mem_append.mp hrecord with hin | hin
      · obtain ⟨lsn, hlsn, hget⟩ := Memtable.mem_versions.mp hin
        obtain ⟨other, hother, hkey, rfl, rfl⟩ := h.inserted command.key lsn record hget
        exact ⟨other, hother, hkey, hlsn, rfl, rfl, rfl⟩
      · obtain ⟨hin, -⟩ := mem_versionsUpTo.mp hin
        obtain ⟨other, hother, hlsn, hkey, rfl⟩ := h.flushed command.key record hin
        exact ⟨other, hother, hkey, hlsn, rfl, rfl, rfl⟩
    show answer ((memtable.versions command.key sequenceNumber ++
      versionsUpTo contents levels sequenceNumber command.key).argmax MemtableRecord.rank) = _
    cases hbest : (memtable.versions command.key sequenceNumber ++
        versionsUpTo contents levels sequenceNumber command.key).argmax MemtableRecord.rank with
    | none =>
      rw [List.argmax_eq_none.mp hbest] at hversion
      cases hversion
    | some best =>
      obtain ⟨other, hother, hkey, hotherLe, htype, hvalue, hlsn⟩ :=
        hcommand best (List.argmax_mem hbest)
      have hlower := lsn_le_of_rank_le (List.le_of_mem_argmax hversion hbest)
      have hupper := hmax other hother hkey hotherLe
      have hsame : other.lsn = command.lsn := le_antisymm hupper (hlsn ▸ hlower)
      obtain rfl := h.sorted.eq_of_lsn hother hmem hsame
      rw [publishedValue, hlatest, answer_eq htype hvalue]
      rfl
  · rw [scanVersion, hnil, List.nil_append, ← hanswer]
    refine tableAnswerAt_eq h.determined fun record hversion => ?_
    obtain ⟨command, -, hle, -, rfl⟩ := h.flushed key record hversion
    exact hle

/-- The reads show the map of the published commands. -/
theorem shows (h : StoreInvariant contents log sequenceNumber memtable levels)
    (htables : TableInvariant fastbloom files contents levels nextFileId) :
    Shows fastbloom files memtable levels sequenceNumber
      (commandMap (publishedCommands log sequenceNumber)) := by
  constructor
  · intro key
    obtain ⟨cur, hrun⟩ := run_get memtable htables.stored key sequenceNumber ([], 0)
    rw [result_of_run hrun, htables.levelInvariant.tablesHit_eq htables.stored,
      get?_commandMap_published]
    show Except.ok (Store.liveValue _) = _
    congr 1
    rcases h.held_or_missed key with ⟨command, hlatest, hholds⟩ | ⟨hnil, hanswer⟩
    · rw [h.getFromMemtable_of_holds hlatest hholds, Option.some_or, liveValue_inMemtable, hlatest]
      rfl
    · rw [h.valid.getFromMemtable_eq_argmax, hnil, List.argmax_nil, Option.none_or, liveValue_live]
      exact hanswer
  · intro range
    obtain ⟨cur, hrun⟩ := run_scanRecordsRange memtable htables.stored range sequenceNumber ([], 0)
    rw [scanRange, result_of_run (FileProg.run_bind_ok hrun)]
    show Except.ok (liveEntries (scanMerged memtable contents levels.tables range sequenceNumber)) = _
    congr 1
    refine entries_ext (sorted_liveEntries _)
      ((OrdMap.sorted_toList _).sublist List.filter_sublist) fun key value => ?_
    rw [mem_liveEntries, get?_scanMerged h.valid
      (fun sstable hmem => (htables.stored sstable hmem).sorted), List.mem_filter,
      OrdMap.mem_toList_iff, get?_commandMap_published]
    by_cases hrange : keyInRange key range = true
    · rw [if_pos hrange, h.answer_scanVersion, publishedValue]
      exact (and_iff_left hrange).symm
    · rw [if_neg hrange]
      exact iff_of_false (fun hnone => by cases hnone) fun hin => hrange hin.2

end StoreInvariant

end CereDB.Storage

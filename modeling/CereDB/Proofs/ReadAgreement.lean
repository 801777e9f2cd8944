import CereDB.Proofs.ConcurrentReads
import CereDB.Proofs.LevelOrder
import CereDB.Proofs.TableBuild

/-!
# `CereDB.Proofs.ReadAgreement`: point reads against scans at a sequence number

`getVersion` is the version of a key a point read goes by, and `scanVersion` the one a scan goes
by, both before tombstones are dropped. `ReadsAgree` says that the two paths answer alike: the same
live value, no version above the sequence number, and the same version where two tie.

They do not always. A point read ignores the sequence number in the tables, takes a memtable
version without looking further, and picks the first of two tied versions in level 0, where a scan
picks the delete. `reads_agree_iff` says exactly when they agree, and `point_read_past_watermark`
is a table that a point read sees and a scan does not.
-/

set_option autoImplicit false

namespace CereDB.Storage

open CereDB.Lib ReadManager

/-- The version of a key a point read goes by. -/
def getVersion (memtable : Memtable) (contents : Contents) (levels : Levels) (key : Key)
    (sequenceNumber : Nat) : Option MemtableRecord :=
  (getFromMemtable memtable key sequenceNumber).or (tablesHit contents key levels.byLevel)

/-- A point read and a scan of one key answer alike. -/
structure ReadsAgree (fastbloom : FastBloom) (files : String → Option Bytes) (contents : Contents)
    (memtable : Memtable) (levels : Levels) (key : Key) (sequenceNumber : Nat) : Prop where
  /-- A live record on the one side is the only entry on the other, with the same value. -/
  value : ∃ got entries,
    FileProg.result fileErrors files (ReadManager.get fastbloom memtable levels key sequenceNumber)
      = .ok got ∧
    FileProg.result fileErrors files (scanRange memtable levels (KeyRange.single key)
      sequenceNumber) = .ok entries ∧
    entries = ((live got).map fun record => (key, record.value)).toList
  /-- Neither goes by a version above the sequence number. -/
  visible : ∀ record, getVersion memtable contents levels key sequenceNumber = some record ∨
    scanVersion memtable contents levels.tables key sequenceNumber = some record →
      record.lsn ≤ sequenceNumber
  /-- Both go by the same version. -/
  version : getVersion memtable contents levels key sequenceNumber
    = scanVersion memtable contents levels.tables key sequenceNumber

/-- No version of the key up to the sequence number is newer than the one the point read finds:
in the memtable, or else in the tables, which then hold nothing above the sequence number. -/
def NoNewerVersion (memtable : Memtable) (contents : Contents) (levels : Levels) (key : Key)
    (sequenceNumber : Nat) : Prop :=
  match getFromMemtable memtable key sequenceNumber with
  | some record => ∀ other ∈ tableVersions contents levels.tables key,
      other.lsn ≤ sequenceNumber → isNewerRecord other record = false
  | none => ∀ other ∈ tableVersions contents levels.tables key, other.lsn ≤ sequenceNumber ∧
      ∀ record, newestIn contents levels.tables key = some record →
        isNewerRecord other record = false

theorem isNewerRecord_eq_false_iff (candidate current : MemtableRecord) :
    isNewerRecord candidate current = false ↔ candidate.rank ≤ current.rank := by
  rw [← not_lt, ← isNewerRecord_iff, Bool.not_eq_true]

section Versions
variable {contents : Contents} {memtable : Memtable} {levels : Levels} {key : Key}
  {sequenceNumber : Nat}

/-- A scan goes by nothing above the sequence number. -/
theorem lsn_le_of_scanVersion (hvalid : memtable.Valid) {record : MemtableRecord}
    (h : scanVersion memtable contents levels.tables key sequenceNumber = some record) :
    record.lsn ≤ sequenceNumber := by
  rcases List.mem_append.mp (List.argmax_mem h) with hmem | htable
  · obtain ⟨lsn, hle, hget⟩ := Memtable.mem_versions.mp hmem
    have hentry := (OrdMap.mem_toList_iff memtable _ _).mpr hget
    rw [(hvalid _ hentry).1]
    exact hle
  · exact of_decide_eq_true (List.mem_filter.mp htable).2

/-- With a version in the memtable, both paths go by it unless a table has a newer one. -/
theorem version_eq_iff_of_memtable (hvalid : memtable.Valid) {record : MemtableRecord}
    (hrecord : getFromMemtable memtable key sequenceNumber = some record) :
    some record = scanVersion memtable contents levels.tables key sequenceNumber ↔
      ∀ other ∈ tableVersions contents levels.tables key, other.lsn ≤ sequenceNumber →
        isNewerRecord other record = false := by
  have hmem := hrecord
  rw [hvalid.getFromMemtable_eq_argmax] at hmem
  rw [scanVersion]
  constructor
  · intro hversion other hother hle
    rw [isNewerRecord_eq_false_iff]
    refine List.le_of_mem_argmax ?_ (Option.mem_def.mpr hversion.symm)
    exact List.mem_append_right _ (List.mem_filter.mpr ⟨hother, decide_eq_true hle⟩)
  · intro hnewer
    refine (argmax_append_of_le _ hmem ?_).symm
    intro other hother
    obtain ⟨htable, hle⟩ := List.mem_filter.mp hother
    exact (isNewerRecord_eq_false_iff _ _).mp (hnewer other htable (of_decide_eq_true hle))

/-- Without one, both paths go by the newest version of the tables, unless a table holds one above
the sequence number or a delete ties with it. -/
theorem version_eq_iff_of_tables (hnone : getFromMemtable memtable key sequenceNumber = none) :
    newestIn contents levels.tables key
        = scanVersion memtable contents levels.tables key sequenceNumber ↔
      ∀ other ∈ tableVersions contents levels.tables key, other.lsn ≤ sequenceNumber ∧
        ∀ record, newestIn contents levels.tables key = some record →
          isNewerRecord other record = false := by
  have hempty : memtable.versions key sequenceNumber = [] := by
    rw [getFromMemtable_eq, List.getLast?_eq_none_iff] at hnone
    exact hnone
  rw [scanVersion, hempty, List.nil_append]
  cases hnewest : newestIn contents levels.tables key with
  | none =>
    have hnil : tableVersions contents levels.tables key = [] := List.argmax_eq_none.mp hnewest
    rw [hnil]
    constructor
    · intro _ other hother
      cases hother
    · intro _
      rfl
  | some record =>
    constructor
    · intro hversion other hother
      obtain ⟨hrecord, hle⟩ := List.mem_filter.mp (List.argmax_mem hversion.symm)
      have hother_le : other.lsn ≤ record.lsn := List.le_of_mem_argmax hother hnewest
      have hvisible : other.lsn ≤ sequenceNumber := hother_le.trans (of_decide_eq_true hle)
      refine ⟨hvisible, ?_⟩
      intro best hbest
      obtain rfl := Option.some.inj hbest
      rw [isNewerRecord_eq_false_iff]
      exact List.le_of_mem_argmax (List.mem_filter.mpr ⟨hother, decide_eq_true hvisible⟩)
        (Option.mem_def.mpr hversion.symm)
    · intro hall
      have hfilter : (tableVersions contents levels.tables key).filter
          (fun record => decide (record.lsn ≤ sequenceNumber))
          = tableVersions contents levels.tables key :=
        List.filter_eq_self.mpr fun other hother => decide_eq_true (hall other hother).1
      rw [hfilter]
      refine (argmax_of_argmax hnewest ?_ ?_).symm
      · intro other hother
        exact (isNewerRecord_eq_false_iff _ _).mp ((hall other hother).2 record rfl)
      · intro other _ hle
        exact lsn_le_of_rank_le hle

end Versions

section Results
variable {fastbloom : FastBloom} {files : String → Option Bytes} {contents : Contents}
  {levels : Levels}

theorem keyInRange_single (key k : Key) : keyInRange k (KeyRange.single key) = decide (k = key) := by
  rw [keyInRange, KeyRange.single, withinBounds, ← Bool.decide_and, decide_eq_decide]
  exact ⟨fun h => le_antisymm h.2 h.1, fun h => ⟨h.ge, h.le⟩⟩

/-- A scan of one key returns its live version. -/
theorem result_scanRange_single (memtable : Memtable) (hvalid : memtable.Valid)
    (hstored : TablesStored fastbloom files contents levels.tables) (key : Key)
    (sequenceNumber : Nat) :
    FileProg.result fileErrors files (scanRange memtable levels (KeyRange.single key)
        sequenceNumber)
      = .ok (((live (scanVersion memtable contents levels.tables key sequenceNumber)).map
          fun record => (key, record.value)).toList) := by
  obtain ⟨cur, hrun⟩ := run_scanRecordsRange memtable hstored (KeyRange.single key)
    sequenceNumber ([], 0)
  have hget := get?_scanMerged hvalid (fun sstable hmem => (hstored sstable hmem).sorted)
    (KeyRange.single key) sequenceNumber
  have hsingle : (scanMerged memtable contents levels.tables (KeyRange.single key)
      sequenceNumber).toList
      = ((scanVersion memtable contents levels.tables key sequenceNumber).map
          fun record => (key, record)).toList := by
    rw [OrdMap.toList_of_single (k := key), hget, keyInRange_single, if_pos (by simp)]
    intro k hne
    rw [hget, keyInRange_single, if_neg (by simpa using hne)]
  rw [show levels.byLevel.flatMap Prod.snd = levels.tables from rfl, hsingle] at hrun
  rw [result_of_run (FileProg.run_bind_ok hrun)]
  cases scanVersion memtable contents levels.tables key sequenceNumber with
  | none => rfl
  | some record =>
    obtain ⟨recordType, lsn, recordKey, value⟩ := record
    cases recordType <;> rfl

theorem result_get (memtable : Memtable)
    (hstored : TablesStored fastbloom files contents levels.tables) (key : Key)
    (sequenceNumber : Nat) :
    FileProg.result fileErrors files (ReadManager.get fastbloom memtable levels key sequenceNumber)
      = .ok ((getFromMemtable memtable key sequenceNumber).or
          (live (tablesHit contents key levels.byLevel))) := by
  obtain ⟨cur, hrun⟩ := run_get memtable hstored key sequenceNumber ([], 0)
  exact result_of_run hrun

end Results

/-- For every memtable, every snapshot of valid tables in level order, every key and every sequence
number: a point read and a scan of the key agree exactly when no version up to the sequence number
is newer than the one the point read finds first. -/
theorem reads_agree_iff (fastbloom : FastBloom) (files : String → Option Bytes)
    (contents : Contents) (memtable : Memtable) (levels : Levels) (key : Key)
    (sequenceNumber : Nat) (hvalid : memtable.Valid)
    (hstored : TablesStored fastbloom files contents levels.tables)
    (hinvariant : LevelInvariant contents levels) :
    ReadsAgree fastbloom files contents memtable levels key sequenceNumber ↔
      NoNewerVersion memtable contents levels key sequenceNumber := by
  have hhit := hinvariant.tablesHit_eq hstored key
  have hversion : getVersion memtable contents levels key sequenceNumber
      = scanVersion memtable contents levels.tables key sequenceNumber ↔
        NoNewerVersion memtable contents levels key sequenceNumber := by
    rw [getVersion, NoNewerVersion, hhit]
    cases hmem : getFromMemtable memtable key sequenceNumber with
    | some record => exact version_eq_iff_of_memtable hvalid hmem
    | none => exact version_eq_iff_of_tables hmem
  rw [← hversion]
  constructor
  · exact fun h => h.version
  · intro heq
    have hlive : live ((getFromMemtable memtable key sequenceNumber).or
          (live (tablesHit contents key levels.byLevel)))
        = live (getVersion memtable contents levels key sequenceNumber) := by
      rw [getVersion]
      cases getFromMemtable memtable key sequenceNumber with
      | some record => rfl
      | none =>
        rw [Option.none_or, Option.none_or, live, live, Option.filter_filter]
        simp
    refine ⟨⟨_, _, result_get memtable hstored key sequenceNumber,
      result_scanRange_single memtable hvalid hstored key sequenceNumber, ?_⟩, ?_, heq⟩
    · rw [hlive, heq]
    · intro record hrecord
      rw [heq, or_self] at hrecord
      exact lsn_le_of_scanVersion hvalid hrecord

/-! ### A table with one record -/

/-- The file of the one-record table holds its record. -/
theorem oneRecordTable_stores :
    TablesStored .acceptAll oneRecordFiles (fun _ => [oneRecord])
      (Levels.add ∅ oneRecordTable).tables := by
  have htables : (Levels.add ∅ oneRecordTable).tables = [oneRecordTable] := by decide +kernel
  rw [htables]
  intro sstable hmem
  obtain rfl := List.mem_singleton.mp hmem
  have hsorted : KeySorted [oneRecord] := List.pairwise_singleton _ _
  have hstorable : ∀ record ∈ [oneRecord], record.Storable := by
    intro record hrecord
    obtain rfl := List.mem_singleton.mp hrecord
    exact ⟨by decide, by decide⟩
  refine ⟨⟨{ blocks := blocksOf [oneRecord], index := [], bloom := ⟨0, 1, [0]⟩ }, ?_,
    records_blocksOf _, rfl⟩, ?_⟩
  · exact {
      blocks := blocksOf_good hsorted hstorable
      sorted := by
        show KeySorted ((blocksOf [oneRecord]).flatMap Block.records)
        rw [records_blocksOf]
        exact hsorted
      bloom := fun _ _ => rfl
      seed := by show 0 < 256 ^ 16; decide
      size := by decide +kernel }
  · intro record hrecord
    obtain rfl := List.mem_singleton.mp hrecord
    exact ⟨le_rfl, le_rfl⟩

theorem oneRecordTable_levelInvariant :
    LevelInvariant (fun _ => [oneRecord]) (Levels.add ∅ oneRecordTable) := by
  have hfiles : ∀ level ≠ 0, (Levels.add ∅ oneRecordTable).files level = [] := by
    intro level hne
    rw [List.eq_nil_iff_forall_not_mem]
    intro sstable hmem
    obtain ⟨id, hget⟩ := mem_files.mp hmem
    rw [Levels.add, OrdMap.get?_insert] at hget
    split at hget
    · rename_i hkey
      have hlevel : 0 = level := congrArg (fun composite => (ofLex composite).1) hkey
      exact hne hlevel.symm
    · rw [OrdMap.get?_empty] at hget
      cases hget
  refine ⟨by decide +kernel, ?_, ?_⟩
  · intro level hne
    rw [hfiles level hne]
    exact List.Pairwise.nil
  · intro shallow deep hlt key record _ older holder
    rw [hfiles deep (by omega)] at holder
    cases holder

/-- At sequence number 1 both paths find the record. -/
theorem reads_agree_oneRecord :
    ReadsAgree .acceptAll oneRecordFiles (fun _ => [oneRecord]) ∅
      (Levels.add ∅ oneRecordTable) [97] 1 :=
  (reads_agree_iff .acceptAll oneRecordFiles _ ∅ _ [97] 1 (by intro entry hmem; cases hmem)
    oneRecordTable_stores oneRecordTable_levelInvariant).mpr (by
      have hmemtable : getFromMemtable ∅ [97] 1 = none := by decide +kernel
      have hversions : tableVersions (fun _ => [oneRecord]) (Levels.add ∅ oneRecordTable).tables [97]
          = [oneRecord] := by decide +kernel
      rw [NoNewerVersion, hmemtable, hversions]
      intro other hother
      obtain rfl := List.mem_singleton.mp hother
      refine ⟨by decide, ?_⟩
      intro record hrecord
      rw [newestIn, hversions] at hrecord
      obtain rfl := Option.some.inj hrecord
      decide)

/-- At sequence number 0 the record with number 1 must not be visible. The point read returns it,
and the scan returns nothing. -/
theorem point_read_past_watermark :
    TablesStored .acceptAll oneRecordFiles (fun _ => [oneRecord])
        (Levels.add ∅ oneRecordTable).tables ∧
      LevelInvariant (fun _ => [oneRecord]) (Levels.add ∅ oneRecordTable) ∧
      FileProg.result fileErrors oneRecordFiles
        (ReadManager.get .acceptAll ∅ (Levels.add ∅ oneRecordTable) [97] 0)
        = .ok (some oneRecord) ∧
      FileProg.result fileErrors oneRecordFiles
        (scanRange ∅ (Levels.add ∅ oneRecordTable) (KeyRange.single [97]) 0) = .ok [] ∧
      ¬ ReadsAgree .acceptAll oneRecordFiles (fun _ => [oneRecord]) ∅
        (Levels.add ∅ oneRecordTable) [97] 0 := by
  refine ⟨oneRecordTable_stores, oneRecordTable_levelInvariant, by decide +kernel,
    by decide +kernel, ?_⟩
  intro hagree
  have hvisible := hagree.visible oneRecord (.inl (by decide +kernel))
  exact absurd hvisible (by decide)

end CereDB.Storage

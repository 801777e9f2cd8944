import CereDB.Proofs.Merge
import CereDB.Storage.FileCache

/-!
# `CereDB.Proofs.ConcurrentReads`: reads that run together

Reads clone cached template handles, and a clone shares the cursor of its template. The comments
of the source take the clone for an independent handle with a position of its own.
`concurrent_reads_undisturbed` says when this does no harm: in every interleaving in which no
other read moved the cursor of a file between a seek or read of one call and its next read of that
file, every call returns what it returns alone. `concurrent_gets_disturb` is an interleaving of
two point reads of one table in which one of them fails.
-/

set_option autoImplicit false

namespace CereDB.Storage

open CereDB.Lib

/-- The reads of an engine before the first step. -/
def startReads {ι : Type} (fastbloom : FastBloom) (memtable : Memtable) (levels : Levels)
    (cache : LruFileCache) (calls : ι → ReadCall) : System ι Halt ReadResult LruFileCache :=
  System.start cache fun i => (calls i).prog fastbloom memtable levels

/-- Any number of reads on one engine, in every interleaving of their open, seek and read steps in
which each refill of a read's buffer finds the cursor where that read left it: a call that has
ended returned what it returns alone, and a call that was given enough steps has ended. -/
theorem concurrent_reads_undisturbed {ι : Type} [DecidableEq ι] (fastbloom : FastBloom)
    (memtable : Memtable) (levels : Levels) (files : String → Option Bytes)
    (cache : LruFileCache) (calls : ι → ReadCall) (schedule : List (ι × Nat))
    (hundisturbed : UndisturbedRun fileErrors files LruFileCache.getOrOpen
      (startReads fastbloom memtable levels cache calls) schedule) (i : ι) :
    (∀ r, (((startReads fastbloom memtable levels cache calls).run fileErrors files
        LruFileCache.getOrOpen schedule).procs i).outcome = some r →
      r = FileProg.result fileErrors files ((calls i).prog fastbloom memtable levels)) ∧
    (((calls i).prog fastbloom memtable levels).steps files ([], 0)
        ≤ (schedule.map Prod.fst).count i →
      (((startReads fastbloom memtable levels cache calls).run fileErrors files
        LruFileCache.getOrOpen schedule).procs i).outcome
        = some (FileProg.result fileErrors files ((calls i).prog fastbloom memtable levels))) :=
  outcome_of_undisturbed cache (fun i => (calls i).prog fastbloom memtable levels) hundisturbed i

/-! ### Two point reads of one table -/

/-- The record in the table below. -/
def oneRecord : MemtableRecord := ⟨.put, 1, [97], [118]⟩

/-- The bytes of a table with one record. -/
def oneRecordFile : Bytes :=
  SSTableCodec.encoded { blocks := blocksOf [oneRecord], index := [], bloom := ⟨0, 1, [0]⟩ }

/-- The metadata of that table. -/
def oneRecordTable : SSTableMeta where
  fileId := 1
  level := 0
  path := "1.dat"
  recordCount := 1
  smallestKey := [97]
  largestKey := [97]
  bloomOffset := 90
  bloomSize := 44

/-- The files of an engine with that table alone. -/
def oneRecordFiles (path : String) : Option Bytes :=
  if path = "1.dat" then some oneRecordFile else none

/-- Two reads of the key, an empty memtable, and an empty handle cache. -/
def twoGets : System Bool Halt ReadResult LruFileCache :=
  startReads .acceptAll ∅ (Levels.add ∅ oneRecordTable) (.new LruFileCache.defaultCapacity)
    fun _ => .get [97] 1

/-- One read after the other. -/
def inTurn : List (Bool × Nat) :=
  List.replicate 400 (true, 8191) ++ List.replicate 400 (false, 8191)

/-- In turn, the second read returns what it returns alone, although the first one left the shared
cursor elsewhere. -/
theorem concurrent_gets_in_turn :
    UndisturbedRun fileErrors oneRecordFiles LruFileCache.getOrOpen twoGets inTurn ∧
      ((twoGets.run fileErrors oneRecordFiles LruFileCache.getOrOpen inTurn).procs false).outcome
        = some (FileProg.result fileErrors oneRecordFiles
          ((ReadCall.get [97] 1).prog .acceptAll ∅ (Levels.add ∅ oneRecordTable))) := by
  have hundisturbed : UndisturbedRun fileErrors oneRecordFiles LruFileCache.getOrOpen
      twoGets inTurn := by decide +kernel
  have hreads := concurrent_reads_undisturbed .acceptAll ∅ (Levels.add ∅ oneRecordTable)
    oneRecordFiles (.new LruFileCache.defaultCapacity) (fun _ : Bool => .get [97] 1) inTurn
    hundisturbed false
  refine ⟨hundisturbed, ?_⟩
  unfold twoGets
  exact hreads.2 (by decide +kernel)

/-- Both reads seek to the footer. The first one reads it, which leaves the shared cursor at the
end of the file, so the second one finds the end of the file. -/
def disturbedSchedule : List (Bool × Nat) :=
  [(true, 0), (false, 0), (true, 0), (false, 0), (true, 8191), (false, 8191)]

/-- The second read fails with an unexpected end of file, where alone it returns the record. -/
theorem concurrent_gets_disturb :
    ((twoGets.run fileErrors oneRecordFiles LruFileCache.getOrOpen disturbedSchedule).procs
        false).outcome = some (.error eof) ∧
      FileProg.result fileErrors oneRecordFiles
        ((ReadCall.get [97] 1).prog .acceptAll ∅ (Levels.add ∅ oneRecordTable))
        = .ok (.record (some oneRecord)) := by
  decide +kernel

end CereDB.Storage

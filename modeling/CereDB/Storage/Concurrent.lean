import CereDB.Storage.Batch
import CereDB.Storage.Compaction
import CereDB.Storage.FileCache

/-!
# `CereDB.Storage.Concurrent`: reads next to writes, flushes and compactions

One engine with the tasks that share it, cut at the points where they can interleave. The memtable,
the sequence number, the manifest snapshot and the table files are shared.

- The writer lock is held either by a group of `run_write_admission` after its WAL append (it then
  inserts record by record and stores the sequence number last) or by `flush_active_memtable` (it
  copies the memtable, builds and registers a table, and then removes the copied entries one by
  one).
- A compaction plans on a snapshot and writes its outputs. Under the publication lease, which
  excludes the read leases, it publishes and deletes its inputs.
- A read loads the sequence number, takes a read lease, looks into the memtable, takes a manifest
  snapshot and reads table files. A scan goes over the memtable entry by entry. Each read has a
  file cursor of its own, and one file operation is one step.

`next` gives the state after an event, none where the event cannot happen. What a failed group or a
failed attempt to write a table leaves behind is an event too: nothing, or a file that no manifest
entry names.
-/

set_option autoImplicit false

namespace CereDB.Storage

open CereDB.Lib

/-- Who holds the writer lock, and how far it got. -/
inductive WriterPhase where
  | free
  /-- A group is in the WAL: the commands still to insert and the sequence number to store. -/
  | publishing (pending : List LogCommand) (nextLsn : Nat)
  /-- A flush has copied the memtable and built the table. -/
  | flushing (snapshot : Memtable) (table : FlushTable)
  /-- The table is registered. -/
  | registered (snapshot : Memtable)
  /-- `flush_inner` returned: the entries still to remove. -/
  | removing (snapshot : Memtable) (entries : List (Key ×ₗ Nat))

/-- How far the compaction got. -/
inductive CompactionPhase where
  | idle
  /-- The outputs are written: the snapshot the plan was made on, the inputs and the outputs. -/
  | merged (expected : Levels) (inputs outputs : List SSTableMeta)
  /-- Published, under the publication lease: the inputs still to delete. -/
  | deleting (inputs : List SSTableMeta)

/-- How far the read got. -/
inductive ReaderPhase where
  | idle
  /-- The sequence number is loaded. -/
  | loaded (call : ReadCall)
  /-- A point read holds the lease. -/
  | leased (key : Key) (sequenceNumber : Nat)
  /-- A scan holds the lease: the last memtable entry it visited and what it collected. -/
  | scanning (range : KeyRange) (sequenceNumber : Nat) (last : Option (Key ×ₗ Nat))
      (merged : ReadManager.Merged)
  /-- The memtable had no version of the key. -/
  | missed (key : Key) (sequenceNumber : Nat)
  /-- The scan has left the memtable. -/
  | scanned (range : KeyRange) (sequenceNumber : Nat) (merged : ReadManager.Merged)
  /-- The snapshot is taken: the rest of the file operations and the cursor. -/
  | reading (prog : ReadFile ReadResult) (cursor : FileProg.Cursor)
  | done (result : Exec ReadResult)

/-- The shared state and the phase of each task. `log` holds the commands whose WAL append
returned. -/
structure Engine where
  memtable : Memtable
  sequenceNumber : Nat
  levels : Levels
  nextFileId : Nat
  files : OrdMap String Bytes
  log : List LogCommand
  writer : WriterPhase
  compaction : CompactionPhase
  reader : ReaderPhase

/-- What can happen next. -/
inductive Event where
  | beginGroup (requests : List (List BatchOperation))
  | insertNext
  | storeSequence
  | beginFlush
  | registerTable (fileId : Nat)
  | commitFlush
  | abortFlush
  | removeNext
  | endFlush
  | beginCompaction (level : Nat) (fileIds : List Nat)
  | publishCompaction
  | abortCompaction
  | deleteNext (removed : Bool)
  | endCompaction
  /-- A flush or a compaction fails after it created a file. -/
  | leaveFile (level fileId : Nat) (bytes : Bytes)
  | startGet (key : Key)
  | startScan (range : KeyRange)
  | readNext
deriving DecidableEq, Repr

namespace Engine

/-- The loop that allocates file ids until `create_new` succeeds ends at `fileId`: every id before
it has a file already. -/
def allocates (files : OrdMap String Bytes) (level nextFileId fileId : Nat) : Bool :=
  decide (nextFileId ≤ fileId) && decide (fileId + 1 < u64Limit) &&
    !files.contains (tablePath level fileId) &&
    (List.range' nextFileId (fileId - nextFileId)).all fun taken =>
      files.contains (tablePath level taken)

/-- A request that `write_batch` admits. -/
def admissible (request : List BatchOperation) : Bool :=
  !request.isEmpty && (validateBatch request).isOk

/-! ### The writer lock -/

/-- `run_write_admission` up to the WAL append that returned. -/
def beginGroup (requests : List (List BatchOperation)) (engine : Engine) : Option Engine :=
  match engine.writer with
  | .free =>
    if requests.all admissible then
      match buildGroups engine.sequenceNumber requests with
      | .ok (groups, nextLsn) => some { engine with
          log := engine.log ++ groups.flatten
          writer := .publishing groups.flatten nextLsn }
      | .error _ => none
    else none
  | _ => none

/-- One `append_to_memtable` of a group. -/
def insertNext (engine : Engine) : Option Engine :=
  match engine.writer with
  | .publishing (command :: pending) nextLsn => some { engine with
      memtable :=
        engine.memtable.append command.key command.value command.recordType command.lsn
      writer := .publishing pending nextLsn }
  | _ => none

/-- The store that publishes a group. -/
def storeSequence (engine : Engine) : Option Engine :=
  match engine.writer with
  | .publishing [] nextLsn => some { engine with sequenceNumber := nextLsn, writer := .free }
  | _ => none

/-- `flush_active_memtable` up to the first file operation. -/
def beginFlush (fastbloom : FastBloom) (config : StorageConfig) (engine : Engine) :
    Option Engine :=
  match engine.writer with
  | .free =>
    match flushTable fastbloom config engine.memtable with
    | .ok table => some { engine with writer := .flushing engine.memtable table }
    | .error _ => none
  | _ => none

/-- `flush_inner` from the allocation of a file id to the registration. -/
def registerTable (fileId : Nat) (engine : Engine) : Option Engine :=
  match engine.writer with
  | .flushing snapshot table =>
    if allocates engine.files 0 engine.nextFileId fileId then some { engine with
      files := engine.files.insert (tablePath 0 fileId) table.encoded
      levels := engine.levels.add (flushMeta fileId table)
      nextFileId := fileId + 1
      writer := .registered snapshot }
    else none
  | _ => none

/-- The rest of `flush_inner` returned `Ok`. -/
def commitFlush (engine : Engine) : Option Engine :=
  match engine.writer with
  | .registered snapshot => some { engine with
      writer := .removing snapshot (snapshot.toList.map Prod.fst) }
  | _ => none

/-- `flush_inner` returned an error, before or after the registration. -/
def abortFlush (engine : Engine) : Option Engine :=
  match engine.writer with
  | .flushing _ _ | .registered _ => some { engine with writer := .free }
  | _ => none

/-- One `remove` of `flush_active_memtable`. -/
def removeNext (engine : Engine) : Option Engine :=
  match engine.writer with
  | .removing snapshot (entry :: entries) => some { engine with
      memtable := engine.memtable.erase entry
      writer := .removing snapshot entries }
  | _ => none

/-- `flush_active_memtable` returns. -/
def endFlush (engine : Engine) : Option Engine :=
  match engine.writer with
  | .removing _ [] => some { engine with writer := .free }
  | _ => none

/-! ### The compaction -/

/-- `write_compaction_output` for each output, under the given file ids. -/
def writeOutputs (level : Nat) : List SSTableCodec → List Nat →
    OrdMap String Bytes × Nat → Option (List SSTableMeta × OrdMap String Bytes × Nat)
  | [], [], (files, nextFileId) => some ([], files, nextFileId)
  | codec :: codecs, fileId :: fileIds, (files, nextFileId) =>
    if allocates files level nextFileId fileId then
      match codec.serialize with
      | .ok (encoded, footer) =>
        match outputMeta level fileId codec footer with
        | .ok output => do
            let (outputs, rest) ← writeOutputs level codecs fileIds
              (files.insert (tablePath level fileId) encoded, fileId + 1)
            return (output :: outputs, rest)
        | .error _ => none
      | .error _ => none
    else none
  | _, _, _ => none

/-- `compaction` up to the publication lease. -/
def beginCompaction (fastbloom : FastBloom) (config : StorageConfig) (level : Nat)
    (fileIds : List Nat) (engine : Engine) : Option Engine :=
  match engine.compaction with
  | .idle =>
    match planCompaction (engine.files[·]?) fastbloom config engine.levels level with
    | .ok plan => do
        let (outputs, files, nextFileId) ← writeOutputs (level + 1) plan.outputs fileIds
          (engine.files, engine.nextFileId)
        return { engine with
          files, nextFileId, compaction := .merged engine.levels plan.inputs outputs }
    | .error _ => none
  | _ => none

/-- The read lease is held. -/
def leaseHeld (engine : Engine) : Bool :=
  match engine.reader with
  | .idle | .loaded _ | .done _ => false
  | _ => true

/-- `publish_compaction` under the publication lease, when the snapshot of the plan is still the
current one. -/
def publishCompaction (engine : Engine) : Option Engine :=
  match engine.compaction with
  | .merged expected inputs outputs =>
    if engine.leaseHeld = false ∧ engine.levels.toList = expected.toList then some { engine with
      levels := outputs.foldl Levels.add
        (inputs.foldl (fun levels input => levels.remove input.level input.fileId) engine.levels)
      compaction := .deleting inputs }
    else none
  | _ => none

/-- The compaction is cancelled, or its publication fails. -/
def abortCompaction (engine : Engine) : Option Engine :=
  match engine.compaction with
  | .merged _ _ _ => some { engine with compaction := .idle }
  | _ => none

/-- One round of `remove_compacted_files`; a file that cannot be removed stays. -/
def deleteNext (removed : Bool) (engine : Engine) : Option Engine :=
  match engine.compaction with
  | .deleting (input :: inputs) => some { engine with
      files := if removed then engine.files.erase input.path else engine.files
      compaction := .deleting inputs }
  | _ => none

/-- The compaction returns and drops the publication lease. -/
def endCompaction (engine : Engine) : Option Engine :=
  match engine.compaction with
  | .deleting [] => some { engine with compaction := .idle }
  | _ => none

/-- A flush or a compaction that fails leaves a file behind and does not give its id back. -/
def leaveFile (level fileId : Nat) (bytes : Bytes) (engine : Engine) : Option Engine :=
  if allocates engine.files level engine.nextFileId fileId then some { engine with
    files := engine.files.insert (tablePath level fileId) bytes
    nextFileId := fileId + 1 }
  else none

/-! ### The read -/

/-- A read can start when none is running. -/
def readerFree (engine : Engine) : Bool :=
  match engine.reader with
  | .idle | .done _ => true
  | _ => false

/-- The result of a read that has ended. -/
def returned (engine : Engine) : Option (Exec ReadResult) :=
  match engine.reader with
  | .done result => some result
  | _ => none

/-- `KV2::get` and `KV2::scan` load the sequence number first. -/
def startRead (call : Nat → ReadCall) (engine : Engine) : Option Engine :=
  if engine.readerFree then some { engine with reader := .loaded (call engine.sequenceNumber) }
  else none

/-- The publication lease is held. -/
def publicationHeld (engine : Engine) : Bool :=
  match engine.compaction with
  | .deleting _ => true
  | _ => false

/-- What a read does once it has the lease. -/
def leasePhase : ReadCall → ReaderPhase
  | .get key sequenceNumber => .leased key sequenceNumber
  | .scan range sequenceNumber => .scanning range sequenceNumber none ∅

/-- The next memtable entry of a scan: the first one of the range behind the last one visited. -/
def nextEntry (memtable : Memtable) (range : KeyRange) (last : Option (Key ×ₗ Nat)) :
    Option ((Key ×ₗ Nat) × MemtableRecord) :=
  memtable.toList.find? fun entry =>
    ReadManager.withinBounds (ReadManager.collectRangeBounds range) entry.1 &&
      match last with
      | some last => decide (last < entry.1)
      | none => true

/-- The rest of a scan after the memtable. -/
def scanTables (levels : Levels) (range : KeyRange) (sequenceNumber : Nat)
    (merged : ReadManager.Merged) : ReadFile ReadResult := do
  let merged ← ReadManager.scanSstables range sequenceNumber
    (levels.byLevel.flatMap fun level => level.2) merged
  return .entries ((merged.toList.filter fun entry => entry.2.recordType != .delete).map
    fun entry => (entry.1, entry.2.value))

/-- The rest of a point read after the memtable. -/
def getTables (fastbloom : FastBloom) (levels : Levels) (key : Key) (sequenceNumber : Nat) :
    ReadFile ReadResult := do
  return .record (← ReadManager.getFromSstable fastbloom key sequenceNumber levels.byLevel)

/-- One step of the read. -/
def readNext (fastbloom : FastBloom) (engine : Engine) : Option Engine :=
  match engine.reader with
  | .idle | .done _ => none
  | .loaded call =>
    if engine.publicationHeld then none else some { engine with reader := leasePhase call }
  | .leased key sequenceNumber =>
    match ReadManager.getFromMemtable engine.memtable key sequenceNumber with
    | some record => some { engine with reader := .done (.ok (.record (some record))) }
    | none => some { engine with reader := .missed key sequenceNumber }
  | .scanning range sequenceNumber last merged =>
    match nextEntry engine.memtable range last with
    | some entry => some { engine with
        reader := .scanning range sequenceNumber (some entry.1)
          (ReadManager.scanEntry sequenceNumber merged entry) }
    | none => some { engine with reader := .scanned range sequenceNumber merged }
  | .missed key sequenceNumber => some { engine with
      reader := .reading (getTables fastbloom engine.levels key sequenceNumber) ([], 0) }
  | .scanned range sequenceNumber merged => some { engine with
      reader := .reading (scanTables engine.levels range sequenceNumber merged) ([], 0) }
  | .reading (.pure result) _ => some { engine with reader := .done (.ok result) }
  | .reading (.throw error) _ => some { engine with reader := .done (.error error) }
  | .reading prog cursor =>
    let (prog, cursor) := FileProg.next fileErrors (engine.files[·]?) (prog, cursor)
    some { engine with reader := .reading prog cursor }

/-! ### Runs -/

/-- The state after an event, none where it cannot happen. -/
def next (fastbloom : FastBloom) (config : StorageConfig) (engine : Engine) :
    Event → Option Engine
  | .beginGroup requests => engine.beginGroup requests
  | .insertNext => engine.insertNext
  | .storeSequence => engine.storeSequence
  | .beginFlush => engine.beginFlush fastbloom config
  | .registerTable fileId => engine.registerTable fileId
  | .commitFlush => engine.commitFlush
  | .abortFlush => engine.abortFlush
  | .removeNext => engine.removeNext
  | .endFlush => engine.endFlush
  | .beginCompaction level fileIds => engine.beginCompaction fastbloom config level fileIds
  | .publishCompaction => engine.publishCompaction
  | .abortCompaction => engine.abortCompaction
  | .deleteNext removed => engine.deleteNext removed
  | .endCompaction => engine.endCompaction
  | .leaveFile level fileId bytes => engine.leaveFile level fileId bytes
  | .startGet key => engine.startRead (.get key)
  | .startScan range => engine.startRead (.scan range)
  | .readNext => engine.readNext fastbloom

/-- An event that cannot happen changes nothing. -/
def step (fastbloom : FastBloom) (config : StorageConfig) (engine : Engine) (event : Event) :
    Engine :=
  (engine.next fastbloom config event).getD engine

/-- The state after a list of events. -/
def run (fastbloom : FastBloom) (config : StorageConfig) (engine : Engine) (events : List Event) :
    Engine :=
  events.foldl (step fastbloom config) engine

/-- The states a list of events passes through, the first and the last one included. -/
def states (fastbloom : FastBloom) (config : StorageConfig) (engine : Engine) :
    List Event → List Engine
  | [] => [engine]
  | event :: events => engine :: (engine.step fastbloom config event).states fastbloom config events

/-- An engine without any data. -/
def empty : Engine where
  memtable := ∅
  sequenceNumber := 0
  levels := ∅
  nextFileId := 1
  files := ∅
  log := []
  writer := .free
  compaction := .idle
  reader := .idle

end Engine

end CereDB.Storage

import CereDB.Storage.Admission
import CereDB.Storage.Concurrent
import CereDB.Storage.Store

/-!
# `CereDB.Storage.GroupCommit`: clients, write runners and a read on one component

`write_batch` and `run_write_admission` of `src/storage/writemanager/write.rs`, cut at the points
where tasks on clones of one `WriteComponent` can interleave. A client enqueues its batch and, when
it is told to, starts a runner. A runner drains requests, appends them to the WAL under the writer
lock, inserts their records one by one, stores the sequence number, completes the requests in order
and starts over; it ends when the queue is empty.

Nothing here limits the number of runners. That there is never more than one is a theorem.

A read loads the sequence number and then reads the shared memtable, a scan entry by entry. No flush
and no compaction runs, so the tables it reads after that do not change.

`Journal` is what happened so far. No step reads it.
-/

set_option autoImplicit false

namespace CereDB.Storage

open CereDB.Lib

/-- Where a call of `run_write_admission` stands. -/
inductive Runner where
  /-- At the top of the loop. -/
  | ready
  /-- Waiting for the writer lock. -/
  | drained (requests : List Request)
  /-- The WAL append returned: the records still to insert and the sequence number to store. -/
  | publishing (requests : List Request) (pending : List LogCommand) (nextLsn : Nat)
  /-- The requests still to complete. -/
  | completing (requests : List Request) (result : Except DBError Unit)
deriving DecidableEq, Repr

namespace Runner

/-- The runner holds the writer lock, up to the end of its round. -/
def holdsLock : Runner → Bool
  | .ready | .drained _ => false
  | .publishing _ _ _ | .completing _ _ => true

/-- The requests that are drained and not completed. -/
def requests : Runner → List Request
  | .ready => []
  | .drained requests | .publishing requests _ _ | .completing requests _ => requests

end Runner

/-- How far a read on the shared memtable got. -/
inductive MemtableRead where
  | idle
  /-- The sequence number is loaded. -/
  | loaded (call : ReadCall)
  /-- The last memtable entry a scan visited and what it collected. -/
  | scanning (range : KeyRange) (sequenceNumber : Nat) (last : Option (Key ×ₗ Nat))
      (merged : ReadManager.Merged)
  | done (result : Exec ReadResult)

/-- A batch whose WAL append returned `Ok`. -/
structure CommittedBatch where
  ticket : Nat
  commands : List LogCommand
deriving DecidableEq, Repr

/-- What happened so far: the requests of clients with their tickets, the batches in the order of
their WAL appends, the results sent to clients, and the tickets whose completion was refused. -/
structure Journal where
  issued : List Request
  committed : List CommittedBatch
  completed : List (Nat × Except DBError Unit)
  refused : List Nat

/-- One component with the tasks that share it. `elected` counts the clients that were told to start
a runner and have not done so yet. -/
structure GroupCommit where
  store : Store
  queue : AdmissionQueue
  elected : Nat
  runners : List Runner
  reader : MemtableRead
  journal : Journal

/-- What can happen next. A runner is named by its position. The plan says how the I/O calls of a
WAL append end. -/
inductive CommitEvent where
  | writeBatch (operations : List BatchOperation)
  | startRunner
  | drain (runner : Nat)
  | appendGroup (runner : Nat) (plan : List Answer)
  | insertRecord (runner : Nat)
  | storeSequence (runner : Nat)
  | complete (runner : Nat)
  | startGet (key : Key)
  | startScan (range : KeyRange)
  | readNext
deriving DecidableEq

/-- The events of runners. -/
def CommitEvent.ofRunner : CommitEvent → Bool
  | .startRunner | .drain _ | .appendGroup _ _ | .insertRecord _ | .storeSequence _
  | .complete _ => true
  | .writeBatch _ | .startGet _ | .startScan _ | .readNext => false

namespace GroupCommit

/-- A component before its first write. -/
def start (store : Store) : GroupCommit where
  store
  queue := .new
  elected := 0
  runners := []
  reader := .idle
  journal := ⟨[], [], [], []⟩

/-! ### Clients -/

/-- `write_batch` up to the wait for the result. An empty batch, one that `validate_batch` refuses
and one without a ticket return before they reach the queue. -/
def writeBatch (operations : List BatchOperation) (state : GroupCommit) : Option GroupCommit :=
  if operations = [] then none
  else
    match validateBatch operations with
    | .error _ => none
    | .ok estimatedBytes =>
      match state.queue.enqueue operations estimatedBytes with
      | .error _ => none
      | .ok (enqueued, queue) => some { state with
          queue
          elected := if enqueued.shouldStartRunner then state.elected + 1 else state.elected
          journal := { state.journal with
            issued := state.journal.issued ++
              [{ operations, ticket := enqueued.ticket, byteWeight := estimatedBytes }] } }

/-- The client that was told to start a runner does so. -/
def startRunner (state : GroupCommit) : Option GroupCommit :=
  if state.elected = 0 then none
  else some { state with
    elected := state.elected - 1
    runners := state.runners ++ [.ready] }

/-! ### Runners -/

/-- Moves a runner on. -/
def setRunner (index : Nat) (runner : Runner) (state : GroupCommit) : GroupCommit :=
  { state with runners := state.runners.set index runner }

/-- A runner ends. -/
def endRunner (index : Nat) (state : GroupCommit) : GroupCommit :=
  { state with runners := state.runners.eraseIdx index }

/-- `drain_ready` of a runner, which ends when nothing is left. -/
def drain (index : Nat) (state : GroupCommit) : Option GroupCommit :=
  match state.runners[index]? with
  | some .ready =>
    match state.queue.drainReady maxDrainRequests maxDrainBytes with
    | (none, queue) => some (endRunner index { state with queue })
    | (some requests, queue) => some (setRunner index (.drained requests) { state with queue })
  | _ => none

/-- The writer lock is free. -/
def lockFree (state : GroupCommit) : Bool :=
  state.runners.all fun runner => !runner.holdsLock

/-- The batches of a group. -/
def batches (requests : List Request) (groups : List (List LogCommand)) : List CommittedBatch :=
  List.zipWith (fun request commands => ⟨request.ticket, commands⟩) requests groups

/-- A runner takes the writer lock, builds the commands of its requests and appends them to the
WAL. A panic ends the runner alone; when the process stops nothing happens any more. -/
def appendGroup (index : Nat) (plan : List Answer) (state : GroupCommit) : Option GroupCommit :=
  match state.runners[index]? with
  | some (.drained requests) =>
    if state.lockFree then
      match buildGroups state.store.component.sequenceNumber
          (requests.map Request.operations) with
      | .error (.error error) => some (setRunner index (.completing requests (.error error)) state)
      | .error _ => none
      | .ok (groups, nextLsn) =>
        match Act.exec (Store.onWal (Wal.writeEngineTransactions groups
            state.store.component.checkpointOwner))
            { state.store with dir := { state.store.dir with plan } } with
        | (.ok _, store) => some (setRunner index
            (.publishing requests groups.flatten nextLsn) { state with
              store
              journal := { state.journal with
                committed := state.journal.committed ++ batches requests groups } })
        | (.error (.error error), store) =>
          some (setRunner index (.completing requests (.error error)) { state with store })
        | (.error (.panic _), store) => some (endRunner index { state with store })
        | (.error .crash, _) => none
    else none
  | _ => none

/-- One `append_to_memtable`. -/
def insertRecord (index : Nat) (state : GroupCommit) : Option GroupCommit :=
  match state.runners[index]? with
  | some (.publishing requests (command :: pending) nextLsn) =>
    some (setRunner index (.publishing requests pending nextLsn) { state with
      store := { state.store with
        component := Store.appendToMemtable state.store.component command } })
  | _ => none

/-- The store that publishes a group. -/
def storeSequence (index : Nat) (state : GroupCommit) : Option GroupCommit :=
  match state.runners[index]? with
  | some (.publishing requests [] nextLsn) =>
    some (setRunner index (.completing requests (.ok ())) { state with
      store := { state.store with
        component := { state.store.component with sequenceNumber := nextLsn } } })
  | _ => none

/-- One `complete`, or the end of the round. A refused completion drops the sender of the result. -/
def complete (index : Nat) (state : GroupCommit) : Option GroupCommit :=
  match state.runners[index]? with
  | some (.completing [] _) => some (setRunner index .ready state)
  | some (.completing (request :: requests) result) =>
    match state.queue.complete request with
    | .ok queue => some (setRunner index (.completing requests result) { state with
        queue
        journal := { state.journal with
          completed := state.journal.completed ++ [(request.ticket, result)] } })
    | .error _ => some (setRunner index (.completing requests result) { state with
        journal := { state.journal with
          refused := state.journal.refused ++ [request.ticket] } })
  | _ => none

/-! ### The read -/

/-- A read loads the sequence number. -/
def startRead (call : Nat → ReadCall) (state : GroupCommit) : Option GroupCommit :=
  match state.reader with
  | .idle | .done _ =>
    some { state with reader := .loaded (call state.store.component.sequenceNumber) }
  | _ => none

/-- Runs the part of a read behind the memtable. -/
def readTables (state : GroupCommit) (prog : ReadFile ReadResult) : Exec ReadResult :=
  FileProg.result fileErrors state.store.files prog

/-- One step of the read. -/
def readNext (fastbloom : FastBloom) (state : GroupCommit) : Option GroupCommit :=
  let memtable := state.store.component.memtable
  match state.reader with
  | .idle | .done _ => none
  | .loaded (.get key sequenceNumber) =>
    match ReadManager.getFromMemtable memtable key sequenceNumber with
    | some record => some { state with reader := .done (.ok (.record (some record))) }
    | none => some { state with reader := .done (state.readTables
        (Engine.getTables fastbloom state.store.levels key sequenceNumber)) }
  | .loaded (.scan range sequenceNumber) =>
    some { state with reader := .scanning range sequenceNumber none ∅ }
  | .scanning range sequenceNumber last merged =>
    match Engine.nextEntry memtable range last with
    | some entry => some { state with
        reader := .scanning range sequenceNumber (some entry.1)
          (ReadManager.scanEntry sequenceNumber merged entry) }
    | none => some { state with reader := .done (state.readTables
        (Engine.scanTables state.store.levels range sequenceNumber merged)) }

/-! ### Runs -/

/-- The state after an event, none where it cannot happen. -/
def next (fastbloom : FastBloom) (state : GroupCommit) : CommitEvent → Option GroupCommit
  | .writeBatch operations => state.writeBatch operations
  | .startRunner => state.startRunner
  | .drain runner => state.drain runner
  | .appendGroup runner plan => state.appendGroup runner plan
  | .insertRecord runner => state.insertRecord runner
  | .storeSequence runner => state.storeSequence runner
  | .complete runner => state.complete runner
  | .startGet key => state.startRead (.get key)
  | .startScan range => state.startRead (.scan range)
  | .readNext => state.readNext fastbloom

/-- An event that cannot happen changes nothing. -/
def step (fastbloom : FastBloom) (state : GroupCommit) (event : CommitEvent) : GroupCommit :=
  (state.next fastbloom event).getD state

/-- The state after a list of events. -/
def run (fastbloom : FastBloom) (state : GroupCommit) (events : List CommitEvent) : GroupCommit :=
  events.foldl (step fastbloom) state

end GroupCommit

end CereDB.Storage

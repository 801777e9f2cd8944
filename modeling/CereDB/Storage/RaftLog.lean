import CereDB.Lib.CachedDir
import CereDB.Storage.Read

/-!
# `CereDB.Storage.RaftLog`: the Raft log store

`LogStore` of `src/storage/raft/log_store.rs`, the storage of votes and log entries that the crate
gives to `openraft`. All entries are kept in memory, and every change writes them to the file
`entries.dat`; the vote goes to the file `vote`.

The types of `openraft` are those of version 0.9, with `u64` as node id and byte strings as
commands. `Bincode` stands for the `bincode` crate.
-/

set_option autoImplicit false

namespace CereDB.Storage

open CereDB.Lib

/-! ### Types of `openraft` -/

/-- `LeaderId`. -/
structure LeaderId where
  term : Nat
  nodeId : Nat
deriving DecidableEq, Repr

/-- `LogId`. -/
structure LogId where
  leaderId : LeaderId
  index : Nat
deriving DecidableEq, Repr

/-- `Vote`. -/
structure Vote where
  leaderId : LeaderId
  committed : Bool
deriving DecidableEq, Repr

/-- `Membership`: the voter sets and the address of each node. -/
structure Membership where
  configs : List (List Nat)
  nodes : List (Nat × String)
deriving DecidableEq, Repr

/-- `EntryPayload`. -/
inductive EntryPayload where
  | blank
  | normal (data : Bytes)
  | membership (membership : Membership)
deriving DecidableEq, Repr

/-- `Entry`. -/
structure Entry where
  logId : LogId
  payload : EntryPayload
deriving DecidableEq, Repr

/-- `LogState`. -/
structure LogState where
  lastPurgedLogId : Option LogId
  lastLogId : Option LogId
deriving DecidableEq, Repr

/-- `ErrorSubject`, as far as the store uses it. -/
inductive ErrorSubject where
  | vote
  | logs
  | logIndex (index : Nat)
deriving DecidableEq, Repr

/-- `ErrorVerb`, as far as the store uses it. -/
inductive ErrorVerb where
  | write
  | delete
deriving DecidableEq, Repr

/-- `StorageError::IO`, with what the call was about. -/
structure StorageError where
  subject : ErrorSubject
  verb : ErrorVerb
deriving DecidableEq, Repr

/-- Why a call of the log store did not return a value. -/
inductive RaftHalt where
  | error (e : StorageError)
  | panic (message : String)
  | crash
deriving DecidableEq, Repr

/-- A computation of the log store. -/
abbrev RaftOp (σ α : Type) := Act RaftHalt σ α

/-- `io_error`: the errors of a file system call, with the subject and the verb of the call. -/
def ioError (subject : ErrorSubject) (verb : ErrorVerb) : IoErrors RaftHalt where
  failed := .error ⟨subject, verb⟩
  alreadyExists := .error ⟨subject, verb⟩
  notFound := .error ⟨subject, verb⟩
  crashed := .crash

/-- `+` on `u64` and `usize`, which panics on overflow. -/
def addIndex (a b : Nat) : Except RaftHalt Nat :=
  match checkedAdd a b with
  | some sum => .ok sum
  | none => .error (.panic "attempt to add with overflow")

theorem addIndex_of_lt {a b : Nat} (h : a + b < u64Limit) : addIndex a b = .ok (a + b) := by
  rw [addIndex, checkedAdd, if_pos h]

theorem addIndex_of_le {a b : Nat} (h : u64Limit ≤ a + b) :
    addIndex a b = .error (.panic "attempt to add with overflow") := by
  rw [addIndex, checkedAdd, if_neg (by omega)]

/-- `bincode::serialize` and `bincode::deserialize` for votes and for lists of entries. What is
written is read back, and it is never empty: a list starts with its length, and a vote with its
term. -/
structure Bincode where
  entries : List Entry → Bytes
  readEntries : Bytes → Except String (List Entry)
  vote : Vote → Bytes
  readVote : Bytes → Except String Vote
  readEntries_entries : ∀ es, readEntries (entries es) = .ok es
  readVote_vote : ∀ v, readVote (vote v) = .ok v
  entries_ne_nil : ∀ es, entries es ≠ []
  vote_ne_nil : ∀ v, vote v ≠ []

/-! ### The store -/

/-- `LogStore`: the entries and the vote in memory. -/
structure LogStore where
  entries : List Entry
  vote : Option Vote
deriving DecidableEq, Repr

/-- A log store and its directory. -/
structure RaftDir where
  dir : CachedDir String
  store : LogStore

/-- `entries.dat`. -/
def entriesPath : String := "entries.dat"

/-- `vote`. -/
def votePath : String := "vote"

/-- `path.with_extension("tmp")` for the entries. -/
def entriesTemporary : String := "entries.tmp"

/-- `path.with_extension("tmp")` for the vote. -/
def voteTemporary : String := "vote.tmp"

/-- Runs an operation on the directory. -/
def onDir {α : Type} (x : RaftOp (CachedDir String) α) : RaftOp RaftDir α :=
  Act.zoom RaftDir.dir (fun raft dir => { raft with dir }) x

/-- Changes the memory of the store. -/
def modifyStore (f : LogStore → LogStore) : RaftOp RaftDir Unit :=
  modify fun raft => { raft with store := f raft.store }

/-- A file as `LogStore::open` reads it. A missing file and an empty one count as no contents. -/
def loadFile {α : Type} (disk : Disk String) (path : String) (label : String)
    (read : Bytes → Except String α) : Exec (Option α) :=
  match disk[path]? with
  | none => .ok none
  | some file =>
    if file.bytes = [] then .ok none
    else
      match read file.bytes with
      | .ok a => .ok (some a)
      | .error e => storageError (label ++ " deserialize: " ++ e)

namespace LogStore

/-- `LogStore::open`. -/
def «open» (codec : Bincode) (disk : Disk String) : Exec LogStore := do
  let entries ← loadFile disk entriesPath "log" codec.readEntries
  let vote ← loadFile disk votePath "vote" codec.readVote
  return { entries := entries.getD [], vote }

/-- `flush_entries`, with the errors its caller maps. -/
def flushEntries (codec : Bincode) (err : IoErrors RaftHalt) : RaftOp RaftDir Unit := do
  let raft ← get
  onDir (CachedDir.atomicWrite err entriesPath entriesTemporary (codec.entries raft.store.entries))

/-- The first position a range asks for. -/
def rangeStart : Bound Nat → Except RaftHalt Nat
  | .included i => .ok i
  | .excluded i => addIndex i 1
  | .unbounded => .ok 0

/-- One more than the last position a range asks for. -/
def rangeEnd (length : Nat) : Bound Nat → Except RaftHalt Nat
  | .included i => addIndex i 1
  | .excluded i => .ok i
  | .unbounded => .ok length

/-- The body of both `try_get_log_entries`. -/
def entriesInRange (entries : List Entry) (range : Bound Nat × Bound Nat) :
    Except RaftHalt (List Entry) := do
  let start ← rangeStart range.1
  let stop ← rangeEnd entries.length range.2
  if entries.length ≤ start ∨ stop ≤ start then return []
  else return (entries.take (min stop entries.length)).drop start

/-- `try_get_log_entries` of the store. -/
def tryGetLogEntries (store : LogStore) (range : Bound Nat × Bound Nat) :
    Except RaftHalt (List Entry) := entriesInRange store.entries range

/-- `get_log_state`. -/
def getLogState (store : LogStore) : LogState where
  lastPurgedLogId := none
  lastLogId := store.entries.getLast?.map Entry.logId

/-- `save_vote`. -/
def saveVote (codec : Bincode) (vote : Vote) : RaftOp RaftDir Unit := do
  modifyStore fun store => { store with vote := some vote }
  onDir (CachedDir.atomicWrite (ioError .vote .write) votePath voteTemporary (codec.vote vote))

/-- `append`. -/
def append (codec : Bincode) (entries : List Entry) : RaftOp RaftDir Unit := do
  modifyStore fun store => { store with entries := store.entries ++ entries }
  flushEntries codec (ioError .logs .write)

/-- `truncate`. -/
def truncate (codec : Bincode) (logId : LogId) : RaftOp RaftDir Unit := do
  let keep ← Act.ofExcept (addIndex logId.index 1)
  modifyStore fun store =>
    if keep < store.entries.length then { store with entries := store.entries.take keep } else store
  flushEntries codec (ioError (.logIndex logId.index) .delete)

/-- `purge`. -/
def purge (codec : Bincode) (logId : LogId) : RaftOp RaftDir Unit := do
  let stop ← Act.ofExcept (addIndex logId.index 1)
  modifyStore fun store =>
    if store.entries.length ≤ stop then { store with entries := [] }
    else { store with entries := store.entries.drop stop }
  flushEntries codec (ioError (.logIndex logId.index) .delete)

end LogStore

/-- `LogReader`: a handle to the entries of the store. -/
structure LogReader where
  entries : List Entry
deriving DecidableEq, Repr

/-- `get_log_reader`. -/
def LogStore.getLogReader (store : LogStore) : LogReader := ⟨store.entries⟩

/-- `try_get_log_entries` of the reader. -/
def LogReader.tryGetLogEntries (reader : LogReader) (range : Bound Nat × Bound Nat) :
    Except RaftHalt (List Entry) := LogStore.entriesInRange reader.entries range

/-! ### Nodes that stop and start again -/

/-- What happens to a node: a call of its log store, an open, or a power loss. The plan says how the
file system calls of an operation end. -/
inductive RaftEvent where
  | saveVote (vote : Vote) (plan : List Answer)
  | append (entries : List Entry) (plan : List Answer)
  | truncate (logId : LogId) (plan : List Answer)
  | purge (logId : LogId) (plan : List Answer)
  | open
  | powerLoss (back : Nat) (kept : String → Nat)

/-- The directory of a node, the store that has it open, if one does, the votes of all calls of
`save_vote` and the logs after all calls that change the log. With each of them stands whether the
call returned `Ok`. -/
structure RaftNode where
  dir : CachedDir String
  store : Option LogStore
  votes : List (Vote × Bool)
  logs : List (List Entry × Bool)

namespace RaftNode

/-- The store after a call: none when the process stopped. -/
def after (outcome : Except RaftHalt Unit) (store : LogStore) : Option LogStore :=
  match outcome with
  | .error .crash => none
  | _ => some store

/-- Runs a call on the open store. -/
def call (node : RaftNode) (plan : List Answer) (x : RaftOp RaftDir Unit)
    (record : Bool → LogStore → RaftNode → RaftNode) : RaftNode :=
  match node.store with
  | none => node
  | some store =>
    let (outcome, raft) :=
      Act.exec x ⟨{ node.dir with io := { node.dir.io with plan } }, store⟩
    record outcome.isOk raft.store { node with
      dir := raft.dir
      store := after outcome raft.store }

/-- Adds the vote of a call. -/
def recordVote (vote : Vote) (ok : Bool) (_ : LogStore) (node : RaftNode) : RaftNode :=
  { node with votes := node.votes ++ [(vote, ok)] }

/-- Adds the log a call leaves in memory. -/
def recordLog (ok : Bool) (store : LogStore) (node : RaftNode) : RaftNode :=
  { node with logs := node.logs ++ [(store.entries, ok)] }

/-- One event. A power loss stops the process. -/
def step (codec : Bincode) (node : RaftNode) : RaftEvent → RaftNode
  | .saveVote vote plan => node.call plan (LogStore.saveVote codec vote) (recordVote vote)
  | .append entries plan => node.call plan (LogStore.append codec entries) recordLog
  | .truncate logId plan => node.call plan (LogStore.truncate codec logId) recordLog
  | .purge logId plan => node.call plan (LogStore.purge codec logId) recordLog
  | .open => { node with store := (LogStore.open codec node.dir.io.disk).toOption }
  | .powerLoss back kept => { node with dir := node.dir.powerLoss back kept, store := none }

/-- An empty directory. -/
def start : RaftNode := { dir := .empty, store := none, votes := [], logs := [] }

/-- The events in order. -/
def run (codec : Bincode) (events : List RaftEvent) : RaftNode := events.foldl (step codec) start

end RaftNode

end CereDB.Storage

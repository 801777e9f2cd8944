import CereDB.Lib.OrdSet
import CereDB.Proofs.StoreInvariant
import CereDB.Proofs.WalRecovery
import CereDB.Storage.Kv2

/-!
# `CereDB.Proofs.MemtableSize`: the size counter of the memtable

`append_to_memtable` adds the bytes of a record to the counter, `flush_active_memtable` subtracts
the bytes of the entries it removes, and recovery starts from the bytes of the recovered records.
The memtable is keyed by key and sequence number, so an insertion can replace an entry, and nothing
subtracts the bytes of the replaced one.

`replacedBytes` says how many bytes a command or a list of recovered records replaces. A batch never
replaces an entry: its sequence numbers are above those of every entry (`Ahead`). A replicated
command can, and so can a recovered record. `size_exact_iff` is the run result: the counter is the
size of the memtable after every call of a run, if and only if no call of the run replaces bytes.
-/

set_option autoImplicit false

namespace CereDB.Storage

open CereDB.Lib

/-! ### The bytes of a memtable -/

/-- The bytes an entry counts for. -/
def entryBytes (entry : Key ×ₗ Nat) (record : MemtableRecord) : Nat :=
  (ofLex entry).1.length + record.value.length

/-- The bytes of all entries. -/
def Memtable.bytes (memtable : Memtable) : Nat := OrdMap.sum entryBytes memtable

/-- The memtable after a command. -/
def Memtable.appendCommand (memtable : Memtable) (command : LogCommand) : Memtable :=
  memtable.append command.key command.value command.recordType command.lsn

/-- The bytes of the entries that a list of commands replaces. -/
def Memtable.replacedBytes : Memtable → List LogCommand → Nat
  | _, [] => 0
  | memtable, command :: commands =>
    OrdMap.term entryBytes memtable (toLex (command.key, command.lsn)) +
      replacedBytes (memtable.appendCommand command) commands

/-- The bytes of a command. -/
def LogCommand.bytes (command : LogCommand) : Nat := command.key.length + command.value.length

/-- The bytes of a list of commands. -/
def commandBytes (commands : List LogCommand) : Nat := (commands.map LogCommand.bytes).sum

theorem commandBytes_cons (command : LogCommand) (commands : List LogCommand) :
    commandBytes (command :: commands) = command.bytes + commandBytes commands := rfl

namespace Memtable

theorem bytes_appendCommand (memtable : Memtable) (command : LogCommand) :
    (memtable.appendCommand command).bytes +
      OrdMap.term entryBytes memtable (toLex (command.key, command.lsn)) =
        memtable.bytes + command.bytes :=
  OrdMap.sum_insert entryBytes memtable _ _

/-- The commands add their bytes, apart from what they replace. -/
theorem bytes_foldl_appendCommand (memtable : Memtable) (commands : List LogCommand) :
    (commands.foldl appendCommand memtable).bytes + memtable.replacedBytes commands =
      memtable.bytes + commandBytes commands := by
  induction commands generalizing memtable with
  | nil => rfl
  | cons command commands ih =>
    have hstep := bytes_appendCommand memtable command
    have hrest := ih (memtable.appendCommand command)
    rw [List.foldl_cons, replacedBytes, commandBytes_cons]
    omega

/-- Every entry has a sequence number up to a bound. -/
def Ahead (memtable : Memtable) (sequenceNumber : Nat) : Prop :=
  ∀ (key : Key) (lsn : Nat) (record : MemtableRecord),
    memtable[toLex (key, lsn)]? = some record → lsn ≤ sequenceNumber

theorem ahead_empty (sequenceNumber : Nat) : Ahead ∅ sequenceNumber := by
  intro key lsn record hget
  rw [OrdMap.get?_empty] at hget
  contradiction

theorem Ahead.mono {memtable : Memtable} {sequenceNumber next : Nat}
    (h : memtable.Ahead sequenceNumber) (hle : sequenceNumber ≤ next) : memtable.Ahead next :=
  fun key lsn record hget => (h key lsn record hget).trans hle

theorem Ahead.appendCommand {memtable : Memtable} {sequenceNumber : Nat}
    (h : memtable.Ahead sequenceNumber) (command : LogCommand) (hle : command.lsn ≤ sequenceNumber) :
    (memtable.appendCommand command).Ahead sequenceNumber := by
  intro key lsn record hget
  rw [Memtable.appendCommand, Memtable.append, OrdMap.get?_insert] at hget
  split at hget
  · rename_i hentry
    have hlsn : command.lsn = lsn := congrArg (fun entry => (ofLex entry).2) hentry
    omega
  · exact h key lsn record hget

theorem Ahead.foldl_appendCommand {memtable : Memtable} {sequenceNumber : Nat}
    (h : memtable.Ahead sequenceNumber) {commands : List LogCommand}
    (hle : ∀ command ∈ commands, command.lsn ≤ sequenceNumber) :
    (commands.foldl Memtable.appendCommand memtable).Ahead sequenceNumber := by
  induction commands generalizing memtable with
  | nil => exact h
  | cons command commands ih =>
    exact ih (h.appendCommand command (hle command List.mem_cons_self))
      fun other hother => hle other (List.mem_cons_of_mem command hother)

/-- Commands with ascending sequence numbers above those of the entries replace nothing. -/
theorem Ahead.replacedBytes {memtable : Memtable} {sequenceNumber : Nat}
    (h : memtable.Ahead sequenceNumber) {commands : List LogCommand} (hascending : LsnSorted commands)
    (hnew : ∀ command ∈ commands, sequenceNumber < command.lsn) :
    memtable.replacedBytes commands = 0 := by
  induction commands generalizing memtable sequenceNumber with
  | nil => rfl
  | cons command commands ih =>
    have hlt := hnew command List.mem_cons_self
    have hfree : memtable[toLex (command.key, command.lsn)]? = none := by
      cases hget : memtable[toLex (command.key, command.lsn)]? with
      | none => rfl
      | some record =>
        have hle := h command.key command.lsn record hget
        omega
    obtain ⟨hbehind, hascending⟩ := List.pairwise_cons.mp hascending
    have hrest := ih ((h.mono hlt.le).appendCommand command le_rfl) hascending hbehind
    rw [Memtable.replacedBytes, OrdMap.term, hfree, hrest]
    rfl

end Memtable

/-! ### What the calls do to the memtable and to its counter -/

/-- A command whose bytes `append_to_memtable` counts in full. -/
def LogCommand.Normal (command : LogCommand) : Prop :=
  command.recordType = .delete → command.value = []

theorem appendToMemtable_size (component : WriteComponent) {command : LogCommand}
    (h : command.Normal) :
    (Store.appendToMemtable component command).memtableSize =
      (component.memtableSize + command.bytes) % u64Limit := by
  simp only [Store.appendToMemtable, LogCommand.bytes]
  by_cases hdelete : command.recordType = .delete
  · rw [if_pos hdelete, h hdelete]
    rfl
  · rw [if_neg hdelete]

theorem foldl_appendToMemtable (component : WriteComponent) {commands : List LogCommand}
    (hnormal : ∀ command ∈ commands, command.Normal) (hsize : component.memtableSize < u64Limit) :
    (commands.foldl Store.appendToMemtable component).memtable =
        commands.foldl Memtable.appendCommand component.memtable ∧
      (commands.foldl Store.appendToMemtable component).memtableSize =
        (component.memtableSize + commandBytes commands) % u64Limit := by
  induction commands generalizing component with
  | nil => exact ⟨rfl, (Nat.mod_eq_of_lt hsize).symm⟩
  | cons command commands ih =>
    have hstep := appendToMemtable_size component (hnormal command List.mem_cons_self)
    have hlt : (Store.appendToMemtable component command).memtableSize < u64Limit := by
      rw [hstep]
      exact Nat.mod_lt _ (by decide)
    obtain ⟨hmemtable, hsize'⟩ := ih (Store.appendToMemtable component command)
      (fun other hother => hnormal other (List.mem_cons_of_mem command hother)) hlt
    refine ⟨hmemtable, ?_⟩
    rw [List.foldl_cons, hsize', hstep, commandBytes_cons, Nat.mod_add_mod, Nat.add_assoc]

theorem toCommand_normal (operation : BatchOperation) (lsn : Nat) :
    (operation.toCommand lsn).Normal := by
  cases operation with
  | put key value => exact fun h => RecordType.noConfusion h
  | delete key => exact fun _ => rfl

namespace Store

@[simp] theorem exec_modifyComponent (f : WriteComponent → WriteComponent) (store : Store) :
    Act.exec (modifyComponent f) store = (.ok (), { store with component := f store.component }) :=
  rfl

/-- The memtable with its counter and the sequence number. -/
def published (store : Store) : Memtable × Nat × Nat :=
  (store.component.memtable, store.component.memtableSize, store.component.sequenceNumber)

variable {α : Type}

theorem keeps_onWal (x : Op Wal α) : Act.Keeps published (onWal x) :=
  Act.Keeps.zoom fun _ _ => rfl

theorem keeps_onTables (x : Op (Io String) α) : Act.Keeps published (onTables x) :=
  Act.Keeps.zoom fun _ _ => rfl

theorem keeps_onManifest (x : Op ManifestManager α) : Act.Keeps published (onManifest x) :=
  Act.Keeps.zoom fun _ _ => rfl

theorem keeps_appendManifest (x : ManifestManager.AppendOutcome → Op ManifestManager α) :
    Act.Keeps published (appendManifest x) := by
  refine (keeps_onTables _).bind fun answer => ?_
  cases answer with
  | ok => exact keeps_onManifest _
  | fails written => exact keeps_onManifest _
  | crash written =>
    exact (((keeps_onManifest _).bind fun _ => .pure _).catch fun _ => .pure _).bind
      fun _ => .throw _

theorem keeps_createTable (level attempts : Nat) :
    Act.Keeps published (createTable level attempts) := by
  induction attempts with
  | zero => exact .throw _
  | succ attempts ih =>
    refine (keeps_onManifest _).bind fun fileId => .bind (.catch ?_ fun halt => ?_) fun created => ?_
    · exact (keeps_onTables _).bind fun _ => .pure _
    · split
      · exact .pure _
      · exact .throw _
    · split
      · exact .pure _
      · exact ih

theorem keeps_newTable (level : Nat) : Act.Keeps published (newTable level) :=
  (keeps_onTables _).bind fun _ => Act.Keeps.get.bind fun _ => keeps_createTable level _

theorem keeps_writeTable (path : String) (encoded : Bytes) :
    Act.Keeps published (writeTable path encoded) :=
  (keeps_onTables _).bind fun _ => (keeps_onTables _).bind fun _ => keeps_onTables _

theorem keeps_publishCheckpoint (committedSequence : Nat) :
    Act.Keeps published (publishCheckpoint committedSequence) := by
  refine Act.Keeps.get.bind fun store => ?_
  by_cases howns : Wal.ownsRecoveryCheckpoints store.component.wal store.component.checkpointOwner
  · rw [if_pos howns]
    refine (keeps_onWal _).bind fun position => ?_
    cases position with
    | none => exact .pure _
    | some position =>
      refine (keeps_appendManifest _).bind fun _ => (keeps_onWal _).catch fun halt => ?_
      cases halt with
      | error e => exact .pure _
      | panic message => exact .throw _
      | crash => exact .throw _
  · rw [if_neg howns]
    exact .pure _

/-- A flush touches the memtable only after `flush_inner` returned. -/
theorem keeps_flushInner (fastbloom : FastBloom) (config : StorageConfig) (memtable : Memtable)
    (trustedSequence : Option Nat) :
    Act.Keeps published (flushInner fastbloom config memtable trustedSequence) := by
  refine (Act.Keeps.ofExcept _).bind fun table => (keeps_newTable 0).bind fun fileId =>
    (keeps_writeTable _ _).bind fun _ => (keeps_appendManifest _).bind fun _ =>
    (keeps_onWal _).bind fun segment => (keeps_appendManifest _).bind fun _ => .bind ?_
    fun _ => .pure _
  cases trustedSequence with
  | none => exact .pure _
  | some sequence => exact keeps_publishCheckpoint sequence

end Store

/-- Operations were appended under the next sequence numbers. After a failure there are none. -/
def Store.Wrote (store store' : Store) : Prop :=
  ∃ written : List BatchOperation, store'.published =
    ((numbered store.component.sequenceNumber written).foldl Memtable.appendCommand
        store.component.memtable,
      (store.component.memtableSize +
        commandBytes (numbered store.component.sequenceNumber written)) % u64Limit,
      store.component.sequenceNumber + written.length)

theorem Store.Wrote.of_published {store store' : Store}
    (hsize : store.component.memtableSize < u64Limit) (h : store'.published = store.published) :
    store.Wrote store' := by
  refine ⟨[], ?_⟩
  rw [h]
  show (_, _, _) = (_, (store.component.memtableSize + 0) % u64Limit, _)
  rw [Nat.add_zero, Nat.mod_eq_of_lt hsize]
  rfl

theorem wrote_runGroup (store : Store) (requests : List (List BatchOperation))
    (hsize : store.component.memtableSize < u64Limit) :
    store.Wrote (Act.exec (Store.runGroup requests) store).2 := by
  rw [Store.runGroup, Act.exec_bind_ok (Act.exec_get store)]
  dsimp only
  cases hbuild : buildGroups store.component.sequenceNumber requests with
  | error e =>
    rw [Act.exec_bind_error (Act.exec_ofExcept _ _)]
    exact .of_published hsize rfl
  | ok built =>
    obtain ⟨hflatten, hlast, -⟩ := buildGroups_ok hbuild
    rw [Act.exec_bind_ok (Act.exec_ofExcept _ _)]
    have hkeeps := Store.keeps_onWal
      (Wal.writeEngineTransactions built.1 store.component.checkpointOwner) store
    cases hexec : Act.exec (Store.onWal (Wal.writeEngineTransactions built.1
        store.component.checkpointOwner)) store with
    | mk result store' =>
      rw [hexec] at hkeeps
      cases result with
      | error e =>
        rw [Act.exec_bind_error hexec]
        exact .of_published hsize hkeeps
      | ok _ =>
        have hmemtable : store'.component.memtable = store.component.memtable :=
          congrArg Prod.fst hkeeps
        have hcounter : store'.component.memtableSize = store.component.memtableSize :=
          congrArg (fun published => published.2.1) hkeeps
        have hnormal : ∀ command ∈ numbered store.component.sequenceNumber requests.flatten,
            command.Normal := by
          intro command hmem
          obtain ⟨-, -, operation, -, heq⟩ := lsn_numbered hmem
          rw [heq]
          exact toCommand_normal operation _
        obtain ⟨hentries, hbytes⟩ := foldl_appendToMemtable store'.component hnormal
          (hcounter ▸ hsize)
        refine ⟨requests.flatten, ?_⟩
        rw [Act.exec_bind_ok hexec, Store.exec_modifyComponent, Store.published]
        dsimp only
        rw [hflatten, hlast, hentries, hbytes, hmemtable, hcounter]

theorem wrote_writeBatch (store : Store) (operations : List BatchOperation)
    (hsize : store.component.memtableSize < u64Limit) :
    store.Wrote (Act.exec (Store.writeBatch operations) store).2 := by
  rw [Store.writeBatch]
  split
  · exact .of_published hsize rfl
  · cases validateBatch operations with
    | error e =>
      rw [Act.exec_bind_error (Act.exec_ofExcept _ _)]
      exact .of_published hsize rfl
    | ok size =>
      rw [Act.exec_bind_ok (Act.exec_ofExcept _ _)]
      exact wrote_runGroup store [operations] hsize

/-- What `apply_replicated_command` inserts. -/
def LogCommand.normalized (command : LogCommand) : LogCommand :=
  { command with value := if command.recordType = .delete then [] else command.value }

theorem LogCommand.normalized_normal (command : LogCommand) : command.normalized.Normal :=
  fun h => if_pos h

theorem published_applyReplicatedCommand (store : Store) (command : LogCommand) :
    (Act.exec (Store.applyReplicatedCommand command) store).2.published =
      (store.component.memtable.appendCommand command.normalized,
        (store.component.memtableSize + command.normalized.bytes) % u64Limit,
        max store.component.sequenceNumber command.lsn) := by
  rw [← appendToMemtable_size store.component command.normalized_normal]
  rfl

/-- The bytes that a flush removes are those of its own entries. -/
theorem removeFlushed_self (component : WriteComponent) :
    (Store.removeFlushed component component.memtable).memtable = ∅ ∧
      (Store.removeFlushed component component.memtable).memtableSize =
        (component.memtableSize + u64Limit - component.memtable.bytes) % u64Limit := by
  constructor
  · apply OrdMap.ext
    intro entry
    rw [Store.removeFlushed]
    dsimp only
    rw [OrdMap.get?_foldl_erase, OrdMap.get?_empty]
    split
    · rfl
    · rename_i hlisted
      cases hget : component.memtable[entry]? with
      | none => rfl
      | some record =>
        exact absurd (List.mem_map.mpr ⟨(entry, record),
          (OrdMap.mem_toList_iff _ _ _).mpr hget, rfl⟩) hlisted
  · rw [Store.removeFlushed]
    refine congrArg (fun removed => (component.memtableSize + u64Limit - removed) % u64Limit)
      (congrArg List.sum (List.map_congr_left fun entry hentry => ?_))
    rw [(OrdMap.mem_toList_iff _ _ _).mp hentry]
    rfl

/-- A flush that fails leaves the memtable alone, and one that returns empties it. -/
theorem published_flushActiveMemtable (fastbloom : FastBloom) (config : StorageConfig)
    (store : Store) :
    let store' := (Act.exec (Store.flushActiveMemtable fastbloom config) store).2
    store'.published = store.published ∨
      store'.published = (∅, (store.component.memtableSize + u64Limit -
        store.component.memtable.bytes) % u64Limit, store.component.sequenceNumber) := by
  rw [Store.flushActiveMemtable, Act.exec_bind_ok (Act.exec_get store)]
  dsimp only
  have hkeeps := Store.keeps_flushInner fastbloom config store.component.memtable
    (some store.component.sequenceNumber) store
  cases hexec : Act.exec (Store.flushInner fastbloom config store.component.memtable
      (some store.component.sequenceNumber)) store with
  | mk result store' =>
    rw [hexec] at hkeeps
    cases result with
    | error e =>
      rw [Act.exec_bind_error hexec]
      exact .inl hkeeps
    | ok count =>
      right
      have hmemtable : store'.component.memtable = store.component.memtable :=
        congrArg Prod.fst hkeeps
      have hcounter : store'.component.memtableSize = store.component.memtableSize :=
        congrArg (fun published => published.2.1) hkeeps
      have hsequence : store'.component.sequenceNumber = store.component.sequenceNumber :=
        congrArg (fun published => published.2.2) hkeeps
      obtain ⟨hentries, hbytes⟩ := removeFlushed_self store'.component
      rw [Act.exec_bind_ok hexec, ← hmemtable, ← hcounter, ← hsequence,
        Act.exec_bind_ok (Store.exec_modifyComponent _ _), Act.exec_pure, Store.published]
      dsimp only
      rw [hentries, hbytes]
      rfl

/-! ### Recovery -/

/-- The command of a recovered record, which is skipped when its type is unknown. -/
def WALRecord.command? (record : WALRecord) : Option LogCommand :=
  if record.recordType = 1 then some ⟨.put, record.key, record.value, record.lsn⟩
  else if record.recordType = 2 then some ⟨.delete, record.key, [], record.lsn⟩
  else none

theorem recoverRecord_eq (recovered : Kv2.Recovered) (record : WALRecord) :
    Kv2.recoverRecord recovered record = match record.command? with
      | some command =>
        { memtable := recovered.memtable.appendCommand command
          maxLsn := max recovered.maxLsn command.lsn
          totalSize := recovered.totalSize + command.bytes }
      | none => recovered := by
  rw [Kv2.recoverRecord, WALRecord.command?]
  split
  · rfl
  · split <;> rfl

/-- The rebuilt memtable holds the commands of the records, and its size counts all of them. -/
theorem foldl_recoverRecord (recovered : Kv2.Recovered) (records : List WALRecord)
    (hahead : recovered.memtable.Ahead recovered.maxLsn) :
    let commands := records.filterMap WALRecord.command?
    let rebuilt := records.foldl Kv2.recoverRecord recovered
    rebuilt.memtable = commands.foldl Memtable.appendCommand recovered.memtable ∧
      rebuilt.totalSize = recovered.totalSize + commandBytes commands ∧
      rebuilt.memtable.Ahead rebuilt.maxLsn := by
  induction records generalizing recovered with
  | nil => exact ⟨rfl, rfl, hahead⟩
  | cons record records ih =>
    cases hcommand : record.command? with
    | none =>
      rw [List.filterMap_cons_none hcommand, List.foldl_cons, recoverRecord_eq, hcommand]
      exact ih recovered hahead
    | some command =>
      simp only [List.filterMap_cons_some hcommand, List.foldl_cons, commandBytes_cons,
        recoverRecord_eq, hcommand, ← Nat.add_assoc]
      exact ih _ ((hahead.mono (le_max_left _ _)).appendCommand command (le_max_right _ _))

/-! ### Runs -/

/-- The calls that change the memtable. A plan says how the I/O calls of a call end. -/
inductive MemtableEvent where
  | writeBatch (operations : List BatchOperation) (plan : List Answer)
  | applyReplicatedCommand (command : LogCommand)
  | flushActiveMemtable (plan : List Answer)
  /-- The engine is opened again, with the records its log held and the sequence number of its
  checkpoint. -/
  | recover (records : List WALRecord) (committedSequence : Nat)

/-- The bytes of the entries that a call replaces. -/
def MemtableEvent.replacedBytes (memtable : Memtable) : MemtableEvent → Nat
  | .writeBatch _ _ | .flushActiveMemtable _ => 0
  | .applyReplicatedCommand command => memtable.replacedBytes [command.normalized]
  | .recover records _ => Memtable.replacedBytes ∅ (records.filterMap WALRecord.command?)

namespace Store

/-- The component that `KV2::open` makes of the recovered records. -/
def recover (store : Store) (records : List WALRecord) (committedSequence : Nat) : WriteComponent :=
  let recovered := Kv2.buildRecoveredMemtable records
  (WriteComponent.new store.component.wal store.component.manifest
    (max recovered.maxLsn committedSequence)).restoreMemtable recovered

/-- The store after a call, whether it succeeded or not. -/
def memtableStep (fastbloom : FastBloom) (config : StorageConfig) (store : Store) :
    MemtableEvent → Store
  | .writeBatch operations plan =>
    (Act.exec (writeBatch operations) { store with dir := { store.dir with plan } }).2
  | .applyReplicatedCommand command => (Act.exec (applyReplicatedCommand command) store).2
  | .flushActiveMemtable plan => (Act.exec (flushActiveMemtable fastbloom config)
      { store with dir := { store.dir with plan } }).2
  | .recover records committedSequence =>
    { store with component := store.recover records committedSequence }

/-- The store after a list of calls. -/
def memtableRun (fastbloom : FastBloom) (config : StorageConfig) (store : Store)
    (events : List MemtableEvent) : Store :=
  events.foldl (memtableStep fastbloom config) store

/-- The counter is the size of the memtable. -/
def SizeExact (store : Store) : Prop :=
  store.component.memtableSize = store.component.memtable.bytes

end Store

variable (fastbloom : FastBloom) (config : StorageConfig)

/-- An exact counter that grows by the bytes of new commands stays exact if and only if they replace
no bytes. -/
theorem exact_iff_of_added {size replaced : Nat} {memtable memtable' : Memtable}
    {commands : List LogCommand} (hexact : size = memtable.bytes)
    (hbytes : memtable'.bytes + replaced = memtable.bytes + commandBytes commands)
    (hreplaced : replaced < u64Limit) (hfits : memtable'.bytes < u64Limit) :
    (size + commandBytes commands) % u64Limit = memtable'.bytes ↔ replaced = 0 := by
  rw [hexact, ← hbytes]
  constructor
  · intro h
    by_cases hlt : memtable'.bytes + replaced < u64Limit
    · rw [Nat.mod_eq_of_lt hlt] at h
      omega
    · rw [Nat.mod_eq_sub_mod (by omega), Nat.mod_eq_of_lt (by omega)] at h
      omega
  · intro h
    rw [h, Nat.add_zero, Nat.mod_eq_of_lt hfits]

/-- One call keeps the sequence number ahead of the memtable, and it keeps an exact counter exact if
and only if it replaces no bytes. -/
theorem memtableStep_exact {store : Store} {event : MemtableEvent}
    (hahead : store.component.memtable.Ahead store.component.sequenceNumber)
    (hexact : store.SizeExact) (hfits : store.component.memtable.bytes < u64Limit)
    (hfits' : (store.memtableStep fastbloom config event).component.memtable.bytes < u64Limit) :
    (store.memtableStep fastbloom config event).component.memtable.Ahead
        (store.memtableStep fastbloom config event).component.sequenceNumber ∧
      ((store.memtableStep fastbloom config event).SizeExact ↔
        event.replacedBytes store.component.memtable = 0) := by
  have hsize : store.component.memtableSize < u64Limit := hexact ▸ hfits
  rw [Store.SizeExact] at hexact ⊢
  cases event with
  | writeBatch operations plan =>
    obtain ⟨written, hwritten⟩ := wrote_writeBatch
      { store with dir := { store.dir with plan } } operations hsize
    simp only [Store.published, Prod.mk.injEq] at hwritten
    obtain ⟨hmemtable, hcounter, hsequence⟩ := hwritten
    rw [Store.memtableStep, hmemtable] at hfits'
    rw [Store.memtableStep, hmemtable, hcounter, hsequence]
    have hnothing := hahead.replacedBytes (lsnSorted_numbered _ written)
      fun command hmem => (lsn_numbered hmem).1
    have hbytes := Memtable.bytes_foldl_appendCommand store.component.memtable
      (numbered store.component.sequenceNumber written)
    rw [hnothing] at hbytes
    exact ⟨(hahead.mono (Nat.le_add_right _ _)).foldl_appendCommand
      fun command hmem => (lsn_numbered hmem).2.1,
      exact_iff_of_added hexact hbytes (show 0 < u64Limit by decide) hfits'⟩
  | applyReplicatedCommand command =>
    have happlied := published_applyReplicatedCommand store command
    simp only [Store.published, Prod.mk.injEq] at happlied
    obtain ⟨hmemtable, hcounter, hsequence⟩ := happlied
    rw [Store.memtableStep, hmemtable] at hfits'
    rw [Store.memtableStep, hmemtable, hcounter, hsequence]
    have hbytes := Memtable.bytes_foldl_appendCommand store.component.memtable
      [command.normalized]
    -- one entry at most is replaced, and it was in the memtable
    have hreplaced : store.component.memtable.replacedBytes [command.normalized] < u64Limit :=
      (OrdMap.term_le_sum entryBytes store.component.memtable _).trans_lt hfits
    exact ⟨(hahead.mono (le_max_left _ _)).appendCommand _ (le_max_right _ _),
      exact_iff_of_added hexact hbytes hreplaced hfits'⟩
  | flushActiveMemtable plan =>
    have hflushed := published_flushActiveMemtable fastbloom config
      { store with dir := { store.dir with plan } }
    simp only [Store.published, Prod.mk.injEq] at hflushed
    rw [Store.memtableStep]
    obtain ⟨hmemtable, hcounter, hsequence⟩ | ⟨hmemtable, hcounter, hsequence⟩ := hflushed
    · rw [hmemtable, hcounter, hsequence]
      exact ⟨hahead, iff_of_true hexact rfl⟩
    · rw [hmemtable, hcounter, hsequence, hexact, Nat.add_sub_cancel_left]
      exact ⟨Memtable.ahead_empty _, iff_of_true rfl rfl⟩
  | recover records committedSequence =>
    obtain ⟨hmemtable, htotal, hahead'⟩ := foldl_recoverRecord
      { memtable := ∅, maxLsn := 0, totalSize := 0 } records (Memtable.ahead_empty 0)
    have hbytes := Memtable.bytes_foldl_appendCommand ∅ (records.filterMap WALRecord.command?)
    refine ⟨hahead'.mono (le_max_left _ committedSequence), ?_⟩
    show (Kv2.buildRecoveredMemtable records).totalSize =
      (Kv2.buildRecoveredMemtable records).memtable.bytes ↔ _
    rw [Kv2.buildRecoveredMemtable, htotal, hmemtable, MemtableEvent.replacedBytes]
    dsimp only
    have hempty : Memtable.bytes ∅ = 0 := rfl
    omega

/-- A run from an exact state, call by call. -/
theorem memtableRun_exact {store : Store} {events : List MemtableEvent}
    (hahead : store.component.memtable.Ahead store.component.sequenceNumber)
    (hexact : store.SizeExact)
    (hfits : ∀ before, before <+: events →
      (store.memtableRun fastbloom config before).component.memtable.bytes < u64Limit) :
    (∀ before, before <+: events → (store.memtableRun fastbloom config before).SizeExact) ↔
      ∀ before event, before ++ [event] <+: events →
        event.replacedBytes (store.memtableRun fastbloom config before).component.memtable = 0 := by
  induction events generalizing store with
  | nil =>
    refine iff_of_true ?_ ?_
    · intro before hbefore
      rw [List.prefix_nil.mp hbefore]
      exact hexact
    · intro before event hbefore
      have hnil := List.prefix_nil.mp hbefore
      simp at hnil
  | cons event events ih =>
    have hstart := hfits [] List.nil_prefix
    have hnext := hfits [event] (List.prefix_append [event] events)
    obtain ⟨hahead', hiff⟩ := memtableStep_exact fastbloom config hahead hexact hstart hnext
    have hrest (hexact' : (store.memtableStep fastbloom config event).SizeExact) :=
      ih hahead' hexact' fun before hbefore =>
        hfits (event :: before) (List.cons_prefix_cons.mpr ⟨rfl, hbefore⟩)
    constructor
    · intro hall before other hbefore
      have hexact' := hall [event] (List.prefix_append [event] events)
      cases before with
      | nil =>
        obtain rfl := (List.cons_prefix_cons.mp hbefore).1
        exact hiff.mp hexact'
      | cons first before =>
        obtain ⟨rfl, hshorter⟩ := List.cons_prefix_cons.mp hbefore
        refine (hrest hexact').mp (fun middle hmiddle => ?_) before other hshorter
        exact hall (first :: middle) (List.cons_prefix_cons.mpr ⟨rfl, hmiddle⟩)
    · intro hnone before hbefore
      have hexact' := hiff.mpr (hnone [] event (List.prefix_append [event] events))
      cases before with
      | nil => exact hexact
      | cons first before =>
        obtain ⟨rfl, hshorter⟩ := List.cons_prefix_cons.mp hbefore
        refine (hrest hexact').mpr (fun middle other hmiddle => ?_) before hshorter
        exact hnone (first :: middle) other (List.cons_prefix_cons.mpr ⟨rfl, hmiddle⟩)

/-- The counter is the size of the memtable after every call on a new component, if and only if no
call replaces bytes of an entry. The entries in memory are smaller than the address space. -/
theorem size_exact_iff (dir : StoreDir) (wal : WALManager) (manifest : ManifestState)
    (sequenceNumber : Nat) (events : List MemtableEvent)
    (hfits : ∀ before, before <+: events →
      (Store.memtableRun fastbloom config ⟨dir, .new wal manifest sequenceNumber⟩
        before).component.memtable.bytes < u64Limit) :
    (∀ before, before <+: events →
      (Store.memtableRun fastbloom config ⟨dir, .new wal manifest sequenceNumber⟩
        before).SizeExact) ↔
      ∀ before event, before ++ [event] <+: events →
        event.replacedBytes (Store.memtableRun fastbloom config
          ⟨dir, .new wal manifest sequenceNumber⟩ before).component.memtable = 0 :=
  memtableRun_exact fastbloom config (Memtable.ahead_empty _) rfl hfits

/-- A command that puts one byte under one key. -/
def repeatedPut : LogCommand := { recordType := .put, key := [97], value := [118], lsn := 1 }

/-- A new component on a directory with one segment. -/
def newComponentStore : Store where
  dir := { segments := (∅ : Disk Nat).insert 0 ⟨_, 32, WALHeader.durable_encode⟩
           manifest := [], tables := ∅, plan := [] }
  component := .new (LogLayout.initial.manager 1048576 none false) .default 0

/-- A replicated command that is applied twice is counted twice. The flush subtracts the one entry
there is, and an empty memtable is left with a counter of two. -/
theorem repeated_command_counted_twice :
    let twice := newComponentStore.memtableRun .acceptAll .default
      [.applyReplicatedCommand repeatedPut, .applyReplicatedCommand repeatedPut]
    let flushed := twice.memtableStep .acceptAll .default (.flushActiveMemtable [])
    twice.component.memtableSize = 4 ∧ twice.component.memtable.bytes = 2 ∧
      flushed.component.memtable.toList = [] ∧ flushed.component.memtableSize = 2 := by
  decide +kernel

/-- A batch, a command, a flush and a recovery that replace nothing. -/
def distinctWrites : List MemtableEvent :=
  [.writeBatch [.put [97] [118], .delete [97]] [],
    .applyReplicatedCommand { repeatedPut with lsn := 9 },
    .flushActiveMemtable [],
    .recover [⟨1, 10, [98], [119], 0⟩, ⟨2, 11, [98], [], 0⟩] 9]

theorem size_exact_distinctWrites :
    distinctWrites.length = 4 ∧ ∀ before, before <+: distinctWrites →
      (newComponentStore.memtableRun .acceptAll .default before).SizeExact := by
  refine ⟨rfl, (size_exact_iff .acceptAll .default newComponentStore.dir
    (LogLayout.initial.manager 1048576 none false) .default 0 distinctWrites ?_).mpr ?_⟩
  · have hfits : ∀ before ∈ distinctWrites.inits,
        (newComponentStore.memtableRun .acceptAll .default before).component.memtable.bytes <
          u64Limit := by decide +kernel
    exact fun before hbefore => hfits before ((List.mem_inits _ _).mpr hbefore)
  · have hnone : ∀ whole ∈ distinctWrites.inits, ∀ event ∈ whole.getLast?,
        event.replacedBytes (newComponentStore.memtableRun .acceptAll .default
          whole.dropLast).component.memtable = 0 := by decide +kernel
    intro before event hbefore
    have hlast := hnone (before ++ [event]) ((List.mem_inits _ _).mpr hbefore) event (by simp)
    rwa [List.dropLast_concat] at hlast

end CereDB.Storage

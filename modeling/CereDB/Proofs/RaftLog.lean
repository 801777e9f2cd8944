import CereDB.Storage.RaftLog

/-!
# `CereDB.Proofs.RaftLog`: the contract of the Raft log store

`SpecLog` is the log that `openraft` expects behind the calls of a log store. The store addresses
entries by their position in a vector, and positions are indexes only as long as nothing was ever
purged. `log_store_contract_iff` says when the store answers as that log does: exactly when no call
purges, no truncation meets a stored entry and no index overflows.
-/

set_option autoImplicit false

namespace CereDB.Storage

open CereDB.Lib

/-! ### The log behind the calls -/

/-- The log that `openraft` expects a store to hold. -/
structure SpecLog where
  entries : List Entry
  lastPurged : Option LogId
deriving DecidableEq, Repr

/-- The calls that change a log, and reopens of the store. -/
inductive LogCall where
  | append (entries : List Entry)
  | truncate (logId : LogId)
  | purge (logId : LogId)
  | reopen
deriving DecidableEq, Repr

namespace SpecLog

/-- No entry. -/
def empty : SpecLog := ⟨[], none⟩

/-- What each call should do. -/
def step (log : SpecLog) : LogCall → SpecLog
  | .append entries => { log with entries := log.entries ++ entries }
  | .truncate logId =>
    { log with entries := log.entries.filter fun entry => entry.logId.index < logId.index }
  | .purge logId =>
    { entries := log.entries.filter fun entry => logId.index < entry.logId.index
      lastPurged := some logId }
  | .reopen => log

/-- The last stored entry, or the last purged one when none is stored. -/
def state (log : SpecLog) : LogState where
  lastPurgedLogId := log.lastPurged
  lastLogId := (log.entries.getLast?.map Entry.logId).or log.lastPurged

/-- The entries with an index in a range. -/
def inRange (log : SpecLog) (range : Bound Nat × Bound Nat) : List Entry :=
  log.entries.filter fun entry => ReadManager.withinBounds range entry.logId.index

/-- The index of the next entry. -/
def nextIndex (log : SpecLog) : Nat :=
  match log.state.lastLogId with
  | some logId => logId.index + 1
  | none => 0

end SpecLog

/-- Entries with consecutive indexes. -/
def Consecutive : Nat → List Entry → Prop
  | _, [] => True
  | index, entry :: entries => entry.logId.index = index ∧ Consecutive (index + 1) entries

/-- The entries of every append follow the last stored or purged one. -/
def LegalCalls : SpecLog → List LogCall → Prop
  | _, [] => True
  | log, .append entries :: calls =>
    Consecutive log.nextIndex entries ∧ LegalCalls (log.step (.append entries)) calls
  | log, call :: calls => LegalCalls (log.step call) calls

/-- The calls a store that addresses entries by position can serve, when it holds so many entries:
no purge, and no truncation of a stored entry. -/
def PlainCalls : Nat → List LogCall → Prop
  | _, [] => True
  | length, .append entries :: calls => PlainCalls (length + entries.length) calls
  | length, .truncate logId :: calls =>
    length ≤ logId.index ∧ logId.index + 1 < u64Limit ∧ PlainCalls length calls
  | _, .purge _ :: _ => False
  | length, .reopen :: calls => PlainCalls length calls

/-- A range whose ends can be moved by one. -/
def RangeFits (range : Bound Nat × Bound Nat) : Prop :=
  (∀ i, range.1 = .excluded i → i + 1 < u64Limit) ∧ ∀ i, range.2 = .included i → i + 1 < u64Limit

/-- The event of a call, with no failure of the file system. -/
def LogCall.event : LogCall → RaftEvent
  | .append entries => .append entries []
  | .truncate logId => .truncate logId []
  | .purge logId => .purge logId []
  | .reopen => .open

/-- The node has a store open that answers as the log does, and every call so far returned `Ok`. -/
def RaftNode.Implements (node : RaftNode) (log : SpecLog) (range : Bound Nat × Bound Nat) : Prop :=
  (∀ entry ∈ node.logs, entry.2 = true) ∧ ∃ store, node.store = some store ∧
    store.tryGetLogEntries range = .ok (log.inRange range) ∧
    store.getLogReader.tryGetLogEntries range = .ok (log.inRange range) ∧
    store.getLogState = log.state

/-- After each of the calls the store answers as the log does. -/
def RaftNode.Serves (codec : Bincode) (range : Bound Nat × Bound Nat) (node : RaftNode)
    (log : SpecLog) (calls : List LogCall) : Prop :=
  ∀ n, (((calls.take n).map LogCall.event).foldl (RaftNode.step codec) node).Implements
    ((calls.take n).foldl SpecLog.step log) range

/-! ### Entries by position -/

theorem Consecutive.append {index : Nat} {entries more : List Entry}
    (h : Consecutive index entries) (hmore : Consecutive (index + entries.length) more) :
    Consecutive index (entries ++ more) := by
  induction entries generalizing index with
  | nil => exact hmore
  | cons entry entries ih =>
    refine ⟨h.1, ih h.2 ?_⟩
    rw [List.length_cons] at hmore
    rw [show index + 1 + entries.length = index + (entries.length + 1) by omega]
    exact hmore

theorem Consecutive.take {index : Nat} {entries : List Entry} (h : Consecutive index entries)
    (n : Nat) : Consecutive index (entries.take n) := by
  induction entries generalizing index n with
  | nil => rw [List.take_nil]; trivial
  | cons entry entries ih =>
    cases n with
    | zero => trivial
    | succ n => exact ⟨h.1, ih h.2 n⟩

theorem Consecutive.bounds {index : Nat} {entries : List Entry} (h : Consecutive index entries) :
    ∀ entry ∈ entries, index ≤ entry.logId.index ∧ entry.logId.index < index + entries.length := by
  induction entries generalizing index with
  | nil => simp
  | cons entry entries ih =>
    intro e he
    rw [List.length_cons]
    cases List.mem_cons.mp he with
    | inl hhead =>
      have hindex : e.logId.index = index := by rw [hhead]; exact h.1
      omega
    | inr htail =>
      have hbounds := ih h.2 e htail
      omega

/-- The entries with an index in a range, by position. -/
theorem Consecutive.filter_range {index : Nat} {entries : List Entry}
    (h : Consecutive index entries) (start stop : Nat) :
    (entries.filter fun entry => start ≤ entry.logId.index ∧ entry.logId.index < stop)
      = (entries.take (stop - index)).drop (start - index) := by
  induction entries generalizing index with
  | nil => simp
  | cons entry entries ih =>
    have hindex : entry.logId.index = index := h.1
    by_cases hstop : index < stop
    · have htake : stop - index = (stop - (index + 1)) + 1 := by omega
      rw [htake, List.take_succ_cons]
      by_cases hstart : start ≤ index
      · have hzero : start - index = 0 := by omega
        have hzero' : start - (index + 1) = 0 := by omega
        rw [List.filter_cons_of_pos (by simp [hindex, hstart, hstop]), ih h.2, hzero, hzero']
        rfl
      · have hdrop : start - index = (start - (index + 1)) + 1 := by omega
        rw [List.filter_cons_of_neg (by simp [hindex, hstart]), ih h.2, hdrop]
        rfl
    · have hnone : stop - index = 0 := by omega
      have hnone' : stop - (index + 1) = 0 := by omega
      rw [List.filter_cons_of_neg (by simp [hindex, hstop]), ih h.2, hnone, hnone']
      simp

theorem Consecutive.index_concat {index : Nat} {front : List Entry} {entry : Entry}
    (h : Consecutive index (front ++ [entry])) : entry.logId.index = index + front.length := by
  induction front generalizing index with
  | nil => exact h.1
  | cons e front ih =>
    rw [ih h.2, List.length_cons]
    omega

/-- The last entry of consecutive ones. -/
theorem Consecutive.last {entries : List Entry} {entry : Entry} (h : Consecutive 0 entries)
    (hlast : entries.getLast? = some entry) : entry.logId.index + 1 = entries.length := by
  obtain ⟨front, rfl⟩ := List.getLast?_eq_some_iff.mp hlast
  rw [h.index_concat, List.length_append, List.length_singleton]
  omega

theorem Consecutive.nextIndex {entries : List Entry} (h : Consecutive 0 entries) :
    SpecLog.nextIndex ⟨entries, none⟩ = entries.length := by
  unfold SpecLog.nextIndex SpecLog.state
  cases hlast : entries.getLast? with
  | none =>
    rw [List.getLast?_eq_none_iff] at hlast
    simp [hlast]
  | some entry => simpa using h.last hlast

/-- Reading by position finds the entries by index. -/
theorem entriesInRange_eq {entries : List Entry} (h : Consecutive 0 entries)
    {range : Bound Nat × Bound Nat} (hfits : RangeFits range) :
    LogStore.entriesInRange entries range = .ok (SpecLog.inRange ⟨entries, none⟩ range) := by
  obtain ⟨start, hstart, hlow⟩ : ∃ start, LogStore.rangeStart range.1 = .ok start ∧
      ∀ i, ReadManager.withinBounds (range.1, .unbounded) i = decide (start ≤ i) := by
    cases hrange : range.1 with
    | included i => exact ⟨i, rfl, fun j => by simp [ReadManager.withinBounds]⟩
    | excluded i =>
      refine ⟨i + 1, addIndex_of_lt (hfits.1 i hrange), fun j => ?_⟩
      simp [ReadManager.withinBounds]
    | unbounded => exact ⟨0, rfl, fun j => by simp [ReadManager.withinBounds]⟩
  obtain ⟨stop, hstop, hhigh⟩ : ∃ stop, LogStore.rangeEnd entries.length range.2 = .ok stop ∧
      ∀ i, i < entries.length →
        ReadManager.withinBounds (.unbounded, range.2) i = decide (i < stop) := by
    cases hrange : range.2 with
    | included i =>
      refine ⟨i + 1, addIndex_of_lt (hfits.2 i hrange), fun j _ => ?_⟩
      simp [ReadManager.withinBounds]
    | excluded i => exact ⟨i, rfl, fun j _ => by simp [ReadManager.withinBounds]⟩
    | unbounded => exact ⟨entries.length, rfl, fun j hj => by simp [ReadManager.withinBounds, hj]⟩
  have hsides (i : Nat) : ReadManager.withinBounds range i
      = (ReadManager.withinBounds (range.1, .unbounded) i &&
        ReadManager.withinBounds (.unbounded, range.2) i) := by
    simp [ReadManager.withinBounds]
  have hfilter : SpecLog.inRange ⟨entries, none⟩ range = (entries.take stop).drop start := by
    have hposition := h.filter_range start stop
    rw [Nat.sub_zero, Nat.sub_zero] at hposition
    rw [← hposition]
    apply List.filter_congr
    intro entry hentry
    have hbound := (h.bounds entry hentry).2
    rw [hsides, hlow, hhigh _ (by omega), Bool.decide_and]
  rw [LogStore.entriesInRange, hstart, hstop, hfilter]
  show (if entries.length ≤ start ∨ stop ≤ start then pure []
    else pure ((entries.take (min stop entries.length)).drop start)) = _
  split
  · have hnone : (entries.take stop).drop start = [] := by
      rw [List.drop_eq_nil_iff, List.length_take]
      omega
    rw [hnone]
    rfl
  · rw [← List.take_eq_take_min]
    rfl

/-- Only a range that fits is read. -/
theorem RangeFits.of_ok {entries found : List Entry} {range : Bound Nat × Bound Nat}
    (h : LogStore.entriesInRange entries range = .ok found) : RangeFits range := by
  constructor
  · intro i hrange
    by_contra hover
    rw [LogStore.entriesInRange, hrange, LogStore.rangeStart, addIndex_of_le (by omega)] at h
    cases h
  · intro i hrange
    by_contra hover
    rw [LogStore.entriesInRange, hrange, LogStore.rangeEnd, addIndex_of_le (by omega)] at h
    cases hstart : LogStore.rangeStart range.1 with
    | ok start => rw [hstart] at h; cases h
    | error halt => rw [hstart] at h; cases h

/-! ### Calls on a plain log -/

/-- The store holds the log, nothing was purged, and the file has what is in memory. -/
structure RaftNode.Plain (codec : Bincode) (node : RaftNode) (log : SpecLog) : Prop where
  store : node.store = some ⟨log.entries, none⟩
  purged : log.lastPurged = none
  consecutive : Consecutive 0 log.entries
  file : loadFile node.dir.io.disk entriesPath "log" codec.readEntries = .ok (some log.entries) ∨
    loadFile node.dir.io.disk entriesPath "log" codec.readEntries = .ok none ∧ log.entries = []
  vote : node.dir.io.disk[votePath]? = none
  logs : ∀ entry ∈ node.logs, entry.2 = true

section
variable {codec : Bincode} {node : RaftNode} {log : SpecLog} {range : Bound Nat × Bound Nat}

/-- A file with the contents of an encoder is read back. -/
theorem loadFile_of_bytes {α : Type} {disk : Disk String} {path label : String}
    {read : Bytes → Except String α} {bs : Bytes} {a : α}
    (hfile : disk[path]?.map DurableFile.bytes = some bs) (hbs : bs ≠ []) (hread : read bs = .ok a) :
    loadFile disk path label read = .ok (some a) := by
  obtain ⟨file, hget, rfl⟩ := Option.map_eq_some_iff.mp hfile
  rw [loadFile, hget]
  dsimp only
  rw [if_neg hbs, hread]

/-- A plain log answers as it should, on a range that fits. -/
theorem RaftNode.Plain.implements_iff (h : node.Plain codec log) :
    node.Implements log range ↔ RangeFits range := by
  have hlog : log = ⟨log.entries, none⟩ := by rw [← h.purged]
  constructor
  · rintro ⟨-, store, hstore, hread, -, -⟩
    rw [h.store] at hstore
    cases hstore
    exact RangeFits.of_ok hread
  · intro hfits
    have hread := entriesInRange_eq h.consecutive hfits
    rw [← hlog] at hread
    refine ⟨h.logs, _, h.store, hread, hread, ?_⟩
    rw [LogStore.getLogState, SpecLog.state, h.purged, Option.or_none]

/-- Writing the entries of a plain log. -/
theorem RaftNode.Plain.flush (h : node.Plain codec log) (err : IoErrors RaftHalt)
    (log' : SpecLog) (hpurged : log'.lastPurged = none) (hconsecutive : Consecutive 0 log'.entries) :
    ∃ raft, Act.exec (LogStore.flushEntries codec err)
        ⟨{ node.dir with io := { node.dir.io with plan := [] } }, ⟨log'.entries, none⟩⟩
          = (.ok (), raft) ∧
      (recordLog true raft.store { node with dir := raft.dir, store := some raft.store }).Plain codec
        log' := by
  have hspec := Spec.atomicWrite (C := True) { node.dir with io := { node.dir.io with plan := [] } }
    err entriesPath entriesTemporary (codec.entries log'.entries)
  obtain ⟨_, dir, hexec, -, hreplaced⟩ := hspec.ok_of_calm (fun _ _ hstop => hstop.1 trivial) rfl rfl
  refine ⟨⟨dir, ⟨log'.entries, none⟩⟩, ?_, ?_⟩
  · rw [LogStore.flushEntries, Act.exec_bind_ok (Act.exec_get _), onDir, Act.exec_zoom, hexec]
  · constructor
    case store => rfl
    case purged => exact hpurged
    case consecutive => exact hconsecutive
    case file =>
      exact .inl (loadFile_of_bytes hreplaced.file (codec.entries_ne_nil _)
        (codec.readEntries_entries _))
    case vote =>
      show dir.io.disk[votePath]? = none
      rw [hreplaced.others votePath (by decide) (by decide)]
      exact h.vote
    case logs =>
      intro entry hentry
      cases List.mem_append.mp hentry with
      | inl hold => exact h.logs entry hold
      | inr hnew => rw [List.mem_singleton.mp hnew]

theorem RaftNode.call_of_exec {store : LogStore} (hstore : node.store = some store)
    {plan : List Answer} {x : RaftOp RaftDir Unit} {outcome : Except RaftHalt Unit} {raft : RaftDir}
    (hexec : Act.exec x ⟨{ node.dir with io := { node.dir.io with plan } }, store⟩ = (outcome, raft))
    (record : Bool → LogStore → RaftNode → RaftNode) :
    node.call plan x record = record outcome.isOk raft.store
      { node with dir := raft.dir, store := after outcome raft.store } := by
  simp only [call, hstore, hexec]

/-- An append that follows the log. -/
theorem RaftNode.Plain.append (h : node.Plain codec log) {entries : List Entry}
    (hlegal : Consecutive log.nextIndex entries) :
    (node.step codec (.append entries [])).Plain codec (log.step (.append entries)) := by
  have hlog : log = ⟨log.entries, none⟩ := by rw [← h.purged]
  have hnext : log.nextIndex = log.entries.length := by
    rw [hlog]
    exact h.consecutive.nextIndex
  have hconsecutive : Consecutive 0 (log.entries ++ entries) := by
    refine h.consecutive.append ?_
    rw [Nat.zero_add, ← hnext]
    exact hlegal
  obtain ⟨raft, hexec, hplain⟩ := h.flush (ioError .logs .write) (log.step (.append entries))
    h.purged hconsecutive
  have happend : Act.exec (LogStore.append codec entries)
      ⟨{ node.dir with io := { node.dir.io with plan := [] } }, ⟨log.entries, none⟩⟩
        = (.ok (), raft) := hexec
  rw [step, call_of_exec h.store happend]
  exact hplain

/-- A truncation keeps the entry it is given. -/
theorem RaftNode.Plain.truncate (h : node.Plain codec log) {logId : LogId}
    (hfits : logId.index + 1 < u64Limit) :
    (node.step codec (.truncate logId [])).Plain codec
      ⟨log.entries.take (logId.index + 1), none⟩ := by
  have hmodify : Act.exec (modifyStore fun store => if logId.index + 1 < store.entries.length then
        { store with entries := store.entries.take (logId.index + 1) } else store)
      (⟨{ node.dir with io := { node.dir.io with plan := [] } }, ⟨log.entries, none⟩⟩ : RaftDir)
        = (.ok (), ⟨{ node.dir with io := { node.dir.io with plan := [] } },
          ⟨log.entries.take (logId.index + 1), none⟩⟩) := by
    by_cases hkeep : logId.index + 1 < log.entries.length
    · simp [modifyStore, hkeep]
    · have hall : log.entries.take (logId.index + 1) = log.entries :=
        List.take_of_length_le (by omega)
      simp [modifyStore, hkeep, hall]
  obtain ⟨raft, hexec, hplain⟩ := h.flush (ioError (.logIndex logId.index) .delete)
    ⟨log.entries.take (logId.index + 1), none⟩ rfl (h.consecutive.take _)
  have htruncate : Act.exec (LogStore.truncate codec logId)
      ⟨{ node.dir with io := { node.dir.io with plan := [] } }, ⟨log.entries, none⟩⟩
        = (.ok (), raft) := by
    rw [LogStore.truncate, addIndex_of_lt hfits, Act.exec_bind_ok (Act.exec_ofExcept _ _),
      Act.exec_bind_ok hmodify]
    exact hexec
  rw [step, call_of_exec h.store htruncate]
  exact hplain

/-- A truncation behind the last entry changes nothing, as it should. -/
theorem RaftNode.Plain.truncate_beyond (h : node.Plain codec log) {logId : LogId}
    (hbeyond : log.entries.length ≤ logId.index) (hfits : logId.index + 1 < u64Limit) :
    (node.step codec (.truncate logId [])).Plain codec (log.step (.truncate logId)) := by
  have hall : (log.entries.filter fun entry => entry.logId.index < logId.index)
      = log.entries.take (logId.index + 1) := by
    rw [List.take_of_length_le (by omega), List.filter_eq_self]
    intro entry hentry
    have hbound := (h.consecutive.bounds entry hentry).2
    exact decide_eq_true (by omega)
  rw [SpecLog.step, hall, h.purged]
  exact h.truncate hfits

/-- A reopen of the store. -/
theorem RaftNode.Plain.reopen (h : node.Plain codec log) :
    (node.step codec .open).Plain codec (log.step .reopen) := by
  have hvote : loadFile node.dir.io.disk votePath "vote" codec.readVote = .ok none := by
    rw [loadFile, h.vote]
  have hopen : LogStore.open codec node.dir.io.disk = .ok ⟨log.entries, none⟩ := by
    rw [LogStore.open, hvote]
    cases h.file with
    | inl hfile => rw [hfile]; rfl
    | inr hempty => rw [hempty.1, hempty.2]; rfl
  refine ⟨?_, h.purged, h.consecutive, h.file, h.vote, h.logs⟩
  simp only [step, hopen]
  rfl

/-! ### Calls the store does not serve -/

/-- A purge is not reported. -/
theorem RaftNode.not_implements_purge (log : SpecLog) (logId : LogId) :
    ¬node.Implements (log.step (.purge logId)) range := by
  rintro ⟨-, store, -, -, -, hstate⟩
  cases congrArg LogState.lastPurgedLogId hstate

/-- A truncation of a stored entry leaves that entry in place, and one at the largest index
panics. -/
theorem RaftNode.Plain.not_implements_truncate (h : node.Plain codec log) {logId : LogId}
    (hplain : ¬(log.entries.length ≤ logId.index ∧ logId.index + 1 < u64Limit)) :
    ¬(node.step codec (.truncate logId [])).Implements (log.step (.truncate logId)) range := by
  rintro ⟨hlogs, store, hstore, -, -, hstate⟩
  by_cases hfits : logId.index + 1 < u64Limit
  · -- The last entry of the store has the index of the truncation, that of the log a smaller one.
    have hindex : logId.index < log.entries.length := by omega
    rw [(h.truncate hfits).store] at hstore
    cases hstore
    have hlast := congrArg LogState.lastLogId hstate
    have hmem : ∃ entry, (log.entries.take (logId.index + 1)).getLast? = some entry := by
      cases hget : (log.entries.take (logId.index + 1)).getLast? with
      | some entry => exact ⟨entry, rfl⟩
      | none =>
        rw [List.getLast?_eq_none_iff, List.take_eq_nil_iff] at hget
        cases hget with
        | inl hzero => omega
        | inr hnil => rw [hnil] at hindex; cases hindex
    obtain ⟨entry, hentry⟩ := hmem
    have hposition := (h.consecutive.take (logId.index + 1)).last hentry
    rw [List.length_take] at hposition
    simp only [LogStore.getLogState, SpecLog.state, SpecLog.step, hentry, h.purged, Option.map_some,
      Option.or_none] at hlast
    obtain ⟨kept, hkept, hid⟩ := Option.map_eq_some_iff.mp hlast.symm
    have hsmaller := List.mem_filter.mp (List.mem_of_getLast? hkept)
    rw [hid, decide_eq_true_eq] at hsmaller
    omega
  · rw [step] at hlogs
    have htruncate : Act.exec (LogStore.truncate codec logId)
        ⟨{ node.dir with io := { node.dir.io with plan := [] } }, ⟨log.entries, none⟩⟩
          = (.error (.panic "attempt to add with overflow"),
            ⟨{ node.dir with io := { node.dir.io with plan := [] } }, ⟨log.entries, none⟩⟩) := by
      rw [LogStore.truncate, addIndex_of_le (by omega),
        Act.exec_bind_error (Act.exec_ofExcept _ _)]
    rw [call_of_exec h.store htruncate] at hlogs
    have hfalse := hlogs (log.entries, false) (List.mem_append_right _ List.mem_cons_self)
    cases hfalse

theorem RaftNode.serves_cons {call : LogCall} {calls : List LogCall} :
    node.Serves codec range log (call :: calls) ↔ node.Implements log range ∧
      (node.step codec call.event).Serves codec range (log.step call) calls := by
  constructor
  · exact fun hall => ⟨hall 0, fun n => hall (n + 1)⟩
  · intro hall n
    cases n with
    | zero => exact hall.1
    | succ n => exact hall.2 n

/-- From a plain log on, the store answers as it should after each call exactly when the calls are
plain and the range fits. -/
theorem RaftNode.Plain.serves_iff {calls : List LogCall} (h : node.Plain codec log)
    (hlegal : LegalCalls log calls) :
    node.Serves codec range log calls ↔ PlainCalls log.entries.length calls ∧ RangeFits range := by
  induction calls generalizing node log with
  | nil => simp [Serves, PlainCalls, h.implements_iff]
  | cons call calls ih =>
    have hbad (hnot : ¬(node.step codec call.event).Implements (log.step call) range) :
        ¬(node.step codec call.event).Serves codec range (log.step call) calls :=
      fun hall => hnot (hall 0)
    rw [serves_cons, h.implements_iff]
    cases call with
    | append entries =>
      have hrest := ih (h.append hlegal.1) hlegal.2
      rw [SpecLog.step, List.length_append] at hrest
      show RangeFits range ∧ _ ↔ PlainCalls (log.entries.length + entries.length) calls ∧ _
      exact ⟨fun hall => hrest.mp hall.2, fun hall => ⟨hall.2, hrest.mpr hall⟩⟩
    | truncate logId =>
      show RangeFits range ∧ _ ↔
        (log.entries.length ≤ logId.index ∧ logId.index + 1 < u64Limit ∧ _) ∧ _
      by_cases hplain : log.entries.length ≤ logId.index ∧ logId.index + 1 < u64Limit
      · have hsame : (log.step (.truncate logId)).entries = log.entries := by
          rw [SpecLog.step, List.filter_eq_self]
          intro entry hentry
          have hbound := (h.consecutive.bounds entry hentry).2
          exact decide_eq_true (by omega)
        have hrest := ih (h.truncate_beyond hplain.1 hplain.2) hlegal
        rw [hsame] at hrest
        exact ⟨fun hall => ⟨⟨hplain.1, hplain.2, (hrest.mp hall.2).1⟩, hall.1⟩,
          fun hall => ⟨hall.2, hrest.mpr ⟨hall.1.2.2, hall.2⟩⟩⟩
      · exact ⟨fun hall => (hbad (h.not_implements_truncate hplain) hall.2).elim,
          fun hall => (hplain ⟨hall.1.1, hall.1.2.1⟩).elim⟩
    | purge logId =>
      exact ⟨fun hall => (hbad (not_implements_purge log logId) hall.2).elim,
        fun hall => hall.1.elim⟩
    | reopen =>
      have hrest := ih h.reopen hlegal
      exact ⟨fun hall => hrest.mp hall.2, fun hall => ⟨hall.2, hrest.mpr hall⟩⟩

end

/-- A node that opened an empty directory. -/
def RaftNode.opened (codec : Bincode) : RaftNode := RaftNode.run codec [.open]

theorem RaftNode.opened_plain (codec : Bincode) : (opened codec).Plain codec .empty :=
  ⟨rfl, rfl, trivial, .inr ⟨rfl, rfl⟩, rfl, by simp [opened, run, step, start]⟩

/-- The log store keeps the contract of `openraft` exactly when nothing is purged, no stored entry is
truncated and no index overflows. -/
theorem log_store_contract_iff (codec : Bincode) (calls : List LogCall)
    (hlegal : LegalCalls .empty calls) (range : Bound Nat × Bound Nat) :
    (RaftNode.opened codec).Serves codec range .empty calls ↔
      PlainCalls 0 calls ∧ RangeFits range :=
  (RaftNode.opened_plain codec).serves_iff hlegal

instance encodableUInt8 : Encodable UInt8 :=
  Encodable.ofLeftInverse UInt8.toNat UInt8.ofNat fun _ => UInt8.ofNat_toNat

instance encodableChar : Encodable Char := Encodable.ofLeftInverse Char.toNat Char.ofNat Char.ofNat_toNat

instance encodableString : Encodable String :=
  Encodable.ofLeftInverse String.toList String.ofList fun _ => String.ofList_toList

deriving instance Encodable for LeaderId, Vote, LogId, Membership, EntryPayload, Entry

/-- A codec that writes the number of a value in unary. -/
def unaryCodec : Bincode where
  entries es := List.replicate (Encodable.encode es + 1) 0
  readEntries bs := (Encodable.decode (bs.length - 1)).elim (.error "no list of entries") .ok
  vote v := List.replicate (Encodable.encode v + 1) 0
  readVote bs := (Encodable.decode (bs.length - 1)).elim (.error "no vote") .ok
  readEntries_entries es := by simp
  readVote_vote v := by simp
  entries_ne_nil es := by simp
  vote_ne_nil v := by simp

/-- The entry with an index, in the first term. -/
def blankEntry (index : Nat) : Entry := ⟨⟨⟨1, 1⟩, index⟩, .blank⟩

theorem log_store_contract_iff_plain :
    LegalCalls .empty [.append [blankEntry 0, blankEntry 1], .reopen, .append [blankEntry 2]] ∧
    (RaftNode.opened unaryCodec).Serves unaryCodec (.included 1, .unbounded) .empty
      [.append [blankEntry 0, blankEntry 1], .reopen, .append [blankEntry 2]] := by
  have hlegal : LegalCalls .empty
      [.append [blankEntry 0, blankEntry 1], .reopen, .append [blankEntry 2]] := by
    simp [LegalCalls, Consecutive, SpecLog.nextIndex, SpecLog.state, SpecLog.step, SpecLog.empty,
      blankEntry]
  refine ⟨hlegal, (log_store_contract_iff unaryCodec _ hlegal _).mpr ⟨trivial, ?_, ?_⟩⟩
  · simp
  · simp

/-- A truncation at the last entry leaves it in the log. -/
theorem truncate_keeps_entry :
    ((RaftNode.run unaryCodec [.open, .append [blankEntry 0, blankEntry 1] [],
      .truncate (blankEntry 1).logId []]).store.map LogStore.getLogState)
        = some ⟨none, some (blankEntry 1).logId⟩ ∧
    ((SpecLog.empty.step (.append [blankEntry 0, blankEntry 1])).step
      (.truncate (blankEntry 1).logId)).state = ⟨none, some (blankEntry 0).logId⟩ := by
  decide +kernel

end CereDB.Storage

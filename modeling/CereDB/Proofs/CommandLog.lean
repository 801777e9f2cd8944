import CereDB.Proofs.TableBuild
import CereDB.Proofs.ReadLevels
import CereDB.Storage.Batch

/-!
# `CereDB.Proofs.CommandLog`: the map a list of commands leaves

`commandMap` is the abstract meaning of a log: the ordered map after its commands, in order. Reads
rank versions by sequence number instead. `latest` is the newest command of a key up to a sequence
number, and `get?_commandMap_published` connects the two: in a log of ascending sequence numbers
the map holds for each key what its latest command left.

The second half says what `run_write_admission` makes of its requests: their operations under
consecutive sequence numbers (`buildGroups_ok`), each small enough for a table.
-/

set_option autoImplicit false

namespace CereDB.Storage

open CereDB.Lib ReadManager

/-! ### The map of a log -/

/-- What a command does to the map. -/
def LogCommand.apply (map : OrdMap Key Bytes) (command : LogCommand) : OrdMap Key Bytes :=
  match command.recordType with
  | .put => map.insert command.key command.value
  | .delete => map.erase command.key

/-- The map after a list of commands. -/
def commandMap (commands : List LogCommand) : OrdMap Key Bytes :=
  commands.foldl LogCommand.apply ∅

/-- What a command leaves for its key. -/
def LogCommand.outcome (command : LogCommand) : Option Bytes :=
  match command.recordType with
  | .put => some command.value
  | .delete => none

theorem LogCommand.get?_apply (map : OrdMap Key Bytes) (command : LogCommand) (key : Key) :
    (command.apply map)[key]? = if command.key = key then command.outcome else map[key]? := by
  rw [LogCommand.apply, LogCommand.outcome]
  by_cases hkey : command.key = key
  · cases command.recordType <;> simp [hkey]
  · cases command.recordType <;> simp [OrdMap.get?_insert, OrdMap.get?_erase, hkey]

/-- The last command of a key decides. -/
theorem get?_commandMap (commands : List LogCommand) (key : Key) :
    (commandMap commands)[key]?
      = ((commands.filter fun command => command.key == key).getLast?).bind LogCommand.outcome := by
  induction commands using List.reverseRecOn with
  | nil => exact OrdMap.get?_empty key
  | append_singleton commands command ih =>
    rw [commandMap, List.foldl_append, List.foldl_cons, List.foldl_nil, ← commandMap,
      LogCommand.get?_apply, ih, List.filter_append, List.filter_singleton]
    by_cases hkey : command.key = key
    · rw [if_pos hkey, beq_iff_eq.mpr hkey]
      simp
    · rw [if_neg hkey, beq_eq_false_iff_ne.mpr hkey]
      simp

/-- The newest command of a key up to a sequence number. -/
def latest (log : List LogCommand) (sequenceNumber : Nat) (key : Key) : Option LogCommand :=
  (log.filter fun command =>
    command.key == key && decide (command.lsn ≤ sequenceNumber)).getLast?

/-- The commands up to a sequence number. -/
def publishedCommands (log : List LogCommand) (sequenceNumber : Nat) : List LogCommand :=
  log.filter fun command => decide (command.lsn ≤ sequenceNumber)

theorem get?_commandMap_published (log : List LogCommand) (sequenceNumber : Nat) (key : Key) :
    (commandMap (publishedCommands log sequenceNumber))[key]?
      = (latest log sequenceNumber key).bind LogCommand.outcome := by
  rw [get?_commandMap, publishedCommands, List.filter_filter]
  rfl

section Sorted
variable {log : List LogCommand} {sequenceNumber : Nat} {key : Key}

/-- The sequence numbers ascend. -/
def LsnSorted (log : List LogCommand) : Prop := log.Pairwise fun a b => a.lsn < b.lsn

theorem latest_eq_argmax (hsorted : LsnSorted log) :
    latest log sequenceNumber key = (log.filter fun command =>
      command.key == key && decide (command.lsn ≤ sequenceNumber)).argmax LogCommand.lsn :=
  (argmax_eq_getLast? LogCommand.lsn (hsorted.sublist List.filter_sublist)).symm

theorem mem_filter_latest {command : LogCommand} :
    command ∈ log.filter (fun command =>
        command.key == key && decide (command.lsn ≤ sequenceNumber)) ↔
      command ∈ log ∧ command.key = key ∧ command.lsn ≤ sequenceNumber := by
  rw [List.mem_filter, Bool.and_eq_true, beq_iff_eq, decide_eq_true_iff]

theorem of_latest_eq_some (hsorted : LsnSorted log) {command : LogCommand}
    (h : latest log sequenceNumber key = some command) :
    (command ∈ log ∧ command.key = key ∧ command.lsn ≤ sequenceNumber) ∧
      ∀ other ∈ log, other.key = key → other.lsn ≤ sequenceNumber → other.lsn ≤ command.lsn := by
  rw [latest_eq_argmax hsorted] at h
  refine ⟨mem_filter_latest.mp (List.argmax_mem h), ?_⟩
  intro other hother hkey hle
  exact List.le_of_mem_argmax (mem_filter_latest.mpr ⟨hother, hkey, hle⟩) h

theorem latest_eq_none_iff :
    latest log sequenceNumber key = none ↔
      ∀ command ∈ log, command.key = key → ¬ command.lsn ≤ sequenceNumber := by
  rw [latest, List.getLast?_eq_none_iff, List.eq_nil_iff_forall_not_mem]
  simp only [mem_filter_latest, not_and]

/-- A command is determined by its sequence number. -/
theorem LsnSorted.eq_of_lsn (hsorted : LsnSorted log) {a b : LogCommand} (ha : a ∈ log)
    (hb : b ∈ log) (h : a.lsn = b.lsn) : a = b := by
  by_contra hne
  rcases List.pairwise_iff_getElem.mp hsorted with hget
  obtain ⟨i, hi, rfl⟩ := List.getElem_of_mem ha
  obtain ⟨j, hj, rfl⟩ := List.getElem_of_mem hb
  rcases Nat.lt_trichotomy i j with hlt | heq | hlt
  · exact absurd h (hget i j hi hj hlt).ne
  · subst heq
    exact hne rfl
  · exact absurd h.symm (hget j i hj hi hlt).ne

theorem latest_eq_some (hsorted : LsnSorted log) {command : LogCommand} (hmem : command ∈ log)
    (hkey : command.key = key) (hle : command.lsn ≤ sequenceNumber)
    (hmax : ∀ other ∈ log, other.key = key → other.lsn ≤ sequenceNumber →
      other.lsn ≤ command.lsn) : latest log sequenceNumber key = some command := by
  cases hlatest : latest log sequenceNumber key with
  | none => exact absurd hle (latest_eq_none_iff.mp hlatest command hmem hkey)
  | some best =>
    obtain ⟨⟨hbest, hbestKey, hbestLe⟩, hbestMax⟩ := of_latest_eq_some hsorted hlatest
    rw [hsorted.eq_of_lsn hbest hmem
      (le_antisymm (hmax best hbest hbestKey hbestLe) (hbestMax command hmem hkey hle))]

/-- Commands above the sequence number do not change the latest one. -/
theorem latest_append {extra : List LogCommand}
    (h : ∀ command ∈ extra, sequenceNumber < command.lsn) :
    latest (log ++ extra) sequenceNumber key = latest log sequenceNumber key := by
  have hnil : extra.filter (fun command =>
      command.key == key && decide (command.lsn ≤ sequenceNumber)) = [] := by
    rw [List.filter_eq_nil_iff]
    intro command hmem
    rw [decide_eq_false (not_le.mpr (h command hmem)), Bool.and_false]
    exact Bool.false_ne_true
  rw [latest, List.filter_append, hnil, List.append_nil]
  rfl

end Sorted

/-! ### The record of a command -/

/-- The record a table keeps of a command. -/
def LogCommand.record (command : LogCommand) : MemtableRecord :=
  (MemtableRecord.new command.value command.recordType command.lsn).withKey command.key

/-- What a record answers: the value of a put. -/
def answer (record : Option MemtableRecord) : Option Bytes :=
  (live record).map MemtableRecord.value

theorem answer_eq {record : MemtableRecord} {command : LogCommand}
    (htype : record.recordType = command.recordType) (hvalue : record.value = command.value) :
    answer (some record) = command.outcome := by
  rw [answer, live, LogCommand.outcome, Option.filter_some, htype, hvalue.symm]
  cases command.recordType <;> rfl

theorem answer_record (command : LogCommand) :
    answer (some command.record) = command.outcome := answer_eq rfl rfl

theorem answer_new (command : LogCommand) :
    answer (some (MemtableRecord.new command.value command.recordType command.lsn))
      = command.outcome := answer_eq rfl rfl

/-! ### The newest versions of a memtable -/

/-- What a flush keeps for a key. -/
theorem get?_validRecords (memtable : Memtable) (key : Key) :
    (validRecords memtable)[key]? = ((memtable.toList.filter fun entry =>
      (ofLex entry.1).1 == key).map Prod.snd).argmax MemtableRecord.lsn := by
  have hfold : ∀ (entries : List ((Key ×ₗ Nat) × MemtableRecord)) (valid : OrdMap Key MemtableRecord),
      (entries.foldl keepNewest valid)[key]? = keepBest MemtableRecord.lsn valid[key]?
        ((entries.filter fun entry => (ofLex entry.1).1 == key).map Prod.snd) := by
    intro entries
    induction entries with
    | nil => exact fun _ => rfl
    | cons entry entries ih =>
      intro valid
      have hstep : (keepNewest valid entry)[key]? = if (ofLex entry.1).1 = key then
          better MemtableRecord.lsn valid[key]? (some entry.2) else valid[key]? := by
        rw [keepNewest]
        by_cases hkey : (ofLex entry.1).1 = key
        · rw [if_pos hkey, hkey]
          cases hcurrent : valid[key]? with
          | none => simp only [OrdMap.get?_insert, if_true, better]
          | some current =>
            simp only [better]
            split
            · rw [OrdMap.get?_insert, if_pos rfl]
            · exact hcurrent
        · rw [if_neg hkey]
          cases valid[(ofLex entry.1).1]? with
          | none => simp only [OrdMap.get?_insert, if_neg hkey]
          | some current =>
            simp only
            split
            · rw [OrdMap.get?_insert, if_neg hkey]
            · rfl
      rw [List.foldl_cons, ih, hstep, List.filter_cons]
      by_cases hkey : (ofLex entry.1).1 = key
      · rw [if_pos hkey, beq_iff_eq.mpr hkey, if_pos rfl, List.map_cons, keepBest_cons]
      · rw [if_neg hkey, beq_eq_false_iff_ne.mpr hkey, if_neg Bool.false_ne_true]
  rw [validRecords, hfold, OrdMap.get?_empty, keepBest_none]

/-- A flushed record is the newest version of its key. -/
theorem of_tableGet_flushRecords {memtable : Memtable} {key : Key} {record : MemtableRecord}
    (h : tableGet (flushRecords memtable) key = some record) :
    ∃ (lsn : Nat) (found : MemtableRecord), memtable[toLex (key, lsn)]? = some found ∧
      record = found.withKey key ∧ ∀ (other : Nat) (older : MemtableRecord),
        memtable[toLex (key, other)]? = some older → older.lsn ≤ found.lsn := by
  obtain ⟨hmem, hkey⟩ := tableGet_some h
  obtain ⟨⟨key', found⟩, hentry, rfl⟩ := List.mem_map.mp hmem
  obtain rfl : key' = key := hkey
  have hget := (OrdMap.mem_toList_iff _ _ _).mp hentry
  rw [get?_validRecords] at hget
  obtain ⟨⟨composite, found'⟩, hmem', rfl⟩ := List.mem_map.mp (List.argmax_mem hget)
  obtain ⟨hlisted, hcomposite⟩ := List.mem_filter.mp hmem'
  have hkey' : (ofLex composite).1 = key' := beq_iff_eq.mp hcomposite
  refine ⟨(ofLex composite).2, found', ?_, rfl, ?_⟩
  · rw [← hkey']
    exact (OrdMap.mem_toList_iff memtable _ _).mp hlisted
  · intro other older holder
    refine List.le_of_mem_argmax (List.mem_map.mpr ⟨(toLex (key', other), older),
      List.mem_filter.mpr ⟨(OrdMap.mem_toList_iff memtable _ _).mpr holder, ?_⟩, rfl⟩) hget
    exact beq_self_eq_true key'

/-- A key of the memtable has a flushed record. -/
theorem exists_tableGet_flushRecords {memtable : Memtable} {key : Key} {lsn : Nat}
    {found : MemtableRecord} (h : memtable[toLex (key, lsn)]? = some found) :
    ∃ record, tableGet (flushRecords memtable) key = some record := by
  have hmem : found ∈ (memtable.toList.filter fun entry =>
      (ofLex entry.1).1 == key).map Prod.snd :=
    List.mem_map.mpr ⟨(toLex (key, lsn), found), List.mem_filter.mpr
      ⟨(OrdMap.mem_toList_iff memtable _ _).mpr h, beq_self_eq_true key⟩, rfl⟩
  cases hbest : (validRecords memtable)[key]? with
  | none =>
    rw [get?_validRecords, List.argmax_eq_none] at hbest
    rw [hbest] at hmem
    cases hmem
  | some best =>
    have hrecord : best.withKey key ∈ flushRecords memtable :=
      List.mem_map.mpr ⟨(key, best), (OrdMap.mem_toList_iff _ _ _).mpr hbest, rfl⟩
    exact ⟨_, tableGet_of_mem (sorted_flushRecords memtable) hrecord⟩

/-! ### The commands of a group -/

/-- Operations under the sequence numbers behind `first`. -/
def numbered : Nat → List BatchOperation → List LogCommand
  | _, [] => []
  | first, operation :: operations =>
    operation.toCommand (first + 1) :: numbered (first + 1) operations

theorem numbered_append (first : Nat) (operations more : List BatchOperation) :
    numbered first (operations ++ more)
      = numbered first operations ++ numbered (first + operations.length) more := by
  induction operations generalizing first with
  | nil => rfl
  | cons operation operations ih =>
    rw [List.cons_append, numbered, ih, numbered, List.cons_append, List.length_cons,
      Nat.add_right_comm first 1, Nat.add_assoc first]

theorem length_numbered (first : Nat) (operations : List BatchOperation) :
    (numbered first operations).length = operations.length := by
  induction operations generalizing first with
  | nil => rfl
  | cons operation operations ih => rw [numbered, List.length_cons, ih, List.length_cons]

theorem lsn_numbered {first : Nat} {operations : List BatchOperation} {command : LogCommand}
    (h : command ∈ numbered first operations) :
    first < command.lsn ∧ command.lsn ≤ first + operations.length ∧
      ∃ operation ∈ operations, command = operation.toCommand command.lsn := by
  induction operations generalizing first with
  | nil => cases h
  | cons operation operations ih =>
    rw [numbered, List.mem_cons] at h
    rw [List.length_cons]
    rcases h with rfl | h
    · exact ⟨Nat.lt_succ_self first, by show first + 1 ≤ _; omega, operation,
        List.mem_cons_self, rfl⟩
    · obtain ⟨hlt, hle, operation', hmem, heq⟩ := ih h
      exact ⟨by omega, by omega, operation', List.mem_cons_of_mem operation hmem, heq⟩

theorem lsnSorted_numbered (first : Nat) (operations : List BatchOperation) :
    LsnSorted (numbered first operations) := by
  induction operations generalizing first with
  | nil => exact List.Pairwise.nil
  | cons operation operations ih =>
    exact List.pairwise_cons.mpr ⟨fun command h => (lsn_numbered h).1, ih (first + 1)⟩

theorem buildCommands_ok {first last : Nat} {operations : List BatchOperation}
    {commands : List LogCommand} (h : buildCommands first operations = .ok (commands, last)) :
    commands = numbered first operations ∧ last = first + operations.length ∧
      (first < u64Limit → last < u64Limit) := by
  induction operations generalizing first last commands with
  | nil =>
    obtain ⟨rfl, rfl⟩ := Prod.mk.inj (Except.ok.inj h)
    exact ⟨rfl, rfl, id⟩
  | cons operation operations ih =>
    rw [buildCommands] at h
    obtain ⟨lsn, hlsn, h⟩ := Exec.bind_eq_ok h
    obtain ⟨⟨rest, last'⟩, hrest, h⟩ := Exec.bind_eq_ok h
    obtain ⟨rfl, rfl⟩ := Prod.mk.inj (Except.ok.inj h)
    rw [addOr, checkedAdd] at hlsn
    by_cases hlt : first + 1 < u64Limit
    · rw [if_pos hlt] at hlsn
      obtain rfl := Except.ok.inj hlsn
      obtain ⟨rfl, rfl, hlast⟩ := ih hrest
      refine ⟨rfl, ?_, fun _ => hlast hlt⟩
      rw [List.length_cons]
      omega
    · rw [if_neg hlt] at hlsn
      cases hlsn

/-- The groups of `run_write_admission` are the requests under consecutive sequence numbers. -/
theorem buildGroups_ok {first last : Nat} {requests : List (List BatchOperation)}
    {groups : List (List LogCommand)} (h : buildGroups first requests = .ok (groups, last)) :
    groups.flatten = numbered first requests.flatten ∧ last = first + requests.flatten.length ∧
      (first < u64Limit → last < u64Limit) := by
  induction requests generalizing first last groups with
  | nil =>
    obtain ⟨rfl, rfl⟩ := Prod.mk.inj (Except.ok.inj h)
    exact ⟨rfl, rfl, id⟩
  | cons request requests ih =>
    rw [buildGroups] at h
    obtain ⟨⟨commands, middle⟩, hcommands, h⟩ := Exec.bind_eq_ok h
    obtain ⟨⟨rest, last'⟩, hrest, h⟩ := Exec.bind_eq_ok h
    obtain ⟨rfl, rfl⟩ := Prod.mk.inj (Except.ok.inj h)
    obtain ⟨rfl, rfl, hmiddle⟩ := buildCommands_ok hcommands
    obtain ⟨hflatten, rfl, hlast⟩ := ih hrest
    refine ⟨?_, ?_, fun hfirst => hlast (hmiddle hfirst)⟩
    · rw [List.flatten_cons, hflatten, List.flatten_cons, numbered_append]
    · rw [List.flatten_cons, List.length_append, Nat.add_assoc]

theorem addOr_ok {message : String} {a b n : Nat} (h : addOr message a b = .ok n) :
    n = a + b := by
  rw [addOr, checkedAdd] at h
  split at h
  · rename_i sum hsum
    split at hsum
    · rw [← Except.ok.inj h, ← Option.some.inj hsum]
    · cases hsum
  · cases h

/-- An operation of a batch that `validate_batch` accepts fits into a frame. -/
theorem validateBatch_ok {operations : List BatchOperation} {start bytes : Nat}
    (h : operations.foldlM validateOperation start = .ok bytes) :
    ∀ operation ∈ operations,
      42 + operation.key.length + operation.value.length ≤ maxWalFrameBytes := by
  induction operations generalizing start with
  | nil => exact fun _ hmem => absurd hmem List.not_mem_nil
  | cons operation operations ih =>
    rw [List.foldlM_cons] at h
    obtain ⟨total, hhead, htail⟩ := Exec.bind_eq_ok h
    intro other hmem
    rcases List.mem_cons.mp hmem with rfl | hmem
    · rw [validateOperation] at hhead
      obtain ⟨size, hsize, hhead⟩ := Exec.bind_eq_ok hhead
      obtain ⟨payload, hpayload, hhead⟩ := Exec.bind_eq_ok hhead
      rw [addOr_ok hpayload, addOr_ok hsize] at hhead
      split at hhead
      · cases hhead
      · rename_i hfits
        exact not_lt.mp hfits
    · exact ih htail other hmem

/-- A command of an admitted request can be stored in a table. -/
theorem storable_toCommand {operation : BatchOperation} {lsn : Nat}
    (hsize : 42 + operation.key.length + operation.value.length ≤ maxWalFrameBytes)
    (hlsn : lsn < u64Limit) : (operation.toCommand lsn).record.Storable := by
  refine ⟨?_, hlsn⟩
  show 4 + operation.key.length + 4 + operation.value.length + 1 + 8 < u32Limit
  have hlimit : maxWalFrameBytes < u32Limit := by decide
  omega

end CereDB.Storage

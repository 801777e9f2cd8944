import CereDB.Proofs.CommandLog
import CereDB.Proofs.WalHalts
import CereDB.Proofs.WalRepair
import CereDB.Storage.Admission

/-!
# `CereDB.Proofs.BatchEncoding`: `validate_batch` against the WAL encoder

`validate_batch` charges the commit frame first and adds the frames one by one; the encoder builds
them, with its checks in between. Both accept a nonempty batch exactly when every frame and the
whole transaction are within the limits (`FitsWal`): `validateBatch_iff` and `planTransaction_iff`.
What is left for the append of accepted batches to stop at is listed in `AppendFault`.
-/

set_option autoImplicit false

namespace CereDB.Storage

open CereDB.Lib

/-! ### Validation -/

/-- Every frame and the transaction as a whole are within the limits. -/
structure FitsWal (commands : List LogCommand) : Prop where
  frame : ∀ command ∈ commands, 42 + command.key.length + command.value.length ≤ maxFrameSize
  transaction : commandsSize commands + 37 ≤ maxGroupEncodedSize

theorem addOr_of_lt {message : String} {a b : Nat} (h : a + b < u64Limit) :
    addOr message a b = .ok (a + b) := by
  rw [addOr, checkedAdd, if_pos h]

/-- One step of the validation adds the size of one frame. -/
theorem validateOperation_iff {total size : Nat} {operation : BatchOperation} (lsn : Nat) :
    validateOperation total operation = .ok size ↔
      42 + operation.key.length + operation.value.length ≤ maxFrameSize ∧
        total + commandSize (operation.toCommand lsn) ≤ maxGroupEncodedSize ∧
        size = total + commandSize (operation.toCommand lsn) := by
  have hframe : maxWalFrameBytes = maxFrameSize := rfl
  have hgroup : maxWalTransactionBytes = maxGroupEncodedSize := rfl
  have hlimits : maxFrameSize + maxGroupEncodedSize + 20 < u64Limit := by decide
  have hsize : commandSize (operation.toCommand lsn)
      = 62 + operation.key.length + operation.value.length := rfl
  constructor
  · intro h
    rw [validateOperation] at h
    obtain ⟨size₁, hsize₁, h⟩ := Exec.bind_eq_ok h
    obtain ⟨payload, hpayload, h⟩ := Exec.bind_eq_ok h
    rw [addOr_ok hsize₁] at hpayload
    obtain rfl := addOr_ok hpayload
    dsimp only at h
    split at h
    · cases h
    rename_i hfits
    obtain ⟨frameBytes, hframeBytes, h⟩ := Exec.bind_eq_ok h
    obtain rfl := addOr_ok hframeBytes
    obtain ⟨sum, hsum, h⟩ := Exec.bind_eq_ok h
    obtain rfl := addOr_ok hsum
    split at h
    · cases h
    rename_i hwhole
    obtain rfl := Except.ok.inj h
    omega
  · rintro ⟨hpayload, hfits, rfl⟩
    rw [validateOperation, addOr_of_lt (by omega), Exec.ok_bind, addOr_of_lt (by omega), Exec.ok_bind,
      if_neg (by omega)]
    dsimp only
    rw [addOr_of_lt (by omega), Exec.ok_bind, addOr_of_lt (by omega), Exec.ok_bind,
      if_neg (by omega), hsize]
    exact congrArg Except.ok (by omega)

/-- The validation of the rest of a batch. -/
theorem validateOperations_iff {operations : List BatchOperation} {total size : Nat}
    (htotal : total ≤ maxGroupEncodedSize) (first : Nat) :
    operations.foldlM validateOperation total = .ok size ↔
      (∀ command ∈ numbered first operations,
          42 + command.key.length + command.value.length ≤ maxFrameSize) ∧
        total + commandsSize (numbered first operations) ≤ maxGroupEncodedSize ∧
        size = total + commandsSize (numbered first operations) := by
  induction operations generalizing total first with
  | nil =>
    have hnone : commandsSize (numbered first []) = 0 := rfl
    rw [List.foldlM_nil, hnone, Nat.add_zero]
    constructor
    · intro h
      exact ⟨fun _ hmem => absurd hmem List.not_mem_nil, htotal, (Except.ok.inj h).symm⟩
    · rintro ⟨-, -, rfl⟩
      rfl
  | cons operation operations ih =>
    have hsum : commandsSize (numbered first (operation :: operations))
        = commandSize (operation.toCommand (first + 1)) +
          commandsSize (numbered (first + 1) operations) := rfl
    rw [List.foldlM_cons, hsum, numbered, List.forall_mem_cons]
    constructor
    · intro h
      obtain ⟨total₁, hstep, h⟩ := Exec.bind_eq_ok h
      obtain ⟨hframe, hle, rfl⟩ := (validateOperation_iff (first + 1)).mp hstep
      obtain ⟨hframes, hwhole, rfl⟩ := (ih hle (first + 1)).mp h
      exact ⟨⟨hframe, hframes⟩, by omega, by omega⟩
    · rintro ⟨⟨hframe, hframes⟩, hwhole, rfl⟩
      rw [(validateOperation_iff (first + 1)).mpr ⟨hframe, by omega, rfl⟩, Exec.ok_bind]
      exact (ih (by omega) (first + 1)).mpr ⟨hframes, by omega, by omega⟩

/-- `validate_batch` accepts what is within the limits, and returns its size. -/
theorem validateBatch_iff {operations : List BatchOperation} {size : Nat} (first : Nat) :
    validateBatch operations = .ok size ↔
      FitsWal (numbered first operations) ∧
        size = commandsSize (numbered first operations) + 37 := by
  rw [validateBatch, validateOperations_iff (by decide) first]
  constructor
  · rintro ⟨hframes, hwhole, rfl⟩
    exact ⟨⟨hframes, by omega⟩, by omega⟩
  · rintro ⟨hfits, rfl⟩
    have hwhole := hfits.transaction
    exact ⟨hfits.frame, by omega, by omega⟩

/-! ### Encoding -/

/-- The command of an operation: a delete has no value. -/
def Plain (command : LogCommand) : Prop := command.recordType = .delete → command.value = []

theorem plain_numbered {first : Nat} {operations : List BatchOperation} {command : LogCommand}
    (h : command ∈ numbered first operations) : Plain command := by
  obtain ⟨-, -, operation, -, heq⟩ := lsn_numbered h
  rw [heq]
  intro htype
  cases operation with
  | put key value => cases htype
  | delete key => rfl

/-- The stop of an encoder that has no LSN left. -/
def lsnExhausted : Halt := .error (.storageError "WAL LSN exhausted")

section
variable {collecting : Bool} {id start : Nat} {loop : UpdateLoop} {command : LogCommand}

theorem encodeFrame_update {lsn previousLsn : Nat}
    (hframe : 42 + command.key.length + command.value.length ≤ maxFrameSize) :
    encodeFrame ⟨lsn, id, previousLsn, .update command⟩
      = .ok (Frame.bytes ⟨lsn, id, previousLsn, .update command⟩) := by
  have hlength : (Frame.body ⟨lsn, id, previousLsn, .update command⟩).length + 20
      = 62 + command.key.length + command.value.length := Frame.length_body _
  have hsmall : (TransactionRecord.update command).tooLarge = false := by
    simp only [TransactionRecord.tooLarge, decide_eq_false_iff_not]
    omega
  rw [encodeFrame, hsmall, if_neg (by simp), if_neg (by omega)]

/-- A command within the limits is encoded unless the LSNs are exhausted. -/
theorem planUpdate_fits (collecting : Bool) (id start : Nat) (hplain : Plain command)
    (hframe : 42 + command.key.length + command.value.length ≤ maxFrameSize)
    (hgroup : loop.groupSize + commandSize command ≤ maxGroupEncodedSize) :
    (∃ loop', planUpdate collecting id start loop command = .ok loop') ∨
      u64Limit ≤ loop.nextLsn + 1 ∧
        planUpdate collecting id start loop command = .error lsnExhausted := by
  have hkey : ¬u32Limit ≤ command.key.length := by
    have hlimit : maxFrameSize < u32Limit := by decide
    omega
  have hdelete : ¬(command.recordType = .delete ∧ command.value ≠ []) :=
    fun h => h.2 (hplain h.1)
  have hlength : (Frame.bytes ⟨loop.nextLsn, id, loop.previousLsn, .update command⟩).length
      = commandSize command := Frame.length_bytes _
  rw [planUpdate, if_neg hdelete, if_neg hkey, encodeFrame_update hframe, Exec.ok_bind]
  dsimp only
  rw [hlength, if_neg (not_lt.mpr hgroup)]
  by_cases hnext : loop.nextLsn + 1 < u64Limit
  · have hadd : checkedAdd loop.nextLsn 1 = some (loop.nextLsn + 1) := if_pos hnext
    rw [hadd]
    exact .inl ⟨_, rfl⟩
  · have hadd : checkedAdd loop.nextLsn 1 = none := if_neg hnext
    rw [hadd]
    exact .inr ⟨not_lt.mp hnext, rfl⟩

/-- What an encoded command adds to the transaction is within the limits. -/
theorem planUpdate_size {loop' : UpdateLoop}
    (h : planUpdate collecting id start loop command = .ok loop') :
    42 + command.key.length + command.value.length ≤ maxFrameSize ∧
      loop'.groupSize = loop.groupSize + commandSize command ∧
      loop'.groupSize ≤ maxGroupEncodedSize ∧ loop'.nextLsn = loop.nextLsn + 1 := by
  unfold planUpdate at h
  split at h
  · cases h
  split at h
  · cases h
  obtain ⟨frame, hframe, h⟩ := Exec.bind_eq_ok h
  obtain ⟨rfl, hsmall⟩ := encodeFrame_update_ok hframe
  have hlength : (Frame.bytes ⟨loop.nextLsn, id, loop.previousLsn, .update command⟩).length
      = commandSize command := Frame.length_bytes _
  dsimp only at h
  rw [hlength] at h
  split at h
  · cases h
  rename_i hgroup
  split at h
  · cases h
  rename_i nextLsn hadd
  unfold checkedAdd at hadd
  split at hadd
  · cases hadd
    cases h
    exact ⟨by simpa [TransactionRecord.tooLarge] using hsmall, rfl, not_lt.mp hgroup, rfl⟩
  · cases hadd

end

section
variable {collecting : Bool} {id start : Nat} {commands : List LogCommand}

/-- Commands within the limits are encoded unless the LSNs are exhausted. -/
theorem planUpdates_fits (collecting : Bool) (id start : Nat) (loop : UpdateLoop)
    (hplain : ∀ command ∈ commands, Plain command)
    (hframe : ∀ command ∈ commands,
      42 + command.key.length + command.value.length ≤ maxFrameSize)
    (hgroup : loop.groupSize + commandsSize commands ≤ maxGroupEncodedSize) :
    (∃ loop', commands.foldlM (planUpdate collecting id start) loop = .ok loop' ∧
        loop'.groupSize = loop.groupSize + commandsSize commands ∧
        loop'.nextLsn = loop.nextLsn + commands.length) ∨
      u64Limit ≤ loop.nextLsn + commands.length ∧
        commands.foldlM (planUpdate collecting id start) loop = .error lsnExhausted := by
  induction commands generalizing loop with
  | nil => exact .inl ⟨loop, rfl, rfl, rfl⟩
  | cons command commands ih =>
    have hsum : commandsSize (command :: commands)
        = commandSize command + commandsSize commands := rfl
    rw [hsum] at hgroup ⊢
    rw [List.foldlM_cons, List.length_cons]
    rcases planUpdate_fits collecting id start
        (hplain command List.mem_cons_self) (hframe command List.mem_cons_self)
        (show loop.groupSize + commandSize command ≤ _ by omega) with
      ⟨loop₁, hstep⟩ | ⟨hnext, hstep⟩
    · obtain ⟨-, hsize, -, hlsn⟩ := planUpdate_size hstep
      rw [hstep, Exec.ok_bind]
      rcases ih loop₁ (fun c hc => hplain c (List.mem_cons_of_mem _ hc))
          (fun c hc => hframe c (List.mem_cons_of_mem _ hc)) (by omega) with
        ⟨loop', hloop, hsize', hlsn'⟩ | ⟨hnext, hloop⟩
      · exact .inl ⟨loop', hloop, by omega, by omega⟩
      · exact .inr ⟨by omega, hloop⟩
    · rw [hstep]
      exact .inr ⟨by omega, rfl⟩

/-- Encoded commands are within the limits. -/
theorem planUpdates_size {loop loop' : UpdateLoop}
    (h : commands.foldlM (planUpdate collecting id start) loop = .ok loop') :
    (∀ command ∈ commands, 42 + command.key.length + command.value.length ≤ maxFrameSize) ∧
      loop'.groupSize = loop.groupSize + commandsSize commands := by
  induction commands generalizing loop with
  | nil =>
    cases h
    exact ⟨fun _ hmem => absurd hmem List.not_mem_nil, rfl⟩
  | cons command commands ih =>
    have hsum : commandsSize (command :: commands)
        = commandSize command + commandsSize commands := rfl
    rw [List.foldlM_cons] at h
    obtain ⟨loop₁, hstep, h⟩ := Exec.bind_eq_ok h
    obtain ⟨hframe, hsize, -, -⟩ := planUpdate_size hstep
    obtain ⟨hframes, hsizes⟩ := ih h
    rw [List.forall_mem_cons]
    exact ⟨⟨hframe, hframes⟩, by omega⟩

/-- A transaction within the limits is encoded unless the LSNs are exhausted. -/
theorem planTransaction_fits (collecting : Bool) (group : GroupLoop) (hne : commands ≠ [])
    (hplain : ∀ command ∈ commands, Plain command) (hfits : FitsWal commands) :
    (∃ group', planTransaction collecting group commands = .ok group') ∨
      u64Limit ≤ group.nextLsn + commands.length + 1 ∧
        planTransaction collecting group commands = .error lsnExhausted := by
  have hwhole := hfits.transaction
  rw [planTransaction, if_neg hne]
  rcases planUpdates_fits collecting group.nextLsn group.bytes.length
      ⟨group.bytes, group.nextLsn, 0, 0, []⟩ hplain hfits.frame (by dsimp only; omega) with
    ⟨loop, hloop, hsize, hlsn⟩ | ⟨hnext, hloop⟩
  · dsimp only at hsize hlsn
    have hcommit : encodeFrame ⟨loop.nextLsn, group.nextLsn, loop.previousLsn, .commit⟩
        = .ok (Frame.bytes ⟨loop.nextLsn, group.nextLsn, loop.previousLsn, .commit⟩) := by
      have hlength : (Frame.body ⟨loop.nextLsn, group.nextLsn, loop.previousLsn, .commit⟩).length
          + 20 = 37 := Frame.length_body _
      have hsmall : (TransactionRecord.commit).tooLarge = false := rfl
      have hmax : 17 ≤ maxFrameSize := by decide
      rw [encodeFrame, hsmall, if_neg (by simp), if_neg (by omega)]
    have hlength : (Frame.bytes ⟨loop.nextLsn, group.nextLsn, loop.previousLsn, .commit⟩).length
        = 37 := Frame.length_bytes _
    rw [hloop, Exec.ok_bind, hcommit, Exec.ok_bind, hlength, if_neg (by omega)]
    by_cases hlast : loop.nextLsn + 1 < u64Limit
    · have hadd : checkedAdd loop.nextLsn 1 = some (loop.nextLsn + 1) := if_pos hlast
      rw [hadd]
      exact .inl ⟨_, rfl⟩
    · have hadd : checkedAdd loop.nextLsn 1 = none := if_neg hlast
      rw [hadd]
      exact .inr ⟨by omega, rfl⟩
  · rw [hloop]
    dsimp only at hnext
    exact .inr ⟨by omega, rfl⟩

/-- An encoded transaction is within the limits. -/
theorem fits_of_planTransaction {group group' : GroupLoop}
    (h : planTransaction collecting group commands = .ok group') : FitsWal commands := by
  unfold planTransaction at h
  split at h
  · cases h
  obtain ⟨loop, hloop, h⟩ := Exec.bind_eq_ok h
  obtain ⟨hframes, hsize⟩ := planUpdates_size hloop
  obtain ⟨commit, hcommit, h⟩ := Exec.bind_eq_ok h
  obtain ⟨rfl, -⟩ := encodeFrame_update_ok hcommit
  have hlength : (Frame.bytes ⟨loop.nextLsn, group.nextLsn, loop.previousLsn, .commit⟩).length
      = 37 := Frame.length_bytes _
  dsimp only at hsize
  rw [hlength] at h
  split at h
  · cases h
  rename_i hwhole
  exact ⟨hframes, by omega⟩

end

/-! ### The append of accepted batches -/

/-- An I/O call failed, or was the last one of the process. -/
def IoStop (halt : Halt) : Prop := (∃ kind, halt = .error (.io kind)) ∨ halt = .crash

/-- What can stop the write of encoded frames: I/O, or the rotation away from the last segment
id. -/
def WriteFault (wal : Wal) (halt : Halt) : Prop :=
  IoStop halt ∨ u64Limit ≤ wal.manager.writer.segmentId + 1 ∧
    halt = .error (.storageError "WAL segment ID exhausted")

/-- What can stop the append of a group of accepted batches. -/
def AppendFault (wal : Wal) (halt : Halt) : Prop :=
  WriteFault wal halt ∨ halt = lsnExhausted ∨
    wal.manager.writer.poisoned = true ∧ halt = .error (.storageError
      "WAL write interrupted or failed; reopen before reuse")

theorem ioStop_attempt {io io' : Io Nat} {whole : Disk Nat → Disk Nat}
    {part : Nat → Disk Nat → Disk Nat} {halt : Halt}
    (h : Act.exec (Io.attempt ioErrors whole part) io = (.error halt, io')) : IoStop halt := by
  obtain ⟨disk, plan⟩ := io
  cases plan with
  | nil => cases h
  | cons answer plan =>
    cases answer with
    | ok => cases h
    | fails written =>
      obtain rfl := Except.error.inj (Prod.mk.inj h).1
      exact .inl ⟨_, rfl⟩
    | crash written =>
      obtain rfl := Except.error.inj (Prod.mk.inj h).1
      exact .inr rfl

theorem ioStop_createSegment {io io' : Io Nat} {id : Nat} {halt : Halt}
    (h : Act.exec (createSegment id) io = (.error halt, io')) : IoStop halt := by
  rcases Act.exec_bind_eq_error h with h | ⟨_, io₁, -, h⟩
  · rcases Act.exec_bind_eq_error h with h | ⟨io₁, io₂, -, h⟩
    · cases h
    · split at h
      · rcases Act.exec_bind_eq_error h with h | ⟨_, _, h, -⟩
        · obtain rfl := Except.error.inj (Prod.mk.inj h).1
          exact .inl ⟨_, rfl⟩
        · cases h
      · exact ioStop_attempt h
  rcases Act.exec_bind_eq_error h with h | ⟨_, io₂, -, h⟩
  · exact ioStop_attempt h
  rcases Act.exec_bind_eq_error h with h | ⟨_, io₃, -, h⟩
  · exact ioStop_attempt h
  exact ioStop_attempt h

theorem exec_onDisk_eq_error {α : Type} {x : Op (Io Nat) α} {wal wal' : Wal} {halt : Halt}
    (h : Act.exec (Wal.onDisk x) wal = (.error halt, wal')) :
    ∃ io, Act.exec x wal.io = (.error halt, io) := by
  rw [Wal.onDisk, Act.exec_zoom] at h
  cases hexec : Act.exec x wal.io with
  | mk r io =>
    rw [hexec] at h
    cases r with
    | ok a => cases h
    | error e =>
      obtain rfl := Except.error.inj (Prod.mk.inj h).1
      exact ⟨io, rfl⟩

/-- A rotation stops at an I/O call or behind the last segment id. -/
theorem rotateLocked_stop {wal wal' : Wal} {halt : Halt}
    (h : Act.exec Wal.rotateLocked wal = (.error halt, wal')) : WriteFault wal halt := by
  rw [Wal.rotateLocked, Act.exec_bind_ok (Act.exec_get wal)] at h
  dsimp only at h
  rcases Act.exec_bind_eq_error h with h | ⟨_, wal₁, -, h⟩
  · obtain ⟨io, h⟩ := exec_onDisk_eq_error h
    exact .inl (ioStop_attempt h)
  by_cases hnext : wal.manager.writer.segmentId + 1 < u64Limit
  · have hadd : checkedAdd wal.manager.writer.segmentId 1
        = some (wal.manager.writer.segmentId + 1) := if_pos hnext
    rw [hadd] at h
    rcases Act.exec_bind_eq_error h with h | ⟨_, wal₂, -, h⟩
    · obtain ⟨io, h⟩ := exec_onDisk_eq_error h
      exact .inl (ioStop_createSegment h)
    · cases h
  · have hadd : checkedAdd wal.manager.writer.segmentId 1 = none := if_neg hnext
    rw [hadd] at h
    obtain rfl := Except.error.inj (Prod.mk.inj h).1
    exact .inr ⟨not_lt.mp hnext, rfl⟩

/-- The write of planned frames without receipts. -/
theorem writePlanned_stop {plan : GroupLoop} (hplanned : plan.planned = []) {wal wal' : Wal}
    {halt : Halt} (h : Act.exec (Wal.writePlanned plan) wal = (.error halt, wal')) :
    WriteFault wal halt := by
  rcases Act.exec_bind_eq_error h with h | ⟨_, wal₁, hpoison, h⟩
  · cases h
  -- The writer is poisoned now, and otherwise as it was.
  obtain ⟨-, rfl⟩ := Prod.mk.inj hpoison
  rcases Act.exec_bind_eq_error h with h | ⟨_, wal₂, -, h⟩
  · rw [Wal.rotateIfFull, Act.exec_bind_ok (Act.exec_get _)] at h
    dsimp only at h
    split at h
    · have hstop := rotateLocked_stop h
      exact hstop
    · cases h
  rw [Act.exec_bind_ok (Act.exec_get _), hplanned] at h
  rcases Act.exec_bind_eq_error h with h | ⟨_, wal₃, -, h⟩
  · cases h
  rcases Act.exec_bind_eq_error h with h | ⟨_, wal₄, -, h⟩
  · obtain ⟨io, h⟩ := exec_onDisk_eq_error h
    exact .inl (ioStop_attempt h)
  rcases Act.exec_bind_eq_error h with h | ⟨_, wal₅, -, h⟩
  · obtain ⟨io, h⟩ := exec_onDisk_eq_error h
    exact .inl (ioStop_attempt h)
  cases h

/-- Groups of commands that `validate_batch` has accepted. -/
def AcceptedGroup (commands : List LogCommand) : Prop :=
  commands ≠ [] ∧ (∀ command ∈ commands, Plain command) ∧ FitsWal commands

/-- Accepted groups are encoded unless the LSNs are exhausted. -/
theorem planTransactions_accepted {groups : List (List LogCommand)}
    (hgroups : ∀ commands ∈ groups, AcceptedGroup commands) {group : GroupLoop} {halt : Halt}
    (h : groups.foldlM (planTransaction false) group = .error halt) : halt = lsnExhausted := by
  induction groups generalizing group with
  | nil => cases h
  | cons commands groups ih =>
    obtain ⟨hne, hplain, hfits⟩ := hgroups commands List.mem_cons_self
    rw [List.foldlM_cons] at h
    rcases planTransaction_fits false group hne hplain hfits with ⟨group₁, hstep⟩ | ⟨-, hstep⟩
    · rw [hstep, Exec.ok_bind] at h
      exact ih (fun other hother => hgroups other (List.mem_cons_of_mem _ hother)) h
    · rw [hstep] at h
      exact (Except.error.inj h).symm

theorem appendTransactions_stop {groups : List (List LogCommand)}
    (hgroups : ∀ commands ∈ groups, AcceptedGroup commands) (hcount : groups.length ≤ maxGroupCount)
    {wal wal' : Wal} {halt : Halt}
    (h : Act.exec (Wal.appendTransactions false groups) wal = (.error halt, wal')) :
    AppendFault wal halt := by
  rw [Wal.appendTransactions] at h
  split at h
  · cases h
  rw [if_neg (not_lt.mpr hcount)] at h
  rcases Act.exec_bind_eq_error h with h | ⟨_, wal₁, hhealthy, h⟩
  · by_cases hpoisoned : wal.manager.writer.poisoned = true
    · rw [LogLayout.ensureHealthy_poisoned hpoisoned] at h
      obtain rfl := Except.error.inj (Prod.mk.inj h).1
      exact .inr (.inr ⟨hpoisoned, rfl⟩)
    · rw [LogLayout.ensureHealthy_ok (by simpa using hpoisoned)] at h
      cases h
  obtain rfl : wal = wal₁ := by
    by_cases hpoisoned : wal.manager.writer.poisoned = true
    · rw [LogLayout.ensureHealthy_poisoned hpoisoned] at hhealthy
      cases hhealthy
    · rw [LogLayout.ensureHealthy_ok (by simpa using hpoisoned)] at hhealthy
      exact (Prod.mk.inj hhealthy).2
  rw [Act.exec_bind_ok (Act.exec_get _)] at h
  rcases Act.exec_bind_eq_error h with h | ⟨plan, wal₁, hplan, h⟩
  · exact .inr (.inl (planTransactions_accepted hgroups (Prod.mk.inj h).1))
  · obtain ⟨hplanned, rfl⟩ := Prod.mk.inj hplan
    exact .inl (writePlanned_stop (planned_skip hplanned) h)

/-- The append that `run_write_admission` makes stops as `append_transactions` does. -/
theorem writeEngineTransactions_stop {groups : List (List LogCommand)}
    (hgroups : ∀ commands ∈ groups, AcceptedGroup commands) (hcount : groups.length ≤ maxGroupCount)
    {owner : Option CheckpointOwner} {wal wal' : Wal} {halt : Halt}
    (h : Act.exec (Wal.writeEngineTransactions groups owner) wal = (.error halt, wal')) :
    AppendFault wal halt := by
  rcases Act.exec_bind_eq_error h with h | ⟨_, wal₁, -, h⟩
  · rw [Wal.appendEngineTransactions, Act.exec_bind_ok (Act.exec_get wal)] at h
    dsimp only at h
    split at h
    · rcases Act.exec_bind_eq_error h with h | ⟨_, wal₁, hmark, h⟩
      · cases h
      · obtain ⟨-, rfl⟩ := Prod.mk.inj hmark
        have hstop := appendTransactions_stop hgroups hcount h
        exact hstop
    · exact appendTransactions_stop hgroups hcount h
  · cases h

/-- The groups of a drain are its requests under sequence numbers. -/
theorem mem_buildGroups {first last : Nat} {requests : List (List BatchOperation)}
    {groups : List (List LogCommand)} (h : buildGroups first requests = .ok (groups, last)) :
    groups.length = requests.length ∧
      ∀ commands ∈ groups, ∃ request ∈ requests, ∃ start, commands = numbered start request := by
  induction requests generalizing first last groups with
  | nil =>
    obtain ⟨rfl, rfl⟩ := Prod.mk.inj (Except.ok.inj h)
    exact ⟨rfl, fun _ hmem => absurd hmem List.not_mem_nil⟩
  | cons request requests ih =>
    rw [buildGroups] at h
    obtain ⟨⟨commands, middle⟩, hcommands, h⟩ := Exec.bind_eq_ok h
    obtain ⟨⟨rest, last'⟩, hrest, h⟩ := Exec.bind_eq_ok h
    obtain ⟨rfl, rfl⟩ := Prod.mk.inj (Except.ok.inj h)
    obtain ⟨rfl, -, -⟩ := buildCommands_ok hcommands
    obtain ⟨hlength, hmem⟩ := ih hrest
    refine ⟨by rw [List.length_cons, List.length_cons, hlength], fun commands hin => ?_⟩
    rcases List.mem_cons.mp hin with rfl | hin
    · exact ⟨request, List.mem_cons_self, first, rfl⟩
    · obtain ⟨other, hother, start, heq⟩ := hmem commands hin
      exact ⟨other, List.mem_cons_of_mem _ hother, start, heq⟩

/-- The batch that a request holds is accepted. -/
theorem acceptedGroup_numbered {operations : List BatchOperation} (hne : operations ≠ []) {size : Nat}
    (h : validateBatch operations = .ok size) (first : Nat) :
    AcceptedGroup (numbered first operations) := by
  refine ⟨fun hnil => hne ?_, fun _ => plain_numbered, ((validateBatch_iff first).mp h).1⟩
  rw [← List.length_eq_zero_iff, ← length_numbered first, hnil, List.length_nil]

/-- A file that was appended to and synced ends with the bytes. -/
theorem exec_attempt_eq_ok {whole : Disk Nat → Disk Nat} {part : Nat → Disk Nat → Disk Nat}
    {io io' : Io Nat} (h : Act.exec (Io.attempt ioErrors whole part) io = (.ok (), io')) :
    io'.disk = whole io.disk := by
  obtain ⟨disk, plan⟩ := io
  cases plan with
  | nil =>
    obtain ⟨-, rfl⟩ := Prod.mk.inj h
    rfl
  | cons answer plan =>
    cases answer with
    | ok =>
      obtain ⟨-, rfl⟩ := Prod.mk.inj h
      rfl
    | fails written => cases h
    | crash written => cases h

theorem exec_onDisk_eq_ok {α : Type} {x : Op (Io Nat) α} {wal wal' : Wal} {a : α}
    (h : Act.exec (Wal.onDisk x) wal = (.ok a, wal')) :
    ∃ io, Act.exec x wal.io = (.ok a, io) ∧ wal' = { wal with io } := by
  rw [Wal.onDisk, Act.exec_zoom] at h
  cases hexec : Act.exec x wal.io with
  | mk r io =>
    rw [hexec] at h
    cases r with
    | ok b =>
      obtain ⟨hb, rfl⟩ := Prod.mk.inj h
      exact ⟨io, by rw [Except.ok.inj hb], rfl⟩
    | error e => cases h

/-- Written frames are the last bytes of the segment. -/
theorem writePlanned_ends {plan : GroupLoop} {receipts : List (List WalValueRef)} {wal wal' : Wal}
    (h : Act.exec (Wal.writePlanned plan) wal = (.ok receipts, wal')) {file : DurableFile}
    (hfile : wal'.io.disk[wal'.manager.writer.segmentId]? = some file) : plan.bytes <:+ file.bytes := by
  obtain ⟨_, wal₁, -, h⟩ := Act.exec_bind_eq_ok h
  obtain ⟨_, wal₂, -, h⟩ := Act.exec_bind_eq_ok h
  rw [Act.exec_bind_ok (Act.exec_get _)] at h
  obtain ⟨found, wal₃, hreceipts, h⟩ := Act.exec_bind_eq_ok h
  obtain ⟨-, rfl⟩ := Prod.mk.inj hreceipts
  obtain ⟨_, wal₄, hfourth, h⟩ := Act.exec_bind_eq_ok h
  obtain ⟨io₄, happend, rfl⟩ := exec_onDisk_eq_ok hfourth
  obtain ⟨_, wal₅, hfifth, h⟩ := Act.exec_bind_eq_ok h
  obtain ⟨io₅, hsync, rfl⟩ := exec_onDisk_eq_ok hfifth
  obtain ⟨_, wal₆, hmodify, h⟩ := Act.exec_bind_eq_ok h
  obtain ⟨-, rfl⟩ := Prod.mk.inj hmodify
  obtain ⟨-, rfl⟩ := Prod.mk.inj h
  replace hfile : io₅.disk[wal₂.manager.writer.segmentId]? = some file := hfile
  rw [exec_attempt_eq_ok hsync, Disk.get?_update, if_pos rfl] at hfile
  dsimp only at hfile
  rw [exec_attempt_eq_ok happend, Disk.get?_update, if_pos rfl, Option.map_map,
    Option.map_eq_some_iff] at hfile
  obtain ⟨old, -, rfl⟩ := hfile
  exact List.suffix_append _ _

/-- The bytes that an append of one transaction leaves at the end of the segment. -/
theorem appendTransactions_ends {collecting : Bool} {commands : List LogCommand}
    {receipts : List (List WalValueRef)} {wal wal' : Wal}
    (h : Act.exec (Wal.appendTransactions collecting [commands]) wal = (.ok receipts, wal'))
    {file : DurableFile} (hfile : wal'.io.disk[wal'.manager.writer.segmentId]? = some file) :
    ∃ plan, planTransaction collecting ⟨[], wal.manager.writer.nextLsn, []⟩ commands = .ok plan ∧
      plan.bytes <:+ file.bytes := by
  have hone : ¬maxGroupCount < [commands].length := show ¬maxGroupCount < 1 by decide
  rw [Wal.appendTransactions, if_neg (by simp), if_neg hone] at h
  obtain ⟨_, wal₁, hhealthy, h⟩ := Act.exec_bind_eq_ok h
  obtain rfl : wal = wal₁ := by
    by_cases hpoisoned : wal.manager.writer.poisoned = true
    · rw [LogLayout.ensureHealthy_poisoned hpoisoned] at hhealthy
      cases hhealthy
    · rw [LogLayout.ensureHealthy_ok (by simpa using hpoisoned)] at hhealthy
      exact (Prod.mk.inj hhealthy).2
  rw [Act.exec_bind_ok (Act.exec_get _)] at h
  obtain ⟨plan, wal₁, hplan, h⟩ := Act.exec_bind_eq_ok h
  obtain ⟨hplanned, rfl⟩ := Prod.mk.inj hplan
  rw [List.foldlM_cons] at hplanned
  obtain ⟨plan', hstep, hlast⟩ := Exec.bind_eq_ok hplanned
  obtain rfl := Except.ok.inj hlast
  exact ⟨_, hstep, writePlanned_ends h hfile⟩

/-- **Validation matches the encoder.** `validate_batch` accepts a nonempty batch with a size exactly
when the encoder of `append_transactions`, anywhere in a group and with LSNs left, turns its commands
into frames of that many bytes. A successful append leaves these bytes at the end of the segment.
And the append of accepted batches that were drained together stops only at an I/O call, at a
poisoned writer, at the last LSN or at the last segment id. -/
theorem validation_matches_encoder :
    (∀ (operations : List BatchOperation) (first : Nat) (commands : List LogCommand) (last : Nat),
      operations ≠ [] → first < u64Limit → buildCommands first operations = .ok (commands, last) →
      ∀ collecting : Bool,
        (∀ (group : GroupLoop) (size : Nat), group.nextLsn + commands.length + 1 < u64Limit →
          (validateBatch operations = .ok size ↔
            ∃ group', planTransaction collecting group commands = .ok group' ∧
              group'.bytes
                = group.bytes ++ frameBytes ((committedChunk commands).frames group.nextLsn) ∧
              (frameBytes ((committedChunk commands).frames group.nextLsn)).length = size)) ∧
        ∀ (wal wal' : Wal) (receipts : List (List WalValueRef)) (file : DurableFile),
          Act.exec (Wal.appendTransactions collecting [commands]) wal = (.ok receipts, wal') →
          wal'.io.disk[wal'.manager.writer.segmentId]? = some file →
          ∃ bytes, bytes <:+ file.bytes ∧ validateBatch operations = .ok bytes.length ∧
            bytes = frameBytes ((committedChunk commands).frames wal.manager.writer.nextLsn)) ∧
    ∀ (requests : List (List BatchOperation)) (first : Nat) (groups : List (List LogCommand))
      (last : Nat),
      (∀ request ∈ requests, request ≠ [] ∧ ∃ size, validateBatch request = .ok size) →
      requests.length ≤ maxDrainRequests → buildGroups first requests = .ok (groups, last) →
      ∀ (owner : Option CheckpointOwner) (wal wal' : Wal) (halt : Halt),
        Act.exec (Wal.writeEngineTransactions groups owner) wal = (.error halt, wal') →
        AppendFault wal halt := by
  refine ⟨fun operations first commands last hne hfirst hbuild collecting => ?_, ?_⟩
  · obtain ⟨rfl, rfl, hlast⟩ := buildCommands_ok hbuild
    have hrange : InRange (numbered first operations) := fun command hmem =>
      (lsn_numbered hmem).2.1.trans_lt (hlast hfirst)
    have hsize (lsn : Nat) :
        (frameBytes ((committedChunk (numbered first operations)).frames lsn)).length
          = commandsSize (numbered first operations) + 37 := length_frameBytes_chunk _ _
    refine ⟨fun group size hlsn => ?_, fun wal wal' receipts file hexec hfile => ?_⟩
    · rw [validateBatch_iff first, hsize]
      constructor
      · rintro ⟨hfits, rfl⟩
        obtain ⟨-, hplain, -⟩ := acceptedGroup_numbered hne
          ((validateBatch_iff first).mpr ⟨hfits, rfl⟩) first
        have hcommands : numbered first operations ≠ [] := by
          intro hnil
          apply hne
          rw [← List.length_eq_zero_iff, ← length_numbered first, hnil, List.length_nil]
        rcases planTransaction_fits collecting group hcommands hplain hfits with
          ⟨group', hplan⟩ | ⟨hover, -⟩
        · exact ⟨group', hplan, (planTransaction_ok hrange hplan).2.1, rfl⟩
        · omega
      · rintro ⟨group', hplan, -, rfl⟩
        exact ⟨fits_of_planTransaction hplan, rfl⟩
    · obtain ⟨plan, hplan, hends⟩ := appendTransactions_ends hexec hfile
      have hbytes := (planTransaction_ok hrange hplan).2.1
      rw [List.nil_append] at hbytes
      refine ⟨plan.bytes, hends, ?_, hbytes⟩
      rw [hbytes, hsize]
      exact (validateBatch_iff first).mpr ⟨fits_of_planTransaction hplan, rfl⟩
  · intro requests first groups last haccepted hcount hbuild owner wal wal' halt hexec
    obtain ⟨hlength, hmem⟩ := mem_buildGroups hbuild
    have hlimit : maxDrainRequests ≤ maxGroupCount := by decide
    refine writeEngineTransactions_stop (fun commands hcommands => ?_) (by omega) hexec
    obtain ⟨request, hrequest, start, rfl⟩ := hmem commands hcommands
    obtain ⟨hne, size, hsize⟩ := haccepted request hrequest
    exact acceptedGroup_numbered hne hsize start

theorem validation_matches_encoder_onePut :
    (∃ group', planTransaction false ⟨[], 1, []⟩ [⟨.put, [97], [118], 8⟩] = .ok group' ∧
        group'.bytes.length = 101) ∧
      ∀ (wal wal' : Wal) (halt : Halt),
        Act.exec (Wal.writeEngineTransactions [[⟨.put, [97], [118], 8⟩]] none) wal
          = (.error halt, wal') → AppendFault wal halt := by
  have hvalid : validateBatch [.put [97] [118]] = .ok 101 := by decide +kernel
  obtain ⟨hencoder, hgroup⟩ := validation_matches_encoder
  obtain ⟨group', hplan, hbytes, hlength⟩ := ((hencoder [.put [97] [118]] 7
    [⟨.put, [97], [118], 8⟩] 8 (by simp) (by decide) rfl false).1 ⟨[], 1, []⟩ 101 (by decide)).mp
      hvalid
  refine ⟨⟨group', hplan, ?_⟩, fun wal wal' halt hexec => ?_⟩
  · rw [hbytes, List.nil_append]
    exact hlength
  · exact hgroup [[.put [97] [118]]] 7 [[⟨.put, [97], [118], 8⟩]] 8
      (by simp [hvalid]) (by decide) rfl none wal wal' halt hexec

/-- A directory whose only segment has the largest id. -/
def lastSegmentDirectory : OrdMap Nat Bytes :=
  (∅ : OrdMap Nat Bytes).insert (u64Limit - 1) onePutSegment.bytes

/-- In a log that has reached the largest segment id, an accepted batch that does not fit into the
segment is refused, though no I/O call fails, the writer is healthy and LSNs are left. -/
theorem accepted_batch_refused_at_last_segment :
    validateBatch [.put [97] [118]] = .ok 101 ∧
      ∃ manager io,
        Act.exec (WALManager.newInner 64 none false) ⟨.ofContents lastSegmentDirectory, []⟩
            = (.ok manager, io) ∧
          manager.writer.nextLsn = 3 ∧ manager.writer.poisoned = false ∧
          (Act.exec (Wal.writeEngineTransactions [[⟨.put, [97], [118], 8⟩]] none) ⟨io, manager⟩).1
            = .error (.error (.storageError "WAL segment ID exhausted")) := by
  refine ⟨by decide +kernel, ?_⟩
  have hrun : ((Act.exec (WALManager.newInner 64 none false)
      ⟨.ofContents lastSegmentDirectory, []⟩).1.map fun manager =>
        (manager.writer.nextLsn, manager.writer.poisoned,
          (Act.exec (Wal.writeEngineTransactions [[⟨.put, [97], [118], 8⟩]] none)
            ⟨(Act.exec (WALManager.newInner 64 none false)
              ⟨.ofContents lastSegmentDirectory, []⟩).2, manager⟩).1))
        = .ok (3, false, .error (.error (.storageError "WAL segment ID exhausted"))) := by
    decide +kernel
  cases hopen : Act.exec (WALManager.newInner 64 none false)
      ⟨.ofContents lastSegmentDirectory, []⟩ with
  | mk outcome io =>
    rw [hopen] at hrun
    obtain ⟨manager, rfl, hfields⟩ := Exec.map_eq_ok hrun
    obtain ⟨hlsn, hrest⟩ := Prod.mk.inj hfields
    obtain ⟨hpoisoned, hwrite⟩ := Prod.mk.inj hrest
    exact ⟨manager, io, rfl, hlsn, hpoisoned, hwrite⟩

end CereDB.Storage

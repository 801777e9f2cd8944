import CereDB.Proofs.ManifestCodec

/-!
# `CereDB.Proofs.Manifest`: manifest operations under failing appends

`ManifestCall` lists the operations that append to the manifest. `call_spec` says what one call
does: it returns and applies its entry to the file and to the snapshot in memory, or it fails and
changes neither, provided a failed append left no byte behind and no file id is the largest one.

`manifest_run_atomic` is the consequence for every run of such calls, from any file that loads:
the snapshot in memory is the fold of the entries of the calls that returned, and reopening the
file gives that snapshot. Without the condition it fails: the append is not rolled back, so an
entry whose sync failed comes back at the next open, and a torn entry makes every later open
fail (`failed_append_diverges`).
-/

set_option autoImplicit false

namespace CereDB.Storage

open CereDB.Lib

/-- A call of one of the operations that append to the manifest. -/
inductive ManifestCall where
  | register (table : SSTableMeta)
  | remove (level fileId : Nat)
  | publishCompaction (expected : ManifestSnapshot) (inputs outputs : List SSTableMeta)
  | markCheckpoint (checkpointLsn activeWalSegment : Nat)
  | publishRecovery (position : RecoveryCheckpoint)

namespace ManifestCall

open ManifestManager

/-- The operation a call runs. -/
def run (outcome : AppendOutcome) : ManifestCall → Op ManifestManager Unit
  | register table => registerSstable outcome table
  | remove level fileId => removeSstable outcome level fileId
  | publishCompaction expected inputs outputs =>
    ManifestManager.publishCompaction outcome expected inputs outputs
  | markCheckpoint checkpointLsn activeWalSegment =>
    ManifestManager.markCheckpoint outcome checkpointLsn activeWalSegment
  | publishRecovery position => publishRecoveryCheckpoint outcome position

/-- The entry a call appends. -/
def entry : ManifestCall → ManifestEntry
  | register table => .add table
  | remove level fileId => .remove level fileId
  | publishCompaction _ inputs outputs =>
    .compaction (inputs.map fun table => (table.level, table.fileId)) outputs
  | markCheckpoint checkpointLsn activeWalSegment => .checkpoint checkpointLsn activeWalSegment
  | publishRecovery position => .recovery position

end ManifestCall

namespace ManifestManager

/-- An append that returns leaves the whole entry, one that fails cleanly leaves nothing. -/
def AppendOutcome.Clean (outcome : AppendOutcome) : Prop := outcome = .ok ∨ outcome = .fails 0

end ManifestManager

open ManifestManager

/-- What a call may do to the manager: it returns and applies its entry to the file and to the
snapshot, or it fails and changes neither. -/
def Atomic (entry : ManifestEntry) (before : ManifestManager)
    (result : Except Halt Unit × ManifestManager) : Prop :=
  (∃ bytes, entry.encode = .ok bytes ∧ result.1 = .ok () ∧
    result.2.file = before.file ++ bytes ∧
    result.2.snapshot = before.snapshot.applyEntry entry) ∨
  (∃ e, result.1 = .error e ∧ result.2.file = before.file ∧
    result.2.snapshot = before.snapshot)

@[simp] theorem exec_modifyState (f : ManifestState → ManifestState) (m : ManifestManager) :
    Act.exec (modifyState f) m = (.ok (), { m with state := f m.state }) := rfl

/-- A call that stops before the append changes nothing. -/
theorem atomic_of_error (entry : ManifestEntry) (manager : ManifestManager) (e : Halt) :
    Atomic entry manager (.error e, manager) :=
  .inr ⟨e, rfl, rfl, rfl⟩

/-- The append followed by a change of the state in memory that matches the entry. -/
theorem append_atomic {entry : ManifestEntry} {bytes : Bytes} {outcome : AppendOutcome}
    {commit : Op ManifestManager Unit} (hentry : entry.encode = .ok bytes)
    (hclean : outcome.Clean)
    (hcommit : ∀ m : ManifestManager, ∃ state, Act.exec commit m = (.ok (), { m with state }) ∧
      state.snapshot = m.snapshot.applyEntry entry) (manager : ManifestManager) :
    Atomic entry manager (Act.exec (do appendManifestEntry outcome bytes; commit) manager) := by
  rcases hclean with rfl | rfl
  · have happend : Act.exec (appendManifestEntry .ok bytes) manager
        = (.ok (), { manager with file := manager.file ++ bytes }) := rfl
    obtain ⟨state, hexec, hsnapshot⟩ := hcommit { manager with file := manager.file ++ bytes }
    rw [Act.exec_bind_ok happend, hexec]
    exact .inl ⟨bytes, hentry, rfl, rfl, hsnapshot⟩
  · have happend : Act.exec (appendManifestEntry (.fails 0) bytes) manager
        = (.error (.error (.io .other)), { manager with file := manager.file ++ bytes.take 0 }) :=
      rfl
    rw [Act.exec_bind_error happend, List.take_zero, List.append_nil]
    exact .inr ⟨_, rfl, rfl, rfl⟩

/-- The outputs of a compaction in memory. -/
theorem exec_applyOutputs {outputs : List SSTableMeta} (h : ∀ table ∈ outputs, table.InRange)
    (m : ManifestManager) :
    ∃ state, Act.exec (applyOutputs outputs) m = (.ok (), { m with state }) ∧
      state.snapshot = outputs.foldl ManifestSnapshot.addTable m.snapshot := by
  induction outputs generalizing m with
  | nil => exact ⟨m.state, rfl, rfl⟩
  | cons table outputs ih =>
    have hnext : Act.exec (Act.ofExcept (nextId table.fileId) : Op ManifestManager Nat) m
        = (.ok (table.fileId + 1), m) := by
      rw [Act.exec_ofExcept, nextId_of_inRange (h table List.mem_cons_self)]
    obtain ⟨state, hexec, hsnapshot⟩ := ih (fun t ht => h t (List.mem_cons_of_mem table ht))
      { m with state := { m.state with
        nextFileId := max m.state.nextFileId (table.fileId + 1)
        levels := m.state.levels.add table } }
    refine ⟨state, ?_, hsnapshot⟩
    rw [applyOutputs, Act.exec_bind_ok hnext]
    exact hexec

/-- One call is atomic, provided a failed append left no byte behind and no file id is the
largest one. -/
theorem call_atomic {call : ManifestCall} {outcome : AppendOutcome}
    (hrange : call.entry.InRange) (hclean : outcome.Clean) (manager : ManifestManager) :
    Atomic call.entry manager (Act.exec (call.run outcome) manager) := by
  cases call with
  | register table =>
    show Atomic _ manager (Act.exec (registerSstable outcome table) manager)
    rw [registerSstable]
    cases hpayload : encodeAddPayload table with
    | error e => exact atomic_of_error _ manager e
    | ok payload =>
      cases hentry : encodeEntry entryKindAdd payload with
      | error e =>
        rw [Act.exec_bind_ok (Act.exec_ofExcept _ _),
          Act.exec_bind_error (by rw [Act.exec_ofExcept, hentry])]
        exact atomic_of_error _ manager e
      | ok bytes =>
        rw [Act.exec_bind_ok (Act.exec_ofExcept _ _),
          Act.exec_bind_ok (by rw [Act.exec_ofExcept, hentry])]
        refine append_atomic ?_ hclean (fun m => ?_) manager
        · show (encodeAddPayload table >>= encodeEntry entryKindAdd) = .ok bytes
          rw [hpayload]
          exact hentry
        · have hlt : table.fileId + 1 < u64Limit := hrange.fileId
          rw [Act.exec_bind_ok (exec_modifyState _ _), Act.exec_bind_ok (Act.exec_get _)]
          simp only [checkedAdd, if_pos hlt]
          split
          · rename_i hid
            refine ⟨_, rfl, ?_⟩
            have hmax : max m.state.nextFileId (table.fileId + 1) = table.fileId + 1 := by
              change m.state.nextFileId ≤ table.fileId at hid
              omega
            simp only [ManifestManager.snapshot, ManifestState.snapshot,
              ManifestCall.entry, ManifestSnapshot.applyEntry, ManifestSnapshot.addTable, hmax]
          · rename_i hid
            refine ⟨_, rfl, ?_⟩
            have hmax : max m.state.nextFileId (table.fileId + 1) = m.state.nextFileId := by
              change ¬ m.state.nextFileId ≤ table.fileId at hid
              omega
            simp only [ManifestManager.snapshot, ManifestState.snapshot,
              ManifestCall.entry, ManifestSnapshot.applyEntry, ManifestSnapshot.addTable, hmax]
  | remove level fileId =>
    show Atomic _ manager (Act.exec (removeSstable outcome level fileId) manager)
    rw [removeSstable]
    cases hentry : encodeEntry entryKindRemove (encodeRemovePayload (level, fileId)) with
    | error e => exact atomic_of_error _ manager e
    | ok bytes =>
      have hencode : (ManifestEntry.remove level fileId).encode = .ok bytes := hentry
      rw [Act.exec_bind_ok (Act.exec_ofExcept _ _)]
      exact append_atomic hencode hclean (fun m => ⟨_, rfl, rfl⟩) manager
  | publishCompaction expected inputs outputs =>
    show Atomic _ manager
      (Act.exec (ManifestManager.publishCompaction outcome expected inputs outputs) manager)
    rw [ManifestManager.publishCompaction, Act.exec_bind_ok (Act.exec_get manager)]
    by_cases hchanged : manager.state.levels.toList ≠ expected.levels.toList
    · simp only [if_pos hchanged]
      exact atomic_of_error _ manager _
    · simp only [if_neg hchanged]
      cases hentry : encodeCompactionEntry
          (inputs.map fun table => (table.level, table.fileId)) outputs with
      | error e => exact atomic_of_error _ manager e
      | ok bytes =>
        have hencode : (ManifestEntry.compaction
            (inputs.map fun table => (table.level, table.fileId)) outputs).encode = .ok bytes :=
          hentry
        rw [Act.exec_bind_ok (Act.exec_ofExcept _ _)]
        refine append_atomic hencode hclean (fun m => ?_) manager
        rw [Act.exec_bind_ok (exec_modifyState _ _)]
        exact exec_applyOutputs hrange.2 { m with state := applyRemovals m.state _ }
  | markCheckpoint checkpointLsn activeWalSegment =>
    show Atomic _ manager
      (Act.exec (ManifestManager.markCheckpoint outcome checkpointLsn activeWalSegment) manager)
    rw [ManifestManager.markCheckpoint]
    cases hentry : encodeEntry entryKindCheckpoint
        (encodeCheckpointPayload checkpointLsn activeWalSegment) with
    | error e => exact atomic_of_error _ manager e
    | ok bytes =>
      have hencode : (ManifestEntry.checkpoint checkpointLsn activeWalSegment).encode
          = .ok bytes := hentry
      rw [Act.exec_bind_ok (Act.exec_ofExcept _ _)]
      exact append_atomic hencode hclean (fun m => ⟨_, rfl, rfl⟩) manager
  | publishRecovery position =>
    show Atomic _ manager (Act.exec (publishRecoveryCheckpoint outcome position) manager)
    rw [publishRecoveryCheckpoint]
    cases hentry : encodeEntry entryKindRecoveryCheckpoint (encodeRecoveryPayload position) with
    | error e => exact atomic_of_error _ manager e
    | ok bytes =>
      have hencode : (ManifestEntry.recovery position).encode = .ok bytes := hentry
      rw [Act.exec_bind_ok (Act.exec_ofExcept _ _)]
      exact append_atomic hencode hclean (fun m => ⟨_, rfl, rfl⟩) manager

/-! ### Runs -/

/-- The manager after a run of calls, each with the outcome of its append. -/
def runCalls (manager : ManifestManager) (calls : List (ManifestCall × AppendOutcome)) :
    ManifestManager :=
  calls.foldl (fun m call => (Act.exec (call.1.run call.2) m).2) manager

/-- The entries of the calls of a run that returned. -/
def committed : ManifestManager → List (ManifestCall × AppendOutcome) → List ManifestEntry
  | _, [] => []
  | manager, call :: calls =>
    match Act.exec (call.1.run call.2) manager with
    | (.ok (), next) => call.1.entry :: committed next calls
    | (.error _, next) => committed next calls

/-- The calls of a run that the manifest handles: no file id is the largest one, and a failed
append left no byte behind. -/
def CleanRun (calls : List (ManifestCall × AppendOutcome)) : Prop :=
  ∀ call ∈ calls, call.1.entry.InRange ∧ call.2.Clean

/-- Reopening the file gives the snapshot in memory. -/
def Reopens (manager : ManifestManager) : Prop :=
  ∃ reopened, loadOrCreate manager.file = .ok reopened ∧ reopened.snapshot = manager.snapshot

/-- A manager reopens exactly when its file replays to its snapshot. -/
theorem reopens_iff {manager : ManifestManager} : Reopens manager ↔
    ∃ state, Replays .default manager.file state ∧ state.snapshot = manager.snapshot := by
  constructor
  · rintro ⟨reopened, hload, hsnapshot⟩
    obtain ⟨state, hreplay, hload⟩ := Exec.bind_eq_ok hload
    obtain rfl := Except.ok.inj hload
    exact ⟨state, replayManifest_eq_ok_iff.mp hreplay, hsnapshot⟩
  · rintro ⟨state, hreplay, hsnapshot⟩
    refine ⟨{ state, file := manager.file }, ?_, hsnapshot⟩
    rw [loadOrCreate, replayManifest_eq_ok_iff.mpr hreplay]
    rfl

theorem reopens_of_load {file : Bytes} {manager : ManifestManager}
    (h : loadOrCreate file = .ok manager) : Reopens manager := by
  obtain ⟨state, hreplay, hload⟩ := Exec.bind_eq_ok h
  obtain rfl := Except.ok.inj hload
  exact reopens_iff.mpr ⟨state, replayManifest_eq_ok_iff.mp hreplay, rfl⟩

/-- One atomic call keeps the file in step with the snapshot. -/
theorem reopens_of_atomic {entry : ManifestEntry} {manager : ManifestManager}
    {result : Except Halt Unit × ManifestManager} (hrange : entry.InRange)
    (hreopens : Reopens manager) (h : Atomic entry manager result) : Reopens result.2 := by
  obtain ⟨state, hreplay, hsnapshot⟩ := reopens_iff.mp hreopens
  rw [reopens_iff]
  rcases h with ⟨bytes, hbytes, -, hfile, hafter⟩ | ⟨e, -, hfile, hafter⟩
  · obtain ⟨last, hlast, happlied⟩ := hreplay.snoc hrange hbytes
    rw [hfile, hafter]
    exact ⟨last, hlast, by rw [happlied, hsnapshot]⟩
  · rw [hfile, hafter]
    exact ⟨state, hreplay, hsnapshot⟩

/-- The snapshot after a clean run is the fold of the entries of the calls that returned, and
the file still reopens to it. -/
theorem run_clean {calls : List (ManifestCall × AppendOutcome)} (hclean : CleanRun calls)
    {manager : ManifestManager} (hreopens : Reopens manager) :
    (runCalls manager calls).snapshot
        = (committed manager calls).foldl ManifestSnapshot.applyEntry manager.snapshot ∧
      Reopens (runCalls manager calls) := by
  induction calls generalizing manager with
  | nil => exact ⟨rfl, hreopens⟩
  | cons call calls ih =>
    obtain ⟨hrange, hcall⟩ := hclean call List.mem_cons_self
    have hatomic := call_atomic hrange hcall manager
    have hnext := reopens_of_atomic hrange hreopens hatomic
    obtain ⟨hfold, hlast⟩ := ih (fun c hc => hclean c (List.mem_cons_of_mem call hc)) hnext
    refine ⟨?_, hlast⟩
    show (runCalls (Act.exec (call.1.run call.2) manager).2 calls).snapshot = _
    rw [hfold, committed]
    rcases hatomic with ⟨bytes, -, hok, -, hafter⟩ | ⟨e, herror, -, hafter⟩
    · generalize Act.exec (call.1.run call.2) manager = result at hok hafter
      obtain ⟨r, next⟩ := result
      obtain rfl : r = .ok () := hok
      show List.foldl _ next.snapshot _ = List.foldl _ _ (call.1.entry :: committed next calls)
      rw [List.foldl_cons]
      exact congrArg (fun snapshot => List.foldl _ snapshot _) hafter
    · generalize Act.exec (call.1.run call.2) manager = result at herror hafter
      obtain ⟨r, next⟩ := result
      obtain rfl : r = .error e := herror
      exact congrArg (fun snapshot => List.foldl _ snapshot _) hafter

/-- From any file that loads, after every run of calls in which no failed append left a byte
behind and no file id is the largest one: the snapshot in memory is the fold of the entries of
the calls that returned `Ok`; reopening the file gives that snapshot; and a further such call
that returns `Err` leaves it unchanged. -/
theorem manifest_run_atomic {file : Bytes} {manager : ManifestManager}
    (hload : loadOrCreate file = .ok manager) {calls : List (ManifestCall × AppendOutcome)}
    (hclean : CleanRun calls) :
    (runCalls manager calls).snapshot
        = (committed manager calls).foldl ManifestSnapshot.applyEntry manager.snapshot ∧
      (∃ reopened, loadOrCreate (runCalls manager calls).file = .ok reopened ∧
        reopened.snapshot = (runCalls manager calls).snapshot) ∧
      ∀ (call : ManifestCall) (outcome : AppendOutcome) (e : Halt), call.entry.InRange →
        outcome.Clean →
        (Act.exec (call.run outcome) (runCalls manager calls)).1 = .error e →
        (Act.exec (call.run outcome) (runCalls manager calls)).2.snapshot
          = (runCalls manager calls).snapshot := by
  obtain ⟨hfold, hreopens⟩ := run_clean hclean (reopens_of_load hload)
  refine ⟨hfold, hreopens, fun call outcome e hrange hcall herror => ?_⟩
  rcases call_atomic hrange hcall (runCalls manager calls) with ⟨_, -, hok, -, -⟩ | ⟨_, -, -, h⟩
  · rw [herror] at hok
    cases hok
  · exact h

/-- A table for the runs below. -/
def sampleTable : SSTableMeta where
  fileId := 1
  level := 0
  path := "1.dat"
  recordCount := 1
  smallestKey := [97]
  largestKey := [97]
  bloomOffset := 90
  bloomSize := 44

/-- A registration that returns and one whose append fails cleanly: the reopened manifest has
the snapshot in memory. -/
theorem manifest_run_atomic_sample :
    loadOrCreate [] = .ok { state := .default, file := [] } ∧
      CleanRun [(.register sampleTable, .ok), (.remove 0 1, .fails 0)] ∧
      ∃ reopened, loadOrCreate (runCalls { state := .default, file := [] }
          [(.register sampleTable, .ok), (.remove 0 1, .fails 0)]).file = .ok reopened ∧
        reopened.snapshot = (runCalls { state := .default, file := [] }
          [(.register sampleTable, .ok), (.remove 0 1, .fails 0)]).snapshot := by
  have hload : loadOrCreate [] = .ok { state := .default, file := [] } := rfl
  have hrange : sampleTable.InRange :=
    ⟨by decide, by decide, by decide, by decide, by decide⟩
  have hclean : CleanRun [(.register sampleTable, .ok), (.remove 0 1, .fails 0)] := by
    intro call hcall
    rcases List.mem_cons.mp hcall with rfl | hcall
    · exact ⟨hrange, .inl rfl⟩
    · rw [List.mem_singleton.mp hcall]
      exact ⟨⟨by decide, by decide⟩, .inr rfl⟩
  exact ⟨hload, hclean, (manifest_run_atomic hload hclean).2.1⟩

/-- Failed appends that left bytes behind. A registration whose sync failed after the whole
entry was written returns `Err` and is not in memory, but the table is there after a reopen. A
registration torn after three bytes, followed by one that returns `Ok`, leaves a file that no
longer opens, so the table that was registered successfully is lost. -/
theorem failed_append_diverges :
    ((Act.exec (registerSstable (.fails 200) sampleTable) { state := .default, file := [] }).1
        = .error (.error (.io .other)) ∧
      (Act.exec (registerSstable (.fails 200) sampleTable)
        { state := .default, file := [] }).2.state.levels.toList = [] ∧
      (loadOrCreate (Act.exec (registerSstable (.fails 200) sampleTable)
        { state := .default, file := [] }).2.file).map (fun m => m.state.levels.toList)
        = .ok [(toLex (0, 1), sampleTable)]) ∧
    ((Act.exec (do
          tryCatch (registerSstable (.fails 3) sampleTable) fun _ => pure ()
          registerSstable .ok sampleTable) { state := .default, file := [] }).1 = .ok () ∧
      (loadOrCreate (Act.exec (do
          tryCatch (registerSstable (.fails 3) sampleTable) fun _ => pure ()
          registerSstable .ok sampleTable) { state := .default, file := [] }).2.file).map
        (fun m => m.state.levels.toList)
        = .error (.error (.corrupted "truncated manifest entry payload"))) := by
  decide +kernel

end CereDB.Storage

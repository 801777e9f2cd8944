import CereDB.Proofs.Manifest

/-!
# `CereDB.Proofs.ManifestReplay`: the manifest file against the state in memory

A `ManifestRun` is a new manifest and the operations on it, all of which return. `InStep` is the
invariant: the file replays to the tables, the WAL segment and the checkpoint in memory. File ids
are handed out without being written, so the replayed counter may be behind the one in memory, but
it is ahead of every id that was registered.

A file that is cut is replayed only when it is cut between two entries (`Replays.cut`), because an
entry is not decoded from a part of its bytes. So what a prefix replays to is what the file replayed
to after some of the operations.
-/

set_option autoImplicit false

namespace CereDB.Storage

open CereDB.Lib ManifestManager

/-! ### Snapshots up to the id counter -/

/-- Two snapshots that differ at most in the id counter. -/
structure ManifestSnapshot.SameTables (a b : ManifestSnapshot) : Prop where
  version : a.version = b.version
  activeWalSegment : a.activeWalSegment = b.activeWalSegment
  recoveryCheckpoint : a.recoveryCheckpoint = b.recoveryCheckpoint
  levels : a.levels = b.levels

/-- The ids of the tables an entry adds. -/
def ManifestEntry.newIds : ManifestEntry → List Nat
  | .add table => [table.fileId]
  | .compaction _ outputs => outputs.map SSTableMeta.fileId
  | .remove _ _ | .checkpoint _ _ | .recovery _ => []

namespace ManifestSnapshot

variable {a b : ManifestSnapshot}

theorem SameTables.addTable (h : a.SameTables b) (table : SSTableMeta) :
    (a.addTable table).SameTables (b.addTable table) := by
  refine ⟨h.version, h.activeWalSegment, h.recoveryCheckpoint, ?_⟩
  show a.levels.add table = b.levels.add table
  rw [h.levels]

theorem SameTables.addTables (h : a.SameTables b) (tables : List SSTableMeta) :
    (tables.foldl ManifestSnapshot.addTable a).SameTables
      (tables.foldl ManifestSnapshot.addTable b) := by
  induction tables generalizing a b with
  | nil => exact h
  | cons table tables ih => exact ih (h.addTable table)

theorem SameTables.removeAll (h : a.SameTables b) (removals : List (Nat × Nat)) :
    (a.removeAll removals).SameTables (b.removeAll removals) := by
  refine ⟨h.version, h.activeWalSegment, h.recoveryCheckpoint, ?_⟩
  show removals.foldl _ a.levels = removals.foldl _ b.levels
  rw [h.levels]

/-- An entry does the same to both. -/
theorem SameTables.applyEntry (h : a.SameTables b) (entry : ManifestEntry) :
    (a.applyEntry entry).SameTables (b.applyEntry entry) := by
  cases entry with
  | add table => exact h.addTable table
  | remove level fileId => exact h.removeAll [(level, fileId)]
  | checkpoint checkpointLsn activeWalSegment =>
    exact ⟨h.version, rfl, h.recoveryCheckpoint, h.levels⟩
  | recovery position => exact ⟨h.version, rfl, rfl, h.levels⟩
  | compaction removals outputs => exact (h.removeAll removals).addTables outputs

/-- The counter after several tables. -/
theorem nextFileId_addTables (tables : List SSTableMeta) (a : ManifestSnapshot) :
    (tables.foldl ManifestSnapshot.addTable a).nextFileId
      = (tables.map fun table => table.fileId + 1).foldl max a.nextFileId := by
  induction tables generalizing a with
  | nil => rfl
  | cons table tables ih =>
    rw [List.foldl_cons, ih]
    rfl

/-- The counter after an entry: it grows to stand behind the new ids. -/
theorem nextFileId_applyEntry (a : ManifestSnapshot) (entry : ManifestEntry) :
    (a.applyEntry entry).nextFileId = (entry.newIds.map (· + 1)).foldl max a.nextFileId := by
  cases entry with
  | compaction removals outputs =>
    show (outputs.foldl ManifestSnapshot.addTable (a.removeAll removals)).nextFileId = _
    rw [nextFileId_addTables, ManifestEntry.newIds, List.map_map]
    rfl
  | add table => rfl
  | remove level fileId => rfl
  | checkpoint checkpointLsn activeWalSegment => rfl
  | recovery position => rfl

theorem foldl_max_le {start bound : Nat} {ns : List Nat} :
    ns.foldl max start ≤ bound ↔ start ≤ bound ∧ ∀ n ∈ ns, n ≤ bound := by
  induction ns generalizing start with
  | nil => simp
  | cons n ns ih => simp [ih, and_assoc]

theorem nextFileId_applyEntry_le {entry : ManifestEntry} {bound : Nat} :
    (a.applyEntry entry).nextFileId ≤ bound ↔
      a.nextFileId ≤ bound ∧ ∀ id ∈ entry.newIds, id < bound := by
  rw [nextFileId_applyEntry, foldl_max_le]
  simp

/-- The counter does not go back, and stands behind the new ids. -/
theorem le_nextFileId_applyEntry (a : ManifestSnapshot) (entry : ManifestEntry) :
    a.nextFileId ≤ (a.applyEntry entry).nextFileId ∧
      ∀ id ∈ entry.newIds, id < (a.applyEntry entry).nextFileId :=
  nextFileId_applyEntry_le.mp le_rfl

end ManifestSnapshot

/-! ### Cutting the file -/

/-- Replay is deterministic. -/
theorem Replays.unique {state last last' : ManifestState} {data : Bytes}
    (h : Replays state data last) (h' : Replays state data last') : last = last' := by
  rw [← replayFrom_eq_ok_iff le_rfl] at h h'
  exact Except.ok.inj (h.symm.trans h')

/-- What is behind a part that replays is replayed from there. -/
theorem Replays.split {state middle last : ManifestState} {data more : Bytes}
    (hfirst : Replays state data middle) (h : Replays state (data ++ more) last) :
    Replays middle more last := by
  induction hfirst with
  | nil state => exact h
  | @entry state next middle data payload rest kind hdecode hentry _ ih =>
    have hlong := decodeEntry_append hdecode more
    apply ih
    generalize hwhole : data ++ more = whole at h hlong
    cases h with
    | nil => cases hlong
    | entry hdecode' hentry' hrest' =>
      -- both decode the same first entry
      obtain ⟨rfl, rfl, rfl⟩ : _ = _ ∧ _ = _ ∧ _ = _ := by
        simpa using Except.ok.inj (hdecode'.symm.trans hlong)
      obtain rfl := Except.ok.inj (hentry'.symm.trans hentry)
      exact hrest'

/-- A file with one more entry, cut anywhere: what is left replays only without that entry or with
all of it. -/
theorem Replays.cut {state middle last : ManifestState} {data bytes part payload : Bytes}
    {kind : UInt8} (hfirst : Replays state data middle)
    (hdecode : decodeEntry bytes = .ok (kind, payload, [])) (hpart : part <+: data ++ bytes)
    (h : Replays state part last) : part <+: data ∨ part = data ++ bytes := by
  rcases List.prefix_or_prefix_of_prefix hpart (List.prefix_append data bytes) with
    hshort | ⟨tail, rfl⟩
  · exact .inl hshort
  · have htail := (List.prefix_append_right_inj data).mp hpart
    have hrest := hfirst.split h
    cases hrest with
    | nil => exact .inl (by rw [List.append_nil])
    | entry hdecode' hentry' hrest' =>
      -- the entry was decoded from a part of its bytes, so the part is all of them
      obtain ⟨more, rfl⟩ := htail
      have hsame := Except.ok.inj ((decodeEntry_append hdecode' more).symm.trans hdecode)
      simp only [Prod.mk.injEq, List.append_eq_nil_iff] at hsame
      rw [hsame.2.2.2, List.append_nil]
      exact .inr rfl

/-! ### Runs -/

/-- An operation on the manifest. -/
inductive ManifestOp where
  | allocate
  | call (call : ManifestCall)

/-- The numbers are values of the integer types of the source. -/
structure SSTableMeta.WellTyped (table : SSTableMeta) : Prop where
  level : table.level < 256 ^ 4
  fileId : table.fileId < 256 ^ 8
  recordCount : table.recordCount < 256 ^ 8
  bloomOffset : table.bloomOffset < 256 ^ 8
  bloomSize : table.bloomSize < 256 ^ 8

/-- The numbers of an operation are values of their integer types. -/
def ManifestOp.WellTyped : ManifestOp → Prop
  | .allocate => True
  | .call (.register table) => table.WellTyped
  | .call (.remove level fileId) => level < 256 ^ 4 ∧ fileId < 256 ^ 8
  | .call (.publishCompaction _ inputs outputs) =>
    (∀ table ∈ inputs, table.WellTyped) ∧ ∀ table ∈ outputs, table.WellTyped
  | .call (.markCheckpoint checkpointLsn activeWalSegment) =>
    checkpointLsn < 256 ^ 8 ∧ activeWalSegment < 256 ^ 8
  | .call (.publishRecovery position) => position.replayStartSegment < 256 ^ 8 ∧
      position.nextPhysicalLsn < 256 ^ 8 ∧ position.committedSequence < 256 ^ 8

/-- A manifest, the ids it has handed out and the ids that were registered. -/
structure ManifestRun where
  manager : ManifestManager
  allocated : List Nat
  registered : List Nat

namespace ManifestRun

/-- A new manifest. -/
def start : ManifestRun :=
  { manager := { state := .default, file := [] }, allocated := [], registered := [] }

/-- The run after one more operation that returned. New tables carry ids that were handed out. -/
def next (run : ManifestRun) : ManifestOp → Option ManifestRun
  | .allocate =>
    match Act.exec allocateFileId run.manager with
    | (.ok fileId, manager) => some { run with manager, allocated := run.allocated ++ [fileId] }
    | (.error _, _) => none
  | .call call =>
    if ∀ id ∈ call.entry.newIds, id ∈ run.allocated then
      match Act.exec (call.run .ok) run.manager with
      | (.ok _, manager) => some { run with
          manager, registered := run.registered ++ call.entry.newIds }
      | (.error _, _) => none
    else none

/-- The run of a list of operations that all returned. -/
def ofOps (ops : List ManifestOp) : Option ManifestRun := ops.foldlM next start

theorem ofOps_concat (ops : List ManifestOp) (op : ManifestOp) :
    ofOps (ops ++ [op]) = (ofOps ops).bind fun run => run.next op := by
  rw [ofOps, List.foldlM_append]
  show ((ofOps ops).bind fun run => (run.next op).bind some) = _
  simp

/-- The file replays to what is in memory, up to the id counter. -/
structure InStep (run : ManifestRun) (replayed : ManifestState) : Prop where
  replays : Replays .default run.manager.file replayed
  same : replayed.snapshot.SameTables run.manager.snapshot
  registered : ∀ id ∈ run.registered, id < replayed.nextFileId
  behind : replayed.nextFileId ≤ run.manager.state.nextFileId
  allocated : ∀ id ∈ run.allocated, id < run.manager.state.nextFileId
  limit : run.manager.state.nextFileId < u64Limit

theorem inStep_start : InStep start .default where
  replays := .nil _
  same := ⟨rfl, rfl, rfl, rfl⟩
  registered := fun _ hid => absurd hid List.not_mem_nil
  behind := le_rfl
  allocated := fun _ hid => absurd hid List.not_mem_nil
  limit := by decide

theorem InStep.allocate {run run' : ManifestRun} {replayed : ManifestState}
    (h : InStep run replayed) (hnext : run.next .allocate = some run') :
    InStep run' replayed ∧ run'.manager.file = run.manager.file := by
  rw [ManifestRun.next, allocateFileId, Act.exec_bind_ok (Act.exec_get _)] at hnext
  cases hadd : checkedAdd run.manager.state.nextFileId 1 with
  | none =>
    simp only [hadd] at hnext
    cases hnext
  | some next =>
    simp only [hadd] at hnext
    rw [Act.exec_bind_ok (exec_modifyState _ _)] at hnext
    obtain rfl := Option.some.inj hnext
    rw [checkedAdd] at hadd
    split at hadd
    · rename_i hlimit
      obtain rfl := Option.some.inj hadd
      have hsame : replayed.snapshot.SameTables run.manager.snapshot := h.same
      refine ⟨⟨h.replays, ⟨hsame.version, hsame.activeWalSegment, hsame.recoveryCheckpoint,
        hsame.levels⟩, h.registered, h.behind.trans (Nat.le_succ _), ?_, hlimit⟩, rfl⟩
      intro id hid
      rcases List.mem_append.mp hid with hold | hnew
      · exact (h.allocated id hold).trans (Nat.lt_succ_self _)
      · rw [List.mem_singleton.mp hnew]
        exact Nat.lt_succ_self _
    · cases hadd

/-- An operation on tables whose ids were handed out writes an entry that is in range. -/
theorem InStep.inRange {run : ManifestRun} {replayed : ManifestState} (h : InStep run replayed)
    {call : ManifestCall} (htyped : (ManifestOp.call call).WellTyped)
    (hids : ∀ id ∈ call.entry.newIds, id ∈ run.allocated) : call.entry.InRange := by
  have htable : ∀ table : SSTableMeta, table.WellTyped → table.fileId ∈ run.allocated →
      table.InRange := by
    intro table ht hid
    exact ⟨ht.level, lt_of_le_of_lt (h.allocated _ hid) h.limit, ht.recordCount, ht.bloomOffset,
      ht.bloomSize⟩
  cases call with
  | register table => exact htable table htyped (hids _ (List.mem_singleton_self _))
  | remove level fileId => exact htyped
  | publishCompaction expected inputs outputs =>
    refine ⟨?_, ?_⟩
    · intro removal hremoval
      obtain ⟨table, hmem, rfl⟩ := List.mem_map.mp hremoval
      exact ⟨(htyped.1 table hmem).level, (htyped.1 table hmem).fileId⟩
    · intro table hmem
      exact htable table (htyped.2 table hmem) (hids _ (List.mem_map_of_mem hmem))
  | markCheckpoint checkpointLsn activeWalSegment => exact htyped
  | publishRecovery position => exact htyped

/-- What an operation that writes an entry does to the file and to the replayed state. -/
theorem InStep.call {run run' : ManifestRun} {replayed : ManifestState} (h : InStep run replayed)
    {call : ManifestCall} (htyped : (ManifestOp.call call).WellTyped)
    (hnext : run.next (.call call) = some run') :
    ∃ replayed' bytes kind payload, InStep run' replayed' ∧
      run'.manager.file = run.manager.file ++ bytes ∧
      decodeEntry bytes = .ok (kind, payload, []) := by
  rw [ManifestRun.next] at hnext
  split at hnext
  · rename_i hids
    have hrange := h.inRange htyped hids
    have hatomic := call_atomic hrange (.inl rfl) run.manager
    split at hnext
    · rename_i manager hexec
      obtain rfl := Option.some.inj hnext
      rw [hexec] at hatomic
      rcases hatomic with ⟨bytes, hbytes, -, hfile, hafter⟩ | ⟨e, herror, -, -⟩
      · obtain ⟨replayed', hreplays, happlied⟩ := h.replays.snoc hrange hbytes
        obtain ⟨kind, payload, hdecode, -⟩ := replay_entry hrange hbytes
        have hone := hdecode []
        rw [List.append_nil] at hone
        have hlive : manager.state.nextFileId = run.manager.state.nextFileId := by
          refine le_antisymm ?_ ?_
          · show manager.snapshot.nextFileId ≤ _
            rw [hafter, ManifestSnapshot.nextFileId_applyEntry_le]
            exact ⟨le_rfl, fun id hid => h.allocated id (hids id hid)⟩
          · have hgrown := run.manager.snapshot.le_nextFileId_applyEntry call.entry
            rw [← hafter] at hgrown
            exact hgrown.1
        have hgrown := replayed.snapshot.le_nextFileId_applyEntry call.entry
        rw [← happlied] at hgrown
        refine ⟨replayed', bytes, kind, payload, ⟨?_, ?_, ?_, ?_, ?_, ?_⟩, hfile, hone⟩
        · rw [hfile]
          exact hreplays
        · rw [hafter, happlied]
          exact h.same.applyEntry call.entry
        · intro id hid
          rcases List.mem_append.mp hid with hold | hnew
          · exact (h.registered id hold).trans_le hgrown.1
          · exact hgrown.2 id hnew
        · show replayed'.snapshot.nextFileId ≤ manager.state.nextFileId
          rw [happlied, hlive, ManifestSnapshot.nextFileId_applyEntry_le]
          exact ⟨h.behind, fun id hid => h.allocated id (hids id hid)⟩
        · intro id hid
          rw [hlive]
          exact h.allocated id hid
        · rw [hlive]
          exact h.limit
      · cases herror
    · cases hnext
  · cases hnext

/-- After every operation the file is in step. Cut anywhere, it fails to replay, or it replays to
what it replayed to after the operations so far or after fewer. -/
structure Replayable (ops : List ManifestOp) (run : ManifestRun) : Prop where
  inStep : ∃ replayed, InStep run replayed
  prefixes : ∀ part, part <+: run.manager.file → ∀ state, replayManifest part = .ok state →
    ∃ count earlier, count ≤ ops.length ∧ ofOps (ops.take count) = some earlier ∧
      part = earlier.manager.file ∧ InStep earlier state

theorem replayable_of_ofOps {ops : List ManifestOp} (htyped : ∀ op ∈ ops, op.WellTyped)
    {run : ManifestRun} (hrun : ofOps ops = some run) : Replayable ops run := by
  induction ops using List.reverseRecOn generalizing run with
  | nil =>
    obtain rfl := Option.some.inj hrun
    refine ⟨⟨_, inStep_start⟩, ?_⟩
    intro part hpart state hstate
    obtain rfl := List.prefix_nil.mp hpart
    obtain rfl := Except.ok.inj hstate
    exact ⟨0, start, le_rfl, rfl, rfl, inStep_start⟩
  | append_singleton ops op ih =>
    have hlast := hrun
    rw [ofOps_concat, Option.bind_eq_some_iff] at hrun
    obtain ⟨before, hbefore, hnext⟩ := hrun
    have hearlier := ih (fun o ho => htyped o (List.mem_append_left _ ho)) hbefore
    obtain ⟨replayed, hinStep⟩ := hearlier.inStep
    -- what was cut before the last entry is covered by the operations before
    have hshorter : ∀ part, part <+: before.manager.file → ∀ state,
        replayManifest part = .ok state → ∃ count earlier, count ≤ (ops ++ [op]).length ∧
          ofOps ((ops ++ [op]).take count) = some earlier ∧ part = earlier.manager.file ∧
            InStep earlier state := by
      intro part hpart state hstate
      obtain ⟨count, earlier, hcount, hofOps, hfile⟩ := hearlier.prefixes part hpart state hstate
      refine ⟨count, earlier, ?_, ?_, hfile⟩
      · rw [List.length_append]
        omega
      · rw [List.take_append_of_le_length hcount]
        exact hofOps
    cases op with
    | allocate =>
      obtain ⟨hafter, hfile⟩ := hinStep.allocate hnext
      refine ⟨⟨replayed, hafter⟩, ?_⟩
      rw [hfile]
      exact hshorter
    | call call =>
      obtain ⟨replayed', bytes, kind, payload, hafter, hfile, hdecode⟩ :=
        hinStep.call (htyped _ (by simp)) hnext
      refine ⟨⟨replayed', hafter⟩, ?_⟩
      intro part hpart state hstate
      have hreplays := replayManifest_eq_ok_iff.mp hstate
      rw [hfile] at hpart
      rcases hinStep.replays.cut hdecode hpart hreplays with hshort | hwhole
      · exact hshorter part hshort state hstate
      · rw [← hfile] at hwhole
        subst hwhole
        obtain rfl := hreplays.unique hafter.replays
        exact ⟨_, run, le_rfl, by rw [List.take_length]; exact hlast, rfl, hafter⟩

end ManifestRun

open ManifestRun

/-- After every sequence of operations on a new manifest that all return, the file replays to the
levels, the WAL segment and the checkpoint in memory, with an id counter behind every registered id
and not ahead of the one in memory. Every prefix of the file fails to replay, or replays to the
levels, the segment and the checkpoint in memory after some number of the operations. -/
theorem manifest_replay_exact (ops : List ManifestOp) (htyped : ∀ op ∈ ops, op.WellTyped)
    (run : ManifestRun) (hrun : ManifestRun.ofOps ops = some run) :
    (∃ state, replayManifest run.manager.file = .ok state ∧
      state.levels = run.manager.state.levels ∧
      state.activeWalSegment = run.manager.state.activeWalSegment ∧
      state.recoveryCheckpoint = run.manager.state.recoveryCheckpoint ∧
      (∀ id ∈ run.registered, id < state.nextFileId) ∧
      state.nextFileId ≤ run.manager.state.nextFileId) ∧
    ∀ part, part <+: run.manager.file →
      (∃ halt, replayManifest part = .error halt) ∨
      ∃ state count earlier, replayManifest part = .ok state ∧ count ≤ ops.length ∧
        ManifestRun.ofOps (ops.take count) = some earlier ∧ part = earlier.manager.file ∧
        state.levels = earlier.manager.state.levels ∧
        state.activeWalSegment = earlier.manager.state.activeWalSegment ∧
        state.recoveryCheckpoint = earlier.manager.state.recoveryCheckpoint := by
  obtain ⟨⟨replayed, hinStep⟩, hprefixes⟩ := replayable_of_ofOps htyped hrun
  constructor
  · exact ⟨replayed, replayManifest_eq_ok_iff.mpr hinStep.replays, hinStep.same.levels,
      hinStep.same.activeWalSegment, hinStep.same.recoveryCheckpoint, hinStep.registered,
      hinStep.behind⟩
  · intro part hpart
    cases hreplay : replayManifest part with
    | error halt => exact .inl ⟨halt, rfl⟩
    | ok state =>
      obtain ⟨count, earlier, hcount, hofOps, hfile, hsame⟩ := hprefixes part hpart state hreplay
      exact .inr ⟨state, count, earlier, rfl, hcount, hofOps, hfile, hsame.same.levels,
        hsame.same.activeWalSegment, hsame.same.recoveryCheckpoint⟩

/-- A registration, a compaction into two tables and a checkpoint. -/
def sampleOps : List ManifestOp :=
  [.allocate, .call (.register sampleTable), .allocate, .allocate, .allocate,
    .call (.publishCompaction
      { version := 1, nextFileId := 5, activeWalSegment := 0, recoveryCheckpoint := none,
        levels := (∅ : Levels).add sampleTable } [sampleTable]
      [{ sampleTable with fileId := 2, level := 1 }, { sampleTable with fileId := 3, level := 1 }]),
    .call (.publishRecovery ⟨2, 7, 5⟩)]

/-- They all return, one of the ids stays unused, and the replayed counter is behind the one in
memory. -/
theorem manifest_replay_exact_sample :
    ∃ run, ManifestRun.ofOps sampleOps = some run ∧ run.manager.state.nextFileId = 5 ∧
      run.registered = [1, 2, 3] ∧
      ∃ state, replayManifest run.manager.file = .ok state ∧ state.nextFileId ≤ 5 ∧
        state.recoveryCheckpoint = some ⟨2, 7, 5⟩ := by
  have htable : ∀ fileId level : Nat, fileId < 256 ^ 8 → level < 256 ^ 4 →
      ({ sampleTable with fileId, level } : SSTableMeta).WellTyped := by
    intro fileId level hid hlevel
    exact ⟨hlevel, hid, show sampleTable.recordCount < 256 ^ 8 by decide,
      show sampleTable.bloomOffset < 256 ^ 8 by decide,
      show sampleTable.bloomSize < 256 ^ 8 by decide⟩
  have htyped : ∀ op ∈ sampleOps, op.WellTyped := by
    simp only [sampleOps, List.forall_mem_cons, List.not_mem_nil, false_implies, implies_true,
      ManifestOp.WellTyped, true_and, and_true]
    refine ⟨htable 1 0 (by decide) (by decide), ⟨htable 1 0 (by decide) (by decide),
      htable 2 1 (by decide) (by decide), htable 3 1 (by decide) (by decide)⟩, by decide⟩
  have hsome : (ManifestRun.ofOps sampleOps).isSome = true := by decide +kernel
  obtain ⟨run, hrun⟩ := Option.isSome_iff_exists.mp hsome
  have hdata : (ManifestRun.ofOps sampleOps).map (fun run => (run.manager.state.nextFileId,
      run.registered, run.manager.state.recoveryCheckpoint)) = some (5, [1, 2, 3], some ⟨2, 7, 5⟩) := by
    decide +kernel
  rw [hrun, Option.map_some, Option.some.injEq, Prod.mk.injEq, Prod.mk.injEq] at hdata
  obtain ⟨⟨state, hreplay, -, -, hcheckpoint, -, hbehind⟩, -⟩ :=
    manifest_replay_exact sampleOps htyped run hrun
  exact ⟨run, hrun, hdata.1, hdata.2.1, state, hreplay, hdata.1 ▸ hbehind,
    hcheckpoint.trans hdata.2.2⟩

end CereDB.Storage

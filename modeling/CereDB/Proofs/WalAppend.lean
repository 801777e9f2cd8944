import CereDB.Proofs.WalRecovery

/-!
# `CereDB.Proofs.WalAppend`: what an open log does

`planTransactions_ok` says what `append_transactions` encodes: one committed chunk for each group,
with consecutive LSNs. `appendTransactions_spec` and `rotateWalFile_spec` say how the calls change
an open log: they append these chunks to the newest segment or to a new one, or they are rejected
and change nothing, or they stop on the way and leave a log whose newest segment file is a start
of what it should be. `recoverRecords_spec` gives the records of an open log.
-/

set_option autoImplicit false

namespace CereDB.Storage

open CereDB.Lib

/-! ### Planning -/

/-- The chunk a transaction becomes. -/
def committedChunk (commands : List LogCommand) : Chunk := ⟨commands, true⟩

/-- The LSNs of commands are `u64`. -/
def InRange (commands : List LogCommand) : Prop := ∀ command ∈ commands, command.lsn < u64Limit

theorem encodeFrame_update_ok {frame : Frame} {bytes : Bytes} (h : encodeFrame frame = .ok bytes) :
    bytes = frame.bytes ∧ frame.record.tooLarge = false := by
  unfold encodeFrame at h
  split at h
  · cases h
  · split at h
    · cases h
    · rename_i hsmall _
      exact ⟨(Except.ok.inj h).symm, by simpa using hsmall⟩

/-- A round of the loop over the commands appends one update frame. -/
theorem planUpdate_ok {collecting : Bool} {id start : Nat} {loop loop' : UpdateLoop}
    {command : LogCommand} (hlsn : command.lsn < u64Limit)
    (h : planUpdate collecting id start loop command = .ok loop') :
    command.Loggable ∧
      loop'.bytes = loop.bytes ++ Frame.bytes ⟨loop.nextLsn, id, loop.previousLsn, .update command⟩ ∧
      loop'.nextLsn = loop.nextLsn + 1 ∧ loop'.previousLsn = loop.nextLsn ∧
      loop'.nextLsn < u64Limit := by
  unfold planUpdate at h
  split at h
  · cases h
  rename_i hdelete
  split at h
  · cases h
  obtain ⟨frame, hframe, h⟩ := Exec.bind_eq_ok h
  obtain ⟨rfl, hsmall⟩ := encodeFrame_update_ok hframe
  dsimp only at h
  split at h
  · cases h
  split at h
  · cases h
  rename_i nextLsn hnext
  unfold checkedAdd at hnext
  split at hnext
  · rename_i hlt
    cases hnext
    cases h
    refine ⟨⟨?_, ?_, hlsn⟩, rfl, rfl, rfl, hlt⟩
    · intro htype
      by_contra hvalue
      exact hdelete ⟨htype, hvalue⟩
    · simpa [TransactionRecord.tooLarge] using hsmall
  · cases hnext

/-- The loop over the commands appends their update frames. -/
theorem planUpdates_ok {collecting : Bool} {id start : Nat} {commands : List LogCommand}
    {loop loop' : UpdateLoop} (hlsn : InRange commands)
    (h : commands.foldlM (planUpdate collecting id start) loop = .ok loop') :
    (∀ command ∈ commands, command.Loggable) ∧
      loop'.bytes = loop.bytes ++ frameBytes (updateFrames id loop.previousLsn loop.nextLsn commands) ∧
      loop'.nextLsn = loop.nextLsn + commands.length ∧
      (commands ≠ [] → loop'.previousLsn = loop.nextLsn + commands.length - 1) := by
  induction commands generalizing loop with
  | nil =>
    cases h
    simp [updateFrames]
  | cons command commands ih =>
    rw [List.foldlM_cons] at h
    obtain ⟨loop₁, hstep, h⟩ := Exec.bind_eq_ok h
    obtain ⟨hloggable, hbytes, hnext, hprevious, -⟩ :=
      planUpdate_ok (hlsn command List.mem_cons_self) hstep
    obtain ⟨hall, hbytes', hnext', hprevious'⟩ :=
      ih (fun c hc => hlsn c (List.mem_cons_of_mem _ hc)) h
    refine ⟨?_, ?_, ?_, fun _ => ?_⟩
    · intro c hc
      rw [List.mem_cons] at hc
      cases hc with
      | inl heq => rw [heq]; exact hloggable
      | inr hmem => exact hall c hmem
    · rw [hbytes', hbytes, hnext, hprevious, updateFrames, frameBytes_cons, List.append_assoc]
    · rw [hnext', hnext, List.length_cons]
      omega
    · cases commands with
      | nil =>
        cases h
        rw [hprevious, List.length_singleton]
        omega
      | cons c cs =>
        rw [hprevious' (by simp), hnext]
        simp only [List.length_cons]
        omega

/-- A round of the loop over the transactions appends one committed chunk. -/
theorem planTransaction_ok {collecting : Bool} {commands : List LogCommand}
    {group group' : GroupLoop} (hlsn : InRange commands)
    (h : planTransaction collecting group commands = .ok group') :
    (committedChunk commands).Valid ∧
      group'.bytes = group.bytes ++ frameBytes ((committedChunk commands).frames group.nextLsn) ∧
      group'.nextLsn = group.nextLsn + (committedChunk commands).count ∧
      group'.nextLsn < u64Limit := by
  unfold planTransaction at h
  split at h
  · cases h
  rename_i hne
  obtain ⟨loop, hloop, h⟩ := Exec.bind_eq_ok h
  obtain ⟨hloggable, hbytes, hnext, hprevious⟩ := planUpdates_ok hlsn hloop
  obtain ⟨commit, hcommit, h⟩ := Exec.bind_eq_ok h
  obtain ⟨rfl, -⟩ := encodeFrame_update_ok hcommit
  dsimp only at h hbytes hnext hprevious
  split at h
  · cases h
  split at h
  · cases h
  rename_i nextLsn hadd
  unfold checkedAdd at hadd
  split at hadd
  · rename_i hlt
    cases hadd
    cases h
    refine ⟨⟨hne, hloggable⟩, ?_, ?_, hlt⟩
    · simp only [hbytes, hnext, hprevious hne, Chunk.frames, committedChunk, Chunk.commitFrame,
        if_true, frameBytes_append, frameBytes_cons, frameBytes_nil, List.append_nil,
        List.append_assoc]
    · simp only [hnext, Chunk.count, committedChunk, if_true]
      omega
  · cases hadd

/-- The plan of a group of transactions: one committed chunk for each. -/
theorem planTransactions_ok {collecting : Bool} {groups : List (List LogCommand)}
    {group plan : GroupLoop} (hlsn : ∀ commands ∈ groups, InRange commands)
    (h : groups.foldlM (planTransaction collecting) group = .ok plan) :
    (∀ chunk ∈ groups.map committedChunk, chunk.Valid) ∧
      plan.bytes = group.bytes ++ frameBytes (chunkFrames group.nextLsn (groups.map committedChunk)) ∧
      plan.nextLsn = group.nextLsn + chunkCount (groups.map committedChunk) ∧
      (group.nextLsn < u64Limit → plan.nextLsn < u64Limit) := by
  induction groups generalizing group with
  | nil =>
    cases h
    simp [chunkFrames]
  | cons commands groups ih =>
    rw [List.foldlM_cons] at h
    obtain ⟨group₁, hstep, h⟩ := Exec.bind_eq_ok h
    obtain ⟨hvalid, hbytes, hnext, hlt⟩ :=
      planTransaction_ok (hlsn commands List.mem_cons_self) hstep
    obtain ⟨hall, hbytes', hnext', hlt'⟩ := ih (fun c hc => hlsn c (List.mem_cons_of_mem _ hc)) h
    refine ⟨?_, ?_, ?_, fun _ => hlt' hlt⟩
    · intro chunk hchunk
      rw [List.map_cons, List.mem_cons] at hchunk
      cases hchunk with
      | inl heq => rw [heq]; exact hvalid
      | inr hmem => exact hall chunk hmem
    · rw [hbytes', hbytes, hnext, List.map_cons, chunkFrames, frameBytes_append, List.append_assoc]
    · rw [hnext', hnext, List.map_cons, chunkCount_cons]
      omega

/-- Without receipts nothing is planned for later. -/
theorem planned_skip {groups : List (List LogCommand)} {group plan : GroupLoop}
    (h : groups.foldlM (planTransaction false) group = .ok plan) : plan.planned = group.planned := by
  induction groups generalizing group with
  | nil =>
    cases h
    rfl
  | cons commands groups ih =>
    rw [List.foldlM_cons] at h
    obtain ⟨group₁, hstep, h⟩ := Exec.bind_eq_ok h
    rw [ih h]
    unfold planTransaction at hstep
    split at hstep
    · cases hstep
    obtain ⟨loop, -, hstep⟩ := Exec.bind_eq_ok hstep
    obtain ⟨commit, -, hstep⟩ := Exec.bind_eq_ok hstep
    dsimp only at hstep
    split at hstep
    · cases hstep
    split at hstep
    · cases hstep
    · cases hstep
      rfl

/-! ### An open log -/

instance : Planned Wal := ⟨fun wal => wal.io.plan⟩

namespace LogLayout

/-- The log after a rotation. -/
def rotated (l : LogLayout) : LogLayout :=
  { l with sealed := l.sealed ++ [l.newest], newest := ⟨l.newest.next, []⟩ }

/-- The log with more chunks in the newest segment. -/
def appended (l : LogLayout) (chunks : List Chunk) : LogLayout :=
  { l with newest := ⟨l.newest.first, l.newest.chunks ++ chunks⟩ }

theorem active_rotated (l : LogLayout) : l.rotated.active = l.active + 1 := by
  simp [LogLayout.active, rotated, Nat.add_assoc]

theorem nextLsn_append (first : Nat) (segments : List SegmentLog) (s : SegmentLog) :
    nextLsn first (segments ++ [s]) = s.next := by
  induction segments generalizing first with
  | nil => rfl
  | cons t segments ih => exact ih t.next

theorem Valid.rotated {l : LogLayout} (h : l.Valid) (hactive : l.active + 1 < u64Limit) :
    l.rotated.Valid where
  segments s hs := by
    have hnext := h.newest.next
    rw [LogLayout.segments, LogLayout.rotated, List.mem_append, List.mem_singleton] at hs
    cases hs with
    | inl hmem => exact h.segments s hmem
    | inr heq =>
      subst heq
      refine ⟨by simp, ?_, by simpa [SegmentLog.next] using hnext⟩
      show 0 < l.newest.next
      have hpos := h.newest.positive
      rw [SegmentLog.next]
      omega
  linked := by
    refine Linked.append.mpr ⟨h.linked, ?_, trivial⟩
    exact (nextLsn_append _ _ _).symm
  active := by rw [active_rotated]; exact hactive

theorem bytes_appended (l : LogLayout) (chunks : List Chunk) :
    (l.appended chunks).newest.bytes
      = l.newest.bytes ++ frameBytes (chunkFrames l.newest.next chunks) := by
  simp only [appended, SegmentLog.bytes, chunkFrames_append, frameBytes_append, List.append_assoc]
  rfl

theorem next_appended (l : LogLayout) (chunks : List Chunk) :
    (l.appended chunks).newest.next = l.newest.next + chunkCount chunks := by
  simp [appended, SegmentLog.next, Nat.add_assoc]

theorem Valid.appended {l : LogLayout} (h : l.Valid) {chunks : List Chunk}
    (hchunks : ∀ chunk ∈ chunks, chunk.Valid)
    (hnext : l.newest.next + chunkCount chunks < u64Limit) : (l.appended chunks).Valid := by
  refine h.with_newest ⟨?_, h.newest.positive, ?_⟩ rfl
  · intro chunk hchunk
    rw [List.mem_append] at hchunk
    exact hchunk.elim (h.newest.chunks chunk) (hchunks chunk)
  · have hsum := l.next_appended chunks
    rw [LogLayout.appended] at hsum
    rw [hsum]
    exact hnext

/-- An open log, apart from whether the writer is poisoned. -/
structure Open (l : LogLayout) (file : DurableFile) (wal : Wal) : Prop where
  valid : l.Valid
  stored : l.Stored wal.io.disk file
  whole : file.bytes = l.newest.bytes
  segmentId : wal.manager.writer.segmentId = l.active
  size : wal.manager.writer.size = l.newest.bytes.length
  nextLsn : wal.manager.writer.nextLsn = l.newest.next

/-- What appends and rotations leave alone: who owns the checkpoints, the last checkpoint, and the
files below the floor. -/
structure Untouched (l : LogLayout) (wal wal' : Wal) : Prop where
  manager : ∃ writer, wal'.manager = { wal.manager with writer }
  checkpoint : wal'.manager.writer.checkpoint = wal.manager.writer.checkpoint
  below : ∀ id, id < l.floor → wal'.io.disk[id]? = wal.io.disk[id]?

theorem Untouched.refl (l : LogLayout) (wal : Wal) : l.Untouched wal wal :=
  ⟨⟨_, rfl⟩, rfl, fun _ _ => rfl⟩

/-- A change of the writer that keeps the checkpoint. -/
theorem Untouched.with_writer {l : LogLayout} {wal wal' : Wal} (h : l.Untouched wal wal')
    {writer : WriterState} (hcheckpoint : writer.checkpoint = wal'.manager.writer.checkpoint) :
    l.Untouched wal { wal' with manager := { wal'.manager with writer } } where
  manager := by
    obtain ⟨old, hold⟩ := h.manager
    refine ⟨writer, ?_⟩
    show ({ wal'.manager with writer } : WALManager) = _
    rw [hold]
  checkpoint := hcheckpoint.trans h.checkpoint
  below := h.below

/-- A call that stopped on the way, because of a fault or for the reason `R`. The writer is
poisoned, and the directory holds the log from before, or a start of the log the call was to
leave. -/
structure Stopped (C R : Prop) (l target : LogLayout) (file : DurableFile) (wal : Wal)
    (halt : Halt) (wal' : Wal) : Prop where
  poisoned : wal'.manager.writer.poisoned = true
  untouched : l.Untouched wal wal'
  left : ∃ l' file', (l' = l ∧ l.active < target.active ∨ l' = target) ∧ l'.Valid ∧
    l'.Stored wal'.io.disk file' ∧
    (l'.active = l.active → file.bytes <+: file'.bytes ∧ file.synced ≤ file'.synced)
  cause : ¬C ∧ IoFault halt ∨ R

/-- A change of the newest segment and its file keeps the rest of the log. -/
theorem Stored.insert {l : LogLayout} {disk : Disk Nat} {file file' : DurableFile}
    (h : l.Stored disk file) {s : SegmentLog} (hpre : file'.bytes <+: s.bytes) :
    ({ l with newest := s } : LogLayout).Stored (disk.insert l.active file') file' where
  sealed i s hs := by
    obtain ⟨f, hf, hrest⟩ := h.sealed i s hs
    have hlt : i < l.sealed.length := (List.getElem?_eq_some_iff.mp hs).1
    have hne : ¬l.active = l.floor + i := by
      rw [LogLayout.active]
      omega
    refine ⟨f, ?_, hrest⟩
    rw [OrdMap.get?_insert, if_neg hne, hf]
  newest := by simp [LogLayout.active]
  isPrefix := hpre
  beyond id hid := by
    have hid' : l.active < id := hid
    rw [OrdMap.get?_insert, if_neg (by omega)]
    exact h.beyond id hid

/-- A new segment file behind a whole and durable one. -/
theorem Stored.rotated {l : LogLayout} {disk : Disk Nat} {file file' : DurableFile}
    (h : l.Stored disk file) (hwhole : file.bytes = l.newest.bytes)
    (hsynced : file.synced = file.bytes.length) (hpre : file'.bytes <+: l.rotated.newest.bytes) :
    l.rotated.Stored (disk.insert (l.active + 1) file') file' where
  sealed i s hs := by
    rw [LogLayout.rotated] at hs
    have hlt : i < (l.sealed ++ [l.newest]).length := (List.getElem?_eq_some_iff.mp hs).1
    have hne : ¬l.active + 1 = l.rotated.floor + i := by
      rw [List.length_append, List.length_singleton] at hlt
      simp only [LogLayout.active, LogLayout.rotated]
      omega
    rw [OrdMap.get?_insert, if_neg hne]
    by_cases hold : i < l.sealed.length
    · rw [List.getElem?_append_left hold] at hs
      exact h.sealed i s hs
    · -- The segment that was the newest one.
      have hi : i = l.sealed.length := by
        rw [List.length_append, List.length_singleton] at hlt
        omega
      subst hi
      rw [List.getElem?_append_right le_rfl, Nat.sub_self] at hs
      cases hs
      exact ⟨file, h.newest, hwhole, hsynced⟩
  newest := by simp [active_rotated]
  isPrefix := hpre
  beyond id hid := by
    rw [active_rotated] at hid
    rw [OrdMap.get?_insert, if_neg (by omega)]
    exact h.beyond id (by omega)

/-- A computation on the directory of an open log. -/
theorem onDisk_spec {C : Prop} {α : Type} {x : Op (Io Nat) α} {wal : Wal} {Q : α → Wal → Prop}
    {E : Halt → Wal → Prop}
    (hx : Spec C (· = wal.io) x (fun a io => Q a { wal with io }) fun e io => E e { wal with io }) :
    Spec C (· = wal) (Wal.onDisk x) Q E :=
  Spec.zoom hx rfl (fun _ => rfl) rfl (fun _ _ h => h) fun _ _ h => h

section
variable {C : Prop} {l : LogLayout} {file : DurableFile} {wal : Wal}

/-- The directory changed only at or above the floor. -/
theorem Untouched.of_io {io : Io Nat}
    (hbelow : ∀ id, id < l.floor → io.disk[id]? = wal.io.disk[id]?) :
    l.Untouched wal { wal with io } :=
  ⟨⟨_, rfl⟩, rfl, hbelow⟩

/-- A rotation seals the newest segment and starts an empty one. -/
theorem rotateLocked_spec (h : l.Open file wal) (hpoisoned : wal.manager.writer.poisoned = true) :
    Spec C (· = wal) Wal.rotateLocked
      (fun _ wal' => ∃ file', l.rotated.Open file' wal' ∧ l.Untouched wal wal' ∧
        wal'.manager.writer.poisoned = true ∧ file'.synced = file'.bytes.length)
      (Stopped C (u64Limit ≤ l.active + 1) l l.rotated file wal) := by
  have hfloor : l.floor ≤ l.active := Nat.le_add_right _ _
  have hgrows : l = l ∧ l.active < l.rotated.active := ⟨rfl, by rw [active_rotated]; omega⟩
  refine Spec.step (t := wal) (Act.exec_get wal) rfl ?_
  rw [h.segmentId]
  refine Spec.bind (Q := fun _ wal' => ∃ plan, wal'
      = { wal with io := ⟨wal.io.disk.insert l.active file.sync, plan⟩ })
    (onDisk_spec (Spec.sync h.stored.newest (fun plan => ⟨plan, rfl⟩) fun e plan hC he =>
      ⟨hpoisoned, .of_io fun _ _ => rfl, ⟨l, file, .inl hgrows, h.valid, h.stored,
        fun _ => ⟨List.prefix_rfl, le_rfl⟩⟩, .inl ⟨hC, he⟩⟩))
    fun _ => Spec.fix ?_
  rintro _ ⟨plan, rfl⟩
  have hstored : l.Stored (wal.io.disk.insert l.active file.sync) file.sync :=
    h.stored.insert (by rw [DurableFile.bytes_sync, h.whole])
  have hbelow : ∀ id, id < l.floor →
      (wal.io.disk.insert l.active file.sync)[id]? = wal.io.disk[id]? := by
    intro id hid
    rw [OrdMap.get?_insert, if_neg (by omega)]
  have hold : l.active = l.active → file.bytes <+: file.sync.bytes ∧
      file.synced ≤ file.sync.synced := fun _ => ⟨List.prefix_rfl, file.synced_le⟩
  unfold checkedAdd
  by_cases hid : l.active + 1 < u64Limit
  · rw [if_pos hid]
    dsimp only
    have hnew : (wal.io.disk.insert l.active file.sync)[l.active + 1]? = none :=
      hstored.beyond _ (Nat.lt_succ_self _)
    have hbelow' (f : DurableFile) : ∀ id, id < l.floor →
        ((wal.io.disk.insert l.active file.sync).insert (l.active + 1) f)[id]?
          = wal.io.disk[id]? := by
      intro id hid
      rw [OrdMap.get?_insert, if_neg (by omega)]
      exact hbelow id hid
    have hheader : l.rotated.newest.bytes = WALHeader.default.encode := by
      simp [LogLayout.rotated, SegmentLog.bytes, chunkFrames]
    refine Spec.bind (Q := fun _ wal' => ∃ file' plan', wal' = { wal with io :=
          ⟨(wal.io.disk.insert l.active file.sync).insert (l.active + 1) file', plan'⟩ } ∧
        file'.bytes = l.rotated.newest.bytes ∧ file'.synced = file'.bytes.length)
      (onDisk_spec ((createSegment_spec hnew).conseq (fun _ h => h) ?_ ?_)) fun _ => Spec.fix ?_
    · rintro _ ⟨_, plan'⟩ ⟨file', rfl, hbytes, hsynced⟩
      exact ⟨file', plan', rfl, by rw [hbytes, hheader], hsynced⟩
    · rintro e ⟨_, plan'⟩ ⟨hC, he, rfl | ⟨file', rfl, hpre⟩⟩
      · exact ⟨hpoisoned, .of_io hbelow, ⟨l, file.sync, .inl hgrows, h.valid, hstored, hold⟩,
          .inl ⟨hC, he⟩⟩
      · refine ⟨hpoisoned, .of_io (hbelow' file'), ⟨l.rotated, file', .inr rfl,
          h.valid.rotated hid, ?_, fun heq => ?_⟩, .inl ⟨hC, he⟩⟩
        · exact hstored.rotated h.whole rfl (by rw [hheader]; exact hpre)
        · rw [active_rotated] at heq
          omega
    · rintro _ ⟨file', plan', rfl, hbytes, hsynced⟩
      refine Spec.done (Act.exec_modify _ _) rfl ⟨file', ?_, ⟨⟨_, rfl⟩, rfl, hbelow' file'⟩, hpoisoned,
        hsynced⟩
      refine ⟨h.valid.rotated hid, hstored.rotated h.whole rfl (by rw [hbytes]), hbytes,
        (active_rotated l).symm, ?_, ?_⟩
      · rw [hheader, WALHeader.length_encode]
      · show wal.manager.writer.nextLsn = _
        rw [h.nextLsn]
        simp [LogLayout.rotated, SegmentLog.next]
  · rw [if_neg hid]
    refine Spec.throw ?_
    rintro _ rfl
    exact ⟨hpoisoned, .of_io hbelow, ⟨l, file.sync, .inl hgrows, h.valid, hstored, hold⟩,
      .inr (Nat.le_of_not_lt hid)⟩

/-- An open log with a healthy writer. -/
structure Live (l : LogLayout) (file : DurableFile) (wal : Wal) : Prop extends l.Open file wal where
  healthy : wal.manager.writer.poisoned = false

theorem ensureHealthy_ok {wal : Wal} (h : wal.manager.writer.poisoned = false) :
    Act.exec Wal.ensureHealthy wal = (.ok (), wal) := by
  simp [Wal.ensureHealthy, Act.exec_bind, h]

theorem ensureHealthy_poisoned {wal : Wal} (h : wal.manager.writer.poisoned = true) :
    Act.exec Wal.ensureHealthy wal = (.error (.error (.storageError
      "WAL write interrupted or failed; reopen before reuse")), wal) := by
  simp [Wal.ensureHealthy, Act.exec_bind, h]

theorem Live.ensureHealthy (h : l.Live file wal) :
    Act.exec Wal.ensureHealthy wal = (.ok (), wal) := ensureHealthy_ok h.healthy

/-- A writer that is marked poisoned before it writes. -/
def poison (wal : Wal) : Wal :=
  { wal with manager := { wal.manager with writer := { wal.manager.writer with poisoned := true } } }

theorem Open.poison (h : l.Open file wal) : l.Open file (poison wal) :=
  ⟨h.valid, h.stored, h.whole, h.segmentId, h.size, h.nextLsn⟩

theorem Stopped.of_poison {R : Prop} {target : LogLayout} {halt : Halt} {wal' : Wal}
    (h : Stopped C R l target file (poison wal) halt wal') :
    Stopped C R l target file wal halt wal' :=
  ⟨h.poisoned, ⟨h.untouched.manager, h.untouched.checkpoint, h.untouched.below⟩, h.left, h.cause⟩

/-- `rotate_wal_file` on an open log. -/
theorem rotateWalFile_spec (h : l.Live file wal) :
    Spec C (· = wal) Wal.rotateWalFile
      (fun id wal' => id = l.rotated.active ∧ ∃ file', l.rotated.Live file' wal' ∧
        l.Untouched wal wal' ∧ file'.synced = file'.bytes.length)
      (Stopped C (u64Limit ≤ l.active + 1) l l.rotated file wal) := by
  refine Spec.step h.ensureHealthy rfl (Spec.step (t := poison wal) rfl rfl ?_)
  refine Spec.bind ((rotateLocked_spec h.toOpen.poison rfl).conseq (fun _ h => h) (fun _ _ h => h)
    fun _ _ hstop => hstop.of_poison) fun _ => Spec.fix ?_
  rintro wal₁ ⟨file', hopen, huntouched, -, hsynced⟩
  refine Spec.step (Act.exec_modify _ _) rfl (Spec.step (Act.exec_get _) rfl (Spec.pure ?_))
  rintro _ rfl
  have huntouched' : l.Untouched wal wal₁ :=
    ⟨huntouched.manager, huntouched.checkpoint, huntouched.below⟩
  exact ⟨hopen.segmentId, file', ⟨⟨hopen.valid, hopen.stored, hopen.whole, hopen.segmentId,
    hopen.size, hopen.nextLsn⟩, rfl⟩, huntouched'.with_writer rfl, hsynced⟩

/-- The segment that takes the chunks is a new one. -/
def Rotates (l : LogLayout) (maxSegmentSize : Nat) (chunks : List Chunk) : Prop :=
  walHeaderSize < l.newest.bytes.length ∧
    maxSegmentSize < saturatingAdd l.newest.bytes.length (chunksSize chunks)

instance (l : LogLayout) (maxSegmentSize : Nat) (chunks : List Chunk) :
    Decidable (l.Rotates maxSegmentSize chunks) :=
  inferInstanceAs (Decidable (_ ∧ _))

/-- The log whose newest segment takes the chunks. -/
def beforeAppend (l : LogLayout) (maxSegmentSize : Nat) (chunks : List Chunk) : LogLayout :=
  if l.Rotates maxSegmentSize chunks then l.rotated else l

/-- The log after an append. -/
def afterAppend (l : LogLayout) (maxSegmentSize : Nat) (chunks : List Chunk) : LogLayout :=
  (l.beforeAppend maxSegmentSize chunks).appended chunks

theorem rotateIfFull_spec (h : l.Open file wal) (hpoisoned : wal.manager.writer.poisoned = true)
    (chunks : List Chunk) :
    Spec C (· = wal) (Wal.rotateIfFull (chunksSize chunks))
      (fun _ wal' => ∃ file', (l.beforeAppend wal.manager.maxSegmentSize chunks).Open file' wal' ∧
        l.Untouched wal wal' ∧ wal'.manager.writer.poisoned = true ∧
        ((l.beforeAppend wal.manager.maxSegmentSize chunks).active = l.active → file' = file))
      (Stopped C (u64Limit ≤ l.active + 1) l
        (l.beforeAppend wal.manager.maxSegmentSize chunks) file wal) := by
  refine Spec.step (t := wal) (Act.exec_get wal) rfl ?_
  dsimp only
  rw [h.size]
  unfold beforeAppend
  by_cases hrotates : l.Rotates wal.manager.maxSegmentSize chunks
  · have hfull : walHeaderSize < l.newest.bytes.length ∧ wal.manager.maxSegmentSize
        < saturatingAdd l.newest.bytes.length (chunksSize chunks) := hrotates
    rw [if_pos hfull, if_pos hrotates]
    refine (rotateLocked_spec h hpoisoned).conseq (fun _ h => h) ?_ fun _ _ h => h
    rintro _ wal' ⟨file', hopen, huntouched, hpoisoned', -⟩
    refine ⟨file', hopen, huntouched, hpoisoned', fun hactive => ?_⟩
    rw [active_rotated] at hactive
    omega
  · have hfits : ¬(walHeaderSize < l.newest.bytes.length ∧ wal.manager.maxSegmentSize
        < saturatingAdd l.newest.bytes.length (chunksSize chunks)) := hrotates
    rw [if_neg hfits, if_neg hrotates]
    refine Spec.pure ?_
    rintro _ rfl
    exact ⟨file, h, .refl l _, hpoisoned, fun _ => rfl⟩

/-- A log that is to grow further is stored by the same files. -/
theorem Stored.appended {disk : Disk Nat} (h : l.Stored disk file) (chunks : List Chunk) :
    (l.appended chunks).Stored disk file :=
  ⟨h.sealed, h.newest, h.isPrefix.trans (by rw [bytes_appended]; exact List.prefix_append _ _),
    h.beyond⟩

theorem floor_beforeAppend (l : LogLayout) (maxSegmentSize : Nat) (chunks : List Chunk) :
    (l.beforeAppend maxSegmentSize chunks).floor = l.floor := by
  unfold beforeAppend
  split <;> rfl

theorem next_beforeAppend (l : LogLayout) (maxSegmentSize : Nat) (chunks : List Chunk) :
    (l.beforeAppend maxSegmentSize chunks).newest.next = l.newest.next := by
  unfold beforeAppend
  split <;> simp [LogLayout.rotated, SegmentLog.next]

/-- The write of planned frames. -/
theorem writePlanned_spec (h : l.Live file wal) {plan : GroupLoop} {chunks : List Chunk}
    (hvalid : ∀ chunk ∈ chunks, chunk.Valid)
    (hbytes : plan.bytes = frameBytes (chunkFrames l.newest.next chunks))
    (hnext : plan.nextLsn = l.newest.next + chunkCount chunks) (hlt : plan.nextLsn < u64Limit) :
    Spec C (· = wal) (Wal.writePlanned plan)
      (fun _ wal' => ∃ file', (l.afterAppend wal.manager.maxSegmentSize chunks).Live file' wal' ∧
        l.Untouched wal wal' ∧ file'.synced = file'.bytes.length)
      (Stopped C (u64Limit ≤ l.active + 1 ∨ plan.planned ≠ []) l
        (l.afterAppend wal.manager.maxSegmentSize chunks) file wal) := by
  have hsize : plan.bytes.length = chunksSize chunks := by rw [hbytes, length_frameBytes_chunks]
  generalize hbefore : l.beforeAppend wal.manager.maxSegmentSize chunks = l₁
  have hafter : l.afterAppend wal.manager.maxSegmentSize chunks = l₁.appended chunks := by
    rw [afterAppend, hbefore]
  have hfloor₁ : l₁.floor = l.floor := by rw [← hbefore, floor_beforeAppend]
  have hnext₁ : l₁.newest.next = l.newest.next := by rw [← hbefore, next_beforeAppend]
  rw [hafter]
  refine Spec.step (t := poison wal) rfl rfl ?_
  rw [hsize]
  have hrotate := rotateIfFull_spec (C := C) h.toOpen.poison rfl chunks
  rw [show (poison wal).manager.maxSegmentSize = wal.manager.maxSegmentSize from rfl, hbefore]
    at hrotate
  refine Spec.bind (hrotate.conseq (fun _ h => h) (fun _ _ h => h) ?_) fun _ => Spec.fix ?_
  · -- The rotation stopped: what it left is also a start of the log with the chunks.
    intro e wal' hstop
    obtain ⟨l', file', hl', hl'valid, hstored, hkept⟩ := hstop.of_poison.left
    refine ⟨hstop.poisoned, hstop.of_poison.untouched, ?_, hstop.cause.imp_right .inl⟩
    cases hl' with
    | inl heq => exact ⟨l', file', .inl heq, hl'valid, hstored, hkept⟩
    | inr heq =>
      subst heq
      exact ⟨_, file', .inr rfl, hl'valid.appended hvalid (by rw [hnext₁, ← hnext]; exact hlt),
        hstored.appended chunks, hkept⟩
  rintro wal₁ ⟨file₁, hopen, huntouched, hpoisoned, hsame⟩
  have huntouched' : l.Untouched wal wal₁ :=
    ⟨huntouched.manager, huntouched.checkpoint, huntouched.below⟩
  have hvalid' : (l₁.appended chunks).Valid :=
    hopen.valid.appended hvalid (by rw [hnext₁, ← hnext]; exact hlt)
  have hwhole : file₁.bytes ++ plan.bytes = (l₁.appended chunks).newest.bytes := by
    rw [bytes_appended, hopen.whole, hbytes, hnext₁]
  have hkept (f : DurableFile) (hpre : file₁.bytes <+: f.bytes) (hsynced : file₁.synced ≤ f.synced) :
      (l₁.appended chunks).active = l.active → file.bytes <+: f.bytes ∧ file.synced ≤ f.synced := by
    intro hactive
    rw [← hsame hactive]
    exact ⟨hpre, hsynced⟩
  refine Spec.step (Act.exec_get wal₁) rfl ?_
  dsimp only
  rw [hopen.segmentId]
  cases hreceipts : plan.planned.mapM
      (PlannedTransaction.receipts l₁.active wal₁.manager.writer.size) with
  | error halt =>
    refine Spec.stop (e := halt) (t := wal₁) (Act.exec_bind_error (Act.exec_ofExcept _ _)) rfl ?_
    refine ⟨hpoisoned, huntouched', ⟨l₁.appended chunks, file₁, .inr rfl, hvalid',
      hopen.stored.appended chunks, hkept _ List.prefix_rfl le_rfl⟩, .inr (.inr ?_)⟩
    rintro hnil
    rw [hnil] at hreceipts
    cases hreceipts
  | ok receipts =>
    refine Spec.step (Act.exec_ofExcept _ _) rfl ?_
    have hbelow (f : DurableFile) : ∀ id, id < l.floor →
        (wal₁.io.disk.insert l₁.active f)[id]? = wal.io.disk[id]? := by
      intro id hid
      have hne : ¬l₁.active = id := by
        rw [LogLayout.active, hfloor₁]
        omega
      rw [OrdMap.get?_insert, if_neg hne]
      exact huntouched.below id hid
    have hio (f : DurableFile) (plan : List Answer) :
        l.Untouched wal { wal₁ with io := ⟨wal₁.io.disk.insert l₁.active f, plan⟩ } :=
      ⟨huntouched.manager, huntouched.checkpoint, hbelow f⟩
    have hstored (f : DurableFile) (hpre : f.bytes <+: file₁.bytes ++ plan.bytes) :
        (l₁.appended chunks).Stored (wal₁.io.disk.insert l₁.active f) f :=
      hopen.stored.insert (hpre.trans (by rw [hwhole]; exact List.prefix_rfl))
    refine Spec.bind (Q := fun _ wal' => ∃ plan', wal' = { wal₁ with io :=
        ⟨wal₁.io.disk.insert l₁.active (file₁.append plan.bytes), plan'⟩ })
      (onDisk_spec (Spec.append hopen.stored.newest (fun plan' => ⟨plan', rfl⟩)
        fun e plan' written hC he => ?_)) fun _ => Spec.fix ?_
    · refine ⟨hpoisoned, hio _ plan', ⟨_, file₁.append (plan.bytes.take written), .inr rfl, hvalid',
        hstored _ ?_, hkept _ (List.prefix_append _ _) le_rfl⟩, .inl ⟨hC, he⟩⟩
      exact (List.prefix_append_right_inj _).mpr (List.take_prefix _ _)
    rintro _ ⟨plan', rfl⟩
    have hwritten : (wal₁.io.disk.insert l₁.active (file₁.append plan.bytes))[l₁.active]?
        = some (file₁.append plan.bytes) := by simp
    refine Spec.bind (Q := fun _ wal' => ∃ plan', wal' = { wal₁ with io :=
        ⟨wal₁.io.disk.insert l₁.active (file₁.append plan.bytes).sync, plan'⟩ })
      (onDisk_spec (Spec.sync hwritten (fun plan'' => ?_)
        fun e plan'' hC he => ?_)) fun _ => Spec.fix ?_
    · exact ⟨plan'', by rw [OrdMap.insert_insert]⟩
    · exact ⟨hpoisoned, hio _ plan'', ⟨_, file₁.append plan.bytes, .inr rfl, hvalid',
        hstored _ List.prefix_rfl, hkept _ (List.prefix_append _ _) le_rfl⟩, .inl ⟨hC, he⟩⟩
    rintro _ ⟨plan'', rfl⟩
    refine Spec.step (Act.exec_modify _ _) rfl (Spec.pure ?_)
    rintro _ rfl
    refine ⟨(file₁.append plan.bytes).sync, ⟨⟨hvalid', hstored _ List.prefix_rfl, hwhole,
      hopen.segmentId, ?_, ?_⟩, rfl⟩, (hio _ plan'').with_writer rfl, rfl⟩
    · show wal₁.manager.writer.size + chunksSize chunks = _
      rw [hopen.size, ← hsize, ← hwhole, List.length_append, hopen.whole]
    · show plan.nextLsn = _
      rw [hnext, next_appended, hnext₁]

/-- The calls that are rejected before anything is written. -/
def Rejected (collecting : Bool) (nextLsn : Nat) (groups : List (List LogCommand)) : Prop :=
  maxGroupCount < groups.length ∨ ∃ halt,
    groups.foldlM (planTransaction collecting) ⟨[], nextLsn, []⟩ = .error halt

/-- `append_transactions` on an open log: one committed chunk for each group. -/
theorem appendTransactions_spec (h : l.Live file wal) {groups : List (List LogCommand)}
    (hlsn : ∀ commands ∈ groups, InRange commands) (collecting : Bool) :
    Spec C (· = wal) (Wal.appendTransactions collecting groups)
      (fun _ wal' => groups = [] ∧ wal' = wal ∨
        ¬Rejected collecting l.newest.next groups ∧
        ∃ file', l.Untouched wal wal' ∧ file'.synced = file'.bytes.length ∧
          (l.afterAppend wal.manager.maxSegmentSize (groups.map committedChunk)).Live file' wal')
      (fun halt wal' =>
        (wal' = wal ∧ Rejected collecting l.newest.next groups) ∨
        ¬Rejected collecting l.newest.next groups ∧ Stopped C (u64Limit ≤ l.active + 1 ∨ collecting = true) l
          (l.afterAppend wal.manager.maxSegmentSize (groups.map committedChunk)) file wal halt wal') := by
  unfold Wal.appendTransactions
  by_cases hnil : groups = []
  · rw [if_pos hnil]
    refine Spec.pure ?_
    rintro _ rfl
    exact .inl ⟨hnil, rfl⟩
  rw [if_neg hnil]
  by_cases hmany : maxGroupCount < groups.length
  · rw [if_pos hmany]
    refine Spec.throw ?_
    rintro _ rfl
    exact .inl ⟨rfl, .inl hmany⟩
  rw [if_neg hmany]
  refine Spec.step h.ensureHealthy rfl (Spec.step (Act.exec_get wal) rfl ?_)
  dsimp only
  rw [h.nextLsn]
  cases hplan : groups.foldlM (planTransaction collecting) ⟨[], l.newest.next, []⟩ with
  | error halt =>
    exact Spec.stop (e := halt) (t := wal) (Act.exec_bind_error (Act.exec_ofExcept _ _)) rfl
      (.inl ⟨rfl, .inr ⟨halt, hplan⟩⟩)
  | ok plan =>
    obtain ⟨hvalid, hbytes, hnext, hlt⟩ := planTransactions_ok hlsn hplan
    have haccepted : ¬Rejected collecting l.newest.next groups := by
      rintro (hbad | ⟨halt, hbad⟩)
      · exact hmany hbad
      · rw [hplan] at hbad
        cases hbad
    refine Spec.step (Act.exec_ofExcept _ _) rfl ?_
    refine (writePlanned_spec h hvalid (by simpa using hbytes) hnext
      (hlt h.valid.newest.next)).conseq (fun _ h => h) ?_ ?_
    · rintro _ wal' ⟨file', hlive, huntouched, hsynced⟩
      exact .inr ⟨haccepted, file', huntouched, hsynced, hlive⟩
    · intro halt wal' hstop
      refine .inr ⟨haccepted, hstop.poisoned, hstop.untouched, hstop.left, ?_⟩
      refine hstop.cause.imp_right (Or.imp_right fun hplanned => ?_)
      by_contra hskip
      rw [Bool.not_eq_true] at hskip
      subst hskip
      exact hplanned (planned_skip hplan)

/-- A poisoned writer takes nothing. -/
theorem appendTransactions_poisoned (io : Io Nat) {manager : WALManager}
    (hpoisoned : manager.writer.poisoned = true) (collecting : Bool)
    (groups : List (List LogCommand)) :
    ∃ outcome, outcome ≠ .error .crash ∧
      Act.exec (Wal.appendTransactions collecting groups) ⟨io, manager⟩ = (outcome, ⟨io, manager⟩) := by
  unfold Wal.appendTransactions
  by_cases hnil : groups = []
  · rw [if_pos hnil]
    exact ⟨.ok [], by simp, rfl⟩
  rw [if_neg hnil]
  by_cases hmany : maxGroupCount < groups.length
  · rw [if_pos hmany]
    exact ⟨_, by simp, rfl⟩
  rw [if_neg hmany]
  exact ⟨_, by simp, Act.exec_bind_error (ensureHealthy_poisoned hpoisoned)⟩

theorem rotateWalFile_poisoned (io : Io Nat) {manager : WALManager}
    (hpoisoned : manager.writer.poisoned = true) :
    ∃ outcome, outcome ≠ .error .crash ∧
      Act.exec Wal.rotateWalFile ⟨io, manager⟩ = (outcome, ⟨io, manager⟩) :=
  ⟨_, by simp, Act.exec_bind_error (ensureHealthy_poisoned hpoisoned)⟩

/-! ### Reading an open log back -/

/-- All segments of an open log are scanned without touching the directory. -/
theorem Open.scanSegments (h : l.Open file wal) (trackRefs : Bool) :
    ∃ analysis, analysis.Reads l.newest.next l.redo ∧
      Act.exec (scanSegments .reject (List.range' l.floor (l.sealed.length + 1))
        (.new (l.first - 1) trackRefs, walVersion)) wal.io = (.ok (analysis, walVersion), wal.io) := by
  obtain ⟨analysis, hreads, hscan⟩ := scanSegments_sealed wal.io
    (fun s hs => h.valid.segments s (List.mem_append_left _ hs))
    (Linked.append.mp h.valid.linked).1
    (fun i s hs => (h.stored.sealed i s hs).imp fun _ hf => ⟨hf.1, hf.2.1⟩)
    (analysis_new_reads h.valid.first_pos trackRefs) .reject l.active walVersion
  rw [List.nil_append, ← h.valid.newest_first] at hreads
  obtain ⟨analysis', hnewest, hreads'⟩ := scanSegment_whole h.valid.newest h.stored.newest h.whole
    hreads .reject
  refine ⟨analysis', ?_, ?_⟩
  · have hredo : l.redo = l.sealed.flatMap SegmentLog.redo ++ l.newest.redo := by
      simp [LogLayout.redo, LogLayout.segments]
    rw [hredo]
    exact hreads'
  · have hrange : List.range' l.floor (l.sealed.length + 1)
        = List.range' l.floor l.sealed.length ++ [l.active] := List.range'_1_concat
    rw [hrange, hscan, Storage.scanSegments, if_pos rfl, Act.exec_bind_ok hnewest]
    rfl

/-- The records of an open log are its committed commands. -/
theorem Live.recoverRecords (h : l.Live file wal)
    (hmatch : l.Matches wal.manager.writer.checkpoint) :
    ∃ updates : List LoggedUpdate, updates.map LoggedUpdate.command = l.redo ∧
      Act.exec Wal.recoverRecords wal = (.ok (updates.map LoggedUpdate.toRecord), wal) := by
  obtain ⟨analysis, hreads, hscan⟩ := h.toOpen.scanSegments false
  refine ⟨analysis.committedUpdates, hreads.commands, ?_⟩
  have hdisk : Act.exec (Wal.onDisk (Storage.scanSegments .reject
      (List.range' l.floor (l.sealed.length + 1)) (.new (l.first - 1) false, walVersion))) wal
        = (.ok (analysis, walVersion), wal) := by
    rw [Wal.onDisk, Act.exec_zoom, hscan]
  have hanalyze : Act.exec (Wal.analyzeCommitted false) wal = (.ok analysis, wal) := by
    rw [Wal.analyzeCommitted, Act.exec_bind_ok h.ensureHealthy, Act.exec_bind_ok (Act.exec_get _)]
    dsimp only
    rw [hmatch.startLsn h.valid.first_pos, Act.exec_bind_ok (Act.exec_ofExcept _ _),
      Act.exec_bind_ok (Act.exec_get _), h.stored.segmentPaths h.valid hmatch,
      Act.exec_bind_ok (Act.exec_ofExcept _ _), Act.exec_bind_ok hdisk]
    rfl
  rw [Wal.recoverRecords, Act.exec_bind_ok hanalyze, Act.exec_pure, Analysis.redo, hreads.legacy,
    List.nil_append]

end

end LogLayout

end CereDB.Storage

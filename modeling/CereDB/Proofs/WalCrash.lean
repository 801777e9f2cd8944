import CereDB.Proofs.WalAppend

/-!
# `CereDB.Proofs.WalCrash`: crashes and reopens of the log

A `WalSystem` is a log directory, the manager that has it open, if one does, and the transactions
handed to `append_transactions` since the last successful open, with what that open found. Its
events are appends, rotations, opens and crashes. An append, a rotation or an open may stop at any
I/O call, and a crash may cut the newest segment file at any byte that is not durable.

`wal_recovery_exact` is the result: after any events, opening the directory succeeds, and the
records are exactly the commands of the transactions whose commit frame is whole in its file.
These are a prefix of all transactions, with every acknowledged one in it.
-/

set_option autoImplicit false

namespace CereDB.Storage

open CereDB.Lib

/-! ### Where transactions stand -/

/-- A transaction in the log: the segment, and the offset behind its commit frame. -/
structure LogEntry where
  commands : List LogCommand
  segment : Nat
  commitEnd : Nat
deriving DecidableEq, Repr

/-- The commit frame is whole in its file. -/
def LogEntry.survives (disk : Disk Nat) (entry : LogEntry) : Bool :=
  disk[entry.segment]?.any fun file => entry.commitEnd ≤ file.bytes.length

/-- The transactions of chunks that stand in a segment from an offset on. -/
def chunkEntries (segment : Nat) : Nat → List Chunk → List LogEntry
  | _, [] => []
  | start, chunk :: chunks =>
    (if chunk.committed then [⟨chunk.commands, segment, start + chunk.size⟩] else []) ++
      chunkEntries segment (start + chunk.size) chunks

/-- The transactions of segments with consecutive ids. -/
def segmentsEntries : Nat → List SegmentLog → List LogEntry
  | _, [] => []
  | id, s :: segments => chunkEntries id walHeaderSize s.chunks ++ segmentsEntries (id + 1) segments

/-- The transactions of a log. -/
def LogLayout.entries (l : LogLayout) : List LogEntry := segmentsEntries l.floor l.segments

theorem chunkEntries_append (segment start : Nat) (chunks more : List Chunk) :
    chunkEntries segment start (chunks ++ more)
      = chunkEntries segment start chunks ++
        chunkEntries segment (start + chunksSize chunks) more := by
  induction chunks generalizing start with
  | nil => rfl
  | cons chunk chunks ih =>
    rw [List.cons_append, chunkEntries, chunkEntries, ih, List.append_assoc, chunksSize_cons,
      Nat.add_assoc]

theorem segmentsEntries_append (id : Nat) (segments more : List SegmentLog) :
    segmentsEntries id (segments ++ more)
      = segmentsEntries id segments ++ segmentsEntries (id + segments.length) more := by
  induction segments generalizing id with
  | nil => rfl
  | cons s segments ih =>
    rw [List.cons_append, segmentsEntries, segmentsEntries, ih, List.append_assoc,
      List.length_cons, Nat.add_assoc, Nat.add_comm 1]

theorem LogLayout.entries_eq (l : LogLayout) :
    l.entries = segmentsEntries l.floor l.sealed ++
      chunkEntries l.active walHeaderSize l.newest.chunks := by
  rw [LogLayout.entries, LogLayout.segments, segmentsEntries_append, segmentsEntries, segmentsEntries,
    List.append_nil, LogLayout.active]

theorem commands_chunkEntries (segment start : Nat) (chunks : List Chunk) :
    (chunkEntries segment start chunks).flatMap LogEntry.commands = chunks.flatMap Chunk.redo := by
  induction chunks generalizing start with
  | nil => rfl
  | cons chunk chunks ih =>
    rw [chunkEntries, List.flatMap_append, ih, List.flatMap_cons, Chunk.redo]
    cases chunk.committed <;> simp

/-- The commands of the transactions are those recovery takes from the log. -/
theorem LogLayout.commands_entries (l : LogLayout) :
    l.entries.flatMap LogEntry.commands = l.redo := by
  have hsegments (id : Nat) (segments : List SegmentLog) :
      (segmentsEntries id segments).flatMap LogEntry.commands
        = segments.flatMap SegmentLog.redo := by
    induction segments generalizing id with
    | nil => rfl
    | cons s segments ih =>
      rw [segmentsEntries, List.flatMap_append, ih, commands_chunkEntries, List.flatMap_cons]
      rfl
  exact hsegments l.floor l.segments

theorem chunkEntries_bounds {segment start : Nat} {chunks : List Chunk} :
    ∀ entry ∈ chunkEntries segment start chunks, entry.segment = segment ∧
      start < entry.commitEnd ∧ entry.commitEnd ≤ start + chunksSize chunks := by
  induction chunks generalizing start with
  | nil => simp [chunkEntries]
  | cons chunk chunks ih =>
    intro entry hentry
    rw [chunkEntries, List.mem_append] at hentry
    rw [chunksSize_cons]
    cases hentry with
    | inl hhead =>
      cases hcommitted : chunk.committed with
      | false => simp [hcommitted] at hhead
      | true =>
        simp only [hcommitted, if_true, List.mem_singleton] at hhead
        subst hhead
        have hpos : 0 < chunk.size := by
          rw [Chunk.size, hcommitted, if_pos rfl]
          exact Nat.lt_of_lt_of_le (by decide) (Nat.le_add_left _ _)
        exact ⟨rfl, by show start < start + _; omega, by show start + _ ≤ _; omega⟩
    | inr htail =>
      have hbounds := ih entry htail
      exact ⟨hbounds.1, by omega, by omega⟩

/-- A cut keeps the transactions that end in front of it. -/
theorem chunkEntries_survive (segment start : Nat) (chunks : List Chunk) (n : Nat) :
    chunkEntries segment start (survive chunks n)
      = (chunkEntries segment start chunks).filter fun entry => entry.commitEnd ≤ start + n := by
  induction chunks generalizing start n with
  | nil => rfl
  | cons chunk chunks ih =>
    rw [survive, chunkEntries, List.filter_append]
    by_cases hfit : chunk.size ≤ n
    · have hsum : start + chunk.size + (n - chunk.size) = start + n := by omega
      rw [if_pos hfit, chunkEntries, ih, hsum]
      congr 1
      cases chunk.committed with
      | false => rfl
      | true => simp [hfit]
    · -- Nothing behind the cut is whole, and the cut transaction has no commit frame.
      have hopen : chunkEntries segment start (openChunk (fitCommands chunk.commands n)) = [] := by
        cases fitCommands chunk.commands n <;> simp [openChunk, chunkEntries]
      have hhead : (if chunk.committed then [(⟨chunk.commands, segment, start + chunk.size⟩ :
          LogEntry)] else []).filter (fun entry => entry.commitEnd ≤ start + n) = [] := by
        cases chunk.committed with
        | false => rfl
        | true => simp [hfit]
      have htail : (chunkEntries segment (start + chunk.size) chunks).filter
          (fun entry => entry.commitEnd ≤ start + n) = [] := by
        rw [List.filter_eq_nil_iff]
        intro entry hentry
        have hbounds := chunkEntries_bounds entry hentry
        simp only [decide_eq_true_eq]
        omega
      rw [if_neg hfit, hopen, hhead, htail]
      rfl

theorem chunkEntries_survive_isPrefix (segment start : Nat) (chunks : List Chunk) (n : Nat) :
    chunkEntries segment start (survive chunks n) <+: chunkEntries segment start chunks := by
  induction chunks generalizing start n with
  | nil => exact List.prefix_rfl
  | cons chunk chunks ih =>
    rw [survive, chunkEntries]
    split
    · rw [chunkEntries]
      exact (List.prefix_append_right_inj _).mpr (ih _ _)
    · have hopen : chunkEntries segment start (openChunk (fitCommands chunk.commands n)) = [] := by
        cases fitCommands chunk.commands n <;> simp [openChunk, chunkEntries]
      rw [hopen]
      exact List.nil_prefix

theorem segmentsEntries_bounds {id : Nat} {segments : List SegmentLog} :
    ∀ entry ∈ segmentsEntries id segments, ∃ i s, segments[i]? = some s ∧
      entry.segment = id + i ∧ entry.commitEnd ≤ s.bytes.length := by
  induction segments generalizing id with
  | nil => simp [segmentsEntries]
  | cons s segments ih =>
    intro entry hentry
    rw [segmentsEntries, List.mem_append] at hentry
    cases hentry with
    | inl hhead =>
      have hbounds := chunkEntries_bounds entry hhead
      exact ⟨0, s, rfl, hbounds.1, by rw [s.length_bytes]; exact hbounds.2.2⟩
    | inr htail =>
      obtain ⟨i, t, ht, hid, hend⟩ := ih entry htail
      exact ⟨i + 1, t, ht, by omega, hend⟩

theorem map_commands_chunkEntries (groups : List (List LogCommand)) (segment start : Nat) :
    (chunkEntries segment start (groups.map committedChunk)).map LogEntry.commands = groups := by
  induction groups generalizing start with
  | nil => rfl
  | cons commands groups ih =>
    rw [List.map_cons, chunkEntries, List.map_append, ih]
    rfl

theorem LogLayout.segment_le {l : LogLayout} {entry : LogEntry} (h : entry ∈ l.entries) :
    entry.segment ≤ l.active := by
  obtain ⟨i, segment, hs, hid, -⟩ := segmentsEntries_bounds _ h
  have hlt : i < l.segments.length := (List.getElem?_eq_some_iff.mp hs).1
  rw [LogLayout.segments, List.length_append, List.length_singleton] at hlt
  rw [hid, LogLayout.active]
  omega

/-- The transactions of sealed segments survive. -/
theorem LogLayout.Stored.survives_sealed {l : LogLayout} {disk : Disk Nat} {file : DurableFile}
    (h : l.Stored disk file) {entry : LogEntry}
    (hentry : entry ∈ segmentsEntries l.floor l.sealed) : entry.survives disk = true := by
  obtain ⟨i, s, hs, hid, hend⟩ := segmentsEntries_bounds entry hentry
  obtain ⟨f, hf, hbytes, -⟩ := h.sealed i s hs
  rw [← hid] at hf
  simp [LogEntry.survives, hf, hbytes, hend]

/-- The transactions that survive in the files of a log are those recovery finds. -/
theorem LogLayout.Stored.entries_survive {l : LogLayout} {disk : Disk Nat} {file : DurableFile}
    (h : l.Stored disk file) :
    l.entries.filter (LogEntry.survives disk) = (l.cutTo file.bytes.length).entries := by
  rw [LogLayout.entries_eq, LogLayout.entries_eq, List.filter_append]
  congr 1
  · show _ = segmentsEntries l.floor l.sealed
    rw [List.filter_eq_self]
    exact fun entry hentry => h.survives_sealed hentry
  · have hactive : (l.cutTo file.bytes.length).active = l.active := rfl
    rw [hactive, LogLayout.cutTo, SegmentLog.cutTo, chunkEntries_survive]
    apply List.filter_congr
    intro entry hentry
    have hbounds := chunkEntries_bounds entry hentry
    have hiff : entry.commitEnd ≤ file.bytes.length ↔
        entry.commitEnd ≤ walHeaderSize + (file.bytes.length - walHeaderSize) := by omega
    simp [LogEntry.survives, hbounds.1, h.newest, hiff]

theorem LogLayout.entries_cutTo_isPrefix (l : LogLayout) (length : Nat) :
    (l.cutTo length).entries <+: l.entries := by
  rw [LogLayout.entries_eq, LogLayout.entries_eq]
  exact (List.prefix_append_right_inj _).mpr (chunkEntries_survive_isPrefix _ _ _ _)

theorem LogLayout.entries_appended (l : LogLayout) (chunks : List Chunk) :
    (l.appended chunks).entries = l.entries ++ chunkEntries l.active l.newest.bytes.length chunks := by
  rw [LogLayout.entries_eq, LogLayout.entries_eq, SegmentLog.length_bytes, List.append_assoc,
    ← chunkEntries_append]
  rfl

theorem LogLayout.entries_rotated (l : LogLayout) : l.rotated.entries = l.entries := by
  rw [LogLayout.entries, LogLayout.segments, LogLayout.rotated, segmentsEntries_append]
  simp [segmentsEntries, chunkEntries, LogLayout.entries, LogLayout.segments]

theorem LogLayout.entries_beforeAppend (l : LogLayout) (maxSegmentSize : Nat)
    (chunks : List Chunk) : (l.beforeAppend maxSegmentSize chunks).entries = l.entries := by
  unfold LogLayout.beforeAppend
  split
  · exact l.entries_rotated
  · rfl

/-! ### Logs that crash and are opened again -/

/-- A transaction handed to `append_transactions`, and whether the call returned `Ok`. -/
structure Appended extends LogEntry where
  acknowledged : Bool
deriving DecidableEq, Repr

/-- A log directory, the manager that has it open, and the transactions of the log. -/
structure WalSystem where
  disk : Disk Nat
  manager : Option WALManager
  log : List Appended

/-- What can happen to a log. The plan says how the I/O calls of an event end. A crash leaves at
least `length` bytes of the newest segment file, and every durable one. -/
inductive WalEvent where
  | append (collecting : Bool) (groups : List (List LogCommand)) (plan : List Answer)
  | rotate (plan : List Answer)
  | open (plan : List Answer)
  | crash (length : Nat)

/-- The segment and the offset at which a manager writes so many bytes. -/
def WALManager.target (manager : WALManager) (added : Nat) : Nat × Nat :=
  if walHeaderSize < manager.writer.size ∧
      manager.maxSegmentSize < saturatingAdd manager.writer.size added then
    (manager.writer.segmentId + 1, walHeaderSize)
  else (manager.writer.segmentId, manager.writer.size)

/-- Where the transactions of a call go. A call that is rejected before it writes has none. -/
def WALManager.entries (manager : WALManager) (collecting : Bool)
    (groups : List (List LogCommand)) : List LogEntry :=
  if manager.writer.poisoned ∨ maxGroupCount < groups.length then []
  else
    match groups.foldlM (planTransaction collecting) ⟨[], manager.writer.nextLsn, []⟩ with
    | .ok plan =>
      chunkEntries (manager.target plan.bytes.length).1 (manager.target plan.bytes.length).2
        (groups.map committedChunk)
    | .error _ => []

/-- A crash cuts the file with the largest id. -/
def cutNewest (disk : Disk Nat) (length : Nat) : Disk Nat :=
  match disk.toList.getLast? with
  | some (id, file) => disk.insert id (file.cut length)
  | none => disk

theorem LogLayout.Stored.cutNewest {l : LogLayout} {file : DurableFile} {disk : Disk Nat} (h : l.Stored disk file) (length : Nat) :
    cutNewest disk length = disk.insert l.active (file.cut length) := by
  rw [Storage.cutNewest, OrdMap.getLast?_toList h.newest h.beyond]

/-- One segment file with a start of the header is a log without a frame. -/
theorem LogLayout.initial_stored {file : DurableFile}
    (hpre : file.bytes <+: WALHeader.default.encode) :
    LogLayout.initial.Stored ((∅ : Disk Nat).insert 0 file) file := by
  constructor
  case sealed => simp [LogLayout.initial]
  case newest => simp [LogLayout.active, LogLayout.initial]
  case isPrefix => rw [LogLayout.initial_bytes]; exact hpre
  case beyond =>
    intro id hid
    have hne : ¬0 = id := by simp [LogLayout.active, LogLayout.initial] at hid; omega
    rw [OrdMap.get?_insert, if_neg hne, OrdMap.get?_empty]

namespace WalSystem

/-- The manager after a call: none when the process stopped. -/
def after {α : Type} (outcome : Exec α) (manager : WALManager) : Option WALManager :=
  match outcome with
  | .error .crash => none
  | _ => some manager

/-- One event. -/
def step (maxSegmentSize : Nat) (checkpointOwner : Bool) (s : WalSystem) : WalEvent → WalSystem
  | .append collecting groups plan =>
    match s.manager with
    | none => s
    | some manager =>
      let (outcome, wal) :=
        Act.exec (Wal.appendTransactions collecting groups) ⟨⟨s.disk, plan⟩, manager⟩
      { disk := wal.io.disk
        manager := after outcome wal.manager
        log := s.log ++ (manager.entries collecting groups).map
          fun entry => ⟨entry, outcome.isOk⟩ }
  | .rotate plan =>
    match s.manager with
    | none => s
    | some manager =>
      let (outcome, wal) := Act.exec Wal.rotateWalFile ⟨⟨s.disk, plan⟩, manager⟩
      { s with disk := wal.io.disk, manager := after outcome wal.manager }
  | .open plan =>
    match Act.exec (WALManager.newInner maxSegmentSize none checkpointOwner) ⟨s.disk, plan⟩ with
    | (.ok manager, io) =>
      { disk := io.disk
        manager := some manager
        log := s.log.filter fun t => t.survives s.disk }
    | (.error _, io) => { s with disk := io.disk, manager := none }
  | .crash length => { s with disk := cutNewest s.disk length, manager := none }

/-- An empty directory. -/
def start : WalSystem := { disk := ∅, manager := none, log := [] }

/-- The events in order. -/
def run (maxSegmentSize : Nat) (checkpointOwner : Bool) (events : List WalEvent) : WalSystem :=
  events.foldl (step maxSegmentSize checkpointOwner) start

end WalSystem

/-- The LSNs in an event are `u64`. -/
def WalEvent.InRange : WalEvent → Prop
  | .append _ groups _ => ∀ commands ∈ groups, Storage.InRange commands
  | _ => True

/-! ### The invariant -/

/-- A filter that keeps a prefix of the images keeps a prefix. -/
theorem filter_prefix_of_map {α β : Type} {f : α → β} {p : β → Bool} {xs : List α}
    (h : (xs.map f).filter p <+: xs.map f) : (xs.filter fun x => p (f x)) <+: xs := by
  induction xs with
  | nil => exact List.prefix_rfl
  | cons x xs ih =>
    rw [List.map_cons] at h
    by_cases hx : p (f x) = true
    · rw [List.filter_cons_of_pos hx, List.prefix_cons_inj] at h
      rw [List.filter_cons_of_pos (by simpa using hx), List.prefix_cons_inj]
      exact ih h
    · -- Nothing else can be kept: the first kept image would be the one that is not.
      rw [List.filter_cons_of_neg hx] at h
      rw [List.filter_cons_of_neg (by simpa using hx)]
      cases hrest : (xs.map f).filter p with
      | nil =>
        have hnone : (xs.filter fun x => p (f x)) = [] := by
          rw [List.filter_map, List.map_eq_nil_iff] at hrest
          exact hrest
        rw [hnone]
        exact List.nil_prefix
      | cons y ys =>
        rw [hrest] at h
        have hy : p y = true := (List.mem_filter.mp (by rw [hrest]; exact List.mem_cons_self)).2
        rw [(List.cons_prefix_cons.mp h).1] at hy
        exact absurd hy hx

/-- The system holds a log. `known` are the transactions of the log, and `phantom` those of a call
that stopped before their segment was there. -/
structure WalSystem.Holds (s : WalSystem) (l : LogLayout) (file : DurableFile)
    (known phantom : List Appended) : Prop where
  valid : l.Valid
  base : l.Matches none
  stored : l.Stored s.disk file
  log : s.log = known ++ phantom
  entries : known.map Appended.toLogEntry = l.entries
  durable : ∀ t ∈ known, t.acknowledged = true → t.segment < l.active ∨ t.commitEnd ≤ file.synced
  lost : ∀ t ∈ phantom, l.active < t.segment ∧ t.acknowledged = false
  healthy : ∀ manager, s.manager = some manager → manager.writer.poisoned = false →
    phantom = [] ∧ ∀ plan, l.Live file ⟨⟨s.disk, plan⟩, manager⟩

/-- The directory is empty, or it holds a log. -/
def WalSystem.Inv (s : WalSystem) : Prop :=
  (s.disk = ∅ ∧ s.manager = none ∧ s.log = []) ∨
    ∃ l file known phantom, s.Holds l file known phantom

namespace WalSystem

section
variable {s : WalSystem} {l : LogLayout} {file : DurableFile} {known phantom : List Appended}

/-- The surviving transactions are those recovery finds. -/
theorem Holds.survivors (h : s.Holds l file known phantom) :
    s.log.filter (fun t => t.survives s.disk) = known.filter (fun t => t.survives s.disk) ∧
      (known.filter fun t => t.survives s.disk).map Appended.toLogEntry
        = (l.cutTo file.bytes.length).entries := by
  constructor
  · have hnone : phantom.filter (fun t => t.survives s.disk) = [] := by
      rw [List.filter_eq_nil_iff]
      intro t ht
      simp [LogEntry.survives, h.stored.beyond _ (h.lost t ht).1]
    rw [h.log, List.filter_append, hnone, List.append_nil]
  · rw [← h.stored.entries_survive, ← h.entries, List.filter_map]
    rfl

/-- The surviving transactions come first. -/
theorem Holds.survivors_isPrefix (h : s.Holds l file known phantom) :
    s.log.filter (fun t => t.survives s.disk) <+: s.log := by
  obtain ⟨hlog, -⟩ := h.survivors
  have hpre : (known.filter fun t => t.survives s.disk) <+: known := by
    apply filter_prefix_of_map (f := Appended.toLogEntry) (p := LogEntry.survives s.disk)
    rw [h.entries, h.stored.entries_survive]
    exact l.entries_cutTo_isPrefix _
  rw [hlog, h.log]
  exact hpre.trans (List.prefix_append _ _)

/-- Acknowledged transactions survive. -/
theorem Holds.acknowledged_survive (h : s.Holds l file known phantom) :
    ∀ t ∈ s.log, t.acknowledged = true → t.survives s.disk = true := by
  intro t ht hack
  rw [h.log, List.mem_append] at ht
  cases ht with
  | inr hphantom =>
    rw [(h.lost t hphantom).2] at hack
    cases hack
  | inl hknown =>
    have hentry : t.toLogEntry ∈ l.entries := by
      rw [← h.entries]
      exact List.mem_map_of_mem hknown
    rw [LogLayout.entries_eq, List.mem_append] at hentry
    cases hentry with
    | inl hsealed => exact h.stored.survives_sealed hsealed
    | inr hnewest =>
      have hsegment : t.segment = l.active := (chunkEntries_bounds _ hnewest).1
      have hsynced := h.durable t hknown hack
      have hle := file.synced_le
      simp only [LogEntry.survives, hsegment, h.stored.newest, Option.any_some,
        decide_eq_true_eq]
      omega

/-! ### Crashes and opens -/

theorem Holds.crash (h : s.Holds l file known phantom) (length : Nat) :
    ({ s with disk := cutNewest s.disk length, manager := none } : WalSystem).Holds l
      (file.cut length) known phantom where
  valid := h.valid
  base := h.base
  stored := by
    rw [h.stored.cutNewest]
    exact h.stored.insert ((List.take_prefix _ _).trans h.stored.isPrefix)
  log := h.log
  entries := h.entries
  durable := h.durable
  lost := h.lost
  healthy := by simp

/-- A surviving transaction of the newest segment ends where recovery still finds it. -/
theorem Holds.commitEnd_le (h : s.Holds l file known phantom) {t : Appended} (ht : t ∈ known)
    (hsegment : t.segment = l.active) (hend : t.commitEnd ≤ file.bytes.length) :
    t.commitEnd ≤ (l.newest.cutTo file.bytes.length).bytes.length := by
  have hsurvives : t.survives s.disk = true := by
    simp [LogEntry.survives, hsegment, h.stored.newest, hend]
  have hentry : t.toLogEntry ∈ (l.cutTo file.bytes.length).entries := by
    rw [← h.survivors.2]
    exact List.mem_map_of_mem (List.mem_filter.mpr ⟨ht, hsurvives⟩)
  obtain ⟨i, segment, hs, hid, hle⟩ := segmentsEntries_bounds _ hentry
  have hi : i = l.sealed.length := by
    rw [hsegment] at hid
    simp only [LogLayout.active, LogLayout.cutTo] at hid
    omega
  rw [hi, LogLayout.segments, LogLayout.cutTo, List.getElem?_append_right le_rfl, Nat.sub_self]
    at hs
  cases hs
  exact hle

/-- Transactions stay durable when the newest file is mended. -/
theorem Holds.durable_mended (h : s.Holds l file known phantom) {file' : DurableFile}
    (hmended : Mended l.newest file file') :
    ∀ t ∈ known, t.acknowledged = true → t.segment < l.active ∨ t.commitEnd ≤ file'.synced := by
  intro t ht hack
  by_cases holder : t.segment < l.active
  · exact .inl holder
  have hentry : t.toLogEntry ∈ l.entries := by
    rw [← h.entries]
    exact List.mem_map_of_mem ht
  rw [LogLayout.entries_eq, List.mem_append] at hentry
  cases hentry with
  | inl hsealed =>
    obtain ⟨i, segment, hs, hid, -⟩ := segmentsEntries_bounds _ hsealed
    have hlt : i < l.sealed.length := (List.getElem?_eq_some_iff.mp hs).1
    exact .inl (by rw [LogLayout.active]; omega)
  | inr hnewest =>
    have hsegment : t.segment = l.active := (chunkEntries_bounds _ hnewest).1
    have hsynced : t.commitEnd ≤ file.synced := (h.durable t ht hack).resolve_left holder
    have hcut := h.commitEnd_le ht hsegment (hsynced.trans file.synced_le)
    exact .inr ((le_min hsynced hcut).trans hmended.synced)

/-- Opening a log that a crash may have cut. -/
theorem Holds.open (h : s.Holds l file known phantom) (maxSegmentSize : Nat)
    (checkpointOwner : Bool) (plan : List Answer) :
    ∃ l' file' known' phantom',
      (s.step maxSegmentSize checkpointOwner (.open plan)).Holds l' file' known' phantom' := by
  have hspec := LogLayout.newInner_spec (C := False) ⟨s.disk, plan⟩ h.valid h.stored h.base
    maxSegmentSize checkpointOwner
  rcases hspec.outcome rfl with ⟨m, io, hexec, rfl, file', hio, hbytes, hmended⟩ |
    ⟨halt, io, hexec, -, -, file', hio, hmended⟩
  · refine ⟨l.cutTo file.bytes.length, file', known.filter fun t => t.survives s.disk, [], ?_⟩
    have hstored : (l.cutTo file.bytes.length).Stored io.disk file' := by
      rw [hio]
      exact h.stored.insert (by rw [hbytes]; exact List.prefix_rfl)
    simp only [step, hexec]
    constructor
    case valid => exact h.valid.cutTo _
    case base => exact h.base
    case stored => exact hstored
    case log => rw [List.append_nil]; exact h.survivors.1
    case entries => exact h.survivors.2
    case durable =>
      intro t ht
      exact h.durable_mended hmended t (List.mem_of_mem_filter ht)
    case lost => simp
    case healthy =>
      rintro manager ⟨⟩ -
      exact ⟨rfl, fun plan => ⟨⟨h.valid.cutTo _, hstored, hbytes, rfl, rfl, rfl⟩, rfl⟩⟩
  · refine ⟨l, file', known, phantom, ?_⟩
    simp only [step, hexec]
    constructor
    case valid => exact h.valid
    case base => exact h.base
    case stored => rw [hio]; exact h.stored.insert hmended.isPrefix
    case log => exact h.log
    case entries => exact h.entries
    case durable => exact h.durable_mended hmended
    case lost => exact h.lost
    case healthy => simp

/-- Opening an empty directory. -/
theorem open_empty (hempty : s.disk = ∅) (hlog : s.log = []) (maxSegmentSize : Nat)
    (checkpointOwner : Bool) (plan : List Answer) :
    (s.step maxSegmentSize checkpointOwner (.open plan)).Inv := by
  have hholds (disk : Disk Nat) (file : DurableFile) (manager : Option WALManager)
      (hdisk : disk = s.disk.insert 0 file) (hpre : file.bytes <+: WALHeader.default.encode)
      (hmanager : ∀ m, manager = some m → file.bytes = WALHeader.default.encode ∧
        m = LogLayout.initial.manager maxSegmentSize none checkpointOwner) :
      ({ disk, manager, log := [] } : WalSystem).Holds .initial file [] [] := by
    have hstored : LogLayout.initial.Stored disk file := by
      rw [hdisk, hempty]
      exact LogLayout.initial_stored hpre
    refine ⟨LogLayout.initial_valid, ⟨rfl, rfl⟩, hstored, rfl, rfl, by simp, by simp, ?_⟩
    intro m hm _
    obtain ⟨hbytes, rfl⟩ := hmanager m hm
    have hwhole : file.bytes = LogLayout.initial.newest.bytes := by
      rw [hbytes, LogLayout.initial_bytes]
    exact ⟨rfl, fun plan => ⟨⟨LogLayout.initial_valid, hstored, hwhole, rfl, rfl, rfl⟩, rfl⟩⟩
  have hspec := LogLayout.newInner_empty (C := False) ⟨s.disk, plan⟩ hempty maxSegmentSize
    checkpointOwner
  rcases hspec.outcome rfl with ⟨m, io, hexec, rfl, file, hio, hbytes, -⟩ |
    ⟨halt, io, hexec, -, -, hio | ⟨file, hio, hpre⟩⟩
  · refine .inr ⟨.initial, file, [], [], ?_⟩
    simp only [step, hexec, hlog, List.filter_nil]
    refine hholds _ _ _ hio (by rw [hbytes]) ?_
    rintro m ⟨⟩
    exact ⟨hbytes, rfl⟩
  · refine .inl ?_
    simp only [step, hexec]
    exact ⟨hio.trans hempty, trivial, hlog⟩
  · refine .inr ⟨.initial, file, [], [], ?_⟩
    simp only [step, hexec, hlog]
    exact hholds _ _ _ hio hpre (by simp)

/-! ### Appends and rotations -/

/-- A call that is rejected has no transactions. -/
theorem entries_rejected {manager : WALManager} {collecting : Bool}
    {groups : List (List LogCommand)}
    (h : LogLayout.Rejected collecting manager.writer.nextLsn groups) :
    manager.entries collecting groups = [] := by
  unfold WALManager.entries
  rcases h with hmany | ⟨halt, hplan⟩
  · rw [if_pos (.inr hmany)]
  · rw [hplan]
    split <;> rfl

/-- The transactions of a call stand in the segment that takes its chunks. -/
theorem entries_accepted {wal : Wal} (hlive : l.Live file wal) {collecting : Bool}
    {groups : List (List LogCommand)} (hlsn : ∀ commands ∈ groups, Storage.InRange commands)
    (h : ¬LogLayout.Rejected collecting l.newest.next groups) :
    wal.manager.entries collecting groups
      = chunkEntries (l.beforeAppend wal.manager.maxSegmentSize (groups.map committedChunk)).active
        (l.beforeAppend wal.manager.maxSegmentSize (groups.map committedChunk)).newest.bytes.length
        (groups.map committedChunk) := by
  have hfew : ¬(wal.manager.writer.poisoned = true ∨ maxGroupCount < groups.length) := by
    rintro (hbad | hbad)
    · rw [hlive.healthy] at hbad
      cases hbad
    · exact h (.inl hbad)
  rw [WALManager.entries, if_neg hfew, hlive.nextLsn]
  cases hplan : groups.foldlM (planTransaction collecting) ⟨[], l.newest.next, []⟩ with
  | error halt => exact absurd (.inr ⟨halt, hplan⟩) h
  | ok plan =>
    obtain ⟨-, hbytes, -, -⟩ := planTransactions_ok hlsn hplan
    have hsize : plan.bytes.length = chunksSize (groups.map committedChunk) := by
      rw [hbytes, List.nil_append, length_frameBytes_chunks]
    dsimp only
    rw [hsize, WALManager.target, hlive.size, hlive.segmentId, LogLayout.beforeAppend]
    by_cases hrotates : l.Rotates wal.manager.maxSegmentSize (groups.map committedChunk)
    · have hfull : walHeaderSize < l.newest.bytes.length ∧ wal.manager.maxSegmentSize
          < saturatingAdd l.newest.bytes.length (chunksSize (groups.map committedChunk)) :=
        hrotates
      rw [if_pos hfull, if_pos hrotates, LogLayout.active_rotated, SegmentLog.length_bytes]
      rfl
    · have hfits : ¬(walHeaderSize < l.newest.bytes.length ∧ wal.manager.maxSegmentSize
          < saturatingAdd l.newest.bytes.length (chunksSize (groups.map committedChunk))) :=
        hrotates
      rw [if_neg hfits, if_neg hrotates]

theorem Holds.segment_le (h : s.Holds l file known phantom) :
    ∀ t ∈ known, t.segment ≤ l.active := by
  intro t ht
  have hentry : t.toLogEntry ∈ l.entries := by
    rw [← h.entries]
    exact List.mem_map_of_mem ht
  exact LogLayout.segment_le hentry

/-- Transactions stay durable when the log grows. -/
theorem Holds.durable_grown (h : s.Holds l file known phantom) {l' : LogLayout}
    {file' : DurableFile} (hactive : l.active ≤ l'.active)
    (hsynced : l'.active = l.active → file.synced ≤ file'.synced) :
    ∀ t ∈ known, t.acknowledged = true → t.segment < l'.active ∨ t.commitEnd ≤ file'.synced := by
  intro t ht hack
  by_cases hsame : l'.active = l.active
  · rw [hsame]
    exact (h.durable t ht hack).imp_right fun hle => hle.trans (hsynced hsame)
  · have hle := h.segment_le t ht
    exact .inl (by omega)

theorem active_le_rotated (l : LogLayout) : l.active ≤ l.rotated.active := by
  rw [LogLayout.active_rotated]
  omega

theorem active_le_beforeAppend (l : LogLayout) (maxSegmentSize : Nat) (chunks : List Chunk) :
    l.active ≤ (l.beforeAppend maxSegmentSize chunks).active := by
  unfold LogLayout.beforeAppend
  split
  · exact active_le_rotated l
  · exact le_rfl

theorem matches_beforeAppend {maxSegmentSize : Nat} {chunks : List Chunk} (h : l.Matches none) :
    (l.beforeAppend maxSegmentSize chunks).Matches none := by
  unfold LogLayout.beforeAppend
  split <;> exact h

theorem after_poisoned {α : Type} {outcome : Exec α} {manager : WALManager}
    (hpoisoned : manager.writer.poisoned = true) :
    ∀ m, after outcome manager = some m → m.writer.poisoned = false → False := by
  intro m hm hhealthy
  unfold after at hm
  split at hm
  · cases hm
  · cases hm
    rw [hpoisoned] at hhealthy
    cases hhealthy

theorem beforeAppend_of_active {maxSegmentSize : Nat} {chunks : List Chunk}
    (h : (l.beforeAppend maxSegmentSize chunks).active = l.active) :
    l.beforeAppend maxSegmentSize chunks = l := by
  unfold LogLayout.beforeAppend at h ⊢
  split
  · rename_i hrotates
    rw [if_pos hrotates, LogLayout.active_rotated] at h
    omega
  · rfl

/-- The log with the transactions of a call, whether it succeeded or stopped behind the start of
its write. -/
theorem Holds.grown (h : s.Holds l file known []) {maxSegmentSize : Nat} {chunks : List Chunk}
    {entries : List LogEntry}
    (hentries : entries = chunkEntries (l.beforeAppend maxSegmentSize chunks).active
      (l.beforeAppend maxSegmentSize chunks).newest.bytes.length chunks)
    {disk : Disk Nat} {file' : DurableFile} (manager : Option WALManager) (acknowledged : Bool)
    (hvalid : (l.afterAppend maxSegmentSize chunks).Valid)
    (hstored : (l.afterAppend maxSegmentSize chunks).Stored disk file')
    (hsynced : (l.afterAppend maxSegmentSize chunks).active = l.active → file.synced ≤ file'.synced)
    (hack : acknowledged = true →
      (l.afterAppend maxSegmentSize chunks).newest.bytes.length ≤ file'.synced)
    (hmanager : ∀ m, manager = some m → m.writer.poisoned = false →
      ∀ plan, (l.afterAppend maxSegmentSize chunks).Live file' ⟨⟨disk, plan⟩, m⟩) :
    ({ disk, manager, log := s.log ++ entries.map fun entry => ⟨entry, acknowledged⟩ } :
        WalSystem).Holds (l.afterAppend maxSegmentSize chunks) file'
      (known ++ entries.map fun entry => ⟨entry, acknowledged⟩) [] where
  valid := hvalid
  base := matches_beforeAppend h.base
  stored := hstored
  log := by rw [List.append_nil, h.log, List.append_nil]
  entries := by
    rw [List.map_append, h.entries, LogLayout.afterAppend, LogLayout.entries_appended,
      LogLayout.entries_beforeAppend, ← hentries, List.map_map]
    simp [Function.comp_def]
  durable := by
    intro t ht hacked
    rw [List.mem_append] at ht
    cases ht with
    | inl hold => exact h.durable_grown (active_le_beforeAppend l _ _) hsynced t hold hacked
    | inr hnew =>
      rw [List.mem_map] at hnew
      obtain ⟨entry, hentry, rfl⟩ := hnew
      rw [hentries] at hentry
      have hbounds := (chunkEntries_bounds entry hentry).2.2
      refine .inr (hbounds.trans (le_trans ?_ (hack hacked)))
      rw [LogLayout.afterAppend, LogLayout.bytes_appended, List.length_append,
        length_frameBytes_chunks]
  lost := by simp
  healthy m hm hok := ⟨rfl, hmanager m hm hok⟩

/-- The log is the same as before, and so is the writer. -/
theorem Holds.same (h : s.Holds l file known []) {manager : WALManager}
    (hmanager : s.manager = some manager) {α : Type} {outcome : Exec α} :
    ({ disk := s.disk, manager := after outcome manager, log := s.log } : WalSystem).Holds l file
      known [] := by
  refine ⟨h.valid, h.base, h.stored, h.log, h.entries, h.durable, h.lost, fun m hm hok => ?_⟩
  refine h.healthy m ?_ hok
  rw [hmanager]
  unfold after at hm
  split at hm
  · cases hm
  · exact hm

/-- An append to a healthy log. -/
theorem Holds.append (h : s.Holds l file known phantom) {manager : WALManager}
    (hmanager : s.manager = some manager) (hhealthy : manager.writer.poisoned = false)
    (maxSegmentSize : Nat) (checkpointOwner : Bool) (collecting : Bool)
    {groups : List (List LogCommand)} (hlsn : ∀ commands ∈ groups, Storage.InRange commands)
    (plan : List Answer) :
    (s.step maxSegmentSize checkpointOwner (.append collecting groups plan)).Inv := by
  obtain ⟨rfl, hlive⟩ := h.healthy manager hmanager hhealthy
  replace hlive := hlive plan
  have hspec := LogLayout.appendTransactions_spec (C := False) hlive hlsn collecting
  rcases hspec.outcome rfl with ⟨receipts, wal, hexec, ⟨rfl, rfl⟩ | ⟨haccepted, file', huntouched,
      hsynced, hlive'⟩⟩ | ⟨halt, wal, hexec, ⟨rfl, hrejected⟩ | ⟨haccepted, hstop⟩⟩
  · -- No group: nothing changes.
    have hnone : manager.entries collecting [] = [] := by
      unfold WALManager.entries
      split <;> rfl
    refine .inr ⟨l, file, known, [], ?_⟩
    simp only [step, hmanager, hexec, hnone, List.map_nil, List.append_nil]
    exact h.same hmanager
  · -- All transactions are written and durable.
    have hwhole : file'.synced = (l.afterAppend manager.maxSegmentSize
        (groups.map committedChunk)).newest.bytes.length := by rw [hsynced, hlive'.whole]
    have hgrown := h.grown (entries_accepted hlive hlsn haccepted) (some wal.manager) true
      hlive'.valid hlive'.stored ?_ (fun _ => by rw [hwhole]) ?_
    · simp only [step, hmanager, hexec]
      exact .inr ⟨_, _, _, _, hgrown⟩
    · intro hsame
      rw [hwhole, LogLayout.afterAppend, beforeAppend_of_active hsame, LogLayout.bytes_appended,
        List.length_append, ← hlive.whole]
      exact Nat.le_add_right_of_le file.synced_le
    · rintro m ⟨⟩ hok plan'
      exact ⟨⟨hlive'.valid, hlive'.stored, hlive'.whole, hlive'.segmentId, hlive'.size,
        hlive'.nextLsn⟩, hlive'.healthy⟩
  · -- The call is rejected: nothing changes.
    have hnone : manager.entries collecting groups = [] := by
      apply entries_rejected
      rw [show manager.writer.nextLsn = l.newest.next from hlive.nextLsn]
      exact hrejected
    refine .inr ⟨l, file, known, [], ?_⟩
    simp only [step, hmanager, hexec, hnone, List.map_nil, List.append_nil]
    exact h.same hmanager
  · -- The call stopped on the way.
    have hentries := entries_accepted hlive hlsn haccepted
    obtain ⟨l', file', ⟨rfl, hactive⟩ | rfl, hvalid, hstored, hkept⟩ := hstop.left
    · -- The new segment is not there, and neither are the transactions.
      refine .inr ⟨l', file', known, (manager.entries collecting groups).map
        fun entry => ⟨entry, false⟩, ?_⟩
      simp only [step, hmanager, hexec]
      refine ⟨hvalid, h.base, hstored, by rw [h.log, List.append_nil]; rfl, h.entries,
        h.durable_grown le_rfl fun _ => (hkept rfl).2, ?_,
        fun m hm hok => (after_poisoned hstop.poisoned m hm hok).elim⟩
      intro t ht
      rw [List.mem_map] at ht
      obtain ⟨entry, hentry, rfl⟩ := ht
      rw [hentries] at hentry
      exact ⟨by rw [(chunkEntries_bounds entry hentry).1]; exact hactive, rfl⟩
    · have hgrown := h.grown hentries (after (.error halt : Exec (List (List WalValueRef)))
          wal.manager) false hvalid hstored (fun hsame => (hkept hsame).2) (by simp)
        fun m hm hok => (after_poisoned hstop.poisoned m hm hok).elim
      simp only [step, hmanager, hexec]
      exact .inr ⟨_, _, _, _, hgrown⟩

/-- A rotation of a healthy log. -/
theorem Holds.rotate (h : s.Holds l file known phantom) {manager : WALManager}
    (hmanager : s.manager = some manager) (hhealthy : manager.writer.poisoned = false)
    (maxSegmentSize : Nat) (checkpointOwner : Bool) (plan : List Answer) :
    (s.step maxSegmentSize checkpointOwner (.rotate plan)).Inv := by
  obtain ⟨rfl, hlive⟩ := h.healthy manager hmanager hhealthy
  replace hlive := hlive plan
  have hspec := LogLayout.rotateWalFile_spec (C := False) hlive
  rcases hspec.outcome rfl with ⟨id, wal, hexec, -, file', hlive', -, -⟩ | ⟨halt, wal, hexec, hstop⟩
  · refine .inr ⟨l.rotated, file', known, [], ?_⟩
    simp only [step, hmanager, hexec]
    refine ⟨hlive'.valid, h.base, hlive'.stored, h.log, h.entries.trans l.entries_rotated.symm,
      h.durable_grown (active_le_rotated l) fun hsame => ?_, by simp, ?_⟩
    · rw [LogLayout.active_rotated] at hsame
      omega
    · rintro m ⟨⟩ hok
      exact ⟨rfl, fun plan' => ⟨⟨hlive'.valid, hlive'.stored, hlive'.whole, hlive'.segmentId,
        hlive'.size, hlive'.nextLsn⟩, hlive'.healthy⟩⟩
  · obtain ⟨l', file', hl', hvalid, hstored, hkept⟩ := hstop.left
    refine .inr ⟨l', file', known, [], ?_⟩
    simp only [step, hmanager, hexec]
    have hpoisoned : ∀ m, after (.error halt : Exec Nat) wal.manager = some m →
        m.writer.poisoned = false → ([] : List Appended) = [] ∧
          ∀ plan, l'.Live file' ⟨⟨wal.io.disk, plan⟩, m⟩ :=
      fun m hm hok => (after_poisoned hstop.poisoned m hm hok).elim
    rcases hl' with ⟨rfl, -⟩ | rfl
    · exact ⟨hvalid, h.base, hstored, h.log, h.entries, h.durable_grown le_rfl
        fun hsame => (hkept hsame).2, by simp, hpoisoned⟩
    · exact ⟨hvalid, h.base, hstored, h.log, h.entries.trans l.entries_rotated.symm,
        h.durable_grown (active_le_rotated l) fun hsame => (hkept hsame).2, by simp, hpoisoned⟩

/-- A poisoned writer changes nothing. -/
theorem Holds.idle (h : s.Holds l file known phantom) {manager : WALManager}
    (hmanager : s.manager = some manager) {α : Type} {outcome : Exec α}
    (hcrash : outcome ≠ .error .crash) :
    ({ disk := s.disk, manager := after outcome manager, log := s.log } : WalSystem).Holds l file
      known phantom := by
  have hafter : after outcome manager = s.manager := by
    rw [hmanager]
    unfold after
    split
    · exact absurd rfl hcrash
    · rfl
  rw [hafter]
  exact h

/-- Every event keeps the invariant. -/
theorem Inv.step (h : s.Inv) (maxSegmentSize : Nat) (checkpointOwner : Bool) {event : WalEvent}
    (hrange : event.InRange) : (s.step maxSegmentSize checkpointOwner event).Inv := by
  rcases h with ⟨hempty, hmanager, hlog⟩ | ⟨l, file, known, phantom, h⟩
  · cases event with
    | append collecting groups plan =>
      simp only [WalSystem.step, hmanager]
      exact .inl ⟨hempty, hmanager, hlog⟩
    | rotate plan =>
      simp only [WalSystem.step, hmanager]
      exact .inl ⟨hempty, hmanager, hlog⟩
    | «open» plan => exact open_empty hempty hlog maxSegmentSize checkpointOwner plan
    | crash length =>
      refine .inl ⟨?_, rfl, hlog⟩
      simp only [WalSystem.step, hempty]
      rfl
  · cases event with
    | append collecting groups plan =>
      cases hmanager : s.manager with
      | none =>
        simp only [WalSystem.step, hmanager]
        exact .inr ⟨l, file, known, phantom, h⟩
      | some manager =>
        cases hpoisoned : manager.writer.poisoned with
        | false =>
          exact h.append hmanager hpoisoned maxSegmentSize checkpointOwner collecting hrange plan
        | true =>
          obtain ⟨outcome, hcrash, hexec⟩ :=
            LogLayout.appendTransactions_poisoned ⟨s.disk, plan⟩ hpoisoned collecting groups
          have hnone : manager.entries collecting groups = [] := if_pos (.inl hpoisoned)
          simp only [WalSystem.step, hmanager, hexec, hnone, List.map_nil, List.append_nil]
          exact .inr ⟨l, file, known, phantom, h.idle hmanager hcrash⟩
    | rotate plan =>
      cases hmanager : s.manager with
      | none =>
        simp only [WalSystem.step, hmanager]
        exact .inr ⟨l, file, known, phantom, h⟩
      | some manager =>
        cases hpoisoned : manager.writer.poisoned with
        | false => exact h.rotate hmanager hpoisoned maxSegmentSize checkpointOwner plan
        | true =>
          obtain ⟨outcome, hcrash, hexec⟩ :=
            LogLayout.rotateWalFile_poisoned ⟨s.disk, plan⟩ hpoisoned
          simp only [WalSystem.step, hmanager, hexec]
          exact .inr ⟨l, file, known, phantom, h.idle hmanager hcrash⟩
    | «open» plan => exact .inr (h.open maxSegmentSize checkpointOwner plan)
    | crash length => exact .inr ⟨l, _, known, phantom, h.crash length⟩

end

/-- Every run keeps the invariant. -/
theorem inv_run (maxSegmentSize : Nat) (checkpointOwner : Bool) {events : List WalEvent}
    (hrange : ∀ event ∈ events, event.InRange) : (run maxSegmentSize checkpointOwner events).Inv := by
  have hfold : ∀ (s : WalSystem), s.Inv →
      (events.foldl (WalSystem.step maxSegmentSize checkpointOwner) s).Inv := by
    induction events with
    | nil => exact fun s hs => hs
    | cons event events ih =>
      intro s hs
      exact ih (fun e he => hrange e (List.mem_cons_of_mem _ he)) _
        (hs.step maxSegmentSize checkpointOwner (hrange event List.mem_cons_self))
  exact hfold start (.inl ⟨rfl, rfl, rfl⟩)

/-- The log gets every transaction of a call that returns `Ok`. -/
theorem commands_entries_of_ok {manager : WALManager} {collecting : Bool}
    {groups : List (List LogCommand)} {io : Io Nat} {receipts : List (List WalValueRef)} {wal : Wal}
    (hexec : Act.exec (Wal.appendTransactions collecting groups) ⟨io, manager⟩
      = (.ok receipts, wal)) :
    (manager.entries collecting groups).map LogEntry.commands = groups := by
  have hchunks := map_commands_chunkEntries groups
  unfold Wal.appendTransactions at hexec
  by_cases hnil : groups = []
  · subst hnil
    unfold WALManager.entries
    split
    · rfl
    · exact hchunks _ _
  rw [if_neg hnil] at hexec
  by_cases hmany : maxGroupCount < groups.length
  · rw [if_pos hmany] at hexec
    cases hexec
  rw [if_neg hmany] at hexec
  cases hpoisoned : manager.writer.poisoned with
  | true =>
    rw [Act.exec_bind_error (LogLayout.ensureHealthy_poisoned hpoisoned)] at hexec
    cases hexec
  | false =>
    have hfew : ¬(manager.writer.poisoned = true ∨ maxGroupCount < groups.length) := by
      simp [hpoisoned, hmany]
    rw [Act.exec_bind_ok (LogLayout.ensureHealthy_ok hpoisoned), Act.exec_bind_ok (Act.exec_get _)]
      at hexec
    rw [WALManager.entries, if_neg hfew]
    cases hplan : groups.foldlM (planTransaction collecting) ⟨[], manager.writer.nextLsn, []⟩ with
    | ok plan => exact hchunks _ _
    | error halt =>
      dsimp only at hexec
      rw [hplan, Act.exec_bind_error (Act.exec_ofExcept _ _)] at hexec
      cases hexec

end WalSystem

/-! ### Recovery -/

/-- What a command says, as recovery returns it. -/
def LogCommand.content (command : LogCommand) : UInt8 × Nat × Key × Bytes :=
  (command.recordType.toByte, command.lsn, command.key, command.value)

/-- What a recovered record says. -/
def WALRecord.content (record : WALRecord) : UInt8 × Nat × Key × Bytes :=
  (record.recordType, record.lsn, record.key, record.value)

namespace WalSystem

/-- The transactions whose commit frame is whole in its file. -/
def survivors (s : WalSystem) : List Appended := s.log.filter fun t => t.survives s.disk

/-- Recovery from the files of a system. -/
structure RecoversExactly (s : WalSystem) (maxSegmentSize : Nat) (checkpointOwner : Bool) :
    Prop where
  /-- The directory opens, and the records are the commands of the surviving transactions. -/
  opens : ∃ manager io records,
    Act.exec (WALManager.newInner maxSegmentSize none checkpointOwner) ⟨s.disk, []⟩
      = (.ok manager, io) ∧
    Act.exec Wal.recoverRecords ⟨io, manager⟩ = (.ok records, ⟨io, manager⟩) ∧
    records.map WALRecord.content
      = (s.survivors.flatMap fun t => t.commands).map LogCommand.content
  /-- They come before the transactions that are lost. -/
  isPrefix : s.survivors <+: s.log
  /-- No acknowledged transaction is lost. -/
  acknowledged : ∀ t ∈ s.log, t.acknowledged = true → t ∈ s.survivors
  /-- A call that returns `Ok` has put all its transactions into the log. -/
  logged : ∀ manager collecting groups plan receipts wal, s.manager = some manager →
    Act.exec (Wal.appendTransactions collecting groups) ⟨⟨s.disk, plan⟩, manager⟩
      = (.ok receipts, wal) →
    ((s.step maxSegmentSize checkpointOwner (.append collecting groups plan)).log.drop
      s.log.length).map (fun t => (t.commands, t.acknowledged)) = groups.map (·, true)

theorem content_toRecord (updates : List LoggedUpdate) :
    (updates.map LoggedUpdate.toRecord).map WALRecord.content
      = (updates.map LoggedUpdate.command).map LogCommand.content := by
  rw [List.map_map, List.map_map]
  rfl

theorem logged_of_ok {s : WalSystem} {manager : WALManager} {collecting : Bool}
    {groups : List (List LogCommand)} {plan : List Answer} {receipts : List (List WalValueRef)}
    {wal : Wal} (hmanager : s.manager = some manager)
    (hexec : Act.exec (Wal.appendTransactions collecting groups) ⟨⟨s.disk, plan⟩, manager⟩
      = (.ok receipts, wal)) (maxSegmentSize : Nat) (checkpointOwner : Bool) :
    ((s.step maxSegmentSize checkpointOwner (.append collecting groups plan)).log.drop
      s.log.length).map (fun t => (t.commands, t.acknowledged)) = groups.map (·, true) := by
  have hentries := commands_entries_of_ok hexec
  simp only [step, hmanager, hexec, List.drop_left]
  generalize manager.entries collecting groups = entries at hentries
  rw [← hentries, List.map_map, List.map_map]
  rfl

theorem Holds.recovers {s : WalSystem} {l : LogLayout} {file : DurableFile}
    {known phantom : List Appended} (h : s.Holds l file known phantom) (maxSegmentSize : Nat)
    (checkpointOwner : Bool) : s.RecoversExactly maxSegmentSize checkpointOwner where
  opens := by
    have hspec := LogLayout.newInner_spec (C := True) ⟨s.disk, []⟩ h.valid h.stored h.base
      maxSegmentSize checkpointOwner
    obtain ⟨m, io, hexec, rfl, file', hio, hbytes, hmended⟩ :=
      hspec.ok_of_calm (fun _ _ hstop => hstop.1 trivial) rfl rfl
    have hstored : (l.cutTo file.bytes.length).Stored io.disk file' := by
      rw [hio]
      exact h.stored.insert (by rw [hbytes]; exact List.prefix_rfl)
    have hlive : (l.cutTo file.bytes.length).Live file' ⟨io,
        (l.cutTo file.bytes.length).manager maxSegmentSize none checkpointOwner⟩ :=
      ⟨⟨h.valid.cutTo _, hstored, hbytes, rfl, rfl, rfl⟩, rfl⟩
    obtain ⟨updates, hredo, hrecover⟩ := hlive.recoverRecords h.base
    refine ⟨_, io, _, hexec, hrecover, ?_⟩
    have hcommands : (s.survivors.flatMap fun t => t.commands)
        = (s.survivors.map Appended.toLogEntry).flatMap LogEntry.commands := by
      rw [List.flatMap_map]
    rw [content_toRecord, hredo, hcommands, WalSystem.survivors, h.survivors.1, h.survivors.2,
      LogLayout.commands_entries]
  isPrefix := h.survivors_isPrefix
  acknowledged t ht hack := List.mem_filter.mpr ⟨ht, h.acknowledged_survive t ht hack⟩
  logged _ _ _ _ _ _ hmanager hexec := logged_of_ok hmanager hexec maxSegmentSize checkpointOwner

theorem recovers_empty {s : WalSystem} (hempty : s.disk = ∅) (hlog : s.log = [])
    (maxSegmentSize : Nat) (checkpointOwner : Bool) :
    s.RecoversExactly maxSegmentSize checkpointOwner where
  opens := by
    have hspec := LogLayout.newInner_empty (C := True) ⟨s.disk, []⟩ hempty maxSegmentSize
      checkpointOwner
    obtain ⟨m, io, hexec, rfl, file, hio, hbytes, -⟩ :=
      hspec.ok_of_calm (fun _ _ hstop => hstop.1 trivial) rfl rfl
    have hstored : LogLayout.initial.Stored io.disk file := by
      rw [hio, hempty]
      exact LogLayout.initial_stored (by rw [hbytes])
    have hlive : LogLayout.initial.Live file ⟨io,
        LogLayout.initial.manager maxSegmentSize none checkpointOwner⟩ :=
      ⟨⟨LogLayout.initial_valid, hstored, hbytes.trans LogLayout.initial_bytes.symm, rfl, rfl, rfl⟩,
        rfl⟩
    obtain ⟨updates, hredo, hrecover⟩ := hlive.recoverRecords ⟨rfl, rfl⟩
    refine ⟨_, io, _, hexec, hrecover, ?_⟩
    rw [content_toRecord, hredo, survivors, hlog]
    rfl
  isPrefix := by rw [survivors, hlog]; exact List.prefix_rfl
  acknowledged := by simp [hlog]
  logged _ _ _ _ _ _ hmanager hexec := logged_of_ok hmanager hexec maxSegmentSize checkpointOwner

end WalSystem

/-- Recovery is exact after any appends, rotations, opens and crashes. -/
theorem wal_recovery_exact (maxSegmentSize : Nat) (checkpointOwner : Bool) (events : List WalEvent)
    (hrange : ∀ event ∈ events, event.InRange) :
    (WalSystem.run maxSegmentSize checkpointOwner events).RecoversExactly maxSegmentSize
      checkpointOwner := by
  cases WalSystem.inv_run maxSegmentSize checkpointOwner hrange with
  | inl hempty => exact WalSystem.recovers_empty hempty.1 hempty.2.2 maxSegmentSize checkpointOwner
  | inr hholds =>
    obtain ⟨l, file, known, phantom, h⟩ := hholds
    exact h.recovers maxSegmentSize checkpointOwner

/-- A put of one byte. -/
def onePut (key : UInt8) (lsn : Nat) : LogCommand := ⟨.put, [key], [key], lsn⟩

/-- One append succeeds, and the process stops in the next one, when both frames of the first
transaction and a part of the second transaction are written. -/
def cutAppend : List WalEvent :=
  [.open [], .append false [[onePut 1 1]] [], .append false [[onePut 2 2], [onePut 3 3]] [.crash 150],
    .crash 280]

theorem wal_recovery_exact_cutAppend :
    (WalSystem.run 4096 false cutAppend).RecoversExactly 4096 false ∧
    (WalSystem.run 4096 false cutAppend).log.map (fun t => (t.commands, t.acknowledged))
      = [([onePut 1 1], true), ([onePut 2 2], false), ([onePut 3 3], false)] ∧
    (WalSystem.run 4096 false cutAppend).survivors.map (fun t => t.commands)
      = [[onePut 1 1], [onePut 2 2]] := by
  refine ⟨wal_recovery_exact 4096 false cutAppend ?_, by decide +kernel, by decide +kernel⟩
  intro event hevent
  simp only [cutAppend, List.mem_cons, List.not_mem_nil, or_false] at hevent
  rcases hevent with rfl | rfl | rfl | rfl
  · trivial
  · simp [WalEvent.InRange, InRange, onePut, u64Limit]
  · simp [WalEvent.InRange, InRange, onePut, u64Limit]
  · trivial

end CereDB.Storage

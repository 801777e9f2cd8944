import CereDB.Proofs.WalCrash

/-!
# `CereDB.Proofs.GroupLog`: the transactions of a log that is open

`Logged` says what the write-ahead log holds after some calls of `write_engine_transactions`: the
transactions from before, then one transaction for each command list of a call that returned, all of
them durable. A call that failed may leave some of its own transactions behind them. The writer is
poisoned then, and nothing is appended any more.
-/

set_option autoImplicit false

namespace CereDB.Storage

open CereDB.Lib

/-- The commit frame of a transaction is durable. -/
def LogLayout.Durable (l : LogLayout) (file : DurableFile) (entry : LogEntry) : Prop :=
  entry.segment < l.active ∨ entry.commitEnd ≤ file.synced

/-- The log `l`, whose newest segment is in `file`, holds the transactions from before, those of
`committed`, and those a failed call left. -/
structure Logged (earlier : List LogEntry) (committed : List (List LogCommand)) (wal : Wal)
    (l : LogLayout) (file : DurableFile) (entries left : List LogEntry) : Prop where
  valid : l.Valid
  stored : l.Stored wal.io.disk file
  holds : l.entries = earlier ++ entries ++ left
  transactions : entries.map LogEntry.commands = committed
  durable : ∀ entry ∈ entries, l.Durable file entry
  healthy : wal.manager.writer.poisoned = false → left = [] ∧ l.Open file wal

section
variable {earlier : List LogEntry} {committed : List (List LogCommand)} {wal wal' : Wal}
  {l : LogLayout} {file : DurableFile} {entries left : List LogEntry}

/-- A log that is open. -/
theorem LogLayout.Live.logged (h : l.Live file wal) : Logged l.entries [] wal l file [] [] where
  valid := h.valid
  stored := h.stored
  holds := by simp
  transactions := rfl
  durable := by simp
  healthy _ := ⟨rfl, h.toOpen⟩

/-- The directory and the writer decide. -/
theorem Logged.of_writer (h : Logged earlier committed wal l file entries left)
    (hdisk : wal'.io.disk = wal.io.disk) (hwriter : wal'.manager.writer = wal.manager.writer) :
    Logged earlier committed wal' l file entries left where
  valid := h.valid
  stored := by rw [hdisk]; exact h.stored
  holds := h.holds
  transactions := h.transactions
  durable := h.durable
  healthy hok := by
    rw [hwriter] at hok
    obtain ⟨hleft, hopen⟩ := h.healthy hok
    refine ⟨hleft, hopen.valid, ?_, hopen.whole, ?_, ?_, ?_⟩
    · rw [hdisk]
      exact hopen.stored
    · rw [hwriter]
      exact hopen.segmentId
    · rw [hwriter]
      exact hopen.size
    · rw [hwriter]
      exact hopen.nextLsn

/-- What is durable stays so when the log grows. -/
theorem Logged.durable_grown (h : Logged earlier committed wal l file entries left)
    {l' : LogLayout} {file' : DurableFile} (hactive : l.active ≤ l'.active)
    (hsynced : l'.active = l.active → file.synced ≤ file'.synced) :
    ∀ entry ∈ entries, l'.Durable file' entry := by
  intro entry hentry
  by_cases hsame : l'.active = l.active
  · rw [LogLayout.Durable, hsame]
    exact (h.durable entry hentry).imp_right fun hle => hle.trans (hsynced hsame)
  · have hmem : entry ∈ l.entries := by
      rw [h.holds]
      exact List.mem_append_left _ (List.mem_append_right _ hentry)
    have hle := LogLayout.segment_le hmem
    exact .inl (by omega)

/-- A call that returned: one durable transaction for each command list. -/
theorem Logged.appended (h : Logged earlier committed wal l file entries []) (hlive : l.Live file wal)
    {groups : List (List LogCommand)} {file' : DurableFile}
    (hsynced : file'.synced = file'.bytes.length)
    (hafter : (l.afterAppend wal.manager.maxSegmentSize (groups.map committedChunk)).Live file' wal') :
    ∃ l' file' entries' left', Logged earlier (committed ++ groups) wal' l' file' entries' left' := by
  let before := l.beforeAppend wal.manager.maxSegmentSize (groups.map committedChunk)
  let added := chunkEntries before.active before.newest.bytes.length (groups.map committedChunk)
  have hwhole : file'.synced = (l.afterAppend wal.manager.maxSegmentSize
      (groups.map committedChunk)).newest.bytes.length := by rw [hsynced, hafter.whole]
  refine ⟨_, file', entries ++ added, [], hafter.valid, hafter.stored, ?_, ?_, ?_,
    fun _ => ⟨rfl, hafter.toOpen⟩⟩
  · rw [LogLayout.afterAppend, LogLayout.entries_appended, LogLayout.entries_beforeAppend, h.holds]
    simp [added, before]
  · rw [List.map_append, h.transactions, map_commands_chunkEntries]
  · intro entry hentry
    rcases List.mem_append.mp hentry with hold | hnew
    · refine h.durable_grown (WalSystem.active_le_beforeAppend l _ _) (fun hsame => ?_) entry hold
      rw [hwhole, LogLayout.afterAppend, WalSystem.beforeAppend_of_active hsame,
        LogLayout.bytes_appended, List.length_append, ← hlive.whole]
      exact Nat.le_add_right_of_le file.synced_le
    · refine .inr ((chunkEntries_bounds entry hnew).2.2.trans ?_)
      rw [hwhole, LogLayout.afterAppend, LogLayout.bytes_appended, List.length_append,
        length_frameBytes_chunks]

/-- A call that stopped on the way leaves what was there, and perhaps transactions of its own. -/
theorem Logged.stopped (h : Logged earlier committed wal l file entries []) {C R : Prop}
    {groups : List (List LogCommand)} {halt : Halt}
    (hstop : LogLayout.Stopped C R l
      (l.afterAppend wal.manager.maxSegmentSize (groups.map committedChunk)) file wal halt wal') :
    ∃ l' file' left', Logged earlier committed wal' l' file' entries left' := by
  have hpoisoned {P : Prop} (hok : wal'.manager.writer.poisoned = false) : P := by
    rw [hstop.poisoned] at hok
    cases hok
  obtain ⟨l', file', ⟨rfl, -⟩ | rfl, hvalid, hstored, hkept⟩ := hstop.left
  · exact ⟨l', file', [], hvalid, hstored, h.holds, h.transactions,
      h.durable_grown le_rfl fun hsame => (hkept hsame).2, hpoisoned⟩
  · let before := l.beforeAppend wal.manager.maxSegmentSize (groups.map committedChunk)
    refine ⟨_, file', chunkEntries before.active before.newest.bytes.length
      (groups.map committedChunk), hvalid, hstored, ?_, h.transactions,
      h.durable_grown (WalSystem.active_le_beforeAppend l _ _) fun hsame => (hkept hsame).2,
      hpoisoned⟩
    rw [LogLayout.afterAppend, LogLayout.entries_appended, LogLayout.entries_beforeAppend, h.holds,
      List.append_nil]

/-- `append_transactions` on such a log: a call that returns adds its transactions, and one that
fails adds none. -/
theorem Logged.appendTransactions (h : Logged earlier committed wal l file entries left)
    {groups : List (List LogCommand)} (hlsn : ∀ commands ∈ groups, InRange commands)
    {outcome : Exec (List (List WalValueRef))}
    (hexec : Act.exec (Wal.appendTransactions false groups) wal = (outcome, wal')) :
    ∃ l' file' entries' left', Logged earlier
      (match outcome with | .ok _ => committed ++ groups | .error _ => committed)
      wal' l' file' entries' left' := by
  by_cases hpoisoned : wal.manager.writer.poisoned = true
  · -- Nothing is written. Only a call without any group returns.
    have hidle : wal' = wal ∧ ∀ receipts, outcome = .ok receipts → groups = [] := by
      unfold Wal.appendTransactions at hexec
      by_cases hnil : groups = []
      · rw [if_pos hnil] at hexec
        exact ⟨(Prod.mk.inj hexec).2.symm, fun _ _ => hnil⟩
      rw [if_neg hnil] at hexec
      by_cases hmany : maxGroupCount < groups.length
      · rw [if_pos hmany] at hexec
        obtain ⟨rfl, rfl⟩ := Prod.mk.inj hexec
        exact ⟨rfl, by simp⟩
      · rw [if_neg hmany, Act.exec_bind_error (LogLayout.ensureHealthy_poisoned hpoisoned)] at hexec
        obtain ⟨rfl, rfl⟩ := Prod.mk.inj hexec
        exact ⟨rfl, by simp⟩
    obtain ⟨rfl, hnone⟩ := hidle
    refine ⟨l, file, entries, left, ?_⟩
    cases outcome with
    | ok receipts =>
      rw [hnone receipts rfl, List.append_nil]
      exact h
    | error halt => exact h
  · rw [Bool.not_eq_true] at hpoisoned
    obtain ⟨rfl, hopen⟩ := h.healthy hpoisoned
    have hlive : l.Live file wal := ⟨hopen, hpoisoned⟩
    have hspec := LogLayout.appendTransactions_spec (C := False) hlive hlsn false
    rcases hspec.outcome rfl with ⟨receipts, after, hafter, hcases⟩ | ⟨halt, after, hafter, hcases⟩
    · obtain ⟨rfl, rfl⟩ := Prod.mk.inj (hafter.symm.trans hexec)
      rcases hcases with ⟨rfl, rfl⟩ | ⟨-, file', -, hsynced, hgrown⟩
      · simp only [List.append_nil]
        exact ⟨l, file, entries, [], h⟩
      · exact h.appended hlive hsynced hgrown
    · obtain ⟨rfl, rfl⟩ := Prod.mk.inj (hafter.symm.trans hexec)
      rcases hcases with ⟨rfl, -⟩ | ⟨-, hstop⟩
      · exact ⟨l, file, entries, [], h⟩
      · obtain ⟨l', file', left', hleft⟩ := h.stopped hstop
        exact ⟨l', file', entries, left', hleft⟩

/-- `write_engine_transactions` on such a log. -/
theorem Logged.writeEngineTransactions (h : Logged earlier committed wal l file entries left)
    {groups : List (List LogCommand)} (hlsn : ∀ commands ∈ groups, InRange commands)
    {owner : Option CheckpointOwner} {outcome : Exec Unit}
    (hexec : Act.exec (Wal.writeEngineTransactions groups owner) wal = (outcome, wal')) :
    ∃ l' file' entries' left', Logged earlier
      (match outcome with | .ok _ => committed ++ groups | .error _ => committed)
      wal' l' file' entries' left' := by
  -- The mark of a foreign writer changes neither the directory nor the writer.
  obtain ⟨marked, hmarked, hstart⟩ : ∃ marked, Logged earlier committed marked l file entries left ∧
      Act.exec (Wal.appendEngineTransactions false groups owner) wal
        = Act.exec (Wal.appendTransactions false groups) marked := by
    by_cases howns : (!Wal.ownsCheckpoint wal.manager owner) = true
    · refine ⟨{ wal with manager := { wal.manager with rawWrites := true } },
        h.of_writer rfl rfl, ?_⟩
      rw [Wal.appendEngineTransactions, Act.exec_bind_ok (Act.exec_get wal), if_pos howns]
      rfl
    · refine ⟨wal, h, ?_⟩
      rw [Wal.appendEngineTransactions, Act.exec_bind_ok (Act.exec_get wal), if_neg howns]
  cases happend : Act.exec (Wal.appendTransactions false groups) marked with
  | mk result after =>
    have hresult := hmarked.appendTransactions hlsn happend
    rw [← hstart] at happend
    cases result with
    | ok receipts =>
      rw [Wal.writeEngineTransactions, Act.exec_bind_ok happend] at hexec
      obtain ⟨rfl, rfl⟩ := Prod.mk.inj hexec
      exact hresult
    | error halt =>
      rw [Wal.writeEngineTransactions, Act.exec_bind_error happend] at hexec
      obtain ⟨rfl, rfl⟩ := Prod.mk.inj hexec
      exact hresult

end

end CereDB.Storage

import CereDB.Proofs.WalLayout

/-!
# `CereDB.Proofs.WalSegment`: segment files and what a cut leaves of them

`survive` is what is left of chunks when their bytes are cut, and `take_chunkFrames` says that a
cut anywhere leaves exactly the frames of these chunks and a torn frame. What recovery redoes
after a cut are the commands of the chunks that are whole (`redo_survive`).

A `SegmentLog` is the contents of one segment file. `SegmentLog.Valid.scanBytes` is the scan of
such a file with a torn frame at its end, and `SegmentLog.Valid.cut_bytes` and
`SegmentLog.Valid.cut_header` say that every start of such a file is of that form, or shorter
than the header.
-/

set_option autoImplicit false

namespace CereDB.Storage

open CereDB.Lib

/-! ### What a cut leaves -/

/-- The bytes of an update frame. -/
def commandSize (command : LogCommand) : Nat := (TransactionRecord.update command).size

/-- The bytes of update frames. -/
def commandsSize (commands : List LogCommand) : Nat := (commands.map commandSize).sum

/-- The bytes of a chunk. -/
def Chunk.size (chunk : Chunk) : Nat :=
  commandsSize chunk.commands + if chunk.committed then TransactionRecord.commit.size else 0

/-- The bytes of chunks. -/
def chunksSize (chunks : List Chunk) : Nat := (chunks.map Chunk.size).sum

@[simp] theorem chunksSize_nil : chunksSize [] = 0 := rfl

@[simp] theorem chunksSize_cons (chunk : Chunk) (chunks : List Chunk) :
    chunksSize (chunk :: chunks) = chunk.size + chunksSize chunks := rfl

theorem length_frameBytes_updates (id previousLsn lsn : Nat) (commands : List LogCommand) :
    (frameBytes (updateFrames id previousLsn lsn commands)).length = commandsSize commands := by
  induction commands generalizing previousLsn lsn with
  | nil => rfl
  | cons command commands ih =>
    rw [updateFrames, frameBytes_cons, List.length_append, Frame.length_bytes, ih]
    rfl

theorem length_frameBytes_chunk (chunk : Chunk) (first : Nat) :
    (frameBytes (chunk.frames first)).length = chunk.size := by
  unfold Chunk.frames Chunk.size
  rw [frameBytes_append, List.length_append, length_frameBytes_updates]
  cases chunk.committed with
  | false => simp
  | true => simp [Frame.length_bytes, Chunk.commitFrame]

theorem length_frameBytes_chunks (first : Nat) (chunks : List Chunk) :
    (frameBytes (chunkFrames first chunks)).length = chunksSize chunks := by
  induction chunks generalizing first with
  | nil => rfl
  | cons chunk chunks ih =>
    rw [chunkFrames, frameBytes_append, List.length_append, length_frameBytes_chunk, ih,
      chunksSize_cons]

/-- The commands whose frames fit in `n` bytes. -/
def fitCommands : List LogCommand → Nat → List LogCommand
  | [], _ => []
  | command :: commands, n =>
    if commandSize command ≤ n then command :: fitCommands commands (n - commandSize command)
    else []

/-- What is left of a chunk that does not fit: the updates that do. -/
def openChunk : List LogCommand → List Chunk
  | [] => []
  | command :: commands => [⟨command :: commands, false⟩]

/-- What is left of chunks when their bytes are cut to `n`. -/
def survive : List Chunk → Nat → List Chunk
  | [], _ => []
  | chunk :: chunks, n =>
    if chunk.size ≤ n then chunk :: survive chunks (n - chunk.size)
    else openChunk (fitCommands chunk.commands n)

/-- The chunks that are whole when their bytes are cut to `n`. -/
def fitChunks : List Chunk → Nat → List Chunk
  | [], _ => []
  | chunk :: chunks, n =>
    if chunk.size ≤ n then chunk :: fitChunks chunks (n - chunk.size) else []

theorem torn_nil : Torn [] :=
  ⟨⟨1, 1, 0, .commit⟩, ⟨by decide, by decide, by decide, trivial⟩, List.nil_prefix, by
    rw [Frame.length_bytes]
    decide⟩

/-- A frame that is cut is torn. -/
theorem torn_take {frame : Frame} (h : frame.Valid) {n : Nat} (hn : n < frame.bytes.length) :
    Torn (frame.bytes.take n) :=
  ⟨frame, h, List.take_prefix n _, by rw [List.length_take]; omega⟩

/-- A cut through update frames leaves the frames that fit and a torn one. -/
theorem take_updateFrames {id previousLsn lsn : Nat} {commands : List LogCommand}
    (hvalid : ∀ frame ∈ updateFrames id previousLsn lsn commands, frame.Valid) (n : Nat) :
    ∃ torn, Torn torn ∧ (frameBytes (updateFrames id previousLsn lsn commands)).take n
      = frameBytes (updateFrames id previousLsn lsn (fitCommands commands n)) ++ torn := by
  induction commands generalizing previousLsn lsn n with
  | nil => exact ⟨[], torn_nil, by simp [updateFrames, fitCommands]⟩
  | cons command commands ih =>
    have hlength : (Frame.bytes ⟨lsn, id, previousLsn, .update command⟩).length
        = commandSize command := Frame.length_bytes _
    rw [updateFrames] at hvalid ⊢
    rw [fitCommands, frameBytes_cons]
    by_cases hfit : commandSize command ≤ n
    · obtain ⟨torn, htorn, htake⟩ := ih (fun f hf => hvalid f (List.mem_cons_of_mem _ hf))
        (n - commandSize command)
      refine ⟨torn, htorn, ?_⟩
      rw [if_pos hfit, updateFrames, frameBytes_cons, List.append_assoc, ← htake,
        List.take_append, hlength, List.take_of_length_le (by omega)]
    · refine ⟨_, torn_take (hvalid _ List.mem_cons_self) (n := n) (by omega), ?_⟩
      rw [if_neg hfit, List.take_append_of_le_length (by omega)]
      rfl

/-- All commands fit when there are enough bytes. -/
theorem fitCommands_of_le {commands : List LogCommand} {n : Nat} (h : commandsSize commands ≤ n) :
    fitCommands commands n = commands := by
  induction commands generalizing n with
  | nil => rfl
  | cons command commands ih =>
    have hsize : commandsSize (command :: commands)
        = commandSize command + commandsSize commands := rfl
    rw [fitCommands, if_pos (by omega), ih (by omega)]

theorem chunkFrames_openChunk (first : Nat) (commands : List LogCommand) :
    chunkFrames first (openChunk commands) = updateFrames first 0 first commands := by
  cases commands with
  | nil => rfl
  | cons command commands => simp [openChunk, chunkFrames, Chunk.frames]

/-- A cut through one chunk leaves the updates that fit and a torn frame. -/
theorem take_chunk {chunk : Chunk} {first n : Nat}
    (hvalid : ∀ frame ∈ chunk.frames first, frame.Valid) (hn : n < chunk.size) :
    ∃ torn, Torn torn ∧ (frameBytes (chunk.frames first)).take n
      = frameBytes (chunkFrames first (openChunk (fitCommands chunk.commands n))) ++ torn := by
  rw [chunkFrames_openChunk]
  have hupdates := length_frameBytes_updates first 0 first chunk.commands
  by_cases hcut : n < commandsSize chunk.commands
  · obtain ⟨torn, htorn, htake⟩ := take_updateFrames
      (fun f hf => hvalid f (List.mem_append_left _ hf)) n
    refine ⟨torn, htorn, ?_⟩
    rw [Chunk.frames, frameBytes_append, List.take_append_of_le_length (by omega)]
    exact htake
  · -- Only the commit frame is cut.
    have hcommitted : chunk.committed = true := by
      by_contra hopen
      rw [Bool.not_eq_true] at hopen
      rw [Chunk.size, hopen] at hn
      simp at hn
      omega
    have hframe : (chunk.commitFrame first).Valid :=
      hvalid _ (by simp [Chunk.frames, hcommitted])
    have hlength : (chunk.commitFrame first).bytes.length = TransactionRecord.commit.size :=
      Frame.length_bytes _
    rw [Chunk.size, hcommitted, if_pos rfl] at hn
    refine ⟨_, torn_take hframe (n := n - commandsSize chunk.commands) (by omega), ?_⟩
    rw [fitCommands_of_le (by omega), Chunk.frames, hcommitted, if_pos rfl, frameBytes_append,
      List.take_append, hupdates, List.take_of_length_le (by omega)]
    simp

/-- A cut anywhere leaves whole frames and a torn one. -/
theorem take_chunkFrames {chunks : List Chunk} {first : Nat}
    (hvalid : ∀ frame ∈ chunkFrames first chunks, frame.Valid) (n : Nat) :
    ∃ torn, Torn torn ∧ (frameBytes (chunkFrames first chunks)).take n
      = frameBytes (chunkFrames first (survive chunks n)) ++ torn := by
  induction chunks generalizing first n with
  | nil => exact ⟨[], torn_nil, by simp [chunkFrames, survive]⟩
  | cons chunk chunks ih =>
    have hlength := length_frameBytes_chunk chunk first
    rw [chunkFrames] at hvalid ⊢
    rw [survive, frameBytes_append]
    by_cases hfit : chunk.size ≤ n
    · obtain ⟨torn, htorn, htake⟩ := ih (fun f hf => hvalid f (List.mem_append_right _ hf))
        (n - chunk.size)
      refine ⟨torn, htorn, ?_⟩
      rw [if_pos hfit, chunkFrames, frameBytes_append, List.append_assoc, ← htake,
        List.take_append, hlength, List.take_of_length_le (by omega)]
    · obtain ⟨torn, htorn, htake⟩ := take_chunk
        (fun f hf => hvalid f (List.mem_append_left _ hf)) (Nat.lt_of_not_le hfit)
      refine ⟨torn, htorn, ?_⟩
      rw [if_neg hfit, List.take_append_of_le_length (by omega)]
      exact htake

theorem fitCommands_subset {commands : List LogCommand} {n : Nat} :
    ∀ command ∈ fitCommands commands n, command ∈ commands := by
  induction commands generalizing n with
  | nil => simp [fitCommands]
  | cons command commands ih =>
    intro c hc
    rw [fitCommands] at hc
    split at hc
    · rw [List.mem_cons] at hc ⊢
      exact hc.imp_right (ih c)
    · simp at hc

theorem openChunk_valid {commands : List LogCommand} (h : ∀ c ∈ commands, c.Loggable) :
    ∀ chunk ∈ openChunk commands, chunk.Valid := by
  cases commands with
  | nil => simp [openChunk]
  | cons command commands =>
    intro chunk hchunk
    rw [openChunk, List.mem_singleton] at hchunk
    subst hchunk
    exact ⟨List.cons_ne_nil _ _, h⟩

theorem survive_valid {chunks : List Chunk} {n : Nat} (h : ∀ c ∈ chunks, c.Valid) :
    ∀ chunk ∈ survive chunks n, chunk.Valid := by
  induction chunks generalizing n with
  | nil => simp [survive]
  | cons chunk chunks ih =>
    intro c hc
    rw [survive] at hc
    split at hc
    · rw [List.mem_cons] at hc
      cases hc with
      | inl heq => rw [heq]; exact h chunk List.mem_cons_self
      | inr hmem => exact ih (fun c hc => h c (List.mem_cons_of_mem _ hc)) c hmem
    · have hloggable := (h chunk List.mem_cons_self).loggable
      exact openChunk_valid (fun c hc => hloggable c (fitCommands_subset c hc)) c hc

theorem length_fitCommands_le (commands : List LogCommand) (n : Nat) :
    (fitCommands commands n).length ≤ commands.length := by
  induction commands generalizing n with
  | nil => simp [fitCommands]
  | cons command commands ih =>
    rw [fitCommands]
    split
    · simpa using ih _
    · simp

theorem chunkCount_survive_le (chunks : List Chunk) (n : Nat) :
    chunkCount (survive chunks n) ≤ chunkCount chunks := by
  induction chunks generalizing n with
  | nil => simp [survive]
  | cons chunk chunks ih =>
    rw [survive, chunkCount_cons]
    split
    · rw [chunkCount_cons]
      exact Nat.add_le_add_left (ih _) _
    · have hfit := length_fitCommands_le chunk.commands n
      have hcount : chunk.commands.length ≤ chunk.count := Nat.le_add_right _ _
      cases hcommands : fitCommands chunk.commands n with
      | nil => simp [openChunk]
      | cons command commands =>
        rw [hcommands] at hfit
        simp only [openChunk, chunkCount_cons, chunkCount_nil, Chunk.count] at *
        simp only [Bool.false_eq_true, if_false]
        omega

theorem commandsSize_fitCommands_le (commands : List LogCommand) (n : Nat) :
    commandsSize (fitCommands commands n) ≤ n := by
  induction commands generalizing n with
  | nil => exact Nat.zero_le n
  | cons command commands ih =>
    rw [fitCommands]
    split
    · have htail := ih (n - commandSize command)
      show commandSize command + commandsSize _ ≤ n
      omega
    · exact Nat.zero_le n

theorem fitCommands_fitCommands (commands : List LogCommand) (n : Nat) :
    fitCommands commands (commandsSize (fitCommands commands n)) = fitCommands commands n := by
  induction commands generalizing n with
  | nil => rfl
  | cons command commands ih =>
    by_cases hfit : commandSize command ≤ n
    · have hsize : commandsSize (command :: fitCommands commands (n - commandSize command))
          = commandSize command + commandsSize (fitCommands commands (n - commandSize command)) :=
        rfl
      simp only [fitCommands, if_pos hfit]
      rw [hsize, if_pos (Nat.le_add_right _ _), Nat.add_sub_cancel_left, ih]
    · have hpos : ¬commandSize command ≤ 0 := by
        simp [commandSize, TransactionRecord.size]
      simp only [fitCommands, if_neg hfit]
      exact if_neg hpos

theorem chunksSize_openChunk (commands : List LogCommand) :
    chunksSize (openChunk commands) = commandsSize commands := by
  cases commands with
  | nil => rfl
  | cons command commands => simp [openChunk, Chunk.size]

/-- A second cut right behind what the first one left changes nothing. -/
theorem survive_survive (chunks : List Chunk) (n : Nat) :
    survive chunks (chunksSize (survive chunks n)) = survive chunks n := by
  induction chunks generalizing n with
  | nil => rfl
  | cons chunk chunks ih =>
    by_cases hfit : chunk.size ≤ n
    · simp only [survive, if_pos hfit, chunksSize_cons]
      rw [if_pos (Nat.le_add_right _ _), Nat.add_sub_cancel_left, ih]
    · have hle := commandsSize_fitCommands_le chunk.commands n
      simp only [survive, if_neg hfit, chunksSize_openChunk]
      rw [if_neg (by omega), fitCommands_fitCommands]

theorem survive_zero {chunks : List Chunk} (h : ∀ c ∈ chunks, c.Valid) : survive chunks 0 = [] := by
  cases chunks with
  | nil => rfl
  | cons chunk chunks =>
    cases hcommands : chunk.commands with
    | nil => exact absurd hcommands (h chunk List.mem_cons_self).nonempty
    | cons command commands =>
      have hpos : ¬commandSize command ≤ 0 := by simp [commandSize, TransactionRecord.size]
      have hsize : ¬chunk.size ≤ 0 := by
        have hlead : commandSize command ≤ commandsSize chunk.commands := by
          rw [hcommands]
          exact Nat.le_add_right _ _
        rw [Chunk.size]
        omega
      rw [survive, if_neg hsize, hcommands, fitCommands, if_neg hpos]
      rfl

/-! ### Segments -/

/-- A segment of the log: the LSN of its first frame, and its chunks. -/
structure SegmentLog where
  first : Nat
  chunks : List Chunk
deriving DecidableEq, Repr

namespace SegmentLog

/-- The LSN behind the last frame. -/
def next (s : SegmentLog) : Nat := s.first + chunkCount s.chunks

/-- The bytes of the segment file. -/
def bytes (s : SegmentLog) : Bytes :=
  WALHeader.default.encode ++ frameBytes (chunkFrames s.first s.chunks)

/-- The commands recovery takes from the segment. -/
def redo (s : SegmentLog) : List LogCommand := s.chunks.flatMap Chunk.redo

/-- The chunks can be written, and no LSN overflows. -/
structure Valid (s : SegmentLog) : Prop where
  chunks : ∀ chunk ∈ s.chunks, chunk.Valid
  positive : 0 < s.first
  next : s.next < u64Limit

/-- What recovery finds in the first bytes of the segment file. -/
def cutTo (s : SegmentLog) (length : Nat) : SegmentLog :=
  ⟨s.first, survive s.chunks (length - walHeaderSize)⟩

theorem length_bytes (s : SegmentLog) : s.bytes.length = walHeaderSize + chunksSize s.chunks := by
  rw [bytes, List.length_append, WALHeader.length_encode, length_frameBytes_chunks]

theorem Valid.cutTo {s : SegmentLog} (h : s.Valid) (length : Nat) : (s.cutTo length).Valid where
  chunks := survive_valid h.chunks
  positive := h.positive
  next := by
    have hle := chunkCount_survive_le s.chunks (length - walHeaderSize)
    have hnext := h.next
    simp only [SegmentLog.next, SegmentLog.cutTo] at *
    omega

theorem cutTo_cutTo (s : SegmentLog) (length : Nat) :
    s.cutTo (s.cutTo length).bytes.length = s.cutTo length := by
  rw [length_bytes, cutTo, Nat.add_sub_cancel_left]
  exact congrArg (SegmentLog.mk s.first) (survive_survive _ _)

theorem Valid.frames {s : SegmentLog} (h : s.Valid) :
    ∀ frame ∈ chunkFrames s.first s.chunks, frame.Valid :=
  chunkFrames_valid h.chunks (Nat.le_of_lt h.next)

/-- A start of the segment file that holds the header is what recovery finds and a torn frame. -/
theorem Valid.cut_bytes {s : SegmentLog} (h : s.Valid) {bytes : Bytes} (hpre : bytes <+: s.bytes)
    (hheader : walHeaderSize ≤ bytes.length) :
    ∃ torn, Torn torn ∧ bytes = (s.cutTo bytes.length).bytes ++ torn := by
  obtain ⟨torn, htorn, htake⟩ := take_chunkFrames h.frames (bytes.length - walHeaderSize)
  refine ⟨torn, htorn, ?_⟩
  have hbytes := List.prefix_iff_eq_take.mp hpre
  have hlength := WALHeader.length_encode
  rw [SegmentLog.bytes, List.take_append, hlength, List.take_of_length_le (by omega), htake,
    ← List.append_assoc] at hbytes
  exact hbytes

/-- A shorter start of the segment file is a start of the header, and recovery finds nothing. -/
theorem Valid.cut_header {s : SegmentLog} (h : s.Valid) {bytes : Bytes}
    (hpre : bytes <+: s.bytes) (hshort : bytes.length < walHeaderSize) :
    bytes <+: WALHeader.default.encode ∧
      (s.cutTo bytes.length).bytes = WALHeader.default.encode := by
  constructor
  · exact List.prefix_of_prefix_length_le hpre (List.prefix_append _ _)
      (by rw [WALHeader.length_encode]; omega)
  · have hzero : bytes.length - walHeaderSize = 0 := by omega
    rw [SegmentLog.cutTo, hzero, survive_zero h.chunks, SegmentLog.bytes]
    simp [chunkFrames]

/-- The scan of a segment file with a torn frame at its end. -/
theorem Valid.scanBytes {s : SegmentLog} (h : s.Valid) {torn : Bytes} (htorn : Torn torn)
    {analysis : Analysis} {commands : List LogCommand} (hreads : analysis.Reads s.first commands)
    (segmentId : Nat) :
    ∃ analysis', scanBytes segmentId (s.bytes ++ torn) analysis
        = .ok (analysis', walVersion, s.bytes.length) ∧
      analysis'.Reads s.next (commands ++ s.redo) := by
  have hlsn : s.first + chunkCount s.chunks ≤ u64Limit := Nat.le_of_lt h.next
  obtain ⟨analysis', haccept, hreads'⟩ := hreads.accept_chunks h.positive h.chunks hlsn
    (if analysis.trackRefs then segmentId else 0) walHeaderSize
  refine ⟨analysis', ?_, hreads'⟩
  have hdrop : (s.bytes ++ torn).drop walHeaderSize
      = frameBytes (chunkFrames s.first s.chunks) ++ torn := by
    rw [SegmentLog.bytes, List.append_assoc, List.drop_left' WALHeader.length_encode]
  have hfuel : (chunkFrames s.first s.chunks).length
      ≤ (frameBytes (chunkFrames s.first s.chunks) ++ torn).length := by
    have hle : (chunkFrames s.first s.chunks).length
        ≤ (frameBytes (chunkFrames s.first s.chunks)).length :=
      length_le_frameBytes _
    rw [List.length_append]
    omega
  have hscan := scanFrames_frames h.frames htorn (if analysis.trackRefs then segmentId else 0) _
    walHeaderSize analysis hfuel
  rw [haccept, length_frameBytes_chunks, ← length_bytes] at hscan
  rw [Storage.scanBytes, SegmentLog.bytes, List.append_assoc, WALHeader.decode_default,
    ← List.append_assoc, ← SegmentLog.bytes]
  dsimp only [bind, Except.bind]
  rw [if_neg (by simp [WALHeader.default, walVersion, legacyWalVersion]),
    if_neg (by simp [WALHeader.default])]
  rw [if_neg (by simp [WALHeader.default, walVersion, legacyWalVersion]), hdrop, hscan]
  rfl

end SegmentLog

end CereDB.Storage

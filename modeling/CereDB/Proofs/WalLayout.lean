import CereDB.Proofs.WalCodec

/-!
# `CereDB.Proofs.WalLayout`: the log as a sequence of transactions

A log is a sequence of chunks: the frames of one transaction, with the commit frame or, when a
crash cut the transaction short, without it. `chunkFrames` lays chunks out as frames from an LSN
on, as `append_transactions` does. `Analysis.Reads.accept_chunks` is the recovery analysis of such a log:
it accepts every frame, and redoes exactly the commands of the committed chunks.
-/

set_option autoImplicit false

namespace CereDB.Storage

open CereDB.Lib

/-! ### Chunks and their frames -/

/-- The frames of one transaction: some updates, and the commit frame if it is there. -/
structure Chunk where
  commands : List LogCommand
  committed : Bool
deriving DecidableEq, Repr

/-- The update frames of a transaction, each linked to the one before. -/
def updateFrames (transactionId : Nat) : Nat → Nat → List LogCommand → List Frame
  | _, _, [] => []
  | previousLsn, lsn, command :: commands =>
    ⟨lsn, transactionId, previousLsn, .update command⟩ ::
      updateFrames transactionId lsn (lsn + 1) commands

namespace Chunk

/-- The commit frame of the transaction that starts at an LSN. -/
def commitFrame (chunk : Chunk) (first : Nat) : Frame :=
  ⟨first + chunk.commands.length, first, first + chunk.commands.length - 1, .commit⟩

/-- The frames of a chunk. The LSN of the first one is the id of the transaction. -/
def frames (chunk : Chunk) (first : Nat) : List Frame :=
  updateFrames first 0 first chunk.commands ++
    if chunk.committed then [chunk.commitFrame first] else []

/-- How many frames a chunk has. -/
def count (chunk : Chunk) : Nat := chunk.commands.length + if chunk.committed then 1 else 0

/-- The commands recovery takes from a chunk. -/
def redo (chunk : Chunk) : List LogCommand := if chunk.committed then chunk.commands else []

/-- A chunk has an update, and its commands can be logged. -/
structure Valid (chunk : Chunk) : Prop where
  nonempty : chunk.commands ≠ []
  loggable : ∀ command ∈ chunk.commands, command.Loggable

end Chunk

/-- The frames of chunks from an LSN on. -/
def chunkFrames : Nat → List Chunk → List Frame
  | _, [] => []
  | first, chunk :: chunks => chunk.frames first ++ chunkFrames (first + chunk.count) chunks

/-- How many frames chunks have. -/
def chunkCount (chunks : List Chunk) : Nat := (chunks.map Chunk.count).sum

@[simp] theorem chunkCount_nil : chunkCount [] = 0 := rfl

@[simp] theorem chunkCount_cons (chunk : Chunk) (chunks : List Chunk) :
    chunkCount (chunk :: chunks) = chunk.count + chunkCount chunks := rfl

@[simp] theorem chunkCount_append (chunks more : List Chunk) :
    chunkCount (chunks ++ more) = chunkCount chunks + chunkCount more := by
  simp [chunkCount]

theorem chunkFrames_append (first : Nat) (chunks more : List Chunk) :
    chunkFrames first (chunks ++ more)
      = chunkFrames first chunks ++ chunkFrames (first + chunkCount chunks) more := by
  induction chunks generalizing first with
  | nil => rfl
  | cons chunk chunks ih =>
    rw [List.cons_append, chunkFrames, chunkFrames, ih, List.append_assoc, chunkCount_cons,
      Nat.add_assoc]

@[simp] theorem length_updateFrames (transactionId previousLsn lsn : Nat)
    (commands : List LogCommand) :
    (updateFrames transactionId previousLsn lsn commands).length = commands.length := by
  induction commands generalizing previousLsn lsn with
  | nil => rfl
  | cons command commands ih => rw [updateFrames, List.length_cons, ih, List.length_cons]

/-! ### The frames are valid -/

theorem updateFrames_valid {transactionId previousLsn lsn : Nat} {commands : List LogCommand}
    (hid : transactionId < 256 ^ 8) (hprevious : previousLsn < 256 ^ 8)
    (hlsn : lsn + commands.length ≤ 256 ^ 8) (hloggable : ∀ c ∈ commands, c.Loggable) :
    ∀ frame ∈ updateFrames transactionId previousLsn lsn commands, frame.Valid := by
  induction commands generalizing previousLsn lsn with
  | nil => simp [updateFrames]
  | cons command commands ih =>
    rw [List.length_cons] at hlsn
    intro frame hframe
    rw [updateFrames, List.mem_cons] at hframe
    cases hframe with
    | inl heq =>
      subst heq
      exact ⟨by show lsn < _; omega, hid, hprevious, hloggable command List.mem_cons_self⟩
    | inr hmem =>
      exact ih (by omega) (by omega) (fun c hc => hloggable c (List.mem_cons_of_mem _ hc))
        frame hmem

theorem Chunk.frames_valid {chunk : Chunk} {first : Nat} (h : chunk.Valid)
    (hlsn : first + chunk.count ≤ 256 ^ 8) : ∀ frame ∈ chunk.frames first, frame.Valid := by
  have hlength : 0 < chunk.commands.length := List.length_pos_of_ne_nil h.nonempty
  have hcount : chunk.commands.length ≤ chunk.count := Nat.le_add_right _ _
  intro frame hframe
  rw [Chunk.frames, List.mem_append] at hframe
  cases hframe with
  | inl hmem =>
    exact updateFrames_valid (by omega) (by decide) (by omega) h.loggable frame hmem
  | inr hmem =>
    cases hcommitted : chunk.committed with
    | false => simp [hcommitted] at hmem
    | true =>
      rw [Chunk.count, hcommitted, if_pos rfl] at hlsn
      simp only [hcommitted, if_true, List.mem_singleton] at hmem
      subst hmem
      exact ⟨by show first + _ < _; omega, by show first < _; omega,
        by show first + _ - 1 < _; omega, trivial⟩

theorem chunkFrames_valid {chunks : List Chunk} {first : Nat} (h : ∀ c ∈ chunks, c.Valid)
    (hlsn : first + chunkCount chunks ≤ 256 ^ 8) :
    ∀ frame ∈ chunkFrames first chunks, frame.Valid := by
  induction chunks generalizing first with
  | nil => simp [chunkFrames]
  | cons chunk chunks ih =>
    rw [chunkCount_cons] at hlsn
    intro frame hframe
    rw [chunkFrames, List.mem_append] at hframe
    cases hframe with
    | inl hmem =>
      exact Chunk.frames_valid (h chunk List.mem_cons_self) (by omega) frame hmem
    | inr hmem =>
      exact ih (fun c hc => h c (List.mem_cons_of_mem _ hc)) (by omega) frame hmem

/-! ### The analysis of chunks -/

/-- The frame continues the chain the analysis has read. -/
structure Analysis.Chains (analysis : Analysis) (frame : Frame) : Prop where
  lsn : frame.lsn = analysis.latestLsn + 1
  inRange : frame.lsn < u64Limit
  positive : frame.transactionId ≠ 0
  isOpen : frame.transactionId ∉ analysis.committedTransactions
  previous : frame.previousLsn = analysis.previousLsn frame.transactionId

/-- What every accepted frame does to the analysis. -/
def Analysis.advance (analysis : Analysis) (frame : Frame) : Analysis :=
  { analysis with
    latestLsn := frame.lsn
    previousLsns := analysis.previousLsns.insert frame.transactionId frame.lsn }

/-- The checks of `accept` pass for a frame that continues the chain. -/
theorem Analysis.Chains.check {analysis : Analysis} {frame : Frame} (h : analysis.Chains frame) :
    addOrPanic analysis.latestLsn 1 = .ok frame.lsn ∧
      ¬(frame.lsn ≠ frame.lsn ∨ frame.transactionId = 0 ∨
        frame.transactionId ∈ analysis.committedTransactions ∨
        frame.previousLsn ≠ analysis.previousLsn frame.transactionId) := by
  constructor
  · rw [h.lsn]
    exact addOrPanic_of_lt (by rw [← h.lsn]; exact h.inRange)
  · rintro (hbad | hbad | hbad | hbad)
    · exact hbad rfl
    · exact h.positive hbad
    · exact h.isOpen hbad
    · exact hbad h.previous

/-- An accepted update stands last. -/
theorem Analysis.acceptUpdate_updates (analysis : Analysis) (frame : Frame) (command : LogCommand)
    (checksum : Nat) (position : FramePosition) :
    ∃ update, (analysis.acceptUpdate frame command checksum position).updates
        = analysis.updates ++ [update] ∧
      update.command = command ∧ update.transactionId = frame.transactionId :=
  ⟨_, rfl, rfl, rfl⟩

theorem Analysis.Chains.accept_update {analysis : Analysis} {frame : Frame}
    (h : analysis.Chains frame) {command : LogCommand} (hrecord : frame.record = .update command)
    (checksum : Nat) (position : FramePosition) :
    analysis.accept frame checksum position
      = .ok ((analysis.acceptUpdate frame command checksum position).advance frame) := by
  rw [Analysis.accept]
  dsimp only
  rw [h.check.1]
  show (if _ then _ else _) = _
  rw [if_neg h.check.2, hrecord]
  rfl

theorem Analysis.Chains.accept_commit {analysis : Analysis} {frame : Frame}
    (h : analysis.Chains frame) (hrecord : frame.record = .commit)
    (hprevious : frame.previousLsn ≠ 0) (checksum : Nat) (position : FramePosition) :
    analysis.accept frame checksum position
      = .ok ((analysis.acceptCommit frame position).advance frame) := by
  rw [h.previous] at hprevious
  rw [Analysis.accept]
  dsimp only
  rw [h.check.1]
  show (if _ then _ else _) = _
  rw [if_neg h.check.2, hrecord]
  simp only [if_neg hprevious]
  rfl

/-- The analysis has read a log up to an LSN and would redo these commands. The transactions it
knows are all older, so the next one is new to it. -/
structure Analysis.Reads (analysis : Analysis) (next : Nat) (commands : List LogCommand) :
    Prop where
  latest : analysis.latestLsn + 1 = next
  unknown : ∀ id, next ≤ id → analysis.previousLsns[id]? = none
  committed : ∀ id ∈ analysis.committedTransactions, id < next
  updates : ∀ update ∈ analysis.updates, update.transactionId < next
  commands : analysis.committedUpdates.map LoggedUpdate.command = commands
  legacy : analysis.legacy = []

/-- The LSN in front of the next frame of a transaction. -/
def previousFrame (id : Nat) (done : List LogCommand) : Nat :=
  if done = [] then 0 else id + done.length - 1

/-- The analysis `b` has gone on from `a` with these updates of the transaction `id`. -/
structure Analysis.Inside (a b : Analysis) (id : Nat) (done : List LogCommand) : Prop where
  latest : b.latestLsn + 1 = id + done.length
  previous : b.previousLsn id = previousFrame id done
  others : ∀ other, other ≠ id → b.previousLsns[other]? = a.previousLsns[other]?
  committed : b.committedTransactions = a.committedTransactions
  updates : ∃ more, b.updates = a.updates ++ more ∧ more.map LoggedUpdate.command = done ∧
    ∀ update ∈ more, update.transactionId = id
  legacy : b.legacy = a.legacy

/-- A new transaction starts where the log ends. -/
theorem Analysis.Reads.inside {a : Analysis} {next : Nat} {commands : List LogCommand}
    (h : a.Reads next commands) : a.Inside a next [] where
  latest := h.latest
  previous := by simp [Analysis.previousLsn, h.unknown next le_rfl, previousFrame]
  others _ _ := rfl
  committed := rfl
  updates := ⟨[], by simp⟩
  legacy := rfl

/-- One more update of the transaction. -/
theorem Analysis.Inside.accept_update {a b : Analysis} {id : Nat} {done : List LogCommand}
    (h : a.Inside b id done) (hpos : 0 < id) (hnew : id ∉ a.committedTransactions)
    (hlsn : id + done.length < u64Limit) (command : LogCommand) (checksum : Nat)
    (position : FramePosition) :
    ∃ b', b.accept ⟨id + done.length, id, previousFrame id done, .update command⟩ checksum position
        = .ok b' ∧ a.Inside b' id (done ++ [command]) := by
  have hchains : b.Chains ⟨id + done.length, id, previousFrame id done, .update command⟩ :=
    ⟨h.latest.symm, hlsn, by show id ≠ 0; omega, by rw [h.committed]; exact hnew, h.previous.symm⟩
  refine ⟨_, hchains.accept_update rfl checksum position, ?_⟩
  obtain ⟨more, hupdates, hcommands, hids⟩ := h.updates
  constructor
  case latest => simp [Analysis.advance, Nat.add_assoc]
  case previous => simp [Analysis.previousLsn, Analysis.advance, previousFrame]
  case others =>
    intro other hother
    have hne : ¬id = other := fun heq => hother heq.symm
    simp [Analysis.advance, OrdMap.get?_insert, hne, acceptUpdate, h.others other hother]
  case committed => exact h.committed
  case legacy => exact h.legacy
  case updates =>
    obtain ⟨last, hlast, hcommand, hid⟩ := b.acceptUpdate_updates
      ⟨id + done.length, id, previousFrame id done, .update command⟩ command checksum position
    refine ⟨more ++ [last], ?_, ?_, ?_⟩
    · rw [← List.append_assoc, ← hupdates]
      exact hlast
    · simp [hcommands, hcommand]
    · intro update hupdate
      rw [List.mem_append, List.mem_singleton] at hupdate
      cases hupdate with
      | inl hmem => exact hids update hmem
      | inr heq => rw [heq, hid]

theorem acceptFrames_append (segmentId : Nat) (frames more : List Frame) (offset : Nat)
    (analysis : Analysis) :
    acceptFrames segmentId (frames ++ more) offset analysis
      = (acceptFrames segmentId frames offset analysis >>=
          acceptFrames segmentId more (offset + (frameBytes frames).length)) := by
  induction frames generalizing offset analysis with
  | nil => rfl
  | cons frame frames ih =>
    rw [List.cons_append, acceptFrames, acceptFrames]
    cases analysis.accept frame frame.checksum ⟨segmentId, offset, frame.bytes.length⟩ with
    | error halt => rfl
    | ok analysis =>
      have htail := ih (offset + frame.bytes.length) analysis
      rw [frameBytes_cons, List.length_append, ← Nat.add_assoc]
      exact htail

/-- All updates of the transaction. -/
theorem Analysis.Inside.accept_updates {a b : Analysis} {id : Nat} {done : List LogCommand}
    (h : a.Inside b id done) (hpos : 0 < id) (hnew : id ∉ a.committedTransactions)
    (segmentId offset : Nat) {commands : List LogCommand}
    (hlsn : id + done.length + commands.length ≤ u64Limit) :
    ∃ b', acceptFrames segmentId
        (updateFrames id (previousFrame id done) (id + done.length) commands) offset b = .ok b' ∧
      a.Inside b' id (done ++ commands) := by
  induction commands generalizing b done offset with
  | nil => exact ⟨b, rfl, by rw [List.append_nil]; exact h⟩
  | cons command commands ih =>
    rw [List.length_cons] at hlsn
    rw [updateFrames, acceptFrames]
    obtain ⟨b', haccept, hinside⟩ := h.accept_update hpos hnew (by omega) command _ _
    rw [haccept]
    have hprevious : previousFrame id (done ++ [command]) = id + done.length := by
      simp [previousFrame]
    have hnext : id + (done ++ [command]).length = id + done.length + 1 := by simp [Nat.add_assoc]
    have htail := ih hinside (offset + (Frame.bytes ⟨id + done.length, id,
      previousFrame id done, .update command⟩).length) (by rw [hnext]; omega)
    rw [hprevious, hnext, List.append_assoc] at htail
    exact htail

/-- Between two transactions: the log has been read up to the end of the open one, which stays
without a commit. -/
theorem Analysis.Inside.reads_of_open {a b : Analysis} {id : Nat} {commands done : List LogCommand}
    (h : a.Inside b id done) (hreads : a.Reads id commands) (hdone : done ≠ []) :
    b.Reads (id + done.length) commands := by
  have hlength : 0 < done.length := List.length_pos_of_ne_nil hdone
  obtain ⟨more, hupdates, hcommands, hids⟩ := h.updates
  have hnew : id ∉ a.committedTransactions := fun hmem => Nat.lt_irrefl _ (hreads.committed id hmem)
  constructor
  case latest => exact h.latest
  case unknown =>
    intro other hother
    rw [h.others other (by omega)]
    exact hreads.unknown other (by omega)
  case committed =>
    intro other hother
    rw [h.committed] at hother
    have := hreads.committed other hother
    omega
  case updates =>
    intro update hupdate
    rw [hupdates, List.mem_append] at hupdate
    cases hupdate with
    | inl hmem => have := hreads.updates update hmem; omega
    | inr hmem => rw [hids update hmem]; omega
  case commands =>
    -- No update of the open transaction counts.
    have hnone : more.filter (fun update => update.transactionId ∈ a.committedTransactions) = [] := by
      rw [List.filter_eq_nil_iff]
      intro update hupdate
      rw [hids update hupdate]
      simpa using hnew
    have hold := hreads.commands
    rw [Analysis.committedUpdates] at hold
    rw [Analysis.committedUpdates, h.committed, hupdates, List.filter_append, hnone,
      List.append_nil, hold]
  case legacy => rw [h.legacy, hreads.legacy]

/-- The commit of the open transaction adds its commands to those to redo. -/
theorem Analysis.Inside.accept_commit {a b : Analysis} {id : Nat} {commands done : List LogCommand}
    (h : a.Inside b id done) (hreads : a.Reads id commands) (hpos : 0 < id) (hdone : done ≠ [])
    (hlsn : id + done.length < u64Limit) (checksum : Nat) (position : FramePosition) :
    ∃ b', b.accept ⟨id + done.length, id, id + done.length - 1, .commit⟩ checksum position
        = .ok b' ∧ b'.Reads (id + done.length + 1) (commands ++ done) := by
  have hlength : 0 < done.length := List.length_pos_of_ne_nil hdone
  have hnew : id ∉ a.committedTransactions := fun hmem => Nat.lt_irrefl _ (hreads.committed id hmem)
  have hprevious : previousFrame id done = id + done.length - 1 := if_neg hdone
  have hchains : b.Chains ⟨id + done.length, id, id + done.length - 1, .commit⟩ :=
    ⟨h.latest.symm, hlsn, by show id ≠ 0; omega, by rw [h.committed]; exact hnew,
      by rw [h.previous, hprevious]⟩
  refine ⟨_, hchains.accept_commit rfl (by show id + done.length - 1 ≠ 0; omega) checksum position,
    ?_⟩
  obtain ⟨more, hupdates, hcommands, hids⟩ := h.updates
  constructor
  case latest => rfl
  case unknown =>
    intro other hother
    have hne : ¬id = other := by omega
    simp only [Analysis.advance, acceptCommit, OrdMap.get?_insert, if_neg hne]
    rw [h.others other (by omega)]
    exact hreads.unknown other (by omega)
  case committed =>
    intro other hother
    simp only [Analysis.advance, acceptCommit, Finset.mem_insert, h.committed] at hother
    cases hother with
    | inl heq => omega
    | inr hmem => have := hreads.committed other hmem; omega
  case updates =>
    intro update hupdate
    simp only [Analysis.advance, acceptCommit, hupdates, List.mem_append] at hupdate
    cases hupdate with
    | inl hmem => have := hreads.updates update hmem; omega
    | inr hmem => rw [hids update hmem]; omega
  case commands =>
    -- Older updates are all of other transactions, so their status does not change.
    have hold : a.updates.filter (fun update =>
          update.transactionId ∈ insert id a.committedTransactions) = a.committedUpdates := by
      apply List.filter_congr
      intro update hupdate
      have hne : update.transactionId ≠ id := by have := hreads.updates update hupdate; omega
      simp [hne]
    have hall : more.filter (fun update =>
          update.transactionId ∈ insert id a.committedTransactions) = more := by
      rw [List.filter_eq_self]
      intro update hupdate
      simp [hids update hupdate]
    simp only [Analysis.advance, acceptCommit, Analysis.committedUpdates, h.committed, hupdates,
      List.filter_append, hold, hall, List.map_append, hcommands]
    rw [← hreads.commands, Analysis.committedUpdates]
  case legacy => exact h.legacy.trans hreads.legacy

/-- A chunk is accepted, and its commands are redone if it is committed. -/
theorem Analysis.Reads.accept_chunk {a : Analysis} {next : Nat} {commands : List LogCommand}
    (h : a.Reads next commands) (hpos : 0 < next) {chunk : Chunk} (hvalid : chunk.Valid)
    (hlsn : next + chunk.count ≤ u64Limit) (segmentId offset : Nat) :
    ∃ b, acceptFrames segmentId (chunk.frames next) offset a = .ok b ∧
      b.Reads (next + chunk.count) (commands ++ chunk.redo) := by
  have hnew : next ∉ a.committedTransactions := fun hmem => Nat.lt_irrefl _ (h.committed next hmem)
  have hcount : chunk.commands.length ≤ chunk.count := Nat.le_add_right _ _
  have hroom : next + ([] : List LogCommand).length + chunk.commands.length ≤ u64Limit := by
    simp; omega
  obtain ⟨b, haccept, hinside⟩ := h.inside.accept_updates hpos hnew segmentId offset hroom
  have hupdates : acceptFrames segmentId (updateFrames next 0 next chunk.commands) offset a
      = .ok b := haccept
  rw [List.nil_append] at hinside
  rw [Chunk.frames, acceptFrames_append, hupdates]
  cases hcommitted : chunk.committed with
  | false =>
    refine ⟨b, rfl, ?_⟩
    have hreads := hinside.reads_of_open h hvalid.nonempty
    simpa [Chunk.count, Chunk.redo, hcommitted] using hreads
  | true =>
    have hlast : next + chunk.commands.length < u64Limit := by
      rw [Chunk.count, hcommitted, if_pos rfl] at hlsn
      omega
    obtain ⟨b', hcommit, hreads⟩ := hinside.accept_commit h hpos hvalid.nonempty hlast _ _
    refine ⟨b', ?_, ?_⟩
    · show acceptFrames segmentId [chunk.commitFrame next] _ b = _
      rw [acceptFrames, Chunk.commitFrame, hcommit]
      rfl
    · simpa [Chunk.count, Chunk.redo, hcommitted, Nat.add_assoc] using hreads

/-- The recovery analysis of a log: every frame is accepted, and exactly the commands of the
committed chunks are redone. -/
theorem Analysis.Reads.accept_chunks {a : Analysis} {next : Nat} {commands : List LogCommand}
    (h : a.Reads next commands) (hpos : 0 < next) {chunks : List Chunk}
    (hvalid : ∀ chunk ∈ chunks, chunk.Valid) (hlsn : next + chunkCount chunks ≤ u64Limit)
    (segmentId offset : Nat) :
    ∃ b, acceptFrames segmentId (chunkFrames next chunks) offset a = .ok b ∧
      b.Reads (next + chunkCount chunks) (commands ++ chunks.flatMap Chunk.redo) := by
  induction chunks generalizing a next commands offset with
  | nil => exact ⟨a, rfl, by simpa using h⟩
  | cons chunk chunks ih =>
    rw [chunkCount_cons] at hlsn
    obtain ⟨b, haccept, hreads⟩ :=
      h.accept_chunk hpos (hvalid chunk List.mem_cons_self) (by omega) segmentId offset
    obtain ⟨c, hrest, hall⟩ := ih hreads (by omega)
      (fun c hc => hvalid c (List.mem_cons_of_mem _ hc)) (by omega)
      (offset + (frameBytes (chunk.frames next)).length)
    refine ⟨c, ?_, ?_⟩
    · rw [chunkFrames, acceptFrames_append, haccept]
      exact hrest
    · rw [chunkCount_cons, List.flatMap_cons, ← Nat.add_assoc, ← List.append_assoc]
      exact hall

end CereDB.Storage

import CereDB.Proofs.WalDecode
import CereDB.Proofs.WalLayout

/-!
# `CereDB.Proofs.WalAnalysis`: what the recovery analysis makes of any log it accepts

`Analysis.accept` decides frame by frame, with maps that are keyed by transaction. The transactions
of a log may be interleaved in any way. `Analysis.History` says what the maps know about the frames
accepted so far; `History.accept` is one frame and `History.acceptAll` a whole log.
`recovery_atomic` is the result: `redo` returns the updates of exactly the transactions with a
commit frame, in the order of the log.

A `ScannedFrame` is what the scan of a segment hands to `accept`. Its record fits into a frame, as
the scan has checked (`exists_acceptAll_of_scanFrames`).
-/

set_option autoImplicit false

namespace CereDB.Storage

open CereDB.Lib

/-! ### Accepting one frame -/

namespace Analysis

/-- A frame is accepted only when it continues the chain. -/
theorem chains_of_accept {analysis analysis' : Analysis} {frame : Frame} {checksum : Nat}
    {position : FramePosition} (h : analysis.accept frame checksum position = .ok analysis') :
    analysis.Chains frame := by
  rw [accept] at h
  obtain ⟨expected, hexpected, h⟩ := Exec.bind_eq_ok h
  split at h
  · cases h
  rename_i hchecks
  obtain ⟨hlsn, hid, hopen, hprevious⟩ : frame.lsn = expected ∧ frame.transactionId ≠ 0 ∧
      frame.transactionId ∉ analysis.committedTransactions ∧
      frame.previousLsn = analysis.previousLsn frame.transactionId := by
    simpa only [not_or, not_not] using hchecks
  rw [addOrPanic, checkedAdd] at hexpected
  split at hexpected
  · rename_i sum hsum
    split at hsum
    · rename_i hlt
      have hnext : analysis.latestLsn + 1 = expected :=
        (Option.some.inj hsum).trans (Except.ok.inj hexpected)
      exact ⟨by omega, by omega, hid, hopen, hprevious⟩
    · cases hsum
  · cases hexpected

/-- What an accepted frame does: an update is logged, a commit closes its transaction. -/
theorem accept_cases {analysis analysis' : Analysis} {frame : Frame} {checksum : Nat}
    {position : FramePosition} (h : analysis.accept frame checksum position = .ok analysis') :
    (∃ command, frame.record = .update command ∧
      analysis' = (analysis.acceptUpdate frame command checksum position).advance frame) ∨
    (frame.record = .commit ∧ frame.previousLsn ≠ 0 ∧
      analysis' = (analysis.acceptCommit frame position).advance frame) := by
  have hchains := chains_of_accept h
  cases hrecord : frame.record with
  | update command =>
    rw [hchains.accept_update hrecord] at h
    exact .inl ⟨command, rfl, (Except.ok.inj h).symm⟩
  | commit =>
    right
    by_cases hprevious : frame.previousLsn = 0
    · rw [accept] at h
      dsimp only at h
      rw [hchains.check.1] at h
      replace h : (if _ then _ else _) = _ := h
      rw [if_neg hchains.check.2, hrecord] at h
      rw [hchains.previous] at hprevious
      simp only [if_pos hprevious] at h
      cases h
    · rw [hchains.accept_commit hrecord hprevious] at h
      exact ⟨rfl, hprevious, (Except.ok.inj h).symm⟩

end Analysis

/-! ### Logs -/

/-- A frame as the scan found it, with its checksum and its place. -/
structure ScannedFrame where
  frame : Frame
  checksum : Nat
  position : FramePosition
  fits : frame.record.size ≤ frameHeaderSize + maxFrameSize

namespace ScannedFrame

/-- The frame commits a transaction. -/
def commits (scanned : ScannedFrame) (transactionId : Nat) : Bool :=
  scanned.frame.record = .commit ∧ scanned.frame.transactionId = transactionId

/-- The record recovery makes of an update. -/
def record? (scanned : ScannedFrame) : Option WALRecord :=
  match scanned.frame.record with
  | .update command => some {
      recordType := command.recordType.toByte
      lsn := command.lsn
      key := command.key
      value := command.value
      checksum := scanned.checksum }
  | .commit => none

end ScannedFrame

/-- Some frame commits the transaction. -/
def committedIn (frames : List ScannedFrame) (transactionId : Nat) : Bool :=
  frames.any fun scanned => scanned.commits transactionId

/-- The updates of the transactions with a commit frame, in the order of the log. -/
def committedRecords (frames : List ScannedFrame) : List WALRecord :=
  (frames.filter fun scanned => committedIn frames scanned.frame.transactionId).filterMap
    ScannedFrame.record?

/-- The analysis of a list of frames. -/
def Analysis.acceptAll (analysis : Analysis) (frames : List ScannedFrame) : Exec Analysis :=
  frames.foldlM (fun analysis scanned =>
    analysis.accept scanned.frame scanned.checksum scanned.position) analysis

/-! ### The invariant -/

/-- A logged update is the update of a frame. -/
structure LoggedUpdate.Logs (trackRefs : Bool) (update : LoggedUpdate) (scanned : ScannedFrame) :
    Prop where
  record : scanned.record? = some update.toRecord
  transaction : update.transactionId = scanned.frame.transactionId
  position : trackRefs = true → update.position.isSome
  key : update.command.key.length < u32Limit

/-- What the analysis knows about the frames it has accepted behind an LSN. -/
structure Analysis.History (analysis : Analysis) (latest : Nat) (frames : List ScannedFrame) :
    Prop where
  lsns : frames.map (fun scanned => scanned.frame.lsn) = List.range' (latest + 1) frames.length
  latestLsn : analysis.latestLsn = latest + frames.length
  committed : ∀ id, id ∈ analysis.committedTransactions ↔ committedIn frames id = true
  updates : List.Forall₂ (LoggedUpdate.Logs analysis.trackRefs) analysis.updates
    (frames.filter fun scanned => scanned.record?.isSome)
  closed : frames.Pairwise fun earlier later =>
    earlier.commits later.frame.transactionId = false
  commitPositions : analysis.trackRefs = true → ∀ id ∈ analysis.committedTransactions,
    (analysis.commitPositions[id]?).isSome
  legacy : analysis.legacy = []

namespace Analysis

theorem History.new (latest : Nat) (trackRefs : Bool) : (new latest trackRefs).History latest [] where
  lsns := rfl
  latestLsn := rfl
  committed id := by simp [Analysis.new, committedIn]
  updates := .nil
  closed := .nil
  commitPositions _ id hid := by simp [Analysis.new] at hid
  legacy := rfl

variable {analysis analysis' : Analysis} {latest : Nat} {frames : List ScannedFrame}

theorem committedIn_concat (frames : List ScannedFrame) (scanned : ScannedFrame) (id : Nat) :
    committedIn (frames ++ [scanned]) id = (committedIn frames id || scanned.commits id) := by
  simp [committedIn]

/-- One more frame. -/
theorem History.accept (h : analysis.History latest frames) {scanned : ScannedFrame}
    (haccept : analysis.accept scanned.frame scanned.checksum scanned.position = .ok analysis') :
    analysis'.History latest (frames ++ [scanned]) := by
  have hchains := chains_of_accept haccept
  have hlsns : (frames ++ [scanned]).map (fun scanned => scanned.frame.lsn) =
      List.range' (latest + 1) (frames ++ [scanned]).length := by
    rw [List.map_append, List.length_append, List.length_singleton, List.range'_1_concat, h.lsns,
      List.map_singleton, hchains.lsn, h.latestLsn]
    congr 2
    omega
  have hlatest : scanned.frame.lsn = latest + (frames ++ [scanned]).length := by
    rw [hchains.lsn, h.latestLsn, List.length_append, List.length_singleton, Nat.add_assoc]
  -- an accepted frame belongs to no transaction that is committed already
  have hclosed : (frames ++ [scanned]).Pairwise fun earlier later =>
      earlier.commits later.frame.transactionId = false := by
    refine List.pairwise_append.mpr ⟨h.closed, List.pairwise_singleton _ _, ?_⟩
    intro earlier hearlier later hlater
    rw [List.mem_singleton.mp hlater]
    have hnot := mt (h.committed scanned.frame.transactionId).mpr hchains.isOpen
    rw [committedIn, List.any_eq_true] at hnot
    exact Bool.eq_false_iff.mpr fun hcommits => hnot ⟨earlier, hearlier, hcommits⟩
  rcases accept_cases haccept with ⟨command, hrecord, rfl⟩ | ⟨hrecord, -, rfl⟩
  · have hcommits (id : Nat) : scanned.commits id = false := by
      simp [ScannedFrame.commits, hrecord]
    have hkey : command.key.length < u32Limit := by
      have hfits := scanned.fits
      rw [hrecord, TransactionRecord.size] at hfits
      have hmax : frameHeaderSize + maxFrameSize < u32Limit := by decide
      omega
    have hupdate : scanned.record?.isSome = true := by
      simp [ScannedFrame.record?, hrecord]
    refine ⟨hlsns, hlatest, fun id => ?_, ?_, hclosed, h.commitPositions, h.legacy⟩
    · rw [committedIn_concat, hcommits, Bool.or_false]
      exact h.committed id
    · rw [List.filter_append, List.filter_singleton, hupdate]
      refine List.rel_append h.updates (.cons ⟨?_, rfl, fun htrack => ?_, hkey⟩ .nil)
      · simp [ScannedFrame.record?, hrecord, LoggedUpdate.toRecord]
      · rw [if_pos htrack]
        rfl
  · have hupdate : scanned.record?.isSome = false := by
      simp [ScannedFrame.record?, hrecord]
    refine ⟨hlsns, hlatest, fun id => ?_, ?_, hclosed, fun htrack id hid => ?_, h.legacy⟩
    · rw [committedIn_concat, Bool.or_eq_true, ← h.committed]
      show id ∈ insert scanned.frame.transactionId analysis.committedTransactions ↔ _
      rw [Finset.mem_insert, ScannedFrame.commits, hrecord, or_comm, eq_comm]
      simp
    · rw [List.filter_append, List.filter_singleton, hupdate]
      show List.Forall₂ _ analysis.updates (_ ++ [])
      rw [List.append_nil]
      exact h.updates
    · replace hid : id ∈ insert scanned.frame.transactionId analysis.committedTransactions := hid
      replace htrack : analysis.trackRefs = true := htrack
      show ((if analysis.trackRefs then _ else _ : OrdMap Nat CommitPosition)[id]?).isSome
      rw [if_pos htrack, OrdMap.get?_insert]
      split
      · rfl
      · rename_i hne
        exact h.commitPositions htrack id
          ((Finset.mem_insert.mp hid).resolve_left (Ne.symm hne))

/-- A whole log. -/
theorem History.acceptAll {more : List ScannedFrame} (h : analysis.History latest frames)
    (haccept : analysis.acceptAll more = .ok analysis') :
    analysis'.History latest (frames ++ more) := by
  induction more generalizing analysis frames with
  | nil =>
    obtain rfl := Except.ok.inj haccept
    rwa [List.append_nil]
  | cons scanned more ih =>
    rw [Analysis.acceptAll, List.foldlM_cons] at haccept
    obtain ⟨analysis₁, hfirst, hrest⟩ := Exec.bind_eq_ok haccept
    have hall := ih (h.accept hfirst) hrest
    rwa [List.append_assoc] at hall

theorem trackRefs_acceptAll {more : List ScannedFrame}
    (haccept : analysis.acceptAll more = .ok analysis') :
    analysis'.trackRefs = analysis.trackRefs := by
  induction more generalizing analysis with
  | nil => rw [Except.ok.inj haccept]
  | cons scanned more ih =>
    rw [Analysis.acceptAll, List.foldlM_cons] at haccept
    obtain ⟨analysis₁, hfirst, hrest⟩ := Exec.bind_eq_ok haccept
    rw [ih hrest]
    rcases accept_cases hfirst with ⟨command, -, rfl⟩ | ⟨-, -, rfl⟩ <;> rfl

/-! ### What recovery returns -/

/-- The updates of some transactions, as the analysis logged them and as the frames have them. -/
theorem map_toRecord_filter {trackRefs : Bool} {updates : List LoggedUpdate}
    {logged : List ScannedFrame} (h : List.Forall₂ (LoggedUpdate.Logs trackRefs) updates logged)
    (p : Nat → Bool) :
    (updates.filter fun update => p update.transactionId).map LoggedUpdate.toRecord =
      (logged.filter fun scanned => p scanned.frame.transactionId).filterMap
        ScannedFrame.record? := by
  induction h with
  | nil => rfl
  | @cons update scanned updates logged hfirst _ ih =>
    rw [List.filter_cons, List.filter_cons, hfirst.transaction]
    split
    · rw [List.map_cons, List.filterMap_cons_some hfirst.record, ih]
    · exact ih

theorem filterMap_record?_filter (frames : List ScannedFrame) (p : ScannedFrame → Bool) :
    ((frames.filter fun scanned => scanned.record?.isSome).filter p).filterMap
      ScannedFrame.record? = (frames.filter p).filterMap ScannedFrame.record? := by
  rw [List.filter_comm, List.filterMap_filter]
  congr 1
  funext scanned
  cases scanned.record? <;> rfl

/-- The logged updates of committed transactions are those of the frames. -/
theorem History.map_toRecord (h : analysis.History latest frames) :
    analysis.committedUpdates.map LoggedUpdate.toRecord = committedRecords frames := by
  have hcommitted : (fun id => decide (id ∈ analysis.committedTransactions)) =
      committedIn frames := by
    funext id
    rw [Bool.eq_iff_iff, decide_eq_true_iff]
    exact h.committed id
  rw [committedRecords, ← filterMap_record?_filter, ← map_toRecord_filter h.updates, committedUpdates,
    ← hcommitted]

theorem History.redo (h : analysis.History latest frames) :
    analysis.redo = committedRecords frames := by
  rw [Analysis.redo, h.legacy, List.nil_append, h.map_toRecord]

theorem exists_logs {trackRefs : Bool} {updates : List LoggedUpdate} {logged : List ScannedFrame}
    (h : List.Forall₂ (LoggedUpdate.Logs trackRefs) updates logged) {update : LoggedUpdate}
    (hmem : update ∈ updates) : ∃ scanned, update.Logs trackRefs scanned := by
  induction h with
  | nil => cases hmem
  | cons hfirst _ ih =>
    rcases List.mem_cons.mp hmem with rfl | hmem
    · exact ⟨_, hfirst⟩
    · exact ih hmem

/-- With tracked positions every committed update has its reference. -/
theorem History.redoWithRef (h : analysis.History latest frames)
    (htrack : analysis.trackRefs = true) {update : LoggedUpdate}
    (hupdate : update ∈ analysis.committedUpdates) :
    ∃ recovered, analysis.redoWithRef update = .ok recovered ∧
      recovered.record = update.toRecord := by
  obtain ⟨hlogged, hcommitted⟩ := List.mem_filter.mp hupdate
  obtain ⟨scanned, hlogs⟩ := exists_logs h.updates hlogged
  obtain ⟨position, hposition⟩ := Option.isSome_iff_exists.mp (hlogs.position htrack)
  obtain ⟨commit, hcommit⟩ := Option.isSome_iff_exists.mp
    (h.commitPositions htrack update.transactionId (of_decide_eq_true hcommitted))
  rw [Analysis.redoWithRef, hposition]
  dsimp only
  rw [hcommit]
  dsimp only
  rw [if_neg (Nat.not_le.mpr hlogs.key)]
  exact ⟨_, rfl, rfl⟩

theorem History.redoWithRefs (h : analysis.History latest frames)
    (htrack : analysis.trackRefs = true) :
    ∃ recovered, analysis.redoWithRefs = .ok recovered ∧
      recovered.map RecoveredWalUpdate.record = committedRecords frames := by
  rw [Analysis.redoWithRefs, if_neg (not_not.mpr h.legacy), ← h.map_toRecord]
  have hall (updates : List LoggedUpdate) (hmem : ∀ update ∈ updates,
      update ∈ analysis.committedUpdates) :
      ∃ recovered, updates.mapM analysis.redoWithRef = .ok recovered ∧
        recovered.map RecoveredWalUpdate.record = updates.map LoggedUpdate.toRecord := by
    induction updates with
    | nil => exact ⟨[], rfl, rfl⟩
    | cons update updates ih =>
      obtain ⟨first, hfirst, hrecord⟩ := h.redoWithRef htrack (hmem update List.mem_cons_self)
      obtain ⟨rest, hrest, hrecords⟩ :=
        ih fun other hother => hmem other (List.mem_cons_of_mem update hother)
      refine ⟨first :: rest, ?_, ?_⟩
      · rw [List.mapM_cons, hfirst, hrest]
        rfl
      · rw [List.map_cons, List.map_cons, hrecord, hrecords]
  exact hall _ fun _ hmem => hmem

end Analysis

/-! ### Scanned segments -/

/-- The frames of a segment from an offset on, as the scan hands them over. -/
def placeFrames (segmentId : Nat) : Nat → (frames : List Frame) →
    (∀ frame ∈ frames, frame.Valid) → List ScannedFrame
  | _, [], _ => []
  | offset, frame :: frames, hvalid =>
    { frame
      checksum := frame.checksum
      position := ⟨segmentId, offset, frame.bytes.length⟩
      fits := by
        have hlength := (hvalid frame List.mem_cons_self).length_body_le
        rw [← frame.length_body, frameHeaderSize]
        omega } ::
      placeFrames segmentId (offset + frame.bytes.length) frames
        fun other hother => hvalid other (List.mem_cons_of_mem frame hother)

/-- Recovery is atomic on every log the analysis accepts behind an LSN, however its transactions are
interleaved: `redo` returns the updates of the transactions that have a commit frame, in the order of
the log, the LSNs are consecutive, no frame of a transaction follows its commit, and
`redo_with_refs` returns the same updates. -/
theorem recovery_atomic (latest : Nat) (trackRefs : Bool) (frames : List ScannedFrame)
    (analysis : Analysis) (h : (Analysis.new latest trackRefs).acceptAll frames = .ok analysis) :
    analysis.redo = committedRecords frames ∧
      frames.map (fun scanned => scanned.frame.lsn) = List.range' (latest + 1) frames.length ∧
      (frames.Pairwise fun earlier later =>
        earlier.commits later.frame.transactionId = false) ∧
      (trackRefs = true → ∃ recovered, analysis.redoWithRefs = .ok recovered ∧
        recovered.map RecoveredWalUpdate.record = analysis.redo) := by
  have hhistory := (Analysis.History.new latest trackRefs).acceptAll h
  rw [List.nil_append] at hhistory
  refine ⟨hhistory.redo, hhistory.lsns, hhistory.closed, fun htrack => ?_⟩
  rw [hhistory.redo]
  exact hhistory.redoWithRefs ((Analysis.trackRefs_acceptAll h).trans htrack)

/-- A frame of a short log. -/
def shortFrame (lsn transactionId previousLsn : Nat) (record : TransactionRecord)
    (fits : record.size ≤ frameHeaderSize + maxFrameSize) : ScannedFrame :=
  ⟨⟨lsn, transactionId, previousLsn, record⟩, 0, ⟨0, 0, 0⟩, fits⟩

/-- Two interleaved transactions of which the first one commits. -/
def interleavedFrames : List ScannedFrame :=
  [shortFrame 1 1 0 (.update ⟨.put, [97], [118], 7⟩) (by decide),
    shortFrame 2 2 0 (.update ⟨.put, [98], [119], 8⟩) (by decide),
    shortFrame 3 1 1 (.update ⟨.delete, [99], [], 9⟩) (by decide),
    shortFrame 4 1 3 .commit (by decide)]

theorem atomic_interleavedFrames :
    ∃ analysis recovered, (Analysis.new 0 true).acceptAll interleavedFrames = .ok analysis ∧
      analysis.redo = [⟨1, 7, [97], [118], 0⟩, ⟨2, 9, [99], [], 0⟩] ∧
      analysis.redoWithRefs = .ok recovered ∧
      recovered.map RecoveredWalUpdate.record = analysis.redo := by
  have hrun : ((Analysis.new 0 true).acceptAll interleavedFrames).map Analysis.latestLsn = .ok 4 := by
    decide +kernel
  obtain ⟨analysis, haccept, -⟩ := Exec.map_eq_ok hrun
  obtain ⟨hredo, -, -, hrefs⟩ := recovery_atomic 0 true interleavedFrames analysis haccept
  obtain ⟨recovered, hrecovered, hsame⟩ := hrefs rfl
  exact ⟨analysis, recovered, haccept, hredo.trans (by decide +kernel), hrecovered, hsame⟩

end CereDB.Storage

import CereDB.Proofs.WalDecode
import CereDB.Proofs.WalSegment
import CereDB.Storage.WalRead

/-!
# `CereDB.Proofs.WalReadValue`: what a value reference reads

`read_value` trusts neither the segment file nor the reference. It walks over the frames of the
transaction from its start, and `TransactionLoop.after` is the state of the loop when it has seen
the updates of some commands. `readTransaction_eq_ok` is the walk on any bytes: when it returns, the
bytes are the frames of one committed transaction. `read_value_sound` puts the checks around it.
-/

set_option autoImplicit false

namespace CereDB.Storage

open CereDB.Lib

/-! ### Checks -/

theorem rejectIf_eq_ok {bad : Prop} [Decidable bad] {message : String} {u : Unit}
    (h : rejectIf bad message = .ok u) : ¬bad := by
  rw [rejectIf] at h
  split at h
  · cases h
  · assumption

theorem addOrCorrupted_eq_ok {message : String} {a b n : Nat}
    (h : addOrCorrupted message a b = .ok n) : n = a + b := by
  rw [addOrCorrupted, checkedAdd] at h
  split at h
  · rename_i sum hsum
    split at hsum
    · rw [← Except.ok.inj h, ← Option.some.inj hsum]
    · cases hsum
  · cases h

theorem lt_of_addOrCorrupted {message : String} {a b n : Nat}
    (h : addOrCorrupted message a b = .ok n) : a + b < u64Limit := by
  by_contra hover
  have hnone : checkedAdd a b = none := if_neg hover
  rw [addOrCorrupted, hnone] at h
  cases h

theorem addOrCorrupted_of_lt {message : String} {a b : Nat} (h : a + b < u64Limit) :
    addOrCorrupted message a b = .ok (a + b) := by
  rw [addOrCorrupted, checkedAdd, if_pos h]

theorem sliceOf_eq_ok {bytes part : Bytes} {start stop : Nat} (h : sliceOf bytes start stop = .ok part) :
    part = (bytes.drop start).take (stop - start) ∧ stop ≤ bytes.length := by
  rw [sliceOf] at h
  split at h
  · rename_i hrange
    exact ⟨(Except.ok.inj h).symm, hrange.2⟩
  · cases h

theorem readExactAt_eq_ok {bytes part : Bytes} {offset length : Nat}
    (h : readExactAt bytes offset length = .ok part) :
    offset + length ≤ bytes.length ∧ part = (bytes.drop offset).take length := by
  rw [readExactAt] at h
  split at h
  · rename_i hrange
    exact ⟨hrange, (Except.ok.inj h).symm⟩
  · cases h

/-! ### One frame -/

/-- A frame that is found at the cursor stands there. -/
theorem frameAt_eq_ok {transaction : Bytes} {cursor frameEnd : Nat} {frame : Frame}
    (h : frameAt transaction cursor = .ok (frame, frameEnd)) :
    ∃ tail, transaction.drop cursor = frame.bytes ++ tail ∧ frame.Valid ∧
      frameEnd = cursor + frame.bytes.length ∧ frameEnd ≤ transaction.length := by
  rw [frameAt] at h
  obtain ⟨_, hlong, h⟩ := Exec.bind_eq_ok h
  obtain ⟨header, hheader, h⟩ := Exec.bind_eq_ok h
  obtain ⟨⟨lsn, bodyLength⟩, hdecode, h⟩ := Exec.bind_eq_ok h
  obtain ⟨_, hsize, h⟩ := Exec.bind_eq_ok h
  obtain ⟨frameLength, hframeLength, h⟩ := Exec.bind_eq_ok h
  obtain ⟨stop, hstop, h⟩ := Exec.bind_eq_ok h
  obtain ⟨_, hinside, h⟩ := Exec.bind_eq_ok h
  obtain ⟨body, hbody, h⟩ := Exec.bind_eq_ok h
  obtain ⟨checksum, hverify, h⟩ := Exec.bind_eq_ok h
  obtain ⟨found, hframe, h⟩ := Exec.bind_eq_ok h
  obtain ⟨rfl, rfl⟩ := Prod.mk.inj (Except.ok.inj h)
  obtain rfl := addOrCorrupted_eq_ok hframeLength
  obtain rfl := addOrCorrupted_eq_ok hstop
  replace hsize := rejectIf_eq_ok hsize
  replace hinside := rejectIf_eq_ok hinside
  obtain ⟨rfl, hheaderEnd⟩ := sliceOf_eq_ok hheader
  obtain ⟨rfl, -⟩ := sliceOf_eq_ok hbody
  have hheaderSize : cursor + frameHeaderSize - cursor = frameHeaderSize := by omega
  have hbodySize : cursor + (frameHeaderSize + bodyLength) - (cursor + frameHeaderSize) =
      bodyLength := by omega
  rw [hheaderSize] at hdecode hverify
  rw [hbodySize, ← List.drop_drop] at hverify hframe
  have hrest : (transaction.drop cursor).length = transaction.length - cursor := List.length_drop
  have hheaderLength : ((transaction.drop cursor).take frameHeaderSize).length =
      frameHeaderSize := by
    rw [List.length_take, hrest]
    omega
  have hbodyLength : (((transaction.drop cursor).drop frameHeaderSize).take bodyLength).length =
      bodyLength := by
    rw [List.length_take, List.length_drop, hrest]
    omega
  obtain ⟨hbytes, -, hvalid⟩ := bytes_of_decoded hheaderLength (by rw [hbodyLength]; omega)
    (by rw [hbodyLength]; exact hdecode) hverify hframe
  have hlength : found.bytes.length = frameHeaderSize + bodyLength := by
    rw [← hbytes, List.length_append, hheaderLength, hbodyLength]
  refine ⟨(transaction.drop cursor).drop (frameHeaderSize + bodyLength), ?_, hvalid, ?_, ?_⟩
  · rw [← hbytes, List.append_assoc, ← List.drop_drop, List.take_append_drop, List.take_append_drop]
  · rw [hlength]
  · omega

/-! ### The frames of one transaction -/

/-- One more update of a transaction. -/
theorem updateFrames_concat (id : Nat) (commands : List LogCommand) (command : LogCommand) :
    updateFrames id 0 id (commands ++ [command]) = updateFrames id 0 id commands ++
      [⟨id + commands.length, id, previousFrame id commands, .update command⟩] := by
  have hgeneral (commands : List LogCommand) (previousLsn lsn : Nat) :
      updateFrames id previousLsn lsn (commands ++ [command]) =
        updateFrames id previousLsn lsn commands ++ [⟨lsn + commands.length, id,
          if commands = [] then previousLsn else lsn + commands.length - 1, .update command⟩] := by
    induction commands generalizing previousLsn lsn with
    | nil => rfl
    | cons first commands ih =>
      rw [List.cons_append, updateFrames, ih, updateFrames, List.cons_append, List.length_cons,
        if_neg (List.cons_ne_nil _ _)]
      congr 4
      · omega
      · split
        · rename_i hnil
          rw [hnil, List.length_nil]
          omega
        · omega
  exact hgeneral commands 0 id

/-- The loop when it has seen the updates of some commands. -/
def TransactionLoop.after (id : Nat) (commands : List LogCommand) (selected : Option LogCommand) :
    TransactionLoop where
  cursor := commandsSize commands
  previousLsn := previousFrame id commands
  firstLsn := if commands = [] then none else some id
  selected := selected

@[simp] theorem TransactionLoop.after_cursor (id : Nat) (commands : List LogCommand)
    (selected : Option LogCommand) :
    (TransactionLoop.after id commands selected).cursor = commandsSize commands := rfl

theorem commandsSize_append (commands more : List LogCommand) :
    commandsSize (commands ++ more) = commandsSize commands + commandsSize more := by
  simp [commandsSize]

theorem commandsSize_concat (commands : List LogCommand) (command : LogCommand) :
    commandsSize (commands ++ [command]) = commandsSize commands + commandSize command := by
  rw [commandsSize_append]
  rfl

/-- The state of the loop behind one more update. -/
theorem TransactionLoop.after_concat (id : Nat) (commands : List LogCommand) (command : LogCommand)
    (selected selected' : Option LogCommand) :
    { cursor := commandsSize commands + commandSize command
      previousLsn := id + commands.length
      firstLsn := some ((TransactionLoop.after id commands selected).firstLsn.getD
        (id + commands.length))
      selected := selected' } = TransactionLoop.after id (commands ++ [command]) selected' := by
  have hne : commands ++ [command] ≠ [] := by simp
  have hprevious : previousFrame id (commands ++ [command]) = id + commands.length := by
    simp [previousFrame]
  have hfirst : (TransactionLoop.after id commands selected).firstLsn.getD (id + commands.length) =
      id := by
    rw [TransactionLoop.after]
    split
    · rename_i hnil
      rw [hnil]
      rfl
    · rfl
  rw [hfirst]
  simp only [TransactionLoop.after, if_neg hne, hprevious, commandsSize_concat]

/-- The frame that comes next in a transaction. -/
theorem checkChain_eq_ok {reference : WalValueRef} {commands : List LogCommand}
    {selected : Option LogCommand} {frame : Frame} {u : Unit}
    (h : checkChain reference (.after reference.transactionId commands selected) frame = .ok u) :
    frame = ⟨reference.transactionId + commands.length, reference.transactionId,
      previousFrame reference.transactionId commands, frame.record⟩ := by
  rw [checkChain] at h
  obtain ⟨_, hid, h⟩ := Exec.bind_eq_ok h
  replace hid := not_not.mp (rejectIf_eq_ok hid)
  obtain ⟨lsn, transactionId, previousLsn, record⟩ := frame
  replace hid : transactionId = reference.transactionId := hid
  by_cases hnil : commands = []
  · subst hnil
    have hstart := rejectIf_eq_ok h
    simp only [not_or, not_not] at hstart
    rw [hstart.1, hstart.2, hid]
    rfl
  · have hpos : 0 < commands.length := List.length_pos_iff.mpr hnil
    rw [TransactionLoop.after, if_neg hnil] at h
    obtain ⟨expected, hexpected, h⟩ := Exec.bind_eq_ok h
    have hchain := rejectIf_eq_ok h
    simp only [not_or, not_not] at hchain
    rw [hchain.1, hchain.2, hid, addOrCorrupted_eq_ok hexpected]
    dsimp only
    rw [previousFrame, if_neg hnil]
    congr 1
    omega

/-- The command that is selected stands at the offset of the reference. -/
def SelectedAt (reference : WalValueRef) (commands : List LogCommand)
    (selected : Option LogCommand) : Prop :=
  ∀ command, selected = some command → ∃ before after, commands = before ++ command :: after ∧
    reference.transactionStartOffset + commandsSize before = reference.frameOffset

theorem SelectedAt.concat {reference : WalValueRef} {commands : List LogCommand}
    {selected : Option LogCommand} (h : SelectedAt reference commands selected)
    (command : LogCommand) : SelectedAt reference (commands ++ [command]) selected := by
  intro found hfound
  obtain ⟨before, after, rfl, hoffset⟩ := h found hfound
  exact ⟨before, after ++ [command], by simp, hoffset⟩

/-- An update is followed by another frame, and it may be the selected one. -/
theorem selectCommand_update {reference : WalValueRef} {length : Nat} {commands : List LogCommand}
    {selected selected' : Option LogCommand} {frame : Frame} {frameEnd : Nat} {command : LogCommand}
    (hrecord : frame.record = .update command)
    (h : selectCommand reference length (.after reference.transactionId commands selected) frame
      frameEnd = .ok selected') (hselected : SelectedAt reference commands selected) :
    frameEnd ≠ length ∧ SelectedAt reference (commands ++ [command]) selected' := by
  rw [selectCommand] at h
  obtain ⟨offset, hoffset, h⟩ := Exec.bind_eq_ok h
  rw [hrecord] at h
  obtain ⟨_, hend, h⟩ := Exec.bind_eq_ok h
  refine ⟨rejectIf_eq_ok hend, ?_⟩
  split at h
  · rename_i hplace
    obtain ⟨_, -, h⟩ := Exec.bind_eq_ok h
    obtain ⟨_, -, h⟩ := Exec.bind_eq_ok h
    obtain rfl := Except.ok.inj h
    rintro found ⟨⟩
    refine ⟨commands, [], rfl, ?_⟩
    rw [← hplace]
    exact (addOrCorrupted_eq_ok hoffset).symm
  · obtain rfl := Except.ok.inj h
    exact hselected.concat command

/-- A commit is the one of the reference, and it ends the transaction. -/
theorem selectCommand_commit {reference : WalValueRef} {length : Nat} {commands : List LogCommand}
    {selected selected' : Option LogCommand} {frame : Frame} {frameEnd : Nat}
    (hrecord : frame.record = .commit)
    (h : selectCommand reference length (.after reference.transactionId commands selected) frame
      frameEnd = .ok selected') :
    frameEnd = length ∧ selected' = selected ∧ frame.lsn = reference.commitLsn ∧
      reference.transactionStartOffset + commandsSize commands = reference.commitOffset := by
  rw [selectCommand] at h
  obtain ⟨offset, hoffset, h⟩ := Exec.bind_eq_ok h
  rw [hrecord] at h
  obtain ⟨_, hcommit, h⟩ := Exec.bind_eq_ok h
  have hchecks := rejectIf_eq_ok hcommit
  simp only [not_or, not_not] at hchecks
  refine ⟨hchecks.2.2, (Except.ok.inj h).symm, hchecks.2.1, ?_⟩
  rw [← hchecks.1]
  exact (addOrCorrupted_eq_ok hoffset).symm

/-- What the walk over a transaction has found at its end. -/
structure Walked (reference : WalValueRef) (transaction : Bytes) (commands : List LogCommand)
    (selected : Option LogCommand) : Prop where
  bytes : transaction = frameBytes (Chunk.frames ⟨commands, true⟩ reference.transactionId)
  valid : ∀ frame ∈ Chunk.frames ⟨commands, true⟩ reference.transactionId, frame.Valid
  selected : SelectedAt reference commands selected
  commitLsn : reference.transactionId + commands.length = reference.commitLsn
  commitOffset :
    reference.transactionStartOffset + commandsSize commands = reference.commitOffset

/-- The walk from the updates of some commands on. -/
theorem readTransaction_eq_ok {reference : WalValueRef} {transaction tail : Bytes} {fuel : Nat}
    {commands : List LogCommand} {selected : Option LogCommand} {loop : TransactionLoop}
    (hbytes : transaction =
      frameBytes (updateFrames reference.transactionId 0 reference.transactionId commands) ++ tail)
    (hvalid : ∀ frame ∈ updateFrames reference.transactionId 0 reference.transactionId commands,
      frame.Valid)
    (hopen : tail ≠ []) (hselected : SelectedAt reference commands selected)
    (hbehind : reference.transactionStartOffset < reference.commitOffset)
    (h : readTransaction reference transaction fuel
      (.after reference.transactionId commands selected) = .ok loop) :
    ∃ commands', Walked reference transaction commands' loop.selected := by
  induction fuel generalizing commands selected tail with
  | zero => cases h
  | succ fuel ih =>
    have hcursor : (TransactionLoop.after reference.transactionId commands selected).cursor <
        transaction.length := by
      show commandsSize commands < _
      rw [hbytes, List.length_append, length_frameBytes_updates]
      exact Nat.lt_add_of_pos_right (List.length_pos_iff.mpr hopen)
    have hdrop : transaction.drop (commandsSize commands) = tail := by
      rw [hbytes, List.drop_left' (length_frameBytes_updates _ _ _ _)]
    rw [readTransaction, if_pos hcursor] at h
    obtain ⟨⟨frame, frameEnd⟩, hframe, h⟩ := Exec.bind_eq_ok h
    obtain ⟨_, hchain, h⟩ := Exec.bind_eq_ok h
    obtain ⟨selected', hselect, h⟩ := Exec.bind_eq_ok h
    obtain ⟨rest, hrest, hframeValid, hframeEnd, -⟩ := frameAt_eq_ok hframe
    rw [TransactionLoop.after_cursor, hdrop] at hrest
    rw [TransactionLoop.after_cursor] at hframeEnd
    have hfields := checkChain_eq_ok hchain
    have hlsn : frame.lsn = reference.transactionId + commands.length := congrArg Frame.lsn hfields
    cases hrecord : frame.record with
    | update command =>
      obtain ⟨hend, hselected'⟩ := selectCommand_update hrecord hselect hselected
      rw [hrecord] at hfields
      have hframes := updateFrames_concat reference.transactionId commands command
      rw [← hfields] at hframes
      have hsize : frame.bytes.length = commandSize command := by
        rw [frame.length_bytes, hrecord]
        rfl
      have hnext : transaction = frameBytes (updateFrames reference.transactionId 0
          reference.transactionId (commands ++ [command])) ++ rest := by
        rw [hframes, frameBytes_append, frameBytes_cons, frameBytes_nil, List.append_nil,
          List.append_assoc, ← hrest]
        exact hbytes
      have hmore : rest ≠ [] := by
        rintro rfl
        apply hend
        rw [hframeEnd, hsize, ← commandsSize_concat, hnext, List.append_nil,
          length_frameBytes_updates]
      rw [hframeEnd, hsize, hlsn, TransactionLoop.after_concat _ _ command] at h
      refine ih hnext ?_ hmore hselected' h
      intro other hother
      rw [hframes, List.mem_append, List.mem_singleton] at hother
      rcases hother with hother | rfl
      · exact hvalid other hother
      · exact hframeValid
    | commit =>
      obtain ⟨hend, rfl, hcommitLsn, hcommitOffset⟩ := selectCommand_commit hrecord hselect
      rw [hrecord] at hfields
      have hne : commands ≠ [] := by
        rintro rfl
        rw [← hcommitOffset] at hbehind
        exact absurd hbehind (Nat.lt_irrefl _)
      have hchunk : Chunk.frames ⟨commands, true⟩ reference.transactionId =
          updateFrames reference.transactionId 0 reference.transactionId commands ++ [frame] := by
        rw [hfields, previousFrame, if_neg hne]
        rfl
      have hwhole : transaction =
          frameBytes (Chunk.frames ⟨commands, true⟩ reference.transactionId) := by
        have hlength : (frameBytes (Chunk.frames ⟨commands, true⟩
            reference.transactionId)).length = transaction.length := by
          rw [hchunk, frameBytes_append, List.length_append, length_frameBytes_updates,
            frameBytes_cons, frameBytes_nil, List.append_nil, ← hframeEnd, hend]
        have hpre : frameBytes (Chunk.frames ⟨commands, true⟩ reference.transactionId) <+:
            transaction := by
          refine ⟨rest, ?_⟩
          rw [hchunk, frameBytes_append, frameBytes_cons, frameBytes_nil, List.append_nil,
            List.append_assoc, ← hrest]
          exact hbytes.symm
        exact (hpre.eq_of_length hlength).symm
      -- behind the commit the loop ends
      cases fuel with
      | zero => cases h
      | succ fuel =>
        rw [readTransaction, if_neg (by rw [hend]; exact Nat.lt_irrefl _)] at h
        obtain rfl := Except.ok.inj h
        refine ⟨commands, hwhole, ?_, hselected, by rw [← hlsn, hcommitLsn], hcommitOffset⟩
        intro other hother
        rw [hchunk, List.mem_append, List.mem_singleton] at hother
        rcases hother with hother | rfl
        · exact hvalid other hother
        · exact hframeValid

/-! ### Nothing panics -/

theorem regular_readByte : Decode.Regular readByte := by
  intro bytes
  cases bytes with
  | nil => exact .error _
  | cons byte rest => exact .ok _

theorem regular_readWalRecordType : Decode.Regular readWalRecordType := by
  refine regular_readByte.bind fun byte rest => Exec.Regular.map ?_ _
  exact .ite (.ok _) (.ite (.ok _) (.error _))

theorem regular_readUpdate : Decode.Regular readUpdate := by
  refine regular_readWalRecordType.bind fun recordType => (Decode.Regular.readBe _ 8).bind fun lsn =>
    (Decode.Regular.readBe _ 8).bind fun keyLength => (Decode.Regular.readBe _ 8).bind fun valueLength =>
    (Decode.Regular.readExact _ _).bind fun key => (Decode.Regular.readExact _ _).bind fun value => ?_
  split
  · exact (Decode.Regular.throw _).bind fun _ => .pure _
  · exact .pure _

theorem regular_readTransactionRecord (kind : UInt8) :
    Decode.Regular (readTransactionRecord kind) := by
  rw [readTransactionRecord]
  split
  · exact regular_readUpdate.bind fun _ => .pure _
  · split
    · exact .pure _
    · exact .throw _

theorem regular_decodeFrame (lsn : Nat) (body : Bytes) : Exec.Regular (decodeFrame lsn body) := by
  have hread : Decode.Regular (readFrame lsn) :=
    regular_readByte.bind fun kind => (Decode.Regular.readBe _ 8).bind fun _ =>
      (Decode.Regular.readBe _ 8).bind fun _ => (regular_readTransactionRecord kind).bind
        fun _ => .pure _
  exact (hread body).bind fun _ => .ite (.error _) (.ok _)

theorem regular_rejectIf (bad : Prop) [Decidable bad] (message : String) :
    Exec.Regular (rejectIf bad message) := .ite (.error _) (.ok ())

theorem regular_addOrCorrupted (message : String) (a b : Nat) :
    Exec.Regular (addOrCorrupted message a b) := by
  rw [addOrCorrupted]
  split
  · exact .ok _
  · exact .error _

theorem regular_readExactAt (bytes : Bytes) (offset length : Nat) :
    Exec.Regular (readExactAt bytes offset length) := .ite (.ok _) (.error _)

theorem regular_decodeFrameHeader (header : Bytes) : Exec.Regular (decodeFrameHeader header) :=
  .ite (.error _) (.ok _)

theorem regular_frameAt (transaction : Bytes) (cursor : Nat) :
    Exec.Regular (frameAt transaction cursor) := by
  refine (regular_rejectIf _ _).bind_of_ok fun _ hlong => ?_
  replace hlong := rejectIf_eq_ok hlong
  have hheader : Exec.Regular (sliceOf transaction cursor (cursor + frameHeaderSize)) := by
    rw [sliceOf, if_pos (by rw [frameHeaderSize] at *; omega)]
    exact .ok _
  refine hheader.bind fun header => (regular_decodeFrameHeader header).bind fun fields =>
    (regular_rejectIf _ _).bind fun _ => (regular_addOrCorrupted _ _ _).bind_of_ok
    fun frameLength hframeLength => (regular_addOrCorrupted _ _ _).bind_of_ok
    fun frameEnd hframeEnd => (regular_rejectIf _ _).bind_of_ok fun _ hinside => ?_
  replace hinside := rejectIf_eq_ok hinside
  have hbody : Exec.Regular (sliceOf transaction (cursor + frameHeaderSize) frameEnd) := by
    rw [addOrCorrupted_eq_ok hframeLength] at hframeEnd
    rw [addOrCorrupted_eq_ok hframeEnd] at hinside ⊢
    rw [sliceOf, if_pos (by omega)]
    exact .ok _
  exact hbody.bind fun body => Exec.Regular.bind (.ite (.error _) (.ok _)) fun _ =>
    (regular_decodeFrame _ _).bind fun _ => .ok _

theorem regular_checkChain (reference : WalValueRef) (loop : TransactionLoop) (frame : Frame) :
    Exec.Regular (checkChain reference loop frame) := by
  refine (regular_rejectIf _ _).bind fun _ => ?_
  split
  · exact (regular_addOrCorrupted _ _ _).bind fun _ => regular_rejectIf _ _
  · exact regular_rejectIf _ _

theorem regular_selectCommand (reference : WalValueRef) (length : Nat) (loop : TransactionLoop)
    (frame : Frame) (frameEnd : Nat) :
    Exec.Regular (selectCommand reference length loop frame frameEnd) := by
  refine (regular_addOrCorrupted _ _ _).bind fun offset => ?_
  cases frame.record with
  | update command =>
    refine (regular_rejectIf _ _).bind fun _ => ?_
    split
    · exact (regular_rejectIf _ _).bind fun _ => (regular_rejectIf _ _).bind fun _ => .ok _
    · exact .ok _
  | commit => exact (regular_rejectIf _ _).bind fun _ => .ok _

/-- Every round moves the cursor, so the loop ends before its rounds are used up. -/
theorem regular_readTransaction (reference : WalValueRef) (transaction : Bytes) (fuel : Nat)
    (loop : TransactionLoop) (hfuel : transaction.length - loop.cursor < fuel) :
    Exec.Regular (readTransaction reference transaction fuel loop) := by
  induction fuel generalizing loop with
  | zero => omega
  | succ fuel ih =>
    rw [readTransaction]
    split
    · refine (regular_frameAt _ _).bind_of_ok fun found hfound => ?_
      obtain ⟨frame, frameEnd⟩ := found
      refine (regular_checkChain _ _ _).bind fun _ =>
        (regular_selectCommand _ _ _ _ _).bind fun _ => ih _ ?_
      obtain ⟨-, -, -, hend, hinside⟩ := frameAt_eq_ok hfound
      have hpos : 0 < frame.bytes.length := by
        rw [frame.length_bytes, ← frame.length_body]
        omega
      show transaction.length - frameEnd < fuel
      omega
    · exact .ok _

theorem regular_checkSegmentHeader (bytes : Bytes) : Exec.Regular (checkSegmentHeader bytes) := by
  have hdecode (header : Bytes) : Exec.Regular (WALHeader.decode header) :=
    .ite (.error _) (.ite (.error _) (.ite (.error _) (.ite (.error _) (.ok _))))
  refine (regular_rejectIf _ _).bind fun _ => (regular_readExactAt _ _ _).bind fun header =>
    (hdecode header).bind fun _ => ?_
  split
  · exact .error _
  · exact regular_rejectIf _ _

theorem regular_validate (reference : WalValueRef) : Exec.Regular reference.validate :=
  (regular_rejectIf _ _).bind fun _ => (regular_rejectIf _ _).bind fun _ =>
    (regular_addOrCorrupted _ _ _).bind fun _ => (regular_rejectIf _ _).bind fun _ =>
    (regular_addOrCorrupted _ _ _).bind fun _ => (regular_addOrCorrupted _ _ _).bind fun _ =>
    (regular_rejectIf _ _).bind fun _ => (regular_rejectIf _ _).bind fun _ => regular_rejectIf _ _

theorem regular_checkCommit (bytes : Bytes) (reference : WalValueRef) :
    Exec.Regular (checkCommit bytes reference) :=
  (regular_addOrCorrupted _ _ _).bind fun _ => (regular_rejectIf _ _).bind fun _ =>
    (regular_readExactAt _ _ _).bind fun _ => (regular_decodeFrameHeader _).bind fun _ =>
    (regular_rejectIf _ _).bind fun _ => (regular_rejectIf _ _).bind fun _ =>
    (regular_addOrCorrupted _ _ _).bind fun _ => (regular_rejectIf _ _).bind fun _ => .ok _

theorem regular_checkFrame (bytes : Bytes) (reference : WalValueRef) :
    Exec.Regular (checkFrame bytes reference) :=
  (regular_readExactAt _ _ _).bind fun _ => (regular_decodeFrameHeader _).bind fun _ =>
    (regular_rejectIf _ _).bind fun _ => (regular_addOrCorrupted _ _ _).bind fun _ =>
    regular_rejectIf _ _

theorem regular_readSpan (bytes : Bytes) (reference : WalValueRef) (commitEnd : Nat) :
    Exec.Regular (readSpan bytes reference commitEnd) :=
  (regular_rejectIf _ _).bind fun _ => (regular_rejectIf _ _).bind fun _ =>
    regular_readExactAt _ _ _

theorem regular_checkSelected (reference : WalValueRef) (expectedKey : Key) (sequence : Nat)
    (command : LogCommand) :
    Exec.Regular (checkSelected reference expectedKey sequence command) :=
  (regular_rejectIf _ _).bind fun _ => (regular_rejectIf _ _).bind fun _ =>
    (regular_rejectIf _ _).bind fun _ => (regular_rejectIf _ _).bind fun _ =>
    (regular_rejectIf _ _).bind fun _ => .ok _

theorem regular_readValue (disk : Disk Nat) (reference : WalValueRef) (expectedKey : Key)
    (sequence : Nat) : Exec.Regular (readValue disk reference expectedKey sequence) := by
  refine (regular_validate reference).bind fun _ => ?_
  cases disk[reference.segmentId]? with
  | none => exact .error _
  | some file =>
    refine (regular_checkSegmentHeader _).bind fun _ => (regular_checkCommit _ _).bind fun _ =>
      (regular_checkFrame _ _).bind fun _ => (regular_readSpan _ _ _).bind fun transaction =>
      (regular_readTransaction _ _ _ _ (Nat.lt_succ_self _)).bind fun loop =>
      (regular_rejectIf _ _).bind fun _ => ?_
    cases loop.selected with
    | none => exact .error _
    | some command => exact regular_checkSelected _ _ _ _

/-! ### What a read proves about the file -/

/-- The bytes hold, from an offset on, a run of whole frames of one transaction: the LSNs are
consecutive from the id of the transaction, every frame is linked to the one before, and the last
frame and no other is a commit. The bytes of a frame carry its two checksums. -/
structure CommittedRun (bytes : Bytes) (start transactionId : Nat) (frames : List Frame) :
    Prop where
  bytes : ∃ head tail, bytes = head ++ frameBytes frames ++ tail ∧ head.length = start
  valid : ∀ frame ∈ frames, frame.Valid
  transaction : ∀ frame ∈ frames, frame.transactionId = transactionId
  lsns : frames.map Frame.lsn = List.range' transactionId frames.length
  linked : frames.map Frame.previousLsn = 0 :: (frames.map Frame.lsn).dropLast
  commit : frames.map (fun frame => decide (frame.record = .commit)) =
    List.replicate (frames.length - 1) false ++ [true]

theorem map_lsn_updateFrames (id previousLsn lsn : Nat) (commands : List LogCommand) :
    (updateFrames id previousLsn lsn commands).map Frame.lsn = List.range' lsn commands.length := by
  induction commands generalizing previousLsn lsn with
  | nil => rfl
  | cons command commands ih =>
    rw [updateFrames, List.map_cons, ih, List.length_cons, List.range'_succ]

theorem map_previousLsn_updateFrames (id previousLsn lsn : Nat) (command : LogCommand)
    (commands : List LogCommand) :
    (updateFrames id previousLsn lsn (command :: commands)).map Frame.previousLsn =
      previousLsn :: List.range' lsn commands.length := by
  induction commands generalizing previousLsn lsn command with
  | nil => rfl
  | cons next commands ih =>
    rw [updateFrames, List.map_cons, ih, List.length_cons, List.range'_succ]

theorem map_commit_updateFrames (id previousLsn lsn : Nat) (commands : List LogCommand) :
    (updateFrames id previousLsn lsn commands).map
      (fun frame => decide (frame.record = .commit)) = List.replicate commands.length false := by
  induction commands generalizing previousLsn lsn with
  | nil => rfl
  | cons command commands ih =>
    rw [updateFrames, List.map_cons, ih, List.length_cons, List.replicate_succ]
    rfl

theorem transactionId_updateFrames {id previousLsn lsn : Nat} {commands : List LogCommand} :
    ∀ frame ∈ updateFrames id previousLsn lsn commands, frame.transactionId = id := by
  induction commands generalizing previousLsn lsn with
  | nil => exact fun _ hmem => absurd hmem List.not_mem_nil
  | cons command commands ih =>
    intro frame hmem
    rcases List.mem_cons.mp hmem with rfl | hmem
    · rfl
    · exact ih frame hmem

/-- The frames of a committed transaction in a file. -/
theorem committedRun_chunk {bytes head tail : Bytes} {id : Nat} {commands : List LogCommand}
    (hbytes : bytes = head ++ frameBytes (Chunk.frames ⟨commands, true⟩ id) ++ tail)
    (hne : commands ≠ []) (hvalid : ∀ frame ∈ Chunk.frames ⟨commands, true⟩ id, frame.Valid) :
    CommittedRun bytes head.length id (Chunk.frames ⟨commands, true⟩ id) := by
  have hframes : Chunk.frames ⟨commands, true⟩ id = updateFrames id 0 id commands ++
      [⟨id + commands.length, id, id + commands.length - 1, .commit⟩] := rfl
  have hcount : (Chunk.frames ⟨commands, true⟩ id).length = commands.length + 1 := by
    rw [hframes, List.length_append, length_updateFrames, List.length_singleton]
  have hlsns : (Chunk.frames ⟨commands, true⟩ id).map Frame.lsn =
      List.range' id (commands.length + 1) := by
    rw [hframes, List.map_append, map_lsn_updateFrames, List.range'_1_concat]
    rfl
  refine ⟨⟨head, tail, hbytes, rfl⟩, hvalid, ?_, by rw [hlsns, hcount], ?_, ?_⟩
  · intro frame hmem
    rw [hframes, List.mem_append, List.mem_singleton] at hmem
    rcases hmem with hmem | rfl
    · exact transactionId_updateFrames frame hmem
    · rfl
  · rw [hlsns, List.range'_1_concat, List.dropLast_concat, hframes, List.map_append]
    cases commands with
    | nil => exact absurd rfl hne
    | cons command commands =>
      rw [map_previousLsn_updateFrames, List.length_cons, List.range'_1_concat, List.cons_append]
      rfl
  · rw [hcount, Nat.add_sub_cancel, hframes, List.map_append, map_commit_updateFrames]
    rfl

/-- The frame of one command among those of a transaction. -/
theorem updateFrames_split (id previousLsn lsn : Nat) (before : List LogCommand)
    (command : LogCommand) (after : List LogCommand) :
    ∃ frame rest, updateFrames id previousLsn lsn (before ++ command :: after) =
        updateFrames id previousLsn lsn before ++ frame :: rest ∧
      frame.record = .update command ∧ frame.lsn = lsn + before.length := by
  induction before generalizing previousLsn lsn with
  | nil => exact ⟨_, _, rfl, rfl, rfl⟩
  | cons first before ih =>
    obtain ⟨frame, rest, heq, hrecord, hlsn⟩ := ih lsn (lsn + 1)
    refine ⟨frame, rest, ?_, hrecord, by rw [hlsn, List.length_cons]; omega⟩
    rw [List.cons_append, updateFrames, heq, updateFrames, List.cons_append]

/-- The value of a selected command that passes the checks. -/
theorem checkSelected_eq_ok {reference : WalValueRef} {expectedKey : Key} {sequence : Nat}
    {command : LogCommand} {value : Bytes}
    (h : checkSelected reference expectedKey sequence command = .ok value) :
    command = ⟨.put, expectedKey, value, sequence⟩ := by
  rw [checkSelected] at h
  obtain ⟨_, htype, h⟩ := Exec.bind_eq_ok h
  obtain ⟨_, hsequence, h⟩ := Exec.bind_eq_ok h
  obtain ⟨_, hkey, h⟩ := Exec.bind_eq_ok h
  obtain ⟨_, -, h⟩ := Exec.bind_eq_ok h
  obtain ⟨_, -, h⟩ := Exec.bind_eq_ok h
  have htype' := rejectIf_eq_ok htype
  have hsequence' := rejectIf_eq_ok hsequence
  have hkey' := rejectIf_eq_ok hkey
  simp only [not_or, not_not] at htype' hsequence' hkey'
  rw [← htype'.1, ← hsequence'.2, ← hkey', ← Except.ok.inj h]

theorem commitOffset_le_of_checkCommit {bytes : Bytes} {reference : WalValueRef} {commitEnd : Nat}
    (h : checkCommit bytes reference = .ok commitEnd) : reference.commitOffset ≤ commitEnd := by
  rw [checkCommit] at h
  obtain ⟨headerEnd, hheaderEnd, h⟩ := Exec.bind_eq_ok h
  obtain ⟨_, -, h⟩ := Exec.bind_eq_ok h
  obtain ⟨_, -, h⟩ := Exec.bind_eq_ok h
  obtain ⟨_, -, h⟩ := Exec.bind_eq_ok h
  obtain ⟨_, -, h⟩ := Exec.bind_eq_ok h
  obtain ⟨_, -, h⟩ := Exec.bind_eq_ok h
  obtain ⟨stop, hstop, h⟩ := Exec.bind_eq_ok h
  obtain ⟨_, -, h⟩ := Exec.bind_eq_ok h
  have hend := addOrCorrupted_eq_ok hstop
  rw [addOrCorrupted_eq_ok hheaderEnd] at hend
  rw [← Except.ok.inj h, hend]
  omega

/-- The span that is read holds at least the commit frame. -/
theorem readSpan_eq_ok {bytes transaction : Bytes} {reference : WalValueRef} {commitEnd : Nat}
    (h : readSpan bytes reference commitEnd = .ok transaction)
    (hbehind : reference.transactionStartOffset < commitEnd) :
    ∃ head tail, bytes = head ++ transaction ++ tail ∧
      head.length = reference.transactionStartOffset ∧ transaction ≠ [] := by
  rw [readSpan] at h
  obtain ⟨_, -, h⟩ := Exec.bind_eq_ok h
  obtain ⟨_, -, h⟩ := Exec.bind_eq_ok h
  obtain ⟨hinside, rfl⟩ := readExactAt_eq_ok h
  refine ⟨bytes.take reference.transactionStartOffset,
    (bytes.drop reference.transactionStartOffset).drop
      (commitEnd - reference.transactionStartOffset), ?_, ?_, ?_⟩
  · rw [List.append_assoc, List.take_append_drop, List.take_append_drop]
  · rw [List.length_take]
    omega
  · intro hnil
    have hlength := congrArg List.length hnil
    rw [List.length_take, List.length_drop, List.length_nil] at hlength
    omega

/-- Whatever the segment files hold and whatever the reference says: a read never panics, and when
it returns a value, the file holds the whole committed transaction of the reference, and its frame
at the offset of the reference is the put of that key, sequence number and value. -/
theorem read_value_sound (disk : Disk Nat) (reference : WalValueRef) (expectedKey : Key)
    (expectedApplicationSequence : Nat) :
    (∀ value, readValue disk reference expectedKey expectedApplicationSequence = .ok value →
      ∃ file frames updates commit before frame after,
        disk[reference.segmentId]? = some file ∧
        CommittedRun file.bytes reference.transactionStartOffset reference.transactionId frames ∧
        frames = updates ++ [commit] ∧
        reference.transactionStartOffset + (frameBytes updates).length = reference.commitOffset ∧
        frames = before ++ frame :: after ∧
        reference.transactionStartOffset + (frameBytes before).length = reference.frameOffset ∧
        frame.record = .update ⟨.put, expectedKey, value, expectedApplicationSequence⟩) ∧
      ∀ message, readValue disk reference expectedKey expectedApplicationSequence ≠
        .error (.panic message) := by
  constructor
  · intro value h
    rw [readValue] at h
    obtain ⟨_, hvalidate, h⟩ := Exec.bind_eq_ok h
    obtain ⟨_, -, hvalidate⟩ := Exec.bind_eq_ok hvalidate
    obtain ⟨_, hoffsets, -⟩ := Exec.bind_eq_ok hvalidate
    have hbehind : reference.transactionStartOffset < reference.commitOffset := by
      have hchecks := rejectIf_eq_ok hoffsets
      omega
    cases hfile : disk[reference.segmentId]? with
    | none =>
      rw [hfile] at h
      cases h
    | some file =>
      rw [hfile] at h
      replace h : readSegmentValue file.bytes reference expectedKey
        expectedApplicationSequence = .ok value := h
      rw [readSegmentValue] at h
      obtain ⟨_, -, h⟩ := Exec.bind_eq_ok h
      obtain ⟨commitEnd, hcommitEnd, h⟩ := Exec.bind_eq_ok h
      obtain ⟨_, -, h⟩ := Exec.bind_eq_ok h
      obtain ⟨transaction, hspan, h⟩ := Exec.bind_eq_ok h
      obtain ⟨loop, hloop, h⟩ := Exec.bind_eq_ok h
      obtain ⟨_, -, h⟩ := Exec.bind_eq_ok h
      obtain ⟨head, tail, hbytes, hstart, hne⟩ := readSpan_eq_ok hspan
        (hbehind.trans_le (commitOffset_le_of_checkCommit hcommitEnd))
      obtain ⟨commands, hwalked⟩ := @readTransaction_eq_ok _ _ transaction _ [] none _ rfl
        (fun _ hmem => absurd hmem List.not_mem_nil) hne (fun _ hnone => by cases hnone) hbehind
        hloop
      cases hselected : loop.selected with
      | none =>
        rw [hselected] at h
        cases h
      | some command =>
        rw [hselected] at h
        obtain rfl := checkSelected_eq_ok h
        obtain ⟨before, after, hcommands, hplace⟩ := hwalked.selected _ hselected
        obtain ⟨frame, rest, hframes, hrecord, -⟩ := updateFrames_split reference.transactionId 0
          reference.transactionId before
          ⟨.put, expectedKey, value, expectedApplicationSequence⟩ after
        rw [← hcommands] at hframes
        have hrun : CommittedRun file.bytes reference.transactionStartOffset
            reference.transactionId (Chunk.frames ⟨commands, true⟩ reference.transactionId) := by
          have hwhole : transaction = _ := hwalked.bytes
          rw [hwhole] at hbytes
          rw [← hstart]
          exact committedRun_chunk hbytes (by simp [hcommands]) hwalked.valid
        refine ⟨file, _, updateFrames reference.transactionId 0 reference.transactionId commands,
          _, updateFrames reference.transactionId 0 reference.transactionId before, frame,
          rest ++ [Chunk.commitFrame ⟨commands, true⟩ reference.transactionId], rfl, hrun, rfl,
          ?_, ?_, ?_, hrecord⟩
        · rw [length_frameBytes_updates]
          exact hwalked.commitOffset
        · rw [Chunk.frames, hframes, List.append_assoc, List.cons_append]
          rfl
        · rw [length_frameBytes_updates]
          exact hplace
  · intro message hpanic
    obtain ⟨e, he⟩ := regular_readValue disk reference expectedKey expectedApplicationSequence _ hpanic
    cases he

/-- A segment with one committed put. -/
def onePutSegment : DurableFile :=
  let bytes := WALHeader.default.encode ++
    frameBytes (Chunk.frames ⟨[⟨.put, [97], [118], 7⟩], true⟩ 1)
  ⟨bytes, bytes.length, le_rfl⟩

/-- The reference to the put of `onePutSegment`. -/
def onePutReference : WalValueRef where
  segmentId := 0
  transactionId := 1
  transactionStartOffset := 36
  commitOffset := 100
  commitLsn := 2
  frameOffset := 36
  frameLength := 64
  physicalLsn := 1
  applicationSequence := 7
  recordType := .put
  keyLength := 1
  keyChecksum := crc32 [97]
  valueLength := 1
  valueChecksum := crc32 [118]

theorem read_value_sound_onePutSegment :
    ∃ file frames, ((∅ : Disk Nat).insert 0 onePutSegment)[0]? = some file ∧
      CommittedRun file.bytes 36 1 frames := by
  have hread : readValue ((∅ : Disk Nat).insert 0 onePutSegment) onePutReference [97] 7 =
      .ok [118] := by
    decide +kernel
  obtain ⟨file, frames, -, -, -, -, -, hfile, hrun, -⟩ :=
    (read_value_sound ((∅ : Disk Nat).insert 0 onePutSegment) onePutReference [97] 7).1 [118] hread
  exact ⟨file, frames, hfile, hrun⟩

end CereDB.Storage

import CereDB.Proofs.WalAppend

/-!
# `CereDB.Proofs.WalHalts`: how a WAL append can stop

An append of `write_engine_transactions` returns, or returns an error, or is cut short by the end of
the process; it never panics. `Regular C` says so about a computation, where `C` is what the plan
must allow for the process to end: with `C` false nothing but errors is left.
-/

set_option autoImplicit false

namespace CereDB.Storage

open CereDB.Lib

/-- An error, or under `C` the end of the process. A panic is neither. -/
def Halt.Regular (C : Prop) (halt : Halt) : Prop := (∃ e, halt = .error e) ∨ C ∧ halt = .crash

/-- The process ends in a coming call only under `C`. -/
def CrashesOnly (C : Prop) (plan : List Answer) : Prop := ∀ written, .crash written ∈ plan → C

/-- Every stop of the computation is regular. -/
def Regular {σ α : Type} [Planned σ] (C : Prop) (x : Op σ α) : Prop :=
  Act.Triple (fun s => CrashesOnly C (Planned.plan s)) x
    (fun _ s => CrashesOnly C (Planned.plan s)) fun halt _ => halt.Regular C

namespace Regular

variable {σ τ α β : Type} [Planned σ] [Planned τ] {C : Prop}

theorem bind {x : Op σ α} {f : α → Op σ β} (hx : Regular C x) (hf : ∀ a, Regular C (f a)) :
    Regular C (x >>= f) := Act.Triple.bind hx hf

protected theorem pure (a : α) : Regular C (pure a : Op σ α) := Act.Triple.pure fun _ hs => hs

protected theorem throw (e : DBError) : Regular C (throw (.error e) : Op σ α) :=
  Act.Triple.throw fun _ _ => .inl ⟨e, rfl⟩

protected theorem get : Regular C (get : Op σ σ) := fun _ hs => hs

protected theorem modify {f : σ → σ} (hf : ∀ s, Planned.plan (f s) = Planned.plan s) :
    Regular C (modify f : Op σ Unit) := by
  intro s hs
  show CrashesOnly C (Planned.plan (f s))
  rw [hf]
  exact hs

theorem ofExcept {r : Exec α} (hr : Exec.Regular r) : Regular C (Act.ofExcept r : Op σ α) := by
  intro s hs
  rw [Act.exec_ofExcept]
  cases r with
  | ok a => exact hs
  | error halt => exact .inl (hr halt rfl)

theorem zoom {part : σ → τ} {put : σ → τ → σ} {x : Op τ α} (hx : Regular C x)
    (hpart : ∀ s, Planned.plan (part s) = Planned.plan s)
    (hput : ∀ s t, Planned.plan (put s t) = Planned.plan t) : Regular C (Act.zoom part put x) := by
  intro s hs
  have hstart : CrashesOnly C (Planned.plan (part s)) := by
    rw [hpart]
    exact hs
  have hpost := hx (part s) hstart
  rw [Act.exec_zoom]
  cases hexec : Act.exec x (part s) with
  | mk r t =>
    rw [hexec] at hpost
    cases r with
    | ok a =>
      show CrashesOnly C (Planned.plan (put s t))
      rw [hput]
      exact hpost
    | error halt => exact hpost

/-- How a computation that is regular ends. -/
theorem outcome {x : Op σ α} (hx : Regular C x) {s : σ} (hs : CrashesOnly C (Planned.plan s)) :
    (∃ a s', Act.exec x s = (.ok a, s')) ∨ (∃ e s', Act.exec x s = (.error (.error e), s')) ∨
      C ∧ ∃ s', Act.exec x s = (.error .crash, s') := by
  cases hexec : Act.exec x s with
  | mk r s' =>
    cases r with
    | ok a => exact .inl ⟨a, s', rfl⟩
    | error halt =>
      obtain ⟨e, rfl⟩ | ⟨hC, rfl⟩ := Act.Triple.error hx hs hexec
      · exact .inr (.inl ⟨e, s', rfl⟩)
      · exact .inr (.inr ⟨hC, s', rfl⟩)

end Regular

/-! ### I/O calls -/

section Calls
variable {ν : Type} [LinearOrder ν] {C : Prop}

theorem regular_attempt (whole : Disk ν → Disk ν) (part : Nat → Disk ν → Disk ν) :
    Regular C (Io.attempt ioErrors whole part) := by
  rintro ⟨disk, plan⟩ hplan
  cases plan with
  | nil => exact hplan
  | cons answer plan =>
    have hrest : CrashesOnly C plan := fun written hmem =>
      hplan written (List.mem_cons_of_mem answer hmem)
    cases answer with
    | ok => exact hrest
    | fails written => exact .inl ⟨_, rfl⟩
    | crash written => exact .inr ⟨hplan written List.mem_cons_self, rfl⟩

theorem regular_createNew (name : ν) : Regular C (Io.createNew ioErrors name) := by
  refine Regular.get.bind fun io => ?_
  by_cases hexists : io.disk[name]?.isSome = true
  · rw [if_pos hexists]
    exact (Regular.throw _).bind fun _ => regular_attempt _ _
  · rw [if_neg hexists]
    exact regular_attempt _ _

theorem regular_createSegment (id : Nat) : Regular C (createSegment id) :=
  (regular_createNew id).bind fun _ => (regular_attempt _ _).bind fun _ =>
    (regular_attempt _ _).bind fun _ => regular_attempt _ _

end Calls

/-! ### The append -/

section Append
variable {C : Prop}

theorem regular_onDisk {α : Type} {x : Op (Io Nat) α} (hx : Regular C x) :
    Regular C (Wal.onDisk x) := hx.zoom (fun _ => rfl) fun _ _ => rfl

theorem regular_modifyWriter (f : WriterState → WriterState) : Regular C (Wal.modifyWriter f) :=
  Regular.modify fun _ => rfl

theorem regular_ensureHealthy : Regular C Wal.ensureHealthy := by
  refine Regular.get.bind fun wal => ?_
  by_cases hpoisoned : wal.manager.writer.poisoned = true
  · rw [if_pos hpoisoned]
    exact .throw _
  · rw [if_neg hpoisoned]
    exact .pure _

theorem regular_encodeFrame (frame : Frame) : Exec.Regular (encodeFrame frame) := by
  unfold encodeFrame
  split
  · exact .error _
  split
  · exact .error _
  · exact .ok _

theorem regular_planUpdate (collecting : Bool) (id start : Nat) (loop : UpdateLoop)
    (command : LogCommand) : Exec.Regular (planUpdate collecting id start loop command) := by
  unfold planUpdate
  split
  · exact .error _
  split
  · exact .error _
  refine (regular_encodeFrame _).bind fun frame => ?_
  dsimp only
  split
  · exact .error _
  split
  · exact .error _
  · exact .ok _

theorem regular_planTransaction (collecting : Bool) (group : GroupLoop)
    (commands : List LogCommand) : Exec.Regular (planTransaction collecting group commands) := by
  unfold planTransaction
  split
  · exact .error _
  refine (Exec.Regular.foldlM (regular_planUpdate _ _ _) _ _).bind fun loop => ?_
  refine (regular_encodeFrame _).bind fun commit => ?_
  split
  · exact .error _
  split
  · exact .error _
  · exact .ok _

theorem regular_walOffset (start offset : Nat) : Exec.Regular (walOffset start offset) := by
  unfold walOffset
  split
  · exact .ok _
  · exact .error _

theorem regular_receipts (segmentId start : Nat) (transaction : PlannedTransaction) :
    Exec.Regular (transaction.receipts segmentId start) :=
  (regular_walOffset _ _).bind fun _ => .mapM (fun _ => (regular_walOffset _ _).bind fun _ =>
    (regular_walOffset _ _).bind fun _ => .ok _) _

theorem regular_rotateLocked : Regular C Wal.rotateLocked := by
  refine Regular.get.bind fun wal => (regular_onDisk (regular_attempt _ _)).bind fun _ => ?_
  split
  · exact .throw _
  · exact (regular_onDisk (regular_createSegment _)).bind fun _ => regular_modifyWriter _

theorem regular_writePlanned (plan : GroupLoop) : Regular C (Wal.writePlanned plan) := by
  refine (regular_modifyWriter _).bind fun _ => ?_
  have hrotate : Regular C (Wal.rotateIfFull plan.bytes.length) := by
    refine Regular.get.bind fun wal => ?_
    dsimp only
    split
    · exact regular_rotateLocked
    · exact .pure _
  refine hrotate.bind fun _ => Regular.get.bind fun wal => ?_
  refine (Regular.ofExcept (.mapM (regular_receipts _ _) _)).bind fun receipts => ?_
  refine (regular_onDisk (regular_attempt _ _)).bind fun _ => ?_
  refine (regular_onDisk (regular_attempt _ _)).bind fun _ => ?_
  exact (regular_modifyWriter _).bind fun _ => .pure _

theorem regular_appendTransactions (collecting : Bool) (groups : List (List LogCommand)) :
    Regular C (Wal.appendTransactions collecting groups) := by
  unfold Wal.appendTransactions
  split
  · exact .pure _
  split
  · exact .throw _
  refine regular_ensureHealthy.bind fun _ => Regular.get.bind fun wal => ?_
  refine (Regular.ofExcept (.foldlM (regular_planTransaction _) _ _)).bind fun plan => ?_
  exact regular_writePlanned plan

/-- An engine append does not panic, and ends the process only if a call of its plan does. -/
theorem regular_writeEngineTransactions (groups : List (List LogCommand))
    (owner : Option CheckpointOwner) : Regular C (Wal.writeEngineTransactions groups owner) := by
  have happend : Regular C (Wal.appendEngineTransactions false groups owner) := by
    refine Regular.get.bind fun wal => ?_
    split
    · have hmark : Regular C Wal.markUntrackedMutation := Regular.modify fun _ => rfl
      exact hmark.bind fun _ => regular_appendTransactions false groups
    · exact regular_appendTransactions false groups
  exact happend.bind fun _ => .pure _

end Append

end CereDB.Storage

import CereDB.Proofs.BatchEncoding
import CereDB.Proofs.WalCrash
import CereDB.Storage.WalRead

/-!
# `CereDB.Proofs.WalContained`: failed appends are contained

A session is a sequence of append and rotate calls on one manager. The arguments of a call may be
anything, and every I/O call may fail or be the last one of the process. `WalSystem.outcome` says
how a call returns, and `WalSystem.acknowledged` lists the transactions of the calls that returned
`Ok`.

Three facts carry the result. A call that is refused for its arguments returns before the writer is
poisoned, so nothing has changed (`appendTransactions_refused`). A call that meets an I/O error
leaves the writer poisoned (`LogLayout.Live.append_io`, `LogLayout.Live.rotate_error`), and a
poisoned manager refuses all work (`unusable_of_poisoned`), apart from an append of no transaction
at all, which returns before it looks at the writer. And no call removes a byte from a file
(`WalSystem.grows_session`), so what was in the log at the start of the session stays in front of
what the session added (`WalSystem.Inv.calls_log`).
-/

set_option autoImplicit false

namespace CereDB.Storage

open CereDB.Lib

/-! ### Refused arguments -/

/-- Every error of a computation is a storage error. -/
def Exec.Refuses {α : Type} (r : Exec α) : Prop :=
  ∀ halt, r = .error halt → ∃ message, halt = .error (.storageError message)

section Refuses
variable {α β : Type}

theorem Exec.Refuses.ok (a : α) : Exec.Refuses (.ok a : Exec α) := by
  rintro halt ⟨⟩

theorem Exec.Refuses.storageError (message : String) :
    Exec.Refuses (storageError message : Exec α) := by
  rintro halt ⟨⟩
  exact ⟨message, rfl⟩

theorem Exec.Refuses.bind {x : Exec α} {f : α → Exec β} (hx : Exec.Refuses x)
    (hf : ∀ a, Exec.Refuses (f a)) : Exec.Refuses (x >>= f) := by
  cases x with
  | error halt =>
    rintro _ ⟨⟩
    exact hx halt rfl
  | ok a => exact hf a

theorem Exec.Refuses.foldlM {f : β → α → Exec β} (hf : ∀ b a, Exec.Refuses (f b a))
    (as : List α) (b : β) : Exec.Refuses (as.foldlM f b) := by
  induction as generalizing b with
  | nil => exact .ok b
  | cons a as ih =>
    rw [List.foldlM_cons]
    exact (hf b a).bind ih

end Refuses

/-- The files of the log have only grown. -/
def Wal.Grows (wal wal' : Wal) : Prop := wal.io.Grows wal'.io

instance : Std.Refl Wal.Grows := ⟨fun wal => Std.Refl.refl wal.io⟩

instance : IsTrans Wal Wal.Grows := ⟨fun _ _ _ h h' => IsTrans.trans (r := Io.Grows) _ _ _ h h'⟩

/-- A call on an open manager. The plan says how its I/O calls end. -/
inductive WalCall where
  | append (collecting : Bool) (groups : List (List LogCommand)) (plan : List Answer)
  | rotate (plan : List Answer)

namespace WalCall

def event : WalCall → WalEvent
  | .append collecting groups plan => .append collecting groups plan
  | .rotate plan => .rotate plan

/-- The transactions of a call. -/
def groups : WalCall → List (List LogCommand)
  | .append _ groups _ => groups
  | .rotate _ => []

end WalCall

namespace WalSystem

/-- How a call returns. Without a manager the process is gone, and there is nobody to call. -/
def outcome (s : WalSystem) (call : WalCall) : Exec Unit :=
  match s.manager, call with
  | none, _ => .error .crash
  | some manager, .append collecting groups plan =>
    (Act.exec (Wal.appendTransactions collecting groups) ⟨⟨s.disk, plan⟩, manager⟩).1.map
      fun _ => ()
  | some manager, .rotate plan =>
    (Act.exec Wal.rotateWalFile ⟨⟨s.disk, plan⟩, manager⟩).1.map fun _ => ()

/-- The calls in order. -/
def session (maxSegmentSize : Nat) (checkpointOwner : Bool) (s : WalSystem) (calls : List WalCall) :
    WalSystem :=
  (calls.map WalCall.event).foldl (step maxSegmentSize checkpointOwner) s

/-- The transactions of the calls that returned `Ok`, in order. -/
def acknowledged (maxSegmentSize : Nat) (checkpointOwner : Bool) :
    WalSystem → List WalCall → List (List LogCommand)
  | _, [] => []
  | s, call :: calls =>
    (if (s.outcome call).isOk then call.groups else []) ++
      acknowledged maxSegmentSize checkpointOwner
        (s.step maxSegmentSize checkpointOwner call.event) calls

section
variable {s : WalSystem} {maxSegmentSize : Nat} {checkpointOwner : Bool}

/-- No manager is left, or one that is poisoned. -/
def Stuck (s : WalSystem) : Prop :=
  ∀ manager, s.manager = some manager → manager.writer.poisoned = true

/-- The result of an append as the step has it. -/
theorem step_append {manager : WALManager} (hmanager : s.manager = some manager)
    {collecting : Bool} {groups : List (List LogCommand)} {plan : List Answer}
    {result : Exec (List (List WalValueRef))} {wal : Wal}
    (hexec : Act.exec (Wal.appendTransactions collecting groups) ⟨⟨s.disk, plan⟩, manager⟩
      = (result, wal)) :
    s.outcome (.append collecting groups plan) = result.map (fun _ => ()) ∧
      s.step maxSegmentSize checkpointOwner (.append collecting groups plan)
        = { disk := wal.io.disk
            manager := after result wal.manager
            log := s.log ++ (manager.entries collecting groups).map
              fun entry => ⟨entry, result.isOk⟩ } := by
  constructor
  · simp only [outcome, hmanager, hexec]
  · simp only [step, hmanager, hexec]

theorem step_rotate {manager : WALManager} (hmanager : s.manager = some manager)
    {plan : List Answer} {result : Exec Nat} {wal : Wal}
    (hexec : Act.exec Wal.rotateWalFile ⟨⟨s.disk, plan⟩, manager⟩ = (result, wal)) :
    s.outcome (.rotate plan) = result.map (fun _ => ()) ∧
      s.step maxSegmentSize checkpointOwner (.rotate plan)
        = { disk := wal.io.disk, manager := after result wal.manager, log := s.log } := by
  constructor
  · simp only [outcome, hmanager, hexec]
  · simp only [step, hmanager, hexec]

theorem step_none (hmanager : s.manager = none) (maxSegmentSize : Nat) (checkpointOwner : Bool)
    (call : WalCall) :
    s.outcome call = .error .crash ∧ s.step maxSegmentSize checkpointOwner call.event = s := by
  cases call <;> exact ⟨by simp only [outcome, hmanager],
    by simp only [WalCall.event, step, hmanager]⟩

/-- A stuck system stays as it is, and acknowledges nothing. -/
theorem Stuck.call (h : s.Stuck) (maxSegmentSize : Nat) (checkpointOwner : Bool) (call : WalCall) :
    s.step maxSegmentSize checkpointOwner call.event = s ∧
      ((s.outcome call).isOk = true → call.groups = []) := by
  cases hmanager : s.manager with
  | none =>
    obtain ⟨houtcome, hstep⟩ := step_none hmanager maxSegmentSize checkpointOwner call
    rw [houtcome]
    exact ⟨hstep, fun hok => by cases hok⟩
  | some manager =>
    have hpoisoned := h manager hmanager
    have hself {α : Type} {result : Exec α} (hcrash : result ≠ .error .crash) :
        ({ disk := s.disk, manager := after result manager, log := s.log } : WalSystem) = s := by
      have hafter : after result manager = s.manager := by
        rw [hmanager]
        unfold after
        split
        · exact absurd rfl hcrash
        · rfl
      rw [hafter]
    cases call with
    | append collecting groups plan =>
      obtain ⟨result, hcrash, hexec⟩ :=
        LogLayout.appendTransactions_poisoned ⟨s.disk, plan⟩ hpoisoned collecting groups
      obtain ⟨houtcome, hstep⟩ := step_append hmanager hexec
      have hnone : manager.entries collecting groups = [] := if_pos (.inl hpoisoned)
      rw [hnone, List.map_nil, List.append_nil] at hstep
      refine ⟨hstep.trans (hself hcrash), fun hok => ?_⟩
      cases result with
      | error halt =>
        rw [houtcome] at hok
        cases hok
      | ok receipts =>
        have hgroups := commands_entries_of_ok hexec
        rw [hnone] at hgroups
        exact hgroups.symm
    | rotate plan =>
      obtain ⟨result, hcrash, hexec⟩ :=
        LogLayout.rotateWalFile_poisoned ⟨s.disk, plan⟩ hpoisoned
      exact ⟨(step_rotate hmanager hexec).2.trans (hself hcrash), fun _ => rfl⟩

theorem Stuck.session (h : s.Stuck) (maxSegmentSize : Nat) (checkpointOwner : Bool)
    (calls : List WalCall) :
    s.session maxSegmentSize checkpointOwner calls = s ∧
      acknowledged maxSegmentSize checkpointOwner s calls = [] := by
  induction calls with
  | nil => exact ⟨rfl, rfl⟩
  | cons call calls ih =>
    obtain ⟨hstep, hgroups⟩ := h.call maxSegmentSize checkpointOwner call
    constructor
    · show ((calls.map WalCall.event).foldl _ (s.step maxSegmentSize checkpointOwner call.event)) = s
      rw [hstep]
      exact ih.1
    · rw [acknowledged, hstep, ih.2, List.append_nil]
      split
      · rename_i hok
        exact hgroups hok
      · rfl

/-- The call at which a session stopped: it returned an error, and no later call acknowledged a
transaction. -/
def StoppedAt (maxSegmentSize : Nat) (checkpointOwner : Bool) (s : WalSystem) (calls : List WalCall)
    (groups : List (List LogCommand)) : Prop :=
  ∃ before call later halt, calls = before ++ call :: later ∧ call.groups = groups ∧
    (s.session maxSegmentSize checkpointOwner before).outcome call = .error halt ∧
    acknowledged maxSegmentSize checkpointOwner s calls
      = acknowledged maxSegmentSize checkpointOwner s before

theorem StoppedAt.cons {call : WalCall} {calls : List WalCall} {groups : List (List LogCommand)}
    (h : StoppedAt maxSegmentSize checkpointOwner
      (s.step maxSegmentSize checkpointOwner call.event) calls groups) :
    StoppedAt maxSegmentSize checkpointOwner s (call :: calls) groups := by
  obtain ⟨before, stopped, later, halt, rfl, hgroups, hhalt, hsame⟩ := h
  refine ⟨call :: before, stopped, later, halt, rfl, hgroups, hhalt, ?_⟩
  rw [acknowledged, acknowledged, hsame]

/-- The directory opens, and its records are the commands of these transactions. -/
def Recovers (maxSegmentSize : Nat) (checkpointOwner : Bool) (s : WalSystem)
    (transactions : List (List LogCommand)) : Prop :=
  ∃ manager io records,
    Act.exec (WALManager.newInner maxSegmentSize none checkpointOwner) ⟨s.disk, []⟩
      = (.ok manager, io) ∧
    Act.exec Wal.recoverRecords ⟨io, manager⟩ = (.ok records, ⟨io, manager⟩) ∧
    records.map WALRecord.content = transactions.flatten.map LogCommand.content

theorem RecoversExactly.recovers (h : s.RecoversExactly maxSegmentSize checkpointOwner)
    {transactions : List (List LogCommand)}
    (hsurvivors : s.survivors.map (fun t => t.commands) = transactions) :
    Recovers maxSegmentSize checkpointOwner s transactions := by
  obtain ⟨manager, io, records, hopen, hrecover, hcontent⟩ := h.opens
  refine ⟨manager, io, records, hopen, hrecover, ?_⟩
  rw [hcontent, ← hsurvivors, List.flatMap_def]

end

end WalSystem

end CereDB.Storage

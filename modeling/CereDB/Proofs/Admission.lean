import CereDB.Proofs.CommandLog
import CereDB.Proofs.WalHalts
import CereDB.Storage.GroupCommit

/-!
# `CereDB.Proofs.Admission`: the queue has one runner and keeps the order

The inversion lemmas (`writeBatch_some`, `drain_some` and so on) say what each event of
`GroupCommit` does, guards included. Later modules use them and do not unfold the events.

`InLine` is the invariant of the queue. The flag `running` counts the runners: it is set exactly when
a client has been told to start one or one is there. The tickets that are completed, drained and
queued are, in this order, the tickets that were issued.

`work` bounds what the runners still have to do. Every event of a runner lowers it, and a runner is
never stuck, so whatever the schedule, the runners end with every ticket completed.
-/

set_option autoImplicit false

namespace CereDB.Storage

open CereDB.Lib

/-! ### The queue alone -/

namespace AdmissionQueue

/-- The loop takes requests from the front. -/
theorem drainLoop_append (maxRequests maxBytes : Nat) (queued taken : List Request)
    (bytes : Nat) :
    (drainLoop maxRequests maxBytes queued taken bytes).1 ++
        (drainLoop maxRequests maxBytes queued taken bytes).2 = taken ++ queued := by
  induction queued generalizing taken bytes with
  | nil => rfl
  | cons next queued ih =>
    rw [drainLoop]
    split
    · rfl
    split
    · rfl
    split
    · exact (List.append_cons taken next queued).symm
    · rw [ih]
      exact (List.append_cons taken next queued).symm

/-- What was taken stays taken. -/
theorem drainLoop_ne_nil (maxRequests maxBytes : Nat) {queued taken : List Request} {bytes : Nat}
    (h : taken ≠ []) : (drainLoop maxRequests maxBytes queued taken bytes).1 ≠ [] := by
  induction queued generalizing taken bytes with
  | nil => exact h
  | cons next queued ih =>
    have hmore : taken ++ [next] ≠ [] := by simp
    rw [drainLoop]
    split
    · exact h
    split
    · exact h
    split
    · exact hmore
    · exact ih hmore

/-- The first request is always taken, however large it is. -/
theorem drainLoop_takes {maxRequests : Nat} (maxBytes : Nat) {queued : List Request}
    (hmax : 0 < maxRequests) (h : queued ≠ []) :
    (drainLoop maxRequests maxBytes queued [] 0).1 ≠ [] := by
  cases queued with
  | nil => exact absurd rfl h
  | cons next queued =>
    have hroom : ¬maxRequests ≤ ([] : List Request).length := Nat.not_le.mpr hmax
    rw [drainLoop, if_neg hroom, if_neg fun hfull => hfull.1 rfl]
    split
    · exact List.cons_ne_nil next []
    · exact drainLoop_ne_nil maxRequests maxBytes (List.cons_ne_nil next [])

/-- What `drain_ready` can do. -/
theorem drainReady_cases (queue : AdmissionQueue) :
    (queue.requests = [] ∧ queue.drainReady maxDrainRequests maxDrainBytes
        = (none, { queue with running := false })) ∨
      ∃ taken left, taken ≠ [] ∧ queue.requests = taken ++ left ∧
        queue.drainReady maxDrainRequests maxDrainBytes
          = (some taken, { queue with requests := left }) := by
  rw [drainReady]
  by_cases hnil : queue.requests = []
  · exact .inl ⟨hnil, if_pos hnil⟩
  · refine .inr ⟨_, _, drainLoop_takes maxDrainBytes (by decide) hnil, ?_, if_neg hnil⟩
    exact (drainLoop_append maxDrainRequests maxDrainBytes queue.requests [] 0).symm

/-- What `enqueue` does when it returns. -/
theorem enqueue_ok {operations : List BatchOperation} {estimatedBytes : Nat}
    {queue queue' : AdmissionQueue} {enqueued : Enqueued}
    (h : queue.enqueue operations estimatedBytes = .ok (enqueued, queue')) :
    enqueued = ⟨queue.nextTicket + 1, !queue.running⟩ ∧
      queue' = { queue with
        nextTicket := queue.nextTicket + 1
        requests := queue.requests ++ [⟨operations, queue.nextTicket + 1, estimatedBytes⟩]
        running := true } := by
  rw [enqueue] at h
  split at h
  · cases h
  · rename_i ticket hticket
    rw [checkedAdd] at hticket
    split at hticket
    · cases hticket
      obtain ⟨rfl, rfl⟩ := Prod.mk.inj (Except.ok.inj h)
      exact ⟨rfl, rfl⟩
    · cases hticket

/-- The next ticket in line is completed. -/
theorem complete_next {request : Request} {queue : AdmissionQueue}
    (hnext : request.ticket = queue.completedTicket + 1)
    (hissued : request.ticket ≤ queue.nextTicket) :
    queue.complete request = .ok { queue with completedTicket := queue.completedTicket + 1 } := by
  rw [complete, if_neg (by omega), hnext]

end AdmissionQueue

namespace GroupCommit

variable {fastbloom : FastBloom} {state state' : GroupCommit} {index : Nat}

/-! ### What the events do -/

theorem writeBatch_some {operations : List BatchOperation}
    (h : state.writeBatch operations = some state') :
    ∃ estimatedBytes, operations ≠ [] ∧ validateBatch operations = .ok estimatedBytes ∧
      state' = { state with
        queue := { state.queue with
          nextTicket := state.queue.nextTicket + 1
          requests := state.queue.requests ++
            [⟨operations, state.queue.nextTicket + 1, estimatedBytes⟩]
          running := true }
        elected := if state.queue.running then state.elected else state.elected + 1
        journal := { state.journal with
          issued := state.journal.issued ++
            [⟨operations, state.queue.nextTicket + 1, estimatedBytes⟩] } } := by
  rw [writeBatch] at h
  split at h
  · cases h
  rename_i hnonempty
  split at h
  · cases h
  rename_i estimatedBytes hvalid
  split at h
  · cases h
  rename_i enqueued queue henqueue
  obtain ⟨rfl, rfl⟩ := AdmissionQueue.enqueue_ok henqueue
  refine ⟨estimatedBytes, hnonempty, hvalid, ?_⟩
  rw [← Option.some.inj h]
  cases state.queue.running <;> rfl

theorem startRunner_some (h : state.startRunner = some state') :
    0 < state.elected ∧ state' = { state with
      elected := state.elected - 1
      runners := state.runners ++ [.ready] } := by
  rw [startRunner] at h
  split at h
  · cases h
  · exact ⟨by omega, (Option.some.inj h).symm⟩

theorem drain_some (h : state.drain index = some state') :
    state.runners[index]? = some .ready ∧
      ((state.queue.requests = [] ∧
          state' = endRunner index { state with queue := { state.queue with running := false } }) ∨
        ∃ taken left, taken ≠ [] ∧ state.queue.requests = taken ++ left ∧
          state' = setRunner index (.drained taken)
            { state with queue := { state.queue with requests := left } }) := by
  rw [drain] at h
  split at h
  · rename_i hready
    refine ⟨hready, ?_⟩
    rcases state.queue.drainReady_cases with ⟨hnil, hdrain⟩ | ⟨taken, left, htaken, hsplit, hdrain⟩
    · rw [hdrain] at h
      exact .inl ⟨hnil, (Option.some.inj h).symm⟩
    · rw [hdrain] at h
      exact .inr ⟨taken, left, htaken, hsplit, (Option.some.inj h).symm⟩
  · cases h

/-- The WAL append of a group, from a plan. -/
def appended (state : GroupCommit) (groups : List (List LogCommand)) (plan : List Answer) :
    Exec Unit × Store :=
  Act.exec (Store.onWal (Wal.writeEngineTransactions groups state.store.component.checkpointOwner))
    { state.store with dir := { state.store.dir with plan } }

theorem regular_buildCommands (first : Nat) (operations : List BatchOperation) :
    Exec.Regular (buildCommands first operations) := by
  induction operations generalizing first with
  | nil => exact .ok _
  | cons operation operations ih =>
    have hadd : Exec.Regular (addOr "batch sequence exhausted" first 1) := by
      rw [addOr]
      split
      · exact .ok _
      · exact .error _
    rw [buildCommands]
    exact hadd.bind fun lsn => (ih lsn).bind fun _ => .ok _

theorem regular_buildGroups (first : Nat) (requests : List (List BatchOperation)) :
    Exec.Regular (buildGroups first requests) := by
  induction requests generalizing first with
  | nil => exact .ok _
  | cons request requests ih =>
    rw [buildGroups]
    exact (regular_buildCommands first request).bind fun built =>
      (ih built.2).bind fun _ => .ok _

/-- A WAL append of a store returns, fails, or ends the process when its plan says so. -/
theorem appended_cases (state : GroupCommit) (groups : List (List LogCommand))
    (plan : List Answer) :
    (∃ store, state.appended groups plan = (.ok (), store)) ∨
      (∃ error store, state.appended groups plan = (.error (.error error), store)) ∨
      plan ≠ [] ∧ ∃ store, state.appended groups plan = (.error .crash, store) := by
  have hplan : CrashesOnly (plan ≠ []) plan := by
    rintro written hmem rfl
    cases hmem
  have houtcome := (regular_writeEngineTransactions groups
    state.store.component.checkpointOwner).outcome
      (s := Store.wal { state.store with dir := { state.store.dir with plan } }) hplan
  rw [appended, Store.onWal, Act.exec_zoom]
  rcases houtcome with ⟨a, wal, hexec⟩ | ⟨e, wal, hexec⟩ | ⟨hne, wal, hexec⟩
  · rw [hexec]
    exact .inl ⟨_, rfl⟩
  · rw [hexec]
    exact .inr (.inl ⟨e, _, rfl⟩)
  · rw [hexec]
    exact .inr (.inr ⟨hne, _, rfl⟩)

/-- The group of a runner is in the WAL, or the group failed and all its requests get the error. -/
theorem appendGroup_some {plan : List Answer} (h : state.appendGroup index plan = some state') :
    ∃ requests, state.runners[index]? = some (.drained requests) ∧ state.lockFree = true ∧
      ((∃ groups nextLsn store,
          buildGroups state.store.component.sequenceNumber (requests.map Request.operations)
            = .ok (groups, nextLsn) ∧
          state.appended groups plan = (.ok (), store) ∧
          state' = setRunner index (.publishing requests groups.flatten nextLsn) { state with
            store
            journal := { state.journal with
              committed := state.journal.committed ++ batches requests groups } }) ∨
        (∃ error, state' = setRunner index (.completing requests (.error error)) state) ∨
        ∃ groups nextLsn error store,
          buildGroups state.store.component.sequenceNumber (requests.map Request.operations)
            = .ok (groups, nextLsn) ∧
          state.appended groups plan = (.error (.error error), store) ∧
          state' = setRunner index (.completing requests (.error error)) { state with store }) := by
  rw [appendGroup] at h
  split at h
  · rename_i requests hdrained
    split at h
    · rename_i hfree
      refine ⟨requests, hdrained, hfree, ?_⟩
      split at h
      · rename_i error _
        exact .inr (.inl ⟨error, (Option.some.inj h).symm⟩)
      · cases h
      · rename_i groups nextLsn hbuild
        -- The append is regular, so it does not panic, and a crash is no event.
        rw [← appended] at h
        rcases state.appended_cases groups plan with ⟨store, happend⟩ | ⟨error, store, happend⟩ |
            ⟨-, store, happend⟩
        · rw [happend] at h
          exact .inl ⟨groups, nextLsn, store, hbuild, happend, (Option.some.inj h).symm⟩
        · rw [happend] at h
          exact .inr (.inr ⟨groups, nextLsn, error, store, hbuild, happend,
            (Option.some.inj h).symm⟩)
        · rw [happend] at h
          cases h
    · cases h
  · cases h

theorem insertRecord_some (h : state.insertRecord index = some state') :
    ∃ requests command pending nextLsn,
      state.runners[index]? = some (.publishing requests (command :: pending) nextLsn) ∧
      state' = setRunner index (.publishing requests pending nextLsn) { state with
        store := { state.store with
          component := Store.appendToMemtable state.store.component command } } := by
  rw [insertRecord] at h
  split at h
  · rename_i requests command pending nextLsn hrunner
    exact ⟨requests, command, pending, nextLsn, hrunner, (Option.some.inj h).symm⟩
  · cases h

theorem storeSequence_some (h : state.storeSequence index = some state') :
    ∃ requests nextLsn, state.runners[index]? = some (.publishing requests [] nextLsn) ∧
      state' = setRunner index (.completing requests (.ok ())) { state with
        store := { state.store with
          component := { state.store.component with sequenceNumber := nextLsn } } } := by
  rw [storeSequence] at h
  split at h
  · rename_i requests nextLsn hrunner
    exact ⟨requests, nextLsn, hrunner, (Option.some.inj h).symm⟩
  · cases h

/-- A round ends, or a request is completed or refused. -/
theorem complete_some (h : state.complete index = some state') :
    ∃ requests result, state.runners[index]? = some (.completing requests result) ∧
      ((requests = [] ∧ state' = setRunner index .ready state) ∨
        ∃ request rest, requests = request :: rest ∧
          ((∃ queue, state.queue.complete request = .ok queue ∧
              state' = setRunner index (.completing rest result) { state with
                queue
                journal := { state.journal with
                  completed := state.journal.completed ++ [(request.ticket, result)] } }) ∨
            ((∀ queue, state.queue.complete request ≠ .ok queue) ∧
              state' = setRunner index (.completing rest result) { state with
                journal := { state.journal with
                  refused := state.journal.refused ++ [request.ticket] } }))) := by
  rw [complete] at h
  split at h
  · rename_i result hrunner
    exact ⟨[], result, hrunner, .inl ⟨rfl, (Option.some.inj h).symm⟩⟩
  · rename_i request rest result hrunner
    refine ⟨request :: rest, result, hrunner, .inr ⟨request, rest, rfl, ?_⟩⟩
    split at h
    · rename_i queue hcomplete
      exact .inl ⟨queue, hcomplete, (Option.some.inj h).symm⟩
    · rename_i halt hcomplete
      refine .inr ⟨fun queue hok => ?_, (Option.some.inj h).symm⟩
      rw [hcomplete] at hok
      cases hok
  · cases h

/-- The start of a read changes nothing but its phase. -/
theorem startRead_some {call : Nat → ReadCall} (h : state.startRead call = some state') :
    state' = { state with reader := .loaded (call state.store.component.sequenceNumber) } := by
  rw [startRead] at h
  split at h
  · exact (Option.some.inj h).symm
  · exact (Option.some.inj h).symm
  · cases h

/-- A read changes nothing but its phase. -/
theorem readNext_some (h : state.readNext fastbloom = some state') :
    ∃ reader, state' = { state with reader } := by
  rw [readNext] at h
  split at h
  · cases h
  · cases h
  · split at h
    · exact ⟨_, (Option.some.inj h).symm⟩
    · exact ⟨_, (Option.some.inj h).symm⟩
  · exact ⟨_, (Option.some.inj h).symm⟩
  · split at h
    · exact ⟨_, (Option.some.inj h).symm⟩
    · exact ⟨_, (Option.some.inj h).symm⟩

/-- An invariant of every step is an invariant of every run. -/
theorem run_induction {P : GroupCommit → Prop}
    (hstep : ∀ state event state', P state → state.next fastbloom event = some state' → P state')
    (h : P state) (events : List CommitEvent) : P (state.run fastbloom events) := by
  induction events generalizing state with
  | nil => exact h
  | cons event events ih =>
    show P ((state.step fastbloom event).run fastbloom events)
    apply ih
    rw [step]
    cases hnext : state.next fastbloom event with
    | none => exact h
    | some state' => exact hstep state event state' h hnext

/-! ### One runner, one line -/

/-- The requests that are drained or queued. -/
def unfinished (state : GroupCommit) : List Request :=
  state.runners.flatMap Runner.requests ++ state.queue.requests

/-- A request that `write_batch` lets into the queue. -/
def Admitted (request : Request) : Prop :=
  request.operations ≠ [] ∧ ∃ bytes, validateBatch request.operations = .ok bytes

/-- The invariant of the queue. -/
structure InLine (state : GroupCommit) : Prop where
  running : state.elected + state.runners.length = if state.queue.running then 1 else 0
  waiting : state.queue.requests ≠ [] → state.queue.running = true
  tickets : state.journal.issued.map Request.ticket = List.range' 1 state.queue.nextTicket
  admitted : ∀ request ∈ state.journal.issued, Admitted request
  bounded : state.queue.completedTicket ≤ state.queue.nextTicket
  unfinished : state.unfinished = state.journal.issued.drop state.queue.completedTicket
  completed : state.journal.completed.map Prod.fst = List.range' 1 state.queue.completedTicket
  refused : state.journal.refused = []

theorem inLine_start (store : Store) : InLine (start store) where
  running := rfl
  waiting h := absurd rfl h
  tickets := rfl
  admitted := by simp [start]
  bounded := le_rfl
  unfinished := rfl
  completed := rfl
  refused := rfl

theorem InLine.length_issued (h : InLine state) :
    state.journal.issued.length = state.queue.nextTicket := by
  rw [← List.length_map Request.ticket, h.tickets, List.length_range']

/-- There is at most one runner, so a runner that moves is alone. -/
theorem InLine.alone (h : InLine state) {runner : Runner}
    (hrunner : state.runners[index]? = some runner) :
    index = 0 ∧ state.runners = [runner] ∧ state.elected = 0 ∧ state.queue.running = true := by
  have hrunning := h.running
  cases hrunners : state.runners with
  | nil =>
    rw [hrunners] at hrunner
    cases hrunner
  | cons first others =>
    rw [hrunners, List.length_cons] at hrunning
    cases hflag : state.queue.running with
    | false =>
      rw [hflag] at hrunning
      simp at hrunning
    | true =>
      rw [hflag, if_pos rfl] at hrunning
      have hnone : others = [] := List.length_eq_zero_iff.mp (by omega)
      subst hnone
      rw [hrunners] at hrunner
      cases index with
      | zero => exact ⟨rfl, by rw [Option.some.inj hrunner], by simp at hrunning; omega, rfl⟩
      | succ index => cases hrunner

/-- The first unfinished request has the ticket behind the completed ones. -/
theorem InLine.head (h : InLine state) {request : Request} {rest : List Request}
    (hline : state.unfinished = request :: rest) :
    request.ticket = state.queue.completedTicket + 1 ∧
      state.queue.completedTicket < state.queue.nextTicket ∧
      rest = state.journal.issued.drop (state.queue.completedTicket + 1) := by
  rw [h.unfinished] at hline
  have hlt : state.queue.completedTicket < state.journal.issued.length := by
    by_contra hge
    rw [List.drop_eq_nil_of_le (Nat.not_lt.mp hge)] at hline
    cases hline
  rw [List.drop_eq_getElem_cons hlt] at hline
  obtain ⟨hhead, hrest⟩ := List.cons.inj hline
  have hget : (state.journal.issued.map Request.ticket)[state.queue.completedTicket]?
      = some request.ticket := by
    rw [List.getElem?_map, List.getElem?_eq_getElem hlt, hhead]
    rfl
  rw [h.length_issued] at hlt
  rw [h.tickets, List.getElem?_range' hlt] at hget
  have hticket := Option.some.inj hget
  exact ⟨by omega, hlt, hrest.symm⟩

/-- The fields of the invariant other than the runners are as before. -/
structure SameLine (state state' : GroupCommit) : Prop where
  queue : state'.queue = state.queue
  elected : state'.elected = state.elected
  issued : state'.journal.issued = state.journal.issued
  completed : state'.journal.completed = state.journal.completed
  refused : state'.journal.refused = state.journal.refused

theorem InLine.same (h : InLine state) (hsame : SameLine state state')
    (hrunners : state'.runners.length = state.runners.length)
    (hrequests : state'.runners.flatMap Runner.requests = state.runners.flatMap Runner.requests) :
    InLine state' where
  running := by rw [hsame.elected, hsame.queue, hrunners, h.running]
  waiting := by rw [hsame.queue]; exact h.waiting
  tickets := by rw [hsame.issued, hsame.queue, h.tickets]
  admitted := by rw [hsame.issued]; exact h.admitted
  bounded := by rw [hsame.queue]; exact h.bounded
  unfinished := by
    rw [hsame.issued, hsame.queue, ← h.unfinished, GroupCommit.unfinished, hrequests, hsame.queue]
    rfl
  completed := by rw [hsame.completed, hsame.queue, h.completed]
  refused := hsame.refused.trans h.refused

/-- A runner that moves and keeps its requests keeps the line. -/
theorem InLine.move (h : InLine state) {runner runner' : Runner}
    (hrunner : state.runners[index]? = some runner)
    (hset : state'.runners = state.runners.set index runner')
    (hkeep : runner'.requests = runner.requests) (hsame : SameLine state state') :
    InLine state' := by
  obtain ⟨rfl, hrunners, -, -⟩ := h.alone hrunner
  rw [hrunners] at hset
  refine h.same hsame ?_ ?_
  · rw [hset, hrunners]
    rfl
  · rw [hset, hrunners]
    simp [hkeep]

/-- A client that found the flag unset is told to start a runner, and no other. -/
theorem InLine.writeBatch (h : InLine state) {operations : List BatchOperation}
    (hnext : state.writeBatch operations = some state') : InLine state' := by
  obtain ⟨estimatedBytes, hnonempty, hvalid, rfl⟩ := writeBatch_some hnext
  constructor
  case running =>
    have hrunning := h.running
    show (if state.queue.running then state.elected else state.elected + 1)
      + state.runners.length = 1
    cases hflag : state.queue.running with
    | false =>
      rw [hflag] at hrunning
      simp only [Bool.false_eq_true, if_false] at hrunning ⊢
      omega
    | true =>
      rw [hflag] at hrunning
      simpa using hrunning
  case waiting => exact fun _ => rfl
  case tickets =>
    show (state.journal.issued ++ [_]).map Request.ticket = _
    rw [List.map_append, h.tickets, List.range'_concat, Nat.one_mul, Nat.add_comm 1]
    rfl
  case admitted =>
    intro request hmem
    rcases List.mem_append.mp hmem with hold | hnew
    · exact h.admitted request hold
    · rw [List.mem_singleton.mp hnew]
      exact ⟨hnonempty, estimatedBytes, hvalid⟩
  case bounded => exact Nat.le_succ_of_le h.bounded
  case unfinished =>
    show state.runners.flatMap Runner.requests ++ (state.queue.requests ++ [_])
      = (state.journal.issued ++ [_]).drop state.queue.completedTicket
    rw [List.drop_append_of_le_length (by rw [h.length_issued]; exact h.bounded),
      ← h.unfinished, GroupCommit.unfinished, List.append_assoc]
  case completed => exact h.completed
  case refused => exact h.refused

/-- The last runner retires on an empty queue, or it moves requests from the queue to itself. -/
theorem InLine.drain (h : InLine state) (hnext : state.drain index = some state') :
    InLine state' := by
  obtain ⟨hready, ⟨hnil, rfl⟩ | ⟨taken, left, htaken, hsplit, rfl⟩⟩ := drain_some hnext
  · obtain ⟨rfl, hrunners, helected, -⟩ := h.alone hready
    have hunfinished := h.unfinished
    rw [GroupCommit.unfinished, hrunners] at hunfinished
    refine ⟨?_, fun hqueued => absurd hnil hqueued, h.tickets, h.admitted, h.bounded, ?_,
      h.completed, h.refused⟩
    · simp [endRunner, hrunners, helected]
    · refine Eq.trans ?_ hunfinished
      simp [GroupCommit.unfinished, endRunner, hrunners, Runner.requests]
  · obtain ⟨rfl, hrunners, -, hflag⟩ := h.alone hready
    have hunfinished := h.unfinished
    rw [GroupCommit.unfinished, hrunners, hsplit] at hunfinished
    refine ⟨?_, fun _ => hflag, h.tickets, h.admitted, h.bounded, ?_, h.completed, h.refused⟩
    · refine Eq.trans ?_ h.running
      simp [setRunner]
    · refine Eq.trans ?_ hunfinished
      simp [GroupCommit.unfinished, setRunner, hrunners, Runner.requests]

/-- The request a runner completes is the next one in line, so it is not refused. -/
theorem InLine.complete_some (h : InLine state) (hnext : state.complete index = some state') :
    ∃ requests result, state.runners[index]? = some (.completing requests result) ∧
      ((requests = [] ∧ state' = setRunner index .ready state) ∨
        ∃ request rest, requests = request :: rest ∧
          state' = setRunner index (.completing rest result) { state with
            queue := { state.queue with completedTicket := state.queue.completedTicket + 1 }
            journal := { state.journal with
              completed := state.journal.completed ++ [(request.ticket, result)] } }) := by
  obtain ⟨requests, result, hrunner, hround | ⟨request, rest, rfl, hdone⟩⟩ :=
    GroupCommit.complete_some hnext
  · exact ⟨requests, result, hrunner, .inl hround⟩
  · refine ⟨_, result, hrunner, .inr ⟨request, rest, rfl, ?_⟩⟩
    obtain ⟨rfl, hrunners, -, -⟩ := h.alone hrunner
    have hline : state.unfinished = request :: (rest ++ state.queue.requests) := by
      simp [GroupCommit.unfinished, hrunners, Runner.requests]
    have hhead := h.head hline
    have hnextDone := AdmissionQueue.complete_next hhead.1 (by omega)
    rcases hdone with ⟨queue, hqueue, hstate⟩ | ⟨hrefused, -⟩
    · rw [← Except.ok.inj (hnextDone.symm.trans hqueue)] at hstate
      exact hstate
    · exact absurd hnextDone (hrefused _)

theorem InLine.complete (h : InLine state) (hnext : state.complete index = some state') :
    InLine state' := by
  obtain ⟨requests, result, hrunner, ⟨rfl, rfl⟩ | ⟨request, rest, rfl, rfl⟩⟩ :=
    h.complete_some hnext
  · exact h.move hrunner rfl rfl ⟨rfl, rfl, rfl, rfl, rfl⟩
  · obtain ⟨rfl, hrunners, -, -⟩ := h.alone hrunner
    have hline : state.unfinished = request :: (rest ++ state.queue.requests) := by
      simp [GroupCommit.unfinished, hrunners, Runner.requests]
    obtain ⟨hticket, hlt, hrest⟩ := h.head hline
    refine ⟨?_, h.waiting, h.tickets, h.admitted, hlt, ?_, ?_, h.refused⟩
    · refine Eq.trans ?_ h.running
      simp [setRunner]
    · refine Eq.trans ?_ hrest
      simp [GroupCommit.unfinished, setRunner, hrunners, Runner.requests]
    · show (state.journal.completed ++ [(request.ticket, result)]).map Prod.fst
        = List.range' 1 (state.queue.completedTicket + 1)
      rw [List.map_append, h.completed, List.range'_concat, Nat.one_mul, Nat.add_comm 1, ← hticket]
      rfl

/-- The invariant holds after every event. -/
theorem InLine.next (h : InLine state) {event : CommitEvent}
    (hnext : state.next fastbloom event = some state') : InLine state' := by
  have hread (hreader : ∃ reader, state' = { state with reader }) : InLine state' := by
    obtain ⟨reader, rfl⟩ := hreader
    exact h.same ⟨rfl, rfl, rfl, rfl, rfl⟩ rfl rfl
  cases event with
  | writeBatch operations => exact h.writeBatch hnext
  | startRunner =>
    obtain ⟨helected, rfl⟩ := startRunner_some hnext
    refine ⟨?_, h.waiting, h.tickets, h.admitted, h.bounded, ?_, h.completed, h.refused⟩
    · refine Eq.trans ?_ h.running
      show state.elected - 1 + (state.runners ++ [Runner.ready]).length = _
      rw [List.length_append, List.length_singleton]
      omega
    · refine Eq.trans ?_ h.unfinished
      simp [GroupCommit.unfinished, Runner.requests]
  | drain index => exact h.drain hnext
  | appendGroup index plan =>
    obtain ⟨requests, hrunner, -, ⟨_, _, _, -, -, rfl⟩ | ⟨_, rfl⟩ | ⟨_, _, _, _, -, -, rfl⟩⟩ :=
      appendGroup_some hnext
    · exact h.move hrunner rfl rfl ⟨rfl, rfl, rfl, rfl, rfl⟩
    · exact h.move hrunner rfl rfl ⟨rfl, rfl, rfl, rfl, rfl⟩
    · exact h.move hrunner rfl rfl ⟨rfl, rfl, rfl, rfl, rfl⟩
  | insertRecord index =>
    obtain ⟨requests, command, pending, nextLsn, hrunner, rfl⟩ := insertRecord_some hnext
    exact h.move hrunner rfl rfl ⟨rfl, rfl, rfl, rfl, rfl⟩
  | storeSequence index =>
    obtain ⟨requests, nextLsn, hrunner, rfl⟩ := storeSequence_some hnext
    exact h.move hrunner rfl rfl ⟨rfl, rfl, rfl, rfl, rfl⟩
  | complete index => exact h.complete hnext
  | startGet key => exact hread ⟨_, startRead_some hnext⟩
  | startScan range => exact hread ⟨_, startRead_some hnext⟩
  | readNext => exact hread (readNext_some hnext)

theorem inLine_run (store : Store) (events : List CommitEvent) :
    InLine ((start store).run fastbloom events) :=
  run_induction (fun _ _ _ h hnext => h.next hnext) (inLine_start store) events

/-! ### Runners finish -/

/-- What a queued request costs at most. -/
def requestWork (request : Request) : Nat := request.operations.length + 6

/-- How many events a runner has left in its round, at most. -/
def runnerWork : Runner → Nat
  | .ready => 1
  | .drained requests => (requests.map fun request => request.operations.length + 1).sum + 4
  | .publishing requests pending _ => pending.length + requests.length + 3
  | .completing requests _ => requests.length + 2

/-- How many events the runners have left, at most. -/
def work (state : GroupCommit) : Nat :=
  2 * state.elected + (state.runners.map runnerWork).sum + (state.queue.requests.map requestWork).sum

/-- A drained request costs less than a queued one. -/
theorem sum_requestWork (requests : List Request) :
    (requests.map requestWork).sum
      = (requests.map fun request => request.operations.length + 1).sum + 5 * requests.length := by
  induction requests with
  | nil => rfl
  | cons request requests ih =>
    rw [List.map_cons, List.sum_cons, ih, List.map_cons, List.sum_cons, List.length_cons,
      requestWork]
    omega

/-- The commands of a group are as many as its operations. -/
theorem length_flatten_buildGroups {first last : Nat} {requests : List Request}
    {groups : List (List LogCommand)}
    (h : buildGroups first (requests.map Request.operations) = .ok (groups, last)) :
    groups.flatten.length + requests.length
      = (requests.map fun request => request.operations.length + 1).sum := by
  have hlength (first : Nat) (operations : List BatchOperation) :
      (numbered first operations).length = operations.length := by
    induction operations generalizing first with
    | nil => rfl
    | cons operation operations ih => rw [numbered, List.length_cons, ih, List.length_cons]
  rw [(buildGroups_ok h).1, hlength]
  clear h
  induction requests with
  | nil => rfl
  | cons request requests ih =>
    rw [List.map_cons, List.flatten_cons, List.length_append, List.length_cons, List.map_cons,
      List.sum_cons, ← ih]
    omega

theorem length_le_sum_succ (requests : List Request) :
    requests.length ≤ (requests.map fun request => request.operations.length + 1).sum := by
  induction requests with
  | nil => exact le_rfl
  | cons request requests ih =>
    rw [List.map_cons, List.sum_cons, List.length_cons]
    omega

/-- The work of a state whose only runner moved. -/
theorem work_move (h : InLine state) {runner runner' : Runner}
    (hrunner : state.runners[index]? = some runner)
    (hset : state'.runners = state.runners.set index runner')
    (helected : state'.elected = state.elected) (hqueue : state'.queue.requests = state.queue.requests)
    (hless : runnerWork runner' < runnerWork runner) : state'.work < state.work := by
  obtain ⟨rfl, hrunners, -, -⟩ := h.alone hrunner
  rw [work, work, hset, hrunners, helected, hqueue]
  simpa using hless

/-- Every event of a runner lowers the work. -/
theorem work_next (h : InLine state) {event : CommitEvent} (hevent : event.ofRunner = true)
    (hnext : state.next fastbloom event = some state') : state'.work < state.work := by
  cases event with
  | writeBatch _ | startGet _ | startScan _ | readNext => cases hevent
  | startRunner =>
    obtain ⟨helected, rfl⟩ := startRunner_some hnext
    simp only [work, List.map_append, List.sum_append, List.map_cons, List.map_nil,
      List.sum_cons, List.sum_nil, runnerWork]
    omega
  | drain index =>
    obtain ⟨hready, ⟨hnil, rfl⟩ | ⟨taken, left, htaken, hsplit, rfl⟩⟩ := drain_some hnext
    · obtain ⟨rfl, hrunners, -, -⟩ := h.alone hready
      simp [work, endRunner, hrunners, runnerWork]
    · obtain ⟨rfl, hrunners, -, -⟩ := h.alone hready
      have hpos : 0 < taken.length := List.length_pos_iff.mpr htaken
      simp only [work, setRunner, hrunners, hsplit, List.set_cons_zero, List.map_cons,
        List.map_nil, List.sum_cons, List.sum_nil, List.map_append, List.sum_append,
        runnerWork, sum_requestWork]
      omega
  | appendGroup index plan =>
    obtain ⟨requests, hrunner, -, ⟨groups, nextLsn, _, hbuild, -, rfl⟩ | ⟨_, rfl⟩ |
      ⟨_, _, _, _, hbuild, -, rfl⟩⟩ := appendGroup_some hnext
    · refine work_move h hrunner rfl rfl rfl ?_
      have hlength := length_flatten_buildGroups hbuild
      simp only [runnerWork]
      omega
    · refine work_move h hrunner rfl rfl rfl ?_
      have hle := length_le_sum_succ requests
      simp only [runnerWork]
      omega
    · refine work_move h hrunner rfl rfl rfl ?_
      have hle := length_le_sum_succ requests
      simp only [runnerWork]
      omega
  | insertRecord index =>
    obtain ⟨requests, command, pending, nextLsn, hrunner, rfl⟩ := insertRecord_some hnext
    refine work_move h hrunner rfl rfl rfl ?_
    simp only [runnerWork, List.length_cons]
    omega
  | storeSequence index =>
    obtain ⟨requests, nextLsn, hrunner, rfl⟩ := storeSequence_some hnext
    refine work_move h hrunner rfl rfl rfl ?_
    simp only [runnerWork, List.length_nil]
    omega
  | complete index =>
    obtain ⟨requests, result, hrunner, ⟨rfl, rfl⟩ | ⟨request, rest, rfl, rfl⟩⟩ :=
      h.complete_some hnext
    · exact work_move h hrunner rfl rfl rfl (by simp [runnerWork])
    · exact work_move h hrunner rfl rfl rfl (by simp [runnerWork])

/-- The runners take at most as many steps as there is work. -/
theorem length_le_work (h : InLine state) {events : List CommitEvent}
    (hevents : ∀ event ∈ events, event.ofRunner = true)
    (hrun : events.foldlM (next fastbloom) state = some state') : events.length ≤ state.work := by
  induction events generalizing state with
  | nil => exact Nat.zero_le _
  | cons event events ih =>
    rw [List.foldlM_cons] at hrun
    obtain ⟨middle, hnext, hrest⟩ := Option.bind_eq_some_iff.mp hrun
    have hless := work_next h (hevents event List.mem_cons_self) hnext
    have hle := ih (h.next hnext) (fun other hother =>
      hevents other (List.mem_cons_of_mem event hother)) hrest
    rw [List.length_cons]
    omega

/-- A runner can always move. Without a failure in its plan an append does not end the process. -/
theorem runner_moves (fastbloom : FastBloom) (h : InLine state) {runner : Runner}
    (hrunner : state.runners[index]? = some runner) :
    ∃ event, event.ofRunner = true ∧ (state.next fastbloom event).isSome = true := by
  cases runner with
  | ready =>
    refine ⟨.drain index, rfl, ?_⟩
    show (state.drain index).isSome = true
    rw [drain, hrunner]
    dsimp only
    split <;> rfl
  | drained requests =>
    refine ⟨.appendGroup index [], rfl, ?_⟩
    have hfree : state.lockFree = true := by
      rw [lockFree, (h.alone hrunner).2.1]
      rfl
    show (state.appendGroup index []).isSome = true
    rw [appendGroup, hrunner]
    dsimp only
    rw [if_pos hfree]
    cases hbuild : buildGroups state.store.component.sequenceNumber
        (requests.map Request.operations) with
    | error halt =>
      obtain ⟨error, rfl⟩ := regular_buildGroups _ _ halt hbuild
      rfl
    | ok built =>
      obtain ⟨groups, nextLsn⟩ := built
      dsimp only
      rw [← appended]
      rcases state.appended_cases groups [] with ⟨_, happend⟩ | ⟨_, _, happend⟩ | ⟨hne, -⟩
      · rw [happend]
        rfl
      · rw [happend]
        rfl
      · exact absurd rfl hne
  | publishing requests pending nextLsn =>
    cases pending with
    | nil =>
      refine ⟨.storeSequence index, rfl, ?_⟩
      show (state.storeSequence index).isSome = true
      rw [storeSequence, hrunner]
      rfl
    | cons command pending =>
      refine ⟨.insertRecord index, rfl, ?_⟩
      show (state.insertRecord index).isSome = true
      rw [insertRecord, hrunner]
      rfl
  | completing requests result =>
    refine ⟨.complete index, rfl, ?_⟩
    show (state.complete index).isSome = true
    rw [complete, hrunner]
    cases requests with
    | nil => rfl
    | cons request rest =>
      dsimp only
      split <;> rfl

/-- When the runners can do nothing any more, every ticket is completed. -/
theorem InLine.completed_of_stuck (h : InLine state)
    (hstuck : ∀ event, event.ofRunner = true → state.next fastbloom event = none) :
    state.journal.completed.map Prod.fst = state.journal.issued.map Request.ticket := by
  have helected : state.elected = 0 := by
    by_contra hne
    have hstart := hstuck .startRunner rfl
    change state.startRunner = none at hstart
    rw [startRunner, if_neg hne] at hstart
    cases hstart
  have hrunners : state.runners = [] := by
    cases hcases : state.runners with
    | nil => rfl
    | cons runner others =>
      have hfirst : state.runners[0]? = some runner := by rw [hcases]; rfl
      obtain ⟨event, hevent, hsome⟩ := runner_moves fastbloom h hfirst
      rw [hstuck event hevent] at hsome
      cases hsome
  have hidle : state.queue.running = false := by
    have hrunning := h.running
    rw [helected, hrunners] at hrunning
    by_contra hbusy
    rw [if_pos (by simpa using hbusy)] at hrunning
    cases hrunning
  have hqueue : state.queue.requests = [] := by
    by_contra hne
    rw [h.waiting hne] at hidle
    cases hidle
  have hnone := h.unfinished
  rw [GroupCommit.unfinished, hrunners, hqueue] at hnone
  rw [h.completed, h.tickets, ← h.length_issued, le_antisymm (h.length_issued ▸ h.bounded)
    (List.drop_eq_nil_iff.mp hnone.symm)]

/-- What is completed, drained and queued is what was issued. -/
theorem InLine.line (h : InLine state) :
    state.journal.completed.map Prod.fst ++ state.unfinished.map Request.ticket
      = state.journal.issued.map Request.ticket := by
  rw [h.completed, h.unfinished, List.map_drop, h.tickets, List.drop_range', Nat.mul_one,
    List.range'_append_1, Nat.add_sub_cancel' h.bounded]

/-- The write admission queue hands out the tickets 1, 2, 3 and so on, and what is completed, drained
and queued is at any time the issued tickets in order. There is at most one runner, elected or active,
and there is one whenever a request waits. Tickets are completed in order, each once, and none is
refused. A wait for a ticket returns after all tickets up to it. Whatever the schedule, the runners
stop after finitely many steps, and then every ticket is completed. -/
theorem admission_single_runner_fifo (fastbloom : FastBloom) (store : Store)
    (events : List CommitEvent) :
    let state := (start store).run fastbloom events
    state.journal.issued.map Request.ticket = List.range' 1 state.queue.nextTicket ∧
      state.journal.completed.map Prod.fst ++
          (state.runners.flatMap Runner.requests ++ state.queue.requests).map Request.ticket
        = state.journal.issued.map Request.ticket ∧
      state.elected + state.runners.length ≤ 1 ∧
      (state.queue.requests ≠ [] → 0 < state.elected + state.runners.length) ∧
      state.journal.completed.map Prod.fst = List.range' 1 state.queue.completedTicket ∧
      state.journal.refused = [] ∧
      (∀ ticket, state.queue.completedThrough ticket = true → ∀ earlier, 0 < earlier →
        earlier ≤ ticket → earlier ∈ state.journal.completed.map Prod.fst) ∧
      (∃ bound, ∀ (more : List CommitEvent) (after : GroupCommit),
        (∀ event ∈ more, event.ofRunner = true) →
        more.foldlM (next fastbloom) state = some after → more.length ≤ bound) ∧
      ((∀ event, event.ofRunner = true → state.next fastbloom event = none) →
        state.journal.completed.map Prod.fst = state.journal.issued.map Request.ticket) := by
  intro state
  have h : InLine state := inLine_run store events
  refine ⟨h.tickets, h.line, ?_, ?_, h.completed, h.refused, ?_, ?_, h.completed_of_stuck⟩
  · rw [h.running]
    split <;> omega
  · intro hqueued
    rw [h.running, if_pos (h.waiting hqueued)]
    exact Nat.one_pos
  · intro ticket hdone earlier hpos hle
    have hthrough : ticket ≤ state.queue.completedTicket := of_decide_eq_true hdone
    rw [h.completed, List.mem_range'_1]
    omega
  · exact ⟨state.work, fun more after hmore hrun => length_le_work h hmore hrun⟩

end GroupCommit

end CereDB.Storage

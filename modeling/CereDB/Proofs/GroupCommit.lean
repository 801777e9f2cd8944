import CereDB.Proofs.Admission
import CereDB.Proofs.GroupLog

/-!
# `CereDB.Proofs.GroupCommit`: batches are ordered and atomic

`numberedBatches` is what group commit is for: each request that succeeds gets the block of sequence
numbers right behind the one before. `Commits` relates a state of `GroupCommit` to such a numbering.
The batches whose WAL append returned are split into those the sequence number covers (`published`)
and the group that is being inserted (`group`). The inserted records are a start of the commands in
the order of the WAL.

Only an append adds batches, only `insertRecord` changes the memtable and only `storeSequence` the
sequence number. A runner reaches the last two after its append returned, so a group that fails
touches neither.
-/

set_option autoImplicit false

namespace CereDB.Storage

open CereDB.Lib

namespace Runner

/-- The requests that are not in the WAL yet. -/
def waiting : Runner → List Request
  | .drained requests => requests
  | _ => []

/-- The records that are not in the memtable yet. -/
def pending : Runner → List LogCommand
  | .publishing _ pending _ => pending
  | _ => []

/-- The requests whose WAL append returned and which are not completed. -/
def succeeding : Runner → List Request
  | .publishing requests _ _ | .completing requests (.ok _) => requests
  | _ => []

/-- The sequence number of the group is not stored yet. -/
def publishes : Runner → Bool
  | .publishing _ _ _ => true
  | _ => false

end Runner

namespace GroupCommit

/-! ### Numbered batches -/

/-- The batches of requests under consecutive blocks of sequence numbers behind `first`. -/
def numberedBatches : Nat → List Request → List CommittedBatch
  | _, [] => []
  | first, request :: requests =>
    ⟨request.ticket, numbered first request.operations⟩ ::
      numberedBatches (first + request.operations.length) requests

/-- The commands of batches, in order. -/
def commandsOf (batches : List CommittedBatch) : List LogCommand :=
  batches.flatMap CommittedBatch.commands

theorem commandsOf_append (batches more : List CommittedBatch) :
    commandsOf (batches ++ more) = commandsOf batches ++ commandsOf more :=
  List.flatMap_append

theorem commandsOf_cons (batch : CommittedBatch) (batches : List CommittedBatch) :
    commandsOf (batch :: batches) = batch.commands ++ commandsOf batches :=
  List.flatMap_cons

/-- All commands together are numbered consecutively. -/
theorem commandsOf_numberedBatches (first : Nat) (requests : List Request) :
    commandsOf (numberedBatches first requests)
      = numbered first (requests.flatMap Request.operations) := by
  induction requests generalizing first with
  | nil => rfl
  | cons request requests ih =>
    rw [List.flatMap_cons, numbered_append, ← ih]
    rfl

theorem numberedBatches_append (first : Nat) (requests more : List Request) :
    numberedBatches first (requests ++ more) = numberedBatches first requests ++
      numberedBatches (first + (commandsOf (numberedBatches first requests)).length) more := by
  induction requests generalizing first with
  | nil => rfl
  | cons request requests ih =>
    rw [List.cons_append, numberedBatches, ih, numberedBatches, List.cons_append,
      commandsOf_cons, List.length_append, length_numbered, Nat.add_assoc]

theorem tickets_numberedBatches (first : Nat) (requests : List Request) :
    (numberedBatches first requests).map CommittedBatch.ticket = requests.map Request.ticket := by
  induction requests generalizing first with
  | nil => rfl
  | cons request requests ih => rw [numberedBatches, List.map_cons, ih, List.map_cons]

/-- The groups of a runner are its requests, numbered behind the sequence number. -/
theorem batches_buildGroups {first last : Nat} {requests : List Request}
    {groups : List (List LogCommand)}
    (h : buildGroups first (requests.map Request.operations) = .ok (groups, last)) :
    batches requests groups = numberedBatches first requests ∧
      last = first + (commandsOf (numberedBatches first requests)).length ∧
      groups = (numberedBatches first requests).map CommittedBatch.commands ∧
      (first < u64Limit → last < u64Limit) := by
  induction requests generalizing first last groups with
  | nil =>
    obtain ⟨rfl, rfl⟩ := Prod.mk.inj (Except.ok.inj h)
    exact ⟨rfl, rfl, rfl, id⟩
  | cons request requests ih =>
    rw [List.map_cons, buildGroups] at h
    obtain ⟨⟨commands, middle⟩, hcommands, h⟩ := Exec.bind_eq_ok h
    obtain ⟨⟨rest, last'⟩, hrest, h⟩ := Exec.bind_eq_ok h
    obtain ⟨rfl, rfl⟩ := Prod.mk.inj (Except.ok.inj h)
    obtain ⟨rfl, rfl, hmiddle⟩ := buildCommands_ok hcommands
    obtain ⟨hbatches, rfl, rfl, hlast⟩ := ih hrest
    refine ⟨?_, ?_, rfl, fun hfirst => hlast (hmiddle hfirst)⟩
    · rw [batches, List.zipWith_cons_cons, ← batches, hbatches]
      rfl
    · rw [numberedBatches, commandsOf_cons, List.length_append, length_numbered, Nat.add_assoc]

/-- The sequence numbers of numbered commands. -/
theorem lsn_commandsOf {first : Nat} {requests : List Request} {command : LogCommand}
    (h : command ∈ commandsOf (numberedBatches first requests)) :
    first < command.lsn ∧
      command.lsn ≤ first + (commandsOf (numberedBatches first requests)).length := by
  rw [commandsOf_numberedBatches] at h ⊢
  rw [length_numbered]
  exact ⟨(lsn_numbered h).1, (lsn_numbered h).2.1⟩

/-! ### The invariant -/

/-- `append_to_memtable` of a command, on the memtable. -/
def insertCommand (memtable : Memtable) (command : LogCommand) : Memtable :=
  memtable.append command.key command.value command.recordType command.lsn

/-- How far the requests of a component got since the start. `winners` are the requests whose WAL
append returned, `published` their batches up to the sequence number, `group` the batches that are
being inserted, and `inserted` the records that are in the memtable. -/
structure Commits (store : Store) (state : GroupCommit) (winners : List Request)
    (published group : List CommittedBatch) (inserted : List LogCommand) : Prop where
  order : (winners ++ (state.runners.flatMap Runner.waiting ++ state.queue.requests)).Sublist
    state.journal.issued
  committed : state.journal.committed
    = numberedBatches store.component.sequenceNumber winners
  split : state.journal.committed = published ++ group
  sequence : state.store.component.sequenceNumber
    = store.component.sequenceNumber + (commandsOf published).length
  sequence_lt : state.store.component.sequenceNumber < u64Limit
  pending : inserted ++ state.runners.flatMap Runner.pending
    = commandsOf state.journal.committed
  visible : commandsOf published <+: inserted
  memtable : state.store.component.memtable
    = inserted.foldl insertCommand store.component.memtable
  nextLsn : ∀ requests pending nextLsn, Runner.publishing requests pending nextLsn ∈ state.runners →
    nextLsn = store.component.sequenceNumber + (commandsOf state.journal.committed).length ∧
      nextLsn < u64Limit
  idle : (∀ runner ∈ state.runners, runner.publishes = false) → group = []
  succeeding : ∀ request ∈ state.runners.flatMap Runner.succeeding,
    ∃ batch ∈ state.journal.committed, batch.ticket = request.ticket
  acknowledged : ∀ ticket, (ticket, .ok ()) ∈ state.journal.completed →
    ∃ batch ∈ published, batch.ticket = ticket
  settled : ∀ batch ∈ state.journal.committed, (batch.ticket, .ok ()) ∈ state.journal.completed ∨
    ∃ request ∈ state.runners.flatMap Runner.succeeding, request.ticket = batch.ticket

section
variable {fastbloom : FastBloom} {store : Store} {state state' : GroupCommit} {index : Nat}
  {winners : List Request} {published group : List CommittedBatch} {inserted : List LogCommand}

theorem commits_start (store : Store) (hsequence : store.component.sequenceNumber < u64Limit) :
    Commits store (start store) [] [] [] [] := by
  constructor <;> simp [start, AdmissionQueue.new, numberedBatches, commandsOf, hsequence]

/-- What the invariant says when one runner is there. -/
theorem Commits.published_eq (h : Commits store state winners published group inserted)
    (hidle : ∀ runner ∈ state.runners, runner.publishes = false) :
    group = [] ∧ published = state.journal.committed := by
  obtain rfl := h.idle hidle
  exact ⟨rfl, by rw [h.split, List.append_nil]⟩

/-- An event that touches neither the store nor the batches. -/
theorem Commits.same (h : Commits store state winners published group inserted)
    (hstore : state'.store.component = state.store.component)
    (hjournal : state'.journal.committed = state.journal.committed ∧
      state'.journal.completed = state.journal.completed)
    (horder : (winners ++ (state'.runners.flatMap Runner.waiting ++ state'.queue.requests)).Sublist
      state'.journal.issued)
    (hpending : state'.runners.flatMap Runner.pending = state.runners.flatMap Runner.pending)
    (hsucceeding : state'.runners.flatMap Runner.succeeding
      = state.runners.flatMap Runner.succeeding)
    (hpublishing : ∀ runner, runner.publishes = true →
      (runner ∈ state'.runners ↔ runner ∈ state.runners)) :
    Commits store state' winners published group inserted where
  order := horder
  committed := by rw [hjournal.1, h.committed]
  split := by rw [hjournal.1, h.split]
  sequence := by rw [hstore, h.sequence]
  sequence_lt := by rw [hstore]; exact h.sequence_lt
  pending := by rw [hpending, hjournal.1, h.pending]
  visible := h.visible
  memtable := by rw [hstore, h.memtable]
  nextLsn requests pending nextLsn hmem := by
    rw [hjournal.1]
    exact h.nextLsn requests pending nextLsn ((hpublishing _ rfl).mp hmem)
  idle hidle := by
    refine h.idle fun runner hmem => ?_
    cases hpublishes : runner.publishes with
    | false => rfl
    | true => rw [← hpublishes]; exact hidle runner ((hpublishing runner hpublishes).mpr hmem)
  succeeding := by rw [hsucceeding, hjournal.1]; exact h.succeeding
  acknowledged := by rw [hjournal.2]; exact h.acknowledged
  settled := by rw [hsucceeding, hjournal.1, hjournal.2]; exact h.settled

/-- The group of a runner is in the WAL: its requests join the winners. -/
theorem Commits.appended (h : Commits store state winners published group inserted)
    {requests : List Request} (hrunners : state.runners = [.drained requests])
    {groups : List (List LogCommand)} {nextLsn : Nat}
    (hbuild : buildGroups state.store.component.sequenceNumber (requests.map Request.operations)
      = .ok (groups, nextLsn))
    {store' : Store} (hstore : store'.component.sequenceNumber = state.store.component.sequenceNumber ∧
      store'.component.memtable = state.store.component.memtable) :
    Commits store (setRunner 0 (.publishing requests groups.flatten nextLsn) { state with
        store := store'
        journal := { state.journal with
          committed := state.journal.committed ++ batches requests groups } })
      (winners ++ requests) published (batches requests groups) inserted := by
  have hnone : ∀ runner ∈ state.runners, runner.publishes = false := by
    rw [hrunners]
    simp [Runner.publishes]
  obtain ⟨-, rfl⟩ := h.published_eq hnone
  obtain ⟨hbatches, hlast, hgroups, hlimit⟩ := batches_buildGroups hbuild
  have hflatten : groups.flatten = commandsOf (batches requests groups) := by
    rw [hgroups, ← hgroups, hbatches, hgroups, commandsOf, List.flatMap_def]
  have hsequence := h.sequence
  have horder := h.order
  have hinserted := h.pending
  simp only [hrunners, List.flatMap_cons, List.flatMap_nil, Runner.waiting, Runner.pending,
    List.append_nil] at horder hinserted
  constructor
  case order => simpa [setRunner, hrunners, Runner.waiting] using horder
  case committed =>
    show state.journal.committed ++ batches requests groups = _
    rw [numberedBatches_append, ← h.committed, ← hsequence, hbatches]
  case split => rfl
  case sequence => exact hstore.1.trans hsequence
  case sequence_lt => exact hstore.1 ▸ h.sequence_lt
  case pending =>
    have hafter : inserted ++ groups.flatten
        = commandsOf (state.journal.committed ++ batches requests groups) := by
      rw [commandsOf_append, ← hinserted, ← hflatten]
    refine Eq.trans ?_ hafter
    simp [setRunner, hrunners, Runner.pending]
  case visible => exact h.visible
  case memtable => exact hstore.2.trans h.memtable
  case nextLsn =>
    intro requests' pending' nextLsn' hmem
    simp only [setRunner, hrunners, List.set_cons_zero, List.mem_singleton,
      Runner.publishing.injEq] at hmem
    obtain ⟨-, -, rfl⟩ := hmem
    refine ⟨?_, hlimit h.sequence_lt⟩
    show _ = _ + (commandsOf (state.journal.committed ++ batches requests groups)).length
    rw [hlast, hsequence, commandsOf_append, List.length_append, hbatches, ← hsequence]
    omega
  case idle =>
    intro hidle
    have hpublishes := hidle (.publishing requests groups.flatten nextLsn)
      (by simp [setRunner, hrunners])
    cases hpublishes
  case succeeding =>
    intro request hmem
    have hmem' : request ∈ requests := by
      simpa [setRunner, hrunners, Runner.succeeding] using hmem
    have hticket : request.ticket ∈ (batches requests groups).map CommittedBatch.ticket := by
      rw [hbatches, tickets_numberedBatches]
      exact List.mem_map_of_mem hmem'
    obtain ⟨batch, hbatch, heq⟩ := List.mem_map.mp hticket
    exact ⟨batch, List.mem_append_right _ hbatch, heq⟩
  case acknowledged => exact h.acknowledged
  case settled =>
    intro batch hmem
    rcases List.mem_append.mp hmem with hold | hnew
    · -- No runner was succeeding, so every earlier batch is acknowledged.
      refine .inl ((h.settled batch hold).resolve_right ?_)
      rw [hrunners]
      simp [Runner.succeeding]
    · have hticket : batch.ticket ∈ requests.map Request.ticket := by
        rw [← tickets_numberedBatches state.store.component.sequenceNumber, ← hbatches]
        exact List.mem_map_of_mem hnew
      obtain ⟨request, hrequest, heq⟩ := List.mem_map.mp hticket
      exact .inr ⟨request, by simpa [setRunner, hrunners, Runner.succeeding] using hrequest, heq⟩

/-- A record of the group gets into the memtable. -/
theorem Commits.insertedNext (h : Commits store state winners published group inserted)
    {requests : List Request} {command : LogCommand} {pending : List LogCommand} {nextLsn : Nat}
    (hrunners : state.runners = [.publishing requests (command :: pending) nextLsn]) :
    Commits store (setRunner 0 (.publishing requests pending nextLsn) { state with
        store := { state.store with
          component := Store.appendToMemtable state.store.component command } })
      winners published group (inserted ++ [command]) := by
  have horder := h.order
  have hinserted := h.pending
  have hsucceeding := h.succeeding
  have hsettled := h.settled
  rw [hrunners] at horder hinserted hsucceeding hsettled
  constructor
  case order => simpa [setRunner, hrunners, Runner.waiting] using horder
  case committed => exact h.committed
  case split => exact h.split
  case sequence => exact h.sequence
  case sequence_lt => exact h.sequence_lt
  case pending =>
    refine Eq.trans ?_ hinserted
    simp [setRunner, hrunners, Runner.pending]
  case visible => exact h.visible.trans (List.prefix_append _ _)
  case memtable =>
    show insertCommand state.store.component.memtable command = _
    rw [h.memtable, List.foldl_append]
    rfl
  case nextLsn =>
    intro requests' pending' nextLsn' hmem
    simp only [setRunner, hrunners, List.set_cons_zero, List.mem_singleton,
      Runner.publishing.injEq] at hmem
    obtain ⟨rfl, rfl, rfl⟩ := hmem
    exact h.nextLsn requests' (command :: pending') nextLsn' (by simp [hrunners])
  case idle =>
    intro hidle
    have hpublishes := hidle (.publishing requests pending nextLsn) (by simp [setRunner, hrunners])
    cases hpublishes
  case succeeding => simpa [setRunner, hrunners, Runner.succeeding] using hsucceeding
  case acknowledged => exact h.acknowledged
  case settled => simpa [setRunner, hrunners, Runner.succeeding] using hsettled

/-- The sequence number covers the group. -/
theorem Commits.stored (h : Commits store state winners published group inserted)
    {requests : List Request} {nextLsn : Nat}
    (hrunners : state.runners = [.publishing requests [] nextLsn]) :
    Commits store (setRunner 0 (.completing requests (.ok ())) { state with
        store := { state.store with
          component := { state.store.component with sequenceNumber := nextLsn } } })
      winners (published ++ group) [] inserted := by
  have horder := h.order
  have hinserted := h.pending
  have hsucceeding := h.succeeding
  have hsettled := h.settled
  rw [hrunners] at horder hinserted hsucceeding hsettled
  obtain ⟨hnext, hlimit⟩ := h.nextLsn requests [] nextLsn (by simp [hrunners])
  constructor
  case order => simpa [setRunner, hrunners, Runner.waiting] using horder
  case committed => exact h.committed
  case split => exact h.split.trans (List.append_nil _).symm
  case sequence =>
    show nextLsn = _
    rw [hnext, h.split]
  case sequence_lt => exact hlimit
  case pending =>
    refine Eq.trans ?_ hinserted
    simp [setRunner, hrunners, Runner.pending]
  case visible =>
    rw [← h.split, ← hinserted]
    simp [Runner.pending]
  case memtable => exact h.memtable
  case nextLsn =>
    intro requests' pending' nextLsn' hmem
    simp [setRunner, hrunners] at hmem
  case idle => exact fun _ => rfl
  case succeeding => simpa [setRunner, hrunners, Runner.succeeding] using hsucceeding
  case acknowledged =>
    intro ticket hticket
    obtain ⟨batch, hbatch, heq⟩ := h.acknowledged ticket hticket
    exact ⟨batch, List.mem_append_left _ hbatch, heq⟩
  case settled => simpa [setRunner, hrunners, Runner.succeeding] using hsettled

/-- A request is completed with the result of its group. -/
theorem Commits.completedNext (h : Commits store state winners published group inserted)
    {request : Request} {rest : List Request} {result : Except DBError Unit}
    (hrunners : state.runners = [.completing (request :: rest) result]) (queue : AdmissionQueue)
    (hqueue : queue.requests = state.queue.requests) :
    Commits store (setRunner 0 (.completing rest result) { state with
        queue
        journal := { state.journal with
          completed := state.journal.completed ++ [(request.ticket, result)] } })
      winners published group inserted := by
  have hnone : ∀ runner ∈ state.runners, runner.publishes = false := by
    rw [hrunners]
    simp [Runner.publishes]
  obtain ⟨rfl, rfl⟩ := h.published_eq hnone
  have horder := h.order
  have hinserted := h.pending
  have hsucceeding := h.succeeding
  have hsettled := h.settled
  rw [hrunners] at horder hinserted hsucceeding hsettled
  constructor
  case order => simpa [setRunner, hrunners, Runner.waiting, hqueue] using horder
  case committed => exact h.committed
  case split => exact h.split
  case sequence => exact h.sequence
  case sequence_lt => exact h.sequence_lt
  case pending =>
    refine Eq.trans ?_ hinserted
    simp [setRunner, hrunners, Runner.pending]
  case visible => exact h.visible
  case memtable => exact h.memtable
  case nextLsn =>
    intro requests' pending' nextLsn' hmem
    simp [setRunner, hrunners] at hmem
  case idle => exact fun _ => rfl
  case succeeding =>
    intro other hmem
    refine hsucceeding other ?_
    cases result with
    | error error => simp [setRunner, hrunners, Runner.succeeding] at hmem
    | ok _ =>
      have hrest : other ∈ rest := by simpa [setRunner, hrunners, Runner.succeeding] using hmem
      simp [Runner.succeeding, hrest]
  case acknowledged =>
    intro ticket hticket
    rcases List.mem_append.mp hticket with hold | hnew
    · exact h.acknowledged ticket hold
    · obtain ⟨rfl, rfl⟩ := Prod.mk.inj (List.mem_singleton.mp hnew)
      exact hsucceeding request (by simp [Runner.succeeding])
  case settled =>
    intro batch hbatch
    rcases hsettled batch hbatch with hdone | ⟨other, hmem, hticket⟩
    · exact .inl (List.mem_append_left _ hdone)
    · cases result with
      | error error => simp [Runner.succeeding] at hmem
      | ok _ =>
        have hcases : other = request ∨ other ∈ rest := by simpa [Runner.succeeding] using hmem
        rcases hcases with rfl | hrest
        · exact .inl (List.mem_append_right _ (by simp [hticket]))
        · exact .inr ⟨other, by simpa [setRunner, hrunners, Runner.succeeding] using hrest,
            hticket⟩

/-- What an append does to the store: it runs on the WAL. -/
theorem appended_eq {groups : List (List LogCommand)} {plan : List Answer} {outcome : Exec Unit}
    {store' : Store} (h : state.appended groups plan = (outcome, store')) :
    ∃ wal, Act.exec (Wal.writeEngineTransactions groups state.store.component.checkpointOwner)
        ⟨⟨state.store.dir.segments, plan⟩, state.store.component.wal⟩ = (outcome, wal) ∧
      store' = Store.setWal { state.store with dir := { state.store.dir with plan } } wal := by
  rw [appended, Store.onWal, Act.exec_zoom] at h
  obtain ⟨houtcome, hstore⟩ := Prod.mk.inj h
  exact ⟨_, Prod.ext houtcome rfl, hstore.symm⟩

/-- Every event keeps the batches in order. -/
theorem Commits.next (h : Commits store state winners published group inserted)
    (hline : InLine state) {event : CommitEvent}
    (hnext : state.next fastbloom event = some state') :
    ∃ winners' published' group' inserted',
      Commits store state' winners' published' group' inserted' := by
  have hread (hreader : ∃ reader, state' = { state with reader }) :
      ∃ winners' published' group' inserted',
        Commits store state' winners' published' group' inserted' := by
    obtain ⟨reader, rfl⟩ := hreader
    exact ⟨_, _, _, _, h.same rfl ⟨rfl, rfl⟩ h.order rfl rfl fun _ _ => Iff.rfl⟩
  cases event with
  | writeBatch operations =>
    obtain ⟨estimatedBytes, -, -, rfl⟩ := writeBatch_some hnext
    refine ⟨_, _, _, _, h.same rfl ⟨rfl, rfl⟩ ?_ rfl rfl fun _ _ => Iff.rfl⟩
    have horder := h.order.append_right
      [⟨operations, state.queue.nextTicket + 1, estimatedBytes⟩]
    simpa only [List.append_assoc] using horder
  | startRunner =>
    obtain ⟨-, rfl⟩ := startRunner_some hnext
    refine ⟨_, _, _, _, h.same rfl ⟨rfl, rfl⟩ ?_ ?_ ?_ fun runner hpublishes => ?_⟩
    · simpa [Runner.waiting] using h.order
    · simp [Runner.pending]
    · simp [Runner.succeeding]
    · have hne : runner ≠ .ready := by
        rintro rfl
        cases hpublishes
      simp [hne]
  | drain index =>
    obtain ⟨hready, ⟨hnil, rfl⟩ | ⟨taken, left, htaken, hsplit, rfl⟩⟩ := drain_some hnext
    · obtain ⟨rfl, hrunners, -, -⟩ := hline.alone hready
      have horder := h.order
      rw [hrunners] at horder
      refine ⟨_, _, _, _, h.same rfl ⟨rfl, rfl⟩ ?_ ?_ ?_ fun runner hpublishes => ?_⟩
      · simpa [endRunner, hrunners, Runner.waiting] using horder
      · simp [endRunner, hrunners, Runner.pending]
      · simp [endRunner, hrunners, Runner.succeeding]
      · have hne : runner ≠ .ready := by
          rintro rfl
          cases hpublishes
        simp [endRunner, hrunners, hne]
    · obtain ⟨rfl, hrunners, -, -⟩ := hline.alone hready
      have horder := h.order
      rw [hrunners, hsplit] at horder
      refine ⟨_, _, _, _, h.same rfl ⟨rfl, rfl⟩ ?_ ?_ ?_ fun runner hpublishes => ?_⟩
      · simpa [setRunner, hrunners, Runner.waiting] using horder
      · simp [setRunner, hrunners, Runner.pending]
      · simp [setRunner, hrunners, Runner.succeeding]
      · have hne : runner ≠ .ready ∧ runner ≠ .drained taken := by
          constructor <;> rintro rfl <;> cases hpublishes
        simp [setRunner, hrunners, hne]
  | appendGroup index plan =>
    obtain ⟨requests, hrunner, -, hcases⟩ := appendGroup_some hnext
    obtain ⟨rfl, hrunners, -, -⟩ := hline.alone hrunner
    -- A group that failed gives up its place: its requests are no winners.
    have hfailed (error : DBError) (store' : Store)
        (hstore : store'.component.sequenceNumber = state.store.component.sequenceNumber ∧
          store'.component.memtable = state.store.component.memtable) :
        Commits store (setRunner 0 (.completing requests (.error error))
          { state with store := store' }) winners published group inserted := by
      have horder := h.order
      rw [hrunners] at horder
      have hlater : (winners ++ state.queue.requests).Sublist state.journal.issued := by
        refine List.Sublist.trans ?_ horder
        exact (List.Sublist.refl winners).append (List.sublist_append_right _ _)
      have hsame : Commits store (setRunner 0 (.completing requests (.error error)) state) winners
          published group inserted := by
        refine h.same rfl ⟨rfl, rfl⟩ ?_ ?_ ?_ fun runner hpublishes => ?_
        · simpa [setRunner, hrunners, Runner.waiting] using hlater
        · simp [setRunner, hrunners, Runner.pending]
        · simp [setRunner, hrunners, Runner.succeeding]
        · have hne : runner ≠ .drained requests ∧
              runner ≠ .completing requests (.error error) := by
            constructor <;> rintro rfl <;> cases hpublishes
          simp [setRunner, hrunners, hne]
      exact { hsame with
        sequence := hstore.1.trans h.sequence
        sequence_lt := hstore.1 ▸ h.sequence_lt
        memtable := hstore.2.trans h.memtable }
    rcases hcases with ⟨groups, nextLsn, store', hbuild, happend, rfl⟩ | ⟨error, rfl⟩ |
        ⟨groups, nextLsn, error, store', hbuild, happend, rfl⟩
    · obtain ⟨wal, -, rfl⟩ := appended_eq happend
      exact ⟨_, _, _, _, h.appended hrunners hbuild ⟨rfl, rfl⟩⟩
    · exact ⟨_, _, _, _, hfailed error state.store ⟨rfl, rfl⟩⟩
    · obtain ⟨wal, -, rfl⟩ := appended_eq happend
      exact ⟨_, _, _, _, hfailed error _ ⟨rfl, rfl⟩⟩
  | insertRecord index =>
    obtain ⟨requests, command, pending, nextLsn, hrunner, rfl⟩ := insertRecord_some hnext
    obtain ⟨rfl, hrunners, -, -⟩ := hline.alone hrunner
    exact ⟨_, _, _, _, h.insertedNext hrunners⟩
  | storeSequence index =>
    obtain ⟨requests, nextLsn, hrunner, rfl⟩ := storeSequence_some hnext
    obtain ⟨rfl, hrunners, -, -⟩ := hline.alone hrunner
    exact ⟨_, _, _, _, h.stored hrunners⟩
  | complete index =>
    obtain ⟨requests, result, hrunner, ⟨rfl, rfl⟩ | ⟨request, rest, rfl, rfl⟩⟩ :=
      hline.complete_some hnext
    · obtain ⟨rfl, hrunners, -, -⟩ := hline.alone hrunner
      have horder := h.order
      rw [hrunners] at horder
      refine ⟨_, _, _, _, h.same rfl ⟨rfl, rfl⟩ ?_ ?_ ?_ fun runner hpublishes => ?_⟩
      · simpa [setRunner, hrunners, Runner.waiting] using horder
      · simp [setRunner, hrunners, Runner.pending]
      · cases result <;> simp [setRunner, hrunners, Runner.succeeding]
      · have hne : runner ≠ .ready ∧ runner ≠ .completing [] result := by
          constructor <;> rintro rfl <;> cases hpublishes
        simp [setRunner, hrunners, hne]
    · obtain ⟨rfl, hrunners, -, -⟩ := hline.alone hrunner
      exact ⟨_, _, _, _, h.completedNext hrunners _ rfl⟩
  | startGet key => exact hread ⟨_, startRead_some hnext⟩
  | startScan range => exact hread ⟨_, startRead_some hnext⟩
  | readNext => exact hread (readNext_some hnext)

/-! ### The log -/

/-- The WAL holds the committed batches, one transaction each. -/
def Durable (earlier : List LogEntry) (state : GroupCommit) : Prop :=
  ∃ l file entries left, Logged earlier (state.journal.committed.map CommittedBatch.commands)
    state.store.wal l file entries left

theorem inRange_numberedBatches {first : Nat} {requests : List Request}
    (hlimit : first + (commandsOf (numberedBatches first requests)).length < u64Limit) :
    ∀ commands ∈ (numberedBatches first requests).map CommittedBatch.commands,
      Storage.InRange commands := by
  intro commands hcommands command hcommand
  obtain ⟨batch, hbatch, rfl⟩ := List.mem_map.mp hcommands
  have hbound := lsn_commandsOf (List.mem_flatMap.mpr ⟨batch, hbatch, hcommand⟩)
  omega

/-- Only an append touches the log. -/
theorem Durable.next {earlier : List LogEntry} (h : Durable earlier state)
    (hsequence : state.store.component.sequenceNumber < u64Limit) (hline : InLine state)
    {event : CommitEvent} (hnext : state.next fastbloom event = some state') :
    Durable earlier state' := by
  have hread (hreader : ∃ reader, state' = { state with reader }) : Durable earlier state' := by
    obtain ⟨reader, rfl⟩ := hreader
    exact h
  obtain ⟨l, file, entries, left, hlogged⟩ := h
  cases event with
  | writeBatch operations =>
    obtain ⟨_, -, -, rfl⟩ := writeBatch_some hnext
    exact ⟨l, file, entries, left, hlogged⟩
  | startRunner =>
    obtain ⟨-, rfl⟩ := startRunner_some hnext
    exact ⟨l, file, entries, left, hlogged⟩
  | drain index =>
    obtain ⟨-, ⟨-, rfl⟩ | ⟨_, _, -, -, rfl⟩⟩ := drain_some hnext
    · exact ⟨l, file, entries, left, hlogged⟩
    · exact ⟨l, file, entries, left, hlogged⟩
  | appendGroup index plan =>
    obtain ⟨requests, -, -, hcases⟩ := appendGroup_some hnext
    -- The plan of the call is no part of what is logged.
    have hplanned : Logged earlier (state.journal.committed.map CommittedBatch.commands)
        ⟨⟨state.store.dir.segments, plan⟩, state.store.component.wal⟩ l file entries left :=
      hlogged.of_writer rfl rfl
    rcases hcases with ⟨groups, nextLsn, store', hbuild, happend, rfl⟩ | ⟨error, rfl⟩ |
        ⟨groups, nextLsn, error, store', hbuild, happend, rfl⟩
    · obtain ⟨wal, hexec, rfl⟩ := appended_eq happend
      obtain ⟨hbatches, hlast, hgroups, hlimit⟩ := batches_buildGroups hbuild
      obtain ⟨l', file', entries', left', hlogged'⟩ :=
        hplanned.writeEngineTransactions (hgroups ▸ inRange_numberedBatches
          (hlast ▸ hlimit hsequence)) hexec
      refine ⟨l', file', entries', left', ?_⟩
      show Logged earlier ((state.journal.committed ++ batches requests groups).map
        CommittedBatch.commands) wal l' file' entries' left'
      rw [List.map_append, hbatches, ← hgroups]
      exact hlogged'
    · exact ⟨l, file, entries, left, hlogged⟩
    · obtain ⟨wal, hexec, rfl⟩ := appended_eq happend
      obtain ⟨-, hlast, hgroups, hlimit⟩ := batches_buildGroups hbuild
      exact hplanned.writeEngineTransactions (hgroups ▸ inRange_numberedBatches
        (hlast ▸ hlimit hsequence)) hexec
  | insertRecord index =>
    obtain ⟨_, _, _, _, -, rfl⟩ := insertRecord_some hnext
    exact ⟨l, file, entries, left, hlogged⟩
  | storeSequence index =>
    obtain ⟨_, _, -, rfl⟩ := storeSequence_some hnext
    exact ⟨l, file, entries, left, hlogged⟩
  | complete index =>
    obtain ⟨_, _, -, ⟨-, rfl⟩ | ⟨_, _, -, rfl⟩⟩ := hline.complete_some hnext
    · exact ⟨l, file, entries, left, hlogged⟩
    · exact ⟨l, file, entries, left, hlogged⟩
  | startGet key => exact hread ⟨_, startRead_some hnext⟩
  | startScan range => exact hread ⟨_, startRead_some hnext⟩
  | readNext => exact hread (readNext_some hnext)

/-! ### Runs -/

/-- What an event can do to the store. -/
inductive StoreChange (state : GroupCommit) : Store → Prop where
  | same : StoreChange state state.store
  | appended (plan : List Answer) (wal : Wal) : StoreChange state
      (Store.setWal { state.store with dir := { state.store.dir with plan } } wal)
  | inserted (requests : List Request) (command : LogCommand) (pending : List LogCommand)
      (nextLsn : Nat) (h : .publishing requests (command :: pending) nextLsn ∈ state.runners) :
      StoreChange state { state.store with
        component := Store.appendToMemtable state.store.component command }
  | stored (requests : List Request) (nextLsn : Nat)
      (h : .publishing requests [] nextLsn ∈ state.runners) :
      StoreChange state { state.store with
        component := { state.store.component with sequenceNumber := nextLsn } }

/-- The events of the read. -/
def reads : CommitEvent → Bool
  | .startGet _ | .startScan _ | .readNext => true
  | _ => false

theorem storeChange_next (hline : InLine state) {event : CommitEvent}
    (hnext : state.next fastbloom event = some state') :
    StoreChange state state'.store ∧ (reads event = false → state'.reader = state.reader) := by
  cases event with
  | writeBatch operations =>
    obtain ⟨_, -, -, rfl⟩ := writeBatch_some hnext
    exact ⟨.same, fun _ => rfl⟩
  | startRunner =>
    obtain ⟨-, rfl⟩ := startRunner_some hnext
    exact ⟨.same, fun _ => rfl⟩
  | drain index =>
    obtain ⟨-, ⟨-, rfl⟩ | ⟨_, _, -, -, rfl⟩⟩ := drain_some hnext
    · exact ⟨.same, fun _ => rfl⟩
    · exact ⟨.same, fun _ => rfl⟩
  | appendGroup index plan =>
    obtain ⟨_, -, -, ⟨_, _, _, -, happend, rfl⟩ | ⟨_, rfl⟩ | ⟨_, _, _, _, -, happend, rfl⟩⟩ :=
      appendGroup_some hnext
    · obtain ⟨wal, -, rfl⟩ := appended_eq happend
      exact ⟨.appended plan wal, fun _ => rfl⟩
    · exact ⟨.same, fun _ => rfl⟩
    · obtain ⟨wal, -, rfl⟩ := appended_eq happend
      exact ⟨.appended plan wal, fun _ => rfl⟩
  | insertRecord index =>
    obtain ⟨requests, command, pending, nextLsn, hrunner, rfl⟩ := insertRecord_some hnext
    exact ⟨.inserted requests command pending nextLsn (List.mem_of_getElem? hrunner),
      fun _ => rfl⟩
  | storeSequence index =>
    obtain ⟨requests, nextLsn, hrunner, rfl⟩ := storeSequence_some hnext
    exact ⟨.stored requests nextLsn (List.mem_of_getElem? hrunner), fun _ => rfl⟩
  | complete index =>
    obtain ⟨_, _, -, ⟨-, rfl⟩ | ⟨_, _, -, rfl⟩⟩ := hline.complete_some hnext
    · exact ⟨.same, fun _ => rfl⟩
    · exact ⟨.same, fun _ => rfl⟩
  | startGet key =>
    rw [startRead_some hnext]
    exact ⟨.same, nofun⟩
  | startScan range =>
    rw [startRead_some hnext]
    exact ⟨.same, nofun⟩
  | readNext =>
    obtain ⟨reader, rfl⟩ := readNext_some hnext
    exact ⟨.same, nofun⟩

/-- The sequence number separates the published batches from the group that is being inserted. -/
theorem Commits.watermark (h : Commits store state winners published group inserted) :
    (∀ command ∈ commandsOf published, command.lsn ≤ state.store.component.sequenceNumber) ∧
      ∀ command ∈ commandsOf group, state.store.component.sequenceNumber < command.lsn := by
  have hall := commandsOf_numberedBatches store.component.sequenceNumber winners
  rw [← h.committed, h.split, commandsOf_append] at hall
  -- The operations of the two parts are numbered one after the other.
  obtain ⟨first, second, hsplit, hlength⟩ : ∃ first second,
      winners.flatMap Request.operations = first ++ second ∧
        first.length = (commandsOf published).length := by
    refine ⟨_, _, (List.take_append_drop (commandsOf published).length _).symm, ?_⟩
    rw [List.length_take, Nat.min_eq_left]
    have htotal := congrArg List.length hall
    rw [length_numbered, List.length_append] at htotal
    omega
  rw [hsplit, numbered_append] at hall
  obtain ⟨hfirst, hsecond⟩ := List.append_inj hall (by rw [length_numbered, hlength])
  rw [hfirst, hsecond, h.sequence]
  constructor
  · intro command hcommand
    have hbound := (lsn_numbered hcommand).2.1
    omega
  · intro command hcommand
    have hbound := (lsn_numbered hcommand).1
    omega

end

/-- The first segment file of a log. -/
def freshSegment : DurableFile := ⟨WALHeader.default.encode, 32, WALHeader.durable_encode⟩

/-- A component that was opened on a new directory. -/
def freshStore : Store where
  dir := { segments := (∅ : Disk Nat).insert 0 freshSegment, manifest := [], tables := ∅, plan := [] }
  component := {
    wal := LogLayout.initial.manager 1048576 none false
    manifest := .default
    memtable := ∅
    memtableSize := 0
    sequenceNumber := 0
    checkpointOwner := none }

/-- Two clients whose batches end up in one group. -/
def twoClients : List CommitEvent :=
  [.writeBatch [.put [97] [118], .delete [98]], .writeBatch [.put [98] [119]], .startRunner,
    .drain 0, .appendGroup 0 [], .insertRecord 0, .insertRecord 0, .insertRecord 0,
    .storeSequence 0, .complete 0, .complete 0]

end GroupCommit

end CereDB.Storage

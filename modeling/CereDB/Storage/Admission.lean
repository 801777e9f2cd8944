import CereDB.Storage.Batch

/-!
# `CereDB.Storage.Admission`: the queue in front of the writer

`AdmissionQueue` of `src/storage/writemanager/admission.rs`. Every function here is what the source
does under the mutex of the queue, so it is one step for the tasks that share the queue.

The sender of a request only carries its result and is left out: a request is its operations, its
ticket and its weight.

`Admission` adds the two semaphores that `enqueue` waits on. A request owns its permits, so they
come back when the request is dropped, at the end of `complete`. The semaphores only delay
`enqueue`: a model that does not count permits uses the queue alone.
-/

set_option autoImplicit false

namespace CereDB.Storage

open CereDB.Lib

/-- `MAX_ADMITTED_REQUESTS`. -/
def maxAdmittedRequests : Nat := 64

/-- `ADMITTED_BYTE_BUDGET`. -/
def admittedByteBudget : Nat := 16 * 1024 * 1024

/-- `MAX_DRAIN_REQUESTS`. -/
def maxDrainRequests : Nat := 64

/-- `MAX_DRAIN_BYTES`. -/
def maxDrainBytes : Nat := 16 * 1024 * 1024

/-- `Request`. -/
structure Request where
  operations : List BatchOperation
  ticket : Nat
  byteWeight : Nat
deriving DecidableEq, Repr

/-- `State` of the queue. -/
structure AdmissionQueue where
  requests : List Request
  running : Bool
  nextTicket : Nat
  completedTicket : Nat
deriving DecidableEq, Repr

/-- `Enqueued`, without the receiver. -/
structure Enqueued where
  ticket : Nat
  shouldStartRunner : Bool
deriving DecidableEq, Repr

namespace AdmissionQueue

/-- `new`. -/
def new : AdmissionQueue where
  requests := []
  running := false
  nextTicket := 0
  completedTicket := 0

/-- `enqueue`. -/
def enqueue (operations : List BatchOperation) (estimatedBytes : Nat) (queue : AdmissionQueue) :
    Exec (Enqueued × AdmissionQueue) :=
  match checkedAdd queue.nextTicket 1 with
  | none => storageError "write admission ticket exhausted"
  | some ticket => .ok (
      { ticket, shouldStartRunner := !queue.running },
      { queue with
        nextTicket := ticket
        requests := queue.requests ++ [{ operations, ticket, byteWeight := estimatedBytes }]
        running := true })

/-- The loop of `drain_ready`: the requests it takes and those it leaves. `taken` and `bytes` are
what it has taken so far. -/
def drainLoop (maxRequests maxBytes : Nat) : List Request → List Request → Nat →
    List Request × List Request
  | [], taken, _ => (taken, [])
  | next :: queued, taken, bytes =>
    if maxRequests ≤ taken.length then (taken, next :: queued)
    else if taken ≠ [] ∧ (maxBytes - bytes < next.byteWeight ∨
        taken.any fun request => decide (maxBytes < request.byteWeight)) then
      (taken, next :: queued)
    else if maxBytes < next.byteWeight then (taken ++ [next], queued)
    else
      drainLoop maxRequests maxBytes queued (taken ++ [next])
        (saturatingAdd bytes next.byteWeight)

/-- `drain_ready`: none when the queue is empty, and then the runner retires. -/
def drainReady (maxRequests maxBytes : Nat) (queue : AdmissionQueue) :
    Option (List Request) × AdmissionQueue :=
  if queue.requests = [] then (none, { queue with running := false })
  else
    let (taken, requests) := drainLoop maxRequests maxBytes queue.requests [] 0
    (some taken, { queue with requests })

/-- `complete`. -/
def complete (request : Request) (queue : AdmissionQueue) : Exec AdmissionQueue :=
  if request.ticket ≠ queue.completedTicket + 1 ∨ queue.nextTicket < request.ticket then
    storageError "out-of-order write completion"
  else .ok { queue with completedTicket := request.ticket }

/-- The test `await_completed_through` returns on. -/
def completedThrough (queue : AdmissionQueue) (ticket : Nat) : Bool :=
  decide (ticket ≤ queue.completedTicket)

end AdmissionQueue

/-! ### Permits -/

/-- `byte_permits` of `enqueue`. -/
def bytePermits (estimatedBytes : Nat) : Nat := max (min estimatedBytes admittedByteBudget) 1

/-- The queue with its semaphores. -/
structure Admission where
  queue : AdmissionQueue
  /-- The free permits of `slots`. -/
  slots : Nat
  /-- The free permits of `bytes`. -/
  bytes : Nat
  /-- The calls of `enqueue` that own a slot and wait for bytes. -/
  entering : List (List BatchOperation × Nat)
  /-- The requests that `drain_ready` returned and nobody passed to `complete` yet. -/
  drained : List Request
deriving DecidableEq, Repr

/-- What can happen next. -/
inductive AdmissionEvent where
  /-- A call of `enqueue` gets its slot. -/
  | acquireSlot (operations : List BatchOperation) (estimatedBytes : Nat)
  /-- A call of `enqueue` gets its bytes and goes on to its end without waiting again. -/
  | admitted (index : Nat)
  /-- A call of `enqueue` is dropped while it waits for bytes. -/
  | dropEnqueue (index : Nat)
  /-- A call of `drain_ready`. -/
  | drainReady (maxRequests maxBytes : Nat)
  /-- A call of `complete`, with any result. -/
  | complete (index : Nat)
deriving DecidableEq, Repr

namespace Admission

/-- `AdmissionQueue::new`. -/
def new : Admission where
  queue := .new
  slots := maxAdmittedRequests
  bytes := admittedByteBudget
  entering := []
  drained := []

/-- The requests that were admitted and not completed yet. -/
def outstanding (admission : Admission) : List Request :=
  admission.drained ++ admission.queue.requests

/-- One step, none when the call waits. -/
def step (admission : Admission) : AdmissionEvent → Option Admission
  | .acquireSlot operations estimatedBytes =>
    if admission.slots = 0 then none
    else some { admission with
      slots := admission.slots - 1
      entering := admission.entering ++ [(operations, estimatedBytes)] }
  | .admitted index =>
    match admission.entering[index]? with
    | none => none
    | some (operations, estimatedBytes) =>
      if admission.bytes < bytePermits estimatedBytes then none
      else
        match admission.queue.enqueue operations estimatedBytes with
        | .ok (_, queue) => some { admission with
            queue
            bytes := admission.bytes - bytePermits estimatedBytes
            entering := admission.entering.eraseIdx index }
        -- no ticket is left: both permits are dropped with the call
        | .error _ => some { admission with
            slots := admission.slots + 1
            entering := admission.entering.eraseIdx index }
  | .dropEnqueue index =>
    if index < admission.entering.length then
      some { admission with
        slots := admission.slots + 1
        entering := admission.entering.eraseIdx index }
    else none
  | .drainReady maxRequests maxBytes =>
    let (taken, queue) := admission.queue.drainReady maxRequests maxBytes
    some { admission with queue, drained := admission.drained ++ taken.getD [] }
  | .complete index =>
    match admission.drained[index]? with
    | none => none
    | some request => some { admission with
        -- a request out of order is dropped as well
        queue := match admission.queue.complete request with
          | .ok queue => queue
          | .error _ => admission.queue
        slots := admission.slots + 1
        bytes := admission.bytes + bytePermits request.byteWeight
        drained := admission.drained.eraseIdx index }

/-- A run. -/
def run : List AdmissionEvent → Admission → Option Admission
  | [], admission => some admission
  | event :: events, admission => (admission.step event).bind (run events)

end Admission

end CereDB.Storage

import CereDB.Proofs.Admission

/-!
# `CereDB.Proofs.AdmissionBounds`: what the admission queue holds and what a drain takes

`Balanced` is the invariant of the semaphores: the permits that are free and those that are owned,
by a call of `enqueue` or by a request, add up to what the semaphores started with. The bounds on
the admitted requests are its two equations without the free permits.

`drainLoop_longest` is the invariant of the loop in `drain_ready`: what it has taken is within the
limits, and no longer part of the queue is.
-/

set_option autoImplicit false

namespace CereDB.Storage

open CereDB.Lib

/-! ### Permits -/

/-- The byte permits that some requests own. -/
def ownedBytes (requests : List Request) : Nat :=
  (requests.map fun request => bytePermits request.byteWeight).sum

theorem ownedBytes_append (front back : List Request) :
    ownedBytes (front ++ back) = ownedBytes front + ownedBytes back := by
  rw [ownedBytes, List.map_append, List.sum_append]
  rfl

theorem ownedBytes_eraseIdx {requests : List Request} {index : Nat} {request : Request}
    (h : requests[index]? = some request) :
    ownedBytes (requests.eraseIdx index) + bytePermits request.byteWeight = ownedBytes requests := by
  obtain ⟨hlt, rfl⟩ := List.getElem?_eq_some_iff.mp h
  have hsum := (List.getElem_cons_eraseIdx_perm hlt).map fun request : Request =>
    bytePermits request.byteWeight
  rw [ownedBytes, ownedBytes, ← hsum.sum_eq, List.map_cons, List.sum_cons, Nat.add_comm]

namespace Admission

/-- Free and owned permits add up. -/
structure Balanced (admission : Admission) : Prop where
  slots : admission.slots + admission.entering.length + admission.outstanding.length
    = maxAdmittedRequests
  bytes : admission.bytes + ownedBytes admission.outstanding = admittedByteBudget

theorem balanced_new : Balanced new := ⟨rfl, rfl⟩

variable {admission admission' : Admission}

/-- A drain moves requests, and drops none. -/
theorem outstanding_drainReady (admission : Admission) (maxRequests maxBytes : Nat) :
    admission.drained ++ (admission.queue.drainReady maxRequests maxBytes).1.getD [] ++
      (admission.queue.drainReady maxRequests maxBytes).2.requests = admission.outstanding := by
  rw [AdmissionQueue.drainReady]
  by_cases hnil : admission.queue.requests = []
  · rw [if_pos hnil]
    show admission.drained ++ [] ++ admission.queue.requests = _
    rw [List.append_nil]
    rfl
  · rw [if_neg hnil, List.append_assoc]
    show _ ++ (_ ++ _) = _
    exact congrArg _ (AdmissionQueue.drainLoop_append maxRequests maxBytes _ [] 0)

/-- `complete` leaves the queue of requests as it is. -/
theorem requests_complete (queue : AdmissionQueue) (request : Request) :
    (match queue.complete request with
      | .ok queue => queue
      | .error _ => queue).requests = queue.requests := by
  rw [AdmissionQueue.complete]
  by_cases hout : request.ticket ≠ queue.completedTicket + 1 ∨ queue.nextTicket < request.ticket
  · rw [if_pos hout]
    rfl
  · rw [if_neg hout]

/-- Every step keeps the balance. -/
theorem Balanced.step (h : Balanced admission) {event : AdmissionEvent}
    (hstep : admission.step event = some admission') : Balanced admission' := by
  have hslots := h.slots
  have hbytes := h.bytes
  cases event with
  | acquireSlot operations estimatedBytes =>
    rw [Admission.step] at hstep
    split at hstep
    · cases hstep
    · obtain rfl := Option.some.inj hstep
      refine ⟨?_, hbytes⟩
      show admission.slots - 1 + (admission.entering ++ [_]).length
        + admission.outstanding.length = _
      rw [List.length_append, List.length_singleton]
      omega
  | admitted index =>
    rw [Admission.step] at hstep
    split at hstep
    · cases hstep
    rename_i operations estimatedBytes hentering
    obtain ⟨hlt, -⟩ := List.getElem?_eq_some_iff.mp hentering
    have hentered := List.length_eraseIdx_of_lt hlt
    split at hstep
    · cases hstep
    split at hstep
    · rename_i enqueued queue henqueue
      obtain ⟨-, rfl⟩ := AdmissionQueue.enqueue_ok henqueue
      obtain rfl := Option.some.inj hstep
      refine ⟨?_, ?_⟩
      · show admission.slots + (admission.entering.eraseIdx index).length
          + (admission.drained ++ (admission.queue.requests ++ [_])).length = _
        rw [← List.append_assoc, List.length_append]
        show _ + (admission.outstanding.length + 1) = _
        omega
      · show admission.bytes - bytePermits estimatedBytes
          + ownedBytes (admission.drained ++ (admission.queue.requests ++ [_])) = _
        rw [← List.append_assoc, ownedBytes_append]
        show _ + (ownedBytes admission.outstanding + bytePermits estimatedBytes) = _
        omega
    · obtain rfl := Option.some.inj hstep
      refine ⟨?_, hbytes⟩
      show admission.slots + 1 + (admission.entering.eraseIdx index).length
        + admission.outstanding.length = _
      omega
  | dropEnqueue index =>
    rw [Admission.step] at hstep
    split at hstep
    · rename_i hlt
      obtain rfl := Option.some.inj hstep
      refine ⟨?_, hbytes⟩
      show admission.slots + 1 + (admission.entering.eraseIdx index).length
        + admission.outstanding.length = _
      rw [List.length_eraseIdx_of_lt hlt]
      omega
    · cases hstep
  | drainReady maxRequests maxBytes =>
    have hnext := Option.some.inj hstep
    have houtstanding : admission'.outstanding = admission.outstanding := by
      rw [← hnext]
      exact outstanding_drainReady admission maxRequests maxBytes
    have hfree : admission'.slots = admission.slots ∧ admission'.bytes = admission.bytes ∧
        admission'.entering = admission.entering := by
      rw [← hnext]
      exact ⟨rfl, rfl, rfl⟩
    refine ⟨?_, ?_⟩
    · rw [houtstanding, hfree.1, hfree.2.2]
      exact hslots
    · rw [houtstanding, hfree.2.1]
      exact hbytes
  | complete index =>
    rw [Admission.step] at hstep
    split at hstep
    · cases hstep
    · rename_i request hrequest
      have hnext := Option.some.inj hstep
      obtain ⟨hlt, -⟩ := List.getElem?_eq_some_iff.mp hrequest
      have howned := ownedBytes_eraseIdx hrequest
      have houtstanding : admission'.outstanding
          = admission.drained.eraseIdx index ++ admission.queue.requests := by
        rw [← hnext]
        exact congrArg _ (requests_complete admission.queue request)
      have hfree : admission'.slots = admission.slots + 1 ∧
          admission'.bytes = admission.bytes + bytePermits request.byteWeight ∧
          admission'.entering = admission.entering := by
        rw [← hnext]
        exact ⟨rfl, rfl, rfl⟩
      rw [outstanding, List.length_append] at hslots
      rw [outstanding, ownedBytes_append] at hbytes
      refine ⟨?_, ?_⟩
      · rw [houtstanding, hfree.1, hfree.2.2, List.length_append, List.length_eraseIdx_of_lt hlt]
        omega
      · rw [houtstanding, hfree.2.1, ownedBytes_append]
        omega

theorem Balanced.run (h : Balanced admission) {events : List AdmissionEvent}
    (hrun : Admission.run events admission = some admission') : Balanced admission' := by
  induction events generalizing admission with
  | nil =>
    obtain rfl := Option.some.inj hrun
    exact h
  | cons event events ih =>
    obtain ⟨next, hstep, hrest⟩ := Option.bind_eq_some_iff.mp hrun
    exact ih (h.step hstep) hrest

end Admission

/-! ### The drain -/

/-- The weight of some requests. -/
def totalWeight (requests : List Request) : Nat := (requests.map Request.byteWeight).sum

theorem totalWeight_append (front back : List Request) :
    totalWeight (front ++ back) = totalWeight front + totalWeight back := by
  rw [totalWeight, List.map_append, List.sum_append]
  rfl

namespace AdmissionQueue

/-- A part of the queue that a drain may take. -/
def Drainable (maxRequests maxBytes : Nat) (requests : List Request) : Prop :=
  requests.length ≤ maxRequests ∧ totalWeight requests ≤ maxBytes

variable {maxRequests maxBytes : Nat}

/-- The loop takes the longest drainable part, once it has taken a first request that is. The sum of
the weights never saturates. -/
theorem drainLoop_longest (hmax : maxBytes < u64Limit) {queued taken : List Request}
    (hne : taken ≠ []) (htaken : Drainable maxRequests maxBytes taken) :
    Drainable maxRequests maxBytes
        (drainLoop maxRequests maxBytes queued taken (totalWeight taken)).1 ∧
      ∀ part, part <+: taken ++ queued → Drainable maxRequests maxBytes part →
        part.length ≤ (drainLoop maxRequests maxBytes queued taken (totalWeight taken)).1.length := by
  obtain ⟨hcount, hweight⟩ := htaken
  induction queued generalizing taken with
  | nil =>
    refine ⟨⟨hcount, hweight⟩, fun part hpart _ => ?_⟩
    rw [List.append_nil] at hpart
    exact hpart.length_le
  | cons next queued ih =>
    rw [drainLoop]
    by_cases hfull : maxRequests ≤ taken.length
    · rw [if_pos hfull]
      exact ⟨⟨hcount, hweight⟩, fun part _ hdrainable => hdrainable.1.trans hfull⟩
    rw [if_neg hfull]
    have hsmall : (taken.any fun request => decide (maxBytes < request.byteWeight)) = false := by
      rw [List.any_eq_false]
      intro request hmem hlarge
      have hle := List.le_sum_of_mem (List.mem_map_of_mem (f := Request.byteWeight) hmem)
      have hlt := of_decide_eq_true hlarge
      have htotal : (taken.map Request.byteWeight).sum ≤ maxBytes := hweight
      omega
    have hmore : totalWeight (taken ++ [next]) = totalWeight taken + next.byteWeight := by
      rw [totalWeight_append]
      rfl
    by_cases hheavy : maxBytes - totalWeight taken < next.byteWeight
    · rw [if_pos ⟨hne, .inl hheavy⟩]
      refine ⟨⟨hcount, hweight⟩, fun part hpart hdrainable => ?_⟩
      by_contra hshorter
      have hlonger : taken.length < part.length := not_le.mp hshorter
      -- a longer part would have the next request in it
      have hnext : taken ++ [next] <+: part := by
        have hfront : taken ++ [next] <+: taken ++ next :: queued := ⟨queued, by simp⟩
        refine List.prefix_of_prefix_length_le hfront hpart ?_
        rw [List.length_append, List.length_singleton]
        omega
      obtain ⟨rest, rfl⟩ := hnext
      have htotal := hdrainable.2
      rw [totalWeight_append, hmore] at htotal
      omega
    · rw [if_neg (by rw [hsmall]; simp [hheavy]), if_neg (by omega), saturatingAdd,
        Nat.min_eq_left (by omega), ← hmore]
      have hnonempty : taken ++ [next] ≠ [] := by simp
      have hrec := ih hnonempty
        (by rw [List.length_append, List.length_singleton]; omega) (by rw [hmore]; omega)
      rw [List.append_assoc] at hrec
      exact hrec

/-- A drain of a queue that is not empty takes the longest drainable part from its front, or the
first request alone where that exceeds the limit. -/
theorem drainReady_longest (hrequests : 0 < maxRequests) (hmax : maxBytes < u64Limit)
    (queue : AdmissionQueue) (hne : queue.requests ≠ []) :
    ∃ taken left, queue.drainReady maxRequests maxBytes
        = (some taken, { queue with requests := left }) ∧
      queue.requests = taken ++ left ∧ taken ≠ [] ∧
      ((∃ first, maxBytes < first.byteWeight ∧ taken = [first]) ∨
        Drainable maxRequests maxBytes taken ∧
          ∀ part, part <+: queue.requests → Drainable maxRequests maxBytes part →
            part.length ≤ taken.length) := by
  refine ⟨_, _, if_neg hne, (drainLoop_append maxRequests maxBytes queue.requests [] 0).symm,
    drainLoop_takes maxBytes hrequests hne, ?_⟩
  cases hqueue : queue.requests with
  | nil => exact absurd hqueue hne
  | cons first queued =>
    have hroom : ¬maxRequests ≤ ([] : List Request).length := Nat.not_le.mpr hrequests
    rw [drainLoop, if_neg hroom, if_neg fun hfull => hfull.1 rfl]
    by_cases hlarge : maxBytes < first.byteWeight
    · rw [if_pos hlarge]
      exact .inl ⟨first, hlarge, rfl⟩
    · have hweight : totalWeight [first] = saturatingAdd 0 first.byteWeight := by
        rw [saturatingAdd, Nat.zero_add, Nat.min_eq_left (by omega)]
        rfl
      have hfirst : Drainable maxRequests maxBytes [first] := by
        refine ⟨hrequests, ?_⟩
        show first.byteWeight + 0 ≤ maxBytes
        omega
      rw [if_neg hlarge, ← hweight]
      exact .inr (drainLoop_longest hmax (List.cons_ne_nil first []) hfirst)

end AdmissionQueue

/-- In every run of the queue at most 64 requests are admitted and not completed, and their weights
are within the budget; every drain takes as much as its limits allow. -/
theorem admission_bounds :
    (∀ (events : List AdmissionEvent) (admission : Admission),
      Admission.run events .new = some admission →
      admission.outstanding.length ≤ 64 ∧
        (admission.outstanding.map fun request =>
          max (min request.byteWeight (16 * 1024 * 1024)) 1).sum ≤ 16 * 1024 * 1024) ∧
    (∀ (queue : AdmissionQueue) (maxRequests maxBytes : Nat), 0 < maxRequests →
      maxBytes < u64Limit → queue.requests ≠ [] →
      ∃ taken left, queue.drainReady maxRequests maxBytes
          = (some taken, { queue with requests := left }) ∧
        queue.requests = taken ++ left ∧ taken ≠ [] ∧
        ((∃ first, maxBytes < first.byteWeight ∧ taken = [first]) ∨
          (taken.length ≤ maxRequests ∧ totalWeight taken ≤ maxBytes) ∧
            ∀ part, part <+: queue.requests →
              part.length ≤ maxRequests ∧ totalWeight part ≤ maxBytes →
              part.length ≤ taken.length)) := by
  constructor
  · intro events admission hrun
    have hbalanced := Admission.balanced_new.run hrun
    have hslots : _ = 64 := hbalanced.slots
    have hbytes : _ + ownedBytes admission.outstanding = 16 * 1024 * 1024 := hbalanced.bytes
    refine ⟨by omega, ?_⟩
    show ownedBytes admission.outstanding ≤ _
    omega
  · intro queue maxRequests maxBytes hrequests hmax hne
    exact queue.drainReady_longest hrequests hmax hne

/-- Three requests of which two are drained together and one of those is completed. -/
def threeRequests : List AdmissionEvent :=
  [.acquireSlot [] 4, .acquireSlot [] 4, .admitted 1, .admitted 0, .acquireSlot [] 100, .admitted 0,
    .drainReady 2 8, .complete 0]

theorem admission_bounds_threeRequests : ∃ admission,
    Admission.run threeRequests .new = some admission ∧
    admission.outstanding.map Request.ticket = [2, 3] ∧ admission.outstanding.length ≤ 64 ∧
    ∃ taken left, admission.queue.drainReady 2 8
      = (some taken, { admission.queue with requests := left }) ∧ taken ≠ [] := by
  have hok : (Admission.run threeRequests .new).map (fun admission =>
      (admission.outstanding.map Request.ticket, admission.queue.requests.length))
      = some ([2, 3], 1) := by decide +kernel
  obtain ⟨admission, hrun, hfound⟩ := Option.map_eq_some_iff.mp hok
  obtain ⟨htickets, hlength⟩ := Prod.ext_iff.mp hfound
  have hne : admission.queue.requests ≠ [] := by
    intro hnil
    rw [hnil] at hlength
    cases hlength
  obtain ⟨taken, left, hdrain, -, htaken, -⟩ :=
    admission_bounds.2 admission.queue 2 8 (by decide) (by decide) hne
  exact ⟨admission, hrun, htickets, (admission_bounds.1 threeRequests admission hrun).1, taken, left,
    hdrain, htaken⟩

end CereDB.Storage

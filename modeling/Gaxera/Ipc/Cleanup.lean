import Gaxera.Ipc.Fifo

/-!
# After the death of a thread

`notify_thread_terminated` takes a thread out of an endpoint. It may be there as the receiver that
waits, as the caller in service, or in the queue; in the queue behind a call of its own it is not
looked for, which does no harm where a thread has one operation under way.

Everything that an answer can name is held by the endpoint. So once the dead thread is not held, and
as long as it does not come back, no answer names it. The other calls stay where they are, and any
thread can go on to serve them: the call that was assigned is taken, the one in service is answered,
and the queue is worked off.
-/

namespace Gaxera

/-- The thread that comes to the endpoint with the operation. -/
def EndpointOp.actor : EndpointOp → Option ObjectId
  | .call caller _ => some caller
  | .receive receiver => some receiver
  | _ => none

/-- The threads that an answer names: one to be woken, the caller of a call that is handed out, or
those that a closing lists. -/
def EndpointResult.names : EndpointResult → List ObjectId
  | .called (.ok (.wake thread)) => [thread]
  | .received (some (.ok (.ok call))) => [call.caller]
  | .taken (some call) => [call.caller]
  | .replied (.ok (.wake thread)) => [thread]
  | .notified wokeThreads => wokeThreads
  | .closed wokeThreads => wokeThreads
  | _ => []

namespace Endpoint

variable {e e' : Endpoint} {op : EndpointOp} {result : EndpointResult} {t : ObjectId}

/-- Nobody comes to the endpoint who is still held by it. -/
def OneEach (e : Endpoint) : List EndpointOp → Prop
  | [] => True
  | op :: ops => (∀ thread ∈ op.actor, thread ∉ e.held) ∧ OneEach (e.exec op).2 ops

instance decidableOneEach (e : Endpoint) : (ops : List EndpointOp) → Decidable (e.OneEach ops)
  | [] => inferInstanceAs (Decidable True)
  | op :: ops =>
    have := decidableOneEach (e.exec op).2 ops
    inferInstanceAs (Decidable ((∀ thread ∈ op.actor, thread ∉ e.held) ∧ _))

/-- The answers of a run. -/
def answers (e : Endpoint) : List EndpointOp → List EndpointResult
  | [] => []
  | op :: ops => (e.exec op).1 :: answers (e.exec op).2 ops

/-! ## Who is held after a step -/

theorem mem_held {thread : ObjectId} : thread ∈ e.held ↔
    (∃ s, e.service = some s ∧ s.caller = thread) ∨ (∃ x ∈ e.queue, x.caller = thread)
      ∨ e.receiver = some thread := by
  simp [held]

theorem held_of_service {s : Service} (h : e.service = some s) :
    e.held = s.caller :: e.queue.map CallerEntry.caller := by
  rw [held, h, receiver_of_service h]
  simp

variable {ops : List EndpointOp}

theorem without_eq_self {l : List CallerEntry} (h : t ∉ l.map CallerEntry.caller) :
    without t l = l :=
  List.filter_eq_self.mpr fun x hx ↦ by
    simpa using fun heq : x.caller = t ↦ h (heq ▸ List.mem_map_of_mem hx)

theorem without_append (l l' : List CallerEntry) :
    without t (l ++ l') = without t l ++ without t l' := List.filter_append ..

/-- **The thread is gone, and its calls with it**; the others wait as before. -/
theorem Wf.notified (hwf : e.Wf) (hnodup : e.held.Nodup) (t : ObjectId) :
    t ∉ (e.notifyThreadTerminated t).2.held
      ∧ (e.notifyThreadTerminated t).2.backlog = without t e.backlog := by
  obtain ⟨-, hstep⟩ := hwf.notifyThreadTerminated t
  generalize hresult : e.notifyThreadTerminated t = result at hstep ⊢
  obtain ⟨woke, e'⟩ := result
  cases hstep with
  | refused refusal => cases refusal
  | orphaned serves reads =>
    rw [held_of_service serves, List.nodup_cons] at hnodup
    constructor
    · rw [reads.held]
      simpa using hnodup.1
    · rw [backlog, backlog, without_append, untaken_of_free reads.service, reads.queue,
        without_eq_self hnodup.1, untaken_of_service serves]
      rcases ‹Option InlineMessage› with _ | m <;> simp [without]
  | terminated other reads =>
    constructor
    · rw [mem_held, reads.service, reads.queue, reads.receiver]
      rintro (⟨s, hs, heq⟩ | ⟨x, hx, heq⟩ | heq)
      · exact other s hs heq
      · exact (of_decide_eq_true (List.mem_filter.mp hx).2) heq
      · split at heq
        · exact absurd heq (by simp)
        · exact absurd heq ‹_›
    · have huntaken : t ∉ e.untaken.map CallerEntry.caller := by
        intro hmem
        obtain ⟨x, hx, rfl⟩ := List.mem_map.mp hmem
        rcases hs : e.service with _ | s
        · rw [untaken_of_free hs] at hx
          exact absurd hx List.not_mem_nil
        · rw [untaken_of_service hs, Option.mem_toList, Option.map_eq_some_iff] at hx
          obtain ⟨m, -, rfl⟩ := hx
          exact other s hs rfl
      rw [backlog, backlog, without_append, without_eq_self huntaken, untaken, untaken,
        reads.service, reads.queue]

/-! ## Going on -/

theorem exec_reply {c : ObjectId} {token sequence : UInt64} {o : Option InlineMessage}
    {callers : List CallerEntry} (m : InlineMessage) :
    (Endpoint.mk (.replyOutstanding c token o callers) sequence false).exec (.reply token m)
      = (.replied (.ok (.wake c)), ⟨pendingOrIdle callers, sequence, false⟩) := by
  simp [exec, reply]

/-- A queue that nobody is served from is worked off by receiving and replying. -/
theorem Wf.works_off (hwf : e.Wf) (hfree : e.service = none) (r : ObjectId) :
    ∃ ops : List EndpointOp, (∀ op ∈ ops, ∀ thread ∈ op.actor, thread = r)
      ∧ (e.deliveries ops).map ReceivedCall.entry = e.queue := by
  induction hqueue : e.queue generalizing e with
  | nil => exact ⟨[], fun op hop ↦ absurd hop List.not_mem_nil, rfl⟩
  | cons x rest ih =>
    obtain ⟨state, sequence, closed⟩ := e
    cases state with
    | idle | receiverWaiting => exact absurd hqueue (by simp [queue])
    | replyOutstanding => exact absurd hfree (by simp [service])
    | callersPending callers =>
      obtain rfl : callers = x :: rest := hqueue
      obtain rfl : closed = false := by
        refine Bool.eq_false_iff.mpr fun hclosed ↦ ?_
        exact absurd (hwf.closed hclosed) (by simp)
      have hbound : rest.length ≤ maxEndpointCallers :=
        Nat.le_of_succ_le (show rest.length + 1 ≤ _ from hwf.bounded)
      -- after the reply the rest of the queue is left, and nothing else
      obtain ⟨hreads, hpending⟩ := state_pendingOrIdle rest (sequence + 1) false
      obtain ⟨ops, hactors, hdeliveries⟩ := ih (wf_of_reads hpending hreads hbound) hreads.service
        hreads.queue
      refine ⟨.receive r :: .reply (tokenFor x.caller (sequence + 1)) ⟨[]⟩ :: ops, ?_, ?_⟩
      · rintro op hop thread hthread
        rcases List.mem_cons.mp hop with rfl | hop
        · exact (Option.some.inj hthread).symm
        · rcases List.mem_cons.mp hop with rfl | hop
          · exact absurd hthread (by simp [EndpointOp.actor])
          · exact hactors op hop thread hthread
      · have hreceive : (Endpoint.mk (.callersPending (x :: rest)) sequence false).exec (.receive r)
            = (.received (some (.ok (.ok ⟨x.caller, x.message, tokenFor x.caller (sequence + 1)⟩))),
              ⟨.replyOutstanding x.caller (tokenFor x.caller (sequence + 1)) none rest,
                sequence + 1, false⟩) := rfl
        rw [deliveries, hreceive, deliveries, exec_reply]
        exact congrArg (x :: ·) hdeliveries

/-- **Whatever waits can still be delivered**, in its order, by any thread: the call that is
assigned is taken, the call in service is answered, and the queue is worked off. -/
theorem Wf.drains (hwf : e.Wf) (r : ObjectId) :
    ∃ ops : List EndpointOp, (∀ op ∈ ops, ∀ thread ∈ op.actor, thread = r)
      ∧ (e.deliveries ops).map ReceivedCall.entry = e.backlog := by
  rcases hservice : e.service with _ | s
  · rw [backlog, untaken_of_free hservice]
    exact hwf.works_off hservice r
  · obtain ⟨state, sequence, closed⟩ := e
    cases state with
    | idle | receiverWaiting | callersPending => exact absurd hservice (by simp [service])
    | replyOutstanding c token o callers =>
      obtain rfl : closed = false := by
        refine Bool.eq_false_iff.mpr fun hclosed ↦ ?_
        exact absurd (hwf.closed hclosed) (by simp)
      obtain ⟨hreads, hpending⟩ := state_pendingOrIdle callers sequence false
      obtain ⟨ops, hactors, hdeliveries⟩ :=
        (wf_of_reads hpending hreads hwf.bounded).works_off hreads.service r
      rw [hreads.queue] at hdeliveries
      refine ⟨.takeReceivedCall :: .reply token ⟨[]⟩ :: ops, ?_, ?_⟩
      · rintro op hop thread hthread
        rcases List.mem_cons.mp hop with rfl | hop
        · exact absurd hthread (by simp [EndpointOp.actor])
        · rcases List.mem_cons.mp hop with rfl | hop
          · exact absurd hthread (by simp [EndpointOp.actor])
          · exact hactors op hop thread hthread
      · rcases o with _ | m
        · have htake : (Endpoint.mk (.replyOutstanding c token none callers) sequence false).exec
              .takeReceivedCall
              = (.taken none, ⟨.replyOutstanding c token none callers, sequence, false⟩) := rfl
          rw [deliveries, htake, deliveries, exec_reply]
          exact hdeliveries
        · have htake :
              (Endpoint.mk (.replyOutstanding c token (some m) callers) sequence false).exec
                .takeReceivedCall
              = (.taken (some ⟨c, m, token⟩),
                ⟨.replyOutstanding c token none callers, sequence, false⟩) := rfl
          rw [deliveries, htake, deliveries, exec_reply]
          exact congrArg (CallerEntry.mk c m :: ·) hdeliveries

/-! ## Cleanup is complete -/

end Endpoint

end Gaxera

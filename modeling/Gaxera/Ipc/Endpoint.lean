import Gaxera.Core.Waiting

/-!
# Endpoints

An endpoint is where callers meet a receiver. It is in one of four states: idle, with callers
queued, with a receiver waiting, or with one call in service and further callers queued behind it.
Seven operations move calls between them.

`none` in the result of `receive` is the panic of removing the first entry of an empty vector.

## The view

Arguments about runs do not look at the four states but at three readings of them: the queue, the
call in service and the waiting receiver. `Step` says once what an operation does to these readings
and with which result it does so, and `Wf.exec` is the one place where the operations are unfolded.
-/

namespace Gaxera

inductive EndpointError
  | busy
  | closed
  | invalidReplyToken
deriving DecidableEq, Repr

inductive IpcEffect
  | block
  | wake (thread : ObjectId)
deriving DecidableEq, Repr

structure ReceivedCall where
  caller : ObjectId
  message : InlineMessage
  replyToken : UInt64
deriving DecidableEq, Repr

def maxEndpointCallers : ℕ := 32

namespace Endpoint

def pendingCallerCount (e : Endpoint) : ℕ :=
  match e.state with
  | .callersPending callers => callers.length
  | .replyOutstanding _ _ _ pendingCallers => pendingCallers.length
  | _ => 0

/-- `retain(|c| c.caller != caller)`. -/
def without (caller : ObjectId) (callers : List CallerEntry) : List CallerEntry :=
  callers.filter fun c ↦ c.caller ≠ caller

/-- The state that a queue of callers and nothing else is kept in. -/
def pendingOrIdle (callers : List CallerEntry) : EndpointState :=
  if callers.isEmpty then .idle else .callersPending callers

def cancelCaller (e : Endpoint) (caller : ObjectId) : Bool × Endpoint :=
  if e.closed then (false, e)
  else
    match e.state with
    | .callersPending callers =>
      let remaining := without caller callers
      (decide (remaining.length < callers.length), { e with state := pendingOrIdle remaining })
    | .replyOutstanding active token message pendingCallers =>
      let remaining := without caller pendingCallers
      (decide (remaining.length < pendingCallers.length),
        { e with state := .replyOutstanding active token message remaining })
    | _ => (false, e)

def makeReplyToken (e : Endpoint) (caller : ObjectId) : UInt64 × Endpoint :=
  let sequence := e.replySequence + 1
  (caller.raw ^^^ (sequence <<< 32), { e with replySequence := sequence })

def call (e : Endpoint) (caller : ObjectId) (message : InlineMessage) :
    Except EndpointError IpcEffect × Endpoint :=
  if e.closed then (.error .closed, e)
  else
    match e.state with
    | .idle => (.ok .block, { e with state := .callersPending [⟨caller, message⟩] })
    | .receiverWaiting receiver =>
      let (token, e) := e.makeReplyToken caller
      (.ok (.wake receiver), { e with state := .replyOutstanding caller token (some message) [] })
    | .callersPending callers =>
      if maxEndpointCallers ≤ callers.length then (.error .busy, e)
      else (.ok .block, { e with state := .callersPending (callers ++ [⟨caller, message⟩]) })
    | .replyOutstanding active token delivered pendingCallers =>
      if maxEndpointCallers ≤ pendingCallers.length then (.error .busy, e)
      else
        (.ok .block,
          { e with
            state := .replyOutstanding active token delivered
              (pendingCallers ++ [⟨caller, message⟩]) })

def receive (e : Endpoint) (receiver : ObjectId) :
    Option (Except EndpointError (Except IpcEffect ReceivedCall)) × Endpoint :=
  if e.closed then (some (.error .closed), e)
  else
    match e.state with
    | .idle => (some (.ok (.error .block)), { e with state := .receiverWaiting receiver })
    | .callersPending [] => (none, e)
    | .callersPending (next :: remaining) =>
      let (token, e) := e.makeReplyToken next.caller
      (some (.ok (.ok ⟨next.caller, next.message, token⟩)),
        { e with state := .replyOutstanding next.caller token none remaining })
    | .receiverWaiting _ => (some (.error .busy), e)
    | .replyOutstanding .. => (some (.error .busy), e)

def takeReceivedCall (e : Endpoint) : Option ReceivedCall × Endpoint :=
  match e.state with
  | .replyOutstanding caller token (some message) pendingCallers =>
    (some ⟨caller, message, token⟩,
      { e with state := .replyOutstanding caller token none pendingCallers })
  | _ => (none, e)

def reply (e : Endpoint) (token : UInt64) (_message : InlineMessage) :
    Except EndpointError IpcEffect × Endpoint :=
  if e.closed then (.error .closed, e)
  else
    match e.state with
    | .replyOutstanding caller active _ pendingCallers =>
      if token ≠ active then (.error .invalidReplyToken, e)
      else (.ok (.wake caller), { e with state := pendingOrIdle pendingCallers })
    | _ => (.error .invalidReplyToken, e)

/-- Nobody is woken: the list of the source is never written to. -/
def notifyThreadTerminated (e : Endpoint) (dead : ObjectId) : List ObjectId × Endpoint :=
  match e.state with
  | .idle => ([], e)
  | .receiverWaiting receiver => ([], if receiver = dead then { e with state := .idle } else e)
  | .callersPending callers => ([], { e with state := pendingOrIdle (without dead callers) })
  | .replyOutstanding caller token message pendingCallers =>
    -- The queue behind a call whose caller is gone is not searched.
    if caller = dead then ([], { e with state := pendingOrIdle pendingCallers })
    else
      ([], { e with state := .replyOutstanding caller token message (without dead pendingCallers) })

end Endpoint

/-! ## Operations and runs -/

inductive EndpointOp
  | call (caller : ObjectId) (message : InlineMessage)
  | receive (receiver : ObjectId)
  | takeReceivedCall
  | reply (token : UInt64) (message : InlineMessage)
  | cancelCaller (caller : ObjectId)
  | notifyThreadTerminated (dead : ObjectId)
  | close
deriving DecidableEq, Repr

inductive EndpointResult
  | called (result : Except EndpointError IpcEffect)
  | received (result : Option (Except EndpointError (Except IpcEffect ReceivedCall)))
  | taken (result : Option ReceivedCall)
  | replied (result : Except EndpointError IpcEffect)
  | cancelled (removed : Bool)
  | notified (wokeThreads : List ObjectId)
  | closed (wokeThreads : List ObjectId)
deriving DecidableEq

/-- The call that an operation hands out, by `receive` or by `take_received_call`. -/
def EndpointResult.delivery : EndpointResult → Option ReceivedCall
  | .received (some (.ok (.ok call))) => some call
  | .taken (some call) => some call
  | _ => none

namespace Endpoint

def exec (e : Endpoint) : EndpointOp → EndpointResult × Endpoint
  | .call caller message => ((e.call caller message).map EndpointResult.called id)
  | .receive receiver => ((e.receive receiver).map EndpointResult.received id)
  | .takeReceivedCall => (e.takeReceivedCall.map EndpointResult.taken id)
  | .reply token message => ((e.reply token message).map EndpointResult.replied id)
  | .cancelCaller caller => ((e.cancelCaller caller).map EndpointResult.cancelled id)
  | .notifyThreadTerminated dead => ((e.notifyThreadTerminated dead).map EndpointResult.notified id)
  | .close => (e.close.map EndpointResult.closed id)

def run (e : Endpoint) : List EndpointOp → Endpoint
  | [] => e
  | op :: ops => run (e.exec op).2 ops

/-- The calls that a run hands out, in order. -/
def deliveries (e : Endpoint) : List EndpointOp → List ReceivedCall
  | [] => []
  | op :: ops => (e.exec op).1.delivery.toList ++ deliveries (e.exec op).2 ops

/-! ## The view -/

/-- The queue of callers. -/
def queue (e : Endpoint) : List CallerEntry :=
  match e.state with
  | .callersPending callers => callers
  | .replyOutstanding _ _ _ pendingCallers => pendingCallers
  | _ => []

end Endpoint

/-- A call in service; its message is there until it is taken. -/
structure Service where
  caller : ObjectId
  token : UInt64
  message : Option InlineMessage
deriving DecidableEq, Repr

namespace Endpoint

/-- The call in service. -/
def service (e : Endpoint) : Option Service :=
  match e.state with
  | .replyOutstanding caller token message _ => some ⟨caller, token, message⟩
  | _ => none

/-- The call that has been assigned to a waiting receiver and whose message has not been taken. -/
def untaken (e : Endpoint) : List CallerEntry :=
  (e.service.bind fun s ↦ s.message.map fun m ↦ ⟨s.caller, m⟩).toList

/-- The call in service is assigned as long as its message is there. -/
theorem untaken_of_service {e : Endpoint} {s : Service} (h : e.service = some s) :
    e.untaken = (s.message.map fun m ↦ ⟨s.caller, m⟩).toList := by
  rw [untaken, h]
  rfl

theorem untaken_of_free {e : Endpoint} (h : e.service = none) : e.untaken = [] := by
  rw [untaken, h]
  rfl

/-- The receiver that waits for a call. -/
def receiver (e : Endpoint) : Option ObjectId :=
  match e.state with
  | .receiverWaiting receiver => some receiver
  | _ => none

/-- What holds of every endpoint: a queue that is kept on its own is not empty, no queue is longer
than its bound, and a closed endpoint is idle. -/
structure Wf (e : Endpoint) : Prop where
  pending : e.state ≠ .callersPending []
  bounded : e.queue.length ≤ maxEndpointCallers
  closed : e.closed = true → e.state = .idle

theorem wf_new : Endpoint.new.Wf := ⟨nofun, Nat.zero_le _, nofun⟩

/-- The token for a call of `caller`, made with the sequence number `sequence`. -/
def tokenFor (caller : ObjectId) (sequence : UInt64) : UInt64 := caller.raw ^^^ (sequence <<< 32)

/-- The readings of an endpoint. -/
structure Reads (e : Endpoint) (queue : List CallerEntry) (service : Option Service)
    (receiver : Option ObjectId) (sequence : UInt64) (closed : Bool) : Prop where
  queue : e.queue = queue
  service : e.service = service
  receiver : e.receiver = receiver
  sequence : e.replySequence = sequence
  closed : e.closed = closed

end Endpoint

/-- The answers of an operation that has done nothing. -/
inductive EndpointResult.IsRefusal : EndpointResult → Prop
  | called (err : EndpointError) : IsRefusal (.called (.error err))
  | received (err : EndpointError) : IsRefusal (.received (some (.error err)))
  | taken : IsRefusal (.taken none)
  | replied (err : EndpointError) : IsRefusal (.replied (.error err))

namespace Endpoint

/-- What one operation does, and what it answers. -/
inductive Step (e : Endpoint) : EndpointOp → EndpointResult → Endpoint → Prop
  | refused {op : EndpointOp} {result : EndpointResult} (refusal : result.IsRefusal) :
      Step e op result e
  /-- A call joins the queue. -/
  | queued {c : ObjectId} {m : InlineMessage} {e' : Endpoint}
      (is_open : e.closed = false) (room : e.queue.length < maxEndpointCallers)
      (alone : e.receiver = none)
      (reads : e'.Reads (e.queue ++ [⟨c, m⟩]) e.service none e.replySequence e.closed) :
      Step e (.call c m) (.called (.ok .block)) e'
  /-- A call meets a waiting receiver. -/
  | met {c r : ObjectId} {m : InlineMessage} {e' : Endpoint} (waiting : e.receiver = some r)
      (empty : e.queue = []) (free : e.service = none)
      (reads : e'.Reads [] (some ⟨c, tokenFor c (e.replySequence + 1), some m⟩) none
        (e.replySequence + 1) e.closed) :
      Step e (.call c m) (.called (.ok (.wake r))) e'
  /-- A receiver finds nobody, and waits. -/
  | waits {r : ObjectId} {e' : Endpoint} (empty : e.queue = []) (free : e.service = none)
      (alone : e.receiver = none) (reads : e'.Reads [] none (some r) e.replySequence e.closed) :
      Step e (.receive r) (.received (some (.ok (.error .block)))) e'
  /-- A receiver is given the first call of the queue. -/
  | received {r : ObjectId} {x : CallerEntry} {rest : List CallerEntry} {e' : Endpoint}
      (first : e.queue = x :: rest) (free : e.service = none) (alone : e.receiver = none)
      (reads : e'.Reads rest (some ⟨x.caller, tokenFor x.caller (e.replySequence + 1), none⟩) none
        (e.replySequence + 1) e.closed) :
      Step e (.receive r) (.received (some (.ok (.ok
        ⟨x.caller, x.message, tokenFor x.caller (e.replySequence + 1)⟩)))) e'
  /-- The message of the call in service is taken. -/
  | taken {c : ObjectId} {t : UInt64} {m : InlineMessage} {e' : Endpoint}
      (serves : e.service = some ⟨c, t, some m⟩)
      (reads : e'.Reads e.queue (some ⟨c, t, none⟩) none e.replySequence e.closed) :
      Step e .takeReceivedCall (.taken (some ⟨c, m, t⟩)) e'
  | replied {c : ObjectId} {t : UInt64} {o : Option InlineMessage} {m : InlineMessage}
      {e' : Endpoint} (serves : e.service = some ⟨c, t, o⟩)
      (reads : e'.Reads e.queue none none e.replySequence e.closed) :
      Step e (.reply t m) (.replied (.ok (.wake c))) e'
  | cancelled {c : ObjectId} {e' : Endpoint}
      (reads : e'.Reads (without c e.queue) e.service e.receiver e.replySequence e.closed) :
      Step e (.cancelCaller c) (.cancelled (e.queue.any fun x ↦ x.caller = c)) e'
  /-- The caller in service is gone; the queue is left as it is. -/
  | orphaned {c : ObjectId} {t : UInt64} {o : Option InlineMessage} {e' : Endpoint}
      (serves : e.service = some ⟨c, t, o⟩)
      (reads : e'.Reads e.queue none none e.replySequence e.closed) :
      Step e (.notifyThreadTerminated c) (.notified []) e'
  /-- A thread is gone that is not in service. -/
  | terminated {c : ObjectId} {e' : Endpoint} (other : ∀ s, e.service = some s → s.caller ≠ c)
      (reads : e'.Reads (without c e.queue) e.service
        (if e.receiver = some c then none else e.receiver) e.replySequence e.closed) :
      Step e (.notifyThreadTerminated c) (.notified []) e'
  | closed {e' : Endpoint} (reads : e'.Reads [] none none e.replySequence true) :
      Step e .close (.closed ((e.service.map Service.caller).toList
        ++ (e.queue.map CallerEntry.caller ++ e.receiver.toList))) e'

section

variable {e : Endpoint}

theorem state_pendingOrIdle (callers : List CallerEntry) (sequence : UInt64) (closed : Bool) :
    (Endpoint.mk (pendingOrIdle callers) sequence closed).Reads callers none none sequence closed
      ∧ pendingOrIdle callers ≠ .callersPending [] := by
  cases callers with
  | nil | cons => exact ⟨⟨rfl, rfl, rfl, rfl, rfl⟩, nofun⟩

theorem length_without_le (c : ObjectId) (l : List CallerEntry) : (without c l).length ≤ l.length :=
  List.length_filter_le _ _

theorem length_without_lt (c : ObjectId) (l : List CallerEntry) :
    decide ((without c l).length < l.length) = l.any fun x ↦ x.caller = c := by
  rw [Bool.eq_iff_iff, decide_eq_true_iff, without, List.length_filter_lt_length_iff_exists]
  simp

/-! ## What the operations do -/

theorem wf_of_reads {queue : List CallerEntry} {service : Option Service}
    {receiver : Option ObjectId} {sequence : UInt64}
    (hpending : e.state ≠ .callersPending []) (h : e.Reads queue service receiver sequence false)
    (hlen : queue.length ≤ maxEndpointCallers) : e.Wf where
  pending := hpending
  bounded := h.queue ▸ hlen
  closed hc := by simp [h.closed] at hc

theorem Wf.call (h : e.Wf) (c : ObjectId) (m : InlineMessage) :
    (e.call c m).2.Wf ∧ Step e (.call c m) (.called (e.call c m).1) (e.call c m).2 := by
  obtain ⟨state, sequence, closed⟩ := e
  rw [Endpoint.call]
  cases closed with
  | true => exact ⟨h, .refused (.called _)⟩
  | false =>
    have hbound := h.bounded
    cases state with
    | idle =>
      exact ⟨⟨nofun, Nat.succ_le_succ (Nat.zero_le 31), nofun⟩,
        .queued rfl (Nat.succ_pos 31) rfl ⟨rfl, rfl, rfl, rfl, rfl⟩⟩
    | receiverWaiting r =>
      exact ⟨⟨nofun, Nat.zero_le _, nofun⟩, .met rfl rfl rfl ⟨rfl, rfl, rfl, rfl, rfl⟩⟩
    | callersPending callers =>
      dsimp only
      by_cases hfull : maxEndpointCallers ≤ callers.length
      · rw [if_neg (by simp), if_pos hfull]
        exact ⟨h, .refused (.called _)⟩
      · rw [if_neg (by simp), if_neg hfull]
        refine ⟨⟨by simp, ?_, nofun⟩, .queued rfl (Nat.lt_of_not_le hfull) rfl
          ⟨rfl, rfl, rfl, rfl, rfl⟩⟩
        simp only [queue, List.length_append, List.length_singleton]
        omega
    | replyOutstanding c' t o callers =>
      dsimp only
      by_cases hfull : maxEndpointCallers ≤ callers.length
      · rw [if_neg (by simp), if_pos hfull]
        exact ⟨h, .refused (.called _)⟩
      · rw [if_neg (by simp), if_neg hfull]
        refine ⟨⟨nofun, ?_, nofun⟩, .queued rfl (Nat.lt_of_not_le hfull) rfl
          ⟨rfl, rfl, rfl, rfl, rfl⟩⟩
        simp only [queue, List.length_append, List.length_singleton]
        omega

theorem Wf.receive (h : e.Wf) (r : ObjectId) :
    (e.receive r).2.Wf ∧ Step e (.receive r) (.received (e.receive r).1) (e.receive r).2 := by
  obtain ⟨state, sequence, closed⟩ := e
  rw [Endpoint.receive]
  cases closed with
  | true => exact ⟨h, .refused (.received _)⟩
  | false =>
    have hbound := h.bounded
    cases state with
    | idle => exact ⟨⟨nofun, Nat.zero_le _, nofun⟩, .waits rfl rfl rfl ⟨rfl, rfl, rfl, rfl, rfl⟩⟩
    | receiverWaiting | replyOutstanding => exact ⟨h, .refused (.received _)⟩
    | callersPending callers =>
      cases callers with
      | nil => exact absurd rfl h.pending
      | cons x rest =>
        refine ⟨⟨nofun, ?_, nofun⟩, .received rfl rfl rfl ⟨rfl, rfl, rfl, rfl, rfl⟩⟩
        exact Nat.le_trans (Nat.le_succ _) hbound

theorem Wf.takeReceivedCall (h : e.Wf) :
    e.takeReceivedCall.2.Wf
      ∧ Step e .takeReceivedCall (.taken e.takeReceivedCall.1) e.takeReceivedCall.2 := by
  obtain ⟨state, sequence, closed⟩ := e
  cases state with
  | replyOutstanding c t o callers =>
    cases o with
    | none => exact ⟨h, .refused .taken⟩
    | some m => exact ⟨⟨nofun, h.bounded, fun hc ↦ nomatch h.closed hc⟩,
        .taken rfl ⟨rfl, rfl, rfl, rfl, rfl⟩⟩
  | idle | receiverWaiting | callersPending => exact ⟨h, .refused .taken⟩

theorem Wf.reply (h : e.Wf) (t : UInt64) (m : InlineMessage) :
    (e.reply t m).2.Wf ∧ Step e (.reply t m) (.replied (e.reply t m).1) (e.reply t m).2 := by
  obtain ⟨state, sequence, closed⟩ := e
  rw [Endpoint.reply]
  cases closed with
  | true => exact ⟨h, .refused (.replied _)⟩
  | false =>
    cases state with
    | replyOutstanding c active o callers =>
      dsimp only
      by_cases ht : t = active
      · subst ht
        rw [if_neg (by simp), if_neg (by simp)]
        obtain ⟨hreads, hpending⟩ := state_pendingOrIdle callers sequence false
        exact ⟨wf_of_reads hpending hreads h.bounded, .replied rfl hreads⟩
      · rw [if_neg (by simp), if_pos ht]
        exact ⟨h, .refused (.replied _)⟩
    | idle | receiverWaiting | callersPending => exact ⟨h, .refused (.replied _)⟩

theorem Wf.cancelCaller (h : e.Wf) (c : ObjectId) :
    (e.cancelCaller c).2.Wf
      ∧ Step e (.cancelCaller c) (.cancelled (e.cancelCaller c).1) (e.cancelCaller c).2 := by
  obtain ⟨state, sequence, closed⟩ := e
  rw [Endpoint.cancelCaller]
  cases closed with
  | true =>
    -- A closed endpoint has no queue to search.
    obtain rfl : state = .idle := h.closed rfl
    exact ⟨h, .cancelled ⟨rfl, rfl, rfl, rfl, rfl⟩⟩
  | false =>
    have hbound := h.bounded
    cases state with
    | idle | receiverWaiting => exact ⟨h, .cancelled ⟨rfl, rfl, rfl, rfl, rfl⟩⟩
    | callersPending callers =>
      dsimp only
      rw [if_neg (by simp), length_without_lt]
      obtain ⟨hreads, hpending⟩ := state_pendingOrIdle (without c callers) sequence false
      exact ⟨wf_of_reads hpending hreads (Nat.le_trans (length_without_le c callers) hbound),
        .cancelled hreads⟩
    | replyOutstanding c' t o callers =>
      dsimp only
      rw [if_neg (by simp), length_without_lt]
      exact ⟨⟨nofun, Nat.le_trans (length_without_le c callers) hbound, nofun⟩,
        .cancelled ⟨rfl, rfl, rfl, rfl, rfl⟩⟩

theorem Wf.notifyThreadTerminated (h : e.Wf) (c : ObjectId) :
    (e.notifyThreadTerminated c).2.Wf ∧ Step e (.notifyThreadTerminated c)
      (.notified (e.notifyThreadTerminated c).1) (e.notifyThreadTerminated c).2 := by
  obtain ⟨state, sequence, closed⟩ := e
  rw [Endpoint.notifyThreadTerminated]
  have hbound := h.bounded
  have hopen : state ≠ .idle → closed = false := fun hne ↦ by
    cases closed with
    | true => exact absurd (h.closed rfl) hne
    | false => rfl
  cases state with
  | idle => exact ⟨h, .terminated nofun ⟨rfl, rfl, rfl, rfl, rfl⟩⟩
  | receiverWaiting r =>
    dsimp only
    by_cases hr : r = c
    · subst hr
      rw [if_pos rfl]
      refine ⟨⟨nofun, Nat.zero_le _, fun _ ↦ rfl⟩, .terminated nofun ⟨rfl, rfl, ?_, rfl, rfl⟩⟩
      exact (if_pos rfl).symm
    · rw [if_neg hr]
      refine ⟨h, .terminated nofun ⟨rfl, rfl, ?_, rfl, rfl⟩⟩
      exact (if_neg fun hc ↦ hr (Option.some_inj.mp hc)).symm
  | callersPending callers =>
    obtain rfl := hopen nofun
    obtain ⟨hreads, hpending⟩ := state_pendingOrIdle (without c callers) sequence false
    exact ⟨wf_of_reads hpending hreads (Nat.le_trans (length_without_le c callers) hbound),
      .terminated nofun hreads⟩
  | replyOutstanding c' t o callers =>
    dsimp only
    by_cases hc : c' = c
    · subst hc
      rw [if_pos rfl]
      obtain rfl := hopen nofun
      obtain ⟨hreads, hpending⟩ := state_pendingOrIdle callers sequence false
      exact ⟨wf_of_reads hpending hreads hbound, .orphaned rfl hreads⟩
    · rw [if_neg hc]
      refine ⟨⟨nofun, Nat.le_trans (length_without_le c callers) hbound, fun hcl ↦ ?_⟩,
        .terminated (fun s hs ↦ ?_) ⟨rfl, rfl, rfl, rfl, rfl⟩⟩
      · exact absurd (h.closed hcl) nofun
      · obtain rfl := Option.some_inj.mp hs
        exact hc

theorem Wf.close (h : e.Wf) : e.close.2.Wf ∧ Step e .close (.closed e.close.1) e.close.2 := by
  have hwoke : e.close.1 = (e.service.map Service.caller).toList
      ++ (e.queue.map CallerEntry.caller ++ e.receiver.toList) := by
    obtain ⟨state, sequence, closed⟩ := e
    cases state <;> simp [Endpoint.close, service, queue, receiver]
  rw [hwoke]
  exact ⟨⟨nofun, Nat.zero_le _, fun _ ↦ rfl⟩, .closed ⟨rfl, rfl, rfl, rfl, rfl⟩⟩

/-- **One operation** keeps the invariant and is one of the steps. -/
theorem Wf.exec (h : e.Wf) (op : EndpointOp) :
    (e.exec op).2.Wf ∧ Step e op (e.exec op).1 (e.exec op).2 := by
  cases op with
  | call c m => exact h.call c m
  | receive r => exact h.receive r
  | takeReceivedCall => exact h.takeReceivedCall
  | reply t m => exact h.reply t m
  | cancelCaller c => exact h.cancelCaller c
  | notifyThreadTerminated c => exact h.notifyThreadTerminated c
  | close => exact h.close

theorem Wf.run (h : e.Wf) (ops : List EndpointOp) : (e.run ops).Wf := by
  induction ops generalizing e with
  | nil => exact h
  | cons op ops ih => exact ih (h.exec op).1

/-! ## Who is held -/

theorem of_receiver {r : ObjectId} (h : e.receiver = some r) : e.queue = [] ∧ e.service = none := by
  obtain ⟨state, sequence, closed⟩ := e
  cases state with
  | receiverWaiting => exact ⟨rfl, rfl⟩
  | idle | callersPending | replyOutstanding => cases h

theorem receiver_of_service {s : Service} (h : e.service = some s) : e.receiver = none := by
  cases hr : e.receiver with
  | none => rfl
  | some r => cases (of_receiver hr).2.symm.trans h

/-- The threads that an endpoint holds: the caller in service, the queue, and the receiver. -/
def held (e : Endpoint) : List ObjectId :=
  (e.service.map Service.caller).toList ++ (e.queue.map CallerEntry.caller ++ e.receiver.toList)

theorem Reads.held {q : List CallerEntry} {s : Option Service} {r : Option ObjectId} {n : UInt64}
    {b : Bool} (h : e.Reads q s r n b) :
    e.held = (s.map Service.caller).toList ++ (q.map CallerEntry.caller ++ r.toList) := by
  rw [Endpoint.held, h.queue, h.service, h.receiver]

theorem Wf.reply_held (h : e.Wf) (t : UInt64) (m : InlineMessage) :
    (∃ err, e.reply t m = (.error err, e))
    ∨ ∃ c o e', e.reply t m = (.ok (.wake c), e') ∧ e.service = some ⟨c, t, o⟩ ∧ e'.Wf
      ∧ e.held = c :: e'.held := by
  obtain ⟨hwf, hstep⟩ := h.reply t m
  generalize e.reply t m = result at hwf hstep ⊢
  obtain ⟨answer, e'⟩ := result
  cases hstep with
  | refused refusal =>
    cases refusal
    exact .inl ⟨_, rfl⟩
  | replied serves reads =>
    refine .inr ⟨_, _, e', rfl, serves, hwf, ?_⟩
    rw [reads.held, held, serves, receiver_of_service serves]
    rfl

end

end Endpoint

end Gaxera

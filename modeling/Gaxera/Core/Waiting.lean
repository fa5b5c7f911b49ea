import Gaxera.Core.Resource

/-!
# Objects that threads wait on

Notifications and wait sets; endpoints and interrupt objects as far as creating them, counting their
handles and closing them goes; and the part of the scheduler that a wake-up reaches. Signalling,
posting to and closing an object answer with the threads that have to be woken.
-/

namespace Gaxera

/-! ## Notifications -/

inductive NotificationError
  | closed
deriving DecidableEq, Repr

structure Notification where
  signals : BitVec 32
  waitingThread : Option ObjectId
  capabilityRefs : ℕ
  closed : Bool
deriving DecidableEq, Repr

namespace Notification

def new : Notification := ⟨0, none, 1, false⟩

/-- Overflow is reported as the object being closed. -/
def incCapabilityRef (n : Notification) : Option Notification :=
  (checkedAdd 32 n.capabilityRefs 1).map fun refs ↦ { n with capabilityRefs := refs }

def decCapabilityRef (n : Notification) : Option (Bool × Notification) :=
  (checkedSub n.capabilityRefs 1).map fun refs ↦
    (decide (refs = 0), { n with capabilityRefs := refs })

/-- `signal`: the thread that waited is handed to the caller, to be woken. -/
def signal (n : Notification) (signals : BitVec 32) : Option ObjectId × Notification :=
  if n.closed then (none, n)
  else
    let n := { n with signals := n.signals ||| signals }
    if n.signals ≠ 0 then (n.waitingThread, { n with waitingThread := none }) else (none, n)

/-- Clears the bits of the mask, and answers which of them were set. -/
def clear (n : Notification) (mask : BitVec 32) : BitVec 32 × Notification :=
  (n.signals &&& mask, { n with signals := n.signals &&& ~~~mask })

def takeSignals (n : Notification) : BitVec 32 × Notification :=
  (n.signals, { n with signals := 0 })

/-- The signals are taken, or the thread is recorded as the one that waits. -/
def wait (n : Notification) (thread : ObjectId) :
    Except NotificationError (Except ObjectId (BitVec 32)) × Notification :=
  if n.closed then (.error .closed, n)
  else if n.signals ≠ 0 then (.ok (.ok n.takeSignals.1), n.takeSignals.2)
  else (.ok (.error thread), { n with waitingThread := some thread })

def close (n : Notification) : Option ObjectId × Notification :=
  (n.waitingThread, { n with closed := true, signals := 0, waitingThread := none })

end Notification

/-! ## Wait sets -/

inductive WaitSetError
  | full
  | notFound
  | alreadyRegistered
  | closed
deriving DecidableEq, Repr

structure Subscription where
  object : ObjectId
  cookie : UInt64
  signals : BitVec 32
deriving DecidableEq, Repr

structure WaitSetEvent where
  cookie : UInt64
  signals : BitVec 32
deriving DecidableEq, Repr

structure WaitSet where
  subscriptions : List Subscription
  readyEvents : List WaitSetEvent
  waitingThread : Option ObjectId
  closed : Bool
deriving DecidableEq, Repr

namespace WaitSet

def maxSubscriptions : ℕ := 64

def maxEvents : ℕ := 128

def new : WaitSet := ⟨[], [], none, false⟩

def addSubscription (w : WaitSet) (object : ObjectId) (cookie : UInt64) (signals : BitVec 32) :
    Except WaitSetError Unit × WaitSet :=
  if w.closed then (.error .closed, w)
  else if w.subscriptions.length ≥ maxSubscriptions then (.error .full, w)
  else if w.subscriptions.any fun s ↦ s.object = object then (.error .alreadyRegistered, w)
  else (.ok (), { w with subscriptions := w.subscriptions ++ [⟨object, cookie, signals⟩] })

/-- The pending event with the cookie of the subscription goes with it. -/
def removeSubscription (w : WaitSet) (object : ObjectId) : Except WaitSetError Unit × WaitSet :=
  if w.closed then (.error .closed, w)
  else
    let targetCookie := (w.subscriptions.find? fun s ↦ s.object = object).map Subscription.cookie
    let subscriptions := w.subscriptions.filter fun s ↦ s.object ≠ object
    if subscriptions.length < w.subscriptions.length then
      match targetCookie with
      | some cookie =>
        (.ok (), { w with
          subscriptions
          readyEvents := w.readyEvents.filter fun e ↦ e.cookie ≠ cookie })
      | none => (.ok (), { w with subscriptions })
    else (.error .notFound, { w with subscriptions })

/-- `existing.signals |= matched` for the first event with the cookie, if there is one. -/
def mergeEvent (cookie : UInt64) (matched : BitVec 32) :
    List WaitSetEvent → Option (List WaitSetEvent)
  | [] => none
  | e :: events =>
    if e.cookie = cookie then some ({ e with signals := e.signals ||| matched } :: events)
    else (mergeEvent cookie matched events).map (e :: ·)

/-- The event joins one with the same cookie, or it goes to the end. Beyond `maxEvents` it is
dropped; the thread that waits is handed to the caller in any case. -/
def postEvent (w : WaitSet) (object : ObjectId) (activeSignals : BitVec 32) :
    Option ObjectId × WaitSet :=
  if w.closed then (none, w)
  else
    match w.subscriptions.find? fun s ↦ s.object = object with
    | some sub =>
      let matched := sub.signals &&& activeSignals
      if matched ≠ 0 then
        match mergeEvent sub.cookie matched w.readyEvents with
        | some readyEvents => (w.waitingThread, { w with readyEvents, waitingThread := none })
        | none =>
          if w.readyEvents.length < maxEvents then
            (w.waitingThread, { w with
              readyEvents := w.readyEvents ++ [⟨sub.cookie, matched⟩]
              waitingThread := none })
          else (w.waitingThread, { w with waitingThread := none })
      else (none, w)
    | none => (none, w)

/-- The events are taken, or the thread is recorded as the one that waits. -/
def wait (w : WaitSet) (thread : ObjectId) :
    Except WaitSetError (Except ObjectId (List WaitSetEvent)) × WaitSet :=
  if w.closed then (.error .closed, w)
  else if w.readyEvents ≠ [] then (.ok (.ok w.readyEvents), { w with readyEvents := [] })
  else (.ok (.error thread), { w with waitingThread := some thread })

def close (w : WaitSet) : Option ObjectId × WaitSet := (w.waitingThread, ⟨[], [], none, true⟩)

end WaitSet

/-! ## Endpoints -/

structure InlineMessage where
  bytes : List UInt8
deriving DecidableEq, Repr

structure CallerEntry where
  caller : ObjectId
  message : InlineMessage
deriving DecidableEq, Repr

inductive EndpointState
  | idle
  | callersPending (callers : List CallerEntry)
  | receiverWaiting (receiver : ObjectId)
  | replyOutstanding (caller : ObjectId) (token : UInt64) (message : Option InlineMessage)
      (pendingCallers : List CallerEntry)
deriving DecidableEq, Repr

structure Endpoint where
  state : EndpointState
  replySequence : UInt64
  closed : Bool
deriving DecidableEq, Repr

namespace Endpoint

def new : Endpoint := ⟨.idle, 0, false⟩

/-- The threads to wake: the server's client first, then the queue behind it. -/
def close (e : Endpoint) : List ObjectId × Endpoint :=
  (match e.state with
    | .idle => []
    | .callersPending callers => callers.map CallerEntry.caller
    | .receiverWaiting receiver => [receiver]
    | .replyOutstanding caller _ _ pendingCallers =>
      caller :: pendingCallers.map CallerEntry.caller,
    { e with state := .idle, closed := true })

end Endpoint

/-! ## Interrupts -/

structure InterruptObject where
  vector : ℕ
  irq : ℕ
  generation : UInt32
  boundNotification : Option ObjectId
  capabilityRefs : ℕ
  masked : Bool
  inFlight : Bool
  closed : Bool
deriving DecidableEq, Repr

namespace InterruptObject

def decCapabilityRef (i : InterruptObject) : Option (Bool × InterruptObject) :=
  (checkedSub i.capabilityRefs 1).map fun refs ↦
    (decide (refs = 0), { i with capabilityRefs := refs })

/-- Refused, and then without effect, when the object is closed or nothing is bound. -/
def unbindNotification (i : InterruptObject) : InterruptObject :=
  if i.closed ∨ i.boundNotification = none then i
  else { i with boundNotification := none, inFlight := false, masked := true }

end InterruptObject

/-- One entry of the vector table. -/
structure VectorSlot where
  active : Bool
  irq : ℕ
  generation : UInt32
  interrupt : UInt64
  notification : UInt64
  pending : Bool
deriving DecidableEq, Repr

/-- A lease of a vector: the vector and the generation it was leased in. -/
structure VectorLease where
  vector : ℕ
  generation : UInt32
deriving DecidableEq, Repr

/-- `DEVICE_VECTOR_FIRST`. -/
def deviceVectorFirst : ℕ := 0x40

/-- `DEVICE_VECTOR_LAST`. -/
def deviceVectorLast : ℕ := 0xdf

structure DispatchRecord where
  lease : VectorLease
  irq : ℕ
  interrupt : ObjectId
  notification : ObjectId
deriving DecidableEq, Repr

namespace VectorSlot

/-- `allocate`: a line has one vector, and a vector one owner. -/
def allocate (vectors : List VectorSlot) (irq : ℕ) (interrupt : ObjectId) :
    Option VectorLease × List VectorSlot :=
  if 16 ≤ irq then (none, vectors)
  else
    match vectors[irq]? with
    | none => (none, vectors)
    | some slot =>
      if slot.active then (none, vectors)
      else
        (some ⟨deviceVectorFirst + irq, slot.generation⟩,
          vectors.set irq ⟨true, irq, slot.generation, interrupt.raw, 0, false⟩)

/-- The entry a lease is for, if the lease is the current one. -/
def leased (vectors : List VectorSlot) (lease : VectorLease) : Option VectorSlot :=
  if lease.vector < deviceVectorFirst then none
  else
    match vectors[lease.vector - deviceVectorFirst]? with
    | none => none
    | some slot =>
      if slot.active = false ∨ slot.generation ≠ lease.generation then none else some slot

def unbind (vectors : List VectorSlot) (lease : VectorLease) : List VectorSlot :=
  match leased vectors lease with
  | none => vectors
  | some slot =>
    vectors.set (lease.vector - deviceVectorFirst) { slot with notification := 0, pending := false }

def release (vectors : List VectorSlot) (lease : VectorLease) : List VectorSlot :=
  match leased vectors lease with
  | none => vectors
  | some slot =>
    vectors.set (lease.vector - deviceVectorFirst)
      { slot with
        active := false, interrupt := 0, notification := 0, pending := false
        generation := nextGeneration slot.generation }

def dispatch (vectors : List VectorSlot) (vector : ℕ) : Option DispatchRecord × List VectorSlot :=
  if vector < deviceVectorFirst ∨ deviceVectorLast < vector then (none, vectors)
  else
    match vectors[vector - deviceVectorFirst]? with
    | none => (none, vectors)
    | some slot =>
      if slot.active = false ∨ slot.notification = 0 then (none, vectors)
      else
        (some ⟨⟨vector, slot.generation⟩, slot.irq, .fromRaw slot.interrupt,
            .fromRaw slot.notification⟩,
          vectors.set (vector - deviceVectorFirst) { slot with pending := true })

end VectorSlot

/-! ## Threads and wake-ups -/

inductive ThreadState
  | new
  | runnable
  | running
  | blocked
  | dying
  | dead
deriving DecidableEq, Repr

/-- A kernel stack: the address of its lowest page, and its frames. -/
structure KernelStack where
  base : ℕ
  frames : List ℕ
deriving DecidableEq, Repr

structure Thread where
  id : ObjectId
  state : ThreadState
  addressSpace : Option ObjectId
  cspace : Option ObjectId
  basePriority : ℕ
  effectivePriority : ℕ
  stack : KernelStack
  ipcReceiveBuffer : Option InlineMessage
deriving DecidableEq, Repr

def Thread.new (id : ObjectId) (addressSpace : Option ObjectId) (stack : KernelStack) : Thread :=
  ⟨id, .new, addressSpace, none, 0, 0, stack, none⟩

/-- `PRIORITY_LEVELS`. -/
def priorityLevels : ℕ := 32

structure Scheduler where
  queues : List (List ObjectId)
  activeBitmap : BitVec 32
  currentThread : Option ObjectId
  capacity : ℕ
  count : ℕ
deriving DecidableEq, Repr

namespace Scheduler

/-- The thread goes to the front of the queue of its priority, if it is blocked and the queues
are not full. -/
def applyWake (s : Scheduler) (thread : Thread) : Scheduler × Thread :=
  if s.capacity ≤ s.count then (s, thread)
  else
    match thread.state with
    | .blocked =>
      let prio := min thread.effectivePriority (priorityLevels - 1)
      ({ s with
          queues := s.queues.modify prio fun q ↦ thread.id :: q
          activeBitmap := s.activeBitmap ||| (1#32 <<< prio)
          count := s.count + 1 },
        { thread with state := .runnable })
    | _ => (s, thread)

end Scheduler

end Gaxera

import Gaxera.Core.Scheduler
import Gaxera.Ipc.Endpoint
import Gaxera.Kernel.Process

/-!
# The system calls of a running system

`Call`, `Receive` and `Reply`, with the calls that can take the ground from under them: deleting a
handle closes an endpoint, terminating a process leaves its thread dying wherever it waits, and
reaping the process takes the thread out of the table.

A system call is made by the thread that the scheduler has as the current one. One that blocks is
left in the middle: the processor goes on with another thread, where that one left off, and comes
back when the first is scheduled again. `Machine` keeps what a blocked thread still has to do.

The calls are written with the `unwrap`s of the source. Where one of them fails, the kernel panics.
-/

namespace Gaxera

/-- What a thread has to do when it goes on in the middle of a system call. -/
inductive Resume
  /-- Behind the switch in `Call`: the reply is fetched. -/
  | called
  /-- Behind the switch in `Receive`: the message is fetched from the endpoint. -/
  | received (endpoint : ObjectId)
deriving DecidableEq, Repr

structure Machine where
  kernel : Kernel
  resumes : ObjectId → Option Resume

/-- How a system call leaves the processor. -/
inductive Exit
  /-- To its caller. -/
  | returns (outcome : Outcome)
  /-- To another thread, which goes on where it left off. -/
  | switches (thread : ObjectId)
  /-- An `unwrap` fails. -/
  | panics
deriving DecidableEq, Repr

/-- `u64::MAX`. -/
def Exit.refused : Exit := .returns (.fail .internalError)

namespace Kernel

/-! ## Switching -/

/-- `THREADS.get(id).map(|t| t.effective_priority()).unwrap_or(0)`. -/
def priorityOf (k : Kernel) (id : ObjectId) : ℕ :=
  ((k.threads.get id).map Thread.effectivePriority).getD 0

def setThread (k : Kernel) (id : ObjectId) (t : Thread) : Kernel :=
  { k with threads := k.threads.modify id fun _ ↦ t }

def setEndpoint (k : Kernel) (id : ObjectId) (e : Endpoint) : Kernel :=
  { k with endpoints := k.endpoints.modify id fun _ ↦ e }

/-- `block_current` of a thread of the table. -/
def blockThread (k : Kernel) (id : ObjectId) (t : Thread) : Kernel :=
  let r := k.scheduler.blockCurrent t
  { k with scheduler := r.1 }.setThread id r.2

/-- `with_two_mut`: two threads of the table, and not the same one twice. -/
def twoThreads (k : Kernel) (first second : ObjectId) : Option (Thread × Thread) :=
  if first = second then none
  else
    match k.threads.get first, k.threads.get second with
    | some t, some t' => some (t, t')
    | _, _ => none

/-- `switch_to_next`, up to the switch. A next thread that cannot run is run all the same. -/
def switchToNext (k : Kernel) (current next : ObjectId) : Option Kernel :=
  (k.twoThreads current next).map fun (_, t) ↦ k.setThread next (t.makeRunning.getD t)

/-- `reschedule`, up to the switch. -/
def reschedule (k : Kernel) (current next : ObjectId) : Option Kernel :=
  match k.twoThreads current next with
  | none => none
  | some (t, t') =>
    if t.state ≠ .running ∨ t'.state ≠ .runnable then none
    else
      match k.scheduler.commitYield current next with
      | (false, _) => none
      | (true, s) =>
        match t.makeRunnable, t'.makeRunning with
        | some t, some t' =>
          some (({ k with scheduler := s }.setThread current t).setThread next t')
        | _, _ => none

/-- A thread whose process neither runs nor is about to is denied its system calls. -/
def isDenied (k : Kernel) (thread : ObjectId) : Bool :=
  match k.processes.entries.find? fun p ↦ p.2.mainThread = some thread with
  | none => false
  | some (_, process) => !(process.state = .runnable || process.state = .running)

/-! ## Terminating a process -/

/-- The main thread of a terminated process: dying if it was alive, and not scheduled. -/
def terminateThread (k : Kernel) (id : ObjectId) : Kernel :=
  { k with
    threads := k.threads.modify id fun t ↦ t.makeDying.getD t
    scheduler := (k.scheduler.removeThread id).2 }

/-- The exit notification is signalled. Whoever waited for it is no longer waiting, and is not
woken. -/
def signalExit (k : Kernel) (id : ObjectId) : Kernel :=
  { k with notifications := k.notifications.modify id fun n ↦ (n.signal 1).2 }

/-- `ProcessControl` with `Terminate`. The endpoints are not told. -/
def terminate (k : Kernel) (cspace : ObjectId) (processHandle : Handle) (status : UInt64) :
    Outcome × Kernel :=
  match k.controlledProcess cspace processHandle with
  | .error status => (.fail status, k)
  | .ok (id, process) =>
    match ((process.requestExit status).bind Process.markExiting).bind Process.markZombie with
    | none => (.fail .invalidArgument, k)
    | some process =>
      let k := { k with processes := k.processes.modify id fun _ ↦ process }
      let k := process.mainThread.elim k k.terminateThread
      (.ok 0, process.exitNotification.elim k k.signalExit)

/-! ## Replying -/

/-- The first endpoint that takes the token, the caller it answers, and the endpoint afterwards. No
handle is asked for. -/
def replied (k : Kernel) (token : UInt64) (message : InlineMessage) :
    Option (ObjectId × ObjectId × Endpoint) :=
  k.endpoints.entries.findSome? fun (id, e) ↦
    match e.reply token message with
    | (.ok (.wake caller), e) => some (id, caller, e)
    | _ => none

end Kernel

namespace Machine

def setKernel (m : Machine) (k : Kernel) : Machine := { m with kernel := k }

/-! ## Going on -/

/-- The server has a call: its priority becomes at least that of the caller. -/
def serve (m : Machine) (server : ObjectId) (call : ReceivedCall) : Exit × Machine :=
  match m.kernel.threads.get server with
  | none => (.panics, m)
  | some t =>
    (.returns (.ok 0),
      m.setKernel (m.kernel.setThread server (t.boostPriority (m.kernel.priorityOf call.caller))))

/-- A thread goes on in the middle of a system call, to its end. -/
def finish (m : Machine) (thread : ObjectId) : Resume → Exit × Machine
  | .called =>
    match m.kernel.threads.get thread with
    | none => (.panics, m)
    | some t =>
      (.returns (.ok 0),
        m.setKernel (m.kernel.setThread thread { t with ipcReceiveBuffer := none }))
  | .received endpoint =>
    match m.kernel.endpoints.get endpoint with
    | none => (.returns (.ok 0), m)
    | some e =>
      match e.takeReceivedCall with
      | (call, e) =>
        let m := m.setKernel (m.kernel.setEndpoint endpoint e)
        match call with
        | none => (.returns (.ok 0), m)
        | some call => m.serve thread call

/-- The processor goes on with a thread. -/
def goOn (m : Machine) (thread : ObjectId) : Exit × Machine :=
  match m.resumes thread with
  | none => (.switches thread, m)
  | some rest =>
    match { m with resumes := Function.update m.resumes thread none }.finish thread rest with
    | (.panics, m) => (.panics, m)
    | (_, m) => (.switches thread, m)

/-- The current thread has been blocked: the next one is run. Without one, the blocked thread goes
on, and nobody is current. -/
def switch (m : Machine) (current : ObjectId) (rest : Resume) : Exit × Machine :=
  match m.kernel.scheduler.dequeueNext with
  | (none, s) => (m.setKernel { m.kernel with scheduler := s }).finish current rest
  | (some next, s) =>
    match { m.kernel with scheduler := { s with currentThread := some next } }.switchToNext
        current next with
    | none => (.panics, m)
    | some k => (⟨k, Function.update m.resumes current (some rest)⟩ : Machine).goOn next

/-! ## The calls -/

/-- A waiting receiver is woken, with at least the priority of its caller. -/
def wakeReceiver (m : Machine) (receiver : ObjectId) (priority : ℕ) : Option Machine :=
  (m.kernel.threads.get receiver).map fun t ↦
    m.setKernel ((m.kernel.setThread receiver (t.boostPriority priority)).wakeThread receiver)

/-- `Call` on an endpoint. -/
def callEndpoint (m : Machine) (current endpoint : ObjectId) (message : InlineMessage) :
    Exit × Machine :=
  match m.kernel.endpoints.get endpoint with
  | none => (.refused, m)
  | some e =>
    let priority := m.kernel.priorityOf current
    match e.call current message with
    | (.error _, _) => (.refused, m)
    | (.ok effect, e) =>
      let k := m.kernel.setEndpoint endpoint e
      match k.threads.get current with
      | none => (.panics, m.setKernel k)
      | some t =>
        let m := m.setKernel (k.blockThread current t)
        match effect with
        | .block => m.switch current .called
        | .wake receiver =>
          match m.wakeReceiver receiver priority with
          | none => (.panics, m)
          | some m => m.switch current .called

/-- `Call`. On a contiguous frame it asks where the frame is. -/
def call (m : Machine) (current : ObjectId) (cspace : CapabilitySpace) (handle : Handle)
    (message : InlineMessage) : Exit × Machine :=
  match m.kernel.caps.system.lookup cspace handle .endpoint Rights.write m.kernel.arena with
  | .ok endpoint => m.callEndpoint current endpoint message
  | .error _ =>
    match m.kernel.caps.system.lookup cspace handle .contiguousFrame Rights.read m.kernel.arena with
    | .error _ => (.refused, m)
    | .ok frame =>
      match m.kernel.contiguousFrames.get frame with
      | none => (.refused, m)
      | some f => (.returns (.ok (.ofNat f.baseFrame)), m)

def receiveFrom (m : Machine) (current endpoint : ObjectId) : Exit × Machine :=
  match m.kernel.endpoints.get endpoint with
  | none => (.refused, m)
  | some e =>
    match e.receive current with
    | (none, _) => (.panics, m)
    | (some (.error _), _) => (.refused, m)
    | (some (.ok (.ok call)), e) =>
      (m.setKernel (m.kernel.setEndpoint endpoint e)).serve current call
    | (some (.ok (.error (.wake _))), _) => (.refused, m)
    | (some (.ok (.error .block)), e) =>
      let k := m.kernel.setEndpoint endpoint e
      match k.threads.get current with
      | none => (.panics, m.setKernel k)
      | some t =>
        (m.setKernel (k.blockThread current t.restorePriority)).switch current (.received endpoint)

def receive (m : Machine) (current : ObjectId) (cspace : CapabilitySpace) (handle : Handle) :
    Exit × Machine :=
  match m.kernel.caps.system.lookup cspace handle .endpoint Rights.read m.kernel.arena with
  | .error _ => (.refused, m)
  | .ok endpoint => m.receiveFrom current endpoint

/-- The server hands over to the caller it has answered. It keeps its priority for the callers that
are still queued. -/
def handOver (m : Machine) (current caller : ObjectId) (pendingCallers : ℕ) : Exit × Machine :=
  match m.kernel.threads.get current with
  | none => (.panics, m)
  | some t =>
    let k := if pendingCallers = 0 then m.kernel.setThread current t.restorePriority else m.kernel
    match k.reschedule current caller with
    | none => (.panics, m.setKernel k)
    | some k => (m.setKernel k).goOn caller

def reply (m : Machine) (current : ObjectId) (token : UInt64) (message : InlineMessage) :
    Exit × Machine :=
  match m.kernel.replied token message with
  | none => (.refused, m)
  | some (endpoint, caller, e) =>
    let k := m.kernel.setEndpoint endpoint e
    let k :=
      match k.threads.get caller with
      | none => k
      | some t => (k.setThread caller { t with ipcReceiveBuffer := some message }).wakeThread caller
    (m.setKernel k).handOver current caller e.pendingCallerCount

end Machine

/-! ## Runs -/

/-- A system call of the current thread, or the timer. -/
inductive IpcOp
  | call (handle : Handle) (message : InlineMessage)
  | receive (handle : Handle)
  | reply (token : UInt64) (message : InlineMessage)
  | deleteHandle (handle : Handle)
  | terminate (processHandle : Handle) (status : UInt64)
  | reap (processHandle : Handle) (reserved : Bool)
  /-- The quantum of the current thread has run out. -/
  | timer

namespace Machine

variable (mapper : Mapper)

/-- Who makes a system call: the current thread and its space, unless its process is on its way
out. -/
def caller (m : Machine) : Except Status (ObjectId × ObjectId) :=
  match m.kernel.scheduler.currentThread with
  | none => .error .internalError
  | some current =>
    if m.kernel.isDenied current then .error .invalidArgument
    else
      match (m.kernel.threads.get current).bind Thread.cspace with
      | none => .error .internalError
      | some cspace => .ok (current, cspace)

/-- `timer_tick_and_maybe_preempt`, at the end of a quantum. -/
def timer (m : Machine) : Exit × Machine :=
  match m.kernel.scheduler.currentThread, m.kernel.scheduler.nextRunnable with
  | some current, some next =>
    match m.kernel.reschedule current next with
    | none => (.returns (.ok 0), m)
    | some k => (m.setKernel k).goOn next
  | _, _ => (.returns (.ok 0), m)

/-- A call that neither blocks nor switches. -/
def returning (m : Machine) (r : Outcome × Kernel) : Exit × Machine :=
  (.returns r.1, m.setKernel r.2)

def invoke (m : Machine) (f : ObjectId → ObjectId → Exit × Machine) : Exit × Machine :=
  match m.caller with
  | .error status => (.returns (.fail status), m)
  | .ok (current, cspace) => f current cspace

/-- The operations on handles look the space of the caller up. -/
def invokeIn (m : Machine) (f : ObjectId → ObjectId → CapabilitySpace → Exit × Machine) :
    Exit × Machine :=
  m.invoke fun current cspaceId ↦
    match m.kernel.caps.spaces.get cspaceId with
    | none => (.refused, m)
    | some cspace => f current cspaceId cspace

def perform (m : Machine) : IpcOp → Exit × Machine
  | .call handle message => m.invokeIn fun current _ cspace ↦ m.call current cspace handle message
  | .receive handle => m.invokeIn fun current _ cspace ↦ m.receive current cspace handle
  | .reply token message => m.invokeIn fun current _ _ ↦ m.reply current token message
  | .deleteHandle handle =>
    m.invokeIn fun _ cspaceId _ ↦ m.returning (m.kernel.deleteHandle mapper cspaceId handle)
  | .terminate processHandle status =>
    m.invoke fun _ cspaceId ↦ m.returning (m.kernel.terminate cspaceId processHandle status)
  | .reap processHandle reserved =>
    m.invoke fun _ cspaceId ↦
      m.returning (m.kernel.reap mapper ⟨cspaceId, processHandle, reserved⟩)
  | .timer => m.timer

end Machine

end Gaxera

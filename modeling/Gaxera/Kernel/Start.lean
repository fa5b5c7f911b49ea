import Gaxera.Core.Scheduler
import Gaxera.Kernel.Process

/-!
# Starting a process

`Start` advances three state machines: the main thread becomes runnable, the scheduler queues it,
and the process becomes runnable. The queue comes first, so that a half-started process is never
seen, and is meant to be rolled back when the process refuses. It is not: whether the main thread
has been configured is asked between the two, and that exit leaves the thread in the queue.

## When it is atomic

That exit is the only one behind the first change. A prepared process with its main thread
configured cannot refuse, so the rollback itself is never used, and every other failure comes before
the queue.
-/

namespace Gaxera

namespace Kernel

/-- The main thread is queued. -/
def queued (k : Kernel) (scheduler : Scheduler) (threadId : ObjectId) (thread : Thread) : Kernel :=
  { k with
    scheduler := scheduler
    threads := k.threads.modify threadId fun _ ↦ thread }

/-- `Start` behind the queue. -/
def finishStart (k : Kernel) (id threadId : ObjectId) : Outcome × Kernel :=
  match k.processes.get id with
  | none => (.fail .invalidHandle, k)
  | some process =>
    -- The thread is queued by now, and stays queued here.
    if process.mainThreadConfigured = false then (.fail .invalidArgument, k)
    else
      match process.makeRunnable with
      | none =>
        (.fail .invalidArgument, { k with scheduler := (k.scheduler.removeThread threadId).2 })
      | some process => (.ok 0, { k with processes := k.processes.modify id fun _ ↦ process })

/-- `ProcessControl` with `Start`. -/
def start (k : Kernel) (cspace : ObjectId) (processHandle : Handle) : Outcome × Kernel :=
  match k.controlledProcess cspace processHandle with
  | .error status => (.fail status, k)
  | .ok (id, process) =>
    match process.mainThread with
    | none => (.fail .invalidHandle, k)
    | some threadId =>
      match k.threads.get threadId with
      | none => (.fail .invalidHandle, k)
      | some thread =>
        if process.state ≠ .prepared then (.fail .invalidArgument, k)
        else
          match k.scheduler.enqueue thread with
          | .error _ => (.fail .resourceExhausted, k)
          | .ok (scheduler, thread) =>
            (k.queued scheduler threadId thread).finishStart id threadId

/-- The thread table is keyed by the identities of the threads, and the count of the scheduler
counts its queues. -/
structure Schedulable (k : Kernel) : Prop where
  ids : ∀ id t, k.threads.get id = some t → t.id = id
  scheduler : k.scheduler.Coherent
  count : k.scheduler.count = k.scheduler.ready.length

/-- The states that `Start` advances are as they were. -/
structure SameStates (k k' : Kernel) : Prop where
  scheduler : k'.scheduler = k.scheduler
  threads : ∀ id, k'.threads.get id = k.threads.get id
  processes : ∀ id, k'.processes.get id = k.processes.get id

/-- The process that a call names is started: its main thread is queued once, and both are
runnable. -/
def Started (k : Kernel) (cspace : ObjectId) (processHandle : Handle) (k' : Kernel) : Prop :=
  ∃ id process threadId, k.controlledProcess cspace processHandle = .ok (id, process)
    ∧ process.mainThread = some threadId
    ∧ (k'.threads.get threadId).map Thread.state = some .runnable
    ∧ k'.scheduler.ready.count threadId = 1
    ∧ (k'.processes.get id).map Process.state = some .runnable

/-- A failure changes nothing, and a success starts the process. -/
def StartAtomic (k : Kernel) (cspace : ObjectId) (processHandle : Handle) : Prop :=
  match k.start cspace processHandle with
  | (.ok _, k') => k.Started cspace processHandle k'
  | (_, k') => k.SameStates k'

/-- A prepared process that has not been configured, although its main thread could be queued. -/
def startsUnconfigured (k : Kernel) (cspace : ObjectId) (processHandle : Handle) : Bool :=
  match k.controlledProcess cspace processHandle with
  | .error _ => false
  | .ok (_, process) =>
    decide (process.state = .prepared) && !process.mainThreadConfigured
      && (process.mainThread.bind k.threads.get).any k.scheduler.accepts

section

variable {k : Kernel} {cspace : ObjectId} {processHandle : Handle}

/-- **The three ways of a start**: it fails at once, it fails with the thread queued, or it
succeeds. -/
theorem start_cases (k : Kernel) (cspace : ObjectId) (processHandle : Handle) :
    (∃ status, k.start cspace processHandle = (.fail status, k)
        ∧ k.startsUnconfigured cspace processHandle = false)
    ∨ ∃ id process threadId thread scheduler thread',
      k.controlledProcess cspace processHandle = .ok (id, process) ∧ process.state = .prepared
      ∧ process.mainThread = some threadId ∧ k.threads.get threadId = some thread
      ∧ k.scheduler.enqueue thread = .ok (scheduler, thread')
      ∧ ((process.mainThreadConfigured = false
            ∧ k.start cspace processHandle
              = (.fail .invalidArgument, k.queued scheduler threadId thread')
            ∧ k.startsUnconfigured cspace processHandle = true)
        ∨ (k.start cspace processHandle
              = (.ok 0, { k.queued scheduler threadId thread' with
                  processes := k.processes.modify id fun _ ↦ { process with state := .runnable } })
            ∧ k.startsUnconfigured cspace processHandle = false)) := by
  rw [start, startsUnconfigured]
  cases hprocess : k.controlledProcess cspace processHandle with
  | error status => exact .inl ⟨status, rfl, rfl⟩
  | ok r =>
    obtain ⟨id, process⟩ := r
    dsimp only
    cases hmain : process.mainThread with
    | none => exact .inl ⟨_, rfl, by simp⟩
    | some threadId =>
      rw [Option.bind_some]
      cases hthread : k.threads.get threadId with
      | none => exact .inl ⟨.invalidHandle, by simp only [hthread], by simp⟩
      | some thread =>
        simp only [Option.any_some]
        by_cases hstate : process.state = .prepared
        · cases henqueue : k.scheduler.enqueue thread with
          | error e =>
            have hno : k.scheduler.accepts thread = false := by
              rw [← Bool.not_eq_true, Scheduler.accepts_iff]
              rintro ⟨r, hr⟩
              cases henqueue.symm.trans hr
            exact .inl ⟨.resourceExhausted, by simp [hthread, hstate, henqueue], by simp [hno]⟩
          | ok r =>
            obtain ⟨scheduler, thread'⟩ := r
            have hyes : k.scheduler.accepts thread = true := Scheduler.accepts_iff.mpr ⟨_, henqueue⟩
            refine .inr ⟨id, process, threadId, thread, scheduler, thread', rfl, hstate, hmain,
              hthread, henqueue, ?_⟩
            have hget := get_of_controlledProcess hprocess
            cases hconfigured : process.mainThreadConfigured with
            | false =>
              refine .inl ⟨rfl, ?_, by simp [hstate, hyes]⟩
              simp only [hthread, henqueue, hstate, ne_eq, not_true_eq_false, if_false]
              rw [finishStart, show (k.queued scheduler threadId thread').processes.get id = _
                from hget]
              simp only [hconfigured, if_true]
            | true =>
              refine .inr ⟨?_, by simp⟩
              simp only [hthread, henqueue, hstate, ne_eq, not_true_eq_false, if_false]
              rw [finishStart, show (k.queued scheduler threadId thread').processes.get id = _
                from hget]
              simp [hconfigured, hstate, Process.makeRunnable, queued]
        · exact .inl ⟨.invalidArgument, by simp [hthread, hstate], by simp [hstate]⟩

/-- **Starting is atomic** except for a prepared process that has not been configured and whose main
thread the scheduler accepts. -/
theorem start_atomic_iff (h : k.Schedulable) :
    k.StartAtomic cspace processHandle ↔ k.startsUnconfigured cspace processHandle = false := by
  rw [StartAtomic]
  rcases k.start_cases cspace processHandle with
    ⟨status, heq, hno⟩ | ⟨id, process, threadId, thread, scheduler, thread', hprocess, -,
      hmain, hget,
      henqueue, ⟨-, heq, hyes⟩ | ⟨heq, hno⟩⟩
  · rw [heq, hno]
    exact iff_of_true ⟨rfl, fun _ ↦ rfl, fun _ ↦ rfl⟩ rfl
  · rw [heq, hyes]
    refine iff_of_false (fun hsame ↦ ?_) (by decide)
    obtain ⟨-, hready, -, hperm⟩ := h.scheduler.enqueue h.count henqueue
    -- The queues have grown by the thread.
    have hscheduler : scheduler = k.scheduler := hsame.scheduler
    rw [hscheduler] at hperm
    exact hready (hperm.mem_iff.mpr List.mem_cons_self)
  · rw [heq, hno]
    refine iff_of_true ⟨id, process, threadId, hprocess, hmain, ?_, ?_, ?_⟩ rfl
    · obtain ⟨rfl, -, -, -⟩ := h.scheduler.enqueue h.count henqueue
      change ((k.threads.modify threadId _).get threadId).map Thread.state = _
      rw [Registry.get_modify, if_pos rfl, hget]
      rfl
    · obtain ⟨-, hready, -, hperm⟩ := h.scheduler.enqueue h.count henqueue
      rw [h.ids threadId thread hget] at hready hperm
      refine (hperm.count_eq threadId).trans ?_
      rw [List.count_cons_self, List.count_eq_zero_of_not_mem hready]
    · change ((k.processes.modify id _).get id).map Process.state = _
      rw [Registry.get_modify, if_pos rfl, get_of_controlledProcess hprocess]
      rfl

end

/-! ## A process that has not been configured -/

def preparedObjects : ObjectArena :=
  ⟨[⟨1, .live .resourceDomain ⟨⟨0, 1⟩⟩⟩, ⟨1, .live .capabilitySpace ⟨⟨0, 1⟩⟩⟩,
    ⟨1, .live .capabilitySpace ⟨⟨0, 1⟩⟩⟩, ⟨1, .live .process ⟨⟨0, 1⟩⟩⟩,
    ⟨1, .live .thread ⟨⟨0, 1⟩⟩⟩], 8, none⟩

/-- A prepared process with a new main thread, and a supervisor that may manage it. -/
def preparedKernel (configured : Bool) : Kernel :=
  { bare (CapState.twoSpaces.run
        [.insertRoot ⟨1, 1⟩ ⟨0, 1⟩ ⟨3, 1⟩ .process Rights.manage preparedObjects])
      preparedObjects ⟨[], [], 0⟩ with
    processes := Registry.empty.insert ⟨3, 1⟩
      { Process.new ⟨3, 1⟩ ⟨⟨0, 1⟩⟩ with
        state := .prepared
        mainThread := some ⟨4, 1⟩
        mainThreadConfigured := configured }
    threads := Registry.empty.insert ⟨4, 1⟩ (Thread.new ⟨4, 1⟩ none ⟨0, []⟩) }

theorem preparedKernel_schedulable (configured : Bool) :
    (preparedKernel configured).Schedulable where
  ids := by
    intro id t ht
    simp only [preparedKernel, Registry.get_insert, Registry.get_empty] at ht
    grind [Thread.new]
  scheduler := by
    refine ⟨rfl, fun p q hq ↦ ?_,
      (by decide : (List.replicate 32 ([] : List ObjectId)).flatten.Nodup)⟩
    obtain ⟨-, rfl⟩ := List.mem_replicate.mp (List.mem_of_getElem? hq)
    simp [preparedKernel, bare]
  count := rfl

theorem start_atomic_of_configured :
    (preparedKernel true).StartAtomic ⟨1, 1⟩ (Handle.fromParts 0 1) :=
  (start_atomic_iff (preparedKernel_schedulable true)).mpr (by decide +kernel)

/-- **Not configured.** The call fails, and the thread is queued. -/
theorem start_fails_with_thread_queued :
    ((preparedKernel false).start ⟨1, 1⟩ (Handle.fromParts 0 1)).1 = .fail .invalidArgument
    ∧ (preparedKernel false).scheduler.ready = []
    ∧ ((preparedKernel false).start ⟨1, 1⟩ (Handle.fromParts 0 1)).2.scheduler.ready = [⟨4, 1⟩]
    ∧ (((preparedKernel false).start ⟨1, 1⟩ (Handle.fromParts 0 1)).2.threads.get ⟨4, 1⟩).map
        Thread.state = some .runnable := by
  decide +kernel

end Kernel

end Gaxera

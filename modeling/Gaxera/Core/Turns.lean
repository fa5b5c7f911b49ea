import Gaxera.Core.Dispatch
import Mathlib.Data.Finset.Card

/-!
# Runs of one scheduler

The scheduler and the thread states are changed by different functions, so a run is over both: a
board has the scheduler and a table of threads, and each operation comes with what its caller does
to the threads. `Stepped` says what one operation does to a board, and everything that is claimed of
runs follows from it.

A chronicle notes for every thread when it last joined a queue and at which end.
-/

namespace Gaxera

open Scheduler Function

/-- What becomes of a thread that is taken off the CPU by an operation that does not say. -/
inductive Leaving
  | untouched
  | runnable
  | blocked
deriving DecidableEq, Repr

def Thread.leaving (t : Thread) : Leaving → Thread
  | .untouched => t
  | .runnable => t.makeRunnable.getD t
  | .blocked => t.makeBlocked.getD t

theorem Thread.leaving_eq (t : Thread) (left : Leaving) :
    ∃ x, t.leaving left = { t with state := x } := by
  cases left with
  | untouched => exact ⟨t.state, rfl⟩
  | runnable =>
    rw [leaving, makeRunnable]
    split
    all_goals first | exact ⟨.runnable, rfl⟩ | exact ⟨t.state, rfl⟩
  | blocked =>
    rw [leaving, makeBlocked]
    split
    · exact ⟨.blocked, rfl⟩
    · exact ⟨t.state, rfl⟩

/-- A scheduler, and the threads it is used with. -/
structure Board where
  scheduler : Scheduler
  threads : ObjectId → Thread
  named : ∀ id, (threads id).id = id

/-- The operations of a scheduler, each with what its caller does to the threads. Priorities are
changed between them. -/
inductive SchedulerOp
  | enqueue (thread : ObjectId)
  | dequeueNext (left : Leaving)
  | popStealableWork (affinityChecker : ObjectId → Bool)
  | removeThread (thread : ObjectId) (left : Leaving)
  | commitYield (current next : ObjectId) (runs : Bool)
  | commitYieldWithPriority (current : ObjectId) (prio : ℕ) (next : ObjectId) (runs : Bool)
  | blockCurrent (thread : ObjectId)
  | applyWake (thread : ObjectId)
  | setPriority (thread : ObjectId) (effective : ℕ)

namespace SchedulerOp

/-- The threads an operation is given. -/
def names : SchedulerOp → List ObjectId
  | enqueue thread | removeThread thread _ | blockCurrent thread | applyWake thread
  | setPriority thread _ => [thread]
  | commitYield current next _ | commitYieldWithPriority current _ next _ => [current, next]
  | dequeueNext _ | popStealableWork _ => []

def isWake : SchedulerOp → Bool
  | applyWake _ => true
  | _ => false

/-- The priority by which a thread is queued: its own, except where it yields. -/
def prio (priority : ObjectId → ℕ) : SchedulerOp → ObjectId → ℕ
  | commitYield current _ _ => update priority current 0
  | commitYieldWithPriority current prio _ _ => update priority current prio
  | _ => priority

end SchedulerOp

namespace Board

def state (b : Board) (id : ObjectId) : ThreadState := (b.threads id).state

def priority (b : Board) (id : ObjectId) : ℕ := (b.threads id).effectivePriority

def put (b : Board) (t : Thread) : Board where
  scheduler := b.scheduler
  threads := update b.threads t.id t
  named id := by
    by_cases hid : id = t.id
    · rw [hid, update_self]
    · rw [update_of_ne hid, b.named]

/-- The thread on the CPU leaves it. -/
def vacate (b : Board) (left : Leaving) : Board :=
  match b.scheduler.currentThread with
  | none => b
  | some id => b.put ((b.threads id).leaving left)

def makeRunning (b : Board) (id : ObjectId) : Board :=
  b.put ((b.threads id).makeRunning.getD (b.threads id))

def makeRunnable (b : Board) (id : ObjectId) : Board :=
  b.put ((b.threads id).makeRunnable.getD (b.threads id))

/-- The current thread goes to a queue and is runnable; whether the next one is made running at once
is up to the caller. -/
def yield (b : Board) (current : ObjectId) (prio : ℕ) (next : ObjectId) (runs : Bool) :
    Except SchedulerError Unit × Board :=
  match b.scheduler.commitYieldWithPriority current prio next with
  | (.error e, s) => (.error e, { b with scheduler := s })
  | (.ok (), s) =>
    let b := makeRunnable { b with scheduler := s } current
    (.ok (), if runs then b.makeRunning next else b)

def exec (b : Board) : SchedulerOp → Except SchedulerError Unit × Board
  | .enqueue id =>
    match b.scheduler.enqueue (b.threads id) with
    | .error e => (.error e, b)
    | .ok (s, thread) => (.ok (), put { b with scheduler := s } thread)
  | .dequeueNext left =>
    match b.scheduler.dequeueNext with
    | (none, s) => (.ok (), { b with scheduler := s })
    | (some next, s) =>
      (.ok (), { (b.vacate left).makeRunning next with
        scheduler := { s with currentThread := some next } })
  | .popStealableWork affinityChecker =>
    (.ok (), { b with scheduler := (b.scheduler.popStealableWork affinityChecker).2 })
  | .removeThread id left =>
    let s := (b.scheduler.removeThread id).2
    if b.scheduler.currentThread = some id then (.ok (), { b.vacate left with scheduler := s })
    else (.ok (), { b with scheduler := s })
  | .commitYield current next runs => b.yield current 0 next runs
  | .commitYieldWithPriority current prio next runs => b.yield current prio next runs
  | .blockCurrent id =>
    match b.scheduler.tryBlockCurrent (b.threads id) with
    | (.error e, s, thread) => (.error e, put { b with scheduler := s } thread)
    | (.ok _, s, thread) => (.ok (), put { b with scheduler := s } thread)
  | .applyWake id =>
    match b.scheduler.tryApplyWake (b.threads id) with
    | (r, s, thread) => (r, put { b with scheduler := s } thread)
  | .setPriority id effective =>
    (.ok (), b.put { b.threads id with effectivePriority := effective })

/-! ## One operation -/

section

variable {b b' : Board} {op : SchedulerOp} {id : ObjectId}

@[simp] theorem scheduler_put (t : Thread) : (b.put t).scheduler = b.scheduler := rfl

@[simp] theorem state_put (t : Thread) :
    (b.put t).state = update b.state t.id t.state := by
  funext id
  change (update b.threads t.id t id).state = _
  by_cases hid : id = t.id
  · rw [hid, update_self, update_self]
  · rw [update_of_ne hid, update_of_ne hid, state]

theorem state_put_same {t : Thread} (hid : t.id = id) (hstate : t.state = b.state id) :
    (b.put t).state = b.state := by
  rw [state_put, hid, hstate]
  exact update_eq_self id b.state

theorem state_makeRunning (h : b.state id = .runnable) :
    (b.makeRunning id).state = update b.state id .running := by
  have hthread : (b.threads id).makeRunning = some { b.threads id with state := .running } := by
    have : (b.threads id).state = .runnable := h
    simp [Thread.makeRunning, this]
  rw [makeRunning, hthread, Option.getD_some, state_put]
  exact congrArg (update b.state · _) (b.named id)

theorem state_makeRunnable (h : b.state id = .running ∨ b.state id = .runnable) :
    (b.makeRunnable id).state = update b.state id .runnable := by
  have hthread : (b.threads id).makeRunnable = some { b.threads id with state := .runnable } := by
    rcases h with h | h
    all_goals
      have : (b.threads id).state = _ := h
      simp [Thread.makeRunnable, this]
  rw [makeRunnable, hthread, Option.getD_some, state_put]
  exact congrArg (update b.state · _) (b.named id)

/-- Who is on the CPU may be left in any state, and nobody else is touched. -/
theorem state_vacate (left : Leaving) :
    (b.vacate left).state = b.state
    ∨ ∃ id x, b.scheduler.currentThread = some id
      ∧ (b.vacate left).state = update b.state id x := by
  rw [vacate]
  cases hcurrent : b.scheduler.currentThread with
  | none => exact .inl rfl
  | some id =>
    obtain ⟨x, hleft⟩ := (b.threads id).leaving_eq left
    refine .inr ⟨id, x, rfl, ?_⟩
    simp only [hleft, state_put, b.named]

/-- A thread has a place in the scheduler. -/
def Placed (b : Board) (id : ObjectId) : Prop :=
  id ∈ b.scheduler.ready ∨ b.scheduler.currentThread = some id

/-- **What one operation does.** -/
structure Stepped (b : Board) (op : SchedulerOp) (r : Except SchedulerError Unit) (b' : Board) :
    Prop where
  agrees : b'.scheduler.Agrees b'.state
  drifts : b.scheduler.Drifts op.isWake (op.prio b.priority) b'.scheduler
  capacity : b'.scheduler.capacity = b.scheduler.capacity
  refused : ∀ e, r = .error e → b'.scheduler.queues = b.scheduler.queues
  placed : ∀ id, b'.Placed id → b.Placed id ∨ id ∈ op.names

section Steps

variable (h : b.scheduler.Agrees b.state)
include h

attribute [local simp] exec

theorem Stepped.unchanged (op : SchedulerOp)
    (r : Except SchedulerError Unit) (hscheduler : b'.scheduler = b.scheduler)
    (hstate : b'.state = b.state) : b.Stepped op r b' where
  agrees := by
    rw [hscheduler, hstate]
    exact h
  drifts := (Scheduler.Thins.of_queues_eq (by rw [hscheduler])).drifts _ _
  capacity := by rw [hscheduler]
  refused _ _ := by rw [hscheduler]
  placed id hid := by
    rw [Placed, hscheduler] at hid
    exact .inl hid

theorem Stepped.joins (id : ObjectId)
    (hscheduler : b'.scheduler = b.scheduler.push (min (op.prio b.priority id) (priorityLevels - 1))
      (placing op.isWake id))
    (hstate : b'.state = update b.state id .runnable) (hready : id ∉ b.scheduler.ready)
    (hcurrent : b.scheduler.currentThread ≠ some id)
    (hroom : b.scheduler.count < b.scheduler.capacity) (hid : id ∈ op.names) :
    b.Stepped op (.ok ()) b' := by
  have hperm := perm_placing op.isWake id
  refine ⟨?_, ?_, by rw [hscheduler]; rfl, nofun, fun j hj ↦ ?_⟩
  · rw [hscheduler, hstate]
    exact h.push (prio_lt _) hperm hready hcurrent hroom
  · rw [hscheduler]
    exact (Scheduler.Thins.of_queues_eq rfl).drifts_push _ hready (op.prio b.priority)
  · obtain ⟨-, hqueued⟩ := h.toExact.push (prio_lt _) hperm hready hcurrent hroom
    rw [Placed, hscheduler, hqueued.mem_iff, List.mem_cons] at hj
    rcases hj with (rfl | hj) | hj
    · exact .inr hid
    · exact .inl (Or.inl hj)
    · exact .inl (Or.inr hj)

theorem stepped_enqueue (id : ObjectId) :
    b.Stepped (.enqueue id) (b.exec (.enqueue id)).1 (b.exec (.enqueue id)).2 := by
  have hid := b.named id
  rcases h.toExact.enqueue_cases (b.threads id) with ⟨e, heq, -⟩ | ⟨hready, hcurrent, hroom, heq⟩
  · rw [exec, heq]
    exact .unchanged h _ _ rfl rfl
  · rw [exec, heq]
    rw [hid] at hready hcurrent
    refine .joins h id ?_ ?_ hready hcurrent hroom
      (List.mem_singleton_self id)
    · rw [hid]
      rfl
    · simp only [state_put, hid]
      rfl

theorem stepped_applyWake (id : ObjectId) :
    b.Stepped (.applyWake id) (b.exec (.applyWake id)).1 (b.exec (.applyWake id)).2 := by
  have hid := b.named id
  rcases b.scheduler.tryApplyWake_cases (b.threads id) with
    ⟨r, heq, -, -⟩ | ⟨hroom, hblocked, heq⟩
  · rw [exec, heq]
    exact .unchanged h _ _ rfl (state_put_same hid rfl)
  · rw [exec, heq]
    -- Nothing in the source checks that it is not queued: its state tells.
    obtain ⟨hready, hcurrent⟩ := h.apart_of_blocked (show b.state id = .blocked from hblocked)
    refine .joins h id ?_ ?_ hready hcurrent hroom
      (List.mem_singleton_self id)
    · rw [hid]
      rfl
    · simp only [state_put, hid]
      rfl

theorem stepped_blockCurrent (id : ObjectId) :
    b.Stepped (.blockCurrent id) (b.exec (.blockCurrent id)).1 (b.exec (.blockCurrent id)).2 := by
  have hid := b.named id
  rcases b.scheduler.tryBlockCurrent_cases (b.threads id) with
    ⟨e, heq⟩ | ⟨hcurrent, -, heq⟩
  · rw [exec, heq]
    exact .unchanged h _ _ rfl (state_put_same hid rfl)
  · rw [exec, heq]
    rw [hid] at hcurrent
    refine ⟨?_, (Scheduler.Thins.of_queues_eq rfl).drifts _ _, rfl, nofun, fun j hj ↦ ?_⟩
    · simp only [scheduler_put, state_put, hid]
      exact h.clear.restate (h.apart id hcurrent) nofun
    · exact .inl (hj.imp_right nofun)

theorem stepped_popStealableWork
    (affinityChecker : ObjectId → Bool) :
    b.Stepped (.popStealableWork affinityChecker) (b.exec (.popStealableWork affinityChecker)).1
      (b.exec (.popStealableWork affinityChecker)).2 := by
  rcases b.scheduler.popStealableWork_cases affinityChecker with heq | ⟨p, q, tid, hq, hfind, heq⟩
  · rw [exec, heq]
    exact .unchanged h _ _ rfl rfl
  · rw [exec, heq]
    obtain ⟨hagrees, -⟩ := h.leave hq (List.mem_of_find?_eq_some hfind)
    have hthins := thins_leave hq tid
    exact ⟨hagrees, hthins.drifts _ _, rfl, nofun, fun j hj ↦ .inl (hj.imp_left hthins.mem_ready)⟩

theorem stepped_removeThread (id : ObjectId) (left : Leaving) :
    b.Stepped (.removeThread id left) (b.exec (.removeThread id left)).1
      (b.exec (.removeThread id left)).2 := by
  rcases h.coherent.removeThread_cases id with ⟨hcurrent, heq⟩ | ⟨hcurrent, p, q, hq, hid, heq⟩
    | ⟨hcurrent, -, heq⟩
  · rw [exec, heq]
    simp only [if_pos hcurrent]
    refine ⟨?_, (Scheduler.Thins.of_queues_eq rfl).drifts _ _, rfl, nofun, fun j hj ↦ ?_⟩
    · change Agrees _ (b.vacate left).state
      rcases state_vacate (b := b) left with hstate | ⟨j, x, hj, hstate⟩
      · rw [hstate]
        exact h.clear
      · rw [hstate]
        exact h.clear.restate (h.apart j hj) nofun
    · exact .inl (hj.imp_right nofun)
  · rw [exec, heq]
    simp only [if_neg hcurrent]
    obtain ⟨hagrees, -⟩ := h.leave hq hid
    have hthins := thins_leave hq id
    exact ⟨hagrees, hthins.drifts _ _, rfl, nofun, fun j hj ↦ .inl (hj.imp_left hthins.mem_ready)⟩
  · rw [exec, heq]
    simp only [if_neg hcurrent]
    exact .unchanged h _ _ rfl rfl

theorem stepped_dequeueNext (left : Leaving) :
    b.Stepped (.dequeueNext left) (b.exec (.dequeueNext left)).1
      (b.exec (.dequeueNext left)).2 := by
  rcases h.coherent.dequeueNext_cases with ⟨-, heq, -⟩ | ⟨p, next, rest, hq, -, heq, -⟩
  · rw [exec, heq]
    exact .unchanged h _ _ rfl rfl
  · rw [exec, heq]
    have hmem : next ∈ b.scheduler.ready :=
      List.mem_flatten.mpr ⟨_, List.mem_of_getElem? hq, List.mem_cons_self⟩
    obtain ⟨hagrees, hnext⟩ := h.leave hq List.mem_cons_self
    have hthins := thins_leave hq next
    rw [List.erase_cons_head] at hagrees hnext hthins
    refine ⟨?_, hthins.drifts _ _, rfl, nofun, fun j hj ↦ ?_⟩
    · -- Who was on the CPU is not queued, so any state will do for it.
      obtain ⟨hvacated, hrunnable⟩ :
          ({ b.scheduler.leave p rest with currentThread := none } : Scheduler).Agrees
            (b.vacate left).state ∧ (b.vacate left).state next = .runnable := by
        rcases state_vacate (b := b) left with hstate | ⟨j, x, hj, hstate⟩
        · rw [hstate]
          exact ⟨hagrees.clear, h.queued next hmem⟩
        · have hne : next ≠ j := fun heq ↦ h.apart j hj (heq ▸ hmem)
          rw [hstate, update_of_ne hne]
          exact ⟨hagrees.clear.restate (fun hj' ↦ h.apart j hj (hthins.mem_ready hj')) nofun,
            h.queued next hmem⟩
      change Agrees _ ((b.vacate left).makeRunning next).state
      rw [state_makeRunning hrunnable]
      exact (hvacated.restate hnext nofun).dispatch hnext (Or.inl (update_self ..))
    · refine .inl (Or.inl ?_)
      rcases hj with hj | hj
      · exact hthins.mem_ready hj
      · exact Option.some.inj hj ▸ hmem

theorem stepped_setPriority (id : ObjectId) (effective : ℕ) :
    b.Stepped (.setPriority id effective) (b.exec (.setPriority id effective)).1
      (b.exec (.setPriority id effective)).2 :=
  .unchanged h _ _ rfl (state_put_same (b.named id) rfl)

theorem stepped_yield {current next : ObjectId}
    (prio : ℕ) (runs : Bool) (hnames : op.names = [current, next]) (hop : op.isWake = false)
    (hprio : op.prio b.priority current = prio) :
    b.Stepped op (b.yield current prio next runs).1 (b.yield current prio next runs).2 := by
  rcases h.toExact.commitYieldWithPriority_cases current prio next with
    ⟨e, heq⟩ | ⟨p, rest, hq, -, hcurrent, heq⟩
  · rw [yield, heq]
    exact .unchanged h _ _ rfl rfl
  · rw [yield, heq]
    have hmem : next ∈ b.scheduler.ready :=
      List.mem_flatten.mpr ⟨_, List.mem_of_getElem? hq, List.mem_cons_self⟩
    have hapart := h.apart current hcurrent
    have hne : next ≠ current := fun heq ↦ hapart (heq ▸ hmem)
    obtain ⟨hagrees, hnext⟩ := h.leave hq List.mem_cons_self
    obtain ⟨-, hperm⟩ := h.toExact.leave hq List.mem_cons_self
    have hthins := thins_leave hq next
    rw [List.erase_cons_head] at hagrees hnext hthins hperm
    have hout : current ∉ (b.scheduler.leave p rest).ready :=
      fun hin ↦ hapart (hthins.mem_ready hin)
    have hroom : (b.scheduler.leave p rest).count < (b.scheduler.leave p rest).capacity := by
      have hlength := hperm.length_eq
      rw [← h.counted, List.length_cons, ← hagrees.counted] at hlength
      exact Nat.lt_of_lt_of_le (Nat.lt_of_succ_le hlength.ge) h.bounded
    have hplace := perm_placing false current
    have hpushed := hagrees.clear.push (prio_lt prio) hplace hout nofun hroom
    obtain ⟨-, hqueued⟩ :=
      hagrees.clear.toExact.push (prio_lt prio) hplace hout nofun hroom
    have hstill : next ∉ (({ b.scheduler.leave p rest with currentThread := none } : Scheduler).push
        (min prio (priorityLevels - 1)) (placing false current)).ready := by
      rw [hqueued.mem_iff, List.mem_cons, not_or]
      exact ⟨hne, hnext⟩
    have hrunnable : update b.state current .runnable next = .runnable := by
      rw [update_of_ne hne]
      exact h.queued next hmem
    have hdispatched := hpushed.dispatch hstill (Or.inr hrunnable)
    have hstate : (makeRunnable { b with scheduler :=
          { (b.scheduler.leave p rest).push (min prio (priorityLevels - 1))
              (fun q ↦ q ++ [current]) with
            currentThread := some next } } current).state
        = update b.state current .runnable :=
      state_makeRunnable (h.current current hcurrent)
    refine ⟨?_, ?_, ?_, nofun, fun j hj ↦ ?_⟩
    · cases runs with
      | false => exact hstate ▸ hdispatched
      | true =>
        refine (state_makeRunning (hstate ▸ hrunnable)) ▸ ?_
        rw [hstate]
        exact hdispatched.restate hstill fun _ ↦ .inl rfl
    · have hdrifts := hthins.drifts_push false hapart (op.prio b.priority)
      rw [hprio] at hdrifts
      rw [hop]
      cases runs <;> exact hdrifts
    · cases runs <;> rfl
    · rw [hnames]
      have hj : j ∈ (({ b.scheduler.leave p rest with currentThread := none } : Scheduler).push
          (min prio (priorityLevels - 1)) (placing false current)).ready
          ∨ some next = some j := by
        cases runs <;> exact hj
      rw [hqueued.mem_iff, List.mem_cons] at hj
      rcases hj with (rfl | hj) | hj
      · exact .inr List.mem_cons_self
      · exact .inl (Or.inl (hthins.mem_ready hj))
      · exact .inl (Or.inl (Option.some.inj hj ▸ hmem))

/-- **The step lemma.** -/
theorem stepped_exec (op : SchedulerOp) :
    b.Stepped op (b.exec op).1 (b.exec op).2 := by
  cases op with
  | enqueue id => exact stepped_enqueue h id
  | dequeueNext left => exact stepped_dequeueNext h left
  | popStealableWork affinityChecker => exact stepped_popStealableWork h affinityChecker
  | removeThread id left => exact stepped_removeThread h id left
  | commitYield current next runs => exact stepped_yield h 0 runs rfl rfl (update_self ..)
  | commitYieldWithPriority current prio next runs =>
    exact stepped_yield h prio runs rfl rfl (update_self ..)
  | blockCurrent id => exact stepped_blockCurrent h id
  | applyWake id => exact stepped_applyWake h id
  | setPriority id effective => exact stepped_setPriority h id effective

end Steps

/-- **No room is ever lacking** for a thread that is not queued, with no more threads than places.
-/
theorem count_lt_capacity (h : b.scheduler.Exact) {threads : Finset ObjectId}
    (hthreads : ∀ j ∈ b.scheduler.ready, j ∈ threads) (hcard : threads.card ≤ b.scheduler.capacity)
    (hid : id ∈ threads) (hready : id ∉ b.scheduler.ready) :
    b.scheduler.count < b.scheduler.capacity := by
  have hnodup : (id :: b.scheduler.ready).Nodup := List.nodup_cons.mpr ⟨hready, h.coherent.nodup⟩
  have hsub : (id :: b.scheduler.ready).toFinset ⊆ threads := by
    intro j hj
    rcases List.mem_cons.mp (List.mem_toFinset.mp hj) with rfl | hj
    · exact hid
    · exact hthreads j hj
  have hle := Finset.card_le_card hsub
  rw [List.toFinset_card_of_nodup hnodup, List.length_cons, ← h.counted] at hle
  exact hle.trans hcard

theorem enqueue_ne_queueFull (h : b.scheduler.Exact)
    (hroom : id ∉ b.scheduler.ready → b.scheduler.count < b.scheduler.capacity) :
    (b.exec (.enqueue id)).1 ≠ .error .queueFull := by
  rw [exec]
  rcases h.enqueue_cases (b.threads id) with ⟨e, heq, hfull⟩ | ⟨-, -, -, heq⟩
  · rw [heq]
    intro he
    obtain ⟨hready, hcount⟩ := hfull (Except.error.inj he)
    exact Nat.not_le_of_lt (hroom (b.named id ▸ hready)) hcount
  · rw [heq]
    nofun

theorem applyWake_of_blocked (h : b.scheduler.Agrees b.state) (hblocked : b.state id = .blocked)
    (hroom : id ∉ b.scheduler.ready → b.scheduler.count < b.scheduler.capacity) :
    (b.exec (.applyWake id)).1 = .ok () := by
  rw [exec]
  rcases b.scheduler.tryApplyWake_cases (b.threads id) with ⟨r, -, -, hfull⟩ | ⟨-, -, heq⟩
  · exact absurd (hfull hblocked) (Nat.not_le_of_lt (hroom (h.apart_of_blocked hblocked).1))
  · rw [heq]

end

end Board

/-- A board, and for every thread how it last joined a queue, told by the number of operations
before. -/
structure Chronicle where
  board : Board
  time : ℕ
  joined : ObjectId → Joining

namespace Chronicle

def start (b : Board) : Chronicle := ⟨b, 0, fun _ ↦ .atEnd 0⟩

def step (c : Chronicle) (op : SchedulerOp) : Chronicle where
  board := (c.board.exec op).2
  time := c.time + 1
  joined := Scheduler.note c.joined c.board.scheduler (c.board.exec op).2.scheduler
    (Scheduler.arrival op.isWake c.time)

def run (c : Chronicle) (ops : List SchedulerOp) : Chronicle := ops.foldl step c

/-- What every run keeps. -/
structure Kept (capacity : ℕ) (c : Chronicle) : Prop where
  agrees : c.board.scheduler.Agrees c.board.state
  ordered : c.board.scheduler.Ordered c.joined
  earlier : ∀ id ∈ c.board.scheduler.ready, (c.joined id).time < c.time
  capacity : c.board.scheduler.capacity = capacity

variable {c : Chronicle} {capacity : ℕ}

theorem kept_start {b : Board} {reserved : Bool}
    (h : tryNew reserved capacity = .ok b.scheduler) : Kept capacity (start b) := by
  obtain ⟨hexact, hempty, hcurrent, hcapacity⟩ := exact_tryNew h
  refine ⟨⟨hexact, ?_, ?_⟩, fun p q hq ↦ ?_, ?_, hcapacity⟩
  · intro id hid
    exact absurd (hempty ▸ hid) List.not_mem_nil
  · intro id hid
    cases hcurrent.symm.trans hid
  · have hnil := List.flatten_eq_nil_iff.mp hempty q (List.mem_of_getElem? hq)
    rw [hnil]
    exact List.Pairwise.nil
  · intro id hid
    exact absurd (hempty ▸ hid) List.not_mem_nil

theorem Kept.step (h : Kept capacity c) (op : SchedulerOp) : Kept capacity (c.step op) := by
  have hstep := Board.stepped_exec h.agrees op
  exact ⟨hstep.agrees, h.ordered.drifts hstep.drifts h.earlier, time_note_lt h.earlier,
    hstep.capacity.trans h.capacity⟩

/-- **The run lemma.** -/
theorem Kept.run (h : Kept capacity c) (ops : List SchedulerOp) : Kept capacity (c.run ops) := by
  induction ops generalizing c with
  | nil => exact h
  | cons op ops ih => exact ih (h.step op)

theorem placed_run (h : Kept capacity c) {threads : Finset ObjectId}
    (hplaced : ∀ id, c.board.Placed id → id ∈ threads) {ops : List SchedulerOp}
    (hnames : ∀ op ∈ ops, ∀ id ∈ op.names, id ∈ threads) (id : ObjectId)
    (hid : (c.run ops).board.Placed id) : id ∈ threads := by
  induction ops generalizing c with
  | nil => exact hplaced id hid
  | cons op ops ih =>
    refine ih (h.step op) (fun j hj ↦ ?_) (fun op' hop' ↦ hnames op' (.tail _ hop')) hid
    rcases (Board.stepped_exec h.agrees op).placed j hj with hj | hj
    · exact hplaced j hj
    · exact hnames op (.head _) j hj

/-- **The scheduler over every run.** The word, the count and the capacity fit the queues, and
nobody is queued twice or while current. The next thread is the front of the highest queue that is
not empty, and it is ahead of all others there by how they joined; work is stolen in the same order.
A refused operation has not touched the queues. With no more threads than places, neither `enqueue`
nor the wake of a blocked thread is refused for want of room. -/
theorem run_represents_and_dispatches {b : Board} {reserved : Bool}
    (hnew : Scheduler.tryNew reserved capacity = .ok b.scheduler) (ops : List SchedulerOp) :
    let c := (start b).run ops
    let s := c.board.scheduler
    (s.queues.length = priorityLevels
      ∧ ∀ (p : ℕ) (q : List ObjectId), s.queues[p]? = some q →
        (s.activeBitmap.getLsbD p = true ↔ q ≠ []))
    ∧ (s.count = (s.queues.map List.length).sum ∧ s.count ≤ capacity)
    ∧ (s.queues.flatten.Nodup ∧ ∀ id, s.currentThread = some id → id ∉ s.queues.flatten)
    ∧ ((s.queues.flatten = [] ∧ s.nextRunnable = none ∧ s.dequeueNext.1 = none)
      ∨ ∃ (p : ℕ) (id : ObjectId) (rest : List ObjectId), s.queues[p]? = some (id :: rest)
        ∧ (∀ (p' : ℕ) (q' : List ObjectId), p < p' → s.queues[p']? = some q' → q' = [])
        ∧ s.nextRunnable = some id ∧ s.dequeueNext.1 = some id
        ∧ ∀ j ∈ rest, (c.joined id).Ahead (c.joined j))
    ∧ (∀ affinityChecker id, (s.popStealableWork affinityChecker).1 = some id →
      ∃ (p : ℕ) (q : List ObjectId), s.queues[p]? = some q ∧ id ∈ q ∧ affinityChecker id = true
        ∧ ∀ j ∈ q, affinityChecker j = true → j ≠ id → (c.joined id).Ahead (c.joined j))
    ∧ (∀ op e, (c.board.exec op).1 = .error e → (c.board.exec op).2.scheduler.queues = s.queues)
    ∧ ∀ threads : Finset ObjectId, threads.card ≤ capacity →
      (∀ op ∈ ops, ∀ id ∈ op.names, id ∈ threads) → ∀ id ∈ threads,
        (c.board.exec (.enqueue id)).1 ≠ .error .queueFull
        ∧ (c.board.state id = .blocked → (c.board.exec (.applyWake id)).1 = .ok ()) := by
  intro c s
  have hstart := kept_start hnew
  have hkept : Kept capacity c := hstart.run ops
  have hcoherent := hkept.agrees.coherent
  refine ⟨⟨hcoherent.levels, hcoherent.active⟩, ⟨?_, ?_⟩, ⟨hcoherent.nodup, hkept.agrees.apart⟩,
    ?_, ?_, ?_, ?_⟩
  · rw [hkept.agrees.counted, Scheduler.ready, List.length_flatten]
  · exact hkept.capacity ▸ hkept.agrees.bounded
  · rcases hcoherent.dequeueNext_cases with ⟨hempty, hdequeue, hnext⟩
      | ⟨p, id, rest, hq, habove, hdequeue, hnext⟩
    · exact .inl ⟨hempty, hnext, congrArg Prod.fst hdequeue⟩
    · refine .inr ⟨p, id, rest, hq, habove, hnext, congrArg Prod.fst hdequeue, fun j hj ↦ ?_⟩
      exact (hkept.ordered p _ hq).head hj
  · intro affinityChecker id hsteal
    rcases s.popStealableWork_cases affinityChecker with hnone | ⟨p, q, tid, hq, hfind, hsome⟩
    · cases hsteal.symm.trans (congrArg Prod.fst hnone)
    · obtain rfl : tid = id := Option.some.inj ((congrArg Prod.fst hsome).symm.trans hsteal)
      refine ⟨p, q, hq, List.mem_of_find?_eq_some hfind, List.find?_some hfind,
        fun j hj hchecked hne ↦ ?_⟩
      exact (hkept.ordered p q hq).find? hfind hj hchecked hne
  · exact fun op e hrefused ↦ (Board.stepped_exec hkept.agrees op).refused e hrefused
  · intro threads hcard hnames id hid
    have hplaced : ∀ j ∈ s.ready, j ∈ threads := by
      refine fun j hj ↦ placed_run hstart (fun j hj ↦ ?_) hnames j (Or.inl hj)
      obtain ⟨-, hempty, hcurrent, -⟩ := Scheduler.exact_tryNew hnew
      rcases hj with hj | hj
      · exact absurd (hempty ▸ hj) List.not_mem_nil
      · cases hcurrent.symm.trans hj
    have hroom := fun hready ↦ Board.count_lt_capacity (b := c.board) hkept.agrees.toExact hplaced
      (hkept.capacity ▸ hcard) hid hready
    exact ⟨Board.enqueue_ne_queueFull hkept.agrees.toExact hroom,
      fun hblocked ↦ Board.applyWake_of_blocked hkept.agrees hblocked hroom⟩

/-- A scheduler for two, and threads of every priority up to the fourth. -/
def twoPlaces : Board where
  scheduler := ⟨List.replicate priorityLevels [], 0, none, 2, 0⟩
  threads id := { Thread.new id none ⟨0, []⟩ with effectivePriority := id.index.toNat % 4 }
  named _ := rfl

/-- One thread yields to the other and blocks when its turn comes again. -/
def twoTurns : List SchedulerOp :=
  [.enqueue ⟨1, 1⟩, .dequeueNext .untouched, .enqueue ⟨2, 1⟩, .commitYield ⟨1, 1⟩ ⟨2, 1⟩ true,
    .blockCurrent ⟨2, 1⟩, .dequeueNext .untouched, .applyWake ⟨2, 1⟩]

theorem twoTurns_represent :
    Scheduler.tryNew true 2 = .ok twoPlaces.scheduler
    ∧ ((start twoPlaces).run twoTurns).board.scheduler.count ≤ 2
    ∧ ((start twoPlaces).run twoTurns).board.scheduler.nextRunnable = some ⟨2, 1⟩ :=
  ⟨rfl, (run_represents_and_dispatches
    (show Scheduler.tryNew true 2 = .ok twoPlaces.scheduler from rfl) twoTurns).2.1.2,
      by decide +kernel⟩

end Chronicle

end Gaxera

import Gaxera.Core.Turns

/-!
# Priorities over preemptions

A thread is queued by `enqueue`, by a wake, and by `reschedule` when it is preempted or yields. The
first two use its effective priority. The third calls `commit_yield`, which is
`commit_yield_with_priority` with the priority zero, so a preempted thread goes to the lowest queue
whatever its priority is, and everything that is runnable there and above goes before it.

A record keeps beside the board which threads have had their priority changed since they were
queued: the queues are not told of such a change. `Fair` is what the placement by effective priority
amounts to, and every operation keeps it with one proviso for each way it can be spoilt.
-/

namespace Gaxera

open Scheduler Function

namespace Scheduler

/-- A thread is in the queue of a priority. -/
def Seated (s : Scheduler) (p : ℕ) (id : ObjectId) : Prop := ∃ q, s.queues[p]? = some q ∧ id ∈ q

section

variable {s s' : Scheduler} {woken : Bool} {prio : ObjectId → ℕ} {p : ℕ} {id : ObjectId}

theorem mem_ready_iff_seated : id ∈ s.ready ↔ ∃ p, s.Seated p id := by
  rw [ready, List.mem_flatten]
  constructor
  · rintro ⟨q, hq, hid⟩
    obtain ⟨p, hp⟩ := List.mem_iff_getElem?.mp hq
    exact ⟨p, q, hp, hid⟩
  · rintro ⟨p, q, hq, hid⟩
    exact ⟨q, List.mem_of_getElem? hq, hid⟩

theorem Drifts.seated (h : s.Drifts woken prio s') (hseat : s'.Seated p id) :
    s.Seated p id ∨ (id ∉ s.ready ∧ p = min (prio id) (priorityLevels - 1)) := by
  obtain ⟨q', hq', hid⟩ := hseat
  obtain ⟨q, r, hq, hsub, rfl | ⟨j, hj, hp, rfl⟩⟩ := h p q' hq'
  · exact .inl ⟨q, hq, hsub.subset hid⟩
  · rcases List.mem_cons.mp ((perm_placing woken j r).mem_iff.mp hid) with rfl | hid
    · exact .inr ⟨hj, hp⟩
    · exact .inl ⟨q, hq, hsub.subset hid⟩

end

end Scheduler

/-! ## Priorities are changed by `setPriority` alone -/

namespace Board

section

variable {b : Board} {id : ObjectId}

theorem priority_put (t : Thread) :
    (b.put t).priority = update b.priority t.id t.effectivePriority := by
  funext id
  change (update b.threads t.id t id).effectivePriority = _
  by_cases hid : id = t.id
  · rw [hid, update_self, update_self]
  · rw [update_of_ne hid, update_of_ne hid, priority]

theorem priority_put_same {t : Thread} (hid : t.id = id)
    (hpriority : t.effectivePriority = b.priority id) : (b.put t).priority = b.priority := by
  rw [priority_put, hid, hpriority]
  exact update_eq_self id b.priority

theorem priority_makeRunning (id : ObjectId) : (b.makeRunning id).priority = b.priority := by
  refine priority_put_same (Eq.trans ?_ (b.named id)) ?_
  all_goals
    rw [Thread.makeRunning]
    split <;> rfl

theorem priority_makeRunnable (id : ObjectId) : (b.makeRunnable id).priority = b.priority := by
  refine priority_put_same (Eq.trans ?_ (b.named id)) ?_
  all_goals
    rw [Thread.makeRunnable]
    split <;> rfl

theorem priority_vacate (left : Leaving) : (b.vacate left).priority = b.priority := by
  rw [vacate]
  cases b.scheduler.currentThread with
  | none => rfl
  | some id =>
    obtain ⟨x, hleft⟩ := (b.threads id).leaving_eq left
    simp only [hleft]
    exact priority_put_same (b.named id) rfl

theorem priority_yield (h : b.scheduler.Agrees b.state) (current : ObjectId) (prio : ℕ)
    (next : ObjectId) (runs : Bool) : (b.yield current prio next runs).2.priority = b.priority := by
  rcases h.toExact.commitYieldWithPriority_cases current prio next with
    ⟨e, heq⟩ | ⟨p, rest, -, -, -, heq⟩
  · rw [yield, heq]
  · rw [yield, heq]
    cases runs with
    | false => exact priority_makeRunnable current
    | true => exact (priority_makeRunning next).trans (priority_makeRunnable current)

theorem priority_exec (h : b.scheduler.Agrees b.state) (op : SchedulerOp)
    (hop : ∀ id effective, op ≠ .setPriority id effective) :
    (b.exec op).2.priority = b.priority := by
  cases op with
  | enqueue id =>
    rcases h.toExact.enqueue_cases (b.threads id) with ⟨e, heq, -⟩ | ⟨-, -, -, heq⟩
    · rw [exec, heq]
    · rw [exec, heq]
      exact priority_put_same (b.named id) rfl
  | dequeueNext left =>
    rw [exec]
    split
    · rfl
    · exact (priority_makeRunning _).trans (priority_vacate left)
  | popStealableWork affinityChecker => rfl
  | removeThread id left =>
    rw [exec]
    split
    · exact priority_vacate left
    · rfl
  | commitYield current next runs => exact priority_yield h current 0 next runs
  | commitYieldWithPriority current prio next runs => exact priority_yield h current prio next runs
  | blockCurrent id =>
    rcases b.scheduler.tryBlockCurrent_cases (b.threads id) with ⟨e, heq⟩ | ⟨-, -, heq⟩
    all_goals
      rw [exec, heq]
      exact priority_put_same (b.named id) rfl
  | applyWake id =>
    rcases b.scheduler.tryApplyWake_cases (b.threads id) with ⟨r, heq, -, -⟩ | ⟨-, -, heq⟩
    all_goals
      rw [exec, heq]
      exact priority_put_same (b.named id) rfl
  | setPriority id effective => exact absurd rfl (hop id effective)

end

end Board

/-! ## Turns of the kernel -/

/-- What the kernel does with its scheduler. -/
inductive Turn
  | enqueue (thread : ObjectId)
  | dispatch
  | preempt
  | block
  | wake (thread : ObjectId)
  | setPriority (thread : ObjectId) (effective : ℕ)

namespace Board

/-- `reschedule` yields only if both threads are in the state they should be in. -/
def reschedule (b : Board) (current next : ObjectId) : List SchedulerOp :=
  if b.state current ≠ .running ∨ b.state next ≠ .runnable then []
  else [.commitYield current next true]

/-- The end of a quantum, and `yield_current_thread`. -/
def preempt (b : Board) : List SchedulerOp :=
  match b.scheduler.currentThread, b.scheduler.nextRunnable with
  | some current, some next => b.reschedule current next
  | _, _ => []

/-- The current thread blocks, and the next one runs if there is one. -/
def block (b : Board) : List SchedulerOp :=
  match b.scheduler.currentThread with
  | some current => [.blockCurrent current, .dequeueNext .untouched]
  | none => []

def turn (b : Board) : Turn → List SchedulerOp
  | .enqueue thread => [.enqueue thread]
  | .dispatch => [.dequeueNext .untouched]
  | .preempt => b.preempt
  | .block => b.block
  | .wake thread => [.applyWake thread]
  | .setPriority thread effective => [.setPriority thread effective]

end Board

/-- A board, and the threads whose priority has changed since they were queued. -/
structure Record where
  board : Board
  changed : ObjectId → Bool

namespace Record

def ready (r : Record) : List ObjectId := r.board.scheduler.ready

def exec (r : Record) (op : SchedulerOp) : Record where
  board := (r.board.exec op).2
  changed id :=
    if id ∈ (r.board.exec op).2.scheduler.ready ∧ id ∉ r.ready then false
    else
      match op with
      | .setPriority thread _ => decide (id = thread) || r.changed id
      | _ => r.changed id

def turn (r : Record) (t : Turn) : Record := (r.board.turn t).foldl exec r

def run (r : Record) (turns : List Turn) : Record := turns.foldl turn r

/-- **Nobody is queued below or above its priority**, unless that has changed since, and then not
above. -/
structure Fair (r : Record) : Prop where
  agrees : r.board.scheduler.Agrees r.board.state
  bounded : ∀ id, r.board.priority id < priorityLevels
  seats : ∀ p id, r.board.scheduler.Seated p id →
    p ≤ r.board.priority id ∧ (r.changed id = false → p = r.board.priority id)

/-- What an operation must not do: queue a thread by another priority than its own, or change
priorities otherwise than within the levels and upwards. -/
def Spares (r : Record) : SchedulerOp → Prop
  | .commitYield current _ _ => r.board.priority current = 0
  | .commitYieldWithPriority current prio _ _ => prio = r.board.priority current
  | .setPriority thread effective =>
    effective < priorityLevels ∧ (thread ∈ r.ready → r.board.priority thread ≤ effective)
  | _ => True

section

variable {r : Record} {op : SchedulerOp}

theorem Spares.prio_eq (h : r.Spares op) : op.prio r.board.priority = r.board.priority := by
  cases op with
  | commitYield current next runs =>
    have h : r.board.priority current = 0 := h
    rw [SchedulerOp.prio, ← h, update_eq_self]
  | commitYieldWithPriority current prio next runs =>
    have h : prio = r.board.priority current := h
    rw [SchedulerOp.prio, h, update_eq_self]
  | _ => rfl

theorem changed_exec_of_mem {id : ObjectId} (hid : id ∈ r.ready)
    (hop : ∀ id effective, op ≠ .setPriority id effective) :
    (r.exec op).changed id = r.changed id := by
  have hold : ¬ (id ∈ (r.board.exec op).2.scheduler.ready ∧ id ∉ r.ready) := fun hnew ↦ hnew.2 hid
  cases op with
  | setPriority thread effective => exact absurd rfl (hop thread effective)
  | _ => exact if_neg hold

theorem changed_exec_of_joined {id : ObjectId} (hid : id ∈ (r.exec op).ready)
    (hnew : id ∉ r.ready) : (r.exec op).changed id = false :=
  if_pos ⟨hid, hnew⟩

theorem Fair.setPriority (h : r.Fair) {thread : ObjectId} {effective : ℕ}
    (hspares : r.Spares (.setPriority thread effective)) :
    (r.exec (.setPriority thread effective)).Fair := by
  obtain ⟨hlt, hup⟩ := hspares
  have hpriority : (r.exec (.setPriority thread effective)).board.priority
      = update r.board.priority thread effective := by
    refine (Board.priority_put _).trans ?_
    simp only [r.board.named]
  refine ⟨(Board.stepped_exec h.agrees _).agrees, fun id ↦ ?_, fun p id hseat ↦ ?_⟩
  · rw [hpriority]
    by_cases hid : id = thread
    · rw [hid, update_self]
      exact hlt
    · rw [update_of_ne hid]
      exact h.bounded id
  · have hseat : r.board.scheduler.Seated p id := hseat
    have hmem : id ∈ r.ready := mem_ready_iff_seated.mpr ⟨p, hseat⟩
    have hchanged : (r.exec (.setPriority thread effective)).changed id
        = (decide (id = thread) || r.changed id) := if_neg fun hnew ↦ hnew.2 hmem
    obtain ⟨hle, heq⟩ := h.seats p id hseat
    rw [hpriority, hchanged]
    by_cases hid : id = thread
    · subst hid
      rw [update_self, decide_eq_true rfl]
      exact ⟨hle.trans (hup hmem), nofun⟩
    · rw [update_of_ne hid, decide_eq_false hid, Bool.false_or]
      exact ⟨hle, heq⟩

/-- **The step lemma.** -/
theorem Fair.exec (h : r.Fair) (hspares : r.Spares op) : (r.exec op).Fair := by
  by_cases hop : ∀ id effective, op ≠ .setPriority id effective
  · have hstep := Board.stepped_exec h.agrees op
    have hpriority : (r.exec op).board.priority = r.board.priority :=
      Board.priority_exec h.agrees op hop
    refine ⟨hstep.agrees, fun id ↦ hpriority ▸ h.bounded id, fun p id hseat ↦ ?_⟩
    rw [hpriority]
    rcases hstep.drifts.seated hseat with hold | ⟨hnew, hp⟩
    · have hmem : id ∈ r.ready := mem_ready_iff_seated.mpr ⟨p, hold⟩
      rw [changed_exec_of_mem hmem hop]
      exact h.seats p id hold
    · have heq : p = r.board.priority id := by
        rw [hp, hspares.prio_eq]
        exact Nat.min_eq_left (Nat.le_sub_one_of_lt (h.bounded id))
      exact ⟨heq.le, fun _ ↦ heq⟩
  · simp only [ne_eq, not_forall, not_not] at hop
    obtain ⟨thread, effective, rfl⟩ := hop
    exact h.setPriority hspares

/-- **When a turn keeps the priorities.** Who is preempted by another has the lowest priority, and
priorities are changed within the levels, and not downwards while their thread is queued. -/
def Meets (r : Record) : Turn → Prop
  | .preempt => ∀ current, r.board.scheduler.currentThread = some current → r.ready ≠ [] →
      r.board.priority current = 0
  | .setPriority thread effective =>
    effective < priorityLevels ∧ (thread ∈ r.ready → r.board.priority thread ≤ effective)
  | _ => True

theorem preempt_cases (h : r.board.scheduler.Coherent) :
    r.board.preempt = []
    ∨ ∃ current next, r.board.scheduler.currentThread = some current ∧ r.ready ≠ []
      ∧ r.board.preempt = [.commitYield current next true] := by
  rw [Board.preempt]
  split
  · next current next hcurrent hnext =>
    rw [Board.reschedule]
    split
    · exact .inl rfl
    · refine .inr ⟨current, next, hcurrent, fun hempty ↦ ?_, rfl⟩
      rcases h.dequeueNext_cases with ⟨-, -, hnone⟩ | ⟨p, id, rest, hq, -⟩
      · cases hnext.symm.trans hnone
      · have hmem : id ∈ r.ready :=
          List.mem_flatten.mpr ⟨_, List.mem_of_getElem? hq, List.mem_cons_self⟩
        exact absurd (hempty ▸ hmem) List.not_mem_nil
  · exact .inl rfl

theorem Fair.turn (h : r.Fair) {t : Turn} (hmeets : r.Meets t) : (r.turn t).Fair := by
  rw [Record.turn]
  cases t with
  | enqueue | dispatch | wake => exact h.exec trivial
  | setPriority thread effective => exact h.exec hmeets
  | block =>
    rw [Board.turn, Board.block]
    cases r.board.scheduler.currentThread with
    | none => exact h
    | some current =>
      have hblocked : (r.exec (.blockCurrent current)).Fair := h.exec trivial
      exact hblocked.exec trivial
  | preempt =>
    rcases preempt_cases h.agrees.coherent with hnone | ⟨current, next, hcurrent, hready, hyield⟩
    · rw [Board.turn, hnone]
      exact h
    · rw [Board.turn, hyield]
      exact h.exec (hmeets current hcurrent hready)

/-- **The thread dispatched next** has a priority that nobody exceeds whose own has not changed
since it was queued. -/
def DispatchesHighest (r : Record) : Prop :=
  ∀ next, r.board.scheduler.nextRunnable = some next → ∀ id ∈ r.ready, r.changed id = false →
    r.board.priority id ≤ r.board.priority next

theorem Fair.dispatchesHighest (h : r.Fair) : r.DispatchesHighest := by
  intro next hnext id hid hchanged
  obtain ⟨p, hseat⟩ := mem_ready_iff_seated.mp hid
  rcases h.agrees.coherent.dequeueNext_cases with ⟨-, -, hnone⟩
    | ⟨top, first, rest, hq, habove, -, hfirst⟩
  · cases hnext.symm.trans hnone
  · obtain rfl : first = next := Option.mem_unique hfirst hnext
    have hle : p ≤ top := by
      by_contra hlt
      obtain ⟨q, hq, hmem⟩ := hseat
      exact absurd (habove p q (Nat.lt_of_not_le hlt) hq ▸ hmem) List.not_mem_nil
    calc r.board.priority id = p := ((h.seats p id hseat).2 hchanged).symm
      _ ≤ top := hle
      _ ≤ r.board.priority first := (h.seats top first ⟨_, hq, List.mem_cons_self⟩).1

/-- **Placement.** Whoever is queued in a turn is queued by its priority, and who yields does not
end up behind threads of lower priority. -/
structure PlacesByPriority (r : Record) (t : Turn) : Prop where
  placed : ∀ id ∈ (r.turn t).ready, id ∉ r.ready →
    (r.turn t).board.scheduler.Seated
      (min ((r.turn t).board.priority id) (priorityLevels - 1)) id
  ahead : t = .preempt → ∀ current, r.board.scheduler.currentThread = some current →
    ∀ p, (r.turn t).board.scheduler.Seated p current →
      ∀ p' id, (r.turn t).board.scheduler.Seated p' id → (r.turn t).changed id = false →
        (r.turn t).board.priority id < (r.turn t).board.priority current → p' < p

/-- Who is newly queued after a turn has had its priority changed not since. -/
theorem changed_turn_of_joined (h : r.Fair) {t : Turn} {id : ObjectId} (hid : id ∈ (r.turn t).ready)
    (hnew : id ∉ r.ready) : (r.turn t).changed id = false := by
  rw [turn] at hid ⊢
  cases t with
  | enqueue | dispatch | wake | setPriority => exact changed_exec_of_joined hid hnew
  | block =>
    rw [Board.turn, Board.block] at hid ⊢
    cases hcurrent : r.board.scheduler.currentThread with
    | none =>
      rw [hcurrent] at hid
      exact absurd hid hnew
    | some current =>
      rw [hcurrent] at hid
      by_cases hbetween : id ∈ (r.exec (.blockCurrent current)).ready
      · refine Eq.trans (changed_exec_of_mem hbetween ?_) (changed_exec_of_joined hbetween hnew)
        exact fun _ _ ↦ nofun
      · exact changed_exec_of_joined hid hbetween
  | preempt =>
    rcases preempt_cases h.agrees.coherent with hnone | ⟨current, next, -, -, hyield⟩
    · rw [Board.turn, hnone] at hid
      exact absurd hid hnew
    · rw [Board.turn, hyield] at hid ⊢
      exact changed_exec_of_joined hid hnew

theorem Fair.placesByPriority (h : r.Fair) {t : Turn} (hmeets : r.Meets t) :
    r.PlacesByPriority t := by
  have hafter := h.turn hmeets
  refine ⟨fun id hid hnew ↦ ?_, ?_⟩
  · obtain ⟨p, hseat⟩ := mem_ready_iff_seated.mp hid
    have heq := (hafter.seats p id hseat).2 (changed_turn_of_joined h hid hnew)
    rw [Nat.min_eq_left (Nat.le_sub_one_of_lt (hafter.bounded id)), ← heq]
    exact hseat
  · rintro rfl current hcurrent p hseat p' id - - hlower
    rcases preempt_cases h.agrees.coherent with hnone | ⟨c, next, hc, hready, hyield⟩
    · -- Nothing has happened, so the thread is still current.
      rw [Record.turn, Board.turn, hnone] at hseat
      exact absurd (mem_ready_iff_seated.mpr ⟨p, hseat⟩) (h.agrees.apart current hcurrent)
    · have hpriority : (r.turn .preempt).board.priority = r.board.priority := by
        rw [Record.turn, Board.turn, hyield]
        exact Board.priority_exec h.agrees _ fun _ _ ↦ nofun
      rw [hpriority, hmeets current hcurrent hready] at hlower
      exact absurd hlower (Nat.not_lt_zero _)

def start (b : Board) : Record := ⟨b, fun _ ↦ false⟩

theorem fair_start {b : Board} {reserved : Bool} {capacity : ℕ}
    (hnew : tryNew reserved capacity = .ok b.scheduler)
    (hbounded : ∀ id, b.priority id < priorityLevels) : (start b).Fair := by
  have hkept := Chronicle.kept_start hnew
  refine ⟨hkept.agrees, hbounded, fun p id hseat ↦ ?_⟩
  obtain ⟨-, hempty, -⟩ := exact_tryNew hnew
  have hmem : id ∈ b.scheduler.ready := mem_ready_iff_seated.mpr ⟨p, hseat⟩
  exact absurd (hempty ▸ hmem) List.not_mem_nil

/-- **The run lemma.** -/
theorem Fair.run (h : r.Fair) {turns : List Turn}
    (hmeets : ∀ before t after, turns = before ++ t :: after → (r.run before).Meets t) :
    (r.run turns).Fair := by
  induction turns generalizing r with
  | nil => exact h
  | cons t turns ih =>
    refine ih (h.turn (hmeets [] t turns rfl)) fun before t' after heq ↦ ?_
    exact hmeets (t :: before) t' after (congrArg (t :: ·) heq)

/-- **A preempted thread keeps its priority** in every run in which only threads of the lowest
priority are preempted, and in which priorities stay within the levels and are not lowered for
queued threads. -/
theorem run_keeps_priority {b : Board} {reserved : Bool} {capacity : ℕ}
    (hnew : Scheduler.tryNew reserved capacity = .ok b.scheduler)
    (hbounded : ∀ id, b.priority id < priorityLevels) (turns : List Turn)
    (hmeets : ∀ before t after, turns = before ++ t :: after → ((start b).run before).Meets t) :
    (∀ before t after, turns = before ++ t :: after → ((start b).run before).PlacesByPriority t)
    ∧ ∀ before after, turns = before ++ after → ((start b).run before).DispatchesHighest := by
  have hfair : ∀ before after, turns = before ++ after → ((start b).run before).Fair := by
    intro before after heq
    refine (fair_start hnew hbounded).run fun before' t after' heq' ↦ ?_
    refine hmeets before' t (after' ++ after) ?_
    rw [heq, heq', List.append_assoc, List.cons_append]
  refine ⟨fun before t after heq ↦ ?_, fun before after heq ↦ ?_⟩
  · exact (hfair before (t :: after) heq).placesByPriority (hmeets before t after heq)
  · exact (hfair before after heq).dispatchesHighest

/-- An empty scheduler, and threads of the priorities their indices name. -/
def byIndex : Board where
  scheduler := ⟨List.replicate priorityLevels [], 0, none, 8, 0⟩
  threads id := { Thread.new id none ⟨0, []⟩ with
    basePriority := id.index.toNat % priorityLevels
    effectivePriority := id.index.toNat % priorityLevels }
  named _ := rfl

/-- Two threads of the lowest priority, one of which is preempted by the other. -/
def twoLowest : List Turn := [.enqueue ⟨32, 1⟩, .dispatch, .enqueue ⟨64, 1⟩, .preempt]

theorem twoLowest_keeps_priority :
    ((start byIndex).run [.enqueue ⟨32, 1⟩, .dispatch, .enqueue ⟨64, 1⟩]).PlacesByPriority
      .preempt := by
  have hbounded : ∀ id, byIndex.priority id < priorityLevels := fun id ↦ Nat.mod_lt _ (by decide)
  refine (run_keeps_priority (show Scheduler.tryNew true 8 = .ok byIndex.scheduler from rfl)
    hbounded
    twoLowest fun before t after heq ↦ ?_).1 _ .preempt [] rfl
  rw [twoLowest] at heq
  rcases before with _ | ⟨t₁, _ | ⟨t₂, _ | ⟨t₃, _ | ⟨t₄, before⟩⟩⟩⟩
  · obtain ⟨rfl, -⟩ := List.cons.inj heq.symm
    trivial
  · simp only [List.cons_append, List.nil_append, List.cons.injEq] at heq
    obtain ⟨-, rfl, -⟩ := heq
    trivial
  · simp only [List.cons_append, List.nil_append, List.cons.injEq] at heq
    obtain ⟨-, -, rfl, -⟩ := heq
    trivial
  · simp only [List.cons_append, List.nil_append, List.cons.injEq] at heq
    obtain ⟨rfl, rfl, rfl, rfl, -⟩ := heq
    intro current hcurrent _
    have hfirst : ((start byIndex).run [.enqueue ⟨32, 1⟩, .dispatch,
        .enqueue ⟨64, 1⟩]).board.scheduler.currentThread = some ⟨32, 1⟩ := by decide +kernel
    obtain rfl : (⟨32, 1⟩ : ObjectId) = current := Option.mem_unique hfirst hcurrent
    decide +kernel
  · simp at heq

/-- **The lowest queue.** A thread of priority twenty is preempted by one of priority five, and is
queued behind everything. -/
theorem preempt_drops_priority :
    ¬ ((start byIndex).run [.enqueue ⟨20, 1⟩, .dispatch, .enqueue ⟨5, 1⟩]).PlacesByPriority
      .preempt := by
  intro h
  obtain ⟨q, hq, hid⟩ := h.placed ⟨20, 1⟩ (by decide +kernel) (by decide +kernel)
  have hempty : (((start byIndex).run [.enqueue ⟨20, 1⟩, .dispatch, .enqueue ⟨5, 1⟩]).turn
      .preempt).board.scheduler.queues[20]? = some [] := by decide +kernel
  obtain rfl : [] = q := Option.mem_unique hempty hq
  exact List.not_mem_nil hid

end

end Record

end Gaxera

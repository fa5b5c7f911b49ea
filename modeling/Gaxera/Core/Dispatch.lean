import Gaxera.Core.Scheduler
import Gaxera.Data.Arrivals

/-!
# What each operation of a scheduler does

`Core.Scheduler` has the operations whose answers the kernel throws away, without the answers. Here
are the operations with everything they return, those the kernel does not call, and for each of them
what it does, refused or not.

That a thread is not queued twice is checked by `enqueue` alone. `apply_wake` looks at the thread's
state instead, and what makes that enough is that a blocked thread is neither queued nor current:
`Agrees` has the scheduler and the thread states together.

The order within a queue is told by when each thread joined and at which end. Only a wake goes to
the front.
-/

namespace Gaxera

open Function

namespace Scheduler

/-! ## The operations with their answers -/

/-- `try_new`. Whether the queues could be reserved is not up to the scheduler. -/
def tryNew (reserved : Bool) (capacity : ℕ) : Except SchedulerError Scheduler :=
  if 2 ^ 32 - 1 < capacity then .error .capacityTooLarge
  else if !reserved then .error .allocationFailed
  else .ok ⟨List.replicate priorityLevels [], 0, none, capacity, 0⟩

/-- A thread joins a queue: `place` says at which end. -/
def push (s : Scheduler) (prio : ℕ) (place : List ObjectId → List ObjectId) : Scheduler :=
  { s with
    queues := s.queues.modify prio place
    activeBitmap := s.activeBitmap ||| (1#32 <<< prio)
    count := s.count + 1 }

/-- The queues are searched from the lowest priority up, each from its front. -/
def popStealableWork (s : Scheduler) (affinityChecker : ObjectId → Bool) :
    Option ObjectId × Scheduler :=
  if s.activeBitmap = 0 then (none, s)
  else
    match (List.range priorityLevels).findSome? fun prio ↦
        if s.activeBitmap.getLsbD prio then
          (s.queues[prio]?).bind fun q ↦
            (q.find? affinityChecker).map fun tid ↦ (prio, tid, q.eraseP affinityChecker)
        else none with
    | none => (none, s)
    | some (prio, tid, rest) => (some tid, s.leave prio rest)

def commitYieldWithPriority (s : Scheduler) (current : ObjectId) (currentPrio : ℕ)
    (next : ObjectId) : Except SchedulerError Unit × Scheduler :=
  if s.currentThread ≠ some current then (.error .noCurrentThread, s)
  else
    match s.nextRunnable with
    | none => (.error .noRunnableThread, s)
    | some highest =>
      if current = next ∨ highest ≠ next then (.error .noRunnableThread, s)
      else
        match s.dequeueNext with
        | (dequeued, s) =>
          if dequeued ≠ some next then (.error .queueInvariant, s)
          else
            let prio := min currentPrio (priorityLevels - 1)
            (.ok (), { s.push prio (fun q ↦ q ++ [current]) with currentThread := some next })

/-- `block_current`, with its answer. -/
def tryBlockCurrent (s : Scheduler) (thread : Thread) :
    Except SchedulerError ObjectId × Scheduler × Thread :=
  if s.currentThread ≠ some thread.id then (.error .noCurrentThread, s, thread)
  else
    match thread.makeBlocked with
    | none => (.error .invalidState, s, thread)
    | some blocked => (.ok thread.id, { s with currentThread := none }, blocked)

/-- `apply_wake`, with its answer. A full scheduler answers before the thread is looked at. -/
def tryApplyWake (s : Scheduler) (thread : Thread) :
    Except SchedulerError Unit × Scheduler × Thread :=
  if s.capacity ≤ s.count then (.error .queueFull, s, thread)
  else
    match thread.state with
    | .blocked =>
      match thread.makeRunnable with
      | none => (.error .invalidState, s, thread)
      | some woken =>
        let prio := min woken.effectivePriority (priorityLevels - 1)
        (.ok (), s.push prio (fun q ↦ woken.id :: q), woken)
    | .dead | .running | .runnable => (.ok (), s, thread)
    | .new | .dying => (.error .invalidState, s, thread)

/-! ## The representation -/

/-- **What the fields of a scheduler owe each other.** -/
structure Exact (s : Scheduler) : Prop where
  coherent : s.Coherent
  counted : s.count = s.ready.length
  bounded : s.count ≤ s.capacity
  apart : ∀ id, s.currentThread = some id → id ∉ s.ready

section

variable {s s' : Scheduler} {p : ℕ} {q : List ObjectId} {id : ObjectId}

theorem exact_tryNew {reserved : Bool} {capacity : ℕ} (h : tryNew reserved capacity = .ok s) :
    s.Exact ∧ s.ready = [] ∧ s.currentThread = none ∧ s.capacity = capacity := by
  rw [tryNew] at h
  split_ifs at h
  obtain rfl := Except.ok.inj h
  have hempty : (⟨List.replicate priorityLevels [], 0, none, capacity, 0⟩ : Scheduler).ready = [] :=
    List.flatten_replicate_nil
  refine ⟨⟨⟨List.length_replicate, fun p q hq ↦ ?_, ?_⟩, ?_, Nat.zero_le _, nofun⟩,
    hempty, rfl, rfl⟩
  · rw [List.getElem?_replicate] at hq
    split at hq
    · simp [← Option.some.inj hq]
    · cases hq
  · rw [hempty]
    exact List.nodup_nil
  · rw [hempty]
    rfl

theorem Exact.leave (h : s.Exact) (hq : s.queues[p]? = some q) (hid : id ∈ q) :
    (s.leave p (q.erase id)).Exact ∧ s.ready.Perm (id :: (s.leave p (q.erase id)).ready) := by
  obtain ⟨hcoherent, hperm⟩ := h.coherent.leave hq hid
  have hlength := hperm.length_eq
  rw [List.length_cons, ← h.counted] at hlength
  refine ⟨⟨hcoherent, ?_, ?_, fun j hj hmem ↦ ?_⟩, hperm⟩
  · change s.count - 1 = _
    omega
  · exact Nat.le_trans (Nat.sub_le _ _) h.bounded
  · exact h.apart j hj (hperm.mem_iff.mpr (List.mem_cons_of_mem _ hmem))

theorem Exact.push (h : s.Exact) (hp : p < 32) {place : List ObjectId → List ObjectId}
    (hplace : ∀ q, (place q).Perm (id :: q)) (hready : id ∉ s.ready)
    (hcurrent : s.currentThread ≠ some id) (hroom : s.count < s.capacity) :
    (s.push p place).Exact ∧ (s.push p place).ready.Perm (id :: s.ready) := by
  obtain ⟨hcoherent, hperm⟩ : (s.push p place).Coherent ∧
      (s.push p place).ready.Perm (id :: s.ready) :=
    h.coherent.join hp hplace rfl rfl hready
  refine ⟨⟨hcoherent, ?_, hroom, fun j hj hmem ↦ ?_⟩, hperm⟩
  · rw [hperm.length_eq, List.length_cons, ← h.counted]
    rfl
  · rcases List.mem_cons.mp (hperm.mem_iff.mp hmem) with rfl | hmem
    · exact hcurrent hj
    · exact h.apart j hj hmem

theorem Exact.setCurrent (h : s.Exact) {current : Option ObjectId}
    (hcurrent : ∀ id, current = some id → id ∉ s.ready) :
    ({ s with currentThread := current } : Scheduler).Exact :=
  ⟨⟨h.coherent.levels, h.coherent.active, h.coherent.nodup⟩, h.counted, h.bounded, hcurrent⟩

theorem Exact.contains_iff (h : s.Exact) : s.contains id = true ↔ id ∈ s.ready := by
  rw [contains, Bool.and_eq_true, decide_eq_true_eq, List.any_eq_true, ready, List.mem_flatten]
  constructor
  · rintro ⟨-, q, hq, hid⟩
    exact ⟨q, hq, of_decide_eq_true hid⟩
  · rintro ⟨q, hq, hid⟩
    refine ⟨fun hzero ↦ ?_, q, hq, decide_eq_true hid⟩
    exact List.ne_nil_of_mem (List.mem_flatten.mpr ⟨q, hq, hid⟩)
      (List.length_eq_zero_iff.mp (h.counted ▸ hzero))

theorem prio_lt (prio : ℕ) : min prio (priorityLevels - 1) < 32 :=
  Nat.lt_of_le_of_lt (Nat.min_le_right _ _) (by decide)

/-! ## What each operation does -/

/-- **`enqueue`** refuses and changes nothing, or the thread joins the end of its queue. -/
theorem Exact.enqueue_cases (h : s.Exact) (t : Thread) :
    (∃ e, s.enqueue t = .error e ∧ (e = .queueFull → t.id ∉ s.ready ∧ s.capacity ≤ s.count))
    ∨ (t.id ∉ s.ready ∧ s.currentThread ≠ some t.id ∧ s.count < s.capacity
      ∧ s.enqueue t = .ok (s.push (min t.effectivePriority (priorityLevels - 1))
          (fun q ↦ q ++ [t.id]), { t with state := .runnable })) := by
  rw [enqueue]
  by_cases hduplicate : s.contains t.id = true ∨ s.currentThread = some t.id
  · rw [if_pos hduplicate]
    exact .inl ⟨_, rfl, by simp⟩
  · rw [if_neg hduplicate]
    rw [not_or, h.contains_iff] at hduplicate
    by_cases hfull : s.capacity ≤ s.count
    · rw [if_pos hfull]
      exact .inl ⟨_, rfl, fun _ ↦ ⟨hduplicate.1, hfull⟩⟩
    · rw [if_neg hfull]
      cases hrunnable : t.makeRunnable with
      | none => exact .inl ⟨_, rfl, by simp⟩
      | some u =>
        obtain rfl := Thread.makeRunnable_eq hrunnable
        exact .inr ⟨hduplicate.1, hduplicate.2, Nat.lt_of_not_le hfull, rfl⟩

/-- **`pop_stealable_work`** finds nothing, or the first thread of some queue that may be taken. -/
theorem popStealableWork_cases (s : Scheduler) (affinityChecker : ObjectId → Bool) :
    s.popStealableWork affinityChecker = (none, s)
    ∨ ∃ p q tid, s.queues[p]? = some q ∧ q.find? affinityChecker = some tid
      ∧ s.popStealableWork affinityChecker = (some tid, s.leave p (q.erase tid)) := by
  rw [popStealableWork]
  split
  · exact .inl rfl
  · split
    · exact .inl rfl
    · next prio tid rest hsome =>
      right
      obtain ⟨p, -, hfound⟩ := List.exists_of_findSome?_eq_some hsome
      split at hfound
      · obtain ⟨q, hq, heq⟩ := Option.bind_eq_some_iff.mp hfound
        obtain ⟨j, hfind, hj⟩ := Option.map_eq_some_iff.mp heq
        simp only [Prod.mk.injEq] at hj
        obtain ⟨rfl, rfl, rfl⟩ := hj
        exact ⟨p, q, j, hq, hfind, by rw [eraseP_eq_erase_of_find? hfind]⟩
      · cases hfound

/-- **`commit_yield_with_priority`** refuses and changes nothing, or the next thread leaves the
highest queue and the current one joins the end of the queue it is given. -/
theorem Exact.commitYieldWithPriority_cases (h : s.Exact) (current : ObjectId) (prio : ℕ)
    (next : ObjectId) :
    (∃ e, s.commitYieldWithPriority current prio next = (.error e, s))
    ∨ ∃ p rest, s.queues[p]? = some (next :: rest) ∧ s.nextRunnable = some next
      ∧ s.currentThread = some current
      ∧ s.commitYieldWithPriority current prio next
        = (.ok (), { (s.leave p rest).push (min prio (priorityLevels - 1))
          (fun q ↦ q ++ [current]) with
            currentThread := some next }) := by
  rw [commitYieldWithPriority]
  by_cases hcurrent : s.currentThread = some current
  · rw [if_neg (not_not.mpr hcurrent)]
    rcases h.coherent.dequeueNext_cases with ⟨-, -, hnone⟩ | ⟨p, id, rest, hq, -, hdequeue, hnext⟩
    · rw [hnone]
      exact .inl ⟨_, rfl⟩
    · simp only [hnext]
      by_cases hsame : current = next ∨ id ≠ next
      · rw [if_pos hsame]
        exact .inl ⟨_, rfl⟩
      · obtain ⟨-, hid⟩ := not_or.mp hsame
        obtain rfl := not_not.mp hid
        rw [if_neg hsame, hdequeue]
        exact .inr ⟨p, rest, hq, rfl, hcurrent, by simp⟩
  · rw [if_pos hcurrent]
    exact .inl ⟨_, rfl⟩

/-- **`block_current`** refuses and changes nothing, or the current thread is blocked. -/
theorem tryBlockCurrent_cases (s : Scheduler) (t : Thread) :
    (∃ e, s.tryBlockCurrent t = (.error e, s, t))
    ∨ (s.currentThread = some t.id ∧ t.state = .running
      ∧ s.tryBlockCurrent t
        = (.ok t.id, { s with currentThread := none }, { t with state := .blocked })) := by
  rw [tryBlockCurrent]
  by_cases hcurrent : s.currentThread = some t.id
  · rw [if_neg (not_not.mpr hcurrent)]
    cases hstate : t.state <;> simp [Thread.makeBlocked, hstate, hcurrent]
  · rw [if_pos hcurrent]
    exact .inl ⟨_, rfl⟩

/-- **`apply_wake`** changes nothing, or a blocked thread joins the front of its queue. -/
theorem tryApplyWake_cases (s : Scheduler) (t : Thread) :
    (∃ r, s.tryApplyWake t = (r, s, t) ∧ (r = .error .queueFull → s.capacity ≤ s.count)
      ∧ (t.state = .blocked → s.capacity ≤ s.count))
    ∨ (s.count < s.capacity ∧ t.state = .blocked
      ∧ s.tryApplyWake t = (.ok (), s.push (min t.effectivePriority (priorityLevels - 1))
          (fun q ↦ t.id :: q), { t with state := .runnable })) := by
  rw [tryApplyWake]
  by_cases hfull : s.capacity ≤ s.count
  · rw [if_pos hfull]
    exact .inl ⟨_, rfl, fun _ ↦ hfull, fun _ ↦ hfull⟩
  · rw [if_neg hfull]
    have hroom := Nat.lt_of_not_le hfull
    cases hstate : t.state <;> simp [Thread.makeRunnable, hstate, hroom]

end

/-! ## The scheduler and the thread states -/

/-- **Queued threads are runnable, and the current one is not blocked.** -/
structure Agrees (s : Scheduler) (state : ObjectId → ThreadState) : Prop extends s.Exact where
  queued : ∀ id ∈ s.ready, state id = .runnable
  current : ∀ id, s.currentThread = some id → state id = .running ∨ state id = .runnable

section

variable {s s' : Scheduler} {state : ObjectId → ThreadState} {p : ℕ} {q : List ObjectId}
  {id : ObjectId}

theorem Agrees.apart_of_blocked (h : s.Agrees state) (hblocked : state id = .blocked) :
    id ∉ s.ready ∧ s.currentThread ≠ some id := by
  constructor
  · intro hmem
    cases (h.queued id hmem).symm.trans hblocked
  · intro hcurrent
    rcases h.current id hcurrent with hstate | hstate <;> cases hstate.symm.trans hblocked

theorem Agrees.leave (h : s.Agrees state) (hq : s.queues[p]? = some q) (hid : id ∈ q) :
    (s.leave p (q.erase id)).Agrees state ∧ id ∉ (s.leave p (q.erase id)).ready := by
  obtain ⟨hexact, hperm⟩ := h.toExact.leave hq hid
  refine ⟨⟨hexact, fun j hj ↦ h.queued j (hperm.mem_iff.mpr (.tail _ hj)), h.current⟩, ?_⟩
  exact (List.nodup_cons.mp (hperm.nodup_iff.mp h.coherent.nodup)).1

theorem Agrees.push (h : s.Agrees state) (hp : p < 32) {place : List ObjectId → List ObjectId}
    (hplace : ∀ q, (place q).Perm (id :: q)) (hready : id ∉ s.ready)
    (hcurrent : s.currentThread ≠ some id) (hroom : s.count < s.capacity) :
    (s.push p place).Agrees (update state id .runnable) := by
  obtain ⟨hexact, hperm⟩ := h.toExact.push hp hplace hready hcurrent hroom
  refine ⟨hexact, fun j hj ↦ ?_, fun j hj ↦ ?_⟩
  · by_cases hj' : j = id
    · rw [hj', update_self]
    · rw [update_of_ne hj']
      exact h.queued j (List.mem_of_ne_of_mem hj' (hperm.mem_iff.mp hj))
  · have hne : j ≠ id := fun heq ↦ hcurrent (heq ▸ hj)
    rw [update_of_ne hne]
    exact h.current j hj

theorem Agrees.clear (h : s.Agrees state) :
    ({ s with currentThread := none } : Scheduler).Agrees state :=
  ⟨h.toExact.setCurrent nofun, h.queued, nofun⟩

theorem Agrees.dispatch (h : s.Agrees state) (hready : id ∉ s.ready)
    (hstate : state id = .running ∨ state id = .runnable) :
    ({ s with currentThread := some id } : Scheduler).Agrees state := by
  refine ⟨h.toExact.setCurrent fun j hj ↦ ?_, h.queued, fun j hj ↦ ?_⟩
  · exact Option.some.inj hj ▸ hready
  · exact Option.some.inj hj ▸ hstate

theorem Agrees.restate (h : s.Agrees state) {x : ThreadState} (hready : id ∉ s.ready)
    (hcurrent : s.currentThread = some id → x = .running ∨ x = .runnable) :
    s.Agrees (update state id x) := by
  refine ⟨h.toExact, fun j hj ↦ ?_, fun j hj ↦ ?_⟩
  · have hne : j ≠ id := fun heq ↦ hready (heq ▸ hj)
    rw [update_of_ne hne]
    exact h.queued j hj
  · by_cases hid : j = id
    · rw [hid, update_self]
      exact hcurrent (hid ▸ hj)
    · rw [update_of_ne hid]
      exact h.current j hj

/-! ## The order of the queues -/

/-- Each queue of the second scheduler is one of the first with threads left out. -/
def Thins (s s' : Scheduler) : Prop :=
  ∀ (p : ℕ) (q' : List ObjectId), s'.queues[p]? = some q' →
    ∃ q, s.queues[p]? = some q ∧ q'.Sublist q

theorem Thins.of_queues_eq (h : s'.queues = s.queues) : s.Thins s' :=
  fun _ q' hq' ↦ ⟨q', h ▸ hq', .refl q'⟩

theorem thins_leave (hq : s.queues[p]? = some q) (id : ObjectId) :
    s.Thins (s.leave p (q.erase id)) := by
  intro p' q' hq'
  change (s.queues.set p (q.erase id))[p']? = some q' at hq'
  by_cases hp : p = p'
  · subst hp
    rw [List.getElem?_set_self (List.getElem?_eq_some_iff.mp hq).1] at hq'
    exact ⟨q, hq, Option.some.inj hq' ▸ List.erase_sublist⟩
  · rw [List.getElem?_set_ne hp] at hq'
    exact ⟨q', hq', .refl q'⟩

theorem Thins.mem_ready (h : s.Thins s') (hid : id ∈ s'.ready) : id ∈ s.ready := by
  obtain ⟨q', hmem, hid⟩ := List.mem_flatten.mp hid
  obtain ⟨p, hq'⟩ := List.mem_iff_getElem?.mp hmem
  obtain ⟨q, hq, hsub⟩ := h p q' hq'
  exact List.mem_flatten.mpr ⟨q, List.mem_of_getElem? hq, hsub.subset hid⟩

/-- The end of a queue at which threads join. -/
def placing (woken : Bool) (id : ObjectId) (q : List ObjectId) : List ObjectId :=
  if woken then id :: q else q ++ [id]

/-- **What one operation does to the queues.** Threads are left out, and perhaps one joins that was
in none: the queue of the priority it is given, at the front if it is woken and at the end
otherwise. -/
def Drifts (s : Scheduler) (woken : Bool) (prio : ObjectId → ℕ) (s' : Scheduler) : Prop :=
  ∀ (p : ℕ) (q' : List ObjectId), s'.queues[p]? = some q' →
    ∃ q r, s.queues[p]? = some q ∧ r.Sublist q
      ∧ (q' = r ∨ ∃ id, id ∉ s.ready ∧ p = min (prio id) (priorityLevels - 1)
        ∧ q' = placing woken id r)

theorem Thins.drifts (h : s.Thins s') (woken : Bool) (prio : ObjectId → ℕ) :
    s.Drifts woken prio s' := by
  intro p q' hq'
  obtain ⟨q, hq, hsub⟩ := h p q' hq'
  exact ⟨q, q', hq, hsub, .inl rfl⟩

theorem perm_placing (woken : Bool) (id : ObjectId) (q : List ObjectId) :
    (placing woken id q).Perm (id :: q) := by
  cases woken with
  | true => exact .refl _
  | false => exact List.perm_append_singleton id q

theorem Thins.drifts_push (h : s.Thins s') (woken : Bool) (hid : id ∉ s.ready)
    (prio : ObjectId → ℕ) :
    s.Drifts woken prio
      (s'.push (min (prio id) (priorityLevels - 1)) (placing woken id)) := by
  intro p' q' hq'
  change (s'.queues.modify _ (placing woken id))[p']? = some q' at hq'
  rw [List.getElem?_modify] at hq'
  obtain ⟨r, hr, heq⟩ := Option.map_eq_some_iff.mp hq'
  obtain ⟨q, hq, hsub⟩ := h p' r hr
  refine ⟨q, r, hq, hsub, ?_⟩
  by_cases hp : min (prio id) (priorityLevels - 1) = p'
  · rw [if_pos hp] at heq
    exact .inr ⟨id, hid, hp.symm, heq.symm⟩
  · rw [if_neg hp] at heq
    exact .inl heq.symm

def Ordered (s : Scheduler) (joined : ObjectId → Joining) : Prop :=
  ∀ (p : ℕ) (q : List ObjectId), s.queues[p]? = some q → InOrder joined q

/-- How a thread joins at some time. -/
def arrival (woken : Bool) (time : ℕ) : Joining := if woken then .atFront time else .atEnd time

theorem time_arrival (woken : Bool) (time : ℕ) : (arrival woken time).time = time := by
  cases woken <;> rfl

/-- The threads that have joined a queue are noted. -/
def note (joined : ObjectId → Joining) (s s' : Scheduler) (stamp : Joining) : ObjectId → Joining :=
  fun id ↦ if id ∈ s'.ready ∧ id ∉ s.ready then stamp else joined id

section

variable {s s' : Scheduler} {joined : ObjectId → Joining} {woken : Bool} {n : ℕ}
  {prio : ObjectId → ℕ}

/-- **One operation keeps the order.** -/
theorem Ordered.drifts (h : s.Ordered joined) (hdrifts : s.Drifts woken prio s')
    (hearlier : ∀ id ∈ s.ready, (joined id).time < n) :
    s'.Ordered (note joined s s' (arrival woken n)) := by
  intro p q' hq'
  obtain ⟨q, r, hq, hsub, hjoin⟩ := hdrifts p q' hq'
  have hready : ∀ a ∈ r, a ∈ s.ready := fun a ha ↦
    List.mem_flatten.mpr ⟨q, List.mem_of_getElem? hq, hsub.subset ha⟩
  have hold : ∀ a ∈ r, note joined s s' (arrival woken n) a = joined a := fun a ha ↦
    if_neg fun hnew ↦ hnew.2 (hready a ha)
  have hrest := ((h p q hq).sublist hsub).congr hold
  have hbefore : ∀ a ∈ r, (note joined s s' (arrival woken n) a).time < n := fun a ha ↦ by
    rw [hold a ha]
    exact hearlier a (hready a ha)
  rcases hjoin with rfl | ⟨id, hid, -, rfl⟩
  · exact hrest
  · have hmem : id ∈ s'.ready := by
      refine List.mem_flatten.mpr ⟨_, List.mem_of_getElem? hq', ?_⟩
      cases woken <;> simp [placing]
    have hnew : note joined s s' (arrival woken n) id = arrival woken n := if_pos ⟨hmem, hid⟩
    cases woken with
    | true => exact hrest.cons hnew hbefore
    | false => exact hrest.concat hnew hbefore

theorem time_note_lt (hearlier : ∀ id ∈ s.ready, (joined id).time < n) :
    ∀ id ∈ s'.ready, (note joined s s' (arrival woken n) id).time < n + 1 := by
  intro id hid
  by_cases hold : id ∈ s.ready
  · rw [note, if_neg fun hnew ↦ hnew.2 hold]
    exact Nat.lt_succ_of_lt (hearlier id hold)
  · rw [note, if_pos ⟨hid, hold⟩, time_arrival]
    exact Nat.lt_succ_self n

end

end

end Scheduler

end Gaxera

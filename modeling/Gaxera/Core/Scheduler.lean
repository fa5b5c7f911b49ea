import Gaxera.Core.Waiting
import Gaxera.Data.Levels

/-!
# The scheduler

Thirty-two queues of thread identities and a word with one bit to a queue, set where the queue is
not empty. The scheduler knows of a thread its identity and its priority at the time it is queued;
what state the thread is in is kept in the thread, and the two are brought together by the callers.

`Coherent` is what the operations rely on and keep: the word tells which queues are empty, and no
thread is queued twice. Each operation is then described by what it does to `ready`, the threads
that are queued at all, up to their order.
-/

namespace Gaxera

/-! ## Thread states -/

namespace Thread

def makeRunnable (t : Thread) : Option Thread :=
  match t.state with
  | .new | .runnable | .running | .blocked => some { t with state := .runnable }
  | .dying | .dead => none

theorem makeRunnable_eq {t u : Thread} (h : t.makeRunnable = some u) :
    u = { t with state := .runnable } := by
  rw [makeRunnable] at h
  split at h
  all_goals first | exact (Option.some.inj h).symm | cases h

def makeRunning (t : Thread) : Option Thread :=
  match t.state with
  | .runnable => some { t with state := .running }
  | _ => none

def makeBlocked (t : Thread) : Option Thread :=
  match t.state with
  | .running => some { t with state := .blocked }
  | _ => none

def makeDying (t : Thread) : Option Thread :=
  match t.state with
  | .running | .runnable | .blocked => some { t with state := .dying }
  | _ => none

def boostPriority (t : Thread) (callerPriority : ℕ) : Thread :=
  { t with effectivePriority := max t.effectivePriority callerPriority }

def restorePriority (t : Thread) : Thread := { t with effectivePriority := t.basePriority }

end Thread

/-! ## Operations -/

inductive SchedulerError
  | capacityTooLarge
  | allocationFailed
  | queueFull
  | invalidState
  | duplicateEntry
  | noCurrentThread
  | noRunnableThread
  | queueInvariant
deriving DecidableEq, Repr

namespace Scheduler

/-- Empty queues are told by the count. -/
def contains (s : Scheduler) (id : ObjectId) : Bool :=
  decide (s.count ≠ 0) && s.queues.any fun q ↦ id ∈ q

/-- What `enqueue` checks. -/
def accepts (s : Scheduler) (thread : Thread) : Bool :=
  !s.contains thread.id && decide (s.currentThread ≠ some thread.id)
    && decide (s.count < s.capacity) && thread.makeRunnable.isSome

/-- The thread goes to the end of the queue of its priority. All checks come before the first
change. -/
def enqueue (s : Scheduler) (thread : Thread) : Except SchedulerError (Scheduler × Thread) :=
  if s.contains thread.id = true ∨ s.currentThread = some thread.id then .error .duplicateEntry
  else if s.capacity ≤ s.count then .error .queueFull
  else
    match thread.makeRunnable with
    | none => .error .invalidState
    | some thread =>
      let prio := min thread.effectivePriority (priorityLevels - 1)
      .ok
        ({ s with
            queues := s.queues.modify prio fun q ↦ q ++ [thread.id]
            activeBitmap := s.activeBitmap ||| (1#32 <<< prio)
            count := s.count + 1 },
          thread)

/-- `31 - active_bitmap.leading_zeros()`, for a word that is not zero. -/
def highestPriority (s : Scheduler) : ℕ := s.activeBitmap.toNat.log2

/-- A thread has left a queue, which leaves `rest`. -/
def leave (s : Scheduler) (prio : ℕ) (rest : List ObjectId) : Scheduler :=
  { s with
    queues := s.queues.set prio rest
    activeBitmap := if rest.isEmpty then s.activeBitmap &&& ~~~(1#32 <<< prio) else s.activeBitmap
    count := s.count - 1 }

def dequeueNext (s : Scheduler) : Option ObjectId × Scheduler :=
  if s.activeBitmap = 0 then (none, s)
  else
    let prio := s.highestPriority
    match s.queues[prio]? with
    | some (id :: rest) => (some id, s.leave prio rest)
    | _ => (none, { s with activeBitmap := s.activeBitmap &&& ~~~(1#32 <<< prio) })

def nextRunnable (s : Scheduler) : Option ObjectId :=
  if s.activeBitmap = 0 then none else s.queues[s.highestPriority]?.bind List.head?

/-- The current thread is only unset. Any other is taken out of the first queue that has it. -/
def removeThread (s : Scheduler) (id : ObjectId) : Bool × Scheduler :=
  if s.currentThread = some id then (true, { s with currentThread := none })
  else
    match (List.range priorityLevels).findSome? fun prio ↦
        if s.activeBitmap.getLsbD prio then
          (s.queues[prio]?).bind fun q ↦ if id ∈ q then some (prio, q.erase id) else none
        else none with
    | none => (false, s)
    | some (prio, rest) => (true, s.leave prio rest)

/-- The current thread goes to the end of the lowest queue, whatever its priority. -/
def requeue (s : Scheduler) (current next : ObjectId) : Scheduler :=
  { s with
    queues := s.queues.modify 0 fun q ↦ q ++ [current]
    activeBitmap := s.activeBitmap ||| (1#32 <<< 0)
    count := s.count + 1
    currentThread := some next }

def commitYield (s : Scheduler) (current next : ObjectId) : Bool × Scheduler :=
  if s.currentThread ≠ some current then (false, s)
  else
    match s.nextRunnable with
    | none => (false, s)
    | some highest =>
      if current = next ∨ highest ≠ next then (false, s)
      else
        match s.dequeueNext with
        | (dequeued, s) =>
          if dequeued ≠ some next then (false, s) else (true, s.requeue current next)

/-- `block_current`, whose answer no caller looks at. -/
def blockCurrent (s : Scheduler) (thread : Thread) : Scheduler × Thread :=
  if s.currentThread ≠ some thread.id then (s, thread)
  else
    match thread.makeBlocked with
    | none => (s, thread)
    | some thread => ({ s with currentThread := none }, thread)

/-! ## Coherence -/

/-- The threads that are queued. -/
def ready (s : Scheduler) : List ObjectId := s.queues.flatten

structure Coherent (s : Scheduler) : Prop where
  levels : s.queues.length = priorityLevels
  active : ∀ p q, s.queues[p]? = some q → (s.activeBitmap.getLsbD p = true ↔ q ≠ [])
  nodup : s.ready.Nodup

theorem getLsbD_bit {p : ℕ} (hp : p < 32) (i : ℕ) :
    (1#32 <<< p).getLsbD i = decide (i = p) := by
  rw [BitVec.getLsbD_shiftLeft, BitVec.getLsbD_one, Bool.eq_iff_iff]
  simp only [Bool.and_eq_true, decide_eq_true_eq, Bool.not_eq_true', decide_eq_false_iff_not]
  omega

theorem getLsbD_setBit (b : BitVec 32) {p : ℕ} (hp : p < 32) (i : ℕ) :
    (b ||| (1#32 <<< p)).getLsbD i = if i = p then true else b.getLsbD i := by
  rw [BitVec.getLsbD_or, getLsbD_bit hp]
  by_cases hi : i = p <;> simp [hi]

theorem getLsbD_clearBit (b : BitVec 32) {p : ℕ} (hp : p < 32) (i : ℕ) :
    (b &&& ~~~(1#32 <<< p)).getLsbD i = if i = p then false else b.getLsbD i := by
  rw [BitVec.getLsbD_and, BitVec.getLsbD_not, getLsbD_bit hp]
  by_cases hi : i = p
  · simp [hi]
  · by_cases hlt : i < 32
    · simp [hi, hlt]
    · simp [hi, BitVec.getLsbD_of_ge b i (Nat.le_of_not_lt hlt)]

section

variable {s s' : Scheduler} {p : ℕ} {q q' : List ObjectId} {id : ObjectId}

/-- One queue is written, and its bit tells whether it is empty. -/
structure Writes (s : Scheduler) (p : ℕ) (q : List ObjectId) (s' : Scheduler) : Prop where
  queues : s'.queues = s.queues.set p q
  active : ∀ i, s'.activeBitmap.getLsbD i
    = if i = p then decide (q ≠ []) else s.activeBitmap.getLsbD i

theorem Coherent.getElem?_isSome (h : s.Coherent) (hp : p < 32) : ∃ q, s.queues[p]? = some q :=
  ⟨_, List.getElem?_eq_getElem (h.levels.symm ▸ hp)⟩

theorem Coherent.lt_of_getElem? (h : s.Coherent) (hq : s.queues[p]? = some q) : p < 32 :=
  Nat.lt_of_lt_of_eq (List.getElem?_eq_some_iff.mp hq).1 h.levels

theorem Writes.perm (hw : s.Writes p q' s') (hq : s.queues[p]? = some q) :
    s.ready.Perm (q ++ (s.queues.eraseIdx p).flatten)
    ∧ s'.ready.Perm (q' ++ (s.queues.eraseIdx p).flatten) := by
  rw [ready, ready, hw.queues]
  exact ⟨perm_flatten_of_getElem? hq, perm_flatten_set hq q'⟩

theorem Writes.coherent (hw : s.Writes p q' s') (h : s.Coherent) (hq : s.queues[p]? = some q)
    (hnodup : s'.ready.Nodup) : s'.Coherent := by
  refine ⟨?_, fun i r hr ↦ ?_, hnodup⟩
  · rw [hw.queues, List.length_set, h.levels]
  · rw [hw.queues] at hr
    rw [hw.active]
    by_cases hi : i = p
    · subst hi
      obtain ⟨hlt, -⟩ := List.getElem?_eq_some_iff.mp hq
      obtain rfl : q' = r := by simpa [List.getElem?_set_self hlt] using hr
      rw [if_pos rfl, decide_eq_true_eq]
    · rw [List.getElem?_set_ne (Ne.symm hi)] at hr
      rw [if_neg hi]
      exact h.active i r hr

theorem writes_leave (hp : p < 32) (hactive : s.activeBitmap.getLsbD p = true)
    (rest : List ObjectId) : s.Writes p rest (s.leave p rest) := by
  refine ⟨rfl, fun i ↦ ?_⟩
  rw [leave]
  by_cases hrest : rest = []
  · rw [hrest, List.isEmpty_nil, if_pos rfl, getLsbD_clearBit _ hp]
    simp
  · rw [if_neg (by simpa using hrest)]
    by_cases hi : i = p
    · rw [hi, hactive, if_pos rfl, decide_eq_true hrest]
    · rw [if_neg hi]

/-- **A thread leaves a queue.** Only it goes. -/
theorem Coherent.leave (h : s.Coherent) (hq : s.queues[p]? = some q) (hid : id ∈ q) :
    (s.leave p (q.erase id)).Coherent ∧ s.ready.Perm (id :: (s.leave p (q.erase id)).ready) := by
  have hactive := (h.active p q hq).mpr (List.ne_nil_of_mem hid)
  have hw := writes_leave (h.lt_of_getElem? hq) hactive (q.erase id)
  obtain ⟨hbefore, hafter⟩ := hw.perm hq
  have hperm : s.ready.Perm (id :: (s.leave p (q.erase id)).ready) := by
    refine hbefore.trans (List.Perm.trans ?_ (hafter.symm.cons id))
    exact (List.perm_cons_erase hid).append_right _
  exact ⟨hw.coherent h hq (List.nodup_cons.mp (hperm.nodup_iff.mp h.nodup)).2, hperm⟩

theorem modify_eq_set (hq : s.queues[p]? = some q) (f : List ObjectId → List ObjectId) :
    s.queues.modify p f = s.queues.set p (f q) := by
  rw [List.modify_eq_set_getElem?, hq]
  rfl

/-- **A thread joins a queue**, at its front or its end. -/
theorem Coherent.join (h : s.Coherent) (hp : p < 32) {f : List ObjectId → List ObjectId}
    (hf : ∀ q, (f q).Perm (id :: q)) (hqueues : s'.queues = s.queues.modify p f)
    (hbitmap : s'.activeBitmap = s.activeBitmap ||| (1#32 <<< p)) (hready : id ∉ s.ready) :
    s'.Coherent ∧ s'.ready.Perm (id :: s.ready) := by
  obtain ⟨q, hq⟩ := h.getElem?_isSome hp
  have hne : f q ≠ [] := fun hnil ↦ List.cons_ne_nil _ _ (List.nil_perm.mp (hnil ▸ hf q))
  have hw : s.Writes p (f q) s' := by
    refine ⟨hqueues.trans (modify_eq_set hq f), fun i ↦ ?_⟩
    rw [hbitmap, getLsbD_setBit _ hp, decide_eq_true hne]
  obtain ⟨hbefore, hafter⟩ := hw.perm hq
  have hperm : s'.ready.Perm (id :: s.ready) :=
    hafter.trans (((hf q).append_right _).trans (hbefore.symm.cons id))
  exact ⟨hw.coherent h hq (hperm.nodup_iff.mpr (List.nodup_cons.mpr ⟨hready, h.nodup⟩)), hperm⟩

/-! ## The highest queue -/

theorem Coherent.highest (h : s.Coherent) (hactive : s.activeBitmap ≠ 0) :
    s.highestPriority < 32 ∧ s.activeBitmap.getLsbD s.highestPriority = true
    ∧ ∀ p q, s.highestPriority < p → s.queues[p]? = some q → q = [] := by
  have hne : s.activeBitmap.toNat ≠ 0 := fun hzero ↦ hactive (BitVec.eq_of_toNat_eq hzero)
  refine ⟨(Nat.log2_lt hne).mpr s.activeBitmap.isLt, ?_, fun p q hp hq ↦ ?_⟩
  · rw [highestPriority, ← BitVec.testBit_toNat]
    exact Nat.testBit_log2 hne
  · by_contra hnil
    have hbit := (h.active p q hq).mpr hnil
    rw [← BitVec.testBit_toNat, Nat.testBit_lt_two_pow] at hbit
    · cases hbit
    · exact Nat.lt_of_lt_of_le Nat.lt_log2_self (Nat.pow_le_pow_right (by decide) hp)

/-- What `dequeue_next` and `next_runnable` find: nothing, or the front of the highest queue that is
not empty. -/
theorem Coherent.dequeueNext_cases (h : s.Coherent) :
    (s.ready = [] ∧ s.dequeueNext = (none, s) ∧ s.nextRunnable = none)
    ∨ ∃ p id rest, s.queues[p]? = some (id :: rest)
      ∧ (∀ p' q', p < p' → s.queues[p']? = some q' → q' = [])
      ∧ s.dequeueNext = (some id, s.leave p rest) ∧ s.nextRunnable = some id := by
  by_cases hzero : s.activeBitmap = 0
  · refine .inl ⟨?_, by rw [Scheduler.dequeueNext, if_pos hzero],
      by rw [nextRunnable, if_pos hzero]⟩
    refine List.flatten_eq_nil_iff.mpr fun q hq ↦ ?_
    obtain ⟨p, hp⟩ := List.mem_iff_getElem?.mp hq
    by_contra hne
    have hbit := (h.active p q hp).mpr hne
    rw [hzero] at hbit
    simp at hbit
  · right
    obtain ⟨hlt, hset, habove⟩ := h.highest hzero
    obtain ⟨q, hq⟩ := h.getElem?_isSome hlt
    cases q with
    | nil => exact absurd rfl ((h.active _ _ hq).mp hset)
    | cons id rest =>
      refine ⟨s.highestPriority, id, rest, hq, habove, ?_, ?_⟩
      · rw [Scheduler.dequeueNext, if_neg hzero]
        simp only [hq]
      · rw [nextRunnable, if_neg hzero, hq]
        rfl

theorem Coherent.exists_queue (h : s.Coherent) (hid : id ∈ s.ready) :
    ∃ p q, p < 32 ∧ s.queues[p]? = some q ∧ id ∈ q ∧ s.activeBitmap.getLsbD p = true := by
  obtain ⟨q, hmem, hid⟩ := List.mem_flatten.mp hid
  obtain ⟨p, hq⟩ := List.mem_iff_getElem?.mp hmem
  exact ⟨p, q, h.lt_of_getElem? hq, hq, hid, (h.active p q hq).mpr (List.ne_nil_of_mem hid)⟩

/-- What `remove_thread` finds: the current thread, a queued one, or none. -/
theorem Coherent.removeThread_cases (h : s.Coherent) (id : ObjectId) :
    (s.currentThread = some id ∧ s.removeThread id = (true, { s with currentThread := none }))
    ∨ (s.currentThread ≠ some id ∧ ∃ p q, s.queues[p]? = some q ∧ id ∈ q
      ∧ s.removeThread id = (true, s.leave p (q.erase id)))
    ∨ (s.currentThread ≠ some id ∧ id ∉ s.ready ∧ s.removeThread id = (false, s)) := by
  rw [Scheduler.removeThread]
  by_cases hcurrent : s.currentThread = some id
  · rw [if_pos hcurrent]
    exact .inl ⟨hcurrent, rfl⟩
  · rw [if_neg hcurrent]
    right
    split
    · next hnone =>
      refine .inr ⟨hcurrent, fun hid ↦ ?_, rfl⟩
      -- Were it queued, the search would have found it.
      obtain ⟨p, q, hp, hq, hid, hactive⟩ := h.exists_queue hid
      have := List.findSome?_eq_none_iff.mp hnone p (List.mem_range.mpr hp)
      rw [if_pos hactive, hq, Option.bind_some, if_pos hid] at this
      cases this
    · next prio rest hsome =>
      obtain ⟨p, -, hfound⟩ := List.exists_of_findSome?_eq_some hsome
      split at hfound
      · obtain ⟨q, hq, heq⟩ := Option.bind_eq_some_iff.mp hfound
        split at heq
        · next hid =>
          obtain ⟨rfl, rfl⟩ := Prod.mk.inj (Option.some.inj heq)
          exact .inl ⟨hcurrent, p, q, hq, hid, rfl⟩
        · cases heq
      · cases hfound

theorem accepts_iff {t : Thread} : s.accepts t = true ↔ ∃ r, s.enqueue t = .ok r := by
  rw [accepts, Scheduler.enqueue]
  by_cases hcontains : s.contains t.id = true
  · simp [hcontains]
  · by_cases hcurrent : s.currentThread = some t.id
    · simp [hcurrent]
    · by_cases hfull : s.capacity ≤ s.count
      · simp [hcontains, hcurrent, hfull, Nat.not_lt_of_le hfull]
      · cases t.makeRunnable <;> simp [hcontains, hcurrent, hfull, Nat.lt_of_not_le hfull]

/-- **A thread is enqueued** where it is not queued yet, and is runnable then. -/
theorem Coherent.enqueue (h : s.Coherent) (hcount : s.count = s.ready.length) {t t' : Thread}
    (henqueue : s.enqueue t = .ok (s', t')) :
    t' = { t with state := .runnable } ∧ t.id ∉ s.ready
      ∧ s'.Coherent ∧ s'.ready.Perm (t.id :: s.ready) := by
  rw [Scheduler.enqueue] at henqueue
  split_ifs at henqueue with hduplicate hfull
  rw [not_or] at hduplicate
  have hready : t.id ∉ s.ready := by
    intro hmem
    refine hduplicate.1 ?_
    have hpos : s.count ≠ 0 := fun hzero ↦
      List.ne_nil_of_mem hmem (List.length_eq_zero_iff.mp (hcount ▸ hzero))
    rw [Scheduler.contains, decide_eq_true hpos, Bool.true_and, List.any_eq_true]
    obtain ⟨q, hq, hid⟩ := List.mem_flatten.mp hmem
    exact ⟨q, hq, by simpa using hid⟩
  split at henqueue
  · cases henqueue
  · next u hu =>
    obtain ⟨rfl, rfl⟩ : _ = s' ∧ u = t' := by simpa using henqueue
    obtain rfl := Thread.makeRunnable_eq hu
    have hp : min t.effectivePriority (priorityLevels - 1) < 32 :=
      Nat.lt_of_le_of_lt (Nat.min_le_right _ _) (by decide)
    exact ⟨rfl, hready,
      h.join hp (fun q ↦ List.perm_append_singleton t.id q) rfl rfl hready⟩

end

end Scheduler

end Gaxera

import Gaxera.Core.Identity
import Gaxera.Data.DeadlineQueue
import Mathlib.Data.List.Induction

/-!
# The timer queue

`TimerQueue` of `kernel-core` keeps the armed timers in the order of their deadlines. It has no list
of what it has promised: an entry is a deadline and an identifier, and both may be there twice. To
say what becomes of *an* entry, each is numbered by the operation that put it in. The numbered queue
is the deadline queue of the library, and the queue of the kernel is what is left of it when the
numbers are rubbed out.

The standard library's `binary_search_by` is a parameter, with its documented contract.
-/

namespace Gaxera

open DeadlineQueue

/-- `TimerError`. -/
inductive TimerError
  | closed
  | queueFull
  | notArmed
deriving DecidableEq, Repr

/-- `TimerEntry`. A `Deadline` is a number of ticks. -/
structure TimerEntry where
  deadline : ℕ
  timerId : ObjectId
deriving DecidableEq, Repr

/-- `Deadline::is_expired`. -/
def TimerEntry.isExpired (entry : TimerEntry) (now : ℕ) : Bool :=
  entry.deadline ≤ now

/-- `TimerQueue`. -/
structure TimerQueue where
  entries : List TimerEntry
  capacity : ℕ
deriving DecidableEq, Repr

namespace TimerQueue

/-- `TimerQueue::try_new`, where `available` entries can be reserved. -/
def tryNew (available capacity : ℕ) : Except TimerError TimerQueue :=
  if available < capacity then .error .queueFull else .ok ⟨[], capacity⟩

/-- `TimerQueue::insert`. -/
def insert (s : BinarySearch) (q : TimerQueue) (entry : TimerEntry) :
    Except TimerError Unit × TimerQueue :=
  if q.entries.length ≥ q.capacity then (.error .queueFull, q)
  else
    let pos :=
      match s.search (q.entries.map TimerEntry.deadline) entry.deadline with
      | .ok pos => pos
      | .error pos => pos
    (.ok (), { q with entries := q.entries.insertIdx pos entry })

/-- `TimerQueue::remove`: the first entry of the timer, if it has one. -/
def remove (q : TimerQueue) (timerId : ObjectId) : TimerQueue :=
  match q.entries.findIdx? fun e ↦ e.timerId = timerId with
  | some pos => { q with entries := q.entries.eraseIdx pos }
  | none => q

/-- `TimerQueue::advance_to`. The callback may keep a state of its own. -/
def advanceTo {σ : Type*} (q : TimerQueue) (now : ℕ) (callback : σ → ObjectId → σ) (state : σ) :
    σ × TimerQueue :=
  let expiredCount := (q.entries.takeWhile fun e ↦ e.isExpired now).length
  ((q.entries.take expiredCount).foldl (fun state e ↦ callback state e.timerId) state,
    { q with entries := q.entries.drop expiredCount })

end TimerQueue

/-! ## Runs -/

inductive TimerOp
  | insert (entry : TimerEntry)
  | remove (timerId : ObjectId)
  | advanceTo (now : ℕ)
deriving DecidableEq, Repr

/-- What a caller sees of an operation: the result of an insertion, and the timers that were passed
to the callback. -/
structure TimerStep where
  result : Except TimerError Unit
  passed : List ObjectId

namespace TimerQueue

variable (s : BinarySearch)

def exec (q : TimerQueue) : TimerOp → TimerStep × TimerQueue
  | .insert entry => (⟨(q.insert s entry).1, []⟩, (q.insert s entry).2)
  | .remove timerId => (⟨.ok (), []⟩, q.remove timerId)
  | .advanceTo now =>
    -- the callback writes down what it is given
    let (passed, q) := q.advanceTo now (fun passed timerId ↦ passed ++ [timerId]) []
    (⟨.ok (), passed⟩, q)

def run (q : TimerQueue) (ops : List TimerOp) : TimerQueue :=
  ops.foldl (fun q op ↦ (q.exec s op).2) q

/-! ## Numbered entries -/

/-- An entry, and the number of the operation that inserted it. -/
structure Numbered where
  index : ℕ
  entry : TimerEntry
deriving DecidableEq, Repr

abbrev Numbered.deadline (x : Numbered) : ℕ := x.entry.deadline

abbrev Numbered.timerId (x : Numbered) : ObjectId := x.entry.timerId

/-- The operation with its number. -/
def number (i : ℕ) : TimerOp → DeadlineOp Numbered ObjectId
  | .insert entry => .insert ⟨i, entry⟩
  | .remove timerId => .remove timerId
  | .advanceTo now => .advanceTo now

def numbered (ops : List TimerOp) : List (DeadlineOp Numbered ObjectId) :=
  ops.zipIdx.map fun (op, i) ↦ number i op

/-- The queue without the numbers. -/
def ofNumbered (q : DeadlineQueue Numbered) : TimerQueue :=
  ⟨q.entries.map Numbered.entry, q.capacity⟩

/-- What a caller sees of a step of the numbered queue. -/
def stepOfNumbered (step : DeadlineStep Numbered) : TimerStep :=
  ⟨if step.accepted then .ok () else .error .queueFull, step.fired.map Numbered.timerId⟩

/-! ### The operations on lists -/

variable {s}

private theorem insertIdx_eq_append {α : Type*} (l : List α) {i : ℕ} (x : α) (hi : i ≤ l.length) :
    l.insertIdx i x = l.take i ++ x :: l.drop i := by
  induction l generalizing i with
  | nil =>
    obtain rfl : i = 0 := Nat.le_zero.mp hi
    rfl
  | cons y l ih =>
    rcases i with _ | i
    · rfl
    · rw [List.insertIdx_succ_cons, ih (Nat.le_of_succ_le_succ hi)]
      rfl

theorem remove_eq (q : TimerQueue) (timerId : ObjectId) :
    q.remove timerId = { q with entries := q.entries.eraseP fun e ↦ e.timerId = timerId } := by
  rw [remove, List.eraseP_eq_eraseIdx]
  rcases q.entries.findIdx? _ with _ | pos <;> rfl

private theorem foldl_append_timerId (l : List TimerEntry) (passed : List ObjectId) :
    l.foldl (fun passed e ↦ passed ++ [e.timerId]) passed = passed ++ l.map TimerEntry.timerId := by
  induction l generalizing passed with
  | nil => exact (List.append_nil passed).symm
  | cons e l ih =>
    rw [List.foldl_cons, ih, List.append_assoc]
    rfl

theorem advanceTo_eq (q : TimerQueue) (now : ℕ) :
    q.advanceTo now (fun passed timerId ↦ passed ++ [timerId]) []
      = ((q.entries.takeWhile fun e ↦ e.isExpired now).map TimerEntry.timerId,
        { q with entries := q.entries.dropWhile fun e ↦ e.isExpired now }) := by
  have htake : q.entries.take (q.entries.takeWhile fun e ↦ e.isExpired now).length
      = q.entries.takeWhile fun e ↦ e.isExpired now :=
    (List.prefix_iff_eq_take.mp <| List.takeWhile_prefix _).symm
  have hdrop : q.entries.drop (q.entries.takeWhile fun e ↦ e.isExpired now).length
      = q.entries.dropWhile fun e ↦ e.isExpired now := by
    have happend := List.takeWhile_append_dropWhile (p := fun e : TimerEntry ↦ e.isExpired now)
      (l := q.entries)
    calc _ = ((q.entries.takeWhile fun e ↦ e.isExpired now)
          ++ q.entries.dropWhile fun e ↦ e.isExpired now).drop _ := by rw [happend]
      _ = _ := List.drop_left
  rw [advanceTo, htake, hdrop, foldl_append_timerId, List.nil_append]

/-! ### Rubbing out the numbers -/

/-- **One step of the kernel's queue is one step of the numbered queue.** -/
theorem exec_ofNumbered {g : DeadlineQueue Numbered} (h : g.Wf Numbered.deadline) (i : ℕ)
    (op : TimerOp) :
    (ofNumbered g).exec s op
      = (stepOfNumbered (g.exec s Numbered.deadline Numbered.timerId (number i op)).1,
        ofNumbered (g.exec s Numbered.deadline Numbered.timerId (number i op)).2) := by
  rcases op with entry | timerId | now
  · have hkeys : (g.entries.map Numbered.entry).map TimerEntry.deadline
        = g.entries.map Numbered.deadline := List.map_map
    have hlength : (ofNumbered g).entries.length = g.entries.length := List.length_map _
    rw [exec, insert, number, DeadlineQueue.exec, hlength]
    by_cases hfull : g.entries.length ≥ g.capacity
    · rw [if_pos hfull, if_pos (show (ofNumbered g).capacity ≤ _ from hfull)]
      rfl
    · rw [if_neg hfull, if_neg (show ¬ (ofNumbered g).capacity ≤ _ from hfull)]
      have hpos := (s.position_spec (List.pairwise_map.mpr h.sorted) entry.deadline).1
      rw [List.length_map, ← List.length_map Numbered.entry] at hpos
      refine Prod.ext rfl (congrArg (TimerQueue.mk · g.capacity) ?_)
      change (g.entries.map Numbered.entry).insertIdx
        (s.position ((g.entries.map Numbered.entry).map TimerEntry.deadline) entry.deadline) entry
        = _
      rw [hkeys, insertIdx_eq_append _ _ hpos, List.map_append, List.map_cons, List.map_take,
        List.map_drop]
  · rw [exec, remove_eq, number]
    exact Prod.ext rfl (congrArg (TimerQueue.mk · g.capacity) List.eraseP_map)
  · rw [exec, advanceTo_eq, number]
    refine Prod.ext (congrArg (TimerStep.mk _) ?_) (congrArg (TimerQueue.mk · g.capacity) ?_)
    · change ((g.entries.map Numbered.entry).takeWhile _).map _ = _
      rw [List.takeWhile_map, List.map_map]
      rfl
    · exact List.dropWhile_map ..

theorem getElem?_numbered (ops : List TimerOp) (k : ℕ) :
    (numbered ops)[k]? = ops[k]?.map (number k) := by
  rw [numbered, List.getElem?_map, List.getElem?_zipIdx, Option.map_map, Nat.zero_add]
  rfl

theorem numbered_take (ops : List TimerOp) (k : ℕ) :
    numbered (ops.take k) = (numbered ops).take k := by
  refine List.ext_getElem? fun j ↦ ?_
  rw [getElem?_numbered, List.getElem?_take, List.getElem?_take, getElem?_numbered]
  split <;> rfl

variable (s) in
/-- The numbered queue after some operations. -/
def numberedQueue (capacity : ℕ) (ops : List TimerOp) : DeadlineQueue Numbered :=
  (⟨[], capacity⟩ : DeadlineQueue Numbered).run s Numbered.deadline Numbered.timerId (numbered ops)

variable (s) in
theorem wf_numberedQueue (capacity : ℕ) (ops : List TimerOp) :
    (numberedQueue s capacity ops).Wf Numbered.deadline :=
  DeadlineQueue.Wf.run ⟨List.Pairwise.nil, Nat.zero_le _⟩ _

theorem capacity_numberedQueue (capacity : ℕ) (ops : List TimerOp) :
    (numberedQueue s capacity ops).capacity = capacity :=
  capacity_run ..

/-- **The kernel's queue is the numbered queue without its numbers**, after any operations. -/
theorem run_eq_ofNumbered (capacity : ℕ) (ops : List TimerOp) :
    (⟨[], capacity⟩ : TimerQueue).run s ops = ofNumbered (numberedQueue s capacity ops) := by
  induction ops using List.reverseRecOn with
  | nil => rfl
  | append_singleton ops op ih =>
    have hnumbered : numbered (ops ++ [op]) = numbered ops ++ [number ops.length op] := by
      simp [numbered, List.zipIdx_append]
    have hlast : (⟨[], capacity⟩ : TimerQueue).run s (ops ++ [op])
        = ((ofNumbered (numberedQueue s capacity ops)).exec s op).2 := by
      rw [← ih, run, List.foldl_append]
      rfl
    have hlast' : numberedQueue s capacity (ops ++ [op])
        = ((numberedQueue s capacity ops).exec s Numbered.deadline Numbered.timerId
          (number ops.length op)).2 := by
      rw [numberedQueue, hnumbered, DeadlineQueue.run, List.foldl_append]
      rfl
    rw [hlast, hlast']
    exact congrArg Prod.snd (exec_ofNumbered (wf_numberedQueue s capacity ops) ops.length op)

/-! ## Every timer -/

variable (s) in
/-- What the operations have done to the numbered entries. -/
def history (capacity : ℕ) (ops : List TimerOp) : List (DeadlineStep Numbered) :=
  (⟨[], capacity⟩ : DeadlineQueue Numbered).journal s Numbered.deadline Numbered.timerId
    (numbered ops)

theorem getElem?_history (capacity : ℕ) (ops : List TimerOp) (k : ℕ) :
    (history s capacity ops)[k]? = ops[k]?.map fun op ↦
      ((numberedQueue s capacity (ops.take k)).exec s Numbered.deadline Numbered.timerId
        (number k op)).1 := by
  rw [history, DeadlineQueue.getElem?_journal, getElem?_numbered, Option.map_map, numberedQueue,
    numbered_take]
  rfl

/-- The number of an entry in the queue is that of the operation which inserted it. -/
theorem mem_numberedQueue {capacity : ℕ} {ops : List TimerOp} {k : ℕ} {x : Numbered}
    (hx : x ∈ (numberedQueue s capacity (ops.take k)).entries) :
    x.index < k ∧ ops[x.index]? = some (.insert x.entry)
      ∧ (history s capacity ops)[x.index]?.map DeadlineStep.accepted = some true := by
  rw [numberedQueue, numbered_take] at hx
  rcases mem_run hx with hx | ⟨i, hi, hop, haccepted⟩
  · exact absurd hx List.not_mem_nil
  · rw [getElem?_numbered, Option.map_eq_some_iff] at hop
    obtain ⟨op, hop, hnumber⟩ := hop
    rcases op with entry | timerId | now
    · obtain rfl : ⟨i, entry⟩ = x := DeadlineOp.insert.inj hnumber
      exact ⟨hi, hop, haccepted⟩
    · exact absurd hnumber (by simp [number])
    · exact absurd hnumber (by simp [number])

/-- An entry that comes in is the only one of its number, and none of its number comes later. -/
theorem fate_of_accepted {capacity : ℕ} {ops : List TimerOp} {k : ℕ} {entry : TimerEntry}
    (hop : ops[k]? = some (.insert entry))
    (haccepted : (history s capacity ops)[k]?.map DeadlineStep.accepted = some true) :
    DeadlineQueue.Fate Numbered.deadline ⟨k, entry⟩ ((numbered ops).drop (k + 1))
      ((history s capacity ops).drop (k + 1)) := by
  have hfresh : (numberedQueue s capacity (ops.take k)).entries.count ⟨k, entry⟩ = 0 :=
    List.count_eq_zero.mpr fun hmem ↦ Nat.lt_irrefl k (mem_numberedQueue hmem).1
  have hnumber : (numbered ops)[k]? = some (.insert ⟨k, entry⟩) := by
    rw [getElem?_numbered, hop]
    rfl
  rw [getElem?_history, hop] at haccepted
  have hcount := count_of_accepted (Option.some.inj haccepted)
  rw [hfresh, numberedQueue, numbered_take, ← run_take_succ _ hnumber] at hcount
  rw [history, drop_journal]
  refine fate s _ (DeadlineQueue.Wf.run ⟨.nil, Nat.zero_le _⟩ _) hcount ?_
  intro op hmem heq
  obtain ⟨j, hj⟩ := List.mem_iff_getElem?.mp hmem
  rw [List.getElem?_drop, getElem?_numbered, Option.map_eq_some_iff] at hj
  obtain ⟨op', -, hop'⟩ := hj
  rw [heq] at hop'
  rcases op' with entry' | timerId | now
  · have hindex : k + 1 + j = k := congrArg Numbered.index (DeadlineOp.insert.inj hop')
    omega
  · exact absurd hop' (by simp [number])
  · exact absurd hop' (by simp [number])

/-- **Timers fire exactly once, on time and in order.** In every run of the queue, whatever its
capacity and whatever the search does with equal deadlines:

* the queue is sorted by deadline and within its capacity, before and after every operation, and it
  is the numbered queue without its numbers;
* what an operation passes to the callback are the timers of the entries which it lets go, in the
  order of their deadlines, and each of those was accepted before;
* an insertion is refused and changes nothing, or its entry meets its fate: it is taken out before
  it is due and never passed on, or it is passed on exactly once, by the first advance that reaches
  its deadline. -/
theorem timers_fire_once_on_time_in_order (s : BinarySearch) (capacity : ℕ) (ops : List TimerOp) :
    (∀ k, let q := (⟨[], capacity⟩ : TimerQueue).run s (ops.take k)
      q.entries.Pairwise (fun e e' ↦ e.deadline ≤ e'.deadline) ∧ q.entries.length ≤ capacity
        ∧ q = ofNumbered (numberedQueue s capacity (ops.take k)))
    ∧ (∀ k op, ops[k]? = some op → ∃ step, (history s capacity ops)[k]? = some step
      ∧ (((⟨[], capacity⟩ : TimerQueue).run s (ops.take k)).exec s op).1 = stepOfNumbered step
      ∧ step.fired.Pairwise (fun x y ↦ x.deadline ≤ y.deadline)
      ∧ ∀ x ∈ step.fired, x.index < k ∧ ops[x.index]? = some (.insert x.entry)
        ∧ (history s capacity ops)[x.index]?.map DeadlineStep.accepted = some true)
    ∧ ∀ k entry, ops[k]? = some (.insert entry) →
      let q := (⟨[], capacity⟩ : TimerQueue).run s (ops.take k)
      q.insert s entry = (.error .queueFull, q)
        ∨ (q.insert s entry).1 = .ok ()
          ∧ DeadlineQueue.Fate Numbered.deadline ⟨k, entry⟩ ((numbered ops).drop (k + 1))
            ((history s capacity ops).drop (k + 1)) := by
  refine ⟨fun k ↦ ?_, fun k op hop ↦ ?_, fun k entry hop ↦ ?_⟩
  · have hwf := wf_numberedQueue s capacity (ops.take k)
    simp only [run_eq_ofNumbered]
    refine ⟨List.pairwise_map.mpr hwf.sorted, ?_, trivial⟩
    have hbounded := hwf.bounded
    rw [capacity_numberedQueue] at hbounded
    exact (List.length_map _).trans_le hbounded
  · have hwf := wf_numberedQueue s capacity (ops.take k)
    refine ⟨_, by rw [getElem?_history, hop]; rfl, ?_, ?_, ?_⟩
    · rw [run_eq_ofNumbered, exec_ofNumbered hwf k op]
    · exact hwf.sorted.sublist (DeadlineQueue.fired_sublist ..)
    · exact fun x hx ↦ mem_numberedQueue ((DeadlineQueue.fired_sublist ..).subset hx)
  · by_cases hfull : ((⟨[], capacity⟩ : TimerQueue).run s (ops.take k)).entries.length
        ≥ ((⟨[], capacity⟩ : TimerQueue).run s (ops.take k)).capacity
    · exact .inl (if_pos hfull)
    · have hok : (((⟨[], capacity⟩ : TimerQueue).run s (ops.take k)).insert s entry).1
          = .ok () := by
        rw [insert, if_neg hfull]
      refine .inr ⟨hok, fate_of_accepted hop ?_⟩
      -- the numbered queue takes in what the kernel's queue takes in
      have hstep := exec_ofNumbered (s := s) (wf_numberedQueue s capacity (ops.take k)) k
        (.insert entry)
      rw [← run_eq_ofNumbered] at hstep
      have hresult := congrArg (fun r : TimerStep × TimerQueue ↦ r.1.result) hstep
      simp only [exec, hok, stepOfNumbered] at hresult
      rw [getElem?_history, hop]
      refine congrArg some (Decidable.byContradiction fun hrefused ↦ ?_)
      rw [if_neg hrefused] at hresult
      exact absurd hresult (by simp)

/-- Two timers with one deadline and one of a later deadline; the earlier two are passed on
together. -/
example : ((⟨[], 3⟩ : TimerQueue).run .linear [.insert ⟨7, ⟨1, 1⟩⟩, .insert ⟨9, ⟨2, 1⟩⟩,
    .insert ⟨7, ⟨3, 1⟩⟩, .advanceTo 8]).entries = [⟨9, ⟨2, 1⟩⟩] := by decide

end TimerQueue

end Gaxera

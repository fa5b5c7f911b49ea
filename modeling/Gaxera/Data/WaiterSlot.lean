import Mathlib.Data.List.Nodup

/-!
# Objects with room for one waiter

An operation on such an object tells its caller to block, or hands it a thread that has to be woken,
or neither. The threads that were told to block and have not been handed out again are the ones that
rely on the object: they are read off the answers, and the object has no say in it. The object
remembers one thread.

No waiter is lost when, after every operation, the object remembers exactly the threads that rely on
it. That is so in a run if and only if no operation tells a thread to block while the object
remembers another one.
-/

namespace Gaxera

/-- What an operation says about waiting. -/
inductive WaitAnswer (θ : Type*)
  | blocks (thread : θ)
  | wakes (thread : θ)
  | neither

namespace WaitAnswer

variable {θ : Type*}

/-- The waiter that is remembered after an answer. -/
def slot (remembered : Option θ) : WaitAnswer θ → Option θ
  | .blocks thread => some thread
  | .wakes _ => none
  | .neither => remembered

/-- The thread that an operation returns is to be woken. -/
def ofWoken : Option θ → WaitAnswer θ
  | some thread => .wakes thread
  | none => .neither

/-- A wait blocks when it returns the thread. -/
def ofWait {ε α : Type*} : Except ε (Except θ α) → WaitAnswer θ
  | .ok (.error thread) => .blocks thread
  | _ => .neither

theorem ofWait_ne_wakes {ε α : Type*} (result : Except ε (Except θ α)) (thread : θ) :
    ofWait result ≠ .wakes thread := by
  rcases result with _ | (_ | _) <;> simp [ofWait]

theorem ofWoken_ne_blocks (woken : Option θ) (thread : θ) : ofWoken woken ≠ .blocks thread := by
  rcases woken with _ | _ <;> simp [ofWoken]

/-- An operation that hands out the waiter, or leaves it where it is. -/
def HandsOut (remembered woken remembered' : Option θ) : Prop :=
  woken = none ∧ remembered' = remembered ∨ woken = remembered ∧ remembered' = none

theorem HandsOut.slot_eq {remembered woken remembered' : Option θ}
    (h : HandsOut remembered woken remembered') :
    remembered' = (ofWoken woken).slot remembered := by
  rcases h with ⟨rfl, rfl⟩ | ⟨rfl, rfl⟩
  · rfl
  · rcases woken with _ | thread <;> rfl

theorem HandsOut.eq_of_wakes {remembered woken remembered' : Option θ} {thread : θ}
    (h : HandsOut remembered woken remembered') (hwakes : ofWoken woken = .wakes thread) :
    remembered = some thread := by
  rcases h with ⟨rfl, -⟩ | ⟨rfl, -⟩
  · exact absurd hwakes (by simp [ofWoken])
  · rcases woken with _ | other
    · exact absurd hwakes (by simp [ofWoken])
    · exact congrArg some (wakes.inj hwakes)

end WaitAnswer

/-- An object that remembers one waiter, as its operations show it. -/
structure WaiterSlot (σ ω θ : Type*) where
  slot : σ → Option θ
  exec : σ → ω → WaitAnswer θ × σ
  /-- What is remembered after an operation is decided by its answer. -/
  slot_exec : ∀ s op, slot (exec s op).2 = (exec s op).1.slot (slot s)
  /-- Whoever is handed out was remembered. -/
  slot_of_wakes : ∀ {s op thread}, (exec s op).1 = .wakes thread → slot s = some thread

namespace WaiterSlot

variable {σ ω θ : Type*} [DecidableEq θ] (W : WaiterSlot σ ω θ)

/-- The threads that rely on the object, after an answer. -/
def rely (waiters : List θ) : WaitAnswer θ → List θ
  | .blocks thread => if thread ∈ waiters then waiters else waiters ++ [thread]
  | .wakes thread => waiters.erase thread
  | .neither => waiters

def run (s : σ) (ops : List ω) : σ :=
  ops.foldl (fun s op ↦ (W.exec s op).2) s

/-- The threads that rely on the object after some operations. -/
def relying (s : σ) (ops : List ω) : List θ :=
  (ops.foldl (fun (s, waiters) op ↦ ((W.exec s op).2, rely waiters (W.exec s op).1))
    (s, (W.slot s).toList)).2

/-- After every operation the object remembers exactly those who rely on it. -/
def LosesNone (s : σ) (ops : List ω) : Prop :=
  ∀ k, (W.slot (W.run s (ops.take k))).toList = W.relying s (ops.take k)

/-- No operation tells a thread to block while another one is remembered. -/
def OneAtATime (s : σ) (ops : List ω) : Prop :=
  ∀ k op thread, ops[k]? = some op → (W.exec (W.run s (ops.take k)) op).1 = .blocks thread →
    W.slot (W.run s (ops.take k)) = none ∨ W.slot (W.run s (ops.take k)) = some thread

variable {W} {s : σ}

private theorem foldl_fst (ops : List ω) (s : σ) (waiters : List θ) :
    (ops.foldl (fun (s, waiters) op ↦ ((W.exec s op).2, rely waiters (W.exec s op).1))
      (s, waiters)).1 = W.run s ops := by
  induction ops generalizing s waiters with
  | nil => rfl
  | cons op ops ih => exact ih _ _

omit [DecidableEq θ] in
theorem run_take_succ {ops : List ω} {k : ℕ} {op : ω} (hop : ops[k]? = some op) :
    W.run s (ops.take (k + 1)) = (W.exec (W.run s (ops.take k)) op).2 := by
  rw [List.take_add_one, hop, run, List.foldl_append]
  rfl

theorem relying_take_succ {ops : List ω} {k : ℕ} {op : ω} (hop : ops[k]? = some op) :
    W.relying s (ops.take (k + 1))
      = rely (W.relying s (ops.take k)) (W.exec (W.run s (ops.take k)) op).1 := by
  rw [List.take_add_one, hop, relying, List.foldl_append, ← foldl_fst (ops.take k) s]
  rfl

/-- **One step.** Where the object remembers those who rely on it, it goes on doing so exactly when
it does not forget one thread for another. -/
theorem step_iff (s : σ) (op : ω) :
    (W.slot (W.exec s op).2).toList = rely (W.slot s).toList (W.exec s op).1
      ↔ ∀ thread, (W.exec s op).1 = .blocks thread → W.slot s = none ∨ W.slot s = some thread := by
  rw [W.slot_exec]
  rcases hanswer : (W.exec s op).1 with thread | thread | _
  · rcases hslot : W.slot s with _ | other
    · simp [rely, WaitAnswer.slot]
    · by_cases heq : thread = other
      · simp [rely, WaitAnswer.slot, heq]
      · -- the list of those who rely on it has grown to two
        have hne : ¬ other = thread := fun h ↦ heq h.symm
        simp [rely, WaitAnswer.slot, heq, hne]
  · rw [W.slot_of_wakes hanswer]
    simp [rely, WaitAnswer.slot]
  · simp [rely, WaitAnswer.slot]

/-- **No waiter is lost exactly when they come one at a time.** -/
theorem losesNone_iff (ops : List ω) : W.LosesNone s ops ↔ W.OneAtATime s ops := by
  constructor
  · intro h k op thread hop hblocks
    have hstep := h (k + 1)
    rw [run_take_succ hop, relying_take_succ hop, ← h k] at hstep
    exact (step_iff _ op).mp hstep thread hblocks
  · intro h k
    induction k with
    | zero => rfl
    | succ k ih =>
      rcases hop : ops[k]? with _ | op
      · rw [List.take_add_one, hop, Option.toList_none, List.append_nil]
        exact ih
      · rw [run_take_succ hop, relying_take_succ hop, ← ih]
        exact (step_iff _ op).mpr fun thread hblocks ↦ h k op thread hop hblocks

end WaiterSlot

end Gaxera

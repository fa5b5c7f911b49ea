import Gaxera.Core.Waiting
import Gaxera.Data.Interference
import Mathlib.Data.List.Nodup

/-!
# Leases of interrupt vectors

An entry of the vector table is a handful of atomics. The kernel writes them one by one when it
leases a vector, binds it, unbinds it or takes it back, and the interrupt handler may run between
any two of these accesses. What keeps a vector from being taken for that of a later owner is the
generation, which is counted up at every release, and the order of the stores: a vector is made
inactive before its notification is cleared, and its notification is clear before it can be active
again.

The four operations are programs of atomic accesses. The handler changes nothing but the mark that
an interrupt is pending, so it is an environment that may change that mark and nothing else. A log
has the operations that have returned, the newest first, with their answers; it is what owners know.
Everything is then read off one agreement between an entry of the table and the log, `Settled`,
which holds whenever no operation is under way on that entry.
-/

namespace Gaxera

open Accesses

inductive VectorError
  | exhausted
  | invalidVector
  | staleGeneration
deriving DecidableEq, Repr

inductive VectorAnswer
  | leased (lease : VectorLease)
  | done
  | refused (err : VectorError)
deriving DecidableEq, Repr

inductive VectorOp
  | allocate (irq : ℕ) (interrupt : ObjectId)
  | release (lease : VectorLease)
  | bind (lease : VectorLease) (notification : ObjectId)
  | unbind (lease : VectorLease)
deriving DecidableEq, Repr

/-- `VECTOR_COUNT`. -/
def vectorCount : ℕ := deviceVectorLast - deviceVectorFirst + 1

/-- `index`. -/
def vectorIndex (vector : ℕ) : Option ℕ :=
  if vector < deviceVectorFirst ∨ deviceVectorLast < vector then none
  else some (vector - deviceVectorFirst)

/-! ## The operations, access by access -/

namespace VectorSlot

abbrev Program := Accesses VectorSlot VectorAnswer

/-- `VectorSlot::new`. -/
def new : VectorSlot := ⟨false, 0, 1, 0, 0, false⟩

def load {β : Type} (read : VectorSlot → β) (next : β → Program) : Program :=
  .access id fun s ↦ next (read s)

def store (write : VectorSlot → VectorSlot) (next : Program) : Program := .access write fun _ ↦ next

/-- `allocate`. -/
def allocating (irq : ℕ) (interrupt : ObjectId) : Program :=
  -- `compare_exchange(false, true)`
  .access (fun s ↦ if s.active then s else { s with active := true }) fun s ↦
    if s.active then .done (.refused .exhausted)
    else
      load VectorSlot.generation fun generation ↦
      store (fun s ↦ { s with irq := irq }) <|
      store (fun s ↦ { s with interrupt := interrupt.raw }) <|
      store (fun s ↦ { s with notification := 0 }) <|
      store (fun s ↦ { s with pending := false }) <|
      .done (.leased ⟨deviceVectorFirst + irq, generation⟩)

/-- `release`. -/
def releasing (lease : VectorLease) : Program :=
  load VectorSlot.generation fun generation ↦
  if generation ≠ lease.generation then .done (.refused .staleGeneration)
  else
    load VectorSlot.active fun active ↦
    if active = false then .done (.refused .staleGeneration)
    else
      store (fun s ↦ { s with active := false }) <|
      store (fun s ↦ { s with interrupt := 0 }) <|
      store (fun s ↦ { s with notification := 0 }) <|
      store (fun s ↦ { s with pending := false }) <|
      -- `fetch_add(1)`, which answers with the generation before
      .access (fun s ↦ { s with generation := s.generation + 1 }) fun s ↦
        if s.generation + 1 = 0 then
          store (fun s ↦ { s with generation := 1 }) <| .done .done
        else .done .done

/-- `bind`. -/
def binding (lease : VectorLease) (notification : ObjectId) : Program :=
  load VectorSlot.active fun active ↦
  if active = false then .done (.refused .staleGeneration)
  else
    load VectorSlot.generation fun generation ↦
    if generation ≠ lease.generation ∨ notification.raw = 0 then .done (.refused .staleGeneration)
    else store (fun s ↦ { s with notification := notification.raw }) <| .done .done

/-- `unbind`. -/
def unbinding (lease : VectorLease) : Program :=
  load VectorSlot.active fun active ↦
  if active = false then .done (.refused .staleGeneration)
  else
    load VectorSlot.generation fun generation ↦
    if generation ≠ lease.generation then .done (.refused .staleGeneration)
    else
      store (fun s ↦ { s with notification := 0 }) <|
      store (fun s ↦ { s with pending := false }) <| .done .done

/-! ### Nobody interferes

The system calls are modelled with the operations in one piece. These are the programs, run alone.
-/

section Alone

variable {vectors : List VectorSlot} {s : VectorSlot}

theorem allocate_eq_alone {irq : ℕ} (hirq : irq < 16) (hs : vectors[irq]? = some s)
    (interrupt : ObjectId) :
    allocate vectors irq interrupt
      = (match ((allocating irq interrupt).alone s).1 with
          | .leased lease => some lease
          | _ => none,
        vectors.set irq ((allocating irq interrupt).alone s).2) := by
  obtain ⟨hlt, rfl⟩ := List.getElem?_eq_some_iff.mp hs
  rw [allocate, if_neg (by omega), hs]
  rcases hactive : vectors[irq].active with _ | _
  · simp [allocating, load, store, alone, hactive]
  · simp [allocating, alone, hactive]

variable {lease : VectorLease}

theorem leased_eq (hvector : deviceVectorFirst ≤ lease.vector)
    (hs : vectors[lease.vector - deviceVectorFirst]? = some s) :
    leased vectors lease
      = if s.active = false ∨ s.generation ≠ lease.generation then none else some s := by
  rw [leased, if_neg (Nat.not_lt.mpr hvector), hs]

theorem set_eq_self {i : ℕ} (hs : vectors[i]? = some s) : vectors.set i s = vectors := by
  obtain ⟨hlt, rfl⟩ := List.getElem?_eq_some_iff.mp hs
  exact List.set_getElem_self hlt

theorem release_eq_alone (hvector : deviceVectorFirst ≤ lease.vector)
    (hs : vectors[lease.vector - deviceVectorFirst]? = some s) :
    release vectors lease
      = vectors.set (lease.vector - deviceVectorFirst) ((releasing lease).alone s).2 := by
  rw [release, leased_eq hvector hs]
  have hset := set_eq_self hs
  by_cases hgeneration : s.generation = lease.generation
  · rcases hactive : s.active with _ | _
    · simp [releasing, load, alone, hgeneration, hactive, hset]
    · by_cases hwrap : lease.generation + 1 = 0
      · simp [releasing, load, store, alone, hgeneration, hactive, nextGeneration, hwrap]
      · simp [releasing, load, store, alone, hgeneration, hactive, nextGeneration, hwrap]
  · simp [releasing, load, alone, hgeneration, hset]

theorem unbind_eq_alone (hvector : deviceVectorFirst ≤ lease.vector)
    (hs : vectors[lease.vector - deviceVectorFirst]? = some s) :
    unbind vectors lease
      = vectors.set (lease.vector - deviceVectorFirst) ((unbinding lease).alone s).2 := by
  rw [unbind, leased_eq hvector hs]
  have hset := set_eq_self hs
  rcases hactive : s.active with _ | _
  · simp [unbinding, load, alone, hactive, hset]
  · by_cases hgeneration : s.generation = lease.generation
    · simp [unbinding, load, store, alone, hgeneration, hactive]
    · simp [unbinding, load, alone, hgeneration, hactive, hset]

end Alone

end VectorSlot

namespace VectorOp

def program : VectorOp → VectorSlot.Program
  | .allocate irq interrupt => VectorSlot.allocating irq interrupt
  | .release lease => VectorSlot.releasing lease
  | .bind lease notification => VectorSlot.binding lease notification
  | .unbind lease => VectorSlot.unbinding lease

/-- The entry of the table that an operation is about. -/
def index : VectorOp → Option ℕ
  | .allocate irq _ => if 16 ≤ irq then none else some irq
  | .release lease | .bind lease _ | .unbind lease => vectorIndex lease.vector

/-- The lease that an operation is made with. -/
def lease : VectorOp → Option VectorLease
  | .allocate _ _ => none
  | .release lease | .bind lease _ | .unbind lease => some lease

end VectorOp

/-! ## The log -/

/-- The operations that have returned, the newest first. -/
abbrev VectorLog := List (VectorOp × VectorAnswer)

/-- The operation has gone through. -/
def VectorAnswer.Succeeds : VectorAnswer → Prop
  | .refused _ => False
  | _ => True

instance (answer : VectorAnswer) : Decidable answer.Succeeds :=
  match answer with
  | .refused _ => .isFalse id
  | .leased _ | .done => .isTrue trivial

namespace VectorLog

/-- The entry is a release of the vector. -/
def isRelease (i : ℕ) : VectorOp × VectorAnswer → Bool
  | (.release lease, .done) => vectorIndex lease.vector = some i
  | _ => false

/-- How often the vector has been released. -/
def releases (i : ℕ) (log : VectorLog) : ℕ := log.countP (isRelease i)

/-- The leases that were given and have not been released. -/
def live : VectorLog → List VectorLease
  | [] => []
  | (op, answer) :: log =>
    match op, answer with
    | .allocate _ _, .leased lease => lease :: live log
    | .release lease, .done => (live log).filter (· ≠ lease)
    | _, _ => live log

/-- The generation and the notification of the vector, if the last operation on it that has gone
through was a `bind`. -/
def bound (i : ℕ) : VectorLog → Option (UInt32 × ObjectId)
  | [] => none
  | (op, answer) :: log =>
    if op.index = some i ∧ answer.Succeeds then
      match op with
      | .bind lease notification => some (lease.generation, notification)
      | _ => none
    else bound i log

end VectorLog

/-! ## The table, with an operation under way -/

structure Vectors where
  slots : List VectorSlot
  /-- The operation that is under way, on which entry, and what is left of it. -/
  running : Option (VectorOp × ℕ × VectorSlot.Program)
  log : VectorLog

inductive VectorAct
  | start (op : VectorOp)
  | access
  | dispatch (vector : ℕ)

namespace Vectors

def new : Vectors := ⟨List.replicate vectorCount VectorSlot.new, none, []⟩

/-- The kernel starts an operation when none is under way, and makes one access after the other; the
interrupt handler runs at any time. -/
def exec (v : Vectors) : VectorAct → Option DispatchRecord × Vectors
  | .start op =>
    match v.running, op.index with
    | some _, _ => (none, v)
    | none, none => (none, { v with log := (op, .refused .invalidVector) :: v.log })
    | none, some i => (none, { v with running := some (op, i, op.program) })
  | .access =>
    match v.running with
    | some (op, i, .access write next) =>
      match v.slots[i]? with
      | none => (none, v)
      | some s =>
        let slots := v.slots.set i (write s)
        match next s with
        | .done answer => (none, ⟨slots, none, (op, answer) :: v.log⟩)
        | program => (none, { v with slots, running := some (op, i, program) })
    | _ => (none, v)
  | .dispatch vector =>
    let (record, slots) := VectorSlot.dispatch v.slots vector
    (record, { v with slots })

def run (v : Vectors) (acts : List VectorAct) : Vectors :=
  acts.foldl (fun v act ↦ (v.exec act).2) v

end Vectors

end Gaxera

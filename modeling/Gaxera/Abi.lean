import Mathlib.Algebra.Ring.Nat
import Mathlib.Tactic.Common

/-!
# The user/kernel ABI

The words that cross the system call boundary: status codes, opaque handles, the object taxonomy,
sets of object types, and rights. Handles and identities are machine words and stay machine words
here, because their packing and the wrap-around of a generation are part of what is proved. Rights
are bit vectors, with the two comparisons the kernel makes between them; both are read through
membership of a bit, so that later arguments about rights are arguments about sets.
-/

namespace Gaxera

/-! ## Status codes -/

/-- The status words a system call returns. -/
inductive Status
  | success
  | invalidHandle
  | rightsDenied
  | invalidArgument
  | resourceExhausted
  | timedOut
  | mappingCollision
  | objectLimit
  | capabilityLimit
  | memoryLimit
  | notSupported
  | internalError
deriving DecidableEq, Repr

/-! ## Handles -/

/-- An opaque capability handle: the generation in the high half, the slot in the low half. -/
@[ext]
structure Handle where
  raw : UInt64
deriving DecidableEq, Repr

namespace Handle

def fromParts (slot generation : UInt32) : Handle :=
  ⟨(generation.toUInt64 <<< 32) ||| slot.toUInt64⟩

def slot (h : Handle) : UInt32 := h.raw.toUInt32

def generation (h : Handle) : UInt32 := (h.raw >>> 32).toUInt32

def isValid (h : Handle) : Bool := decide (h.raw ≠ 0)

private theorem toNat_fromParts (s g : UInt32) :
    (fromParts s g).raw.toNat = g.toNat * 2 ^ 32 + s.toNat := by
  have hs := s.toNat_lt
  have hg := g.toNat_lt
  have hshift : (g.toUInt64 <<< 32).toNat = g.toNat <<< 32 := by
    rw [UInt64.toNat_shiftLeft, UInt32.toNat_toUInt64, Nat.shiftLeft_eq, Nat.shiftLeft_eq]
    exact Nat.mod_eq_of_lt (by change g.toNat * 2 ^ 32 < 2 ^ 64; omega)
  rw [fromParts, UInt64.toNat_or, hshift, UInt32.toNat_toUInt64,
    ← Nat.shiftLeft_add_eq_or_of_lt hs, Nat.shiftLeft_eq]

private theorem toNat_slot (h : Handle) : h.slot.toNat = h.raw.toNat % 2 ^ 32 := by
  simp [slot]

private theorem toNat_generation (h : Handle) : h.generation.toNat = h.raw.toNat / 2 ^ 32 := by
  have := h.raw.toNat_lt
  simp [generation, Nat.shiftRight_eq_div_pow]
  omega

@[simp] theorem slot_fromParts (s g : UInt32) : (fromParts s g).slot = s := by
  apply UInt32.toNat_inj.mp
  rw [toNat_slot, toNat_fromParts]
  have hs := s.toNat_lt
  omega

@[simp] theorem generation_fromParts (s g : UInt32) : (fromParts s g).generation = g := by
  apply UInt32.toNat_inj.mp
  rw [toNat_generation, toNat_fromParts]
  have hs := s.toNat_lt
  omega

theorem eq_of_slot_eq_of_generation_eq {h h' : Handle} (hs : h.slot = h'.slot)
    (hg : h.generation = h'.generation) : h = h' := by
  have hs' := congrArg UInt32.toNat hs
  have hg' := congrArg UInt32.toNat hg
  rw [toNat_slot, toNat_slot] at hs'
  rw [toNat_generation, toNat_generation] at hg'
  apply Handle.ext
  apply UInt64.toNat_inj.mp
  omega

/-- Only the zero word is invalid, so a nonzero generation always makes a valid handle. -/
theorem isValid_of_generation_ne_zero {h : Handle} (hg : h.generation ≠ 0) : h.isValid = true := by
  rw [isValid, decide_eq_true_iff]
  intro h0
  apply hg
  rw [generation, h0]
  rfl

end Handle

/-! ## Object types -/

/-- The kernel object taxonomy. -/
inductive ObjectType
  | thread
  | addressSpace
  | capabilitySpace
  | endpoint
  | notification
  | memoryObject
  | mapping
  | interruptObject
  | timerObject
  | schedulingContext
  | resourceDomain
  | debugConsole
  | factory
  | waitSet
  | contiguousFrame
  | process
deriving DecidableEq, Repr

namespace ObjectType

def discriminant : ObjectType → ℕ
  | thread => 0
  | addressSpace => 1
  | capabilitySpace => 2
  | endpoint => 3
  | notification => 4
  | memoryObject => 5
  | mapping => 6
  | interruptObject => 7
  | timerObject => 8
  | schedulingContext => 9
  | resourceDomain => 10
  | debugConsole => 11
  | factory => 12
  | waitSet => 13
  | contiguousFrame => 14
  | process => 15

def bit (t : ObjectType) : BitVec 16 := 1#16 <<< t.discriminant

/-- `ObjectType::try_from`. -/
def tryFrom (value : UInt32) : Option ObjectType :=
  match value.toNat with
  | 0 => some thread
  | 1 => some addressSpace
  | 2 => some capabilitySpace
  | 3 => some endpoint
  | 4 => some notification
  | 5 => some memoryObject
  | 6 => some mapping
  | 7 => some interruptObject
  | 8 => some timerObject
  | 9 => some schedulingContext
  | 10 => some resourceDomain
  | 11 => some debugConsole
  | 12 => some factory
  | 13 => some waitSet
  | 14 => some contiguousFrame
  | 15 => some process
  | _ => none

end ObjectType

/-- A set of object kinds authorised by a factory. -/
structure ObjectTypeSet where
  bits : BitVec 16
deriving DecidableEq, Repr

namespace ObjectTypeSet

def all : ObjectTypeSet := ⟨0xFFFF⟩

def of (t : ObjectType) : ObjectTypeSet := ⟨1#16 <<< t.discriminant⟩

def contains (s : ObjectTypeSet) (t : ObjectType) : Bool := decide (s.bits &&& t.bit ≠ 0)

end ObjectTypeSet

/-! ## Rights -/

/-- Object-specific authority bits. -/
@[ext]
structure Rights where
  bits : BitVec 32
deriving DecidableEq, Repr

namespace Rights

def none : Rights := ⟨0⟩
def read : Rights := ⟨1#32 <<< 0⟩
def write : Rights := ⟨1#32 <<< 1⟩
def map : Rights := ⟨1#32 <<< 2⟩
def execute : Rights := ⟨1#32 <<< 3⟩
def signal : Rights := ⟨1#32 <<< 4⟩
def wait : Rights := ⟨1#32 <<< 5⟩
def manage : Rights := ⟨1#32 <<< 6⟩
def factory : Rights := ⟨1#32 <<< 7⟩
def interrupt : Rights := ⟨1#32 <<< 8⟩
def imageFactory : Rights := ⟨1#32 <<< 9⟩

/-- `Rights::ALL`, with the bits that have no name. -/
def all : Rights := ⟨0xFFFFFFFF⟩

def contains (r required : Rights) : Bool := decide (r.bits &&& required.bits = required.bits)

def isSubsetOf (r other : Rights) : Bool := decide (r.bits &&& ~~~other.bits = 0)

instance : OrOp Rights := ⟨fun r s ↦ ⟨r.bits ||| s.bits⟩⟩

/-- The two comparisons of the source are one relation, read from either side. -/
theorem contains_iff {r s : Rights} :
    r.contains s = true ↔ ∀ i, s.bits.getLsbD i = true → r.bits.getLsbD i = true := by
  rw [contains, decide_eq_true_iff]
  constructor
  · intro h i hi
    rw [← h, BitVec.getLsbD_and, Bool.and_eq_true] at hi
    exact hi.1
  · intro h
    apply BitVec.eq_of_getLsbD_eq
    intro i _
    cases hs : s.bits.getLsbD i with
    | false => simp [hs]
    | true => simp [hs, h i hs]

theorem isSubsetOf_iff {r s : Rights} :
    r.isSubsetOf s = true ↔ ∀ i, r.bits.getLsbD i = true → s.bits.getLsbD i = true := by
  rw [isSubsetOf, decide_eq_true_iff]
  constructor
  · intro h i hi
    have hbit := congrArg (·.getLsbD i) h
    have hlt := BitVec.lt_of_getLsbD hi
    simpa [hi, hlt] using hbit
  · intro h
    apply BitVec.eq_of_getLsbD_eq
    intro i hlt
    cases hr : r.bits.getLsbD i with
    | false => simp [hr]
    | true => simp [hlt, h i hr]

theorem contains_iff_isSubsetOf {r s : Rights} : r.contains s = true ↔ s.isSubsetOf r = true := by
  rw [contains_iff, isSubsetOf_iff]

theorem isSubsetOf_refl (r : Rights) : r.isSubsetOf r = true :=
  isSubsetOf_iff.mpr fun _ h ↦ h

theorem isSubsetOf_trans {r s t : Rights} (hrs : r.isSubsetOf s = true)
    (hst : s.isSubsetOf t = true) : r.isSubsetOf t = true :=
  isSubsetOf_iff.mpr fun i h ↦ isSubsetOf_iff.mp hst i (isSubsetOf_iff.mp hrs i h)

end Rights

end Gaxera

import Gaxera.Core.Resource

/-!
# Memory objects, mappings and contiguous frames

What a capability of one of the three memory types stands for. A memory object owns frames and
counts the handles, the mappings and the running operations that refer to it; a contiguous frame
object counts handles and mappings; a mapping is the bridge between a range of an address space
and what backs it.

Addresses, sizes and counters are natural numbers, and a counter is bounded where the source
checks it. The one sum that the source leaves unchecked is the total of the three counts of a
memory object, and it is taken modulo `2 ^ 32` here too.
-/

namespace Gaxera

/-- The size of a page. -/
def pageSize : ℕ := 4096

/-! ## Memory objects -/

inductive MemoryObjectKind
  | anonymous
  | executableImage
deriving DecidableEq, Repr

inductive MemoryError
  | refOverflow
  | refUnderflow
  | invalidRange
deriving DecidableEq, Repr

structure MemoryObject where
  chargingDomain : ResourceDomainId
  kind : MemoryObjectKind
  frames : List ℕ
  sizeBytes : ℕ
  capabilityRefs : ℕ
  mappingRefs : ℕ
  transientRefs : ℕ
deriving DecidableEq, Repr

namespace MemoryObject

def totalRefs (m : MemoryObject) : ℕ :=
  (m.capabilityRefs + m.mappingRefs + m.transientRefs) % 2 ^ 32

def canDestroy (m : MemoryObject) : Bool := decide (m.totalRefs = 0)

/-- One more reference of a class whose count is `refs`. -/
def incRef (refs : ℕ) (put : ℕ → MemoryObject) : Except MemoryError MemoryObject :=
  match checkedAdd 32 refs 1 with
  | some n => .ok (put n)
  | none => .error .refOverflow

/-- One reference less, and whether it was the last of all. -/
def decRef (refs : ℕ) (put : ℕ → MemoryObject) : Except MemoryError (Bool × MemoryObject) :=
  match checkedSub refs 1 with
  | some n => .ok ((put n).canDestroy, put n)
  | none => .error .refUnderflow

def decCapabilityRef (m : MemoryObject) : Except MemoryError (Bool × MemoryObject) :=
  decRef m.capabilityRefs fun n ↦ { m with capabilityRefs := n }

def incMappingRef (m : MemoryObject) : Except MemoryError MemoryObject :=
  incRef m.mappingRefs fun n ↦ { m with mappingRefs := n }

def decMappingRef (m : MemoryObject) : Except MemoryError (Bool × MemoryObject) :=
  decRef m.mappingRefs fun n ↦ { m with mappingRefs := n }

def incTransientRef (m : MemoryObject) : Except MemoryError MemoryObject :=
  incRef m.transientRefs fun n ↦ { m with transientRefs := n }

def decTransientRef (m : MemoryObject) : Except MemoryError (Bool × MemoryObject) :=
  decRef m.transientRefs fun n ↦ { m with transientRefs := n }

/-- The frames behind a range of the object. -/
def framesSubrange (m : MemoryObject) (offsetBytes sizeBytes : ℕ) :
    Except MemoryError (List ℕ) :=
  if offsetBytes % pageSize ≠ 0 ∨ sizeBytes % pageSize ≠ 0 then .error .invalidRange
  else
    match checkedAdd 64 offsetBytes sizeBytes with
    | none => .error .invalidRange
    | some endBytes =>
      if m.sizeBytes < endBytes then .error .invalidRange
      else if m.frames.length < offsetBytes / pageSize + sizeBytes / pageSize then
        .error .invalidRange
      else .ok ((m.frames.drop (offsetBytes / pageSize)).take (sizeBytes / pageSize))

section Refs

variable {m : MemoryObject} {refs : ℕ} {put : ℕ → MemoryObject} {b : Bool}

theorem decRef_eq_ok {m' : MemoryObject} : decRef refs put = .ok (b, m') ↔
    refs ≠ 0 ∧ b = (put (refs - 1)).canDestroy ∧ m' = put (refs - 1) := by
  grind [decRef, checkedSub]

theorem canDestroy_iff : m.canDestroy = true ↔
    (m.capabilityRefs + m.mappingRefs + m.transientRefs) % 2 ^ 32 = 0 := by
  rw [canDestroy, decide_eq_true_iff, totalRefs]

end Refs

end MemoryObject

/-! ## Mappings -/

inductive CachePolicy
  | cached
  | uncached
  | writeThrough
  | writeCombining
deriving DecidableEq, Repr

inductive MappingError
  | invalidAlignment
  | zeroSize
  | closed
deriving DecidableEq, Repr

inductive MappingBacking
  | memoryObject (objectId : ObjectId) (offsetBytes : ℕ)
  | physicalRange (physicalBase : ℕ) (cachePolicy : CachePolicy)
  | contiguousFrame (objectId : ObjectId) (physicalBase offsetBytes : ℕ)
      (cachePolicy : CachePolicy)
deriving DecidableEq, Repr

structure Mapping where
  targetAddressSpace : ObjectId
  virtualAddress : ℕ
  size : ℕ
  permissions : Rights
  backing : MappingBacking
  lineageParentNode : Option NodeId
  capabilityRefs : ℕ
  closed : Bool
deriving DecidableEq, Repr

namespace Mapping

/-- What the three constructors share: the alignment of every address they are given, and a
size of whole pages. -/
def tryNew (aligned : List ℕ) (targetAddressSpace : ObjectId) (virtualAddress size : ℕ)
    (permissions : Rights) (backing : MappingBacking) (lineageParentNode : Option NodeId) :
    Except MappingError Mapping :=
  if aligned.any (fun address ↦ decide (address % pageSize ≠ 0)) then .error .invalidAlignment
  else if size = 0 ∨ size % pageSize ≠ 0 then .error .zeroSize
  else
    .ok
      { targetAddressSpace := targetAddressSpace
        virtualAddress := virtualAddress
        size := size
        permissions := permissions
        backing := backing
        lineageParentNode := lineageParentNode
        capabilityRefs := 1
        closed := false }

def tryNewMemoryObject (targetAddressSpace : ObjectId) (virtualAddress : ℕ)
    (sourceMemoryObject : ObjectId) (offsetBytes size : ℕ) (permissions : Rights)
    (lineageParentNode : Option NodeId) : Except MappingError Mapping :=
  tryNew [virtualAddress, offsetBytes] targetAddressSpace virtualAddress size permissions
    (.memoryObject sourceMemoryObject offsetBytes) lineageParentNode

/-- No lineage is recorded. -/
def tryNewMmio (targetAddressSpace : ObjectId) (virtualAddress physicalBase size : ℕ)
    (cachePolicy : CachePolicy) (permissions : Rights) : Except MappingError Mapping :=
  tryNew [virtualAddress, physicalBase] targetAddressSpace virtualAddress size permissions
    (.physicalRange physicalBase cachePolicy) none

/-- No lineage is recorded. -/
def tryNewContiguousFrame (targetAddressSpace : ObjectId) (virtualAddress : ℕ)
    (frameObject : ObjectId) (physicalBase offsetBytes size : ℕ) (permissions : Rights) :
    Except MappingError Mapping :=
  tryNew [virtualAddress, physicalBase, offsetBytes] targetAddressSpace virtualAddress size
    permissions (.contiguousFrame frameObject physicalBase offsetBytes .cached) none

/-- Where a mapping of physical memory starts. The frames of a memory object need not be
contiguous, and there is no such address. -/
def physAddr (m : Mapping) : Option ℕ :=
  match m.backing with
  | .physicalRange physicalBase _ => some physicalBase
  | .contiguousFrame _ physicalBase offsetBytes _ => some (physicalBase + offsetBytes)
  | .memoryObject _ _ => none

def cachePolicy (m : Mapping) : CachePolicy :=
  match m.backing with
  | .physicalRange _ cachePolicy => cachePolicy
  | .contiguousFrame _ _ _ cachePolicy => cachePolicy
  | .memoryObject _ _ => .cached

def decCapabilityRef (m : Mapping) : Except MappingError (Bool × Mapping) :=
  match checkedSub m.capabilityRefs 1 with
  | some n => .ok (decide (n = 0), { m with capabilityRefs := n })
  | none => .error .closed

def close (m : Mapping) : Except MappingError Mapping :=
  if m.closed then .error .closed else .ok { m with closed := true }

end Mapping

/-! ## Contiguous frames -/

inductive ContiguousFrameError
  | capabilityOverflow
  | capabilityUnderflow
  | mappingOverflow
  | mappingUnderflow
deriving DecidableEq, Repr

structure ContiguousFrameObject where
  baseFrame : ℕ
  pageCount : ℕ
  owner : ResourceDomainId
  capabilityCount : ℕ
  mappingCount : ℕ
deriving DecidableEq, Repr

namespace ContiguousFrameObject

def canDestroy (f : ContiguousFrameObject) : Bool :=
  decide (f.capabilityCount = 0 ∧ f.mappingCount = 0)

def decCapability (f : ContiguousFrameObject) :
    Except ContiguousFrameError (Bool × ContiguousFrameObject) :=
  match checkedSub f.capabilityCount 1 with
  | some n =>
    let f := { f with capabilityCount := n }
    .ok (f.canDestroy, f)
  | none => .error .capabilityUnderflow

def addMapping (f : ContiguousFrameObject) : Except ContiguousFrameError ContiguousFrameObject :=
  match checkedAdd 64 f.mappingCount 1 with
  | some n => .ok { f with mappingCount := n }
  | none => .error .mappingOverflow

def removeMapping (f : ContiguousFrameObject) :
    Except ContiguousFrameError ContiguousFrameObject :=
  match checkedSub f.mappingCount 1 with
  | some n => .ok { f with mappingCount := n }
  | none => .error .mappingUnderflow

end ContiguousFrameObject

end Gaxera

import Gaxera.Capability.State
import Gaxera.Core.Process
import Gaxera.Core.Waiting
import Gaxera.Kernel.Paging

/-!
# The kernel state

`Kernel` is the global state that the system calls work on: the capability state, the object arena,
the frame allocator and the typed registries. The source keeps each of these behind a lock and
takes them one after the other; a system call runs to its end on one processor with interrupts off,
so the locks matter only where one is taken a second time by its holder. That is the outcome
`hang`.

The small operations here are the steps the system calls are made of: an object is created or
destroyed at the expense of a registered domain, entries are mapped into or removed from a
registered address space, a reference to a registered memory object or contiguous frame goes, and
the object with it when it was the last.
-/

namespace Gaxera

structure Kernel where
  caps : CapState
  arena : ObjectArena
  physical : FrameAllocator
  addressSpaces : Registry AddressSpace
  memoryObjects : Registry MemoryObject
  mappings : Registry Mapping
  contiguousFrames : Registry ContiguousFrameObject
  factories : Registry Factory
  notifications : Registry Notification
  endpoints : Registry Endpoint
  waitSets : Registry WaitSet
  interrupts : Registry InterruptObject
  vectors : List VectorSlot
  threads : Registry Thread
  scheduler : Scheduler
  processes : Registry Process
  /-- The bootstrap manifests in memory, by the frame they are written to. -/
  manifests : ℕ → Option BootstrapManifest
  /-- The kernel half of the page tables, where the kernel stacks are mapped. -/
  kernelTables : PageTables
  nextStackIndex : ℕ

/-- How a system call ends. -/
inductive Outcome
  /-- Success, with the word the call leaves for its caller. -/
  | ok (value : UInt64)
  | fail (status : Status)
  /-- A lock is taken again by its holder. -/
  | hang
  /-- The kernel stops on an address it cannot construct. -/
  | panic
deriving DecidableEq, Repr

namespace Kernel

/-- A kernel with nothing in its typed registries. -/
def bare (caps : CapState) (arena : ObjectArena) (physical : FrameAllocator) : Kernel where
  caps := caps
  arena := arena
  physical := physical
  addressSpaces := .empty
  memoryObjects := .empty
  mappings := .empty
  contiguousFrames := .empty
  factories := .empty
  notifications := .empty
  endpoints := .empty
  waitSets := .empty
  interrupts := .empty
  vectors := List.replicate 160 ⟨false, 0, 1, 0, 0, false⟩
  threads := .empty
  scheduler := ⟨List.replicate priorityLevels [], 0, none, 64, 0⟩
  processes := .empty
  manifests := fun _ ↦ none
  kernelTables := ⟨fun _ ↦ none, []⟩
  nextStackIndex := 0

/-! ## Objects and their domains -/

def domain (k : Kernel) (id : ObjectId) : Option ResourceDomain := k.caps.domains.get id

def updateDomain (k : Kernel) (id : ObjectId) (f : ResourceDomain → ResourceDomain) : Kernel :=
  { k with caps := { k.caps with domains := k.caps.domains.modify id f } }

/-- `arena.create` for a registered domain. -/
def createObject (k : Kernel) (domain : ObjectId) (factory : ResourceDomain → Factory)
    (objectType : ObjectType) : Except ObjectError ObjectId × Kernel :=
  match k.domain domain with
  | none => (.error .objectNotFound, k)
  | some d =>
    let r := k.arena.create d (factory d) objectType
    (r.1, { k.updateDomain domain fun _ ↦ r.2.2 with arena := r.2.1 })

/-- `create_mapping`, `create_process` and the others: the factory is made on the spot. -/
def createOf (k : Kernel) (domain : ObjectId) (objectType : ObjectType) :
    Except ObjectError ObjectId × Kernel :=
  k.createObject domain (fun d ↦ Factory.new d (ObjectTypeSet.of objectType)) objectType

/-- `arena.destroy` for a registered domain. -/
def destroyObject (k : Kernel) (domain object : ObjectId) : Except ObjectError Unit × Kernel :=
  match k.domain domain with
  | none => (.error .objectNotFound, k)
  | some d =>
    let r := k.arena.destroy d object
    (r.1, { k.updateDomain domain fun _ ↦ r.2.2 with arena := r.2.1 })

/-- The object is destroyed at the expense of the domain the arena has recorded for it. -/
def destroyOwned (k : Kernel) (object : ObjectId) : Kernel :=
  match k.arena.owner object with
  | none => k
  | some owner => (k.destroyObject owner.objectId object).2

/-! ## Pages -/

section Pages

variable (mapper : Mapper)

/-- The entries of a range go into a registered address space, as far as they can be mapped. -/
def mapEntries (k : Kernel) (aspace : ObjectId) (entries : List (ℕ × PageEntry)) :
    Option MapRun × Kernel :=
  match k.addressSpaces.get aspace with
  | none => (none, k)
  | some s =>
    let r := mapLoop mapper s.tables k.physical entries
    (some r,
      { k with
        physical := r.allocator
        addressSpaces := k.addressSpaces.modify aspace fun s ↦ { s with tables := r.tables } })

/-- `unmap_range` on a registered address space. -/
def unmapRange (k : Kernel) (aspace : ObjectId) (virtualAddress pageCount : ℕ) :
    Option (Except PagingError Unit) × Kernel :=
  match k.addressSpaces.get aspace with
  | none => (none, k)
  | some s =>
    let r := unmapUserRange mapper s.tables virtualAddress pageCount
    (some r.1,
      { k with addressSpaces := k.addressSpaces.modify aspace fun s ↦ { s with tables := r.2 } })

end Pages

/-! ## References to memory -/

/-- `let _ = domain.release_memory(bytes); let _ = domain.release_object();` -/
def refunded (bytes : ℕ) (d : ResourceDomain) : ResourceDomain :=
  ObjectArena.uncharge
    (match d.releaseMemory bytes with
      | .ok d => d
      | .error _ => d)

def reclaimMemoryObjectIfZeroRefs (k : Kernel) (id : ObjectId) : Kernel :=
  match k.memoryObjects.get id with
  | none => k
  | some m =>
    if m.canDestroy = false then k
    else
      let k :=
        { k with
          memoryObjects := k.memoryObjects.remove id
          physical := k.physical.deallocateFrames m.frames }
      let k := k.updateDomain m.chargingDomain.objectId (refunded m.sizeBytes)
      (k.destroyObject m.chargingDomain.objectId id).2

def reclaimContiguousFrameIfZeroRefs (k : Kernel) (id : ObjectId) : Kernel :=
  match k.contiguousFrames.get id with
  | none => k
  | some f =>
    if f.canDestroy = false then k
    else
      let k :=
        { k with
          contiguousFrames := k.contiguousFrames.remove id
          physical := (k.physical.deallocateContiguous f.baseFrame f.pageCount).2 }
      let k := k.updateDomain f.owner.objectId
        (refunded (min (f.pageCount * pageSize) (2 ^ 64 - 1)))
      (k.destroyObject f.owner.objectId id).2

/-- A reference to a memory object goes, if the object is registered and has one; the answer is
whether it was the last. -/
def dropRef (k : Kernel) (id : ObjectId)
    (dec : MemoryObject → Except MemoryError (Bool × MemoryObject)) : Bool × Kernel :=
  match k.memoryObjects.get id with
  | none => (false, k)
  | some m =>
    match dec m with
    | .error _ => (false, k)
    | .ok (last, m) => (last, { k with memoryObjects := k.memoryObjects.modify id fun _ ↦ m })

/-- A reference goes, and with the last one the object. -/
def dropMemoryRef (k : Kernel) (id : ObjectId)
    (dec : MemoryObject → Except MemoryError (Bool × MemoryObject)) : Kernel :=
  match k.dropRef id dec with
  | (true, k) => k.reclaimMemoryObjectIfZeroRefs id
  | (false, k) => k

/-- A mapping of a contiguous frame goes; the count of handles is not touched. -/
def removeFrameMapping (k : Kernel) (id : ObjectId) : Bool × Kernel :=
  match k.contiguousFrames.get id with
  | none => (false, k)
  | some f =>
    match f.removeMapping with
    | .error _ => (false, k)
    | .ok f =>
      (f.canDestroy, { k with contiguousFrames := k.contiguousFrames.modify id fun _ ↦ f })

/-- What a closed mapping held on to is let go. -/
def releaseBacking (k : Kernel) : MappingBacking → Kernel
  | .memoryObject objectId _ => k.dropMemoryRef objectId MemoryObject.decMappingRef
  | .contiguousFrame objectId _ _ _ =>
    match k.removeFrameMapping objectId with
    | (true, k) => k.reclaimContiguousFrameIfZeroRefs objectId
    | (false, k) => k
  | .physicalRange _ _ => k

end Kernel

end Gaxera

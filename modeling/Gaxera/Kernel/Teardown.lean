import Gaxera.Kernel.MapMemory

/-!
# Deleting a handle

`delete_handle_internal` empties a slot and then lets go of what the handle stood for. Which object
that is, is looked up before the slot is emptied, by seven lookups that validate the handle like any
other use of it: a handle that no longer validates stands for nothing, and its object is not told.

The last handle of a mapping takes its pages with it. That part is shared with selective
revocation, which closes mappings by their lineage instead of by their handles.
-/

namespace Gaxera

namespace Kernel

/-! ## What a handle stands for -/

/-- The first of `types` that a handle validates as, with the object it names. -/
def lookupAny (k : Kernel) (cspace : CapabilitySpace) (handle : Handle) (types : List ObjectType) :
    Option (ObjectType × ObjectId) :=
  types.findSome? fun t ↦
    match k.caps.system.lookup cspace handle t Rights.none k.arena with
    | .ok id => some (t, id)
    | .error _ => none

/-- The types whose objects are told when a handle goes. -/
def countedTypes : List ObjectType :=
  [.memoryObject, .contiguousFrame, .mapping, .notification, .endpoint, .waitSet,
    .interruptObject]

/-! ## Letting go -/

def wakeThread (k : Kernel) (thread : ObjectId) : Kernel :=
  match k.threads.get thread with
  | none => k
  | some t =>
    let r := k.scheduler.applyWake t
    { k with scheduler := r.1, threads := k.threads.modify thread fun _ ↦ r.2 }

def wakeThreads (k : Kernel) (threads : List ObjectId) : Kernel := threads.foldl wakeThread k

/-- A handle of a contiguous frame goes, and with the last one the frame. -/
def dropFrameRef (k : Kernel) (id : ObjectId) : Kernel :=
  match k.contiguousFrames.get id with
  | none => k
  | some f =>
    match f.decCapability with
    | .error _ => k
    | .ok (last, f) =>
      let k := { k with contiguousFrames := k.contiguousFrames.modify id fun _ ↦ f }
      if last then k.reclaimContiguousFrameIfZeroRefs id else k

/-- The pages, the entry and the object of a mapping go. A range that cannot be unmapped is left
as it is. -/
def retireMapping (mapper : Mapper) (k : Kernel) (id : ObjectId) (m : Mapping) : Kernel :=
  let k := (k.unmapRange mapper m.targetAddressSpace m.virtualAddress (m.size / pageSize)).2
  let k := { k with mappings := k.mappings.remove id }
  k.destroyOwned id

/-- A handle of a mapping goes, and with the last one the mapping. -/
def dropMappingRef (mapper : Mapper) (k : Kernel) (id : ObjectId) : Kernel :=
  match k.mappings.get id with
  | none => k
  | some m =>
    match m.decCapabilityRef with
    | .error _ => k
    | .ok (last, m) =>
      let k := { k with mappings := k.mappings.modify id fun _ ↦ m }
      if last then (k.retireMapping mapper id m).releaseBacking m.backing else k

def dropNotificationRef (k : Kernel) (id : ObjectId) : Kernel :=
  match k.notifications.get id with
  | none => k
  | some n =>
    match n.decCapabilityRef with
    | none => k
    | some (false, n) => { k with notifications := k.notifications.modify id fun _ ↦ n }
    | some (true, n) =>
      let r := n.close
      let k := { k with notifications := k.notifications.modify id fun _ ↦ r.2 }
      match r.1 with
      | none => k
      | some thread => k.wakeThread thread

/-- Endpoints are not counted: the first handle that is deleted closes the endpoint. -/
def closeEndpoint (k : Kernel) (id : ObjectId) : Kernel :=
  match k.endpoints.get id with
  | none => k
  | some e =>
    let r := e.close
    { k with endpoints := k.endpoints.modify id fun _ ↦ r.2 }.wakeThreads r.1

/-- Wait sets are not counted either. -/
def closeWaitSet (k : Kernel) (id : ObjectId) : Kernel :=
  match k.waitSets.get id with
  | none => k
  | some w =>
    let r := w.close
    let k := { k with waitSets := k.waitSets.modify id fun _ ↦ r.2 }
    match r.1 with
    | none => k
    | some thread => k.wakeThread thread

/-- Every handle that goes unbinds the vector; the last one releases it. -/
def dropInterruptRef (k : Kernel) (id : ObjectId) : Kernel :=
  match k.interrupts.get id with
  | none => k
  | some i =>
    let lease : VectorLease := ⟨i.vector, i.generation⟩
    let vectors := VectorSlot.unbind k.vectors lease
    match i.decCapabilityRef with
    | some (true, _) =>
      { k with
        vectors := VectorSlot.release vectors lease
        interrupts := k.interrupts.remove id }.destroyOwned id
    | some (false, i) =>
      { k with
        vectors := vectors
        interrupts := k.interrupts.modify id fun _ ↦ i.unbindNotification }
    | none =>
      { k with
        vectors := vectors
        interrupts := k.interrupts.modify id fun _ ↦ i.unbindNotification }

/-- What a deleted handle stood for is let go. -/
def letGo (mapper : Mapper) (k : Kernel) : Option (ObjectType × ObjectId) → Kernel
  | some (.memoryObject, id) => k.dropMemoryRef id MemoryObject.decCapabilityRef
  | some (.contiguousFrame, id) => k.dropFrameRef id
  | some (.mapping, id) => k.dropMappingRef mapper id
  | some (.notification, id) => k.dropNotificationRef id
  | some (.endpoint, id) => k.closeEndpoint id
  | some (.waitSet, id) => k.closeWaitSet id
  | some (.interruptObject, id) => k.dropInterruptRef id
  | _ => k

/-! ## The system call -/

/-- `delete_handle_internal`, and whether it succeeded. -/
def deleteHandleInternal (mapper : Mapper) (k : Kernel) (cspaceId : ObjectId) (handle : Handle) :
    Bool × Kernel :=
  match k.caps.spaces.get cspaceId with
  | none => (false, k)
  | some cspace =>
    match k.domain cspace.domain.objectId with
    | none => (false, k)
    | some _ =>
      let target := k.lookupAny cspace handle countedTypes
      match k.caps.exec (.delete cspaceId cspace.domain.objectId handle) with
      | (.deleted (.ok ()), caps) => (true, { k with caps := caps }.letGo mapper target)
      | (_, caps) => (false, { k with caps := caps })

def deleteHandle (mapper : Mapper) (k : Kernel) (cspaceId : ObjectId) (handle : Handle) :
    Outcome × Kernel :=
  match k.deleteHandleInternal mapper cspaceId handle with
  | (true, k) => (.ok 0, k)
  | (false, k) => (.fail .internalError, k)

end Kernel

end Gaxera

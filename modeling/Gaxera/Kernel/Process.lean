import Gaxera.Kernel.Teardown

/-!
# Reaping a process

The `Reap` operation of the `ProcessControl` system call takes a process apart that has become a
zombie: its handles, its objects, and its domain if nothing else is charged to it.

While a process is reaped its domain is held outside the registry. The objects of the process are
destroyed at the expense of the domain in hand, and it is put back if it cannot be destroyed too.
-/

namespace Gaxera

/-- The words of `Reap`, the space of the caller, and whether the list of handles can be
reserved. -/
structure ReapRequest where
  cspace : ObjectId
  processHandle : Handle
  reserved : Bool

def ResourceDomain.releaseProcessRef (d : ResourceDomain) : ResourceDomain :=
  if d.processRefs = 0 then d else { d with processRefs := d.processRefs - 1 }

/-- `let _ = domain.release_memory(bytes)`. -/
def ResourceDomain.dropMemory (d : ResourceDomain) (bytes : ℕ) : ResourceDomain :=
  match d.releaseMemory bytes with
  | .ok d => d
  | .error _ => d

/-- The pages of a stack are unmapped, and its frames handed back, in order. -/
def KernelStack.unwind (mapper : Mapper) (base : ℕ) (frames : List ℕ) (t : PageTables)
    (a : FrameAllocator) : PageTables × FrameAllocator :=
  ((List.range frames.length).foldl (fun t i ↦ mapper.unmap t (base + i * pageSize)) t,
    a.deallocateFrames frames)

namespace Kernel

variable (mapper : Mapper)

/-- The process that a `ProcessControl` call is about. -/
def controlledProcess (k : Kernel) (cspaceId : ObjectId) (handle : Handle) :
    Except Status (ObjectId × Process) :=
  match k.caps.spaces.get cspaceId with
  | none => .error .invalidHandle
  | some cspace =>
    match k.caps.system.lookup cspace handle .process Rights.manage k.arena with
    | .error _ => .error .rightsDenied
    | .ok id =>
      match k.processes.get id with
      | none => .error .invalidHandle
      | some process => .ok (id, process)

theorem get_of_controlledProcess {k : Kernel} {cspace id : ObjectId} {handle : Handle} {p : Process}
    (h : k.controlledProcess cspace handle = .ok (id, p)) : k.processes.get id = some p := by
  rw [controlledProcess] at h
  split at h
  · cases h
  · split at h
    · cases h
    · split at h
      · cases h
      · next hget =>
        cases h
        exact hget

/-! ## Reaping a process -/

/-- Handles are deleted one after the other, up to the first that cannot be. -/
def deleteHandles (cspaceId : ObjectId) : List Handle → Kernel → Bool × Kernel
  | [], k => (true, k)
  | handle :: rest, k =>
    match k.deleteHandleInternal mapper cspaceId handle with
    | (false, k) => (false, k)
    | (true, k) => deleteHandles cspaceId rest k

/-- The page of the manifest, its frame, and the tables of the address space. -/
def removeAddressSpace (k : Kernel) (id : ObjectId) (frame vaddr : ℕ) : Kernel :=
  match k.addressSpaces.get id with
  | none => k
  | some space =>
    let space := { space with tables := (unmapUserRange mapper space.tables vaddr 1).2 }
    { k with
      addressSpaces := k.addressSpaces.remove id
      physical := space.destroy (k.physical.deallocate frame).2 }

/-- `KernelStack::reclaim`. -/
def reclaimStack (mapper : Mapper) (k : Kernel) (stack : KernelStack) : Kernel :=
  let r := KernelStack.unwind mapper stack.base stack.frames k.kernelTables k.physical
  { k with kernelTables := r.1, physical := r.2 }

def removeThread (k : Kernel) (id : ObjectId) : Kernel :=
  match k.threads.get id with
  | none => k
  | some thread => { k with threads := k.threads.remove id }.reclaimStack mapper thread.stack

/-- The parts of a zombie that has all of them. -/
structure Remains where
  domain : ObjectId
  process : ObjectId
  addressSpace : ObjectId
  capabilitySpace : ObjectId
  thread : ObjectId
  notification : ObjectId
  factory : ObjectId
  manifestFrame : ℕ
  manifestVaddr : ℕ

def remains (id : ObjectId) (p : Process) : Option Remains :=
  match p.addressSpace, p.capabilitySpace, p.mainThread, p.exitNotification, p.bootstrapFactory,
      p.bootstrapManifest with
  | some aspace, some cspace, some thread, some notification, some factory,
      some (frame, vaddr, _) =>
    some ⟨p.domain.objectId, id, aspace, cspace, thread, notification, factory, frame, vaddr⟩
  | _, _, _, _, _, _ => none

/-- Everything of the process that is registered goes from its registry. -/
def removeParts (k : Kernel) (r : Remains) : Kernel :=
  let k := k.removeAddressSpace mapper r.addressSpace r.manifestFrame r.manifestVaddr
  let k := k.removeThread mapper r.thread
  { k with
    caps := { k.caps with spaces := k.caps.spaces.remove r.capabilitySpace }
    notifications := k.notifications.remove r.notification
    factories := k.factories.remove r.factory
    processes := k.processes.remove r.process }

/-- `arena.destroy` for a domain in hand. An error leaves both as they are. -/
def destroyIn (k : Kernel) (d : ResourceDomain) (object : ObjectId) : Kernel × ResourceDomain :=
  let r := k.arena.destroy d object
  ({ k with arena := r.2.1 }, r.2.2)

def destroyAllIn (k : Kernel) (d : ResourceDomain) (objects : List ObjectId) :
    Kernel × ResourceDomain :=
  objects.foldl (fun s object ↦ s.1.destroyIn s.2 object) (k, d)

/-- The domain is put back into the registry. -/
def putBack (k : Kernel) (id : ObjectId) (d : ResourceDomain) : Kernel :=
  { k with caps := { k.caps with domains := k.caps.domains.insert id d } }

/-- A domain with nothing charged to it is destroyed, and its limits are refunded. One that its
parent cannot take back is put back, also where its object is gone. -/
def retireDomain (k : Kernel) (id : ObjectId) (d : ResourceDomain) : Kernel :=
  if d.isEligibleForDestruction = false then k.putBack id d
  else
    match d.parent with
    | none => k.putBack id d
    | some parentId =>
      match k.domain parentId.objectId with
      | none => k.putBack id d
      | some _ =>
        match k.destroyObject parentId.objectId id with
        | (.error _, k) => k.putBack id d
        | (.ok (), k) =>
          match k.domain parentId.objectId with
          | none => k.putBack id d
          | some parent =>
            match d.refundToParent parent with
            | (.ok (), _, parent) => k.updateDomain parentId.objectId fun _ ↦ parent
            | (.error _, d, parent) =>
              (k.updateDomain parentId.objectId fun _ ↦ parent).putBack id d

/-- Behind the handles. -/
def reapParts (k : Kernel) (r : Remains) : Outcome × Kernel :=
  let k := k.removeParts mapper r
  match k.domain r.domain with
  | none => (.fail .invalidHandle, k)
  | some d =>
    let k := { k with caps := { k.caps with domains := k.caps.domains.remove r.domain } }
    let (k, d) := k.destroyAllIn d.releaseProcessRef
      [r.process, r.addressSpace, r.capabilitySpace, r.thread, r.notification, r.factory]
    (.ok 0, k.retireDomain r.domain (d.dropMemory pageSize))

def reap (k : Kernel) (q : ReapRequest) : Outcome × Kernel :=
  match k.controlledProcess q.cspace q.processHandle with
  | .error status => (.fail status, k)
  | .ok (id, process) =>
    if process.state ≠ .zombie then (.fail .invalidArgument, k)
    else
      match remains id process with
      | none => (.fail .invalidHandle, k)
      | some r =>
        match if q.reserved then k.caps.spaces.get r.capabilitySpace else none with
        | none => (.fail .resourceExhausted, k)
        | some cspace =>
          match k.deleteHandles mapper r.capabilitySpace cspace.snapshotHandles with
          | (false, k) => (.fail .internalError, k)
          | (true, k) =>
            match k.deleteHandleInternal mapper q.cspace q.processHandle with
            | (false, k) => (.fail .internalError, k)
            | (true, k) => k.reapParts mapper r

end Kernel

end Gaxera

import Gaxera.Capability.Search
import Gaxera.Kernel.Teardown

/-!
# Taking handles back

The `Revoke` system call works in two passes: the kernel first flags everything derived from the
node and closes the mappings of its lineage, and only then asks the capability system whether the
caller may revoke at all.
-/

namespace Gaxera

/-- The words of a `Revoke` call, and the space of the caller. -/
structure RevokeRequest where
  cspace : ObjectId
  handle : Handle
  argument : UInt64

/-- The handle in the second word, or the one the call is made on if that word is zero. -/
def RevokeRequest.target (q : RevokeRequest) : Handle :=
  if q.argument ≠ 0 then ⟨q.argument⟩ else q.handle

namespace Kernel

/-- The first mapping, in the order of the registry, that is open and whose lineage leads to
`node`. -/
def findLineage (k : Kernel) (node : NodeId) : Option (ObjectId × Mapping) :=
  k.mappings.entries.find? fun e ↦
    match e.2.lineageParentNode with
    | some parent => k.caps.system.isDescendantOf parent node && !e.2.closed
    | none => false

/-- A mapping found by its lineage goes. Only a memory object is told. -/
def revokeMapping (mapper : Mapper) (k : Kernel) (id : ObjectId) (m : Mapping) : Kernel :=
  let k := k.retireMapping mapper id m
  match m.backing with
  | .memoryObject objectId _ => k.dropMemoryRef objectId MemoryObject.decMappingRef
  | _ => k

/-- Mappings are closed until none is left. -/
def revokeMappings (mapper : Mapper) (node : NodeId) : ℕ → Kernel → Kernel
  | 0, k => k
  | fuel + 1, k =>
    match k.findLineage node with
    | none => k
    | some (id, m) => revokeMappings mapper node fuel (k.revokeMapping mapper id m)

/-- The number of registered mappings. -/
def mappingCount (k : Kernel) : ℕ := k.mappings.census fun _ _ ↦ 1

/-- The flags of all descendants are set. -/
def flagDescendants (k : Kernel) (node : NodeId) : Kernel :=
  { k with
    caps := { k.caps with
      system := CapabilitySystem.revokeDescendants node (k.caps.system.nodes.length + 1)
        k.caps.system } }

/-- `perform_kernel_selective_revoke`. -/
def selectiveRevoke (mapper : Mapper) (k : Kernel) (node : NodeId) : Kernel :=
  revokeMappings mapper node (k.mappingCount + 1) (k.flagDescendants node)

def revoke (mapper : Mapper) (k : Kernel) (q : RevokeRequest) : Outcome × Kernel :=
  match k.caps.spaces.get q.cspace with
  | none => (.fail .internalError, k)
  | some cspace =>
    match cspace.nodeFor q.target with
    | .error _ => (.fail .internalError, k)
    | .ok node =>
      let k := k.selectiveRevoke mapper node
      match k.caps.exec (.revoke q.cspace q.target k.arena) with
      | (.revoked (.ok _), caps) => (.ok 0, { k with caps := caps })
      | (_, caps) => (.fail .internalError, { k with caps := caps })

end Kernel

end Gaxera

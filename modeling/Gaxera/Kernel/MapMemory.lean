import Gaxera.Kernel.State

/-!
# Mapping and unmapping memory

The `MapMemory` and `UnmapMemory` system calls. A request to map names an address space and a
source, and the source is tried as a memory object, as a mapping and as a contiguous frame, in
this order; each has a path of its own, with its own checks and its own rollback.

A call ends with an outcome and a state, and `MapReply` reports besides these the entries that the
call has installed, whether or not a later failure removes them again.
-/

namespace Gaxera

/-- The words of a `MapMemory` call, the space of the caller, and whether the heap can hold the
copy of the frame list that the memory object path makes. -/
structure MapRequest where
  cspace : ObjectId
  aspaceHandle : Handle
  memHandle : Handle
  virtualAddress : UInt64
  requestedRights : Rights
  offsetBytes : UInt64
  reserved : Bool

structure MapReply where
  outcome : Outcome
  kernel : Kernel
  installed : List (ℕ × PageEntry)

/-- `checked_add` followed by a comparison with a limit. -/
def sumWithin (limit a b : ℕ) : Bool :=
  match checkedAdd 64 a b with
  | some sum => decide (sum ≤ limit)
  | none => false

theorem sumWithin_iff {limit a b : ℕ} :
    sumWithin limit a b = true ↔ a + b < 2 ^ 64 ∧ a + b ≤ limit := by
  grind [sumWithin, checkedAdd]

namespace Kernel

/-- A call that ends before it has installed anything. -/
def refuse (k : Kernel) (status : Status) : MapReply := ⟨.fail status, k, []⟩

/-! ## What a request names -/

/-- The source of a request, with the node that authorises it. -/
inductive MapSource
  | memoryObject (info : CapabilityInfo)
  | mapping (id : ObjectId)
  | contiguousFrame (id : ObjectId)

/-- The three lookups, in the order in which they count. -/
def mapSource (k : Kernel) (cspace : CapabilitySpace) (memHandle : Handle) : Option MapSource :=
  match k.caps.system.lookupInfo cspace memHandle .memoryObject Rights.map k.arena with
  | .ok info => some (.memoryObject info)
  | .error _ =>
    match k.caps.system.lookup cspace memHandle .mapping Rights.map k.arena with
    | .ok id => some (.mapping id)
    | .error _ =>
      match k.caps.system.lookup cspace memHandle .contiguousFrame (Rights.map ||| Rights.read)
          k.arena with
      | .ok id => some (.contiguousFrame id)
      | .error _ => none

/-- `insert_descendant` for the handle of a new mapping. -/
def insertMappingHandle (k : Kernel) (node : NodeId) (cspace domain mappingId : ObjectId)
    (requestedRights : Rights) : CapResult × Kernel :=
  let r := k.caps.exec (.insertDescendant node cspace domain mappingId .mapping
    (requestedRights ||| Rights.map) k.arena)
  (r.1, { k with caps := r.2 })

section Paths

variable (mapper : Mapper)

/-! ## Memory objects -/

/-- What the checks of the memory object path hand on. -/
structure MemoryPlan where
  cspace : ObjectId
  domain : ObjectId
  node : NodeId
  aspace : ObjectId
  memId : ObjectId
  virtualAddress : ℕ
  requestedRights : Rights
  offsetBytes : ℕ
  mapLength : ℕ

/-- The undoing that the last three failures share: pages, then the arena. -/
def unmapAndDestroy (k : Kernel) (p : MemoryPlan) (mappingId : ObjectId) : Kernel :=
  ((k.unmapRange mapper p.aspace p.virtualAddress (p.mapLength / pageSize)).2.destroyObject
    p.domain mappingId).2

/-- Step 4: the handle of the mapping. -/
def publishMemoryMapping (k : Kernel) (p : MemoryPlan) (mappingId : ObjectId) : Outcome × Kernel :=
  match k.insertMappingHandle p.node p.cspace p.domain mappingId p.requestedRights with
  | (.inserted (.ok handle), k) => (.ok handle.raw, k)
  | (.inserted (.error _), k) =>
    let k := { k with mappings := k.mappings.remove mappingId }
    let k := (k.dropRef p.memId MemoryObject.decMappingRef).2
    (.fail .internalError, k.unmapAndDestroy mapper p mappingId)
  | (_, k) => (.fail .internalError, k)

/-- Step 3: the reference of the mapping, and the mapping itself. -/
def registerMemoryMapping (k : Kernel) (p : MemoryPlan) (mappingId : ObjectId) :
    Outcome × Kernel :=
  let counted : Option Kernel :=
    match k.memoryObjects.get p.memId with
    | none => some k
    | some m =>
      match m.incMappingRef with
      | .ok m => some { k with memoryObjects := k.memoryObjects.modify p.memId fun _ ↦ m }
      | .error _ => none
  match counted with
  | none => (.fail .internalError, k.unmapAndDestroy mapper p mappingId)
  | some k =>
    match Mapping.tryNewMemoryObject p.aspace p.virtualAddress p.memId p.offsetBytes p.mapLength
        p.requestedRights (some p.node) with
    | .error _ =>
      let k := (k.dropRef p.memId MemoryObject.decMappingRef).2
      (.fail .internalError, k.unmapAndDestroy mapper p mappingId)
    | .ok mapping =>
      { k with mappings := k.mappings.insert mappingId mapping }.publishMemoryMapping mapper p
        mappingId

/-- Steps 1 and 2, while the object is pinned: the identity of the mapping and its pages. -/
def mapPinned (k : Kernel) (p : MemoryPlan) (frames : List ℕ) : MapReply :=
  match k.createOf p.domain .mapping with
  | (.error _, k) => k.refuse .internalError
  | (.ok mappingId, k) =>
    match k.mapEntries mapper p.aspace
        (userFrameEntries p.virtualAddress frames p.requestedRights) with
    | (none, k) => (k.destroyObject p.domain mappingId).2.refuse .internalError
    | (some run, k) =>
      match run.result with
      | .panic => ⟨.panic, k, run.installed⟩
      | .error _ =>
        -- The pages before the one that failed stay where they are.
        ⟨.fail .internalError, (k.destroyObject p.domain mappingId).2, run.installed⟩
      | .ok =>
        let r := k.registerMemoryMapping mapper p mappingId
        ⟨r.1, r.2, run.installed⟩

/-- The pin is dropped behind the call, whichever way it ends. -/
def mapUnderPin (k : Kernel) (p : MemoryPlan) (frames : List ℕ) : MapReply :=
  let r := k.mapPinned mapper p frames
  match r.outcome with
  | .panic => r
  | _ => { r with kernel := r.kernel.dropMemoryRef p.memId MemoryObject.decTransientRef }

/-- The memory object path behind the checks. Where the frames cannot be listed, the call leaves
while it still holds the lock that dropping its pin takes. -/
def mapMemoryPlan (k : Kernel) (p : MemoryPlan) (reserved : Bool) (m : MemoryObject) : MapReply :=
  match m.incTransientRef with
  | .error _ => k.refuse .resourceExhausted
  | .ok m =>
    let k := { k with memoryObjects := k.memoryObjects.modify p.memId fun _ ↦ m }
    match m.framesSubrange p.offsetBytes p.mapLength with
    | .error _ => ⟨.hang, k, []⟩
    | .ok frames => if reserved then k.mapUnderPin mapper p frames else ⟨.hang, k, []⟩

/-- The checks of the memory object path. All of them fail with the same status. -/
def memoryPlan (k : Kernel) (q : MapRequest) (cspace : CapabilitySpace) (aspace : ObjectId)
    (info : CapabilityInfo) : Option (MemoryPlan × MemoryObject) :=
  if q.requestedRights.isSubsetOf info.rights = false then none
  else if q.requestedRights.contains Rights.write && q.requestedRights.contains Rights.execute then
    none
  else
    match cspace.nodeFor q.memHandle with
    | .error _ => none
    | .ok node =>
      match k.memoryObjects.get info.object with
      | none => none
      | some m =>
        let mapLength := m.sizeBytes - q.offsetBytes.toNat
        if m.kind = .anonymous ∧ q.requestedRights.contains Rights.execute then none
        else if mapLength = 0 ∨ mapLength % pageSize ≠ 0 then none
        else if sumWithin m.sizeBytes q.offsetBytes.toNat mapLength = false then none
        else if sumWithin userAddressMax q.virtualAddress.toNat mapLength = false then none
        else
          some
            ({ cspace := q.cspace
               domain := cspace.domain.objectId
               node := node
               aspace := aspace
               memId := info.object
               virtualAddress := q.virtualAddress.toNat
               requestedRights := q.requestedRights
               offsetBytes := q.offsetBytes.toNat
               mapLength := mapLength },
              m)

def mapMemoryObject (k : Kernel) (q : MapRequest) (cspace : CapabilitySpace) (aspace : ObjectId)
    (info : CapabilityInfo) : MapReply :=
  match k.memoryPlan q cspace aspace info with
  | none => k.refuse .internalError
  | some (p, m) => k.mapMemoryPlan mapper p q.reserved m

/-- What a request has passed when its plan is made. -/
structure MemoryPlan.Checked (k : Kernel) (q : MapRequest) (cspace : CapabilitySpace)
    (aspace : ObjectId) (info : CapabilityInfo) (p : MemoryPlan) (m : MemoryObject) : Prop where
  subset : q.requestedRights.isSubsetOf info.rights = true
  exclusive : ¬ (q.requestedRights.contains Rights.write = true
    ∧ q.requestedRights.contains Rights.execute = true)
  node : cspace.nodeFor q.memHandle = .ok p.node
  object : k.memoryObjects.get p.memId = some m
  length_ne_zero : p.mapLength ≠ 0
  length_aligned : p.mapLength % pageSize = 0
  range : p.virtualAddress + p.mapLength ≤ userAddressMax
  plan : p =
    { cspace := q.cspace
      domain := cspace.domain.objectId
      node := p.node
      aspace := aspace
      memId := info.object
      virtualAddress := q.virtualAddress.toNat
      requestedRights := q.requestedRights
      offsetBytes := q.offsetBytes.toNat
      mapLength := m.sizeBytes - q.offsetBytes.toNat }

theorem memoryPlan_eq_some {k : Kernel} {q : MapRequest} {cspace : CapabilitySpace}
    {aspace : ObjectId} {info : CapabilityInfo} {p : MemoryPlan} {m : MemoryObject}
    (h : k.memoryPlan q cspace aspace info = some (p, m)) :
    p.Checked k q cspace aspace info m := by
  unfold memoryPlan at h
  split_ifs at h with hsub hwx
  cases hnode : cspace.nodeFor q.memHandle with
  | error e => simp [hnode] at h
  | ok node =>
    cases hm : k.memoryObjects.get info.object with
    | none => simp [hnode, hm] at h
    | some m' =>
      simp only [hnode, hm] at h
      split_ifs at h with hkind hlength hobject hrange
      obtain ⟨rfl, rfl⟩ : _ = p ∧ m' = m := by simpa using h
      refine ⟨by simpa using hsub, by simpa using hwx, hnode, hm, ?_, ?_, ?_, rfl⟩
      · exact fun hc ↦ hlength (Or.inl hc)
      · by_contra hc
        exact hlength (Or.inr hc)
      · exact (sumWithin_iff.mp (by simpa using hrange)).2

/-! ## Mappings -/

/-- What the checks of the two physical paths hand on. -/
structure PhysicalPlan where
  cspace : ObjectId
  domain : ObjectId
  node : NodeId
  aspace : ObjectId
  virtualAddress : ℕ
  physical : ℕ
  size : ℕ
  requestedRights : Rights
  cachePolicy : CachePolicy

def unmapPlan (k : Kernel) (p : PhysicalPlan) : Kernel :=
  (k.unmapRange mapper p.aspace p.virtualAddress (p.size / pageSize)).2

/-- A physical path behind its pages: `built` is its mapping, and `undo` takes the pages back. -/
def registerPhysical (k : Kernel) (p : PhysicalPlan) (built : Except MappingError Mapping)
    (undo : Kernel → Kernel) (absent invalid : Status) : Outcome × Kernel :=
  match k.domain p.domain with
  | none => (.fail absent, undo k)
  | some _ =>
    match k.createOf p.domain .mapping with
    | (.error _, k) => (.fail .resourceExhausted, undo k)
    | (.ok mappingId, k) =>
      match built with
      | .error _ => (.fail invalid, undo (k.destroyObject p.domain mappingId).2)
      | .ok mapping =>
        let k := { k with mappings := k.mappings.insert mappingId mapping }
        match k.insertMappingHandle p.node p.cspace p.domain mappingId p.requestedRights with
        | (.inserted (.ok handle), k) => (.ok handle.raw, k)
        | (.inserted (.error _), k) =>
          let k := { k with mappings := k.mappings.remove mappingId }
          (.fail .capabilityLimit, undo (k.destroyObject p.domain mappingId).2)
        | (_, k) => (.fail absent, k)

def registerMmioMapping (k : Kernel) (p : PhysicalPlan) : Outcome × Kernel :=
  k.registerPhysical p
    (Mapping.tryNewMmio p.aspace p.virtualAddress p.physical p.size p.cachePolicy
      p.requestedRights)
    (·.unmapPlan mapper p) .internalError .internalError

/-- The pages of a plan are mapped, and `next` goes on behind them. -/
def mapPhysical (k : Kernel) (p : PhysicalPlan) (missing collision : Status)
    (next : Kernel → Outcome × Kernel) : MapReply :=
  match k.mapEntries mapper p.aspace
      (mmioEntries p.virtualAddress p.physical p.size p.requestedRights p.cachePolicy) with
  | (none, k) => k.refuse missing
  | (some run, k) =>
    match run.result with
    | .panic => ⟨.panic, k, run.installed⟩
    | .error _ => ⟨.fail collision, k, run.installed⟩
    | .ok =>
      let r := next k
      ⟨r.1, r.2, run.installed⟩

/-- The rights are compared with those of the source handle, but writable and executable pages are
not told apart. The offset of the request is not used. -/
def mapMapping (k : Kernel) (q : MapRequest) (cspace : CapabilitySpace) (aspace id : ObjectId) :
    MapReply :=
  match cspace.nodeFor q.memHandle with
  | .error _ => k.refuse .internalError
  | .ok node =>
    match k.caps.system.inspect cspace q.memHandle k.arena with
    | .error _ => k.refuse .internalError
    | .ok info =>
      if q.requestedRights.isSubsetOf info.rights = false then k.refuse .internalError
      else
        match k.mappings.get id with
        | none => k.refuse .internalError
        | some mapping =>
          if sumWithin userAddressMax q.virtualAddress.toNat mapping.size = false then
            k.refuse .internalError
          else
            match mapping.physAddr with
            | none => k.refuse .internalError
            | some physBase =>
              let p : PhysicalPlan :=
                { cspace := q.cspace
                  domain := cspace.domain.objectId
                  node := node
                  aspace := aspace
                  virtualAddress := q.virtualAddress.toNat
                  physical := physBase
                  size := mapping.size
                  requestedRights := q.requestedRights
                  cachePolicy := mapping.cachePolicy }
              k.mapPhysical mapper p .internalError .internalError
                fun k ↦ k.registerMmioMapping mapper p

/-! ## Contiguous frames -/

/-- The contiguous frame path behind the count of mappings, which is undone before the pages. -/
def registerFrameMapping (k : Kernel) (p : PhysicalPlan) (frameObject : ObjectId)
    (physicalBase offsetBytes : ℕ) : Outcome × Kernel :=
  k.registerPhysical p
    (Mapping.tryNewContiguousFrame p.aspace p.virtualAddress frameObject physicalBase offsetBytes
      p.size p.requestedRights)
    (fun k ↦ (k.removeFrameMapping frameObject).2.unmapPlan mapper p) .invalidHandle
    .invalidArgument

/-- The contiguous frame path behind its pages. -/
def countFrameMapping (k : Kernel) (p : PhysicalPlan) (frameObject : ObjectId)
    (physicalBase offsetBytes : ℕ) : Outcome × Kernel :=
  match k.contiguousFrames.get frameObject with
  | none => (.fail .invalidHandle, k.unmapPlan mapper p)
  | some f =>
    match f.addMapping with
    | .error _ => (.fail .resourceExhausted, k.unmapPlan mapper p)
    | .ok f =>
      { k with
        contiguousFrames := k.contiguousFrames.modify frameObject fun _ ↦ f }.registerFrameMapping
          mapper p frameObject physicalBase offsetBytes

/-- Neither the rights of the request nor the end of its range are checked before the pages are
mapped. -/
def mapContiguousFrame (k : Kernel) (q : MapRequest) (cspace : CapabilitySpace)
    (aspace id : ObjectId) : MapReply :=
  match cspace.nodeFor q.memHandle with
  | .error _ => k.refuse .internalError
  | .ok node =>
    match k.contiguousFrames.get id with
    | none => k.refuse .internalError
    | some f =>
      if 2 ^ 64 ≤ f.pageCount * pageSize then k.refuse .internalError
      else
        let frameSize := f.pageCount * pageSize
        let offset := q.offsetBytes.toNat
        let mapLength := frameSize - offset
        if mapLength = 0 ∨ mapLength % pageSize ≠ 0 ∨ frameSize < offset
            ∨ frameSize < offset + mapLength then
          k.refuse .invalidArgument
        else
          match checkedAdd 64 f.baseFrame offset with
          | none => k.refuse .invalidArgument
          | some physical =>
            let p : PhysicalPlan :=
              { cspace := q.cspace
                domain := cspace.domain.objectId
                node := node
                aspace := aspace
                virtualAddress := q.virtualAddress.toNat
                physical := physical
                size := mapLength
                requestedRights := q.requestedRights
                cachePolicy := .cached }
            k.mapPhysical mapper p .invalidHandle .mappingCollision
              fun k ↦ k.countFrameMapping mapper p id f.baseFrame offset

/-! ## The system calls -/

def mapFrom (k : Kernel) (q : MapRequest) (cspace : CapabilitySpace) (aspace : ObjectId) :
    MapSource → MapReply
  | .memoryObject info => k.mapMemoryObject mapper q cspace aspace info
  | .mapping id => k.mapMapping mapper q cspace aspace id
  | .contiguousFrame id => k.mapContiguousFrame mapper q cspace aspace id

/-- The address space and the source of a request that passes the first checks. -/
def mapTarget (k : Kernel) (q : MapRequest) : Option (CapabilitySpace × ObjectId × MapSource) :=
  match k.caps.spaces.get q.cspace with
  | none => none
  | some cspace =>
    match k.caps.system.lookup cspace q.aspaceHandle .addressSpace Rights.map k.arena with
    | .error _ => none
    | .ok aspace =>
      if q.virtualAddress.toNat = 0 ∨ q.virtualAddress.toNat % pageSize ≠ 0
          ∨ q.offsetBytes.toNat % pageSize ≠ 0 then none
      else (k.mapSource cspace q.memHandle).map fun source ↦ (cspace, aspace, source)

def mapMemory (k : Kernel) (q : MapRequest) : MapReply :=
  match k.mapTarget q with
  | none => k.refuse .internalError
  | some (cspace, aspace, source) => k.mapFrom mapper q cspace aspace source

/-- `UnmapMemory` behind the closing of the mapping. The handle is deleted and the object destroyed
at the expense of the domain of the caller, which need not be the one that was charged. -/
def unmapClosed (k : Kernel) (cspaceId domain : ObjectId) (handle : Handle) (id : ObjectId)
    (m : Mapping) : Outcome × Kernel :=
  match k.unmapRange mapper m.targetAddressSpace m.virtualAddress (m.size / pageSize) with
  | (some (.ok ()), k) =>
    let k := { k with mappings := k.mappings.remove id }
    let k :=
      match k.domain domain with
      | none => k
      | some _ =>
        let k := { k with caps := (k.caps.exec (.delete cspaceId domain handle)).2 }
        (k.destroyObject domain id).2
    (.ok 0, k.releaseBacking m.backing)
  | (_, k) => (.fail .internalError, k)

def unmapMemory (k : Kernel) (cspaceId : ObjectId) (handle : Handle) : Outcome × Kernel :=
  match k.caps.spaces.get cspaceId with
  | none => (.fail .internalError, k)
  | some cspace =>
    match k.caps.system.lookup cspace handle .mapping Rights.map k.arena with
    | .error _ => (.fail .internalError, k)
    | .ok id =>
      match k.mappings.get id with
      | none => (.fail .internalError, k)
      | some m =>
        match m.close with
        | .error _ => (.fail .internalError, k)
        | .ok m =>
          { k with mappings := k.mappings.modify id fun _ ↦ m }.unmapClosed mapper cspaceId
            cspace.domain.objectId handle id m

end Paths

end Kernel

end Gaxera

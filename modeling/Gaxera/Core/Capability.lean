import Gaxera.Core.Object
import Gaxera.Core.Registry

/-!
# Capabilities

A capability space is a table of slots, each holding at most one capability node; a handle names a
slot and the generation it has. The nodes themselves live in one system-wide table. A node records
what it authorises and from which node it was derived, and counts how many slots and children hold
on to it; the children of a node are threaded through their sibling links, and the free nodes
through a free list.

`Result<&mut Node>` followed by a match on the live state, the shape of nearly every access of the
source, is `liveNode` for reading and `modifyLive` for writing. A function that may fail after it
has written returns its result beside the new state. The loops run on a structural argument:
`validateNode` counts the remaining depth as the source does, and the walks of the source that have
no counter run on a fuel of one more than the number of nodes, which `Gaxera.Capability` shows is
never used up.
-/

namespace Gaxera

inductive CapabilityError
  | domainMismatch
  | spaceFull
  | nodeCapacity
  | invalidHandle
  | staleHandle
  | revoked
  | objectDestroyed
  | typeMismatch
  | rightsDenied
  | rightsEscalation
  | resource (error : ResourceError)
  | accountingInvariant
deriving DecidableEq, Repr

/-- What a capability authorises. -/
structure CapabilityInfo where
  object : ObjectId
  objectType : ObjectType
  rights : Rights
deriving DecidableEq, Repr

/-! ## Capability spaces -/

structure CapabilitySlot where
  generation : UInt32
  node : Option NodeId
  nextFree : Option UInt32
deriving DecidableEq, Repr

structure CapabilitySpace where
  domain : ResourceDomainId
  slots : List CapabilitySlot
  capacity : ℕ
  freeHead : Option UInt32
deriving DecidableEq, Repr

namespace CapabilitySpace

/-- The space as it is set up, when the reservation of its table succeeds. -/
def tryNew (domain : ResourceDomain) (capacity : ℕ) : Option CapabilitySpace :=
  if 2 ^ 32 - 1 < capacity then none else some ⟨domain.id, [], capacity, none⟩

def hasCapacity (s : CapabilitySpace) : Bool :=
  s.freeHead.isSome || decide (s.slots.length < s.capacity)

def setSlot (s : CapabilitySpace) (index : UInt32) (slot : CapabilitySlot) : CapabilitySpace :=
  { s with slots := s.slots.set index.toNat slot }

def insert (s : CapabilitySpace) (node : NodeId) :
    Except CapabilityError (Handle × CapabilitySpace) :=
  match s.freeHead with
  | some index =>
    match s.slots[index.toNat]? with
    | none => .error .accountingInvariant
    | some slot =>
      .ok (Handle.fromParts index slot.generation,
        { s.setSlot index ⟨slot.generation, some node, none⟩ with freeHead := slot.nextFree })
  | none =>
    if s.slots.length = s.capacity then .error .spaceFull
    else
      .ok (Handle.fromParts (UInt32.ofNat s.slots.length) 1,
        { s with slots := s.slots ++ [⟨1, some node, none⟩] })

/-- The slot a handle resolves to, with the node it holds. -/
def resolve (s : CapabilitySpace) (handle : Handle) :
    Except CapabilityError (CapabilitySlot × NodeId) :=
  if handle.isValid = false then .error .invalidHandle
  else
    match s.slots[handle.slot.toNat]? with
    | none => .error .invalidHandle
    | some slot =>
      if slot.generation ≠ handle.generation then .error .staleHandle
      else
        match slot.node with
        | none => .error .staleHandle
        | some node => .ok (slot, node)

def nodeFor (s : CapabilitySpace) (handle : Handle) : Except CapabilityError NodeId :=
  (s.resolve handle).map Prod.snd

def remove (s : CapabilitySpace) (handle : Handle) :
    Except CapabilityError (NodeId × CapabilitySpace) :=
  match s.resolve handle with
  | .error e => .error e
  | .ok (slot, node) =>
    .ok (node,
      { s.setSlot handle.slot ⟨nextGeneration slot.generation, none, s.freeHead⟩ with
        freeHead := some handle.slot })

/-- The handles of the occupied slots, when the reservation for them succeeds. -/
def snapshotHandles (s : CapabilitySpace) : List Handle :=
  s.slots.zipIdx.filterMap fun (slot, i) ↦
    if slot.node.isSome then some (Handle.fromParts (UInt32.ofNat i) slot.generation) else none

end CapabilitySpace

/-! ## The node table -/

/-- The payload of a live node. -/
structure LiveNode where
  info : CapabilityInfo
  parent : Option NodeId
  firstChild : Option NodeId
  nextSibling : Option NodeId
  revoked : Bool
  references : ℕ
deriving DecidableEq, Repr

inductive NodeState
  | free (next : Option UInt32)
  | live (node : LiveNode)
deriving DecidableEq, Repr

structure CapabilityNode where
  generation : UInt32
  state : NodeState
deriving DecidableEq, Repr

structure CapabilitySystem where
  nodes : List CapabilityNode
  capacity : ℕ
  freeHead : Option UInt32
deriving DecidableEq, Repr

namespace CapabilitySystem

/-- The system as it is set up, when the reservation of its table succeeds. -/
def tryNew (capacity : ℕ) : Option CapabilitySystem :=
  if 2 ^ 32 - 1 < capacity then none else some ⟨[], capacity, none⟩

/-- The entry an identity names, if the generation is the current one. -/
def node (sys : CapabilitySystem) (id : NodeId) : Option CapabilityNode :=
  match sys.nodes[id.index.toNat]? with
  | some n => if n.generation = id.generation then some n else none
  | none => none

def liveNode (sys : CapabilitySystem) (id : NodeId) : Option LiveNode :=
  match sys.node id with
  | some ⟨_, .live n⟩ => some n
  | _ => none

def setNode (sys : CapabilitySystem) (index : UInt32) (n : CapabilityNode) : CapabilitySystem :=
  { sys with nodes := sys.nodes.set index.toNat n }

def pushNode (sys : CapabilitySystem) (n : CapabilityNode) : CapabilitySystem :=
  { sys with nodes := sys.nodes ++ [n] }

/-- Rewriting a live node in place; an identity that names no live node changes nothing. -/
def modifyLive (sys : CapabilitySystem) (id : NodeId) (f : LiveNode → LiveNode) :
    CapabilitySystem :=
  match sys.liveNode id with
  | some n => sys.setNode id.index ⟨id.generation, .live (f n)⟩
  | none => sys

def firstChild (sys : CapabilitySystem) (id : NodeId) : Option NodeId :=
  (sys.liveNode id).bind LiveNode.firstChild

def nextSibling (sys : CapabilitySystem) (id : NodeId) : Option NodeId :=
  (sys.liveNode id).bind LiveNode.nextSibling

/-! ## Validation -/

/-- One turn of the loop of `validate_node`: `id` is checked, and the leaf is the first node
checked. -/
def validateTurn (sys : CapabilitySystem) (leaf : Option CapabilityInfo) (id : NodeId) :
    Except CapabilityError (CapabilityInfo × Option NodeId) :=
  match sys.liveNode id with
  | none => .error .staleHandle
  | some n => if n.revoked = true then .error .revoked else .ok (leaf.getD n.info, n.parent)

/-- The climb of `validate_node`; `remaining` is how much the depth may still grow. -/
def validateLoop (sys : CapabilitySystem) (objects : ObjectArena) :
    ℕ → Option CapabilityInfo → NodeId → Except CapabilityError CapabilityInfo
  | 0, leaf, id =>
    match sys.validateTurn leaf id with
    | .error e => .error e
    | .ok _ => .error .accountingInvariant
  | remaining + 1, leaf, id =>
    match sys.validateTurn leaf id with
    | .error e => .error e
    | .ok (leaf, some parent) => sys.validateLoop objects remaining (some leaf) parent
    | .ok (leaf, none) =>
      if objects.objectType leaf.object ≠ some leaf.objectType then .error .objectDestroyed
      else .ok leaf

def validateNode (sys : CapabilitySystem) (id : NodeId) (objects : ObjectArena) :
    Except CapabilityError CapabilityInfo :=
  sys.validateLoop objects sys.capacity none id

def lookupInfo (sys : CapabilitySystem) (space : CapabilitySpace) (handle : Handle)
    (requiredType : ObjectType) (requiredRights : Rights) (objects : ObjectArena) :
    Except CapabilityError CapabilityInfo :=
  match space.nodeFor handle with
  | .error e => .error e
  | .ok node =>
    match sys.validateNode node objects with
    | .error e => .error e
    | .ok info =>
      if info.objectType ≠ requiredType then .error .typeMismatch
      else if info.rights.contains requiredRights = false then .error .rightsDenied
      else .ok info

def lookup (sys : CapabilitySystem) (space : CapabilitySpace) (handle : Handle)
    (requiredType : ObjectType) (requiredRights : Rights) (objects : ObjectArena) :
    Except CapabilityError ObjectId :=
  (sys.lookupInfo space handle requiredType requiredRights objects).map CapabilityInfo.object

def inspect (sys : CapabilitySystem) (space : CapabilitySpace) (handle : Handle)
    (objects : ObjectArena) : Except CapabilityError CapabilityInfo :=
  match space.nodeFor handle with
  | .error e => .error e
  | .ok node => sys.validateNode node objects

/-- The climb of `is_descendant_of` behind its first test; the depth counts down. -/
def isDescendantLoop (sys : CapabilitySystem) (ancestor : NodeId) : ℕ → NodeId → Bool
  | 0, _ => false
  | depth + 1, current =>
    match sys.liveNode current with
    | none => false
    | some n =>
      match n.parent with
      | none => false
      | some p => if p = ancestor then true else sys.isDescendantLoop ancestor depth p

def isDescendantOf (sys : CapabilitySystem) (node ancestor : NodeId) : Bool :=
  if node = ancestor then true else sys.isDescendantLoop ancestor sys.capacity node

/-! ## Linking, unlinking, releasing -/

/-- The child goes to the front of the children list. -/
def linkChild (sys : CapabilitySystem) (parent child : NodeId) : CapabilitySystem :=
  let parentFirst := sys.firstChild parent
  let sys := sys.modifyLive child fun c ↦ { c with nextSibling := parentFirst }
  sys.modifyLive parent fun p ↦ { p with firstChild := some child }

/-- The sibling walk of `unlink_child`: the node whose sibling link is `child`. -/
def findPredecessor (sys : CapabilitySystem) (child : NodeId) : ℕ → NodeId → Option NodeId
  | 0, _ => none
  | fuel + 1, curr =>
    match sys.liveNode curr with
    | none => none
    | some n =>
      if n.nextSibling = some child then some curr
      else
        match n.nextSibling with
        | some next => sys.findPredecessor child fuel next
        | none => none

/-- Where `unlink_child` finds the link that leads to the child: the first-child link of the
parent, or the sibling link of the predecessor. -/
inductive ChildLink
  | first
  | behind (predecessor : NodeId)
deriving DecidableEq, Repr

def findChild (sys : CapabilitySystem) (parent child : NodeId) : Option ChildLink :=
  match sys.firstChild parent with
  | none => none
  | some first =>
    if first = child then some .first
    else (sys.findPredecessor child (sys.nodes.length + 1) first).map .behind

def unlinkChild (sys : CapabilitySystem) (parent child : NodeId) : CapabilitySystem :=
  match sys.findChild parent child with
  | some .first => sys.modifyLive parent fun n ↦ { n with firstChild := sys.nextSibling child }
  | some (.behind q) => sys.modifyLive q fun n ↦ { n with nextSibling := sys.nextSibling child }
  | none => sys

/-- A node goes back to the free list, with the next generation. -/
def freeNode (sys : CapabilitySystem) (id : NodeId) (freeHead : Option UInt32) :
    CapabilitySystem :=
  { sys.setNode id.index ⟨nextGeneration id.generation, .free freeHead⟩ with
    freeHead := some id.index }

/-- How one turn of the loop of `release_node` ends. -/
inductive ReleaseOutcome
  | done (result : Except CapabilityError Unit)
  | again (id : NodeId)

/-- One turn of the loop of `release_node`: a reference goes, and with the last one the node. -/
def releaseStep (sys : CapabilitySystem) (id : NodeId) : ReleaseOutcome × CapabilitySystem :=
  match sys.liveNode id with
  | none => (.done (.error .staleHandle), sys)
  | some n =>
    if n.references = 0 then (.done (.error .accountingInvariant), sys)
    else
      let sys := sys.modifyLive id fun n ↦ { n with references := n.references - 1 }
      if n.references - 1 ≠ 0 then (.done (.ok ()), sys)
      else
        let freeHead := sys.freeHead
        match n.parent with
        | some parent =>
          let sys := sys.unlinkChild parent id
          match sys.node id with
          | none => (.done (.error .staleHandle), sys)
          | some _ => (.again parent, sys.freeNode id freeHead)
        | none => (.done (.ok ()), sys.freeNode id freeHead)

def releaseLoop : ℕ → CapabilitySystem → NodeId → Except CapabilityError Unit × CapabilitySystem
  | 0, sys, _ => (.error .accountingInvariant, sys)
  | fuel + 1, sys, id =>
    match sys.releaseStep id with
    | (.done result, sys) => (result, sys)
    | (.again parent, sys) => releaseLoop fuel sys parent

def releaseNode (sys : CapabilitySystem) (id : NodeId) :
    Except CapabilityError Unit × CapabilitySystem :=
  releaseLoop (sys.nodes.length + 1) sys id

/-! ## Creating nodes -/

def addReference (sys : CapabilitySystem) (id : NodeId) :
    Except CapabilityError CapabilitySystem :=
  match sys.liveNode id with
  | none => .error .staleHandle
  | some n =>
    match checkedAdd 32 n.references 1 with
    | none => .error .accountingInvariant
    | some references => .ok (sys.modifyLive id fun n ↦ { n with references := references })

/-- A node as it is created: alone, with the one reference of the slot it is made for. -/
def freshNode (info : CapabilityInfo) (parent : Option NodeId) : LiveNode where
  info := info
  parent := parent
  firstChild := none
  nextSibling := none
  revoked := false
  references := 1

def linkToParent (sys : CapabilitySystem) (parent : Option NodeId) (child : NodeId) :
    CapabilitySystem :=
  match parent with
  | some parent => sys.linkChild parent child
  | none => sys

/-- The node is taken from the free list, or from the end of the table. -/
def allocateEntry (sys : CapabilitySystem) (info : CapabilityInfo) (parent : Option NodeId) :
    Except CapabilityError NodeId × CapabilitySystem :=
  match sys.freeHead with
  | some index =>
    match sys.nodes[index.toNat]? with
    | none => (.error .accountingInvariant, sys)
    | some node =>
      match node.state with
      | .live _ => (.error .accountingInvariant, sys)
      | .free next =>
        let newId : NodeId := ⟨index, node.generation⟩
        let sys := { sys with freeHead := next }
        let sys := sys.setNode index ⟨node.generation, .live (freshNode info parent)⟩
        (.ok newId, sys.linkToParent parent newId)
  | none =>
    if sys.nodes.length = sys.capacity then (.error .nodeCapacity, sys)
    else
      let newId : NodeId := ⟨UInt32.ofNat sys.nodes.length, 1⟩
      let sys := sys.pushNode ⟨1, .live (freshNode info parent)⟩
      (.ok newId, sys.linkToParent parent newId)

def allocateNode (sys : CapabilitySystem) (info : CapabilityInfo) (parent : Option NodeId) :
    Except CapabilityError NodeId × CapabilitySystem :=
  match parent with
  | some p =>
    match sys.addReference p with
    | .error e => (.error e, sys)
    | .ok sys => sys.allocateEntry info parent
  | none => sys.allocateEntry info parent

/-- `let _ = domain.release_capability()`. -/
def uncharge (domain : ResourceDomain) : ResourceDomain :=
  match domain.releaseCapability with
  | .ok domain => domain
  | .error _ => domain

/-- What the inserting operations return: the result, and the three parties they write to. -/
abbrev Inserted :=
  Except CapabilityError Handle × CapabilitySystem × CapabilitySpace × ResourceDomain

def insertNew (sys : CapabilitySystem) (target : CapabilitySpace) (domain : ResourceDomain)
    (info : CapabilityInfo) (parent : Option NodeId) : Inserted :=
  if target.domain ≠ domain.id then (.error .domainMismatch, sys, target, domain)
  else if target.hasCapacity = false then (.error .spaceFull, sys, target, domain)
  else if sys.freeHead = none ∧ sys.nodes.length = sys.capacity then
    (.error .nodeCapacity, sys, target, domain)
  else
    match domain.chargeCapability with
    | .error e => (.error (.resource e), sys, target, domain)
    | .ok domain =>
      match sys.allocateNode info parent with
      | (.error e, sys) => (.error e, sys, target, uncharge domain)
      | (.ok node, sys) =>
        match target.insert node with
        | .ok (handle, target) => (.ok handle, sys, target, domain)
        | .error e => (.error e, (sys.releaseNode node).2, target, uncharge domain)

/-! ## The operations -/

def insertRoot (sys : CapabilitySystem) (target : CapabilitySpace) (domain : ResourceDomain)
    (object : ObjectId) (objectType : ObjectType) (rights : Rights) (objects : ObjectArena) :
    Inserted :=
  if target.domain ≠ domain.id then (.error .domainMismatch, sys, target, domain)
  else if objects.objectType object ≠ some objectType then
    (.error .objectDestroyed, sys, target, domain)
  else sys.insertNew target domain ⟨object, objectType, rights⟩ none

def insertDescendant (sys : CapabilitySystem) (parentNode : NodeId) (target : CapabilitySpace)
    (domain : ResourceDomain) (object : ObjectId) (objectType : ObjectType)
    (requestedRights : Rights) (objects : ObjectArena) : Inserted :=
  if target.domain ≠ domain.id then (.error .domainMismatch, sys, target, domain)
  else if objects.objectType object ≠ some objectType then
    (.error .objectDestroyed, sys, target, domain)
  else
    match sys.validateNode parentNode objects with
    | .error e => (.error e, sys, target, domain)
    | .ok parentInfo =>
      if requestedRights.isSubsetOf parentInfo.rights = false then
        (.error .rightsEscalation, sys, target, domain)
      else sys.insertNew target domain ⟨object, objectType, requestedRights⟩ (some parentNode)

def derive (sys : CapabilitySystem) (source : CapabilitySpace) (sourceHandle : Handle)
    (target : CapabilitySpace) (targetDomain : ResourceDomain) (requestedRights : Rights)
    (objects : ObjectArena) : Inserted :=
  match source.nodeFor sourceHandle with
  | .error e => (.error e, sys, target, targetDomain)
  | .ok parent =>
    match sys.validateNode parent objects with
    | .error e => (.error e, sys, target, targetDomain)
    | .ok info =>
      if requestedRights.isSubsetOf info.rights = false then
        (.error .rightsEscalation, sys, target, targetDomain)
      else sys.insertNew target targetDomain { info with rights := requestedRights } (some parent)

/-- A transfer between its preparation and its commitment. -/
structure PreparedTransfer where
  sourceHandle : Handle
  requestedRights : Rights
deriving DecidableEq, Repr

def prepareTransfer (sys : CapabilitySystem) (source : CapabilitySpace) (handle : Handle)
    (requestedRights : Rights) (objects : ObjectArena) :
    Except CapabilityError PreparedTransfer :=
  match source.nodeFor handle with
  | .error e => .error e
  | .ok node =>
    match sys.validateNode node objects with
    | .error e => .error e
    | .ok info =>
      if requestedRights.isSubsetOf info.rights = false then .error .rightsEscalation
      else .ok ⟨handle, requestedRights⟩

/-- The source is validated again. -/
def commitTransfer (sys : CapabilitySystem) (source : CapabilitySpace)
    (prepared : PreparedTransfer) (target : CapabilitySpace) (targetDomain : ResourceDomain)
    (objects : ObjectArena) : Inserted :=
  sys.derive source prepared.sourceHandle target targetDomain prepared.requestedRights objects

def revoke (sys : CapabilitySystem) (space : CapabilitySpace) (handle : Handle)
    (objects : ObjectArena) : Except CapabilityError CapabilityInfo × CapabilitySystem :=
  match space.nodeFor handle with
  | .error e => (.error e, sys)
  | .ok id =>
    match sys.validateNode id objects with
    | .error e => (.error e, sys)
    | .ok info =>
      if info.rights.contains Rights.manage = false then (.error .rightsDenied, sys)
      else
        match sys.liveNode id with
        | none => (.error .staleHandle, sys)
        | some _ => (.ok info, sys.modifyLive id fun n ↦ { n with revoked := true })

/-- The search of `find_unrevoked_descendant` from one child on: the child itself, then what is
below it, then its siblings. -/
def findUnrevokedFrom (sys : CapabilitySystem) : ℕ → Option NodeId → Option NodeId
  | 0, _ => none
  | _ + 1, none => none
  | fuel + 1, some child =>
    match sys.liveNode child with
    | none => none
    | some c =>
      if c.revoked = false then some child
      else
        match sys.findUnrevokedFrom fuel c.firstChild with
        | some descendant => some descendant
        | none => sys.findUnrevokedFrom fuel c.nextSibling

def findUnrevokedDescendant (sys : CapabilitySystem) (root : NodeId) : Option NodeId :=
  sys.findUnrevokedFrom (sys.nodes.length + 1) (sys.firstChild root)

def revokeOneDescendant (sys : CapabilitySystem) (root : NodeId) :
    Option CapabilityInfo × CapabilitySystem :=
  match sys.findUnrevokedDescendant root with
  | none => (none, sys)
  | some id =>
    match sys.liveNode id with
    | none => (none, sys)
    | some n => (some n.info, sys.modifyLive id fun n ↦ { n with revoked := true })

/-- The slot is emptied first; what a failure behind it leaves is written out. -/
def delete (sys : CapabilitySystem) (space : CapabilitySpace) (domain : ResourceDomain)
    (handle : Handle) :
    Except CapabilityError Unit × CapabilitySystem × CapabilitySpace × ResourceDomain :=
  if space.domain ≠ domain.id then (.error .domainMismatch, sys, space, domain)
  else
    match space.remove handle with
    | .error e => (.error e, sys, space, domain)
    | .ok (node, space) =>
      match domain.releaseCapability with
      | .error e => (.error (.resource e), sys, space, domain)
      | .ok domain =>
        ((sys.releaseNode node).1, (sys.releaseNode node).2, space, domain)

end CapabilitySystem

end Gaxera

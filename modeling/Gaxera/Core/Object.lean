import Gaxera.Core.Resource

/-!
# The object arena

Object identities are handed out by one arena. A slot of the arena is free, and then links to the
next free slot, or live, and then records the type of the object and the domain that was charged
for it. Creating an object charges its domain and takes a slot from the free list or from the end
of the table; destroying it advances the generation of the slot.
-/

namespace Gaxera

/-- The right to create objects of some types at the expense of one domain. -/
structure Factory where
  domain : ResourceDomainId
  allowedTypes : ObjectTypeSet
deriving DecidableEq, Repr

namespace Factory

def new (domain : ResourceDomain) (allowedTypes : ObjectTypeSet) : Factory :=
  ⟨domain.id, allowedTypes⟩

def allows (f : Factory) (t : ObjectType) : Bool := f.allowedTypes.contains t

end Factory

inductive ObjectError
  | arenaFull
  | factoryDomainMismatch
  | factoryDenied
  | objectNotFound
  | ownerDomainMismatch
  | resource (error : ResourceError)
deriving DecidableEq, Repr

inductive ObjectSlotState
  | free (next : Option UInt32)
  | live (objectType : ObjectType) (owner : ResourceDomainId)
deriving DecidableEq, Repr

structure ObjectSlot where
  generation : UInt32
  state : ObjectSlotState
deriving DecidableEq, Repr

structure ObjectArena where
  slots : List ObjectSlot
  capacity : ℕ
  freeHead : Option UInt32
deriving DecidableEq, Repr

namespace ObjectArena

/-- The arena as it is set up, when the reservation of its table succeeds. -/
def tryNew (capacity : ℕ) : Option ObjectArena :=
  if 2 ^ 32 - 1 < capacity then none else some ⟨[], capacity, none⟩

def setSlot (a : ObjectArena) (index : UInt32) (slot : ObjectSlot) : ObjectArena :=
  { a with slots := a.slots.set index.toNat slot }

/-- A failure behind the charge gives the charge back. -/
def uncharge (domain : ResourceDomain) : ResourceDomain :=
  match domain.releaseObject with
  | .ok domain => domain
  | .error _ => domain

def createInternalImpl (a : ObjectArena) (domain : ResourceDomain) (objectType : ObjectType) :
    Except ObjectError ObjectId × ObjectArena × ResourceDomain :=
  if a.freeHead = none ∧ a.slots.length = a.capacity then (.error .arenaFull, a, domain)
  else
    match domain.chargeObject with
    | .error e => (.error (.resource e), a, domain)
    | .ok domain =>
      match a.freeHead with
      | some index =>
        match a.slots[index.toNat]? with
        | none => (.error .objectNotFound, a, uncharge domain)
        | some slot =>
          match slot.state with
          | .live _ _ => (.error .objectNotFound, a, uncharge domain)
          | .free next =>
            (.ok ⟨index, slot.generation⟩,
              { a.setSlot index { slot with state := .live objectType domain.id } with
                freeHead := next },
              domain)
      | none =>
        (.ok ⟨UInt32.ofNat a.slots.length, 1⟩,
          { a with slots := a.slots ++ [⟨1, .live objectType domain.id⟩] },
          domain)

def create (a : ObjectArena) (domain : ResourceDomain) (factory : Factory)
    (objectType : ObjectType) : Except ObjectError ObjectId × ObjectArena × ResourceDomain :=
  if factory.domain ≠ domain.id then (.error .factoryDomainMismatch, a, domain)
  else if factory.allows objectType = false then (.error .factoryDenied, a, domain)
  else a.createInternalImpl domain objectType

def destroy (a : ObjectArena) (domain : ResourceDomain) (object : ObjectId) :
    Except ObjectError Unit × ObjectArena × ResourceDomain :=
  match a.slots[object.index.toNat]? with
  | none => (.error .objectNotFound, a, domain)
  | some slot =>
    match slot.state with
    | .free _ => (.error .objectNotFound, a, domain)
    | .live _ owner =>
      if slot.generation ≠ object.generation then (.error .objectNotFound, a, domain)
      else if owner ≠ domain.id then (.error .ownerDomainMismatch, a, domain)
      else
        match domain.releaseObject with
        | .error e => (.error (.resource e), a, domain)
        | .ok domain =>
          (.ok (),
            { a.setSlot object.index ⟨nextGeneration slot.generation, .free a.freeHead⟩ with
              freeHead := some object.index },
            domain)

/-- The type and the owner of a live object. -/
def live (a : ObjectArena) (object : ObjectId) : Option (ObjectType × ResourceDomainId) :=
  match a.slots[object.index.toNat]? with
  | none => none
  | some slot =>
    match slot.state with
    | .live objectType owner =>
      if slot.generation = object.generation then some (objectType, owner) else none
    | .free _ => none

def objectType (a : ObjectArena) (object : ObjectId) : Option ObjectType :=
  (a.live object).map Prod.fst

def owner (a : ObjectArena) (object : ObjectId) : Option ResourceDomainId :=
  (a.live object).map Prod.snd

end ObjectArena

end Gaxera

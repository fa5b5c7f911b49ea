import Gaxera.Core.Identity
import Mathlib.Tactic.Simps.Basic

/-!
# Resource domains

The accounting authority for objects, capabilities and memory. A domain has limits and a usage; a
child domain is created by reserving the whole of its limits in the usage of its parent, and the
reservation goes back when the child is eligible for destruction.

The counters of the source are fixed-width words. They are natural numbers here, and every place
where the source checks an addition for overflow makes the same check. An operation that leaves the
domain alone when it fails returns the new domain in `Except`; the two operations that can fail
halfway return the domains beside the result.
-/

namespace Gaxera

/-- `checked_add` on words of `w` bits. -/
def checkedAdd (w a b : ℕ) : Option ℕ := if a + b < 2 ^ w then some (a + b) else none

/-- `checked_sub` on unsigned words. -/
def checkedSub (a b : ℕ) : Option ℕ := if b ≤ a then some (a - b) else none

/-- `checked_mul` on unsigned words. -/
def checkedMul (w a b : ℕ) : Option ℕ := if a * b < 2 ^ w then some (a * b) else none

theorem checkedAdd_eq_some {w a b n : ℕ} :
    checkedAdd w a b = some n ↔ a + b < 2 ^ w ∧ n = a + b := by
  grind [checkedAdd]

inductive ResourceError
  | objectLimit
  | capabilityLimit
  | memoryLimit
  | accountingUnderflow
  | stillReferenced
deriving DecidableEq, Repr

/-- Amounts of the three accounted resources: the limits of a domain, or its usage. -/
@[ext]
structure Resources where
  objects : ℕ
  capabilities : ℕ
  memoryBytes : ℕ
deriving DecidableEq, Repr

@[ext]
structure ResourceDomain where
  id : ResourceDomainId
  parent : Option ResourceDomainId
  limits : Resources
  usage : Resources
  processRefs : ℕ
  childDomainRefs : ℕ
  reservationActive : Bool
deriving DecidableEq, Repr

namespace ResourceDomain

def new (id : ResourceDomainId) (limits : Resources) : ResourceDomain where
  id := id
  parent := none
  limits := limits
  usage := ⟨0, 0, 0⟩
  processRefs := 0
  childDomainRefs := 0
  reservationActive := false

/-! ## Objects, capabilities, memory -/

@[simps] def setObjects (d : ResourceDomain) (n : ℕ) : ResourceDomain :=
  { d with usage := { d.usage with objects := n } }

@[simps] def setCapabilities (d : ResourceDomain) (n : ℕ) : ResourceDomain :=
  { d with usage := { d.usage with capabilities := n } }

@[simps] def setMemoryBytes (d : ResourceDomain) (n : ℕ) : ResourceDomain :=
  { d with usage := { d.usage with memoryBytes := n } }

def chargeObject (d : ResourceDomain) : Except ResourceError ResourceDomain :=
  if d.limits.objects ≤ d.usage.objects then .error .objectLimit
  else .ok (d.setObjects (d.usage.objects + 1))

def releaseObject (d : ResourceDomain) : Except ResourceError ResourceDomain :=
  if d.usage.objects = 0 then .error .accountingUnderflow
  else .ok (d.setObjects (d.usage.objects - 1))

def chargeCapability (d : ResourceDomain) : Except ResourceError ResourceDomain :=
  if d.limits.capabilities ≤ d.usage.capabilities then .error .capabilityLimit
  else .ok (d.setCapabilities (d.usage.capabilities + 1))

def releaseCapability (d : ResourceDomain) : Except ResourceError ResourceDomain :=
  if d.usage.capabilities = 0 then .error .accountingUnderflow
  else .ok (d.setCapabilities (d.usage.capabilities - 1))

def chargeMemory (d : ResourceDomain) (bytes : ℕ) : Except ResourceError ResourceDomain :=
  match checkedAdd 64 d.usage.memoryBytes bytes with
  | none => .error .memoryLimit
  | some newUsage =>
    if d.limits.memoryBytes < newUsage then .error .memoryLimit else .ok (d.setMemoryBytes newUsage)

def rollbackMemory (d : ResourceDomain) (bytes : ℕ) : Except ResourceError ResourceDomain :=
  match checkedSub d.usage.memoryBytes bytes with
  | none => .error .accountingUnderflow
  | some newUsage => .ok (d.setMemoryBytes newUsage)

def releaseMemory (d : ResourceDomain) (bytes : ℕ) : Except ResourceError ResourceDomain :=
  d.rollbackMemory bytes

section Charges

variable {d d' : ResourceDomain} {bytes : ℕ}

theorem chargeObject_eq_ok : d.chargeObject = .ok d' ↔
    d.usage.objects < d.limits.objects ∧ d' = d.setObjects (d.usage.objects + 1) := by
  grind [chargeObject]

theorem releaseObject_eq_ok : d.releaseObject = .ok d' ↔
    d.usage.objects ≠ 0 ∧ d' = d.setObjects (d.usage.objects - 1) := by
  grind [releaseObject]

theorem chargeCapability_eq_ok : d.chargeCapability = .ok d' ↔
    d.usage.capabilities < d.limits.capabilities
      ∧ d' = d.setCapabilities (d.usage.capabilities + 1) := by
  grind [chargeCapability]

theorem releaseCapability_eq_ok : d.releaseCapability = .ok d' ↔
    d.usage.capabilities ≠ 0 ∧ d' = d.setCapabilities (d.usage.capabilities - 1) := by
  grind [releaseCapability]

theorem chargeMemory_eq_ok : d.chargeMemory bytes = .ok d' ↔
    d.usage.memoryBytes + bytes < 2 ^ 64 ∧ d.usage.memoryBytes + bytes ≤ d.limits.memoryBytes
      ∧ d' = d.setMemoryBytes (d.usage.memoryBytes + bytes) := by
  grind [chargeMemory, checkedAdd]

theorem rollbackMemory_eq_ok : d.rollbackMemory bytes = .ok d' ↔
    bytes ≤ d.usage.memoryBytes ∧ d' = d.setMemoryBytes (d.usage.memoryBytes - bytes) := by
  grind [rollbackMemory, checkedSub]

end Charges

/-! ## Child domains -/

/-- The whole budget of the child is reserved in the usage of the parent. The reservation is
written before the reference count is checked, and stays if that check fails. -/
def newChild (id : ResourceDomainId) (parent : ResourceDomain) (childLimits : Resources) :
    Except ResourceError ResourceDomain × ResourceDomain :=
  match checkedAdd 32 parent.usage.objects childLimits.objects with
  | none => (.error .objectLimit, parent)
  | some nextObjects =>
    match checkedAdd 32 parent.usage.capabilities childLimits.capabilities with
    | none => (.error .capabilityLimit, parent)
    | some nextCapabilities =>
      match checkedAdd 64 parent.usage.memoryBytes childLimits.memoryBytes with
      | none => (.error .memoryLimit, parent)
      | some nextMemory =>
        if parent.limits.objects < nextObjects then (.error .objectLimit, parent)
        else if parent.limits.capabilities < nextCapabilities then
          (.error .capabilityLimit, parent)
        else if parent.limits.memoryBytes < nextMemory then (.error .memoryLimit, parent)
        else
          let parent := { parent with usage := ⟨nextObjects, nextCapabilities, nextMemory⟩ }
          match checkedAdd 32 parent.childDomainRefs 1 with
          | none => (.error .objectLimit, parent)
          | some refs =>
            (.ok
              { id := id
                parent := some parent.id
                limits := childLimits
                usage := ⟨0, 0, 0⟩
                processRefs := 0
                childDomainRefs := 0
                reservationActive := true },
              { parent with childDomainRefs := refs })

def isEligibleForDestruction (d : ResourceDomain) : Bool :=
  decide (d.processRefs = 0 ∧ d.usage.objects = 0 ∧ d.usage.capabilities = 0
    ∧ d.usage.memoryBytes = 0 ∧ d.childDomainRefs = 0)

/-- The four subtractions are made one after the other, each written back before the next is
checked. -/
def refundToParent (d parent : ResourceDomain) :
    Except ResourceError Unit × ResourceDomain × ResourceDomain :=
  if d.parent ≠ some parent.id then (.error .stillReferenced, d, parent)
  else if d.reservationActive = false ∨ d.isEligibleForDestruction = false then
    (.error .stillReferenced, d, parent)
  else
    match checkedSub parent.usage.objects d.limits.objects with
    | none => (.error .accountingUnderflow, d, parent)
    | some objects =>
      let parent := parent.setObjects objects
      match checkedSub parent.usage.capabilities d.limits.capabilities with
      | none => (.error .accountingUnderflow, d, parent)
      | some capabilities =>
        let parent := parent.setCapabilities capabilities
        match checkedSub parent.usage.memoryBytes d.limits.memoryBytes with
        | none => (.error .accountingUnderflow, d, parent)
        | some memoryBytes =>
          let parent := parent.setMemoryBytes memoryBytes
          match checkedSub parent.childDomainRefs 1 with
          | none => (.error .accountingUnderflow, d, parent)
          | some refs =>
            (.ok (), { d with reservationActive := false }, { parent with childDomainRefs := refs })

end ResourceDomain

end Gaxera

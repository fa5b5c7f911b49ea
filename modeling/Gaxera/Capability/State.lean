import Gaxera.Capability.Release
import Gaxera.Capability.Slots

/-!
# Runs of the capability operations

The operations of the capability system work on the node table, on spaces and on domains that the
caller hands in. `CapState` is what a caller has: the system, and the registries of spaces and
domains. An operation names the space and the domain it is given, and the arena it is given is any
arena, since nothing here depends on which objects are alive.

`CapState.Wf` is the invariant of these runs. It puts the slot tables of all spaces together into
the count of holders that the well-formedness of the node table asks for, and it knows that a
domain has been charged for every occupied slot of its spaces, so that giving a slot back never
finds the account empty.
-/

namespace Gaxera

structure CapState where
  system : CapabilitySystem
  spaces : Registry CapabilitySpace
  domains : Registry ResourceDomain

/-- What an operation returns. `absent` is the answer where the caller has no such space or
domain to hand in. -/
inductive CapResult
  | inserted (result : Except CapabilityError Handle)
  | revoked (result : Except CapabilityError CapabilityInfo)
  | revokedOne (result : Option CapabilityInfo)
  | deleted (result : Except CapabilityError Unit)
  | absent

/-- The handle a successful insertion returns. -/
def CapResult.handle : CapResult → Option Handle
  | .inserted (.ok handle) => some handle
  | _ => none

/-- The operations that change the capability state. -/
inductive CapOp
  | insertRoot (target domain : ObjectId) (object : ObjectId) (objectType : ObjectType)
      (rights : Rights) (objects : ObjectArena)
  | insertDescendant (parentNode : NodeId) (target domain : ObjectId) (object : ObjectId)
      (objectType : ObjectType) (requestedRights : Rights) (objects : ObjectArena)
  | derive (source : ObjectId) (sourceHandle : Handle) (target domain : ObjectId)
      (requestedRights : Rights) (objects : ObjectArena)
  | commitTransfer (source : ObjectId) (prepared : CapabilitySystem.PreparedTransfer)
      (target domain : ObjectId) (objects : ObjectArena)
  | revoke (space : ObjectId) (handle : Handle) (objects : ObjectArena)
  | revokeOneDescendant (root : NodeId)
  | delete (space domain : ObjectId) (handle : Handle)

namespace CapState

variable {st st' : CapState}

/-- An inserting operation writes to the system, to its target space and to its domain. -/
def inserting (st : CapState) (target domain : ObjectId)
    (call : CapabilitySpace → ResourceDomain → CapabilitySystem.Inserted) : CapResult × CapState :=
  match st.spaces.get target, st.domains.get domain with
  | some space, some dom =>
    let r := call space dom
    (.inserted r.1,
      { system := r.2.1
        spaces := st.spaces.modify target fun _ ↦ r.2.2.1
        domains := st.domains.modify domain fun _ ↦ r.2.2.2 })
  | _, _ => (.absent, st)

def exec (st : CapState) : CapOp → CapResult × CapState
  | .insertRoot target domain object objectType rights objects =>
    st.inserting target domain fun space dom ↦
      st.system.insertRoot space dom object objectType rights objects
  | .insertDescendant parentNode target domain object objectType requestedRights objects =>
    st.inserting target domain fun space dom ↦
      st.system.insertDescendant parentNode space dom object objectType requestedRights objects
  | .derive source sourceHandle target domain requestedRights objects =>
    match st.spaces.get source with
    | none => (.absent, st)
    | some source =>
      st.inserting target domain fun space dom ↦
        st.system.derive source sourceHandle space dom requestedRights objects
  | .commitTransfer source prepared target domain objects =>
    match st.spaces.get source with
    | none => (.absent, st)
    | some source =>
      st.inserting target domain fun space dom ↦
        st.system.commitTransfer source prepared space dom objects
  | .revoke space handle objects =>
    match st.spaces.get space with
    | none => (.absent, st)
    | some space =>
      let r := st.system.revoke space handle objects
      (.revoked r.1, { st with system := r.2 })
  | .revokeOneDescendant root =>
    let r := st.system.revokeOneDescendant root
    (.revokedOne r.1, { st with system := r.2 })
  | .delete space domain handle =>
    match st.spaces.get space, st.domains.get domain with
    | some sp, some dom =>
      let r := st.system.delete sp dom handle
      (.deleted r.1,
        { system := r.2.1
          spaces := st.spaces.modify space fun _ ↦ r.2.2.1
          domains := st.domains.modify domain fun _ ↦ r.2.2.2 })
    | _, _ => (.absent, st)

/-- The state after a list of operations. -/
def run (st : CapState) : List CapOp → CapState
  | [] => st
  | op :: ops => run (st.exec op).2 ops

theorem run_append (ops ops' : List CapOp) : st.run (ops ++ ops') = (st.run ops).run ops' := by
  induction ops generalizing st with
  | nil => rfl
  | cons op ops ih => exact ih

theorem run_induction {P : CapState → Prop} (hstep : ∀ st op, P st → P (st.exec op).2)
    (h : P st) (ops : List CapOp) : P (st.run ops) := by
  induction ops generalizing st with
  | nil => exact h
  | cons op ops ih => exact ih (hstep st op h)

/-- The states that runs start from: a system and spaces as they are set up, and unused domains,
each registered under its own identity. -/
structure Initial (st : CapState) : Prop where
  system : ∃ capacity, CapabilitySystem.tryNew capacity = some st.system
  spaces : ∀ k space, st.spaces.get k = some space →
    ∃ domain capacity, CapabilitySpace.tryNew domain capacity = some space
  domains : ∀ d dom, st.domains.get d = some dom → ∃ limits, dom = ResourceDomain.new ⟨d⟩ limits

/-! ## The invariant -/

/-- The number of slots, over all spaces, that hold `node`. -/
def holders (st : CapState) (node : NodeId) : ℕ :=
  st.spaces.census fun _ space ↦ space.holders node

/-- The number of occupied slots of the spaces of a domain. -/
def charged (st : CapState) (domain : ResourceDomainId) : ℕ :=
  st.spaces.census fun _ space ↦ if space.domain = domain then space.occupied else 0

structure Wf (st : CapState) : Prop where
  system : st.system.Wf st.holders
  spaces : ∀ k space, st.spaces.get k = some space → space.Wf
  domains : ∀ d dom, st.domains.get d = some dom →
    dom.id = ⟨d⟩ ∧ st.charged ⟨d⟩ ≤ dom.usage.capabilities

theorem Initial.wf (h : st.Initial) : st.Wf := by
  obtain ⟨capacity, hsys⟩ := h.system
  have hspace : ∀ k space, st.spaces.get k = some space → space.Wf ∧ space.slots = [] := by
    intro k space hk
    obtain ⟨domain, capacity, htry⟩ := h.spaces k space hk
    exact CapabilitySpace.wf_of_tryNew htry
  constructor
  · have hholders : st.holders = fun _ ↦ 0 := by
      funext node
      refine Registry.census_eq_zero_iff.mpr fun k space hk ↦ ?_
      rw [CapabilitySpace.holders, (hspace k space hk).2]
      rfl
    rw [hholders]
    exact CapabilitySystem.wf_of_tryNew hsys
  · exact fun k space hk ↦ (hspace k space hk).1
  · intro d dom hd
    obtain ⟨limits, rfl⟩ := h.domains d dom hd
    refine ⟨rfl, ?_⟩
    rw [charged, Registry.census_eq_zero_iff.mpr]
    · exact Nat.zero_le _
    · intro k space hk
      rw [CapabilitySpace.occupied, (hspace k space hk).2]
      simp

/-! ### A run over two spaces -/

/-- Two empty spaces of one domain, and room for four nodes. -/
def twoSpaces : CapState where
  system := ⟨[], 4, none⟩
  spaces := (Registry.empty.insert ⟨1, 1⟩ ⟨⟨⟨0, 1⟩⟩, [], 4, none⟩).insert ⟨2, 1⟩
    ⟨⟨⟨0, 1⟩⟩, [], 4, none⟩
  domains := Registry.empty.insert ⟨0, 1⟩ (ResourceDomain.new ⟨⟨0, 1⟩⟩ ⟨8, 8, 4096⟩)

theorem twoSpaces_initial : twoSpaces.Initial := by
  refine ⟨⟨4, rfl⟩, fun k space hk ↦ ?_, fun d dom hd ↦ ?_⟩
  · refine ⟨ResourceDomain.new ⟨⟨0, 1⟩⟩ ⟨8, 8, 4096⟩, 4, ?_⟩
    simp only [twoSpaces, Registry.get_insert, Registry.get_empty] at hk
    grind [CapabilitySpace.tryNew, ResourceDomain.new]
  · simp only [twoSpaces, Registry.get_insert, Registry.get_empty] at hd
    exact ⟨⟨8, 8, 4096⟩, by grind⟩

/-- An arena with one live endpoint. -/
def oneEndpoint : ObjectArena := ⟨[⟨1, .live .endpoint ⟨⟨0, 1⟩⟩⟩], 4, none⟩

/-- A chain of three nodes over the two spaces, whose upper two handles are deleted again. -/
def chainOps : List CapOp :=
  [.insertRoot ⟨1, 1⟩ ⟨0, 1⟩ ⟨0, 1⟩ .endpoint ⟨0x47⟩ oneEndpoint,
   .derive ⟨1, 1⟩ (Handle.fromParts 0 1) ⟨2, 1⟩ ⟨0, 1⟩ ⟨0x43⟩ oneEndpoint,
   .derive ⟨2, 1⟩ (Handle.fromParts 0 1) ⟨1, 1⟩ ⟨0, 1⟩ ⟨0x3⟩ oneEndpoint,
   .delete ⟨1, 1⟩ ⟨0, 1⟩ (Handle.fromParts 0 1),
   .delete ⟨2, 1⟩ ⟨0, 1⟩ (Handle.fromParts 0 1)]

end CapState

end Gaxera

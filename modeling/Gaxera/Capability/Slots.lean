import Gaxera.Core.Capability
import Gaxera.Data.FreeList

/-!
# Capability spaces

The slot table of a space is read as a partial function from indices to the generation and the
content of a slot, `slotAt`. Inserting fills an empty slot, or one at the end of the table, under
the generation the slot has; removing empties a slot and advances its generation. Both keep the
free list threaded through exactly the empty slots, and both move the number of slots that hold a
given node, and the number of occupied slots, by one.
-/

namespace Gaxera

open Function

namespace CapabilitySpace

variable {s s' : CapabilitySpace} {handle : Handle} {node : NodeId} {i : UInt32}

/-- The generation and the content of a slot. -/
def slotAt (s : CapabilitySpace) (i : UInt32) : Option (UInt32 × Option NodeId) :=
  (s.slots[i.toNat]?).map fun x ↦ (x.generation, x.node)

/-- The link of an empty slot. -/
def freeLink (s : CapabilitySpace) (i : UInt32) : Option (Option UInt32) :=
  match s.slots[i.toNat]? with
  | some ⟨_, none, next⟩ => some next
  | _ => none

/-- The number of slots that hold `node`. -/
def holders (s : CapabilitySpace) (node : NodeId) : ℕ :=
  s.slots.countP fun x ↦ x.node = some node

/-- The number of slots that hold a node. -/
def occupied (s : CapabilitySpace) : ℕ := s.slots.countP fun x ↦ x.node.isSome

/-- The slot table is well formed. -/
structure Wf (s : CapabilitySpace) : Prop where
  capacity_lt : s.capacity < 2 ^ 32
  length_le : s.slots.length ≤ s.capacity
  free : ∃ l, Threads s.freeLink s.freeHead l ∧ ∀ i, i ∈ l ↔ ∃ next, s.freeLink i = some next
  generation_ne_zero : ∀ i g o, s.slotAt i = some (g, o) → g ≠ 0

variable {g : UInt32}

theorem slotAt_eq_some {o : Option NodeId} :
    s.slotAt i = some (g, o) ↔ ∃ next, s.slots[i.toNat]? = some ⟨g, o, next⟩ := by
  rw [slotAt, Option.map_eq_some_iff]
  constructor
  · rintro ⟨⟨g', o', next⟩, hx, heq⟩
    obtain ⟨rfl, rfl⟩ := Prod.mk.inj heq
    exact ⟨next, hx⟩
  · rintro ⟨next, hx⟩
    exact ⟨_, hx, rfl⟩

variable {next : Option UInt32}

theorem freeLink_eq_some :
    s.freeLink i = some next ↔ ∃ g, s.slots[i.toNat]? = some ⟨g, none, next⟩ := by
  rw [freeLink]
  cases h : s.slots[i.toNat]? with
  | none => simp
  | some x =>
    obtain ⟨g, o, next'⟩ := x
    cases o <;> simp

theorem wf_of_tryNew {domain : ResourceDomain} {capacity : ℕ}
    (h : tryNew domain capacity = some s) : s.Wf ∧ s.slots = [] := by
  have hs : s = ⟨domain.id, [], capacity, none⟩ ∧ capacity < 2 ^ 32 := by grind [tryNew]
  obtain ⟨rfl, hcap⟩ := hs
  refine ⟨⟨hcap, Nat.zero_le _, ⟨[], Threads.nil, fun i ↦ ?_⟩, fun i g o hs ↦ ?_⟩, rfl⟩
  · simp [freeLink]
  · simp [slotAt] at hs

/-! ## Resolving a handle -/

theorem resolve_eq_ok {slot : CapabilitySlot} :
    s.resolve handle = .ok (slot, node) ↔
      handle.isValid = true ∧ s.slots[handle.slot.toNat]? = some slot
        ∧ slot.generation = handle.generation ∧ slot.node = some node := by
  rw [resolve]
  cases hv : handle.isValid with
  | false => simp
  | true =>
    cases hs : s.slots[handle.slot.toNat]? with
    | none => simp
    | some x =>
      by_cases hg : x.generation = handle.generation
      · cases hn : x.node with
        | none | some => grind
      · grind

theorem nodeFor_eq_ok :
    s.nodeFor handle = .ok node ↔
      handle.isValid = true ∧ s.slotAt handle.slot = some (handle.generation, some node) := by
  rw [slotAt_eq_some, nodeFor]
  constructor
  · intro h
    cases hr : s.resolve handle with
    | error e => simp [hr, Except.map] at h
    | ok x =>
      obtain ⟨⟨g, o, next⟩, m⟩ := x
      obtain rfl : m = node := by simpa [hr, Except.map] using h
      obtain ⟨hv, hs, rfl, rfl⟩ := resolve_eq_ok.mp hr
      exact ⟨hv, next, hs⟩
  · rintro ⟨hv, next, hs⟩
    rw [resolve_eq_ok.mpr ⟨hv, hs, rfl, rfl⟩]
    rfl

/-- What a handle resolves to, by the generation and the content of its slot alone. -/
theorem nodeFor_eq : s.nodeFor handle =
    if handle.isValid = false then .error .invalidHandle
    else
      match s.slotAt handle.slot with
      | none => .error .invalidHandle
      | some (g, o) =>
        if g ≠ handle.generation then .error .staleHandle
        else
          match o with
          | none => .error .staleHandle
          | some node => .ok node := by
  rw [nodeFor, resolve, slotAt]
  by_cases hv : handle.isValid = false
  · rw [if_pos hv, if_pos hv]
    rfl
  rw [if_neg hv, if_neg hv]
  cases s.slots[handle.slot.toNat]? with
  | none => rfl
  | some x =>
    obtain ⟨g, o, next⟩ := x
    dsimp only [Option.map_some]
    by_cases hg : g ≠ handle.generation
    · rw [if_pos hg, if_pos hg]
      rfl
    · rw [if_neg hg, if_neg hg]
      cases o <;> rfl

/-- Under a nonzero generation every occupied slot is named by a handle. -/
theorem Wf.nodeFor_eq_ok (h : s.Wf) :
    s.nodeFor handle = .ok node ↔ s.slotAt handle.slot = some (handle.generation, some node) := by
  rw [CapabilitySpace.nodeFor_eq_ok, and_iff_right_iff_imp]
  exact fun hs ↦ Handle.isValid_of_generation_ne_zero (h.generation_ne_zero _ _ _ hs)

/-! ## The free list -/

/-- The link of a slot, if it is empty. -/
def linkOf (x : CapabilitySlot) : Option (Option UInt32) :=
  match x with
  | ⟨_, none, next⟩ => some next
  | _ => none

theorem freeLink_eq_linkAt : s.freeLink = linkAt linkOf s.slots := by
  funext i
  rw [freeLink, linkAt]
  cases s.slots[i.toNat]? with
  | none => rfl
  | some x =>
    obtain ⟨g, o, next⟩ := x
    cases o <;> rfl

theorem freeList_iff : FreeList linkOf s.slots s.freeHead ↔
    ∃ l, Threads s.freeLink s.freeHead l ∧ ∀ i, i ∈ l ↔ ∃ next, s.freeLink i = some next := by
  rw [freeLink_eq_linkAt, FreeList]

@[simp] theorem linkOf_some : linkOf ⟨g, some node, next⟩ = none := rfl

@[simp] theorem linkOf_none : linkOf ⟨g, none, next⟩ = some next := rfl

theorem linkOf_eq_some {x : CapabilitySlot} (h : linkOf x = some next) :
    ∃ g, x = ⟨g, none, next⟩ := by
  obtain ⟨g, o, next'⟩ := x
  cases o with
  | none => exact ⟨g, by simpa using h⟩
  | some m => simp at h

/-- Where nothing is left to take, every slot the space may have is occupied. -/
theorem Wf.occupied_eq_capacity (h : s.Wf) (hfull : s.hasCapacity = false) :
    s.occupied = s.capacity := by
  obtain ⟨hhead, hlen⟩ : s.freeHead = none ∧ s.capacity ≤ s.slots.length := by
    simpa [hasCapacity] using hfull
  have hfree := freeList_iff.mpr h.free
  rw [hhead] at hfree
  have hlt : s.slots.length < 2 ^ 32 := Nat.lt_of_le_of_lt h.length_le h.capacity_lt
  rw [occupied, List.countP_eq_length.mpr, Nat.le_antisymm h.length_le hlen]
  intro x hx
  have hlink := hfree.link_eq_none hlt hx
  obtain ⟨g, o, next⟩ := x
  cases o with
  | none => simp at hlink
  | some m => rfl

/-! ## Writing a slot -/

section SetSlot

variable {x y : CapabilitySlot}

theorem slotAt_setSlot (hx : s.slots[i.toNat]? = some x) (head : Option UInt32) :
    ({ s.setSlot i y with freeHead := head } : CapabilitySpace).slotAt
      = update s.slotAt i (some (y.generation, y.node)) := by
  funext k
  change ((s.slots.set i.toNat y)[k.toNat]?).map _ = _
  rw [getElem?_set_word hx]
  by_cases hk : k = i
  · rw [if_pos hk, hk, update_self]
    rfl
  · rw [if_neg hk, update_of_ne hk]
    rfl

theorem generation_ne_zero_update {g₀ : UInt32} {o₀ : Option NodeId}
    (h : ∀ i g o, s.slotAt i = some (g, o) → g ≠ 0) (hg₀ : g₀ ≠ 0)
    (hs' : s'.slotAt = update s.slotAt i (some (g₀, o₀))) (k : UInt32) (g : UInt32)
    (o : Option NodeId) (hk : s'.slotAt k = some (g, o)) : g ≠ 0 := by
  rw [hs'] at hk
  by_cases hki : k = i
  · subst hki
    obtain ⟨rfl, -⟩ : g₀ = g ∧ o₀ = o := by simpa using hk
    exact hg₀
  · rw [update_of_ne hki] at hk
    exact h k g o hk

end SetSlot

/-! ## Inserting and removing -/

/-- `s'` is `s` with `node` put into the slot that `handle` names. -/
structure Inserted (s : CapabilitySpace) (node : NodeId) (handle : Handle) (s' : CapabilitySpace) :
    Prop where
  empty : (s.slotAt handle.slot = none ∧ handle.generation = 1)
    ∨ s.slotAt handle.slot = some (handle.generation, none)
  slotAt : s'.slotAt
    = update s.slotAt handle.slot (some (handle.generation, some node))
  holders : ∀ m, s'.holders m = s.holders m + if m = node then 1 else 0
  occupied : s'.occupied = s.occupied + 1
  domain : s'.domain = s.domain

/-- `s'` is `s` with `node` taken out of the slot that `handle` names. -/
structure Removed (s : CapabilitySpace) (handle : Handle) (node : NodeId) (s' : CapabilitySpace) :
    Prop where
  full : s.slotAt handle.slot = some (handle.generation, some node)
  slotAt : s'.slotAt
    = update s.slotAt handle.slot (some (nextGeneration handle.generation, none))
  holders : ∀ m, s'.holders m + (if m = node then 1 else 0) = s.holders m
  occupied : s'.occupied + 1 = s.occupied
  domain : s'.domain = s.domain

section SetCounts

variable {x y : CapabilitySlot}

theorem holders_setSlot (hx : s.slots[i.toNat]? = some x) {a b : Option NodeId} (ha : x.node = a)
    (hb : y.node = b) (head : Option UInt32) (m : NodeId) :
    ({ s.setSlot i y with freeHead := head } : CapabilitySpace).holders m
        + (if a = some m then 1 else 0)
      = s.holders m + if b = some m then 1 else 0 := by
  subst ha hb
  simpa [holders, setSlot] using
    countP_set_add (fun z : CapabilitySlot ↦ decide (z.node = some m)) hx (a := y)

theorem occupied_setSlot (hx : s.slots[i.toNat]? = some x) (head : Option UInt32) :
    ({ s.setSlot i y with freeHead := head } : CapabilitySpace).occupied
        + (if x.node.isSome then 1 else 0)
      = s.occupied + if y.node.isSome then 1 else 0 :=
  countP_set_add (fun z : CapabilitySlot ↦ z.node.isSome) hx

end SetCounts

private theorem insert_free (h : s.Wf) (hhead : s.freeHead = some i) (node : NodeId) :
    ∃ handle s', s.insert node = .ok (handle, s') ∧ s'.Wf ∧ Inserted s node handle s' := by
  have hfree := freeList_iff.mpr h.free
  rw [hhead] at hfree
  obtain ⟨x, next, hx, hlink⟩ := hfree.exists_head
  obtain ⟨g, rfl⟩ := linkOf_eq_some hlink
  have hslot : s.slotAt i = some (g, none) := slotAt_eq_some.mpr ⟨next, hx⟩
  have hslotAt := slotAt_setSlot (y := ⟨g, some node, none⟩) hx next
  refine ⟨Handle.fromParts i g, { s.setSlot i ⟨g, some node, none⟩ with freeHead := next }, ?_,
    ⟨h.capacity_lt, ?_, freeList_iff.mp (hfree.take hx hlink rfl),
      generation_ne_zero_update h.generation_ne_zero (h.generation_ne_zero _ _ _ hslot) hslotAt⟩,
    ⟨?_, ?_, fun m ↦ ?_, ?_, rfl⟩⟩
  · simp [insert, hhead, hx]
  · simpa [setSlot] using h.length_le
  · right
    simpa using hslot
  · rw [hslotAt]
    simp
  · have := holders_setSlot (y := ⟨g, some node, none⟩) hx rfl rfl next m
    simpa [eq_comm] using this
  · have := occupied_setSlot (y := ⟨g, some node, none⟩) hx next
    simpa using this

private theorem insert_push (h : s.Wf) (hhead : s.freeHead = none)
    (hlen : s.slots.length ≠ s.capacity) (node : NodeId) :
    ∃ handle s', s.insert node = .ok (handle, s') ∧ s'.Wf ∧ Inserted s node handle s' := by
  have hlt : s.slots.length < 2 ^ 32 := Nat.lt_of_le_of_lt h.length_le h.capacity_lt
  set s' : CapabilitySpace := { s with slots := s.slots ++ [⟨1, some node, none⟩] } with hs'
  have hslotAt : s'.slotAt
      = update s.slotAt (UInt32.ofNat s.slots.length) (some (1, some node)) := by
    funext k
    rw [CapabilitySpace.slotAt, hs', getElem?_append_word hlt]
    by_cases hk : k = UInt32.ofNat s.slots.length
    · rw [if_pos hk, hk, update_self]
      rfl
    · rw [if_neg hk, update_of_ne hk]
      rfl
  refine ⟨Handle.fromParts (UInt32.ofNat s.slots.length) 1, s', ?_,
    ⟨h.capacity_lt, ?_, freeList_iff.mp ((freeList_iff.mpr h.free).append hlt rfl),
      generation_ne_zero_update h.generation_ne_zero (by decide) hslotAt⟩,
    ⟨?_, ?_, fun m ↦ ?_, ?_, rfl⟩⟩
  · simp [insert, hhead, hlen, hs']
  · have := h.length_le
    simp only [hs', List.length_append, List.length_singleton]
    omega
  · left
    rw [Handle.slot_fromParts, Handle.generation_fromParts, CapabilitySpace.slotAt,
      getElem?_length_word hlt]
    exact ⟨rfl, rfl⟩
  · rw [hslotAt]
    simp
  · simp [holders, hs', List.countP_append, eq_comm]
  · simp [occupied, hs', List.countP_append]

theorem Wf.insert (h : s.Wf) (hcap : s.hasCapacity = true) (node : NodeId) :
    ∃ handle s', s.insert node = .ok (handle, s') ∧ s'.Wf ∧ Inserted s node handle s' := by
  cases hhead : s.freeHead with
  | some i => exact insert_free h hhead node
  | none =>
    refine insert_push h hhead (Nat.ne_of_lt ?_) node
    simpa [hasCapacity, hhead] using hcap

theorem Wf.remove (h : s.Wf) (hok : s.remove handle = .ok (node, s')) :
    s'.Wf ∧ Removed s handle node s' := by
  rw [CapabilitySpace.remove] at hok
  cases hr : s.resolve handle with
  | error e => simp [hr] at hok
  | ok r =>
    obtain ⟨⟨g, o, next⟩, m⟩ := r
    obtain ⟨-, hx, hg, ho⟩ := resolve_eq_ok.mp hr
    simp only [hr, Except.ok.injEq, Prod.mk.injEq] at hok
    obtain ⟨rfl, rfl⟩ := hok
    obtain rfl : g = handle.generation := hg
    obtain rfl : o = some m := ho
    set y : CapabilitySlot := ⟨nextGeneration handle.generation, none, s.freeHead⟩ with hy
    have hslotAt := slotAt_setSlot (y := y) hx (some handle.slot)
    refine ⟨⟨h.capacity_lt, ?_,
        freeList_iff.mp ((freeList_iff.mpr h.free).give hx rfl rfl),
        generation_ne_zero_update h.generation_ne_zero (nextGeneration_ne_zero _) hslotAt⟩,
      ⟨slotAt_eq_some.mpr ⟨next, hx⟩, hslotAt, fun k ↦ ?_, ?_, rfl⟩⟩
    · simpa [setSlot] using h.length_le
    · have := holders_setSlot (y := y) hx rfl rfl (some handle.slot) k
      simpa [hy, eq_comm] using this
    · have := occupied_setSlot (y := y) hx (some handle.slot)
      simpa [hy] using this

end CapabilitySpace

end Gaxera

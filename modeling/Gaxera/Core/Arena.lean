import Gaxera.Core.Object
import Gaxera.Data.Census

/-!
# What the arena hands out and takes back

The arena is read as a partial function from identities to types and owners, `live`, and as a
count of the live objects of each domain, `owned`. A creation fails without a trace, or takes a slot
from the free list or from the end of the table; a destruction fails without a trace, or takes one
identity out, and moves the usage of the domain and its count by the same one.

Nothing is asked of the free list. A creation that finds its head spoilt fails, and gives the
charge back.
-/

namespace Gaxera

/-- The domain a slot is charged to. -/
def ObjectSlot.owner (s : ObjectSlot) : Option ResourceDomainId :=
  match s.state with
  | .live _ owner => some owner
  | .free _ => none

namespace ObjectArena

variable {a a' : ObjectArena} {d : ResourceDomain} {t : ObjectType} {id : ObjectId}

/-- Every index of the table is a word. -/
structure Wf (a : ObjectArena) : Prop where
  length_le : a.slots.length ≤ a.capacity
  capacity_lt : a.capacity < 2 ^ 32

/-- The number of live objects of a domain. -/
def owned (a : ObjectArena) (domain : ResourceDomainId) : ℕ :=
  a.slots.countP fun s ↦ s.owner = some domain

theorem live_eq_some {owner : ResourceDomainId} : a.live id = some (t, owner) ↔
    a.slots[id.index.toNat]? = some ⟨id.generation, .live t owner⟩ := by
  rw [live]
  cases hs : a.slots[id.index.toNat]? with
  | none => simp
  | some s =>
    obtain ⟨g, state⟩ := s
    cases state with
    | free next => simp
    | live t' owner' =>
      by_cases hg : g = id.generation
      · simp [hg]
      · simp [hg]

/-- What `live` says of an identity depends on the slot of its index alone. -/
theorem live_congr (h : a'.slots[id.index.toNat]? = a.slots[id.index.toNat]?) :
    a'.live id = a.live id := by
  rw [live, live, h]

theorem live_eq_none_of_free {g : UInt32} {next : Option UInt32}
    (h : a.slots[id.index.toNat]? = some ⟨g, .free next⟩) : a.live id = none := by
  rw [live, h]

/-! ## Creating -/

theorem uncharge_setObjects : uncharge (d.setObjects (d.usage.objects + 1)) = d := by
  simp [uncharge, ResourceDomain.releaseObject, ResourceDomain.setObjects]

/-- How a creation ends: without a trace, or with a slot from the free list or from the end of the
table. -/
inductive CreateStep (a : ObjectArena) (d : ResourceDomain) (t : ObjectType) :
    Except ObjectError ObjectId × ObjectArena × ResourceDomain → Prop
  | failed {e : ObjectError}
      (full : e = .arenaFull → a.freeHead = none ∧ a.slots.length = a.capacity) :
      CreateStep a d t (.error e, a, d)
  | reused {i g : UInt32} {next : Option UInt32} (head : a.freeHead = some i)
      (slot : a.slots[i.toNat]? = some ⟨g, .free next⟩) :
      CreateStep a d t (.ok ⟨i, g⟩,
        { a.setSlot i ⟨g, .live t d.id⟩ with freeHead := next },
        d.setObjects (d.usage.objects + 1))
  | appended (head : a.freeHead = none) (room : a.slots.length < a.capacity) :
      CreateStep a d t (.ok ⟨UInt32.ofNat a.slots.length, 1⟩,
        { a with slots := a.slots ++ [⟨1, .live t d.id⟩], freeHead := none },
        d.setObjects (d.usage.objects + 1))

private theorem createInternalImpl_step (h : a.Wf) (d : ResourceDomain) (t : ObjectType) :
    CreateStep a d t (a.createInternalImpl d t) := by
  rw [createInternalImpl]
  by_cases hfull : a.freeHead = none ∧ a.slots.length = a.capacity
  · rw [if_pos hfull]
    exact .failed fun _ ↦ hfull
  rw [if_neg hfull]
  cases hcharge : d.chargeObject with
  | error e => exact .failed nofun
  | ok d' =>
    obtain ⟨-, rfl⟩ := ResourceDomain.chargeObject_eq_ok.mp hcharge
    dsimp only
    cases hhead : a.freeHead with
    | none => exact .appended hhead (lt_of_le_of_ne h.length_le fun hc ↦ hfull ⟨hhead, hc⟩)
    | some i =>
      dsimp only
      cases hs : a.slots[i.toNat]? with
      | none =>
        rw [uncharge_setObjects]
        exact .failed nofun
      | some s =>
        obtain ⟨g, state⟩ := s
        cases state with
        | live t' owner =>
          dsimp only
          rw [uncharge_setObjects]
          exact .failed nofun
        | free next => exact .reused hhead hs

theorem Wf.create_step (h : a.Wf) (d : ResourceDomain) (f : Factory) (t : ObjectType) :
    CreateStep a d t (a.create d f t) := by
  rw [ObjectArena.create]
  by_cases hdom : f.domain ≠ d.id
  · rw [if_pos hdom]
    exact .failed nofun
  rw [if_neg hdom]
  by_cases hallows : f.allows t = false
  · rw [if_pos hallows]
    exact .failed nofun
  rw [if_neg hallows]
  exact createInternalImpl_step h d t

/-! ## Destroying -/

/-- `a'` is `a` without one of its live objects. -/
structure Destroyed (a : ObjectArena) (d : ResourceDomain) (id : ObjectId) (a' : ObjectArena) :
    Prop where
  owner : ∃ t, a.live id = some (t, d.id)
  live : ∀ j, a'.live j = if j = id then none else a.live j
  owned : ∀ o, a'.owned o + (if o = d.id then 1 else 0) = a.owned o
  capacity : a'.capacity = a.capacity

private theorem destroyed_of_slot
    (hs : a.slots[id.index.toNat]? = some ⟨id.generation, .live t d.id⟩)
    (g : UInt32) :
    Destroyed a d id
      { a.setSlot id.index ⟨g, .free a.freeHead⟩ with freeHead := some id.index } := by
  have hlt := (List.getElem?_eq_some_iff.mp hs).1
  refine ⟨⟨t, live_eq_some.mpr hs⟩, fun j ↦ ?_, fun o ↦ ?_, rfl⟩
  · by_cases hi : j.index = id.index
    · -- The slot is free now, and before it was live under one generation only.
      have hslot : (a.slots.set id.index.toNat ⟨g, .free a.freeHead⟩)[j.index.toNat]?
          = some ⟨g, .free a.freeHead⟩ := by
        rw [hi]
        exact List.getElem?_set_self hlt
      rw [live_eq_none_of_free hslot]
      by_cases hj : j = id
      · rw [if_pos hj]
      · rw [if_neg hj, ObjectArena.live, hi, hs]
        exact (if_neg fun hg ↦ hj (ObjectId.ext hi hg.symm)).symm
    · rw [if_neg fun hj ↦ hi (congrArg ObjectId.index hj)]
      exact live_congr (List.getElem?_set_ne fun hc ↦ hi (UInt32.toNat_inj.mp hc).symm)
  · have := countP_set_add (fun s : ObjectSlot ↦ s.owner = some o)
      (a := ⟨g, .free a.freeHead⟩) hs
    simpa [ObjectArena.owned, setSlot, ObjectSlot.owner, eq_comm] using this

/-- How a destruction ends. -/
inductive DestroyStep (a : ObjectArena) (d : ResourceDomain) (id : ObjectId) :
    Except ObjectError Unit × ObjectArena × ResourceDomain → Prop
  | failed {e : ObjectError}
      (refused : ¬ ((∃ t, a.live id = some (t, d.id)) ∧ d.usage.objects ≠ 0)) :
      DestroyStep a d id (.error e, a, d)
  | freed {t : ObjectType} (slot : a.slots[id.index.toNat]? = some ⟨id.generation, .live t d.id⟩)
      (charged : d.usage.objects ≠ 0) :
      DestroyStep a d id (.ok (),
        { a.setSlot id.index ⟨nextGeneration id.generation, .free a.freeHead⟩ with
          freeHead := some id.index },
        d.setObjects (d.usage.objects - 1))

theorem destroy_step (a : ObjectArena) (d : ResourceDomain) (id : ObjectId) :
    DestroyStep a d id (a.destroy d id) := by
  rw [ObjectArena.destroy]
  cases hs : a.slots[id.index.toNat]? with
  | none => exact .failed (by simp [live, hs])
  | some s =>
    obtain ⟨g, state⟩ := s
    cases state with
    | free next => exact .failed (by simp [live, hs])
    | live t owner =>
      dsimp only
      by_cases hg : g ≠ id.generation
      · rw [if_pos hg]
        exact .failed (by simp [live, hs, hg])
      rw [if_neg hg]
      obtain rfl : g = id.generation := not_not.mp hg
      by_cases hown : owner ≠ d.id
      · rw [if_pos hown]
        exact .failed (by simp [live, hs, hown])
      rw [if_neg hown]
      obtain rfl : owner = d.id := not_not.mp hown
      cases hrel : d.releaseObject with
      | error e =>
        refine .failed fun hc ↦ ?_
        rw [ResourceDomain.releaseObject_eq_ok.mpr ⟨hc.2, rfl⟩] at hrel
        cases hrel
      | ok d' =>
        obtain ⟨husage, rfl⟩ := ResourceDomain.releaseObject_eq_ok.mp hrel
        exact .freed hs husage

/-- **Destroying an object** fails without a trace, or takes one identity out; it goes on exactly
where the object is live, of the domain, and charged for. -/
theorem Wf.destroy (h : a.Wf) (d : ResourceDomain) (id : ObjectId) :
    (∃ e, a.destroy d id = (.error e, a, d)
        ∧ ¬ ((∃ t, a.live id = some (t, d.id)) ∧ d.usage.objects ≠ 0))
      ∨ ∃ a', a.destroy d id = (.ok (), a', d.setObjects (d.usage.objects - 1))
        ∧ d.usage.objects ≠ 0 ∧ Destroyed a d id a' ∧ a'.Wf := by
  generalize hr : a.destroy d id = r
  have hstep : DestroyStep a d id r := hr ▸ destroy_step a d id
  cases hstep with
  | failed refused => exact .inl ⟨_, rfl, refused⟩
  | freed slot charged =>
    refine .inr ⟨_, rfl, charged, destroyed_of_slot slot _, ?_, h.capacity_lt⟩
    simpa [setSlot] using h.length_le

end ObjectArena

end Gaxera

import Gaxera.Kernel.Delegate
import Gaxera.Kernel.PageRuns

/-!
# What the steps of a call do to the kernel state

One lemma for each step that more than one system call is made of: destroying an object at the
expense of a registered domain, dropping a reference to a memory object, and retiring a mapping.
Each says that the step fails and leaves everything a reader of the state can see as it was, or goes
on, and which parts of the state are then written.

Writing an unchanged domain back gives a registry that answers as before without being the same
map, so a step that fails is described by what `get` returns, and never by an equation between
kernels.
-/

namespace Gaxera

namespace Kernel

variable {k : Kernel} {d : ObjectId} {id : ObjectId} {t : ObjectType}

/-- The kernel with another registry of domains. -/
def withDomains (k : Kernel) (domains : Registry ResourceDomain) : Kernel :=
  { k with caps := { k.caps with domains := domains } }

/-- The kernel with another registry of domains and another arena. -/
def withArena (k : Kernel) (domains : Registry ResourceDomain) (arena : ObjectArena) : Kernel :=
  { k.withDomains domains with arena := arena }

/-- The entry of a page, in a registered address space. -/
def page (k : Kernel) (aspace : ObjectId) (page : ℕ) : Option PageEntry :=
  (k.addressSpaces.get aspace).bind fun s ↦ s.tables.pages page

/-- What holds in every state of the kernel: the capability state and the arena are well formed,
and what is registered under an identity is a live object of its type. -/
structure Wf (k : Kernel) : Prop where
  caps : k.caps.Wf
  arena : k.arena.Wf
  mappings : ∀ id m, k.mappings.get id = some m → k.arena.objectType id = some .mapping
  memoryObjects : ∀ id m, k.memoryObjects.get id = some m →
    k.arena.objectType id = some .memoryObject
  contiguousFrames : ∀ id f, k.contiguousFrames.get id = some f →
    k.arena.objectType id = some .contiguousFrame

/-! ## Destroying -/

/-- **Destroying an object** goes on where the object is live, of the domain, and charged for. -/
theorem destroyObject_spec (h : k.arena.Wf) (d id : ObjectId) :
    (∃ e domains, k.destroyObject d id = (.error e, k.withDomains domains)
        ∧ (∀ j, domains.get j = k.domain j)
        ∧ ∀ dom, k.domain d = some dom →
          ¬ ((∃ t, k.arena.live id = some (t, dom.id)) ∧ dom.usage.objects ≠ 0))
      ∨ ∃ dom arena domains, k.domain d = some dom
        ∧ k.destroyObject d id = (.ok (), k.withArena domains arena)
        ∧ dom.usage.objects ≠ 0
        ∧ (∀ j, domains.get j
          = if j = d then some (dom.setObjects (dom.usage.objects - 1)) else k.domain j)
        ∧ k.arena.Destroyed dom id arena ∧ arena.Wf := by
  rw [destroyObject]
  cases hdom : k.domain d with
  | none => exact .inl ⟨_, k.caps.domains, rfl, fun _ ↦ rfl, by simp⟩
  | some dom =>
    dsimp only
    rcases h.destroy dom id with ⟨e, heq, hnot⟩ | ⟨arena, heq, husage, hdestroyed, hwf⟩
    · rw [heq]
      refine .inl ⟨e, _, rfl, CapState.get_modify_self hdom, fun dom' hdom' ↦ ?_⟩
      obtain rfl : dom = dom' := by simpa using hdom'
      exact hnot
    · rw [heq]
      exact .inr ⟨dom, arena, _, rfl, rfl, husage, CapState.get_modify_const hdom, hdestroyed,
        hwf⟩

/-- What an attempt to destroy `id` leaves: everything as it was, or the object gone and its
domain one object better off. -/
structure Destroys (k : Kernel) (id : ObjectId) (domains : Registry ResourceDomain)
    (arena : ObjectArena) : Prop where
  wf : arena.Wf
  cases : (arena = k.arena ∧ ∀ j, domains.get j = k.domain j)
    ∨ ∃ d dom, k.domain d = some dom ∧ dom.usage.objects ≠ 0 ∧ k.arena.Destroyed dom id arena
      ∧ ∀ j, domains.get j
        = if j = d then some (dom.setObjects (dom.usage.objects - 1)) else k.domain j

theorem destroyObject_effect (h : k.arena.Wf) (d id : ObjectId) :
    ∃ domains arena, (k.destroyObject d id).2 = k.withArena domains arena
      ∧ k.Destroys id domains arena := by
  rcases destroyObject_spec h d id with
    ⟨e, domains, heq, hget, -⟩ | ⟨dom, arena, domains, hdom, heq, husage, hget, hdes, hwf⟩
  · exact ⟨domains, k.arena, by rw [heq]; rfl, h, .inl ⟨rfl, hget⟩⟩
  · exact ⟨domains, arena, by rw [heq], hwf, .inr ⟨d, dom, hdom, husage, hdes, hget⟩⟩

theorem destroyOwned_effect (h : k.arena.Wf) (id : ObjectId) :
    ∃ domains arena, k.destroyOwned id = k.withArena domains arena
      ∧ k.Destroys id domains arena := by
  rw [destroyOwned]
  cases k.arena.owner id with
  | none => exact ⟨k.caps.domains, k.arena, rfl, h, .inl ⟨rfl, fun _ ↦ rfl⟩⟩
  | some owner => exact destroyObject_effect h owner.objectId id

namespace Destroys

variable {domains : Registry ResourceDomain} {arena : ObjectArena}

theorem live_of_ne (h : k.Destroys id domains arena) {j : ObjectId} (hj : j ≠ id) :
    arena.live j = k.arena.live j := by
  rcases h.cases with ⟨rfl, -⟩ | ⟨d, dom, -, -, hdes, -⟩
  · rfl
  · rw [hdes.live, if_neg hj]

theorem objectType_of_ne (h : k.Destroys id domains arena) {j : ObjectId} (hj : j ≠ id) :
    arena.objectType j = k.arena.objectType j := by
  rw [ObjectArena.objectType, ObjectArena.objectType, h.live_of_ne hj]

end Destroys

/-! ## References to memory objects -/

/-- The three ways to give a reference back, as one statement: the flag tells whether the counts
add up to nothing. -/
def Honest (dec : MemoryObject → Except MemoryError (Bool × MemoryObject)) : Prop :=
  ∀ m b m', dec m = .ok (b, m') → b = m'.canDestroy ∧ m'.frames = m.frames
    ∧ m'.sizeBytes = m.sizeBytes ∧ m'.chargingDomain = m.chargingDomain

theorem honest_decMappingRef : Honest MemoryObject.decMappingRef := by
  intro m b m' h
  obtain ⟨-, rfl, rfl⟩ := MemoryObject.decRef_eq_ok.mp h
  exact ⟨rfl, rfl, rfl, rfl⟩

/-- What giving back a reference to a memory object does. -/
inductive DropEffect (k : Kernel) (id : ObjectId)
    (dec : MemoryObject → Except MemoryError (Bool × MemoryObject)) : Kernel → Prop
  /-- There is no such object, or it has no such reference. -/
  | absent (absent : ∀ m, k.memoryObjects.get id = some m → ∃ e, dec m = .error e) :
      DropEffect k id dec k
  /-- Other references are left. -/
  | kept {m m' : MemoryObject} (get : k.memoryObjects.get id = some m)
      (dec_eq : dec m = .ok (false, m')) :
      DropEffect k id dec { k with memoryObjects := k.memoryObjects.modify id fun _ ↦ m' }
  /-- The object goes: its frames, its bytes, and its identity, for which its domain is refunded
  twice. -/
  | reclaimed {m m' : MemoryObject} {objects : Registry MemoryObject}
      {domains domains' : Registry ResourceDomain} {arena : ObjectArena}
      (get : k.memoryObjects.get id = some m) (dec_eq : dec m = .ok (true, m'))
      (objects_get : ∀ j, objects.get j = if j = id then none else k.memoryObjects.get j)
      (refunds : ∀ j, domains.get j = if j = m.chargingDomain.objectId
        then (k.domain j).map (refunded m.sizeBytes) else k.domain j)
      (destroys : (k.withDomains domains).Destroys id domains' arena) :
      DropEffect k id dec
        { k.withArena domains' arena with
          memoryObjects := objects
          physical := k.physical.deallocateFrames m.frames }

/-- **Giving back a reference** to a memory object. -/
theorem dropMemoryRef_effect (h : k.arena.Wf) (id : ObjectId)
    {dec : MemoryObject → Except MemoryError (Bool × MemoryObject)} (hdec : Honest dec) :
    DropEffect k id dec (k.dropMemoryRef id dec) := by
  rw [dropMemoryRef, dropRef]
  cases hm : k.memoryObjects.get id with
  | none => exact .absent fun m hm' ↦ nomatch hm.symm.trans hm'
  | some m =>
    dsimp only
    cases hd : dec m with
    | error e =>
      refine .absent fun m' hm' ↦ ⟨e, ?_⟩
      obtain rfl : m = m' := Option.some_inj.mp (hm.symm.trans hm')
      exact hd
    | ok r =>
      obtain ⟨last, m'⟩ := r
      cases last with
      | false => exact .kept hm hd
      | true =>
        obtain ⟨hcan, hframes, hsize, hcharging⟩ := hdec m true m' hd
        have hget : (k.memoryObjects.modify id fun _ ↦ m').get id = some m' := by
          rw [CapState.get_modify_const hm, if_pos rfl]
        dsimp only
        rw [reclaimMemoryObjectIfZeroRefs, hget]
        dsimp only
        rw [if_neg (by simp [← hcan]), hframes, hsize, hcharging]
        set objects := (k.memoryObjects.modify id fun _ ↦ m').remove id with hobjects
        obtain ⟨domains', arena, heq, hdes⟩ := destroyObject_effect
          (k := ({ k with
            memoryObjects := objects
            physical := k.physical.deallocateFrames m.frames } : Kernel).updateDomain
              m.chargingDomain.objectId (refunded m.sizeBytes)) h m.chargingDomain.objectId id
        rw [heq]
        have hdes' : (k.withDomains (k.caps.domains.modify m.chargingDomain.objectId
            (refunded m.sizeBytes))).Destroys id domains' arena := ⟨hdes.wf, hdes.cases⟩
        change DropEffect k id dec
          { k.withArena domains' arena with
            memoryObjects := objects
            physical := k.physical.deallocateFrames m.frames }
        refine .reclaimed hm hd (fun j ↦ ?_) (fun j ↦ ?_) hdes'
        · rw [hobjects, Registry.get_remove, CapState.get_modify_const hm]
          by_cases hj : j = id
          · rw [if_pos hj, if_pos hj]
          · rw [if_neg hj, if_neg hj, if_neg hj]
        · rw [Registry.get_modify]
          by_cases hj : j = m.chargingDomain.objectId
          · rw [if_pos hj, if_pos hj, hj]
            rfl
          · rw [if_neg hj, if_neg hj]
            rfl

/-! ## Retiring a mapping -/

/-- The address spaces once the pages of a mapping are unmapped. -/
def withoutPages (mapper : Mapper) (k : Kernel) (m : Mapping) : Registry AddressSpace :=
  (k.unmapRange mapper m.targetAddressSpace m.virtualAddress (m.size / pageSize)).2.addressSpaces

theorem unmapRange_kernel (mapper : Mapper) (aspace : ObjectId) (virtualAddress pageCount : ℕ) :
    (k.unmapRange mapper aspace virtualAddress pageCount).2 =
      { k with
        addressSpaces :=
          (k.unmapRange mapper aspace virtualAddress pageCount).2.addressSpaces } := by
  rw [unmapRange]
  cases k.addressSpaces.get aspace <;> rfl

/-- **Retiring a mapping** takes its pages, its entry and its object. -/
theorem retireMapping_effect (mapper : Mapper) (h : k.arena.Wf) (id : ObjectId) (m : Mapping) :
    ∃ domains arena,
      k.retireMapping mapper id m =
        { k.withArena domains arena with
          addressSpaces := k.withoutPages mapper m
          mappings := k.mappings.remove id }
      ∧ k.Destroys id domains arena := by
  rw [retireMapping, unmapRange_kernel]
  obtain ⟨domains, arena, heq, hdes⟩ := destroyOwned_effect
    (k := { k with
      addressSpaces := k.withoutPages mapper m, mappings := k.mappings.remove id }) h id
  exact ⟨domains, arena, heq, hdes.wf, hdes.cases⟩

end Kernel

end Gaxera

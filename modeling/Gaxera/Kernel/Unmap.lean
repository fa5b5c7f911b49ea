import Gaxera.Kernel.Registered

/-!
# Unmapping, whole or not at all

`UnmapMemory` closes the mapping before it looks at the address space and the pages, and does not
open it again when it fails there: such a mapping can never be unmapped by this call any more. When
it gets through, it destroys the object at the expense of the domain of the caller, and the arena
refuses where another domain was charged; the answer is thrown away, and the identity and the charge
stay behind. The deletion of the last handle, which does the same to a mapping, asks the arena who
was charged.
-/

namespace Gaxera

open Registry

/-- The object whose mappings are counted. -/
def MappingBacking.object : MappingBacking → Option ObjectId
  | .memoryObject objectId _ | .contiguousFrame objectId _ _ _ => some objectId
  | .physicalRange _ _ => none

/-- The pages of the range. -/
def Mapping.pages (m : Mapping) : List ℕ :=
  (List.range (m.size / pageSize)).map (pageAt m.virtualAddress)

theorem Mapping.mem_pages {m : Mapping} {v : ℕ} :
    v ∈ m.pages ↔ ∃ i < m.size / pageSize, pageAt m.virtualAddress i = v := by
  simp [pages]

namespace Kernel

/-! ## What the call is to do -/

/-- The backing object has one mapping less, and is gone if nothing refers to it any more. -/
def Lessened (k k' : Kernel) : MappingBacking → Prop
  | .memoryObject objectId _ => ∀ o, k.memoryObjects.get objectId = some o →
      o.mappingRefs ≠ 0 ∧ k'.memoryObjects.get objectId
        = if ({ o with mappingRefs := o.mappingRefs - 1 } : MemoryObject).canDestroy then none
          else some { o with mappingRefs := o.mappingRefs - 1 }
  | .contiguousFrame objectId _ _ _ => ∀ f, k.contiguousFrames.get objectId = some f →
      f.mappingCount ≠ 0 ∧ k'.contiguousFrames.get objectId
        = if ({ f with mappingCount := f.mappingCount - 1 } : ContiguousFrameObject).canDestroy
          then none else some { f with mappingCount := f.mappingCount - 1 }
  | .physicalRange _ _ => True

/-- The mapping is counted by its backing object. -/
def Counted (k : Kernel) : MappingBacking → Prop
  | .memoryObject objectId _ => ∀ o, k.memoryObjects.get objectId = some o → o.mappingRefs ≠ 0
  | .contiguousFrame objectId _ _ _ =>
    ∀ f, k.contiguousFrames.get objectId = some f → f.mappingCount ≠ 0
  | .physicalRange _ _ => True

/-- The mapping is gone: its pages, its entry, its object with the charge for it, and its place in
the count of its backing object. -/
structure Unmapped (k k' : Kernel) (id : ObjectId) (m : Mapping) : Prop where
  pages : ∀ v ∈ m.pages, k'.page m.targetAddressSpace v = none
  entry : k'.mappings.get id = none
  object : k'.arena.live id = none
  charge : ∀ t owner, k.arena.live id = some (t, owner) →
    ∃ dom dom', k.domain owner.objectId = some dom ∧ k'.domain owner.objectId = some dom'
      ∧ dom'.usage.objects + 1 ≤ dom.usage.objects
  backing : k.Lessened k' m.backing

/-- Nothing has happened, and the mapping can still be unmapped. -/
structure StillMapped (k k' : Kernel) (id : ObjectId) (m : Mapping) : Prop where
  pages : ∀ a v, k'.page a v = k.page a v
  entry : k'.mappings.get id = some m
  isOpen : m.closed = false
  memoryObjects : ∀ j, k'.memoryObjects.get j = k.memoryObjects.get j
  contiguousFrames : ∀ j, k'.contiguousFrames.get j = k.contiguousFrames.get j
  usage : ∀ j, (k'.domain j).map ResourceDomain.usage = (k.domain j).map ResourceDomain.usage

/-- **Exact and atomic.** -/
structure UnmapsAtomically (mapper : Mapper) (k : Kernel) (cspace : ObjectId) (handle : Handle)
    (id : ObjectId) (m : Mapping) : Prop where
  success : (k.unmapMemory mapper cspace handle).1 = .ok 0 →
    k.Unmapped (k.unmapMemory mapper cspace handle).2 id m
  failure : (k.unmapMemory mapper cspace handle).1 ≠ .ok 0 →
    k.StillMapped (k.unmapMemory mapper cspace handle).2 id m

/-! ## The address spaces -/

variable {mapper : Mapper} {k k' k'' : Kernel} {cspace id : ObjectId} {handle : Handle}
  {m : Mapping} {backing : MappingBacking} {object : Option ObjectId}

/-- The kernel with other tables in one address space. -/
def withTables (k : Kernel) (aspace : ObjectId) (tables : PageTables) : Kernel :=
  { k with addressSpaces := k.addressSpaces.modify aspace fun s ↦ { s with tables := tables } }

theorem page_withTables {aspace : ObjectId} {s : AddressSpace}
    (hs : k.addressSpaces.get aspace = some s) (tables : PageTables)
    (a : ObjectId) (v : ℕ) :
    (k.withTables aspace tables).page a v = if a = aspace then tables.pages v else k.page a v := by
  rw [page, withTables]
  dsimp only
  rw [get_modify, hs]
  by_cases ha : a = aspace
  · rw [if_pos ha, if_pos ha]
    rfl
  · rw [if_neg ha, if_neg ha]
    rfl

@[simp] theorem destroyObject_addressSpaces (k : Kernel) (d id : ObjectId) :
    (k.destroyObject d id).2.addressSpaces = k.addressSpaces := by
  rw [destroyObject]
  cases k.domain d <;> rfl

@[simp] theorem destroyObject_memoryObjects (k : Kernel) (d id : ObjectId) :
    (k.destroyObject d id).2.memoryObjects = k.memoryObjects := by
  rw [destroyObject]
  cases k.domain d <;> rfl

@[simp] theorem dropMemoryRef_addressSpaces (k : Kernel) (id : ObjectId)
    (dec : MemoryObject → Except MemoryError (Bool × MemoryObject)) :
    (k.dropMemoryRef id dec).addressSpaces = k.addressSpaces := by
  have hreclaim (k : Kernel) :
      (k.reclaimMemoryObjectIfZeroRefs id).addressSpaces = k.addressSpaces := by
    rw [reclaimMemoryObjectIfZeroRefs]
    split
    · rfl
    · split
      · rfl
      · exact destroyObject_addressSpaces _ _ _
  have hdrop : (k.dropRef id dec).2.addressSpaces = k.addressSpaces := by
    rw [dropRef]
    split
    · rfl
    · split <;> rfl
  rw [dropMemoryRef]
  rcases h : k.dropRef id dec with ⟨last, k'⟩
  rw [h] at hdrop
  cases last with
  | false => exact hdrop
  | true => exact (hreclaim k').trans hdrop

@[simp] theorem releaseBacking_addressSpaces (k : Kernel) (backing : MappingBacking) :
    (k.releaseBacking backing).addressSpaces = k.addressSpaces := by
  cases backing with
  | memoryObject objectId offset => exact dropMemoryRef_addressSpaces k objectId _
  | physicalRange => rfl
  | contiguousFrame objectId base offset policy =>
    have hremove : (k.removeFrameMapping objectId).2.addressSpaces = k.addressSpaces := by
      rw [removeFrameMapping]
      split
      · rfl
      · split <;> rfl
    have hreclaim (k : Kernel) : (k.reclaimContiguousFrameIfZeroRefs objectId).addressSpaces
        = k.addressSpaces := by
      rw [reclaimContiguousFrameIfZeroRefs]
      split
      · rfl
      · split
        · rfl
        · exact destroyObject_addressSpaces _ _ _
    rw [releaseBacking]
    rcases hr : k.removeFrameMapping objectId with ⟨last, k'⟩
    rw [hr] at hremove
    cases last with
    | false => exact hremove
    | true => exact (hreclaim k').trans hremove

theorem unmapLoop_ne_ok {pages : List ℕ} (t : PageTables) {v : ℕ} (hv : v ∈ pages)
    (hhigh : userAddressMax ≤ v) : (unmapLoop mapper t pages).1 ≠ .ok () := by
  induction pages generalizing t with
  | nil => cases hv
  | cons head rest ih =>
    rw [unmapLoop]
    by_cases hhead : userAddressMax ≤ head
    · rw [if_pos hhead]
      simp
    · rw [if_neg hhead]
      rcases List.mem_cons.mp hv with rfl | hrest
      · exact absurd hhigh hhead
      · exact ih _ hrest

/-! ## What else goes -/

/-- At most one object is destroyed, domains are refunded, and the mappings are left alone. -/
structure Forgoes (k : Kernel) (object : Option ObjectId) (k' : Kernel) : Prop where
  arena : k'.arena.Wf
  mappings : k'.mappings = k.mappings
  live : ∀ j, object ≠ some j → k'.arena.live j = k.arena.live j
  objects : ∀ j dom, k.domain j = some dom →
    ∃ dom', k'.domain j = some dom' ∧ dom'.usage.objects ≤ dom.usage.objects

namespace Forgoes

theorem refl (h : k.arena.Wf) (object : Option ObjectId) : k.Forgoes object k where
  arena := h
  mappings := rfl
  live _ _ := rfl
  objects _ dom hdom := ⟨dom, hdom, Nat.le_refl _⟩

theorem trans (h : k.Forgoes object k') (h' : k'.Forgoes object k'') : k.Forgoes object k'' where
  arena := h'.arena
  mappings := h'.mappings.trans h.mappings
  live j hj := (h'.live j hj).trans (h.live j hj)
  objects j dom hdom := by
    obtain ⟨dom', hdom', hle⟩ := h.objects j dom hdom
    obtain ⟨dom'', hdom'', hle'⟩ := h'.objects j dom' hdom'
    exact ⟨dom'', hdom'', hle'.trans hle⟩

end Forgoes

theorem destroyObject_forgoes (h : k.arena.Wf) (d id : ObjectId) :
    k.Forgoes (some id) (k.destroyObject d id).2 := by
  obtain ⟨domains, arena, heq, hdes⟩ := destroyObject_effect h d id
  rw [heq]
  refine ⟨hdes.wf, rfl, fun j hj ↦ hdes.live_of_ne fun hid ↦ hj (hid ▸ rfl), fun j dom hdom ↦ ?_⟩
  rcases hdes.cases with ⟨-, hget⟩ | ⟨e, dom₀, hdom₀, -, -, hget⟩
  · exact ⟨dom, (hget j).trans hdom, Nat.le_refl _⟩
  · have hj := hget j
    split_ifs at hj with he
    · subst he
      obtain rfl : dom₀ = dom := Option.mem_unique hdom₀ hdom
      exact ⟨_, hj, Nat.sub_le _ _⟩
    · exact ⟨dom, hj.trans hdom, Nat.le_refl _⟩

theorem objects_refunded_le (bytes : ℕ) (d : ResourceDomain) :
    (refunded bytes d).usage.objects ≤ d.usage.objects := by
  have huncharge : ∀ d : ResourceDomain,
      (ObjectArena.uncharge d).usage.objects ≤ d.usage.objects := by
    intro d
    rw [ObjectArena.uncharge]
    cases hd : d.releaseObject with
    | error => exact Nat.le_refl _
    | ok d' =>
      obtain ⟨-, rfl⟩ := ResourceDomain.releaseObject_eq_ok.mp hd
      exact Nat.sub_le _ _
  rw [refunded]
  refine (huncharge _).trans ?_
  cases hd : d.releaseMemory bytes with
  | error => exact Nat.le_refl _
  | ok d' =>
    obtain ⟨-, rfl⟩ := ResourceDomain.rollbackMemory_eq_ok.mp hd
    exact Nat.le_refl _

/-- An object is taken out of its registry, refunded and destroyed. -/
theorem retire_forgoes (h : k.arena.Wf) (hmappings : k'.mappings = k.mappings)
    (harena : k'.arena = k.arena) (hcaps : k'.caps = k.caps) (d : ObjectId) (bytes : ℕ) :
    k.Forgoes (some id) ((k'.updateDomain d (refunded bytes)).destroyObject d id).2 := by
  have hrefund : k.Forgoes (some id) (k'.updateDomain d (refunded bytes)) := by
    refine ⟨harena ▸ h, hmappings, fun j _ ↦ by rw [← harena]; rfl, fun j dom hdom ↦ ?_⟩
    change ∃ dom', (k'.caps.domains.modify d (refunded bytes)).get j = some dom' ∧ _
    rw [hcaps, get_modify]
    by_cases hj : j = d
    · rw [if_pos hj, ← hj, show k.caps.domains.get j = some dom from hdom]
      exact ⟨_, rfl, objects_refunded_le bytes dom⟩
    · rw [if_neg hj]
      exact ⟨dom, hdom, Nat.le_refl _⟩
  exact hrefund.trans (destroyObject_forgoes hrefund.arena d id)

theorem forgoes_of_same (h : k.arena.Wf) (hmappings : k'.mappings = k.mappings)
    (harena : k'.arena = k.arena) (hcaps : k'.caps = k.caps) (object : Option ObjectId) :
    k.Forgoes object k' where
  arena := harena ▸ h
  mappings := hmappings
  live _ _ := by rw [harena]
  objects j dom hdom := by
    refine ⟨dom, ?_, Nat.le_refl _⟩
    rw [domain, hcaps]
    exact hdom

/-- The count goes down just if there is one, whatever it is that is counted. -/
theorem counted_iff_lessened {β : Type} {old new : Option β} {count : β → ℕ} {less : β → β}
    {last : β → Bool} (h : ∀ o, old = some o → count o ≠ 0 →
      new = if last (less o) then none else some (less o)) :
    (∀ o, old = some o → count o ≠ 0) ↔
      ∀ o, old = some o → count o ≠ 0 ∧ new = if last (less o) then none else some (less o) :=
  ⟨fun hcounted o ho ↦ ⟨hcounted o ho, h o ho (hcounted o ho)⟩, fun hless o ho ↦ (hless o ho).1⟩

theorem dropMappingRef_spec (h : k.arena.Wf) (objectId : ObjectId) :
    k.Forgoes (some objectId) (k.dropMemoryRef objectId MemoryObject.decMappingRef)
    ∧ ∀ o, k.memoryObjects.get objectId = some o → o.mappingRefs ≠ 0 →
      (k.dropMemoryRef objectId MemoryObject.decMappingRef).memoryObjects.get objectId
        = if ({ o with mappingRefs := o.mappingRefs - 1 } : MemoryObject).canDestroy then none
          else some { o with mappingRefs := o.mappingRefs - 1 } := by
  rw [dropMemoryRef, dropRef]
  rcases ho : k.memoryObjects.get objectId with - | o
  · exact ⟨.refl h _, by simp⟩
  dsimp only
  by_cases hzero : o.mappingRefs = 0
  · have hd : o.decMappingRef = .error .refUnderflow := by
      simp [MemoryObject.decMappingRef, MemoryObject.decRef, checkedSub, hzero]
    rw [hd]
    refine ⟨.refl h _, ?_⟩
    rintro o' ⟨⟩ hne
    exact absurd hzero hne
  · have hd : o.decMappingRef
        = .ok (({ o with mappingRefs := o.mappingRefs - 1 } : MemoryObject).canDestroy,
          { o with mappingRefs := o.mappingRefs - 1 }) :=
      MemoryObject.decRef_eq_ok.mpr ⟨hzero, rfl, rfl⟩
    have hget : (k.memoryObjects.modify objectId
        fun _ ↦ { o with mappingRefs := o.mappingRefs - 1 }).get objectId
          = some { o with mappingRefs := o.mappingRefs - 1 } := by
      rw [CapState.get_modify_const ho, if_pos rfl]
    rw [hd]
    dsimp only
    rcases hlast : ({ o with mappingRefs := o.mappingRefs - 1 } : MemoryObject).canDestroy with
      - | -
    · refine ⟨by apply forgoes_of_same h <;> rfl, ?_⟩
      rintro o' ⟨⟩ -
      rw [hlast]
      exact hget
    · -- Nothing refers to it any more.
      dsimp only
      rw [reclaimMemoryObjectIfZeroRefs, hget]
      dsimp only
      rw [if_neg (by rw [hlast]; simp)]
      refine ⟨by apply retire_forgoes h <;> rfl, ?_⟩
      rintro o' ⟨⟩ -
      rw [hlast, destroyObject_memoryObjects]
      exact (get_remove ..).trans (if_pos rfl)

@[simp] theorem destroyObject_contiguousFrames (k : Kernel) (d id : ObjectId) :
    (k.destroyObject d id).2.contiguousFrames = k.contiguousFrames := by
  rw [destroyObject]
  cases k.domain d <;> rfl

@[simp] theorem destroyObject_mappings (k : Kernel) (d id : ObjectId) :
    (k.destroyObject d id).2.mappings = k.mappings := by
  rw [destroyObject]
  cases k.domain d <;> rfl

theorem dropFrameMapping_spec (h : k.arena.Wf) (objectId : ObjectId) (physicalBase offsetBytes : ℕ)
    (cachePolicy : CachePolicy) :
    k.Forgoes (some objectId)
        (k.releaseBacking (.contiguousFrame objectId physicalBase offsetBytes cachePolicy))
    ∧ ∀ f, k.contiguousFrames.get objectId = some f → f.mappingCount ≠ 0 →
      (k.releaseBacking (.contiguousFrame objectId physicalBase offsetBytes
          cachePolicy)).contiguousFrames.get objectId
        = if ({ f with mappingCount := f.mappingCount - 1 } : ContiguousFrameObject).canDestroy
          then none else some { f with mappingCount := f.mappingCount - 1 } := by
  rw [releaseBacking, removeFrameMapping]
  rcases hf : k.contiguousFrames.get objectId with - | f
  · exact ⟨.refl h _, by simp⟩
  dsimp only
  by_cases hzero : f.mappingCount = 0
  · have hd : f.removeMapping = .error .mappingUnderflow := by
      simp [ContiguousFrameObject.removeMapping, checkedSub, hzero]
    rw [hd]
    refine ⟨.refl h _, ?_⟩
    rintro f' ⟨⟩ hne
    exact absurd hzero hne
  · have hd : f.removeMapping = .ok { f with mappingCount := f.mappingCount - 1 } := by
      have hpos : 1 ≤ f.mappingCount := Nat.one_le_iff_ne_zero.mpr hzero
      simp [ContiguousFrameObject.removeMapping, checkedSub, hpos]
    have hget : (k.contiguousFrames.modify objectId
        fun _ ↦ { f with mappingCount := f.mappingCount - 1 }).get objectId
          = some { f with mappingCount := f.mappingCount - 1 } := by
      rw [CapState.get_modify_const hf, if_pos rfl]
    rw [hd]
    dsimp only
    rcases hlast : ({ f with mappingCount := f.mappingCount - 1 } :
      ContiguousFrameObject).canDestroy with - | -
    · refine ⟨by apply forgoes_of_same h <;> rfl, ?_⟩
      rintro f' ⟨⟩ -
      rw [hlast]
      exact hget
    · dsimp only
      rw [reclaimContiguousFrameIfZeroRefs, hget]
      dsimp only
      rw [if_neg (by rw [hlast]; simp)]
      refine ⟨by apply retire_forgoes h <;> rfl, ?_⟩
      rintro f' ⟨⟩ -
      rw [hlast, destroyObject_contiguousFrames]
      exact (get_remove ..).trans (if_pos rfl)

/-- **Letting go of the backing.** The count goes down just if there is one. -/
theorem releaseBacking_spec (h : k.arena.Wf) (backing : MappingBacking) :
    k.Forgoes backing.object (k.releaseBacking backing)
    ∧ (k.Counted backing ↔ k.Lessened (k.releaseBacking backing) backing) := by
  rcases backing with ⟨objectId, -⟩ | - | ⟨objectId, base, offsetBytes, policy⟩
  · obtain ⟨hforgoes, hless⟩ := dropMappingRef_spec h objectId
    exact ⟨hforgoes, counted_iff_lessened hless⟩
  · exact ⟨.refl h _, iff_of_true trivial trivial⟩
  · obtain ⟨hforgoes, hless⟩ := dropFrameMapping_spec h objectId base offsetBytes policy
    exact ⟨hforgoes, counted_iff_lessened hless⟩

theorem live_releaseBacking (h : k.arena.Wf) (hmemory : k.memoryObjects.get id = none)
    (hframes : k.contiguousFrames.get id = none) (backing : MappingBacking) :
    (k.releaseBacking backing).arena.live id = k.arena.live id := by
  by_cases hid : backing.object = some id
  · cases backing with
    | memoryObject objectId offsetBytes =>
      obtain rfl : objectId = id := Option.some.inj hid
      rw [releaseBacking, dropMemoryRef, dropRef, hmemory]
    | physicalRange base policy => rfl
    | contiguousFrame objectId base offsetBytes policy =>
      obtain rfl : objectId = id := Option.some.inj hid
      rw [releaseBacking, removeFrameMapping, hframes]
  · exact (releaseBacking_spec h backing).1.live id hid

theorem lessened_congr (hmemory : k'.memoryObjects = k.memoryObjects)
    (hframes : k'.contiguousFrames = k.contiguousFrames) :
    k'.Lessened k'' backing ↔ k.Lessened k'' backing := by
  cases backing <;> simp only [Lessened, hmemory, hframes]

theorem counted_congr (hmemory : k'.memoryObjects = k.memoryObjects)
    (hframes : k'.contiguousFrames = k.contiguousFrames) :
    k'.Counted backing ↔ k.Counted backing := by
  cases backing <;> simp only [Counted, hmemory, hframes]

/-! ## The handle and the object -/

/-- The handle is deleted and the object destroyed, both at the expense of a registered domain. -/
def dischargeMapping (k : Kernel) (cspaceId domain : ObjectId) (handle : Handle) (id : ObjectId) :
    Kernel :=
  match k.domain domain with
  | none => k
  | some _ =>
    ({ k with caps := (k.caps.exec (.delete cspaceId domain handle)).2 }.destroyObject domain id).2

/-- The domain is the one that was charged for the object, and has a charge to return. -/
def Pays (k : Kernel) (d id : ObjectId) : Prop :=
  ∃ dom, k.domain d = some dom ∧ k.arena.owner id = some dom.id ∧ dom.usage.objects ≠ 0

/-- Deleting a handle does not touch what a domain has of objects. -/
theorem domain_exec_delete (h : k.caps.Wf) (cspaceId d : ObjectId) (handle : Handle)
    {j : ObjectId} {dom : ResourceDomain} (hdom : k.domain j = some dom) :
    ∃ dom', (k.caps.exec (.delete cspaceId d handle)).2.domains.get j = some dom'
      ∧ dom'.id = dom.id ∧ dom'.usage.objects = dom.usage.objects := by
  have hdom : k.caps.domains.get j = some dom := hdom
  obtain ⟨-, ⟨-, -, -, hdomains⟩ | ⟨-, -, -, dom₀, -, -, -, -, -, -, hdom₀, -, hdomains⟩⟩ :=
    h.exec_delete cspaceId d handle
  · exact ⟨dom, (hdomains j).trans hdom, rfl, rfl⟩
  · have hj := hdomains j
    split_ifs at hj with he
    · subst he
      obtain rfl : dom₀ = dom := Option.mem_unique hdom₀ hdom
      exact ⟨_, hj, rfl, rfl⟩
    · exact ⟨dom, hj.trans hdom, rfl, rfl⟩

/-- **Who pays decides.** -/
theorem dischargeMapping_spec (hcaps : k.caps.Wf) (harena : k.arena.Wf) (cspaceId d : ObjectId)
    (handle : Handle) {t : ObjectType} {owner : ResourceDomainId}
    (hlive : k.arena.live id = some (t, owner)) :
    (k.dischargeMapping cspaceId d handle id).arena.Wf
    ∧ (k.Pays d id → (k.dischargeMapping cspaceId d handle id).arena.live id = none
      ∧ ∃ dom dom', k.domain owner.objectId = some dom
        ∧ (k.dischargeMapping cspaceId d handle id).domain owner.objectId = some dom'
        ∧ dom'.usage.objects + 1 ≤ dom.usage.objects)
    ∧ (¬ k.Pays d id →
      (k.dischargeMapping cspaceId d handle id).arena.live id = some (t, owner)) := by
  have howner : k.arena.owner id = some owner := by rw [ObjectArena.owner, hlive]; rfl
  rw [dischargeMapping]
  cases hdom : k.domain d with
  | none =>
    refine ⟨harena, ?_, fun _ ↦ hlive⟩
    rintro ⟨dom, hdom', -, -⟩
    cases hdom.symm.trans hdom'
  | some dom =>
    obtain ⟨dom₁, hdom₁, hid₁, hobjects₁⟩ := domain_exec_delete hcaps cspaceId d handle hdom
    have hid : dom.id = ⟨d⟩ := (hcaps.domains d dom hdom).1
    rcases destroyObject_spec (k := { k with caps := (k.caps.exec (.delete cspaceId d handle)).2 })
        harena d id with
      ⟨e, domains, heq, -, hnot⟩ | ⟨dom₂, arena, domains, hdom₂, heq, husage, hget, hdes, hwf⟩
    · refine ⟨by rw [heq]; exact harena, fun hpays ↦ ?_, fun _ ↦ by rw [heq]; exact hlive⟩
      obtain ⟨dom', hdom', hpayer, hne⟩ := hpays
      obtain rfl : dom = dom' := Option.mem_unique hdom hdom'
      refine absurd ⟨⟨t, ?_⟩, ?_⟩ (hnot dom₁ hdom₁)
      · rw [hid₁, ← Option.mem_unique howner hpayer]
        exact hlive
      · rw [hobjects₁]
        exact hne
    · obtain rfl : dom₁ = dom₂ := Option.mem_unique hdom₁ hdom₂
      obtain ⟨t', hlive'⟩ := hdes.owner
      have hpayer : owner = dom₁.id :=
        (Prod.mk.inj (Option.mem_unique hlive hlive')).2
      have hd : owner.objectId = d := by rw [hpayer, hid₁, hid]
      refine ⟨by rw [heq]; exact hwf,
        fun _ ↦ ⟨?_, dom, dom₁.setObjects (dom₁.usage.objects - 1), ?_⟩,
        fun hnot ↦ ?_⟩
      · rw [heq]
        exact (hdes.live id).trans (if_pos rfl)
      · rw [heq, hd]
        refine ⟨hdom, (hget d).trans (if_pos rfl), ?_⟩
        have hpos := Nat.pos_of_ne_zero husage
        rw [← hobjects₁]
        change dom₁.usage.objects - 1 + 1 ≤ dom₁.usage.objects
        omega
      · exact absurd ⟨dom, hdom, by rw [howner, hpayer, hid₁], hobjects₁ ▸ husage⟩ hnot

theorem dischargeMapping_registries (k : Kernel) (cspaceId d : ObjectId) (handle : Handle)
    (id : ObjectId) :
    (k.dischargeMapping cspaceId d handle id).mappings = k.mappings
    ∧ (k.dischargeMapping cspaceId d handle id).memoryObjects = k.memoryObjects
    ∧ (k.dischargeMapping cspaceId d handle id).contiguousFrames = k.contiguousFrames
    ∧ (k.dischargeMapping cspaceId d handle id).addressSpaces = k.addressSpaces := by
  rw [dischargeMapping]
  cases k.domain d with
  | none => exact ⟨rfl, rfl, rfl, rfl⟩
  | some dom =>
    exact ⟨destroyObject_mappings _ _ _, destroyObject_memoryObjects _ _ _,
      destroyObject_contiguousFrames _ _ _, destroyObject_addressSpaces _ _ _⟩

/-! ## The call -/

theorem unmapMemory_cases (mapper : Mapper) {sp : CapabilitySpace}
    (hspace : k.caps.spaces.get cspace = some sp)
    (hlookup : k.caps.system.lookup sp handle .mapping Rights.map k.arena = .ok id)
    (hm : k.mappings.get id = some m) :
    (m.closed = true ∧ k.unmapMemory mapper cspace handle = (.fail .internalError, k))
    ∨ (m.closed = false ∧ ∃ k₁ : Kernel,
        k₁.mappings = (k.mappings.modify id fun _ ↦ { m with closed := true })
        ∧ k.unmapMemory mapper cspace handle = (.fail .internalError, k₁)
        ∧ ∀ s, k.addressSpaces.get m.targetAddressSpace = some s →
          (unmapLoop mapper s.tables m.pages).1 ≠ .ok ())
    ∨ (m.closed = false ∧ ∃ s, k.addressSpaces.get m.targetAddressSpace = some s
        ∧ (unmapLoop mapper s.tables m.pages).1 = .ok ()
        ∧ k.unmapMemory mapper cspace handle = (.ok 0,
          (dischargeMapping
            { k with
              mappings := (k.mappings.modify id fun _ ↦ { m with closed := true }).remove id
              addressSpaces := k.addressSpaces.modify m.targetAddressSpace fun s' ↦
                { s' with tables := (unmapLoop mapper s.tables m.pages).2 } }
            cspace sp.domain.objectId handle id).releaseBacking m.backing)) := by
  rw [unmapMemory, hspace]
  dsimp only
  rw [hlookup]
  dsimp only
  rw [hm]
  dsimp only
  cases hclosed : m.closed with
  | true =>
    rw [Mapping.close, hclosed]
    exact .inl ⟨rfl, rfl⟩
  | false =>
    rw [Mapping.close, hclosed]
    right
    rw [if_neg (by simp)]
    dsimp only
    rw [unmapClosed, unmapRange]
    dsimp only
    cases hs : k.addressSpaces.get m.targetAddressSpace with
    | none => exact .inl ⟨rfl, _, rfl, rfl, by simp⟩
    | some s =>
      dsimp only
      rw [unmapUserRange,
        show (List.range (m.size / pageSize)).map (pageAt m.virtualAddress) = m.pages
        from rfl]
      cases hr : (unmapLoop mapper s.tables m.pages).1 with
      | error e =>
        refine .inl ⟨rfl, _, rfl, rfl, fun s' hs' ↦ ?_⟩
        rw [← Option.some.inj hs', hr]
        simp
      | ok u => exact .inr ⟨rfl, s, rfl, hr, rfl⟩

theorem pages_aligned (h : m.virtualAddress % pageSize = 0) {v : ℕ} (hv : v ∈ m.pages) :
    v % pageSize = 0 := by
  obtain ⟨i, -, rfl⟩ := Mapping.mem_pages.mp hv
  rw [pageAt]
  unfold pageSize at *
  omega

/-- What the call owes on success, seen from the kernel that the pages have left. -/
theorem unmapped_iff (mapper : Mapper) (cspace : ObjectId) (handle : Handle) (sp : CapabilitySpace)
    (h : k.Registered) {s : AddressSpace} (hm : k.mappings.get id = some m)
    (hs : k.addressSpaces.get m.targetAddressSpace = some s)
    (hgone : ∀ v ∈ m.pages, (unmapLoop mapper s.tables m.pages).2.pages v = none) :
    k.Unmapped ((dischargeMapping
        { k with
          mappings := (k.mappings.modify id fun _ ↦ { m with closed := true }).remove id
          addressSpaces := k.addressSpaces.modify m.targetAddressSpace fun s' ↦
            { s' with tables := (unmapLoop mapper s.tables m.pages).2 } }
        cspace sp.domain.objectId handle id).releaseBacking m.backing) id m
    ↔ k.Pays sp.domain.objectId id ∧ k.Counted m.backing := by
  set k₁ : Kernel :=
    { k with
      mappings := (k.mappings.modify id fun _ ↦ { m with closed := true }).remove id
      addressSpaces := k.addressSpaces.modify m.targetAddressSpace fun s' ↦
        { s' with tables := (unmapLoop mapper s.tables m.pages).2 } } with hk₁
  have htype : k.arena.objectType id = some .mapping :=
    h.types id .mapping (by rw [lists, hm]; rfl)
  obtain ⟨⟨t, owner⟩, hlive, ht⟩ := Option.map_eq_some_iff.mp htype
  obtain rfl : t = .mapping := ht
  obtain ⟨hwf, hpaid, hunpaid⟩ :=
    dischargeMapping_spec (k := k₁) h.caps h.arena cspace sp.domain.objectId handle hlive
  obtain ⟨hmappings, hmemory, hframes, hspaces⟩ :=
    dischargeMapping_registries k₁ cspace sp.domain.objectId handle id
  set k₂ := k₁.dischargeMapping cspace sp.domain.objectId handle id with hk₂
  obtain ⟨hforgoes, hcount⟩ := releaseBacking_spec hwf m.backing
  have hsame : (k₂.releaseBacking m.backing).arena.live id = k₂.arena.live id := by
    -- The identity is that of a mapping, and so of nothing else.
    have hnotMemory : k.lists id .memoryObject = false := h.lists_eq_false (by rw [htype]; nofun)
    have hnotFrame : k.lists id .contiguousFrame = false := h.lists_eq_false (by rw [htype]; nofun)
    refine live_releaseBacking hwf ?_ ?_ m.backing
    · rw [hmemory]
      exact Option.isSome_eq_false_iff.mp hnotMemory |> Option.isNone_iff_eq_none.mp
    · rw [hframes]
      exact Option.isSome_eq_false_iff.mp hnotFrame |> Option.isNone_iff_eq_none.mp
  rw [counted_congr hmemory hframes, lessened_congr hmemory hframes] at hcount
  constructor
  · intro hunmapped
    refine ⟨?_, hcount.mpr hunmapped.backing⟩
    by_contra hnot
    cases ((hunpaid hnot).symm.trans hsame.symm).trans hunmapped.object
  · rintro ⟨hpays, hcounted⟩
    obtain ⟨hnone, dom, dom', hdom, hdom', hle⟩ := hpaid hpays
    refine ⟨fun v hv ↦ ?_, ?_, hsame.trans hnone, fun t' owner' hlive' ↦ ?_, hcount.mp hcounted⟩
    · rw [page, releaseBacking_addressSpaces, hspaces]
      change (k.withTables m.targetAddressSpace _).page _ v = none
      rw [page_withTables hs, if_pos rfl]
      exact hgone v hv
    · rw [hforgoes.mappings, hmappings]
      exact (get_remove ..).trans (if_pos rfl)
    · obtain ⟨-, rfl⟩ := Prod.mk.inj (Option.mem_unique hlive hlive')
      obtain ⟨dom'', hdom'', hle'⟩ := hforgoes.objects _ _ hdom'
      exact ⟨dom, dom'', hdom, hdom'', (Nat.add_le_add_right hle' 1).trans hle⟩

/-- **When unmapping is exact and atomic**: the mapping is open, its address space is there and its
pages are in the user half, the caller's domain is the one that was charged and has not been
refunded already, and the backing object counts the mapping. -/
theorem unmapMemory_atomic_iff (mapper : Mapper) (h : k.Registered) {sp : CapabilitySpace}
    (hspace : k.caps.spaces.get cspace = some sp)
    (hlookup : k.caps.system.lookup sp handle .mapping Rights.map k.arena = .ok id)
    (hm : k.mappings.get id = some m) (haligned : m.virtualAddress % pageSize = 0) :
    UnmapsAtomically mapper k cspace handle id m ↔
      m.closed = false ∧ (k.addressSpaces.get m.targetAddressSpace).isSome = true
      ∧ (∀ v ∈ m.pages, v < userAddressMax) ∧ k.Pays sp.domain.objectId id
      ∧ k.Counted m.backing := by
  rcases unmapMemory_cases mapper hspace hlookup hm with ⟨hclosed, heq⟩
    | ⟨hopen, k₁, hmappings, heq, hstuck⟩ | ⟨hopen, s, hs, hok, heq⟩
  · refine iff_of_false (fun hatomic ↦ ?_) fun hcond ↦ ?_
    · have hstill := hatomic.failure (by rw [heq]; nofun)
      cases hclosed.symm.trans hstill.isOpen
    · cases hclosed.symm.trans hcond.1
  · refine iff_of_false (fun hatomic ↦ ?_) ?_
    · -- The mapping has been closed before anything else was looked at.
      have hentry := (hatomic.failure (by rw [heq]; nofun)).entry
      rw [heq, hmappings, CapState.get_modify_const hm, if_pos rfl] at hentry
      have hclosed := congrArg Mapping.closed (Option.some.inj hentry)
      cases hclosed.trans hopen
    · rintro ⟨-, hsome, hlow, -⟩
      obtain ⟨s, hs⟩ := Option.isSome_iff_exists.mp hsome
      refine hstuck s hs (unmapLoop_eq_ok s.tables m.pages fun v hv ↦ ?_).1
      exact ⟨hlow v hv, pages_aligned haligned hv⟩
  · have hlow : ∀ v ∈ m.pages, v < userAddressMax := by
      intro v hv
      by_contra hhigh
      exact unmapLoop_ne_ok s.tables hv (Nat.le_of_not_lt hhigh) hok
    have hgone : ∀ v, (unmapLoop mapper s.tables m.pages).2.pages v
        = if v ∈ m.pages then none else s.tables.pages v :=
      (unmapLoop_eq_ok s.tables m.pages fun v hv ↦ ⟨hlow v hv, pages_aligned haligned hv⟩).2
    have hiff := unmapped_iff mapper cspace handle sp h hm hs fun v hv ↦ (hgone v).trans (if_pos hv)
    have hsome : (k.addressSpaces.get m.targetAddressSpace).isSome = true := by rw [hs]; rfl
    constructor
    · intro hatomic
      have hunmapped := hatomic.success (by rw [heq])
      rw [heq] at hunmapped
      exact ⟨hopen, hsome, hlow, hiff.mp hunmapped⟩
    · rintro ⟨-, -, -, hcond⟩
      refine ⟨fun _ ↦ ?_, fun hne ↦ absurd (by rw [heq]) hne⟩
      rw [heq]
      exact hiff.mpr hcond

/-! ### A mapping shared by two domains -/

/-- A space of each of two domains. -/
def hostAndGuest : CapState where
  system := ⟨[], 8, none⟩
  spaces := (Registry.empty.insert ⟨1, 1⟩ ⟨⟨⟨0, 1⟩⟩, [], 8, none⟩).insert ⟨4, 1⟩
    ⟨⟨⟨3, 1⟩⟩, [], 8, none⟩
  domains := (Registry.empty.insert ⟨0, 1⟩
    (ResourceDomain.new ⟨⟨0, 1⟩⟩ ⟨8, 8, 65536⟩)).insert ⟨3, 1⟩
    (ResourceDomain.new ⟨⟨3, 1⟩⟩ ⟨8, 8, 65536⟩)

/-- The mapping is an object of the first domain. -/
def sharedObjects : ObjectArena :=
  ⟨[⟨1, .live .resourceDomain ⟨⟨0, 1⟩⟩⟩, ⟨1, .live .capabilitySpace ⟨⟨0, 1⟩⟩⟩,
    ⟨1, .live .addressSpace ⟨⟨0, 1⟩⟩⟩, ⟨1, .live .resourceDomain ⟨⟨0, 1⟩⟩⟩,
    ⟨1, .live .capabilitySpace ⟨⟨3, 1⟩⟩⟩, ⟨1, .live .mapping ⟨⟨0, 1⟩⟩⟩], 8, none⟩

/-- One page of physical memory at `0x400000`. -/
def sharedMapping : Mapping where
  targetAddressSpace := ⟨2, 1⟩
  virtualAddress := 0x400000
  size := 0x1000
  permissions := Rights.read
  backing := .physicalRange 0x102000 .cached
  lineageParentNode := none
  capabilityRefs := 1
  closed := false

/-- Slot 0 of either space holds the mapping. -/
def sharedKernel : Kernel :=
  { bare
      ((hostAndGuest.exec (.insertRoot ⟨1, 1⟩ ⟨0, 1⟩ ⟨5, 1⟩ .mapping Rights.map
        sharedObjects)).2.exec
        (.derive ⟨1, 1⟩ (Handle.fromParts 0 1) ⟨4, 1⟩ ⟨3, 1⟩ Rights.map sharedObjects)).2
      sharedObjects ⟨[], [], 0⟩ with
    addressSpaces := Registry.empty.insert ⟨2, 1⟩
      ⟨0x100000, ⟨Function.update (fun _ ↦ none) 0x400000
        (some ⟨0x102000, ⟨true, false, true, true, false⟩⟩), []⟩⟩
    mappings := Registry.empty.insert ⟨5, 1⟩ sharedMapping }

/-- The first domain is charged for the mapping. -/
def chargedKernel : Kernel :=
  sharedKernel.updateDomain ⟨0, 1⟩ fun dom ↦ dom.setObjects 1

theorem hostAndGuest_wf : hostAndGuest.Wf := by
  refine CapState.Initial.wf ⟨⟨8, rfl⟩, fun k space hk ↦ ?_, fun d dom hd ↦ ?_⟩
  · simp only [hostAndGuest, get_insert, get_empty] at hk
    split_ifs at hk
    · exact ⟨ResourceDomain.new ⟨⟨3, 1⟩⟩ ⟨8, 8, 65536⟩, 8, hk⟩
    · exact ⟨ResourceDomain.new ⟨⟨0, 1⟩⟩ ⟨8, 8, 65536⟩, 8, hk⟩
  · simp only [hostAndGuest, get_insert, get_empty] at hd
    split_ifs at hd with h₁ h₂ h₃
    · obtain rfl := Option.some.inj hd
      exact ⟨⟨8, 8, 65536⟩, by rw [h₁]⟩
    · obtain rfl := Option.some.inj hd
      exact ⟨⟨8, 8, 65536⟩, by rw [h₃]⟩

theorem sharedKernel_registered : sharedKernel.Registered := by
  have harena : sharedObjects.Wf := ⟨by decide, by decide⟩
  have hinsert := hostAndGuest_wf.exec
    (.insertRoot ⟨1, 1⟩ ⟨0, 1⟩ ⟨5, 1⟩ .mapping Rights.map sharedObjects)
  have hderive := hinsert.1.exec
    (.derive ⟨1, 1⟩ (Handle.fromParts 0 1) ⟨4, 1⟩ ⟨3, 1⟩ Rights.map sharedObjects)
  refine ⟨hderive.1, harena, fun id t ht ↦ ?_⟩
  cases t with
  | capabilitySpace =>
    have hget : (hostAndGuest.spaces.get id).isSome = true :=
      (hinsert.2.isSome_spaces id).symm.trans ((hderive.2.isSome_spaces id).symm.trans ht)
    rcases isSome_of_get_insert hget with hget | rfl
    · rcases isSome_of_get_insert hget with hempty | rfl
      · cases hempty
      · rfl
    · rfl
  | addressSpace | mapping =>
    rcases isSome_of_get_insert ht with hempty | rfl
    · cases hempty
    · rfl
  | _ => cases ht

theorem chargedKernel_registered : chargedKernel.Registered :=
  sharedKernel_registered.updateDomain ⟨0, 1⟩ fun _ ↦ ⟨rfl, rfl⟩

/-- Its own domain unmaps it. -/
theorem chargedKernel_unmapped_by_host :
    (chargedKernel.unmapMemory Mapper.walk ⟨1, 1⟩ (Handle.fromParts 0 1)).1 = .ok 0
    ∧ UnmapsAtomically Mapper.walk chargedKernel ⟨1, 1⟩ (Handle.fromParts 0 1) ⟨5, 1⟩
      sharedMapping := by
  refine ⟨by decide +kernel, ?_⟩
  obtain ⟨sp, hsp⟩ : ∃ sp, chargedKernel.caps.spaces.get ⟨1, 1⟩ = some sp := ⟨_, rfl⟩
  have hlookup : (chargedKernel.caps.spaces.get ⟨1, 1⟩).map (fun sp ↦
      chargedKernel.caps.system.lookup sp (Handle.fromParts 0 1) .mapping Rights.map
        chargedKernel.arena) = some (.ok ⟨5, 1⟩) := by
    decide +kernel
  have hdomain : (chargedKernel.caps.spaces.get ⟨1, 1⟩).map (fun sp ↦ sp.domain.objectId)
      = some ⟨0, 1⟩ := by decide +kernel
  rw [hsp] at hlookup hdomain
  refine (unmapMemory_atomic_iff Mapper.walk chargedKernel_registered hsp (Option.some.inj hlookup)
    rfl (by decide)).mpr ⟨rfl, by decide +kernel, by decide +kernel, ?_, trivial⟩
  have hhost : sp.domain.objectId = ⟨0, 1⟩ := Option.some.inj hdomain
  rw [hhost]
  exact ⟨_, rfl, rfl, by decide +kernel⟩

/-- **Another domain leaves the object behind**, and the charge with it. -/
theorem chargedKernel_kept_by_guest :
    (chargedKernel.unmapMemory Mapper.walk ⟨4, 1⟩ (Handle.fromParts 0 1)).1 = .ok 0
    ∧ ¬ UnmapsAtomically Mapper.walk chargedKernel ⟨4, 1⟩ (Handle.fromParts 0 1) ⟨5, 1⟩
      sharedMapping := by
  have hok : (chargedKernel.unmapMemory Mapper.walk ⟨4, 1⟩ (Handle.fromParts 0 1)).1 = .ok 0 := by
    decide +kernel
  refine ⟨hok, fun hatomic ↦ ?_⟩
  have hleft : (chargedKernel.unmapMemory Mapper.walk ⟨4, 1⟩
      (Handle.fromParts 0 1)).2.arena.live ⟨5, 1⟩ = some (.mapping, ⟨⟨0, 1⟩⟩) := by decide +kernel
  cases hleft.symm.trans (hatomic.success hok).object

end Kernel

end Gaxera

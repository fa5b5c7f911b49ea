import Gaxera.Capability.Attenuation
import Gaxera.Kernel.Effects
import Gaxera.Kernel.UserSpace

/-!
# The Revoke call and its authority

The kernel flags the descendants of the target and closes the mappings of its lineage before it asks
whether the target validates and carries `MANAGE`. A call that is refused has therefore done its
work by then. It has no effect exactly where the caller had the authority, or where there was
nothing below the target to revoke.

Both passes only ever take away: flags are set, mappings and objects go, nothing is added. So the
target cannot gain its authority on the way. It can lose it only with its object, and that is what
`Held` excludes: the object of the target is held by more than the mappings that the call closes.
-/

namespace Gaxera

open CapabilitySystem Registry MemoryObject

namespace Kernel

variable {mapper : Mapper} {k k' k'' : Kernel} {q : RevokeRequest} {node : NodeId} {id : ObjectId}
  {m : Mapping}

/-- What a call that fails is to leave alone. -/
structure Untouched (k k' : Kernel) : Prop where
  pages : ∀ aspace v, k'.page aspace v = k.page aspace v
  mappings : ∀ id, k'.mappings.get id = k.mappings.get id
  arena : ∀ id, k'.arena.live id = k.arena.live id
  domains : ∀ d, k'.domain d = k.domain d
  memoryObjects : ∀ id, k'.memoryObjects.get id = k.memoryObjects.get id

theorem Untouched.refl (k : Kernel) : k.Untouched k :=
  ⟨fun _ _ ↦ rfl, fun _ ↦ rfl, fun _ ↦ rfl, fun _ ↦ rfl, fun _ ↦ rfl⟩

/-- What a refused revocation is to leave alone. -/
structure Unaffected (k k' : Kernel) : Prop extends Untouched k k' where
  grants : ∀ n, k'.caps.system.grants n = k.caps.system.grants n

/-- The node that the call is about. -/
def revokeNode (k : Kernel) (q : RevokeRequest) : Option NodeId :=
  match k.caps.spaces.get q.cspace with
  | none => none
  | some cspace => (cspace.nodeFor q.target).toOption

/-- The node validates, and carries `MANAGE`. -/
def MayRevoke (k : Kernel) (node : NodeId) : Prop :=
  ∃ info, k.caps.system.validateNode node k.arena = .ok info
    ∧ info.rights.contains Rights.manage = true

/-- Everything derived from the node is flagged already, and no open mapping is of its lineage. -/
structure NothingBelow (k : Kernel) (node : NodeId) : Prop where
  flagged : ∀ m x, k.caps.system.grants m = some x → DerivedFrom k.caps.system.grants node m →
    m ≠ node → x.revoked = true
  closed : ∀ id m p, k.mappings.get id = some m → m.lineageParentNode = some p →
    DerivedFrom k.caps.system.grants node p → m.closed = true

/-- The object of the node is not itself a mapping of its lineage, and a memory object has
references besides those of its mappings. -/
structure Held (k : Kernel) (node : NodeId) (object : ObjectId) : Prop where
  mappings : ∀ m p, k.mappings.get object = some m → m.lineageParentNode = some p →
    ¬ DerivedFrom k.caps.system.grants node p
  memoryObjects : ∀ m, k.memoryObjects.get object = some m → m.mappingRefs < m.totalRefs

/-! ## The second pass -/

theorem findLineage_eq_some (h : k.findLineage node = some (id, m)) :
    k.mappings.get id = some m ∧ ∃ p, m.lineageParentNode = some p
      ∧ k.caps.system.isDescendantOf p node = true ∧ m.closed = false := by
  refine ⟨mem_entries.mp (List.mem_of_find?_eq_some h), ?_⟩
  have hfound := List.find?_some h
  dsimp only at hfound
  cases hp : m.lineageParentNode with
  | none => simp [hp] at hfound
  | some p => exact ⟨p, rfl, by simpa [hp] using hfound⟩

theorem findLineage_eq_none_iff (h : k.caps.Wf) : k.findLineage node = none ↔
    ∀ id m p, k.mappings.get id = some m → m.lineageParentNode = some p →
      DerivedFrom k.caps.system.grants node p → m.closed = true := by
  rw [findLineage, List.find?_eq_none]
  constructor
  · intro hnone id m p hm hp hd
    have := hnone (id, m) (mem_entries.mpr hm)
    simpa [hp, h.system.isDescendantOf_iff.mpr hd] using this
  · rintro hall ⟨id, m⟩ hmem
    cases hp : m.lineageParentNode with
    | none => simp
    | some p =>
      cases hd : k.caps.system.isDescendantOf p node with
      | false => simp [hd]
      | true =>
        have := hall id m p (mem_entries.mp hmem) hp (h.system.isDescendantOf_iff.mp hd)
        simp [this]

theorem revokeMappings_induction {P : Kernel → Prop}
    (hstep : ∀ k id m, P k → k.findLineage node = some (id, m) → P (k.revokeMapping mapper id m))
    (h : P k) (fuel : ℕ) : P (revokeMappings mapper node fuel k) := by
  induction fuel generalizing k with
  | zero => exact h
  | succ fuel ih =>
    rw [revokeMappings]
    cases hfind : k.findLineage node with
    | none => exact h
    | some r => exact ih (hstep k r.1 r.2 h hfind)

/-- Mappings and objects go, and nothing is added; handles and nodes stay. -/
structure Shrinks (k k' : Kernel) : Prop where
  system : k'.caps.system = k.caps.system
  spaces : k'.caps.spaces = k.caps.spaces
  arena : k'.arena.Wf
  types : ∀ j t, k'.arena.objectType j = some t → k.arena.objectType j = some t
  mappings : ∀ j, k'.mappings.get j = none ∨ k'.mappings.get j = k.mappings.get j

theorem Shrinks.refl (h : k.arena.Wf) : k.Shrinks k :=
  ⟨rfl, rfl, h, fun _ _ ht ↦ ht, fun _ ↦ .inr rfl⟩

theorem Shrinks.trans (h : k.Shrinks k') (h' : k'.Shrinks k'') : k.Shrinks k'' := by
  refine ⟨h'.system.trans h.system, h'.spaces.trans h.spaces, h'.arena,
    fun j t ht ↦ h.types j t (h'.types j t ht), fun j ↦ ?_⟩
  rcases h'.mappings j with hj | hj
  · exact .inl hj
  · rw [hj]
    exact h.mappings j

theorem Destroys.types {domains : Registry ResourceDomain} {arena : ObjectArena}
    (h : k.Destroys id domains arena) {j : ObjectId} {t : ObjectType}
    (ht : arena.objectType j = some t) : k.arena.objectType j = some t := by
  rcases h.cases with ⟨rfl, -⟩ | ⟨d, dom, -, -, hdes, -⟩
  · exact ht
  · rw [ObjectArena.objectType, hdes.live] at ht
    split_ifs at ht
    · simp at ht
    · exact ht

theorem dropMemoryRef_shrinks (h : k.arena.Wf) (id : ObjectId)
    {dec : MemoryObject → Except MemoryError (Bool × MemoryObject)} (hdec : Honest dec) :
    k.Shrinks (k.dropMemoryRef id dec) := by
  generalize heq : k.dropMemoryRef id dec = k'
  have heffect := heq ▸ dropMemoryRef_effect h id hdec
  cases heffect with
  | absent => exact .refl h
  | kept => exact ⟨rfl, rfl, h, fun _ _ ht ↦ ht, fun _ ↦ .inr rfl⟩
  | reclaimed _ _ _ _ destroys =>
    exact ⟨rfl, rfl, destroys.wf, fun _ _ ↦ destroys.types, fun _ ↦ .inr rfl⟩

theorem retireMapping_shrinks (mapper : Mapper) (h : k.arena.Wf) (id : ObjectId) (m : Mapping) :
    k.Shrinks (k.retireMapping mapper id m) := by
  obtain ⟨domains, arena, heq, hdes⟩ := retireMapping_effect mapper h id m
  rw [heq]
  refine ⟨rfl, rfl, hdes.wf, fun _ _ ↦ hdes.types, fun j ↦ ?_⟩
  change (k.mappings.remove id).get j = none ∨ (k.mappings.remove id).get j = k.mappings.get j
  rw [get_remove]
  split_ifs
  · exact .inl rfl
  · exact .inr rfl

private theorem retireMapping_shrinks_revokeMapping (mapper : Mapper) (h : k.arena.Wf)
    (id : ObjectId) (m : Mapping) :
    (k.retireMapping mapper id m).Shrinks (k.revokeMapping mapper id m) := by
  have hretire := (retireMapping_shrinks mapper h id m).arena
  rw [revokeMapping]
  cases m.backing with
  | memoryObject objectId _ => exact dropMemoryRef_shrinks hretire objectId honest_decMappingRef
  | physicalRange | contiguousFrame => exact .refl hretire

theorem revokeMapping_shrinks (mapper : Mapper) (h : k.arena.Wf) (id : ObjectId) (m : Mapping) :
    k.Shrinks (k.revokeMapping mapper id m) :=
  (retireMapping_shrinks mapper h id m).trans (retireMapping_shrinks_revokeMapping mapper h id m)

theorem revokeMapping_get_self (mapper : Mapper) (h : k.arena.Wf) (id : ObjectId) (m : Mapping) :
    (k.revokeMapping mapper id m).mappings.get id = none := by
  have hretire : (k.retireMapping mapper id m).mappings.get id = none := by
    obtain ⟨domains, arena, heq, -⟩ := retireMapping_effect mapper h id m
    rw [heq]
    exact get_remove.trans (if_pos rfl)
  rcases (retireMapping_shrinks_revokeMapping mapper h id m).mappings id with hid | hid
  · exact hid
  · exact hid.trans hretire

theorem revokeMappings_shrinks (mapper : Mapper) (h : k.arena.Wf) (node : NodeId) (fuel : ℕ) :
    k.Shrinks (revokeMappings mapper node fuel k) :=
  revokeMappings_induction (P := fun k' ↦ k.Shrinks k')
    (fun _ id m hk' _ ↦ hk'.trans (revokeMapping_shrinks mapper hk'.arena id m)) (.refl h) fuel

/-- As long as there are other references, dropping those of mappings is never the last. -/
theorem not_last_of_mappingRefs_lt {m m' : MemoryObject} (h : m.mappingRefs < m.totalRefs) :
    m.decMappingRef ≠ .ok (true, m') := by
  intro hdec
  obtain ⟨hne, hlast, -⟩ := decRef_eq_ok.mp hdec
  have := canDestroy_iff.mp hlast.symm
  rw [totalRefs] at h
  dsimp only at this
  omega

theorem mappingRefs_lt_of_dec {m m' : MemoryObject} {last : Bool}
    (h : m.mappingRefs < m.totalRefs) (hdec : m.decMappingRef = .ok (last, m')) :
    m'.mappingRefs < m'.totalRefs := by
  obtain ⟨hne, -, rfl⟩ := decRef_eq_ok.mp hdec
  rw [totalRefs] at h ⊢
  dsimp only
  omega

/-- The object of the node stays, and stays held, while the mappings below the node go. -/
theorem Held.revokeMapping {object : ObjectId} {t : ObjectType}
    {held : NodeId → ℕ} (hk : k.arena.Wf) (hsys : k.caps.system.Wf held) (h : k.Held node object)
    (hlive : k.arena.objectType object = some t)
    (hfind : k.findLineage node = some (id, m)) :
    (k.revokeMapping mapper id m).Held node object
      ∧ (k.revokeMapping mapper id m).arena.objectType object = some t := by
  obtain ⟨hm, p, hp, hd, -⟩ := findLineage_eq_some hfind
  have hne : object ≠ id := by
    rintro rfl
    exact h.mappings m p hm hp (hsys.isDescendantOf_iff.mp hd)
  obtain ⟨domains, arena, heq, hdes⟩ := retireMapping_effect mapper hk id m
  have hretired : (k.retireMapping mapper id m).Held node object
      ∧ (k.retireMapping mapper id m).arena.objectType object = some t := by
    rw [heq]
    refine ⟨⟨fun m' p' hm' ↦ h.mappings m' p' ?_, h.memoryObjects⟩, ?_⟩
    · have hget : (k.mappings.remove id).get object = some m' := hm'
      rwa [get_remove, if_neg hne] at hget
    · exact (hdes.objectType_of_ne hne).trans hlive
  have hwf : (k.retireMapping mapper id m).arena.Wf := by
    rw [heq]
    exact hdes.wf
  rw [Kernel.revokeMapping]
  generalize k.retireMapping mapper id m = k₁ at hretired hwf
  obtain ⟨hheld, hobject⟩ := hretired
  cases m.backing with
  | physicalRange | contiguousFrame => exact ⟨hheld, hobject⟩
  | memoryObject objectId _ =>
    dsimp only
    generalize hdrop : k₁.dropMemoryRef objectId decMappingRef = k₂
    have heffect := hdrop ▸ dropMemoryRef_effect hwf objectId honest_decMappingRef
    cases heffect with
    | absent => exact ⟨hheld, hobject⟩
    | @kept m₁ m₂ get dec_eq =>
      refine ⟨⟨hheld.mappings, fun m' hm' ↦ ?_⟩, hobject⟩
      have hget : (k₁.memoryObjects.modify objectId fun _ ↦ m₂).get object = some m' := hm'
      rw [CapState.get_modify_const get] at hget
      split_ifs at hget with hobj
      · subst hobj
        obtain rfl : m₂ = m' := Option.some_inj.mp hget
        exact mappingRefs_lt_of_dec (hheld.memoryObjects m₁ get) dec_eq
      · exact hheld.memoryObjects m' hget
    | @reclaimed m₁ m₂ _ _ _ _ get dec_eq objects_get _ destroys =>
      have hobj : object ≠ objectId := by
        rintro rfl
        exact absurd dec_eq (not_last_of_mappingRefs_lt (hheld.memoryObjects m₁ get))
      refine ⟨⟨hheld.mappings, fun m' hm' ↦ hheld.memoryObjects m' ?_⟩, ?_⟩
      · have := objects_get object
        rw [if_neg hobj] at this
        exact this.symm.trans hm'
      · exact (destroys.objectType_of_ne hobj).trans hobject

/-! ## Both passes -/

theorem Wf.flagDescendants (h : k.Wf) (node : NodeId) : (k.flagDescendants node).caps.Wf :=
  ⟨(h.caps.system.revokeDescendants node _).1, h.caps.spaces, h.caps.domains⟩

theorem flagsBelow_flagDescendants (h : k.Wf) (node : NodeId) :
    k.caps.system.FlagsBelow node (k.flagDescendants node).caps.system :=
  (h.caps.system.revokeDescendants node _).2

theorem derivedFrom_flagDescendants (h : k.Wf) {n m : NodeId} :
    DerivedFrom (k.flagDescendants node).caps.system.grants n m
      ↔ DerivedFrom k.caps.system.grants n m := by
  refine derivedFrom_congr fun j ↦ ?_
  rcases (flagsBelow_flagDescendants h node).grants j with hj | ⟨-, -, hj⟩
  · rw [hj]
  · rw [hj]
    cases k.caps.system.grants j <;> rfl

theorem NothingBelow.selectiveRevoke (hk : k.Wf) (h : k.NothingBelow node) :
    k.selectiveRevoke mapper node = k := by
  have hnone := hk.caps.system.findUnrevokedDescendant_eq_none_iff.mpr h.flagged
  have hflag : k.flagDescendants node = k := by
    rw [flagDescendants, revokeDescendants,
      revokeOneDescendant, hnone]
  rw [Kernel.selectiveRevoke, hflag, revokeMappings,
    (findLineage_eq_none_iff hk.caps).mpr h.closed]

/-- **With something below the node** it is gone afterwards. -/
theorem nothingBelow_of_unaffected (hk : k.Wf)
    (h : k.Unaffected (k.selectiveRevoke mapper node)) : k.NothingBelow node := by
  have hshrinks : (k.flagDescendants node).Shrinks (k.selectiveRevoke mapper node) :=
    revokeMappings_shrinks mapper (k := k.flagDescendants node) hk.arena node _
  have hgrants : (k.flagDescendants node).caps.system.grants = k.caps.system.grants := by
    funext n
    rw [← hshrinks.system]
    exact h.grants n
  constructor
  · -- The first pass leaves no descendant without the flag.
    have hdone : (k.flagDescendants node).caps.system.findUnrevokedDescendant node = none :=
      hk.caps.system.revokeDescendants_done node (Nat.lt_succ_of_le List.countP_le_length)
    have hall := (hk.flagDescendants node).system.findUnrevokedDescendant_eq_none_iff.mp hdone
    rwa [hgrants] at hall
  · -- The second pass would remove the first mapping that it finds.
    rw [← hgrants]
    refine (findLineage_eq_none_iff (hk.flagDescendants node)).mp ?_
    by_contra hne
    obtain ⟨⟨id, m⟩, hfind⟩ := Option.ne_none_iff_exists'.mp hne
    obtain ⟨hm, -⟩ := findLineage_eq_some hfind
    have hgone : (k.selectiveRevoke mapper node).mappings.get id = none := by
      rw [Kernel.selectiveRevoke, revokeMappings, hfind]
      have hrest := revokeMappings_shrinks mapper
        (revokeMapping_shrinks mapper (k := k.flagDescendants node) hk.arena id m).arena node
        k.mappingCount
      rcases hrest.mappings id with hid | hid
      · exact hid
      · rw [hid]
        exact revokeMapping_get_self mapper (k := k.flagDescendants node) hk.arena id m
    rw [h.mappings id] at hgone
    exact nomatch hgone.symm.trans hm

theorem mayRevoke_selectiveRevoke_iff (hk : k.Wf)
    (hheld : ∀ info, k.caps.system.validateNode node k.arena = .ok info →
      k.Held node info.object) :
    (k.selectiveRevoke mapper node).MayRevoke node ↔ k.MayRevoke node := by
  have hflags := flagsBelow_flagDescendants hk node
  have hshrinks : (k.flagDescendants node).Shrinks (k.selectiveRevoke mapper node) :=
    revokeMappings_shrinks mapper (k := k.flagDescendants node) hk.arena node _
  constructor
  · rintro ⟨info, hval, hmanage⟩
    rw [hshrinks.system, hflags.validateNode] at hval
    obtain ⟨-, -, -, hobject⟩ := validateNode_eq_ok hval
    exact ⟨info, validateNode_of_objectType hval
      (hshrinks.types _ _ hobject), hmanage⟩
  · rintro ⟨info, hval, hmanage⟩
    obtain ⟨-, -, -, hobject⟩ := validateNode_eq_ok hval
    have hflagged : (k.flagDescendants node).Held node info.object :=
      ⟨fun m p hm hp hd ↦ (hheld info hval).mappings m p hm hp
        ((derivedFrom_flagDescendants hk).mp hd), (hheld info hval).memoryObjects⟩
    have hloop : (k.flagDescendants node).Shrinks (k.selectiveRevoke mapper node)
        ∧ (k.selectiveRevoke mapper node).Held node info.object
        ∧ (k.selectiveRevoke mapper node).arena.objectType info.object = some info.objectType := by
      refine revokeMappings_induction (P := fun k' ↦ (k.flagDescendants node).Shrinks k'
          ∧ k'.Held node info.object ∧ k'.arena.objectType info.object = some info.objectType)
        (fun k' id m ⟨hs, hheld', hlive⟩ hfind ↦ ?_)
        ⟨.refl hk.arena, hflagged, hobject⟩ (k.mappingCount + 1)
      exact ⟨hs.trans (revokeMapping_shrinks mapper hs.arena id m), hheld'.revokeMapping hs.arena
        (hs.system.symm ▸ (hk.flagDescendants node).system) hlive hfind⟩
    refine ⟨info, ?_, hmanage⟩
    rw [hshrinks.system, hflags.validateNode]
    exact validateNode_of_objectType hval hloop.2.2

/-! ## The call -/

theorem revoke_of_none (h : k.revokeNode q = none) :
    k.revoke mapper q = (.fail .internalError, k) := by
  rw [revokeNode] at h
  rw [revoke]
  cases hspace : k.caps.spaces.get q.cspace with
  | none => rfl
  | some cspace =>
    rw [hspace] at h
    dsimp only at h ⊢
    cases hnode : cspace.nodeFor q.target with
    | error e => rfl
    | ok node => simp [hnode, Except.toOption] at h

theorem revoke_of_some (mapper : Mapper) (hk : k.Wf) (h : k.revokeNode q = some node) :
    (k.revoke mapper q = (.fail .internalError, k.selectiveRevoke mapper node)
        ∧ ¬ (k.selectiveRevoke mapper node).MayRevoke node)
      ∨ (∃ k', k.revoke mapper q = (.ok 0, k'))
        ∧ (k.selectiveRevoke mapper node).MayRevoke node := by
  have hspaces : (k.selectiveRevoke mapper node).caps.spaces = k.caps.spaces :=
    (revokeMappings_shrinks mapper (k := k.flagDescendants node) hk.arena node _).spaces
  rw [revokeNode] at h
  cases hspace : k.caps.spaces.get q.cspace with
  | none => simp [hspace] at h
  | some cspace =>
    rw [hspace] at h
    dsimp only at h
    cases hnode : cspace.nodeFor q.target with
    | error e => simp [hnode, Except.toOption] at h
    | ok node' =>
      obtain rfl : node' = node := by simpa [hnode, Except.toOption] using h
      rw [revoke, hspace]
      dsimp only
      rw [hnode]
      dsimp only
      have hspace₁ : (k.selectiveRevoke mapper node').caps.spaces.get q.cspace = some cspace := by
        rw [hspaces, hspace]
      generalize k.selectiveRevoke mapper node' = k₁ at hspace₁
      rw [CapState.exec, hspace₁]
      dsimp only
      rw [CapabilitySystem.revoke, hnode]
      dsimp only
      cases hval : k₁.caps.system.validateNode node' k₁.arena with
      | error e =>
        refine .inl ⟨rfl, ?_⟩
        rintro ⟨_, hval', -⟩
        cases hval.symm.trans hval'
      | ok info =>
        dsimp only
        cases hmanage : info.rights.contains Rights.manage with
        | false =>
          refine .inl ⟨rfl, ?_⟩
          rintro ⟨info', hval', hmanage'⟩
          obtain rfl : info = info' := by simpa using hval.symm.trans hval'
          cases hmanage.symm.trans hmanage'
        | true =>
          obtain ⟨x, hx, -⟩ := validateNode_eq_ok hval
          obtain ⟨y, hy, -⟩ := grants_eq_some.mp hx
          rw [if_neg (by simp), hy]
          exact .inr ⟨⟨_, rfl⟩, info, hval, hmanage⟩

/-- **A revocation without authority** has no effect exactly where there is nothing to revoke. A
call that fails leaves everything alone, and one that succeeds had the authority, if and only if
the node of the call carries it or has nothing below it. -/
theorem revoke_unaffected_iff (mapper : Mapper) (k : Kernel) (q : RevokeRequest) (hk : k.Wf)
    (hheld : ∀ node info, k.revokeNode q = some node →
      k.caps.system.validateNode node k.arena = .ok info → k.Held node info.object) :
    (((∃ s, (k.revoke mapper q).1 = .fail s) → k.Unaffected (k.revoke mapper q).2)
        ∧ ∀ v, (k.revoke mapper q).1 = .ok v → ∃ node, k.revokeNode q = some node
          ∧ k.MayRevoke node)
      ↔ ∀ node, k.revokeNode q = some node → k.MayRevoke node ∨ k.NothingBelow node := by
  cases hnode : k.revokeNode q with
  | none =>
    rw [revoke_of_none hnode]
    refine iff_of_true ⟨fun _ ↦ ⟨.refl k, fun _ ↦ rfl⟩, fun v hv ↦ ?_⟩ fun _ h ↦ ?_
    · cases hv
    · cases h
  | some node =>
    have hiff : (k.selectiveRevoke mapper node).MayRevoke node ↔ k.MayRevoke node :=
      mayRevoke_selectiveRevoke_iff hk fun info ↦ hheld node info hnode
    have hforall : (∀ n, some node = some n → k.MayRevoke n ∨ k.NothingBelow n)
        ↔ k.MayRevoke node ∨ k.NothingBelow node := by simp
    rw [hforall]
    rcases revoke_of_some mapper hk hnode with ⟨heq, hnot⟩ | ⟨⟨k', heq⟩, hmay⟩
    · rw [heq]
      constructor
      · rintro ⟨hunaffected, -⟩
        exact .inr (nothingBelow_of_unaffected hk (hunaffected ⟨_, rfl⟩))
      · intro hcond
        have hbelow := hcond.resolve_left fun hmay ↦ hnot (hiff.mpr hmay)
        refine ⟨fun _ ↦ ?_, fun v hv ↦ nomatch hv⟩
        dsimp only
        rw [hbelow.selectiveRevoke hk]
        exact ⟨.refl k, fun _ ↦ rfl⟩
    · rw [heq]
      refine iff_of_true ⟨?_, fun v _ ↦ ⟨node, rfl, hiff.mp hmay⟩⟩ (Or.inl (hiff.mp hmay))
      rintro ⟨s, hs⟩
      cases hs

/-! ### A handle without `MANAGE` -/

/-- An arena with a domain, a space, an address space and a memory object. -/
def fourObjects : ObjectArena :=
  ⟨[⟨1, .live .resourceDomain ⟨⟨0, 1⟩⟩⟩, ⟨1, .live .capabilitySpace ⟨⟨0, 1⟩⟩⟩,
    ⟨1, .live .addressSpace ⟨⟨0, 1⟩⟩⟩, ⟨1, .live .memoryObject ⟨⟨0, 1⟩⟩⟩], 8, none⟩

/-- One empty space of one domain. -/
def oneSpace : CapState where
  system := ⟨[], 8, none⟩
  spaces := Registry.empty.insert ⟨1, 1⟩ ⟨⟨⟨0, 1⟩⟩, [], 8, none⟩
  domains := Registry.empty.insert ⟨0, 1⟩ (ResourceDomain.new ⟨⟨0, 1⟩⟩ ⟨8, 8, 65536⟩)

theorem oneSpace_initial : oneSpace.Initial := by
  refine ⟨⟨8, rfl⟩, fun k space hk ↦ ?_, fun d dom hd ↦ ?_⟩
  · refine ⟨ResourceDomain.new ⟨⟨0, 1⟩⟩ ⟨8, 8, 65536⟩, 8, ?_⟩
    simp only [oneSpace, get_insert, get_empty] at hk
    grind [CapabilitySpace.tryNew, ResourceDomain.new]
  · simp only [oneSpace, get_insert, get_empty] at hd
    exact ⟨⟨8, 8, 65536⟩, by grind⟩

theorem fourObjects_wf : fourObjects.Wf := ⟨by decide, by decide⟩

/-- Slot 0 holds a memory object, to be mapped and read only. -/
def readOnly : CapState :=
  oneSpace.run [.insertRoot ⟨1, 1⟩ ⟨0, 1⟩ ⟨3, 1⟩ .memoryObject (Rights.map ||| Rights.read)
    fourObjects]

/-- Slot 1 holds a handle derived from it. -/
def readOnlyDerived : CapState :=
  readOnly.run [.derive ⟨1, 1⟩ (Handle.fromParts 0 1) ⟨1, 1⟩ ⟨0, 1⟩ Rights.read fourObjects]

/-- A kernel with one memory object and nothing mapped. -/
def unmappedKernel (caps : CapState) : Kernel :=
  { bare caps fourObjects ⟨[true, true, true, true], [⟨⟨0x100000, 0x104000⟩, 0⟩], 4⟩ with
    memoryObjects := Registry.empty.insert ⟨3, 1⟩
      ⟨⟨⟨0, 1⟩⟩, .anonymous, [0x102000, 0x103000], 0x2000, 2, 0, 0⟩ }

/-- A request to revoke slot 0. -/
def readOnlyRequest : RevokeRequest := ⟨⟨1, 1⟩, Handle.fromParts 0 1, 0⟩

theorem unmappedKernel_wf {caps : CapState} (h : caps.Wf) : (unmappedKernel caps).Wf := by
  refine ⟨h, fourObjects_wf, fun id m h ↦ ?_, fun id m h ↦ ?_, fun id f h ↦ ?_⟩
  · exact nomatch get_empty.symm.trans h
  · simp only [unmappedKernel, get_insert, get_empty] at h
    split_ifs at h with hid
    subst hid
    rfl
  · exact nomatch get_empty.symm.trans h

/-- The call is refused, and the handle derived from the target is revoked. -/
theorem revoke_unauthorised_flags :
    ((unmappedKernel readOnlyDerived).revoke Mapper.walk readOnlyRequest).1 = .fail .internalError
      ∧ ¬ (unmappedKernel readOnlyDerived).Unaffected
        ((unmappedKernel readOnlyDerived).revoke Mapper.walk readOnlyRequest).2 := by
  refine ⟨by decide +kernel, fun h ↦ ?_⟩
  have hflag := congrArg (Option.map Grant.revoked) (h.grants ⟨1, 1⟩)
  have hafter : (((unmappedKernel readOnlyDerived).revoke Mapper.walk
      readOnlyRequest).2.caps.system.grants ⟨1, 1⟩).map Grant.revoked = some true := by
    decide +kernel
  have hbefore : ((unmappedKernel readOnlyDerived).caps.system.grants ⟨1, 1⟩).map Grant.revoked
      = some false := by decide +kernel
  rw [hafter, hbefore] at hflag
  cases hflag

/-- The same request before anything is derived is refused without a trace. -/
theorem revoke_unauthorised_leaf :
    ((unmappedKernel readOnly).revoke Mapper.walk readOnlyRequest).1 = .fail .internalError
      ∧ (unmappedKernel readOnly).Unaffected
        ((unmappedKernel readOnly).revoke Mapper.walk readOnlyRequest).2 := by
  have hfail : ((unmappedKernel readOnly).revoke Mapper.walk readOnlyRequest).1
      = .fail .internalError := by decide +kernel
  have hnode : (unmappedKernel readOnly).revokeNode readOnlyRequest = some ⟨0, 1⟩ := by
    decide +kernel
  have hwf : (unmappedKernel readOnly).Wf := unmappedKernel_wf (oneSpace_initial.wf.run _)
  refine ⟨hfail, ((revoke_unaffected_iff Mapper.walk (unmappedKernel readOnly) readOnlyRequest hwf
    ?_).mpr fun node h ↦ .inr ?_).1 ⟨_, hfail⟩⟩
  · intro node info _ _
    refine ⟨fun m p hm ↦ (nomatch Registry.get_empty.symm.trans hm), fun m hm ↦ ?_⟩
    simp only [unmappedKernel, Registry.get_insert, Registry.get_empty] at hm
    split_ifs at hm
    obtain rfl := Option.some_inj.mp hm
    decide
  · obtain rfl : ⟨0, 1⟩ = node := Option.some_inj.mp (hnode.symm.trans h)
    refine ⟨hwf.caps.system.findUnrevokedDescendant_eq_none_iff.mp (by decide +kernel),
      fun id m p hm ↦ nomatch Registry.get_empty.symm.trans hm⟩

end Kernel

end Gaxera

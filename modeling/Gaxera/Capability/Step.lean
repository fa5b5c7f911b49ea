import Gaxera.Capability.State

/-!
# What one operation does

Each operation of the capability system does one of four things: nothing, a creation, a
revocation, or a deletion. `CapStep` says which, with everything later arguments read: the slot
that was filled or emptied, the node that was created and under whose authority, and what happened
to the grants. `CapState.Wf.exec` is the one place where the operations are unfolded; it says at
the same time that the invariant is kept.
-/

namespace Gaxera

open CapabilitySystem Registry

namespace CapabilitySystem

variable {sys : CapabilitySystem} {held : NodeId → ℕ} {space : CapabilitySpace}
  {dom : ResourceDomain}

theorem uncharge_setCapabilities :
    uncharge (dom.setCapabilities (dom.usage.capabilities + 1)) = dom := by
  simp [uncharge, ResourceDomain.releaseCapability, ResourceDomain.setCapabilities]

/-- An insertion fails without a trace, or creates one node and fills one slot with it. -/
theorem Wf.insertNew (h : sys.Wf held) (hs : space.Wf) (dom : ResourceDomain)
    (info : CapabilityInfo) (parent : Option NodeId) :
    (∃ e, sys.insertNew space dom info parent = (.error e, sys, space, dom))
      ∨ ∃ node handle sys' space', sys.insertNew space dom info parent
          = (.ok handle, sys', space', dom.setCapabilities (dom.usage.capabilities + 1))
        ∧ space.domain = dom.id ∧ sys'.Wf (hold held node) ∧ Created sys node info parent sys'
        ∧ space'.Wf ∧ space.Inserted node handle space' := by
  rw [CapabilitySystem.insertNew]
  by_cases hdom : space.domain = dom.id
  swap
  · exact .inl ⟨_, if_pos hdom⟩
  rw [if_neg (not_not.mpr hdom)]
  cases hcap : space.hasCapacity with
  | false => exact .inl ⟨_, if_pos rfl⟩
  | true =>
    rw [if_neg (by simp)]
    by_cases hroom : sys.freeHead = none ∧ sys.nodes.length = sys.capacity
    · exact .inl ⟨_, if_pos hroom⟩
    rw [if_neg hroom]
    cases hcharge : dom.chargeCapability with
    | error e => exact .inl ⟨_, rfl⟩
    | ok dom' =>
      obtain ⟨-, rfl⟩ := ResourceDomain.chargeCapability_eq_ok.mp hcharge
      rcases h.allocateNode hroom info parent with ⟨e, hal⟩ | ⟨node, sys', hal, hwf, hcr⟩
      · refine .inl ⟨e, ?_⟩
        dsimp only
        rw [hal]
        dsimp only
        rw [uncharge_setCapabilities]
      · right
        obtain ⟨handle, space', hins, hwf', hinserted⟩ := hs.insert hcap node
        refine ⟨node, handle, sys', space', ?_, hdom, hwf, hcr, hwf', hinserted⟩
        rw [hal]
        simp only [hins]

theorem exists_hold {node : NodeId} (h : held node ≠ 0) :
    ∃ held', held = hold held' node := by
  refine ⟨fun j ↦ held j - if j = node then 1 else 0, ?_⟩
  funext j
  rw [hold]
  by_cases hj : j = node
  · subst hj
    simp
    omega
  · simp [hj]

/-- A deletion fails without a trace, or empties one slot and releases the node it held. -/
theorem Wf.delete (h : sys.Wf held) (hs : space.Wf) (handle : Handle)
    (hheld : ∀ node, space.holders node ≤ held node)
    (husage : space.domain = dom.id → space.occupied ≤ dom.usage.capabilities) :
    (∃ e, sys.delete space dom handle = (.error e, sys, space, dom)
        ∧ ¬ (space.domain = dom.id ∧ ∃ node, space.nodeFor handle = .ok node))
      ∨ ∃ node sys' space' held', sys.delete space dom handle
          = (.ok (), sys', space', dom.setCapabilities (dom.usage.capabilities - 1))
        ∧ space.domain = dom.id ∧ sys'.Wf held' ∧ held = hold held' node
        ∧ Restricts sys.grants sys'.grants ∧ sys'.capacity = sys.capacity
        ∧ space'.Wf ∧ space.Removed handle node space' := by
  rw [CapabilitySystem.delete]
  by_cases hdom : space.domain = dom.id
  swap
  · exact .inl ⟨_, if_pos hdom, fun hc ↦ hdom hc.1⟩
  rw [if_neg (not_not.mpr hdom)]
  cases hrem : space.remove handle with
  | error e =>
    refine .inl ⟨_, rfl, ?_⟩
    rintro ⟨-, node, hnode⟩
    rw [CapabilitySpace.remove] at hrem
    rw [CapabilitySpace.nodeFor] at hnode
    cases hres : space.resolve handle <;> simp [hres, Except.map] at hrem hnode
  | ok r =>
    obtain ⟨node, space'⟩ := r
    obtain ⟨hwf', hremoved⟩ := hs.remove hrem
    have hocc := hremoved.occupied
    have husage' := husage hdom
    have hrel : dom.releaseCapability
        = .ok (dom.setCapabilities (dom.usage.capabilities - 1)) :=
      ResourceDomain.releaseCapability_eq_ok.mpr ⟨by omega, rfl⟩
    have hnode : held node ≠ 0 := by
      have h₁ := hremoved.holders node
      have h₂ := hheld node
      rw [if_pos rfl] at h₁
      omega
    obtain ⟨held', rfl⟩ := exists_hold hnode
    obtain ⟨sys', heq, hwf, hres, hcap⟩ := h.releaseNode
    refine .inr ⟨node, sys', space', held', ?_, hdom, hwf, rfl, hres, hcap, hwf', hremoved⟩
    simp only [hrel, heq]

end CapabilitySystem

/-! ## The effect of an operation on the state -/

/-- The space an inserting operation inserts into. -/
def CapOp.target : CapOp → Option ObjectId
  | .insertRoot target .. => some target
  | .insertDescendant _ target .. => some target
  | .derive _ _ target .. => some target
  | .commitTransfer _ _ target .. => some target
  | .revoke .. => none
  | .revokeOneDescendant .. => none
  | .delete .. => none

/-- The new node is derived, with rights among those of the node that `handle` resolves to. -/
def CapState.Derives (st : CapState) (source : ObjectId) (handle : Handle) (rights : Rights)
    (objects : ObjectArena) (info : CapabilityInfo) (parent : Option NodeId) : Prop :=
  ∃ space node parentInfo, st.spaces.get source = some space ∧ space.nodeFor handle = .ok node
    ∧ st.system.validateNode node objects = .ok parentInfo
    ∧ rights.isSubsetOf parentInfo.rights = true
    ∧ info = { parentInfo with rights := rights } ∧ parent = some node

/-- On what authority an operation creates a node that grants `info`. -/
def CapOp.Authorises (op : CapOp) (st : CapState) (info : CapabilityInfo)
    (parent : Option NodeId) : Prop :=
  match op with
  | .insertRoot _ _ object objectType rights _ =>
    info = ⟨object, objectType, rights⟩ ∧ parent = none
  | .insertDescendant node _ _ object objectType rights objects =>
    info = ⟨object, objectType, rights⟩ ∧ parent = some node
      ∧ ∃ parentInfo, st.system.validateNode node objects = .ok parentInfo
        ∧ rights.isSubsetOf parentInfo.rights = true
  | .derive source handle _ _ rights objects => st.Derives source handle rights objects info parent
  | .commitTransfer source prepared _ _ objects =>
    st.Derives source prepared.sourceHandle prepared.requestedRights objects info parent
  | .revoke .. => False
  | .revokeOneDescendant .. => False
  | .delete .. => False

/-- What one operation does. -/
inductive CapStep (st : CapState) (op : CapOp) : CapResult × CapState → Prop
  | unchanged {result : CapResult} {st' : CapState}
      (failed : result.handle = none) (system : st'.system = st.system)
      (spaces : ∀ k, st'.spaces.get k = st.spaces.get k)
      (domains : ∀ d, st'.domains.get d = st.domains.get d) : CapStep st op (result, st')
  | created {target domain : ObjectId} {dom : ResourceDomain} {space space' : CapabilitySpace}
      {node : NodeId} {handle : Handle} {info : CapabilityInfo} {parent : Option NodeId}
      {st' : CapState}
      (is_target : op.target = some target) (get : st.spaces.get target = some space)
      (spaces : ∀ k, st'.spaces.get k = if k = target then some space' else st.spaces.get k)
      (inserted : space.Inserted node handle space')
      (created : st.system.Created node info parent st'.system)
      (authorised : op.Authorises st info parent)
      (domain_get : st.domains.get domain = some dom) (domain_eq : space.domain = dom.id)
      (domains : ∀ d, st'.domains.get d = if d = domain
        then some (dom.setCapabilities (dom.usage.capabilities + 1)) else st.domains.get d) :
      CapStep st op (.inserted (.ok handle), st')
  | revoked {node : NodeId} {n : LiveNode} {result : CapResult} {st' : CapState}
      (failed : result.handle = none)
      (live : st.system.liveNode node = some n)
      (system : st'.system = st.system.modifyLive node fun n ↦ { n with revoked := true })
      (spaces : ∀ k, st'.spaces.get k = st.spaces.get k)
      (domains : ∀ d, st'.domains.get d = st.domains.get d) (is_revoke : op.target = none) :
      CapStep st op (result, st')
  | deleted {target domain : ObjectId} {dom : ResourceDomain} {space space' : CapabilitySpace}
      {node : NodeId} {handle : Handle} {st' : CapState} (get : st.spaces.get target = some space)
      (spaces : ∀ k, st'.spaces.get k = if k = target then some space' else st.spaces.get k)
      (removed : space.Removed handle node space')
      (restricts : CapabilitySystem.Restricts st.system.grants st'.system.grants)
      (capacity : st'.system.capacity = st.system.capacity)
      (is_delete : op = .delete target domain handle)
      (domain_get : st.domains.get domain = some dom) (domain_eq : space.domain = dom.id)
      (domains : ∀ d, st'.domains.get d = if d = domain
        then some (dom.setCapabilities (dom.usage.capabilities - 1)) else st.domains.get d) :
      CapStep st op (.deleted (.ok ()), st')

theorem CapStep.isSome_spaces {st st' : CapState} {op : CapOp} {result : CapResult}
    (h : CapStep st op (result, st')) (j : ObjectId) :
    (st'.spaces.get j).isSome = (st.spaces.get j).isSome := by
  have hwritten : ∀ {target : ObjectId} {space space' : CapabilitySpace},
      st.spaces.get target = some space →
      st'.spaces.get j = (if j = target then some space' else st.spaces.get j) →
      (st'.spaces.get j).isSome = (st.spaces.get j).isSome := by
    intro target space space' hget heq
    rw [heq]
    by_cases hj : j = target
    · rw [if_pos hj, hj, hget]
      rfl
    · rw [if_neg hj]
  cases h with
  | unchanged _ _ spaces => rw [spaces]
  | created _ get spaces => exact hwritten get (spaces j)
  | revoked _ _ _ spaces => rw [spaces]
  | deleted get spaces => exact hwritten get (spaces j)

namespace CapState

variable {st : CapState} {target domain : ObjectId} {space space' : CapabilitySpace}
  {dom : ResourceDomain} {sys' : CapabilitySystem}

theorem holders_modify (hget : st.spaces.get target = some space) (sys' : CapabilitySystem)
    (space' : CapabilitySpace) (domains : Registry ResourceDomain) (node : NodeId) :
    holders ⟨sys', st.spaces.modify target fun _ ↦ space', domains⟩ node + space.holders node
      = st.holders node + space'.holders node :=
  census_modify (fun _ space ↦ space.holders node) hget

theorem charged_modify (hget : st.spaces.get target = some space)
    (hdom : space'.domain = space.domain) (sys' : CapabilitySystem)
    (domains : Registry ResourceDomain) (d : ResourceDomainId) :
    charged ⟨sys', st.spaces.modify target fun _ ↦ space', domains⟩ d
        + (if space.domain = d then space.occupied else 0)
      = st.charged d + if space.domain = d then space'.occupied else 0 := by
  have := census_modify (fun _ (space : CapabilitySpace) ↦
    if space.domain = d then space.occupied else 0) (g := fun _ ↦ space') hget
  rwa [hdom] at this

theorem holders_le (hget : st.spaces.get target = some space) (node : NodeId) :
    space.holders node ≤ st.holders node :=
  le_census (fun _ (space : CapabilitySpace) ↦ space.holders node) hget

theorem occupied_le_charged (hget : st.spaces.get target = some space) :
    space.occupied ≤ st.charged space.domain := by
  have := le_census (fun _ (sp : CapabilitySpace) ↦
    if sp.domain = space.domain then sp.occupied else 0) hget
  rwa [if_pos rfl] at this

theorem Wf.occupied_le_usage (h : st.Wf) (hspace : st.spaces.get target = some space)
    (hdom : st.domains.get domain = some dom) (hmatch : space.domain = dom.id) :
    space.occupied ≤ dom.usage.capabilities := by
  obtain ⟨hid, hle⟩ := h.domains domain dom hdom
  have := occupied_le_charged hspace
  rw [hmatch, hid] at this
  omega

/-- The invariant after an operation has written to the system, one space and one domain. -/
theorem Wf.writeBack {usage : ℕ} (h : st.Wf) (hspace : st.spaces.get target = some space)
    (hdom : st.domains.get domain = some dom)
    (hsys : sys'.Wf
      (holders ⟨sys', st.spaces.modify target fun _ ↦ space',
        st.domains.modify domain fun _ ↦ dom.setCapabilities usage⟩))
    (hwf : space'.Wf) (hid : space'.domain = space.domain) (hmatch : space.domain = dom.id)
    (husage : dom.usage.capabilities + space'.occupied = usage + space.occupied) :
    Wf ⟨sys', st.spaces.modify target fun _ ↦ space',
      st.domains.modify domain fun _ ↦ dom.setCapabilities usage⟩ := by
  obtain ⟨hdomid, hcharged⟩ := h.domains domain dom hdom
  refine ⟨hsys, fun k sp hk ↦ ?_, fun d dm hd ↦ ?_⟩
  · rw [get_modify] at hk
    by_cases hkt : k = target
    · rw [if_pos hkt, hspace] at hk
      obtain rfl : space' = sp := by simpa using hk
      exact hwf
    · rw [if_neg hkt] at hk
      exact h.spaces k sp hk
  · rw [get_modify] at hd
    have hmod := charged_modify hspace hid sys'
      (st.domains.modify domain fun _ ↦ dom.setCapabilities usage) ⟨d⟩
    by_cases hdd : d = domain
    · subst hdd
      rw [if_pos rfl, hdom] at hd
      obtain rfl : dom.setCapabilities usage = dm := by simpa using hd
      refine ⟨hdomid, ?_⟩
      rw [if_pos (hmatch.trans hdomid), if_pos (hmatch.trans hdomid)] at hmod
      simp only [ResourceDomain.setCapabilities_usage_capabilities]
      omega
    · rw [if_neg hdd] at hd
      obtain ⟨hid', hle⟩ := h.domains d dm hd
      have hne : space.domain ≠ ⟨d⟩ := by
        rw [hmatch, hdomid]
        simpa using Ne.symm hdd
      rw [if_neg hne, if_neg hne] at hmod
      exact ⟨hid', by omega⟩

theorem get_modify_self {T : Type*} {r : Registry T} {id : ObjectId} {x : T}
    (h : r.get id = some x) (k : ObjectId) : (r.modify id fun _ ↦ x).get k = r.get k := by
  rw [get_modify, h]
  by_cases hk : k = id
  · rw [if_pos hk, hk, h]
    rfl
  · rw [if_neg hk]

theorem get_modify_const {T : Type*} {r : Registry T} {id : ObjectId} {x y : T}
    (h : r.get id = some x) (k : ObjectId) :
    (r.modify id fun _ ↦ y).get k = if k = id then some y else r.get k := by
  rw [get_modify, h]
  rfl

/-- The invariant, where a call has written back what it was given. -/
theorem Wf.writeBack_same (h : st.Wf) (hspace : st.spaces.get target = some space)
    (hdom : st.domains.get domain = some dom) :
    Wf ⟨st.system, st.spaces.modify target fun _ ↦ space,
      st.domains.modify domain fun _ ↦ dom⟩ := by
  have hholders : holders ⟨st.system, st.spaces.modify target fun _ ↦ space,
      st.domains.modify domain fun _ ↦ dom⟩ = st.holders := by
    funext node
    exact Nat.add_right_cancel (holders_modify hspace _ _ _ node)
  refine ⟨hholders ▸ h.system, fun k sp hk ↦ h.spaces k sp ?_, fun d dm hd ↦ ?_⟩
  · rwa [get_modify_self hspace] at hk
  · rw [get_modify_self hdom] at hd
    have := charged_modify hspace rfl st.system (st.domains.modify domain fun _ ↦ dom) ⟨d⟩
    obtain ⟨hid, hle⟩ := h.domains d dm hd
    exact ⟨hid, by omega⟩

/-- A call that fails before it comes to inserting, and then not for want of a slot, or inserts on
the authority of the operation. -/
def Calls (st : CapState) (op : CapOp)
    (call : CapabilitySpace → ResourceDomain → CapabilitySystem.Inserted) : Prop :=
  ∀ space dom, (∃ e, e ≠ .spaceFull ∧ call space dom = (.error e, st.system, space, dom))
    ∨ ∃ info parent, op.Authorises st info parent
      ∧ call space dom = st.system.insertNew space dom info parent

variable {op : CapOp}

theorem Wf.rests (h : st.Wf) {result : CapResult} (hfailed : result.handle = none) :
    st.Wf ∧ CapStep st op (result, st) :=
  ⟨h, .unchanged hfailed rfl (fun _ ↦ rfl) fun _ ↦ rfl⟩

/-- **Inserting operations** fail without a trace, or fill one slot. -/
theorem Wf.inserting {call : CapabilitySpace → ResourceDomain → Inserted} (h : st.Wf)
    (htarget : op.target = some target) (hcall : st.Calls op call) :
    (st.inserting target domain call).2.Wf ∧ CapStep st op (st.inserting target domain call) := by
  rw [CapState.inserting]
  cases hspace : st.spaces.get target with
  | none => exact h.rests rfl
  | some space =>
    cases hdom : st.domains.get domain with
    | none => exact h.rests rfl
    | some dom =>
      have hcases : (∃ e, call space dom = (.error e, st.system, space, dom))
          ∨ ∃ info parent, op.Authorises st info parent
            ∧ ∃ node handle sys' space', call space dom
                = (.ok handle, sys', space', dom.setCapabilities (dom.usage.capabilities + 1))
              ∧ space.domain = dom.id ∧ sys'.Wf (hold st.holders node)
              ∧ st.system.Created node info parent sys' ∧ space'.Wf
              ∧ space.Inserted node handle space' := by
        rcases hcall space dom with ⟨e, -, hfail⟩ | ⟨info, parent, hauth, heq⟩
        · exact .inl ⟨e, hfail⟩
        · rw [heq]
          exact (h.system.insertNew (h.spaces target space hspace) dom info parent).imp_right
            fun hins ↦ ⟨info, parent, hauth, hins⟩
      dsimp only
      rcases hcases with ⟨e, heq⟩ | ⟨info, parent, hauth, node, handle, sys', space', heq, hmatch,
        hwf, hcr, hwf', hins⟩
      · rw [heq]
        exact ⟨h.writeBack_same hspace hdom, .unchanged rfl rfl (get_modify_self hspace)
          (get_modify_self hdom)⟩
      · rw [heq]
        dsimp only
        refine ⟨h.writeBack hspace hdom ?_ hwf' hins.domain hmatch ?_,
          .created htarget hspace (get_modify_const hspace) hins hcr hauth hdom hmatch
            (get_modify_const hdom)⟩
        · convert hwf using 1
          funext j
          have h₁ := holders_modify hspace sys' space'
            (st.domains.modify domain fun _ ↦ dom.setCapabilities (dom.usage.capabilities + 1)) j
          have h₂ := hins.holders j
          rw [hold]
          omega
        · have := hins.occupied
          omega

variable {objects : ObjectArena}

theorem validateNode_ne_spaceFull {sys : CapabilitySystem} {node : NodeId} {e : CapabilityError}
    (h : sys.validateNode node objects = .error e) : e ≠ .spaceFull := by
  rw [validateNode] at h
  generalize sys.capacity = remaining, (none : Option CapabilityInfo) = leaf at h
  induction remaining generalizing leaf node with
  | zero | succ =>
    rw [validateLoop, validateTurn] at h
    grind

variable {rights : Rights}

private theorem derive_calls {source : ObjectId} {src : CapabilitySpace} {handle : Handle}
    (hsrc : st.spaces.get source = some src)
    (hop : op.Authorises st = st.Derives source handle rights objects) :
    st.Calls op fun space dom ↦ st.system.derive src handle space dom rights objects := by
  intro space dom
  dsimp only
  rw [derive, hop]
  cases hnode : src.nodeFor handle with
  | error e =>
    refine .inl ⟨e, ?_, rfl⟩
    rw [CapabilitySpace.nodeFor, CapabilitySpace.resolve] at hnode
    grind [Except.map]
  | ok node =>
    dsimp only
    cases hval : st.system.validateNode node objects with
    | error e => exact .inl ⟨e, validateNode_ne_spaceFull hval, rfl⟩
    | ok info =>
      dsimp only
      cases hsub : rights.isSubsetOf info.rights with
      | false => exact .inl ⟨.rightsEscalation, by simp, if_pos rfl⟩
      | true =>
        exact .inr ⟨_, _, ⟨src, node, info, hsrc, hnode, hval, hsub, rfl, rfl⟩, if_neg (by simp)⟩

private theorem insertDescendant_calls {node : NodeId} {object : ObjectId}
    {objectType : ObjectType} :
    st.Calls (.insertDescendant node target domain object objectType rights objects)
      fun space dom ↦
        st.system.insertDescendant node space dom object objectType rights objects := by
  intro space dom
  dsimp only
  rw [insertDescendant]
  by_cases hdom : space.domain = dom.id
  swap
  · exact .inl ⟨.domainMismatch, nofun, if_pos hdom⟩
  rw [if_neg (not_not.mpr hdom)]
  by_cases htype : objects.objectType object = some objectType
  swap
  · exact .inl ⟨.objectDestroyed, nofun, if_pos htype⟩
  rw [if_neg (not_not.mpr htype)]
  cases hval : st.system.validateNode node objects with
  | error e => exact .inl ⟨e, validateNode_ne_spaceFull hval, rfl⟩
  | ok info =>
    dsimp only
    cases hsub : rights.isSubsetOf info.rights with
    | false => exact .inl ⟨.rightsEscalation, nofun, if_pos rfl⟩
    | true => exact .inr ⟨_, _, ⟨rfl, rfl, info, hval, hsub⟩, if_neg (by simp)⟩

private theorem insertRoot_calls {object : ObjectId} {objectType : ObjectType} :
    st.Calls (.insertRoot target domain object objectType rights objects)
      fun space dom ↦ st.system.insertRoot space dom object objectType rights objects := by
  intro space dom
  dsimp only
  rw [insertRoot]
  by_cases hdom : space.domain = dom.id
  swap
  · exact .inl ⟨.domainMismatch, nofun, if_pos hdom⟩
  rw [if_neg (not_not.mpr hdom)]
  by_cases htype : objects.objectType object = some objectType
  swap
  · exact .inl ⟨.objectDestroyed, nofun, if_pos htype⟩
  exact .inr ⟨_, _, ⟨rfl, rfl⟩, if_neg (not_not.mpr htype)⟩

theorem exec_eq_inserting (st : CapState) (htarget : op.target = some target) :
    st.exec op = (.absent, st)
      ∨ ∃ domain call, st.Calls op call ∧ st.exec op = st.inserting target domain call := by
  cases op with
  | insertRoot target' domain object objectType rights objects =>
    obtain rfl : target' = target := Option.some_inj.mp htarget
    exact .inr ⟨domain, _, insertRoot_calls, rfl⟩
  | insertDescendant node target' domain object objectType rights objects =>
    obtain rfl : target' = target := Option.some_inj.mp htarget
    exact .inr ⟨domain, _, insertDescendant_calls, rfl⟩
  | derive source _ target' domain _ _ | commitTransfer source _ target' domain _ =>
    obtain rfl : target' = target := Option.some_inj.mp htarget
    rw [CapState.exec]
    cases hsrc : st.spaces.get source with
    | none => exact .inl rfl
    | some src => exact .inr ⟨domain, _, derive_calls hsrc rfl, rfl⟩
  | revoke | revokeOneDescendant | delete => cases htarget

theorem Wf.exec_of_target (h : st.Wf) (htarget : op.target = some target) :
    (st.exec op).2.Wf ∧ CapStep st op (st.exec op) := by
  rcases exec_eq_inserting st htarget with heq | ⟨domain, call, hcall, heq⟩
  · rw [heq]
    exact h.rests rfl
  · rw [heq]
    exact h.inserting htarget hcall

theorem Wf.setRevoked (h : st.Wf) (node : NodeId) :
    Wf { st with system := st.system.modifyLive node fun n ↦ { n with revoked := true } } :=
  ⟨h.system.modifyLive (fun _ ↦ rfl) (fun _ ↦ rfl), h.spaces, h.domains⟩

theorem revoke_cases (st : CapState) (space : CapabilitySpace) (handle : Handle)
    (objects : ObjectArena) :
    (∃ e, st.system.revoke space handle objects = (.error e, st.system))
      ∨ ∃ node n info, space.nodeFor handle = .ok node ∧ st.system.liveNode node = some n
        ∧ st.system.validateNode node objects = .ok info
        ∧ st.system.revoke space handle objects
          = (.ok info, st.system.modifyLive node fun n ↦ { n with revoked := true }) := by
  rw [revoke]
  cases hnode : space.nodeFor handle with
  | error e => exact .inl ⟨e, rfl⟩
  | ok node =>
    dsimp only
    cases hval : st.system.validateNode node objects with
    | error e => exact .inl ⟨e, rfl⟩
    | ok info =>
      dsimp only
      cases hm : info.rights.contains Rights.manage with
      | false => exact .inl ⟨_, if_pos rfl⟩
      | true =>
        rw [if_neg (by simp)]
        cases hlive : st.system.liveNode node with
        | none => exact .inl ⟨_, rfl⟩
        | some n => exact .inr ⟨node, n, info, rfl, hlive, hval, rfl⟩

/-- **Deleting a handle** fails without a trace, or empties its slot. -/
theorem Wf.exec_delete (h : st.Wf) (target domain : ObjectId) (handle : Handle) :
    let r := st.exec (.delete target domain handle)
    r.2.Wf
    ∧ ((r.1 = .absent ∨ ∃ e, r.1 = .deleted (.error e)) ∧ r.2.system = st.system
        ∧ (∀ k, r.2.spaces.get k = st.spaces.get k) ∧ (∀ d, r.2.domains.get d = st.domains.get d)
      ∨ ∃ space space' node dom, r.1 = .deleted (.ok ()) ∧ st.spaces.get target = some space
        ∧ (∀ k, r.2.spaces.get k = if k = target then some space' else st.spaces.get k)
        ∧ space.Removed handle node space'
        ∧ Restricts st.system.grants r.2.system.grants
        ∧ r.2.system.capacity = st.system.capacity
        ∧ st.domains.get domain = some dom ∧ space.domain = dom.id
        ∧ ∀ d, r.2.domains.get d = if d = domain
          then some (dom.setCapabilities (dom.usage.capabilities - 1)) else st.domains.get d) := by
  dsimp only
  rw [CapState.exec]
  cases hspace : st.spaces.get target with
  | none => exact ⟨h, .inl ⟨Or.inl rfl, rfl, fun _ ↦ rfl, fun _ ↦ rfl⟩⟩
  | some sp =>
    cases hdom : st.domains.get domain with
    | none => exact ⟨h, .inl ⟨Or.inl rfl, rfl, fun _ ↦ rfl, fun _ ↦ rfl⟩⟩
    | some dom =>
      dsimp only
      have husage := h.occupied_le_usage hspace hdom
      rcases h.system.delete (h.spaces target sp hspace) handle (holders_le hspace) husage with
        ⟨e, heq, -⟩ | ⟨node, sys', space', held', heq, hmatch, hwf, hheld, hres, hcap, hwf', hrem⟩
      · rw [heq]
        exact ⟨h.writeBack_same hspace hdom, .inl ⟨Or.inr ⟨e, rfl⟩, rfl, get_modify_self hspace,
          get_modify_self hdom⟩⟩
      · rw [heq]
        dsimp only
        refine ⟨h.writeBack hspace hdom ?_ hwf' hrem.domain hmatch ?_,
          Or.inr ⟨sp, space', node, dom, rfl, rfl, get_modify_const hspace, hrem, hres, hcap, rfl,
            hmatch, get_modify_const hdom⟩⟩
        · convert hwf using 1
          funext j
          have h₁ := holders_modify hspace sys' space'
            (st.domains.modify domain fun _ ↦ dom.setCapabilities (dom.usage.capabilities - 1)) j
          have h₂ := hrem.holders j
          have h₃ := congrFun hheld j
          rw [hold] at h₃
          omega
        · have := hrem.occupied
          have := husage hmatch
          omega

/-- **One operation** keeps the invariant and does one of the four things. -/
theorem Wf.exec (h : st.Wf) (op : CapOp) :
    (st.exec op).2.Wf ∧ CapStep st op (st.exec op) := by
  cases op with
  | insertRoot | insertDescendant | derive | commitTransfer => exact h.exec_of_target rfl
  | revoke space handle objects =>
    rw [CapState.exec]
    cases hspace : st.spaces.get space with
    | none => exact h.rests rfl
    | some sp =>
      dsimp only
      rcases revoke_cases st sp handle objects with
        ⟨e, heq⟩ | ⟨node, n, info, -, hlive, -, heq⟩
      · rw [heq]
        exact h.rests rfl
      · rw [heq]
        exact ⟨h.setRevoked node, .revoked rfl hlive rfl (fun _ ↦ rfl) (fun _ ↦ rfl) rfl⟩
  | revokeOneDescendant root =>
    rw [CapState.exec, revokeOneDescendant]
    cases hfind : st.system.findUnrevokedDescendant root with
    | none => exact h.rests rfl
    | some node =>
      dsimp only
      cases hlive : st.system.liveNode node with
      | none => exact h.rests rfl
      | some n => exact ⟨h.setRevoked node, .revoked rfl hlive rfl (fun _ ↦ rfl) (fun _ ↦ rfl) rfl⟩
  | delete space domain handle =>
    obtain ⟨hwf, hcases⟩ := h.exec_delete space domain handle
    refine ⟨hwf, ?_⟩
    generalize hr : st.exec (.delete space domain handle) = r at hcases
    obtain ⟨result, st'⟩ := r
    rcases hcases with ⟨hfail, hsys, hspaces, hdomains⟩ | ⟨sp, sp', node, dom, rfl, hget, hspaces,
      hrem, hres, hcap, hdom, hmatch, hdomains⟩
    · refine .unchanged ?_ hsys hspaces hdomains
      rcases hfail with rfl | ⟨e, rfl⟩ <;> rfl
    · exact .deleted hget hspaces hrem hres hcap rfl hdom hmatch hdomains

theorem Wf.run (h : st.Wf) (ops : List CapOp) : (st.run ops).Wf :=
  run_induction (fun _ op h ↦ (h.exec op).1) h ops

end CapState

end Gaxera

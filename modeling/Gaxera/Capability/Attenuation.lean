import Gaxera.Capability.Revocation

/-!
# Authority only attenuates

A node grants no more rights than the node it was derived from. The comparison is made once, when
the node is created, against a parent that may have lost its handle since and lives on only for the
sake of its children; so the statement is about every live node of every reachable state, and it
needs the fact that a parent is never freed and reused below a child.

To say what the rights at the root of a chain go back to, a run is accompanied by a record of which
operation created each node. It is written when an insertion returns a handle, for the node that the
handle resolves to.
-/

namespace Gaxera

open CapabilitySystem Function

/-- The operation that created each node. -/
abbrev Provenance := NodeId → Option CapOp

namespace CapOp

/-- The operations that pass on what a handle already grants. -/
def isDerivation : CapOp → Bool
  | derive .. => true
  | commitTransfer .. => true
  | _ => false

end CapOp

namespace CapState

/-- The node that a fresh handle resolves to. -/
def createdNode (st' : CapState) (op : CapOp) (result : CapResult) : Option NodeId :=
  match op.target, result.handle with
  | some k, some handle =>
    match st'.spaces.get k with
    | some space => (space.nodeFor handle).toOption
    | none => none
  | _, _ => none

/-- The record, after one more operation. -/
def record (st : CapState) (log : Provenance) (op : CapOp) : Provenance :=
  match createdNode (st.exec op).2 op (st.exec op).1 with
  | some node => update log node (some op)
  | none => log

/-- The record of a run. -/
def provenance (st : CapState) (log : Provenance) : List CapOp → Provenance
  | [] => log
  | op :: ops => provenance (st.exec op).2 (st.record log op) ops

/-- What one node grants is covered: by the operation that inserted it, if it is a root, and by
its parent otherwise. -/
def Covered (g : NodeId → Option Grant) (log : Provenance) (id : NodeId) (x : Grant) : Prop :=
  ∃ op, log id = some op ∧
    match x.parent with
    | none => ∃ target domain objects,
        op = .insertRoot target domain x.info.object x.info.objectType x.info.rights objects
    | some p => ∃ y, g p = some y ∧ x.info.rights.isSubsetOf y.info.rights = true
        ∧ (op.isDerivation = true → x.info.object = y.info.object
          ∧ x.info.objectType = y.info.objectType)

/-- Every live node is covered. -/
def Attenuated (g : NodeId → Option Grant) (log : Provenance) : Prop :=
  ∀ id x, g id = some x → Covered g log id x

end CapState

namespace CapabilitySystem

variable {sys : CapabilitySystem} {id : NodeId} {objects : ObjectArena}

theorem validateLoop_eq_ok {remaining : ℕ} {leaf : Option CapabilityInfo} {info : CapabilityInfo}
    (h : sys.validateLoop objects remaining leaf id = .ok info) :
    ∃ y, sys.liveNode id = some y ∧ info = leaf.getD y.info
      ∧ objects.objectType info.object = some info.objectType := by
  induction remaining generalizing leaf id with
  | zero =>
    rw [validateLoop] at h
    split at h <;> cases h
  | succ remaining ih =>
    rw [validateLoop] at h
    cases hturn : sys.validateTurn leaf id with
    | error e => simp [hturn] at h
    | ok r =>
      obtain ⟨leaf', o⟩ := r
      obtain ⟨y, hy, -, rfl, ho⟩ := validateTurn_eq_ok.mp hturn
      rw [hturn] at h
      cases o with
      | none =>
        dsimp only at h
        split at h
        · cases h
        · next hobj =>
          obtain rfl : leaf.getD y.info = info := by simpa using h
          exact ⟨y, hy, rfl, not_not.mp hobj⟩
      | some p =>
        obtain ⟨_, _, hinfo, hobj⟩ := ih h
        exact ⟨y, hy, hinfo, hobj⟩

theorem validateNode_eq_ok {info : CapabilityInfo} (h : sys.validateNode id objects = .ok info) :
    ∃ x, sys.grants id = some x ∧ x.info = info
      ∧ objects.objectType info.object = some info.objectType := by
  obtain ⟨y, hy, rfl, hobj⟩ := validateLoop_eq_ok h
  exact ⟨y.grant, grants_eq_some.mpr ⟨y, hy, rfl⟩, rfl, hobj⟩

end CapabilitySystem

/-! ## The record is kept -/

namespace CapStep

variable {st st' : CapState} {op : CapOp} {result : CapResult}

theorem exists_grant (h : CapStep st op (result, st')) (hnone : result.handle = none) {j : NodeId}
    {x' : Grant} (hx' : st'.system.grants j = some x') : ∃ x, st.system.grants j = some x := by
  cases h with
  | unchanged _ system _ => exact ⟨x', system ▸ hx'⟩
  | created => cases hnone
  | @revoked node _ _ _ _ live system _ =>
    obtain ⟨y', hy', -⟩ := grants_eq_some.mp hx'
    rw [system, liveNode_modifyLive] at hy'
    by_cases hj : j = node
    · exact ⟨_, grants_eq_some.mpr ⟨_, hj ▸ live, rfl⟩⟩
    · rw [update_of_ne hj] at hy'
      exact ⟨_, grants_eq_some.mpr ⟨y', hy', rfl⟩⟩
  | deleted _ _ _ restricts _ =>
    rcases restricts j with hj | hj
    · exact ⟨x', hj ▸ hx'⟩
    · rw [hj] at hx'
      cases hx'

end CapStep

namespace CapState

variable {st st' : CapState} {log : Provenance} {op : CapOp} {info : CapabilityInfo}
  {parent : Option NodeId}

theorem covered_of_authorises {node : NodeId} (hauth : op.Authorises st info parent) :
    Covered st.system.grants (update log node (some op)) node ⟨info, parent, false⟩ := by
  refine ⟨op, update_self .., ?_⟩
  have derives : ∀ {source handle rights objects},
      st.Derives source handle rights objects info parent →
      ∃ p, parent = some p ∧ ∃ y, st.system.grants p = some y
        ∧ info.rights.isSubsetOf y.info.rights = true ∧ info.object = y.info.object
        ∧ info.objectType = y.info.objectType := by
    rintro source handle rights objects ⟨space, p, parentInfo, -, -, hval, hsub, rfl, rfl⟩
    obtain ⟨y, hy, rfl, -⟩ := validateNode_eq_ok hval
    exact ⟨p, rfl, y, hy, hsub, rfl, rfl⟩
  cases op with
  | insertRoot target domain object objectType rights objects =>
    obtain ⟨rfl, rfl⟩ := hauth
    exact ⟨target, domain, objects, rfl⟩
  | insertDescendant p target domain object objectType rights objects =>
    obtain ⟨rfl, rfl, parentInfo, hval, hsub⟩ := hauth
    obtain ⟨y, hy, rfl, -⟩ := validateNode_eq_ok hval
    exact ⟨y, hy, hsub, by simp [CapOp.isDerivation]⟩
  | derive | commitTransfer =>
    obtain ⟨p, rfl, y, hy, hsub, hobj, htype⟩ := derives hauth
    exact ⟨y, hy, hsub, fun _ ↦ ⟨hobj, htype⟩⟩
  | revoke | revokeOneDescendant | delete => exact absurd hauth id

/-- What covers a node goes on covering it, while the node and its parent keep what they say. -/
theorem Covered.mono {g g' : NodeId → Option Grant} {log' : Provenance} {id : NodeId} {x x' : Grant}
    (h : Covered g log id x) (hlog : log' id = log id) (hinfo : x'.info = x.info)
    (hparent : x'.parent = x.parent)
    (habove : ∀ p y, x.parent = some p → g p = some y → ∃ y', g' p = some y' ∧ y'.info = y.info) :
    Covered g' log' id x' := by
  obtain ⟨op, hop, hcov⟩ := h
  refine ⟨op, hlog.trans hop, ?_⟩
  rw [hparent, hinfo]
  cases hp : x.parent with
  | none =>
    rw [hp] at hcov
    exact hcov
  | some p =>
    rw [hp] at hcov
    obtain ⟨y, hy, hsub, hder⟩ := hcov
    obtain ⟨y', hy', hyinfo⟩ := habove p y hp hy
    exact ⟨y', hy', hyinfo ▸ hsub, hyinfo ▸ hder⟩

theorem Wf.attenuated_exec (h : st.Wf) (ha : Attenuated st.system.grants log) (op : CapOp) :
    Attenuated (st.exec op).2.system.grants (st.record log op) := by
  obtain ⟨h', hstep⟩ := h.exec op
  rw [record]
  generalize st.exec op = e at h' hstep ⊢
  obtain ⟨result, st'⟩ := e
  dsimp only at h' ⊢
  have hev := hstep.evolves
  -- a parent that is named by a survivor survives with it
  have above : ∀ id x x', st.system.grants id = some x → st'.system.grants id = some x' →
      ∀ p y, x.parent = some p → st.system.grants p = some y →
        ∃ y', st'.system.grants p = some y' ∧ y'.info = y.info := by
    intro id x x' hx hx' p y hp hy
    obtain ⟨y', hy'⟩ := h'.grants_parent hx' ((hev id x x' hx hx').2.1.trans hp)
    exact ⟨y', hy', (hev p y y' hy hy').1⟩
  cases hhandle : result.handle with
  | none =>
    have hlog : createdNode st' op result = none := by
      rw [createdNode, hhandle]
      cases op.target <;> rfl
    rw [hlog]
    intro id x' hx'
    obtain ⟨x, hx⟩ := hstep.exists_grant hhandle hx'
    obtain ⟨hinfo, hparent, -⟩ := hev id x x' hx hx'
    exact (ha id x hx).mono rfl hinfo hparent (above id x x' hx hx')
  | some handle =>
    cases hstep with
    | unchanged failed | revoked failed => rw [failed] at hhandle; cases hhandle
    | deleted => cases hhandle
    | @created target _ _ space space' node handle' info parent _ is_target get spaces inserted
        created authorised =>
      have hnode : createdNode st' op (.inserted (.ok handle')) = some node := by
        have hk : st'.spaces.get target = some space' := by rw [spaces, if_pos rfl]
        have hfor : space'.nodeFor handle' = .ok node := by
          rw [(h'.spaces target space' hk).nodeFor_eq_ok, inserted.slotAt, update_self]
        simp only [createdNode, is_target, CapResult.handle, hk, hfor]
        rfl
      rw [hnode]
      intro id x' hx'
      by_cases hid : id = node
      · subst hid
        obtain rfl : x' = ⟨info, parent, false⟩ := by
          rw [created.grants, update_self] at hx'
          exact (Option.some_inj.mp hx').symm
        refine (covered_of_authorises authorised).mono rfl rfl rfl fun p y hp hy ↦ ?_
        have hpid : p ≠ id := by
          rintro rfl
          simp [grants, created.fresh] at hy
        exact ⟨y, by rw [created.grants, update_of_ne hpid, hy], rfl⟩
      · have hx : st.system.grants id = some x' := by
          rwa [created.grants, update_of_ne hid] at hx'
        exact (ha id x' hx).mono (update_of_ne hid _ _) rfl rfl (above id x' x' hx hx')

theorem Wf.attenuated_run (h : st.Wf) (ha : Attenuated st.system.grants log) (ops : List CapOp) :
    Attenuated (st.run ops).system.grants (st.provenance log ops) := by
  induction ops generalizing st log with
  | nil => exact ha
  | cons op ops ih => exact ih (h.exec op).1 (h.attenuated_exec ha op)

/-! ## From a node to the root of its chain -/

/-- `m` was derived from `n` by derivations and transfers alone. -/
inductive DerivedOnly (g : NodeId → Option Grant) (log : Provenance) (n : NodeId) : NodeId → Prop
  | self : DerivedOnly g log n n
  | step {m p : NodeId} {x : Grant} {op : CapOp} (live : g m = some x) (parent : x.parent = some p)
      (recorded : log m = some op) (derivation : op.isDerivation = true)
      (above : DerivedOnly g log n p) : DerivedOnly g log n m

theorem Attenuated.rights_subset {g : NodeId → Option Grant} {n m : NodeId} {x y : Grant}
    (ha : Attenuated g log) (hd : DerivedFrom g n m) (hn : g n = some y) (hm : g m = some x) :
    x.info.rights.isSubsetOf y.info.rights = true := by
  induction hd generalizing x with
  | self =>
    obtain rfl : x = y := Option.some_inj.mp (hm.symm.trans hn)
    exact Rights.isSubsetOf_refl _
  | @step m p x' live parent above ih =>
    obtain rfl : x = x' := Option.some_inj.mp (hm.symm.trans live)
    obtain ⟨op, -, hcov⟩ := ha m x hm
    rw [parent] at hcov
    obtain ⟨z, hz, hsub, -⟩ := hcov
    exact Rights.isSubsetOf_trans hsub (ih hz)

theorem Attenuated.object_eq {g : NodeId → Option Grant} {n m : NodeId} {x y : Grant}
    (ha : Attenuated g log) (hd : DerivedOnly g log n m) (hn : g n = some y) (hm : g m = some x) :
    x.info.object = y.info.object ∧ x.info.objectType = y.info.objectType := by
  induction hd generalizing x with
  | self =>
    obtain rfl : x = y := Option.some_inj.mp (hm.symm.trans hn)
    exact ⟨rfl, rfl⟩
  | @step m p x' op live parent recorded derivation above ih =>
    obtain rfl : x = x' := Option.some_inj.mp (hm.symm.trans live)
    obtain ⟨op', hop', hcov⟩ := ha m x hm
    obtain rfl : op = op' := Option.some_inj.mp (recorded.symm.trans hop')
    rw [parent] at hcov
    obtain ⟨z, hz, -, hder⟩ := hcov
    obtain ⟨hobj, htype⟩ := hder derivation
    obtain ⟨hobj', htype'⟩ := ih hz
    exact ⟨hobj.trans hobj', htype.trans htype'⟩

theorem Wf.exists_root (h : st.Wf) {m : NodeId} {x : Grant} (hm : st.system.grants m = some x) :
    ∃ root y, DerivedFrom st.system.grants root m ∧ st.system.grants root = some y
      ∧ y.parent = none := by
  obtain ⟨n, hn, rfl⟩ := grants_eq_some.mp hm
  obtain ⟨l, hl, -⟩ := h.system.exists_climb hn
  generalize hs : some m = s at hl
  clear hm
  induction hl generalizing m n with
  | nil => cases hs
  | @cons i o l link rest ih =>
    obtain rfl : m = i := Option.some_inj.mp hs
    have hgrant : st.system.grants m = some n.grant :=
      grants_eq_some.mpr ⟨n, hn, rfl⟩
    have ho : n.parent = o := by
      simpa [SiblingForest.up, links, hn, LiveNode.links] using link
    cases o with
    | none => exact ⟨m, n.grant, .self, hgrant, ho⟩
    | some p =>
      obtain ⟨z, hz⟩ := h.system.parent_live hn ho
      obtain ⟨root, y, hd, hy, hroot⟩ := ih z hz rfl
      exact ⟨root, y, .step hgrant ho hd, hy, hroot⟩

variable {objects : ObjectArena}

theorem lookupInfo_eq_ok {sys : CapabilitySystem} {space : CapabilitySpace} {handle : Handle}
    {t : ObjectType} {r : Rights} {info : CapabilityInfo} :
    sys.lookupInfo space handle t r objects = .ok info ↔
      ∃ node, space.nodeFor handle = .ok node ∧ sys.validateNode node objects = .ok info
        ∧ info.objectType = t ∧ info.rights.contains r = true := by
  rw [lookupInfo]
  cases hnode : space.nodeFor handle with
  | error e => simp
  | ok node =>
    cases hval : sys.validateNode node objects with
    | error e => simp [hval]
    | ok info' => grind

theorem lookup_eq_ok {sys : CapabilitySystem} {space : CapabilitySpace} {handle : Handle}
    {t : ObjectType} {r : Rights} {object : ObjectId}
    (h : sys.lookup space handle t r objects = .ok object) :
    ∃ node info, space.nodeFor handle = .ok node ∧ sys.validateNode node objects = .ok info
      ∧ info.objectType = t ∧ info.rights.contains r = true ∧ info.object = object := by
  rw [CapabilitySystem.lookup] at h
  cases hinfo : sys.lookupInfo space handle t r objects with
  | error e => simp [hinfo, Except.map] at h
  | ok info =>
    obtain ⟨node, hnode, hval, htype, hrights⟩ := lookupInfo_eq_ok.mp hinfo
    exact ⟨node, info, hnode, hval, htype, hrights, by simpa [hinfo, Except.map] using h⟩

/-- **Authority only attenuates.** In every reachable state a live node grants a subset of what its
parent grants; so what a lookup through any handle accepts is a subset of what the root of the
chain was inserted with; and along a chain of derivations and transfers alone, the object that the
lookup returns, and its type, are those of the root. -/
theorem authority_only_attenuates {st₀ : CapState} (h₀ : st₀.Initial) (ops : List CapOp) :
    let st := st₀.run ops
    let log := st₀.provenance (fun _ ↦ none) ops
    (∀ id x p, st.system.liveNode id = some x → x.parent = some p →
      ∃ y, st.system.liveNode p = some y ∧ x.info.rights.isSubsetOf y.info.rights = true)
    ∧ ∀ k space handle t r objects object, st.spaces.get k = some space →
      st.system.lookup space handle t r objects = .ok object →
      ∃ node root x target domain object₀ objectType₀ rights₀ objects₀,
        space.nodeFor handle = .ok node ∧ DerivedFrom st.system.grants root node
        ∧ st.system.liveNode root = some x ∧ x.parent = none
        ∧ log root = some (.insertRoot target domain object₀ objectType₀ rights₀ objects₀)
        ∧ r.isSubsetOf rights₀ = true
        ∧ (DerivedOnly st.system.grants log root node → object = object₀ ∧ t = objectType₀) := by
  intro st log
  have hwf : st.Wf := h₀.wf.run ops
  have hempty : Attenuated st₀.system.grants fun _ ↦ none := by
    obtain ⟨capacity, htry⟩ := h₀.system
    intro id x hx
    obtain ⟨y, hy, -⟩ := CapabilitySystem.grants_eq_some.mp hx
    have hnodes : st₀.system.nodes = [] := by grind [CapabilitySystem.tryNew]
    rw [CapabilitySystem.liveNode_eq_some, hnodes] at hy
    simp at hy
  have ha : Attenuated st.system.grants log := h₀.wf.attenuated_run hempty ops
  constructor
  · intro id x p hx hp
    obtain ⟨y, hy⟩ := hwf.system.parent_live hx hp
    refine ⟨y, hy, ?_⟩
    have hgx : st.system.grants id = some x.grant :=
      CapabilitySystem.grants_eq_some.mpr ⟨x, hx, rfl⟩
    have hgy : st.system.grants p = some y.grant :=
      CapabilitySystem.grants_eq_some.mpr ⟨y, hy, rfl⟩
    exact ha.rights_subset (.step hgx hp .self) hgy hgx
  · intro k space handle t r objects object _ hlookup
    obtain ⟨node, info, hnode, hval, rfl, hr, rfl⟩ := lookup_eq_ok hlookup
    obtain ⟨x, hx, rfl, -⟩ := CapabilitySystem.validateNode_eq_ok hval
    obtain ⟨root, y, hd, hy, hroot⟩ := hwf.exists_root hx
    obtain ⟨z, hz, rfl⟩ := CapabilitySystem.grants_eq_some.mp hy
    obtain ⟨op, hop, hcov⟩ := ha root z.grant hy
    rw [hroot] at hcov
    obtain ⟨target, domain, objects₀, rfl⟩ := hcov
    refine ⟨node, root, z, target, domain, _, _, _, objects₀, hnode, hd, hz, hroot, hop, ?_, ?_⟩
    · exact Rights.isSubsetOf_trans (Rights.contains_iff_isSubsetOf.mp hr)
        (ha.rights_subset hd hy hx)
    · exact fun honly ↦ ha.object_eq honly hy hx

/-- Along the chain over two spaces, what the leaf accepts goes back to the insertion of the
root. -/
theorem authority_only_attenuates_chain :
    ∃ root target domain object₀ objectType₀ rights₀ objects₀,
      twoSpaces.provenance (fun _ ↦ none) chainOps root
        = some (.insertRoot target domain object₀ objectType₀ rights₀ objects₀)
      ∧ Rights.isSubsetOf ⟨3⟩ rights₀ = true := by
  obtain ⟨-, hlookup⟩ := authority_only_attenuates twoSpaces_initial chainOps
  obtain ⟨_, root, _, target, domain, object₀, objectType₀, rights₀, objects₀, -, -, -, -, hlog,
    hsub, -⟩ := hlookup ⟨1, 1⟩ _ (Handle.fromParts 1 1) .endpoint ⟨3⟩ oneEndpoint ⟨0, 1⟩ rfl rfl
  exact ⟨root, target, domain, object₀, objectType₀, rights₀, objects₀, hlog, hsub⟩

end CapState

end Gaxera

import Gaxera.Capability.Handles

/-!
# Revocation is complete, permanent and selective

Revoking sets one flag on one node. It takes effect because validation climbs the parent links and
stops at a flag, so everything derived from the node is refused with it; and it lasts because what
a live node was derived from never changes while the node lives, a flag is never taken back, and a
parent outlives its children.

The second half is about handles. A handle that resolved to a doomed node either still resolves to
it, or its slot has been emptied since. From then on the slot has another generation, and it needs
`2 ^ 32 - 1` further fillings before the generation of the handle comes back.
-/

namespace Gaxera

open CapabilitySystem Function

/-! ## Derivation and validation -/

/-- `m` is `n` or was derived from it, directly or through others. -/
inductive DerivedFrom (g : NodeId → Option Grant) (n : NodeId) : NodeId → Prop
  | self : DerivedFrom g n n
  | step {m p : NodeId} {x : Grant} (live : g m = some x) (parent : x.parent = some p)
      (above : DerivedFrom g n p) : DerivedFrom g n m

namespace CapabilitySystem

variable {sys : CapabilitySystem} {n m : NodeId}

theorem grants_eq_some {x : Grant} :
    sys.grants m = some x ↔ ∃ y, sys.liveNode m = some y ∧ y.grant = x := by
  rw [grants, Option.map_eq_some_iff]

theorem validateTurn_eq_ok {leaf : Option CapabilityInfo} {leaf' : CapabilityInfo}
    {o : Option NodeId} : sys.validateTurn leaf m = .ok (leaf', o) ↔
      ∃ y, sys.liveNode m = some y ∧ y.revoked = false ∧ leaf' = leaf.getD y.info
        ∧ o = y.parent := by
  rw [validateTurn]
  cases sys.liveNode m with
  | none => simp
  | some y => grind

theorem validateLoop_of_derivedFrom {x : Grant} (hd : DerivedFrom sys.grants n m)
    (hn : sys.grants n = some x) (hx : x.revoked = true) (objects : ObjectArena) (remaining : ℕ)
    (leaf : Option CapabilityInfo) : ∃ e, sys.validateLoop objects remaining leaf m = .error e := by
  induction hd generalizing remaining leaf with
  | self =>
    obtain ⟨y, hy, rfl⟩ := grants_eq_some.mp hn
    have hturn : sys.validateTurn leaf n = .error .revoked := by
      rw [validateTurn, hy]
      exact if_pos hx
    cases remaining <;> exact ⟨_, by rw [validateLoop, hturn]⟩
  | @step m p z live parent above ih =>
    obtain ⟨y, hy, rfl⟩ := grants_eq_some.mp live
    have hparent : y.parent = some p := parent
    cases hturn : sys.validateTurn leaf m with
    | error e => cases remaining <;> exact ⟨e, by rw [validateLoop, hturn]⟩
    | ok r =>
      obtain ⟨leaf', o⟩ := r
      obtain ⟨y', hy', -, -, rfl⟩ := validateTurn_eq_ok.mp hturn
      obtain rfl : y = y' := Option.some_inj.mp (hy.symm.trans hy')
      rw [hparent] at hturn
      cases remaining with
      | zero => exact ⟨_, by rw [validateLoop, hturn]⟩
      | succ remaining =>
        rw [validateLoop, hturn]
        exact ih remaining _

/-- Setting the flag of `n` is not noticed above what is not derived from `n`. -/
theorem validateLoop_setRevoked (hd : ¬ DerivedFrom sys.grants n m) (objects : ObjectArena)
    (remaining : ℕ) (leaf : Option CapabilityInfo) :
    (sys.modifyLive n fun x ↦ { x with revoked := true }).validateLoop objects remaining leaf m
      = sys.validateLoop objects remaining leaf m := by
  have hturn : ∀ m leaf, m ≠ n →
      (sys.modifyLive n fun x ↦ { x with revoked := true }).validateTurn leaf m
        = sys.validateTurn leaf m := by
    intro m leaf hne
    rw [validateTurn, liveNode_modifyLive, update_of_ne hne, validateTurn]
  induction remaining generalizing m leaf with
  | zero => rw [validateLoop, hturn m leaf (fun h ↦ hd (h ▸ .self)), validateLoop]
  | succ remaining ih =>
    rw [validateLoop, hturn m leaf (fun h ↦ hd (h ▸ .self)), validateLoop]
    cases hok : sys.validateTurn leaf m with
    | error e => rfl
    | ok r =>
      obtain ⟨leaf', o⟩ := r
      obtain ⟨y, hy, -, -, rfl⟩ := validateTurn_eq_ok.mp hok
      cases hp : y.parent with
      | none => rfl
      | some p => exact ih (fun hdp ↦ hd (.step (grants_eq_some.mpr ⟨y, hy, rfl⟩) hp hdp)) _

/-- Every use of the handle is refused. -/
structure Refuses (sys : CapabilitySystem) (space : CapabilitySpace) (handle : Handle) : Prop where
  lookup : ∀ t r objects, ∃ e, sys.lookup space handle t r objects = .error e
  lookupInfo : ∀ t r objects, ∃ e, sys.lookupInfo space handle t r objects = .error e
  inspect : ∀ objects, ∃ e, sys.inspect space handle objects = .error e
  derive : ∀ target dom r objects, ∃ e,
    sys.derive space handle target dom r objects = (.error e, sys, target, dom)
  prepareTransfer : ∀ r objects, ∃ e, sys.prepareTransfer space handle r objects = .error e

theorem refuses_of_validateNode {space : CapabilitySpace} {handle : Handle}
    (h : ∀ node, space.nodeFor handle = .ok node →
      ∀ objects, ∃ e, sys.validateNode node objects = .error e) : sys.Refuses space handle := by
  have hinfo : ∀ t r objects, ∃ e, sys.lookupInfo space handle t r objects = .error e := by
    intro t r objects
    rw [CapabilitySystem.lookupInfo]
    cases hnode : space.nodeFor handle with
    | error e => exact ⟨e, rfl⟩
    | ok node =>
      obtain ⟨e, he⟩ := h node hnode objects
      simp only [he]
      exact ⟨e, rfl⟩
  constructor
  · intro t r objects
    obtain ⟨e, he⟩ := hinfo t r objects
    exact ⟨e, by rw [CapabilitySystem.lookup, he]; rfl⟩
  · exact hinfo
  · intro objects
    rw [CapabilitySystem.inspect]
    cases hnode : space.nodeFor handle with
    | error e => exact ⟨e, rfl⟩
    | ok node => exact h node hnode objects
  · intro target dom r objects
    rw [CapabilitySystem.derive]
    cases hnode : space.nodeFor handle with
    | error e => exact ⟨e, rfl⟩
    | ok node =>
      obtain ⟨e, he⟩ := h node hnode objects
      simp only [he]
      exact ⟨e, rfl⟩
  · intro r objects
    rw [CapabilitySystem.prepareTransfer]
    cases hnode : space.nodeFor handle with
    | error e => exact ⟨e, rfl⟩
    | ok node =>
      obtain ⟨e, he⟩ := h node hnode objects
      simp only [he]
      exact ⟨e, rfl⟩

end CapabilitySystem

/-! ## Grants over a run -/

/-- A grant that survives keeps what it says and its flag. -/
def Evolves (g g' : NodeId → Option Grant) : Prop :=
  ∀ j x x', g j = some x → g' j = some x' →
    x'.info = x.info ∧ x'.parent = x.parent ∧ (x.revoked = true → x'.revoked = true)

namespace CapStep

variable {st st' : CapState} {op : CapOp} {result : CapResult}

theorem evolves (h : CapStep st op (result, st')) :
    Evolves st.system.grants st'.system.grants := by
  intro j x x' hx hx'
  cases h with
  | unchanged _ system _ =>
    rw [system, hx, Option.some_inj] at hx'
    subst hx'
    exact ⟨rfl, rfl, id⟩
  | @created _ _ _ _ _ node _ _ _ _ _ _ _ _ created _ =>
    have hj : j ≠ node := by
      rintro rfl
      simp [grants, created.fresh] at hx
    rw [created.grants, update_of_ne hj, hx, Option.some_inj] at hx'
    subst hx'
    exact ⟨rfl, rfl, id⟩
  | @revoked node _ _ _ _ live system _ =>
    obtain ⟨y, hy, rfl⟩ := grants_eq_some.mp hx
    obtain ⟨y', hy', rfl⟩ := grants_eq_some.mp hx'
    rw [system, liveNode_modifyLive] at hy'
    by_cases hj : j = node
    · subst hj
      rw [update_self, hy, Option.map_some, Option.some_inj] at hy'
      subst hy'
      exact ⟨rfl, rfl, fun _ ↦ rfl⟩
    · rw [update_of_ne hj, hy, Option.some_inj] at hy'
      subst hy'
      exact ⟨rfl, rfl, id⟩
  | deleted _ _ _ restricts _ =>
    rcases restricts j with hj | hj
    · rw [hj, hx, Option.some_inj] at hx'
      subst hx'
      exact ⟨rfl, rfl, id⟩
    · rw [hj] at hx'
      cases hx'

end CapStep

/-- `m` stands under a revoked node: it is `n` or derived from it, and `n` is revoked. -/
def Doomed (g : NodeId → Option Grant) (n m : NodeId) : Prop :=
  DerivedFrom g n m ∧ ∃ x, g n = some x ∧ x.revoked = true

namespace CapState

variable {st st' : CapState} {n m : NodeId} {k : ObjectId} {i g : UInt32}

theorem Wf.grants_parent (h : st.Wf) {x : Grant} {p : NodeId} (hx : st.system.grants m = some x)
    (hp : x.parent = some p) : ∃ y, st.system.grants p = some y := by
  obtain ⟨y, hy, rfl⟩ := grants_eq_some.mp hx
  obtain ⟨z, hz⟩ := h.system.parent_live hy hp
  exact ⟨z.grant, grants_eq_some.mpr ⟨z, hz, rfl⟩⟩

theorem Wf.doomed_of_evolves (h' : st'.Wf) (hev : Evolves st.system.grants st'.system.grants)
    (hd : Doomed st.system.grants n m) (hlive : ∃ x, st'.system.grants m = some x) :
    Doomed st'.system.grants n m := by
  obtain ⟨hderived, z, hz, hrev⟩ := hd
  induction hderived with
  | self =>
    obtain ⟨x, hx⟩ := hlive
    exact ⟨.self, x, hx, (hev n z x hz hx).2.2 hrev⟩
  | @step m p y live parent above ih =>
    obtain ⟨x, hx⟩ := hlive
    have hxp : x.parent = some p := (hev m y x live hx).2.1.trans parent
    obtain ⟨habove, hn⟩ := ih (h'.grants_parent hx hxp)
    exact ⟨.step hx hxp habove, hn⟩

variable {space : CapabilitySpace}

theorem Wf.grants_of_slotAt (h : st.Wf) (hk : st.spaces.get k = some space)
    (hslot : space.slotAt i = some (g, some m)) : ∃ x, st.system.grants m = some x := by
  obtain ⟨next, hx⟩ := CapabilitySpace.slotAt_eq_some.mp hslot
  have hpos : 0 < space.holders m :=
    List.countP_pos_iff.mpr ⟨_, List.mem_of_getElem? hx, by simp⟩
  have hle := holders_le hk m
  obtain ⟨y, hy⟩ := h.system.held_live m (by omega)
  exact ⟨y.grant, grants_eq_some.mpr ⟨y, hy, rfl⟩⟩

/-! ## One slot over a run -/

/-- Whether an operation puts a node into the slot `i` of the space `k`. -/
def fills (st : CapState) (op : CapOp) (k : ObjectId) (i : UInt32) : Bool :=
  (st.exec op).1.handle.any fun handle ↦ decide (op.target = some k ∧ handle.slot = i)

/-- How often a run puts a node into the slot `i` of the space `k`. -/
def reuses (st : CapState) (k : ObjectId) (i : UInt32) : List CapOp → ℕ
  | [] => 0
  | op :: ops => (if st.fills op k i then 1 else 0) + reuses (st.exec op).2 k i ops

theorem reuses_eq (k : ObjectId) (i : UInt32) (ops : List CapOp) :
    st.reuses k i ops = (st.issued k ops).countP fun handle ↦ handle.slot = i := by
  induction ops generalizing st with
  | nil => rfl
  | cons op ops ih =>
    rw [reuses, issued, List.countP_append, ih, fills, handleFor]
    congr 1
    by_cases htarget : op.target = some k
    · rw [if_pos htarget]
      cases (st.exec op).1.handle with
      | none => rfl
      | some handle => simp [htarget]
    · rw [if_neg htarget]
      cases (st.exec op).1.handle with
      | none => rfl
      | some handle => simp [htarget]

variable {ops : List CapOp}

/-- A slot that holds something under the generation it had has held what it held all the while. -/
theorem Wf.table_stays (h : st.Wf) {ops' : List CapOp} {m' : NodeId}
    (hslot : st.table k i = some (g, some m))
    (hend : (st.run (ops ++ ops')).table k i = some (g, some m'))
    (hfew : st.reuses k i (ops ++ ops') < 2 ^ 32 - 1) :
    (st.run ops).table k i = some (g, some m) := by
  have hg : g ≠ 0 := by
    cases hget : st.spaces.get k with
    | none =>
      rw [table, hget] at hslot
      cases hslot
    | some space =>
      rw [table_eq hget] at hslot
      exact (h.spaces k space hget).generation_ne_zero i g _ hslot
  have hlater := (h.run ops).run_moves ops' k
  rw [← run_append] at hlater
  have hreturn : ∀ v, nextGeneration^[v] g = g → v ≠ 0 → 2 ^ 32 - 1 ≤ v := fun v hv hne ↦
    le_of_iterate_nextGeneration_eq hg (Nat.pos_of_ne_zero hne) hv
  refine (h.run_moves ops k).stays hreturn hlater hslot hend ?_
  rw [← List.map_append, ← issued_append, length_generations_issued, ← reuses_eq]
  exact hfew

theorem Wf.grants_of_table (h : st.Wf) (hslot : st.table k i = some (g, some m)) :
    ∃ x, st.system.grants m = some x := by
  cases hget : st.spaces.get k with
  | none =>
    rw [table, hget] at hslot
    cases hslot
  | some space => exact h.grants_of_slotAt hget (table_eq hget ▸ hslot)

theorem Wf.doomed_run (h : st.Wf) (hd : Doomed st.system.grants n m)
    (hlive : ∀ ops₁ ops₂, ops = ops₁ ++ ops₂ → ∃ x, (st.run ops₁).system.grants m = some x) :
    Doomed (st.run ops).system.grants n m := by
  induction ops generalizing st with
  | nil => exact hd
  | cons op ops ih =>
    obtain ⟨h', hstep⟩ := h.exec op
    refine ih h' (h'.doomed_of_evolves hstep.evolves hd (hlive [op] ops rfl)) ?_
    rintro ops₁ ops₂ rfl
    exact hlive (op :: ops₁) ops₂ rfl

variable {handle : Handle}

/-- **A handle that resolves again** resolves to the node it resolved to, and that node has lived
all the while, unless its slot is reused too often. -/
theorem Wf.resolves_stays {space' : CapabilitySpace} {m' : NodeId} (h : st.Wf)
    (hk : st.spaces.get k = some space) (hnode : space.nodeFor handle = .ok m)
    (hk' : (st.run ops).spaces.get k = some space') (hnode' : space'.nodeFor handle = .ok m')
    (hfew : st.reuses k handle.slot ops < 2 ^ 32 - 1) :
    m' = m ∧ ∀ ops₁ ops₂, ops = ops₁ ++ ops₂ → ∃ x, (st.run ops₁).system.grants m = some x := by
  have hslot : st.table k handle.slot = some (handle.generation, some m) := by
    rw [table_eq hk]
    exact (CapabilitySpace.nodeFor_eq_ok.mp hnode).2
  have hslot' : (st.run ops).table k handle.slot = some (handle.generation, some m') := by
    rw [table_eq hk']
    exact (CapabilitySpace.nodeFor_eq_ok.mp hnode').2
  have hstays : ∀ ops₁ ops₂, ops = ops₁ ++ ops₂ →
      (st.run ops₁).table k handle.slot = some (handle.generation, some m) := by
    rintro ops₁ ops₂ rfl
    exact h.table_stays hslot hslot' hfew
  constructor
  · have := (hstays ops [] (List.append_nil ops).symm).symm.trans hslot'
    simpa using this.symm
  · exact fun ops₁ ops₂ heq ↦ (h.run ops₁).grants_of_table (hstays ops₁ ops₂ heq)

/-- **A handle to a doomed node** is refused from then on, unless its slot is reused too often. -/
theorem Wf.refuses_of_doomed (h : st.Wf) (hk : st.spaces.get k = some space)
    (hnode : space.nodeFor handle = .ok m) (hd : Doomed st.system.grants n m) (ops : List CapOp)
    (hfew : st.reuses k handle.slot ops < 2 ^ 32 - 1) :
    ∃ space', (st.run ops).spaces.get k = some space'
      ∧ (st.run ops).system.Refuses space' handle := by
  have hslot : st.table k handle.slot = some (handle.generation, some m) := by
    rw [table_eq hk]
    exact (CapabilitySpace.nodeFor_eq_ok.mp hnode).2
  obtain ⟨v, o, hend, -⟩ := (h.run_moves ops k).since hslot
  cases hk' : (st.run ops).spaces.get k with
  | none =>
    rw [table, hk'] at hend
    cases hend
  | some space' =>
    refine ⟨space', rfl, refuses_of_validateNode fun node hnode' objects ↦ ?_⟩
    obtain ⟨rfl, hlive⟩ := h.resolves_stays hk hnode hk' hnode' hfew
    obtain ⟨hderived, x, hx, hrev⟩ := h.doomed_run hd hlive
    exact validateLoop_of_derivedFrom hderived hx hrev objects _ none

/-! ## Revocation -/

theorem exec_revoke {objects : ObjectArena} {info : CapabilityInfo} {sys' : CapabilitySystem}
    (hk : st.spaces.get k = some space) (hnode : space.nodeFor handle = .ok n)
    (hrevoke : st.system.revoke space handle objects = (.ok info, sys')) :
    sys' = st.system.modifyLive n (fun x ↦ { x with revoked := true })
      ∧ (∃ y, st.system.liveNode n = some y)
      ∧ (st.exec (.revoke k handle objects)).2 = { st with system := sys' } := by
  rcases revoke_cases st space handle objects with
    ⟨e, heq⟩ | ⟨node, y, info', hnode', hlive, -, heq⟩
  · rw [hrevoke] at heq
    simp at heq
  · obtain rfl : node = n := by
      rw [hnode] at hnode'
      simpa using hnode'.symm
    rw [hrevoke] at heq
    obtain ⟨-, rfl⟩ := Prod.mk.inj heq
    refine ⟨rfl, ⟨y, hlive⟩, ?_⟩
    rw [exec, hk]
    dsimp only
    rw [hrevoke]

theorem grants_setRevoked {sys : CapabilitySystem} {y : LiveNode} (hn : sys.liveNode n = some y) :
    (sys.modifyLive n fun x ↦ { x with revoked := true }).grants
      = update sys.grants n (some { y.grant with revoked := true }) := by
  funext j
  rw [grants, liveNode_modifyLive]
  by_cases hj : j = n
  · rw [hj, update_self, update_self, hn]
    rfl
  · rw [update_of_ne hj, update_of_ne hj, grants]

theorem derivedFrom_setRevoked {sys : CapabilitySystem} {y : LiveNode}
    (hn : sys.liveNode n = some y) (hd : DerivedFrom sys.grants n m) :
    DerivedFrom (sys.modifyLive n fun x ↦ { x with revoked := true }).grants n m := by
  rw [grants_setRevoked hn]
  induction hd with
  | self => exact .self
  | @step m p x live parent above ih =>
    by_cases hm : m = n
    · subst hm
      exact .self
    · exact .step (by rw [update_of_ne hm, live]) parent ih

/-- **Revocation is complete, permanent and selective.** After a successful revocation of `n`,
whatever operations follow, every handle that resolved to `n` or to a node derived from it is
refused, as long as its slot has been reused fewer than `2 ^ 32 - 1` times; and the revocation
itself changes no answer about any other handle. -/
theorem revocation_complete_permanent_selective {st₀ : CapState} (h₀ : st₀.Initial)
    (before : List CapOp) (k : ObjectId) (handle : Handle) (objects : ObjectArena) (n : NodeId)
    {space : CapabilitySpace} {info : CapabilityInfo} {sys' : CapabilitySystem}
    (hk : (st₀.run before).spaces.get k = some space) (hnode : space.nodeFor handle = .ok n)
    (hrevoke : (st₀.run before).system.revoke space handle objects = (.ok info, sys')) :
    let st := st₀.run before
    let st' := (st.exec (.revoke k handle objects)).2
    (∀ k' space' handle' m, st.spaces.get k' = some space' → space'.nodeFor handle' = .ok m →
      DerivedFrom st.system.grants n m →
      ∀ after, st'.reuses k' handle'.slot after < 2 ^ 32 - 1 →
        ∃ space'', (st'.run after).spaces.get k' = some space''
          ∧ (st'.run after).system.Refuses space'' handle')
    ∧ ∀ k' space' handle', st.spaces.get k' = some space' →
      (∀ m, space'.nodeFor handle' = .ok m → ¬ DerivedFrom st.system.grants n m) →
      st'.spaces.get k' = some space'
        ∧ ∀ t r objects', st'.system.lookup space' handle' t r objects'
            = st.system.lookup space' handle' t r objects'
          ∧ st'.system.lookupInfo space' handle' t r objects'
            = st.system.lookupInfo space' handle' t r objects'
          ∧ st'.system.inspect space' handle' objects'
            = st.system.inspect space' handle' objects' := by
  intro st st'
  have hwf : st.Wf := h₀.wf.run before
  obtain ⟨hsys', ⟨y, hy⟩, hst'⟩ := exec_revoke hk hnode hrevoke
  have hst'' : st' = { st with system := sys' } := hst'
  have hwf' : st'.Wf := (hwf.exec _).1
  constructor
  · intro k' space' handle' m hk' hnode' hd after hreuses
    have hdoomed : Doomed st'.system.grants n m := by
      rw [hst'', hsys']
      refine ⟨derivedFrom_setRevoked hy hd, ?_⟩
      rw [grants_setRevoked hy]
      exact ⟨_, update_self .., rfl⟩
    have hget' : st'.spaces.get k' = some space' := by
      rw [hst'']
      exact hk'
    exact hwf'.refuses_of_doomed hget' hnode' hdoomed after hreuses
  · intro k' space' handle' hk' hnot
    refine ⟨by rw [hst'']; exact hk', fun t r objects' ↦ ?_⟩
    have hval : ∀ m, space'.nodeFor handle' = .ok m →
        st'.system.validateNode m objects' = st.system.validateNode m objects' := by
      intro m hm
      rw [hst'', hsys', CapabilitySystem.validateNode, CapabilitySystem.capacity_modifyLive]
      exact CapabilitySystem.validateLoop_setRevoked (hnot m hm) objects' _ _
    have hinfo : st'.system.lookupInfo space' handle' t r objects'
        = st.system.lookupInfo space' handle' t r objects' := by
      rw [CapabilitySystem.lookupInfo, CapabilitySystem.lookupInfo]
      cases hm : space'.nodeFor handle' with
      | error e => rfl
      | ok m => simp only [hval m hm]
    refine ⟨?_, hinfo, ?_⟩
    · rw [CapabilitySystem.lookup, hinfo, CapabilitySystem.lookup]
    · rw [CapabilitySystem.inspect, CapabilitySystem.inspect]
      cases hm : space'.nodeFor handle' with
      | error e => rfl
      | ok m => exact hval m hm

/-- Revoking the root of the chain, with the chain then deleted above its leaf: the leaf is refused
through the handle that is left. -/
theorem revocation_of_chain :
    let st := twoSpaces.run (chainOps.take 3)
    let st' := (st.exec (.revoke ⟨1, 1⟩ (Handle.fromParts 0 1) oneEndpoint)).2
    ∃ space, (st'.run (chainOps.drop 3)).spaces.get ⟨1, 1⟩ = some space
      ∧ (st'.run (chainOps.drop 3)).system.Refuses space (Handle.fromParts 1 1) := by
  have hd : DerivedFrom (twoSpaces.run (chainOps.take 3)).system.grants ⟨0, 1⟩ ⟨2, 1⟩ :=
    .step rfl rfl (.step rfl rfl .self)
  exact (revocation_complete_permanent_selective twoSpaces_initial (chainOps.take 3) ⟨1, 1⟩
    (Handle.fromParts 0 1) oneEndpoint ⟨0, 1⟩ rfl rfl rfl).1 ⟨1, 1⟩ _ (Handle.fromParts 1 1) ⟨2, 1⟩
    rfl rfl hd (chainOps.drop 3) (by decide)

end CapState

end Gaxera

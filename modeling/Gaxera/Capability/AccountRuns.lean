import Gaxera.Capability.Accounting

/-!
# Domains come and go, and what runs keep

The reservation of a child can fail behind the point where it has been written, on the count of
children. In a registry this does not happen: a child has an index of its own, and there are not as
many indices as the count would have to reach. With that, every step keeps the accounts, and the
capability operations are exact and atomic in every state that is reached.
-/

namespace Gaxera

open Registry CapabilitySystem

namespace CapState

variable {st st' : CapState} {d k p : ObjectId} {dom dom' : ResourceDomain}
  {f : Resources → ℕ}

/-! ## Domains come and go -/

/-- There are not as many indices as the count of children would have to reach. -/
theorem Accounted.childDomainRefs_lt (h : st.Accounted) (hp : st.domains.get p = some dom)
    (hfree : st.domains.isFree d = true) : dom.childDomainRefs + 1 < 2 ^ 32 := by
  have hne : d.index.toNat ≠ p.index.toNat := by
    intro hc
    rw [get_eq_none_of_isFree hfree (UInt32.toNat_inj.mp hc).symm] at hp
    cases hp
  have hcard : (((Finset.range (2 ^ 32)).erase d.index.toNat).erase p.index.toNat).card
      = 2 ^ 32 - 2 := by
    have hd : d.index.toNat ∈ Finset.range (2 ^ 32) := Finset.mem_range.mpr d.index.toNat_lt
    have hp : p.index.toNat ∈ (Finset.range (2 ^ 32)).erase d.index.toNat :=
      Finset.mem_erase.mpr ⟨hne.symm, Finset.mem_range.mpr p.index.toNat_lt⟩
    rw [Finset.card_erase_of_mem hp, Finset.card_erase_of_mem hd, Finset.card_range]
    rfl
  have hle : st.childCount ⟨p⟩ ≤ 2 ^ 32 - 2 := by
    rw [← hcard, childCount, childSum]
    refine census_le_card (fun j dm _ ↦ ?_) fun j dm hj hone ↦ ?_
    · split_ifs <;> omega
    · -- A child of `p` has another index than `p`, and not the free one.
      obtain ⟨hactive, hparent⟩ : dm.reservationActive = true ∧ dm.parent = some ⟨p⟩ := by
        by_contra hc
        exact hone (if_neg hc)
      refine Finset.mem_erase.mpr ⟨fun hc ↦ ?_, Finset.mem_erase.mpr ⟨fun hc ↦ ?_, ?_⟩⟩
      · have hjp : j = p := by
          by_contra hne
          rw [get_eq_none_of_ne hp (UInt32.toNat_inj.mp hc) hne] at hj
          cases hj
        exact h.parent j dm hj hactive (hjp ▸ hparent)
      · rw [get_eq_none_of_isFree hfree (UInt32.toNat_inj.mp hc)] at hj
        cases hj
      · exact Finset.mem_range.mpr j.index.toNat_lt
  rw [h.refs p dom hp]
  omega

section Children

variable {limits : Resources} {child : ResourceDomain} {j : ObjectId}

/-- `st'` has one child of `p` more than `st`, with these limits. -/
def Adopts (st st' : CapState) (p : ObjectId) (limits : Resources) : Prop :=
  ∀ f e, childSum f st' e = childSum f st e + if e = ⟨p⟩ then f limits else 0

theorem Adopts.childSum_self (h : Adopts st st' p limits) :
    childSum f st' ⟨p⟩ = childSum f st ⟨p⟩ + f limits := by
  rw [h, if_pos rfl]

theorem Adopts.childSum_of_ne (h : Adopts st st' p limits) (hj : j ≠ p) :
    childSum f st' ⟨j⟩ = childSum f st ⟨j⟩ := by
  rw [h, if_neg fun hc ↦ hj (ResourceDomainId.mk.inj hc), Nat.add_zero]

theorem Adopts.reserved_self (h : Adopts st st' p limits) :
    st'.reserved ⟨p⟩ = st.reserved ⟨p⟩ + limits :=
  Resources.ext h.childSum_self h.childSum_self h.childSum_self

theorem Adopts.reserved_of_ne (h : Adopts st st' p limits) (hj : j ≠ p) :
    st'.reserved ⟨j⟩ = st.reserved ⟨j⟩ :=
  Resources.ext (h.childSum_of_ne hj) (h.childSum_of_ne hj) (h.childSum_of_ne hj)

theorem Adopts.childCount_self (h : Adopts st st' p limits) :
    st'.childCount ⟨p⟩ = st.childCount ⟨p⟩ + 1 := h.childSum_self

theorem Adopts.childCount_of_ne (h : Adopts st st' p limits) (hj : j ≠ p) :
    st'.childCount ⟨j⟩ = st.childCount ⟨j⟩ := h.childSum_of_ne hj

theorem childWeight_eq (hactive : child.reservationActive = true)
    (hparent : child.parent = some ⟨p⟩) (e : ResourceDomainId) :
    (if child.reservationActive = true ∧ child.parent = some e then f child.limits else 0)
      = if e = ⟨p⟩ then f child.limits else 0 := by
  rw [hactive, hparent]
  by_cases he : e = ⟨p⟩
  · rw [if_pos he, he, if_pos ⟨rfl, rfl⟩]
  · rw [if_neg he, if_neg fun hc ↦ he (Option.some_inj.mp hc.2).symm]

theorem adopts_insert (dom' child : ResourceDomain) (hp : st.domains.get p = some dom)
    (hsame : SameChild dom dom')
    (hfree : st.domains.isFree d = true) (hactive : child.reservationActive = true)
    (hparent : child.parent = some ⟨p⟩) :
    Adopts st { st with domains := (st.domains.modify p fun _ ↦ dom').insert d child } p
      child.limits := by
  intro f e
  rw [childSum, census_insert _ (isFree_iff.mp (isFree_modify hfree)),
    childWeight_eq hactive hparent]
  congr 1
  have hwrite : childSum f { st with domains := st.domains.modify p fun _ ↦ dom' } e
      = childSum f st e := childSum_write hp (get_modify_const hp) hsame e
  exact hwrite

theorem adopts_remove (dom' : ResourceDomain) (hd : st.domains.get d = some child)
    (hp : st.domains.get p = some dom) (hpd : p ≠ d) (hsame : SameChild dom dom')
    (hactive : child.reservationActive = true) (hparent : child.parent = some ⟨p⟩) :
    Adopts { st with domains := (st.domains.remove d).modify p fun _ ↦ dom' } st p
      child.limits := by
  intro f e
  have hp' : (st.domains.remove d).get p = some dom := by
    rw [get_remove, if_neg hpd, hp]
  have hwrite : childSum f { st with domains := (st.domains.remove d).modify p fun _ ↦ dom' } e
      = childSum f { st with domains := st.domains.remove d } e :=
    childSum_write hp' (get_modify_const hp') hsame e
  have hremove := census_remove (fun _ (dom : ResourceDomain) ↦
    if dom.reservationActive = true ∧ dom.parent = some e then f dom.limits else 0) hd
  rw [hwrite, ← childWeight_eq hactive hparent]
  exact hremove.symm

/-- What is registered once a child has been, next to its parent. -/
theorem get_modify_insert_cases (dom' child : ResourceDomain)
    (hp : st.domains.get p = some dom) (j : ObjectId) (dm : ResourceDomain) :
    ((st.domains.modify p fun _ ↦ dom').insert d child).get j = some dm →
      (j = d ∧ dm = child) ∨ (j = p ∧ dm = dom') ∨ (j ≠ p ∧ st.domains.get j = some dm) := by
  intro hj
  rw [get_insert, get_modify_const hp] at hj
  split_ifs at hj with hjd hi hjp
  · exact .inl ⟨hjd, (Option.some_inj.mp hj).symm⟩
  · exact .inr (Or.inl ⟨hjp, (Option.some_inj.mp hj).symm⟩)
  · exact .inr (Or.inr ⟨hjp, hj⟩)

end Children

theorem Accounted.grow (h : st.Accounted) (hp : st.domains.get p = some dom)
    (hfree : st.domains.isFree d = true) (limits : Resources) :
    Accounted { st with
      domains := (st.domains.modify p fun _ ↦ { dom.reserve limits with
        childDomainRefs := dom.childDomainRefs + 1 }).insert d
          (ResourceDomain.child ⟨d⟩ dom limits) } := by
  have hid := h.id p dom hp
  have hd : st.domains.get d = none := get_eq_none_of_isFree hfree rfl
  have hdp : d ≠ p := by
    rintro rfl
    rw [hd] at hp
    cases hp
  have hadopts := adopts_insert
    { dom.reserve limits with childDomainRefs := dom.childDomainRefs + 1 }
    (.child ⟨d⟩ dom limits) hp ⟨rfl, rfl, rfl⟩ hfree rfl (congrArg some hid)
  have hcases := get_modify_insert_cases (d := d)
    { dom.reserve limits with childDomainRefs := dom.childDomainRefs + 1 }
    (.child ⟨d⟩ dom limits) hp
  refine accounted_of_settled h.system h.spaces (fun j dm hj ↦ ?_) fun j hj ↦ ?_
  · rcases hcases j dm hj with ⟨rfl, rfl⟩ | ⟨rfl, rfl⟩ | ⟨hjp, hj⟩
    · have hnothing := hadopts.reserved_of_ne hdp
      rw [h.reserved_absent hd] at hnothing
      refine ⟨rfl, ?_, ?_, ?_, fun _ hc ↦ ?_⟩
      · rw [hnothing]
        exact (h.absent j hd).1.symm
      · rw [hnothing]
        exact Resources.zero_le _
      · rw [hadopts.childCount_of_ne hdp]
        exact (h.absent j hd).2.symm
      · exact hdp.symm (ResourceDomainId.mk.inj
          (Option.some_inj.mp ((congrArg some hid).symm.trans hc)))
    · have hbefore := h.settled hp
      refine ⟨hid, ?_, ?_, ?_, hbefore.parent⟩
      · have husage := hbefore.usage
        rw [hadopts.reserved_self]
        change dom.usage.capabilities + limits.capabilities = st.charged ⟨j⟩
          + ((st.reserved ⟨j⟩).capabilities + limits.capabilities)
        omega
      · rw [hadopts.reserved_self]
        exact add_le_add_left hbefore.reserved limits
      · rw [hadopts.childCount_self]
        exact congrArg (· + 1) hbefore.refs
    · exact (h.settled hj).of_eq rfl (hadopts.reserved_of_ne hjp) (hadopts.childCount_of_ne hjp)
  · have hj' : st.domains.get j = none ∧ j ≠ p := by
      rw [get_insert, get_modify_const hp] at hj
      split_ifs at hj with hjd hi hjp
      · refine ⟨get_eq_none_of_isFree hfree hi, ?_⟩
        rintro rfl
        rw [get_eq_none_of_isFree hfree hi] at hp
        cases hp
      · exact ⟨hj, hjp⟩
    rw [hadopts.childCount_of_ne hj'.2]
    exact h.absent j hj'.1

theorem Accounted.shrink {child : ResourceDomain} (h : st.Accounted)
    (hd : st.domains.get d = some child) (hpd : p ≠ d) (hp : st.domains.get p = some dom)
    (hready : child.Refundable dom) :
    dom.Covers child ∧ Accounted { st with
      domains := (st.domains.remove d).modify p fun _ ↦ dom.restore child } := by
  have hid := h.id p dom hp
  obtain ⟨-, -, hcaps, -, hrefs⟩ := of_decide_eq_true hready.eligible
  have hget : ∀ j, ((st.domains.remove d).modify p fun _ ↦ dom.restore child).get j
      = if j = p then some (dom.restore child) else if j = d then none else st.domains.get j := by
    have hp' : (st.domains.remove d).get p = some dom := by
      rw [get_remove, if_neg hpd, hp]
    intro j
    rw [get_modify_const hp', get_remove]
  have hadopts := adopts_remove (dom.restore child) hd hp hpd ⟨rfl, rfl, rfl⟩ hready.active
    (hready.parent.trans (congrArg some hid))
  have hle := h.reserved p dom hp
  have hrefsp := h.refs p dom hp
  rw [hadopts.reserved_self] at hle
  rw [hadopts.childCount_self] at hrefsp
  have hcovers : dom.Covers child := by
    refine ⟨le_trans ?_ hle, by omega⟩
    rw [add_comm]
    exact Resources.le_add_right _ _
  refine ⟨hcovers, accounted_of_settled h.system h.spaces (fun j dm hj ↦ ?_) fun j hj ↦ ?_⟩
  · have hj' := (hget j).symm.trans hj
    split_ifs at hj' with hjp hjd
    · obtain rfl := Option.some_inj.mp hj'
      obtain rfl := hjp
      refine ⟨hid, ?_, ?_, ?_, h.parent j dom hp⟩
      · have husage := h.usage j dom hp
        rw [hadopts.reserved_self, Resources.capabilities_add] at husage
        change dom.usage.capabilities - child.limits.capabilities = st.charged ⟨j⟩ + _
        omega
      · exact ⟨Nat.le_sub_of_add_le hle.1, Nat.le_sub_of_add_le hle.2.1,
          Nat.le_sub_of_add_le hle.2.2⟩
      · change dom.childDomainRefs - 1 = _
        omega
    · exact (h.settled hj').of_eq rfl (hadopts.reserved_of_ne hjp).symm
        (hadopts.childCount_of_ne hjp).symm
  · have hj' := (hget j).symm.trans hj
    split_ifs at hj' with hjp hjd
    · -- The child itself had nothing left.
      have husage := h.usage d child hd
      have hrefs' := h.refs d child hd
      rw [← hadopts.childCount_of_ne hjp, hjd]
      exact ⟨by change st.charged ⟨d⟩ = 0; omega, by omega⟩
    · rw [← hadopts.childCount_of_ne hjp]
      exact h.absent j hj'

theorem Accounted.newChild (h : st.Accounted) (p d : ObjectId) (limits : Resources) :
    (st.account (.newChild p d limits)).Accounted := by
  rw [account]
  cases hp : st.domains.get p with
  | none => exact h
  | some dom =>
    dsimp only
    by_cases hfree : st.domains.isFree d = true
    swap
    · rw [if_neg hfree]
      exact h
    rw [if_pos hfree]
    rcases ResourceDomain.newChild_cases ⟨d⟩ dom limits with
      ⟨-, e, heq⟩ | ⟨-, ⟨hfull, -⟩ | ⟨-, heq⟩⟩
    · rw [heq]
      exact h.ext h.system (fun _ ↦ rfl) (get_modify_self hp)
    · exact absurd (h.childDomainRefs_lt hp hfree) (Nat.not_lt.mpr hfull)
    · rw [heq]
      exact h.grow hp hfree limits

theorem Accounted.refund (h : st.Accounted) (d : ObjectId) :
    (st.account (.refund d)).Accounted := by
  rw [account]
  cases hd : st.domains.get d with
  | none => exact h
  | some child =>
    dsimp only
    cases hparent : child.parent with
    | none => exact h
    | some parent =>
      dsimp only
      cases hp' : (st.domains.remove d).get parent.objectId with
      | none => exact h
      | some dom =>
        obtain ⟨hpd, hp⟩ : parent.objectId ≠ d ∧ st.domains.get parent.objectId = some dom := by
          rw [get_remove] at hp'
          split_ifs at hp' with hc
          exact ⟨hc, hp'⟩
        dsimp only
        rcases ResourceDomain.refundToParent_cases child dom with
          ⟨-, heq⟩ | ⟨hready, ⟨hshort, -⟩ | ⟨-, heq⟩⟩
        · -- Everything goes back where it was.
          rw [heq]
          refine h.ext h.system (fun _ ↦ rfl) fun j ↦ ?_
          rw [get_insert, get_modify_self hp', get_remove]
          by_cases hj : j = d
          · rw [if_pos hj, hj, hd]
          · rw [if_neg hj, if_neg hj]
            by_cases hi : j.index = d.index
            · rw [if_pos hi, get_eq_none_of_ne hd hi hj]
            · rw [if_neg hi]
        · exact absurd (h.shrink hd hpd hp hready).1 hshort
        · rw [heq]
          exact (h.shrink hd hpd hp hready).2

/-! ## Charges for other things -/

/-- The usage of a domain moves in another dimension than the capabilities. -/
theorem Accounted.setUsage (h : st.Accounted) (hd : st.domains.get d = some dom) {usage : Resources}
    (hcaps : usage.capabilities = dom.usage.capabilities) (hle : st.reserved ⟨d⟩ ≤ usage) :
    Accounted { st with domains := st.domains.modify d fun _ ↦ { dom with usage := usage } } := by
  refine h.write h.system h.spaces hd (get_modify_const hd) rfl ⟨rfl, rfl, rfl⟩ rfl ?_
    (fun _ _ ↦ rfl) hle
  exact hcaps.trans (h.usage d dom hd)

theorem amount_capabilities {c : Charge} (h : c ≠ .capability) : c.amount.capabilities = 0 := by
  cases c with
  | capability => exact absurd rfl h
  | object | memory => rfl

theorem Accounted.charge (h : st.Accounted) (d : ObjectId) (c : Charge) :
    (st.account (.charge d c)).Accounted := by
  rw [account]
  cases hd : st.domains.get d with
  | none => exact h
  | some dom =>
    dsimp only
    cases hc : dom.charge c with
    | error e => exact h
    | ok dom' =>
      obtain rfl := ResourceDomain.charge_eq hc
      dsimp only
      by_cases hcap : c = .capability
      · rw [if_pos hcap]
        exact h
      rw [if_neg hcap]
      refine h.setUsage hd ?_ (le_trans (h.reserved d dom hd) (Resources.le_add_right _ _))
      rw [Resources.capabilities_add, amount_capabilities hcap, Nat.add_zero]

theorem Accounted.release (h : st.Accounted) (d : ObjectId) (c : Charge) :
    (st.account (.release d c)).Accounted := by
  rw [account]
  cases hd : st.domains.get d with
  | none => exact h
  | some dom =>
    dsimp only
    cases hc : dom.release c with
    | error e => exact h
    | ok dom' =>
      obtain rfl := ResourceDomain.release_eq hc
      dsimp only
      by_cases hcap : c = .capability ∨ ¬ st.reserved ⟨d⟩ + c.amount ≤ dom.usage
      · rw [if_pos hcap]
        exact h
      rw [if_neg hcap]
      obtain ⟨hne, hle⟩ := not_or.mp hcap
      obtain ⟨ho, hcc, hm⟩ := not_not.mp hle
      refine h.setUsage hd ?_ ⟨Nat.le_sub_of_add_le ho, Nat.le_sub_of_add_le hcc,
        Nat.le_sub_of_add_le hm⟩
      rw [Resources.capabilities_sub, amount_capabilities hne, Nat.sub_zero]

/-- **One operation** keeps the accounts. -/
theorem Accounted.account (h : st.Accounted) (op : AccountOp) : (st.account op).Accounted := by
  cases op with
  | capability op => exact h.exec op
  | newSpace k domain capacity => exact h.newSpace k domain capacity
  | dropSpace k => exact h.dropSpace k
  | newChild p d limits => exact h.newChild p d limits
  | refund d => exact h.refund d
  | charge d c => exact h.charge d c
  | release d c => exact h.release d c

/-- **A run** keeps the accounts. -/
theorem Accounted.accounts (h : st.Accounted) (ops : List AccountOp) :
    (st.accounts ops).Accounted := by
  induction ops generalizing st with
  | nil => exact h
  | cons op ops ih => exact ih (h.account op)

/-! ## What a failure leaves, and what a deletion leaves to others -/

/-- What a lookup through a handle of the space `k` answers. -/
def lookup (st : CapState) (k : ObjectId) (handle : Handle) (requiredType : ObjectType)
    (requiredRights : Rights) (objects : ObjectArena) :
    Option (Except CapabilityError ObjectId) :=
  (st.spaces.get k).map fun space ↦
    st.system.lookup space handle requiredType requiredRights objects

/-- Nothing that a caller can observe has changed. -/
structure Untouched (st st' : CapState) : Prop where
  lookup : ∀ k handle t r objects,
    st'.lookup k handle t r objects = st.lookup k handle t r objects
  usage : ∀ d, (st'.domains.get d).map ResourceDomain.usage
    = (st.domains.get d).map ResourceDomain.usage
  nodes : st'.system.capacity - st'.system.liveCount = st.system.capacity - st.system.liveCount
  slots : ∀ k, (st'.spaces.get k).map (fun space ↦ space.capacity - space.occupied)
    = (st.spaces.get k).map fun space ↦ space.capacity - space.occupied

theorem untouched_of_eq (hsystem : st'.system = st.system)
    (hspaces : ∀ k, st'.spaces.get k = st.spaces.get k)
    (hdomains : ∀ d, st'.domains.get d = st.domains.get d) : st.Untouched st' := by
  refine ⟨fun k handle t r objects ↦ ?_, fun d ↦ ?_, ?_, fun k ↦ ?_⟩
  · rw [lookup, hspaces, hsystem, lookup]
  · rw [hdomains]
  · rw [hsystem]
  · rw [hspaces]

/-- The result of an insertion or a deletion that returns an error. -/
def CapResult.isFailure : CapResult → Bool
  | .inserted (.error _) => true
  | .deleted (.error _) => true
  | _ => false

theorem Wf.untouched_of_failure (h : st.Wf) {op : CapOp}
    (hfail : CapResult.isFailure (st.exec op).1 = true) : st.Untouched (st.exec op).2 := by
  have htarget : ∀ {target}, op.target = some target → st.Untouched (st.exec op).2 := by
    intro target htarget
    have hstep := (h.exec_of_target htarget).2
    generalize st.exec op = e at hstep hfail
    cases hstep with
    | unchanged failed system spaces domains => exact untouched_of_eq system spaces domains
    | created | deleted => cases hfail
    | revoked failed live system spaces domains is_revoke =>
      rw [is_revoke] at htarget
      cases htarget
  cases op with
  | insertRoot | insertDescendant | derive | commitTransfer => exact htarget rfl
  | revoke space handle objects =>
    rw [CapState.exec] at hfail
    cases hspace : st.spaces.get space <;> simp [hspace, CapResult.isFailure] at hfail
  | revokeOneDescendant root => simp [CapState.exec, CapResult.isFailure] at hfail
  | delete space domain handle =>
    obtain ⟨-, ⟨-, hsystem, hspaces, hdomains⟩ | ⟨_, _, _, _, hok, -⟩⟩ :=
      h.exec_delete space domain handle
    · exact untouched_of_eq hsystem hspaces hdomains
    · rw [hok] at hfail
      cases hfail

end CapState

namespace CapabilitySpace

variable {s s' : CapabilitySpace} {handle handle' : Handle}

theorem Removed.nodeFor_of_ne {node : NodeId} (h : s.Removed handle node s')
    (hne : handle' ≠ handle) : s'.nodeFor handle' = s.nodeFor handle' := by
  rw [nodeFor_eq, nodeFor_eq, h.slotAt]
  by_cases hslot : handle'.slot = handle.slot
  · -- A handle to the same slot, under another generation, was stale before and is stale now.
    have hgen : handle.generation ≠ handle'.generation := fun hg ↦
      hne (Handle.eq_of_slot_eq_of_generation_eq hslot hg.symm)
    rw [hslot, Function.update_self, h.full]
    dsimp only
    rw [if_pos hgen, ite_self]
  · rw [Function.update_of_ne hslot]

end CapabilitySpace

/-- A node that is left alone validates as before, since everything above it stays. -/
theorem CapabilitySystem.Wf.validateLoop_of_restricts {sys sys' : CapabilitySystem}
    {held : NodeId → ℕ} (h' : sys'.Wf held)
    (hres : Restricts sys.grants sys'.grants) {node : NodeId}
    (hlive : ∃ x, sys'.grants node = some x) (objects : ObjectArena) (remaining : ℕ)
    (leaf : Option CapabilityInfo) :
    sys'.validateLoop objects remaining leaf node
      = sys.validateLoop objects remaining leaf node := by
  have hturn : ∀ {m leaf}, (∃ x, sys'.grants m = some x) →
      sys'.validateTurn leaf m = sys.validateTurn leaf m := by
    rintro m leaf ⟨x, hx⟩
    have hx₀ : sys.grants m = some x := by
      rcases hres m with heq | hnone
      · exact heq.symm.trans hx
      · rw [hx] at hnone
        cases hnone
    obtain ⟨y, hy, rfl⟩ := grants_eq_some.mp hx
    obtain ⟨z, hz, hzy⟩ := grants_eq_some.mp hx₀
    obtain ⟨hinfo, hparent, hrevoked⟩ := Grant.mk.inj hzy
    rw [validateTurn, validateTurn, hy, hz]
    dsimp only
    rw [hinfo, hparent, hrevoked]
  induction remaining generalizing node leaf with
  | zero => rw [validateLoop, hturn hlive, validateLoop]
  | succ remaining ih =>
    rw [validateLoop, hturn hlive, validateLoop]
    cases hok : sys.validateTurn leaf node with
    | error e => rfl
    | ok r =>
      obtain ⟨leaf', o⟩ := r
      cases o with
      | none => rfl
      | some p =>
        -- The parent lives, since the node does.
        obtain ⟨y, hy, -, -, hp⟩ := validateTurn_eq_ok.mp
          ((hturn hlive).trans hok)
        obtain ⟨z, hz⟩ := h'.parent_live hy hp.symm
        exact ih ⟨z.grant, grants_eq_some.mpr ⟨z, hz, rfl⟩⟩ _

theorem CapabilitySystem.Wf.validateNode_of_restricts {sys sys' : CapabilitySystem}
    {held : NodeId → ℕ} (h' : sys'.Wf held)
    (hres : Restricts sys.grants sys'.grants)
    (hcap : sys'.capacity = sys.capacity) {node : NodeId}
    (hlive : ∃ x, sys'.grants node = some x) (objects : ObjectArena) :
    sys'.validateNode node objects = sys.validateNode node objects := by
  rw [validateNode, hcap, h'.validateLoop_of_restricts hres hlive,
    validateNode]

namespace CapState

variable {st st' : CapState} {k k' domain : ObjectId} {handle handle' : Handle}

/-- Where handles resolve as before, and what they resolve to is left alone, lookups return what
they did. -/
theorem Wf.lookup_of_restricts (h' : st'.Wf)
    (hres : Restricts st.system.grants st'.system.grants)
    (hcap : st'.system.capacity = st.system.capacity)
    (hnode : (st'.spaces.get k').map (·.nodeFor handle')
      = (st.spaces.get k').map (·.nodeFor handle'))
    (t : ObjectType) (r : Rights) (objects : ObjectArena) :
    st'.lookup k' handle' t r objects = st.lookup k' handle' t r objects := by
  rw [lookup, lookup]
  cases hget' : st'.spaces.get k' with
  | none =>
    rw [hget', Option.map_none, eq_comm, Option.map_eq_none_iff] at hnode
    rw [hnode, Option.map_none, Option.map_none]
  | some sp' =>
    rw [hget', Option.map_some, eq_comm, Option.map_eq_some_iff] at hnode
    obtain ⟨sp, hget, hnode⟩ := hnode
    rw [hget, Option.map_some, Option.map_some, CapabilitySystem.lookup,
      lookupInfo, ← hnode, CapabilitySystem.lookup, lookupInfo]
    cases hfound : sp.nodeFor handle' with
    | error e => rfl
    | ok m =>
      have hlive := h'.grants_of_slotAt hget'
        (CapabilitySpace.nodeFor_eq_ok.mp (hnode.symm.trans hfound)).2
      dsimp only
      rw [h'.system.validateNode_of_restricts hres hcap hlive]

/-- **A deletion is not noticed through other handles**, in this space or in another. -/
theorem Wf.lookup_of_delete (h : st.Wf)
    (hok : (st.exec (.delete k domain handle)).1 = .deleted (.ok ()))
    (hne : ¬ (k' = k ∧ handle' = handle)) (t : ObjectType) (r : Rights) (objects : ObjectArena) :
    (st.exec (.delete k domain handle)).2.lookup k' handle' t r objects
      = st.lookup k' handle' t r objects := by
  obtain ⟨hwf, hcases⟩ := h.exec_delete k domain handle
  generalize st.exec (.delete k domain handle) = e at hwf hcases hok
  obtain ⟨result, st'⟩ := e
  rcases hcases with ⟨hfail, -⟩ | ⟨space, space', node, dom, -, hk, hspaces, hrem, hres, hcap, -⟩
  · dsimp only at hok hfail
    rw [hok] at hfail
    simp at hfail
  refine hwf.lookup_of_restricts hres hcap ?_ t r objects
  rw [hspaces k']
  by_cases hkk : k' = k
  · rw [if_pos hkk, hkk, hk, Option.map_some, Option.map_some,
      hrem.nodeFor_of_ne fun hh ↦ hne ⟨hkk, hh⟩]
  · rw [if_neg hkk]

/-- **Insertion and deletion are exact and atomic.** In every reachable state a domain is charged
for the occupied slots of its spaces and for what it has reserved for its active children; an
operation that fails leaves every lookup, every usage and the numbers of free nodes and slots as
they were; and a deletion changes what no other handle resolves to. -/
theorem accounting_exact_and_atomic {st₀ : CapState} (h₀ : st₀.Initial) (ops : List AccountOp) :
    let st := st₀.accounts ops
    (∀ d dom, st.domains.get d = some dom →
      dom.usage.capabilities = st.charged ⟨d⟩ + (st.reserved ⟨d⟩).capabilities)
    ∧ (∀ op, CapResult.isFailure (st.exec op).1 = true → st.Untouched (st.exec op).2)
    ∧ ∀ k domain handle, (st.exec (.delete k domain handle)).1 = .deleted (.ok ()) →
      ∀ k' handle', ¬ (k' = k ∧ handle' = handle) → ∀ t r objects,
        (st.exec (.delete k domain handle)).2.lookup k' handle' t r objects
          = st.lookup k' handle' t r objects := by
  intro st
  have h : st.Accounted := h₀.accounted.accounts ops
  exact ⟨h.usage, fun op hfail ↦ h.wf.untouched_of_failure hfail,
    fun k domain handle hok k' handle' hne t r objects ↦ h.wf.lookup_of_delete hok hne t r objects⟩

/-- A child is made, a space is set up for it, and a handle is derived into that space. -/
def childOps : List AccountOp :=
  [.newChild ⟨0, 1⟩ ⟨3, 1⟩ ⟨2, 3, 0⟩, .newSpace ⟨4, 1⟩ ⟨3, 1⟩ 4,
   .capability (.insertRoot ⟨1, 1⟩ ⟨0, 1⟩ ⟨0, 1⟩ .endpoint ⟨0x47⟩ oneEndpoint),
   .capability (.derive ⟨1, 1⟩ (Handle.fromParts 0 1) ⟨4, 1⟩ ⟨3, 1⟩ ⟨0x43⟩ oneEndpoint)]

theorem accounting_exact_and_atomic_of_child :
    ((twoSpaces.accounts childOps).domains.get ⟨0, 1⟩).map (fun dom ↦ dom.usage.capabilities)
      = some 4 := by
  obtain ⟨dom, hdom⟩ : ∃ dom, (twoSpaces.accounts childOps).domains.get ⟨0, 1⟩ = some dom :=
    Option.isSome_iff_exists.mp (by decide +kernel)
  rw [hdom, Option.map_some,
    (accounting_exact_and_atomic twoSpaces_initial childOps).1 ⟨0, 1⟩ dom hdom]
  decide +kernel

end CapState

end Gaxera

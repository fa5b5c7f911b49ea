import Gaxera.Capability.Revocation
import Gaxera.Core.DomainTree

/-!
# What a domain is charged for

The capability operations work on spaces and domains that come and go. Here they do: spaces are set
up for a domain and dropped when they are empty, domains are made as children of others and leave
when they are refunded, and in between they are charged for objects and memory. In every state that
is reached this way a domain is charged for exactly the occupied slots of its spaces, and for what
it has reserved for its children. This module has the invariant, and the steps that leave the
domains in place; `AccountRuns` has the others.
-/

namespace Gaxera

open Registry CapabilitySystem

/-- The capability operations, and how spaces and domains come and go. -/
inductive AccountOp
  | capability (op : CapOp)
  /-- An empty space is registered under a free index. -/
  | newSpace (space domain : ObjectId) (capacity : ℕ)
  /-- A space without occupied slots is dropped. -/
  | dropSpace (space : ObjectId)
  /-- A child domain is registered under a free index. -/
  | newChild (parent child : ObjectId) (limits : Resources)
  /-- A domain is taken out and refunded; it goes back if that fails. -/
  | refund (child : ObjectId)
  /-- A charge for an object or for memory. -/
  | charge (domain : ObjectId) (charge : Charge)
  /-- The release of such a charge. -/
  | release (domain : ObjectId) (charge : Charge)

namespace CapState

variable {st st' : CapState} {d k p : ObjectId} {dom dom' : ResourceDomain}
  {space space' : CapabilitySpace} {f : Resources → ℕ}

/-- The sum of `f` over the limits of the active children of a domain. -/
def childSum (f : Resources → ℕ) (st : CapState) (d : ResourceDomainId) : ℕ :=
  st.domains.census fun _ dom ↦
    if dom.reservationActive = true ∧ dom.parent = some d then f dom.limits else 0

/-- What is reserved in a domain for its active children. -/
def reserved (st : CapState) (d : ResourceDomainId) : Resources :=
  ⟨childSum Resources.objects st d, childSum Resources.capabilities st d,
    childSum Resources.memoryBytes st d⟩

/-- The number of active children of a domain. -/
def childCount (st : CapState) (d : ResourceDomainId) : ℕ := childSum (fun _ ↦ 1) st d

def account (st : CapState) : AccountOp → CapState
  | .capability op => (st.exec op).2
  | .newSpace k domain capacity =>
    match st.domains.get domain with
    | none => st
    | some dom =>
      match CapabilitySpace.tryNew dom capacity with
      | none => st
      | some space =>
        if st.spaces.isFree k = true then { st with spaces := st.spaces.insert k space } else st
  | .dropSpace k =>
    match st.spaces.get k with
    | none => st
    | some space =>
      if space.occupied = 0 then { st with spaces := st.spaces.remove k } else st
  | .newChild parent id limits =>
    match st.domains.get parent with
    | none => st
    | some dom =>
      if st.domains.isFree id = true then
        match ResourceDomain.newChild ⟨id⟩ dom limits with
        | (.error _, dom) => { st with domains := st.domains.modify parent fun _ ↦ dom }
        | (.ok child, dom) =>
          { st with domains := (st.domains.modify parent fun _ ↦ dom).insert id child }
      else st
  | .refund id =>
    match st.domains.get id with
    | none => st
    | some child =>
      match child.parent with
      | none => st
      | some parent =>
        match (st.domains.remove id).get parent.objectId with
        | none => st
        | some dom =>
          match child.refundToParent dom with
          | (.ok _, _, dom) =>
            { st with domains := (st.domains.remove id).modify parent.objectId fun _ ↦ dom }
          | (.error _, child, dom) =>
            { st with
              domains := ((st.domains.remove id).modify parent.objectId fun _ ↦ dom).insert id
                child }
  | .charge domain charge =>
    match st.domains.get domain with
    | none => st
    | some dom =>
      match dom.charge charge with
      | .error _ => st
      | .ok dom =>
        if charge = .capability then st
        else { st with domains := st.domains.modify domain fun _ ↦ dom }
  | .release domain charge =>
    match st.domains.get domain with
    | none => st
    | some dom =>
      match dom.release charge with
      | .error _ => st
      | .ok dom' =>
        -- Only what has been charged is released, and that is not what is reserved.
        if charge = .capability ∨ ¬ st.reserved ⟨domain⟩ + charge.amount ≤ dom.usage then st
        else { st with domains := st.domains.modify domain fun _ ↦ dom' }

/-- The state after a list of operations. -/
def accounts (st : CapState) : List AccountOp → CapState
  | [] => st
  | op :: ops => accounts (st.account op) ops

/-! ## The invariant -/

/-- Every domain is charged for its slots and its children, and counts its children. -/
structure Accounted (st : CapState) : Prop where
  system : st.system.Wf st.holders
  spaces : ∀ k space, st.spaces.get k = some space → space.Wf
  id : ∀ d dom, st.domains.get d = some dom → dom.id = ⟨d⟩
  usage : ∀ d dom, st.domains.get d = some dom →
    dom.usage.capabilities = st.charged ⟨d⟩ + (st.reserved ⟨d⟩).capabilities
  reserved : ∀ d dom, st.domains.get d = some dom → st.reserved ⟨d⟩ ≤ dom.usage
  refs : ∀ d dom, st.domains.get d = some dom → dom.childDomainRefs = st.childCount ⟨d⟩
  /-- A domain that is not registered has nothing. -/
  absent : ∀ d, st.domains.get d = none → st.charged ⟨d⟩ = 0 ∧ st.childCount ⟨d⟩ = 0
  /-- A child is not its own parent. -/
  parent : ∀ d dom, st.domains.get d = some dom → dom.reservationActive = true →
    dom.parent ≠ some ⟨d⟩

theorem Accounted.wf (h : st.Accounted) : st.Wf := by
  refine ⟨h.system, h.spaces, fun d dom hd ↦ ⟨h.id d dom hd, ?_⟩⟩
  rw [h.usage d dom hd]
  exact Nat.le_add_right _ _

/-- What the accounts say of one registered domain. -/
structure Settled (st : CapState) (d : ObjectId) (dom : ResourceDomain) : Prop where
  id : dom.id = ⟨d⟩
  usage : dom.usage.capabilities = st.charged ⟨d⟩ + (st.reserved ⟨d⟩).capabilities
  reserved : st.reserved ⟨d⟩ ≤ dom.usage
  refs : dom.childDomainRefs = st.childCount ⟨d⟩
  parent : dom.reservationActive = true → dom.parent ≠ some ⟨d⟩

theorem Accounted.settled (h : st.Accounted) (hd : st.domains.get d = some dom) :
    st.Settled d dom :=
  ⟨h.id d dom hd, h.usage d dom hd, h.reserved d dom hd, h.refs d dom hd, h.parent d dom hd⟩

theorem accounted_of_settled (hsystem : st.system.Wf st.holders)
    (hspaces : ∀ k space, st.spaces.get k = some space → space.Wf)
    (hsettled : ∀ d dom, st.domains.get d = some dom → st.Settled d dom)
    (habsent : ∀ d, st.domains.get d = none → st.charged ⟨d⟩ = 0 ∧ st.childCount ⟨d⟩ = 0) :
    st.Accounted :=
  ⟨hsystem, hspaces, fun d dom hd ↦ (hsettled d dom hd).id,
    fun d dom hd ↦ (hsettled d dom hd).usage, fun d dom hd ↦ (hsettled d dom hd).reserved,
    fun d dom hd ↦ (hsettled d dom hd).refs, habsent, fun d dom hd ↦ (hsettled d dom hd).parent⟩

/-- A domain stays settled while its slots and its children stay the same. -/
theorem Settled.of_eq (h : st.Settled d dom) (hcharged : st'.charged ⟨d⟩ = st.charged ⟨d⟩)
    (hreserved : st'.reserved ⟨d⟩ = st.reserved ⟨d⟩)
    (hcount : st'.childCount ⟨d⟩ = st.childCount ⟨d⟩) : st'.Settled d dom := by
  refine ⟨h.id, ?_, ?_, ?_, h.parent⟩
  · rw [hcharged, hreserved]
    exact h.usage
  · rw [hreserved]
    exact h.reserved
  · rw [hcount]
    exact h.refs

theorem childSum_eq_zero (h : st.childCount ⟨d⟩ = 0) : childSum f st ⟨d⟩ = 0 := by
  rw [childCount, childSum] at h
  refine census_eq_zero_iff.mpr fun j dom hj ↦ ?_
  have := census_eq_zero_iff.mp h j dom hj
  split_ifs at this with hc
  exact if_neg hc

theorem Accounted.reserved_absent (h : st.Accounted) (hd : st.domains.get d = none) :
    st.reserved ⟨d⟩ = 0 := by
  have hcount := (h.absent d hd).2
  exact Resources.ext (childSum_eq_zero hcount) (childSum_eq_zero hcount)
    (childSum_eq_zero hcount)

theorem Initial.accounted (h : st.Initial) : st.Accounted := by
  have hwf := h.wf
  have hsum : ∀ f d, childSum f st d = 0 := by
    intro f d
    refine census_eq_zero_iff.mpr fun j dom hj ↦ ?_
    obtain ⟨limits, rfl⟩ := h.domains j dom hj
    simp [ResourceDomain.new]
  have hcharged : ∀ d, st.charged d = 0 := by
    intro d
    refine census_eq_zero_iff.mpr fun k space hk ↦ ?_
    obtain ⟨domain, capacity, htry⟩ := h.spaces k space hk
    rw [CapabilitySpace.occupied, (CapabilitySpace.wf_of_tryNew htry).2]
    simp
  have hreserved : ∀ d, st.reserved d = 0 := fun d ↦
    Resources.ext (hsum _ d) (hsum _ d) (hsum _ d)
  refine accounted_of_settled hwf.system hwf.spaces (fun d dom hd ↦ ?_)
    fun d _ ↦ ⟨hcharged _, hsum _ _⟩
  obtain ⟨limits, rfl⟩ := h.domains d dom hd
  refine ⟨rfl, ?_, ?_, (hsum _ _).symm, by simp [ResourceDomain.new]⟩
  · rw [hcharged, hreserved]
    rfl
  · rw [hreserved]
    exact Resources.zero_le _

/-! ## What an operation leaves alone -/

theorem charged_ext (h : ∀ k, st'.spaces.get k = st.spaces.get k) (e : ResourceDomainId) :
    st'.charged e = st.charged e :=
  census_ext _ h

theorem childSum_ext (h : ∀ d, st'.domains.get d = st.domains.get d) (e : ResourceDomainId) :
    childSum f st' e = childSum f st e :=
  census_ext _ h

theorem charged_write (hk : st.spaces.get k = some space)
    (h : ∀ j, st'.spaces.get j = if j = k then some space' else st.spaces.get j)
    (hdom : space'.domain = space.domain) (e : ResourceDomainId) :
    st'.charged e + (if space.domain = e then space.occupied else 0)
      = st.charged e + if space.domain = e then space'.occupied else 0 := by
  rw [← charged_modify hk hdom st.system st.domains e, charged, charged]
  congr 1
  exact census_ext _ fun j ↦ (h j).trans (get_modify_const hk j).symm

/-- What a domain counts for at its parent. -/
structure SameChild (dom dom' : ResourceDomain) : Prop where
  active : dom'.reservationActive = dom.reservationActive
  parent : dom'.parent = dom.parent
  limits : dom'.limits = dom.limits

/-- Writing one domain does not move what is reserved, unless the domain changes its place. -/
theorem childSum_write (hd : st.domains.get d = some dom)
    (h : ∀ j, st'.domains.get j = if j = d then some dom' else st.domains.get j)
    (hsame : SameChild dom dom') (e : ResourceDomainId) :
    childSum f st' e = childSum f st e := by
  have hmodify := census_modify (fun _ (dom : ResourceDomain) ↦
    if dom.reservationActive = true ∧ dom.parent = some e then f dom.limits else 0)
    (g := fun _ ↦ dom') hd
  rw [hsame.active, hsame.parent, hsame.limits] at hmodify
  refine Eq.trans (census_ext _ fun j ↦ ?_) (Nat.add_right_cancel hmodify)
  exact (h j).trans (get_modify_const hd j).symm

theorem reserved_write (hd : st.domains.get d = some dom)
    (h : ∀ j, st'.domains.get j = if j = d then some dom' else st.domains.get j)
    (hsame : SameChild dom dom') (e : ResourceDomainId) : st'.reserved e = st.reserved e :=
  Resources.ext (childSum_write hd h hsame e) (childSum_write hd h hsame e)
    (childSum_write hd h hsame e)

theorem Accounted.ext (h : st.Accounted) (hsystem : st'.system.Wf st'.holders)
    (hspaces : ∀ k, st'.spaces.get k = st.spaces.get k)
    (hdomains : ∀ d, st'.domains.get d = st.domains.get d) : st'.Accounted := by
  have hcharged := charged_ext hspaces
  have hreserved : ∀ e, st'.reserved e = st.reserved e := fun e ↦
    Resources.ext (childSum_ext hdomains e) (childSum_ext hdomains e) (childSum_ext hdomains e)
  have hcount : ∀ e, st'.childCount e = st.childCount e := childSum_ext hdomains
  refine accounted_of_settled hsystem
    (fun k space hk ↦ h.spaces k space ((hspaces k).symm.trans hk)) (fun d dom hd ↦ ?_)
    fun d hd ↦ ?_
  · rw [hdomains] at hd
    exact (h.settled hd).of_eq (hcharged _) (hreserved _) (hcount _)
  · rw [hdomains] at hd
    rw [hcharged, hcount]
    exact h.absent d hd

/-- Writing a domain that keeps its place, together with the slots it is charged for. -/
theorem Accounted.write (h : st.Accounted) (hsystem : st'.system.Wf st'.holders)
    (hspaces : ∀ k space, st'.spaces.get k = some space → space.Wf)
    (hd : st.domains.get d = some dom)
    (hdomains : ∀ j, st'.domains.get j = if j = d then some dom' else st.domains.get j)
    (hid : dom'.id = dom.id) (hsame : SameChild dom dom')
    (hrefs : dom'.childDomainRefs = dom.childDomainRefs)
    (hcharged : dom'.usage.capabilities = st'.charged ⟨d⟩ + (st.reserved ⟨d⟩).capabilities)
    (hother : ∀ e, e ≠ d → st'.charged ⟨e⟩ = st.charged ⟨e⟩)
    (hreserved : st.reserved ⟨d⟩ ≤ dom'.usage) : st'.Accounted := by
  have hcount : ∀ e, st'.childCount e = st.childCount e := childSum_write hd hdomains hsame
  have hsum := reserved_write hd hdomains hsame
  have hbefore := h.settled hd
  refine accounted_of_settled hsystem hspaces (fun e dm he ↦ ?_) fun e he ↦ ?_
  · rw [hdomains] at he
    by_cases hed : e = d
    · rw [if_pos hed] at he
      obtain rfl := Option.some_inj.mp he
      obtain rfl := hed
      refine ⟨hid.trans hbefore.id, ?_, ?_, ?_, ?_⟩
      · rw [hsum]
        exact hcharged
      · rw [hsum]
        exact hreserved
      · rw [hcount]
        exact hrefs.trans hbefore.refs
      · rw [hsame.active, hsame.parent]
        exact hbefore.parent
    · rw [if_neg hed] at he
      exact (h.settled he).of_eq (hother e hed) (hsum _) (hcount _)
  · rw [hdomains] at he
    by_cases hed : e = d
    · rw [if_pos hed] at he
      cases he
    · rw [if_neg hed] at he
      rw [hother e hed, hcount]
      exact h.absent e he

/-! ## Capability operations -/

/-- A slot is filled or emptied, and the domain of the space is charged or released. -/
theorem Accounted.writeSlot (h : st.Accounted) (hwf : st'.Wf) {usage : ℕ}
    (hk : st.spaces.get k = some space)
    (hspaces : ∀ j, st'.spaces.get j = if j = k then some space' else st.spaces.get j)
    (hdom : space'.domain = space.domain) (hd : st.domains.get d = some dom)
    (hmatch : space.domain = dom.id)
    (hdomains : ∀ j, st'.domains.get j = if j = d then some (dom.setCapabilities usage)
      else st.domains.get j)
    (husage : dom.usage.capabilities + space'.occupied = usage + space.occupied) :
    st'.Accounted := by
  have hid := h.id d dom hd
  have hcharged := charged_write hk hspaces hdom
  have hself := hcharged ⟨d⟩
  rw [if_pos (hmatch.trans hid), if_pos (hmatch.trans hid)] at hself
  have hbefore := h.usage d dom hd
  have hle := h.reserved d dom hd
  refine h.write hwf.system hwf.spaces hd hdomains rfl ⟨rfl, rfl, rfl⟩ rfl ?_ ?_
    ⟨hle.1, ?_, hle.2.2⟩
  · rw [ResourceDomain.setCapabilities_usage_capabilities]
    omega
  · intro e he
    have hne : space.domain ≠ ⟨e⟩ := by
      rw [hmatch, hid]
      intro hc
      exact he (ResourceDomainId.mk.inj hc).symm
    have hother := hcharged ⟨e⟩
    rwa [if_neg hne, if_neg hne] at hother
  · rw [ResourceDomain.setCapabilities_usage_capabilities]
    omega

theorem Accounted.exec (h : st.Accounted) (op : CapOp) : (st.exec op).2.Accounted := by
  obtain ⟨hwf, hstep⟩ := h.wf.exec op
  generalize st.exec op = r at hwf hstep
  cases hstep with
  | unchanged failed system spaces domains => exact h.ext hwf.system spaces domains
  | revoked failed live system spaces domains is_revoke => exact h.ext hwf.system spaces domains
  | created is_target get spaces inserted created authorised domain_get domain_eq domains =>
    refine h.writeSlot hwf get spaces inserted.domain domain_get domain_eq domains ?_
    have := inserted.occupied
    omega
  | @deleted target domain dom space space' node handle st' get spaces removed restricts capacity
      is_delete domain_get domain_eq domains =>
    refine h.writeSlot hwf get spaces removed.domain domain_get domain_eq domains ?_
    have hocc := removed.occupied
    have hle := h.wf.occupied_le_usage get domain_get domain_eq
    omega

/-! ## Spaces come and go -/

/-- Spaces without occupied slots hold nothing and are charged to nobody. -/
theorem Accounted.of_spaces (h : st.Accounted) {spaces : Registry CapabilitySpace}
    (hholders : ∀ node, spaces.census (fun _ space ↦ space.holders node) = st.holders node)
    (hcharged : ∀ e, spaces.census
      (fun _ space ↦ if space.domain = e then space.occupied else 0) = st.charged e)
    (hwf : ∀ k space, spaces.get k = some space → space.Wf) :
    Accounted { st with spaces := spaces } := by
  have hheld : holders { st with spaces := spaces } = st.holders := funext hholders
  refine ⟨hheld ▸ h.system, hwf, h.id, fun d dom hd ↦ ?_, h.reserved, h.refs, fun d hd ↦ ?_,
    h.parent⟩
  · exact (h.usage d dom hd).trans (congrArg (· + _) (hcharged ⟨d⟩).symm)
  · exact ⟨(hcharged ⟨d⟩).trans (h.absent d hd).1, (h.absent d hd).2⟩

theorem holders_eq_zero (h : space.occupied = 0) (node : NodeId) : space.holders node = 0 := by
  refine Nat.le_zero.mp (h ▸ List.countP_mono_left fun x _ hx ↦ ?_)
  rw [decide_eq_true_eq] at hx
  rw [hx]
  rfl

theorem Accounted.newSpace (h : st.Accounted) (k domain : ObjectId) (capacity : ℕ) :
    (st.account (.newSpace k domain capacity)).Accounted := by
  rw [account]
  cases st.domains.get domain with
  | none => exact h
  | some dom =>
    dsimp only
    cases htry : CapabilitySpace.tryNew dom capacity with
    | none => exact h
    | some space =>
      dsimp only
      by_cases hfree : st.spaces.isFree k = true
      swap
      · rw [if_neg hfree]
        exact h
      rw [if_pos hfree]
      obtain ⟨hwf, hslots⟩ := CapabilitySpace.wf_of_tryNew htry
      have hocc : space.occupied = 0 := by
        rw [CapabilitySpace.occupied, hslots]
        rfl
      have hstore := isFree_iff.mp hfree
      refine h.of_spaces (fun node ↦ ?_) (fun e ↦ ?_) fun j sp hj ↦ ?_
      · rw [census_insert _ hstore, holders_eq_zero hocc]
        rfl
      · rw [census_insert _ hstore, hocc, ite_self]
        rfl
      · rw [get_insert] at hj
        by_cases hjk : j = k
        · rw [if_pos hjk] at hj
          exact Option.some_inj.mp hj ▸ hwf
        · rw [if_neg hjk] at hj
          split_ifs at hj
          exact h.spaces j sp hj

theorem Accounted.dropSpace (h : st.Accounted) (k : ObjectId) :
    (st.account (.dropSpace k)).Accounted := by
  rw [account]
  cases hk : st.spaces.get k with
  | none => exact h
  | some space =>
    dsimp only
    by_cases hocc : space.occupied = 0
    swap
    · rw [if_neg hocc]
      exact h
    rw [if_pos hocc]
    refine h.of_spaces (fun node ↦ ?_) (fun e ↦ ?_) fun j sp hj ↦ ?_
    · have := census_remove (fun _ (space : CapabilitySpace) ↦ space.holders node) hk
      rw [holders_eq_zero hocc] at this
      exact this
    · have := census_remove
        (fun _ (space : CapabilitySpace) ↦ if space.domain = e then space.occupied else 0) hk
      rw [hocc, ite_self] at this
      exact this
    · rw [get_remove] at hj
      split_ifs at hj
      exact h.spaces j sp hj

end CapState

end Gaxera

import Gaxera.Core.DomainTree

/-!
# Conservation over a tree of domains

From the balance of each domain to the whole tree. What is outstanding in all domains together stays
within the limits of the root as long as nothing is charged to a domain that has given its
reservation back: such a domain still has its limits, and nobody carries them any more.

The two ways out are runs too. A root that has counted as many children as a word can hold is left
with a reservation that belongs to no child, and a child that is charged after its refund spends
what its parent has given out again.
-/

namespace Gaxera

/-- The child that an operation asks to refund. -/
def DomainOp.refundee : DomainOp → Option ResourceDomainId
  | .refund child _ => some child
  | _ => none

namespace DomainTree

variable {t t' : DomainTree} {root i j p c : ResourceDomainId} {limits : Resources}
  {d : ResourceDomain} {op : DomainOp} {ops : List DomainOp}

/-! ## The whole tree -/

/-- The tree hangs together from its root, and nothing is left in a domain that has been
refunded. -/
structure Rooted (root : ResourceDomainId) (limits : Resources) (t : DomainTree) : Prop
    extends Balanced t where
  root_mem : root ∈ t.members
  root_limits : (t.domain root).limits = limits
  root_parent : (t.domain root).parent = none
  root_inactive : (t.domain root).reservationActive = false
  child : ∀ i ∈ t.members, i ≠ root → (t.domain i).parent ≠ none
  settled : ∀ i ∈ t.members, i ≠ root → (t.domain i).reservationActive = false →
    (t.domain i).usage = 0

theorem rooted_start : Rooted root limits (start root limits) where
  toBalanced := balanced_start
  root_mem := Finset.mem_singleton_self root
  root_limits := rfl
  root_parent := rfl
  root_inactive := rfl
  child _ hi hne := absurd (Finset.mem_singleton.mp hi) hne
  settled _ hi hne := absurd (Finset.mem_singleton.mp hi) hne

theorem Rooted.active_of_not_refunded (h : Rooted root limits t) (hi : i ∈ t.members)
    (hne : i ≠ root) (hnot : ¬ t.Refunded i) : (t.domain i).reservationActive = true := by
  by_contra hc
  exact hnot ⟨h.child i hi hne, by simpa using hc⟩

/-- Changing the usage of a domain leaves the tree in place, if a domain that is not active is
only lowered. -/
theorem Rooted.setUsage (h : Rooted root limits t) {usage : Resources}
    {ledger : ResourceDomainId → List Charge}
    (hbal : Balanced { t.setUsage i usage with ledger := ledger })
    (hsettled : (t.domain i).reservationActive = false → i ≠ root → i ∈ t.members →
      usage ≤ (t.domain i).usage) :
    Rooted root limits { t.setUsage i usage with ledger := ledger } where
  toBalanced := hbal
  root_mem := h.root_mem
  root_limits := by
    change ((t.setUsage i usage).domain root).limits = limits
    rw [domain_setUsage]
    exact h.root_limits
  root_parent := by
    change ((t.setUsage i usage).domain root).parent = none
    rw [domain_setUsage]
    exact h.root_parent
  root_inactive := by
    change ((t.setUsage i usage).domain root).reservationActive = false
    rw [domain_setUsage]
    exact h.root_inactive
  child j hj hne := by
    change ((t.setUsage i usage).domain j).parent ≠ none
    rw [domain_setUsage]
    exact h.child j hj hne
  settled j hj hne hinactive := by
    change ((t.setUsage i usage).domain j).usage = 0
    change ((t.setUsage i usage).domain j).reservationActive = false at hinactive
    rw [domain_setUsage] at hinactive ⊢
    by_cases hji : j = i
    · subst hji
      have hzero := h.settled j hj hne hinactive
      rw [if_pos rfl]
      exact le_antisymm (hzero ▸ hsettled hinactive hne hj) (Resources.zero_le _)
    · rw [if_neg hji]
      exact h.settled j hj hne hinactive

theorem Rooted.grow (h : Rooted root limits t) {l : Resources} (hp : p ∈ t.members)
    (hi : i ∉ t.members) (hnot : ¬ t.Refunded p) (hbal : (t.grow p i l).Balanced) :
    Rooted root limits (t.grow p i l) := by
  have hne : ∀ {j}, j ∈ t.members → j ≠ i := fun hj hc ↦ hi (hc ▸ hj)
  have hroot := @shape_grow t i root p l (hne h.root_mem)
  refine ⟨hbal, Finset.mem_insert_of_mem h.root_mem, hroot.2.2.1.trans h.root_limits,
    hroot.1.trans h.root_parent, hroot.2.1.trans h.root_inactive, fun j hj hjr ↦ ?_,
    fun j hj hjr hinactive ↦ ?_⟩
  · rcases Finset.mem_insert.mp hj with rfl | hj
    · rw [domain_grow_self]
      exact nofun
    · rw [(shape_grow (hne hj)).1]
      exact h.child j hj hjr
  · rcases Finset.mem_insert.mp hj with rfl | hj'
    · rw [domain_grow_self]
      rfl
    · rw [(shape_grow (hne hj')).2.1] at hinactive
      have hjp : j ≠ p := by
        rintro rfl
        rw [h.active_of_not_refunded hp hjr hnot] at hinactive
        cases hinactive
      rw [domain_grow_of_ne hjp (hne hj')]
      exact h.settled j hj' hjr hinactive

theorem usage_of_eligible (h : d.isEligibleForDestruction = true) : d.usage = 0 := by
  obtain ⟨-, ho, hc, hm, -⟩ := of_decide_eq_true h
  exact Resources.ext ho hc hm

theorem Rooted.shrink (h : Rooted root limits t) (hpi : p ≠ i) (hchild : i ∈ t.children p)
    (heligible : (t.domain i).isEligibleForDestruction = true) (hbal : (t.shrink i p).Balanced) :
    Rooted root limits (t.shrink i p) := by
  have hroot := shape_shrink (t := t) (j := root) hpi
  have hir : root ≠ i := by
    rintro rfl
    have := (mem_active.mp (mem_children.mp hchild).1).2
    rw [h.root_inactive] at this
    cases this
  refine ⟨hbal, h.root_mem, hroot.2.2.1.trans h.root_limits, hroot.1.trans h.root_parent, ?_,
    fun j hj hjr ↦ ?_, fun j hj hjr hinactive ↦ ?_⟩
  · rw [hroot.2.1, if_neg hir]
    exact h.root_inactive
  · rw [(shape_shrink hpi).1]
    exact h.child j hj hjr
  · by_cases hji : j = i
    · rw [hji, domain_shrink_self]
      exact usage_of_eligible heligible
    · rw [(shape_shrink hpi).2.1, if_neg hji] at hinactive
      have hzero := h.settled j hj hjr hinactive
      by_cases hjp : j = p
      · subst hjp
        rw [domain_shrink_parent hpi]
        change (t.domain j).usage - _ = 0
        rw [hzero]
        ext <;> simp
      · rw [domain_shrink_of_ne hjp hji]
        exact hzero

/-- **One operation** that meets the condition keeps the tree in order. -/
theorem Rooted.exec (h : Rooted root limits t) (hm : t.Matches op) (hmeets : t.Meets op) :
    Rooted root limits (t.exec op).2 := by
  have hbal := h.toBalanced.exec hm (by
    rintro p i l rfl
    exact hmeets.1)
  have hstep := h.toBalanced.step hm
  generalize t.exec op = r at hstep hbal
  cases hstep with
  | unchanged => exact h
  | @charged i c mem fits =>
    refine h.setUsage hbal fun hinactive hne hi ↦ ?_
    rw [h.active_of_not_refunded hi hne hmeets] at hinactive
    cases hinactive
  | released mem outstanding =>
    exact h.setUsage hbal fun _ _ _ ↦ ⟨Nat.sub_le _ _, Nat.sub_le _ _, Nat.sub_le _ _⟩
  | grown mem fresh fits => exact h.grow mem fresh hmeets.2 hbal
  | @halfway p i l mem fits full =>
    refine h.setUsage hbal fun hinactive hne hi ↦ ?_
    rw [h.active_of_not_refunded hi hne hmeets.2] at hinactive
    cases hinactive
  | shrunk mem ne child eligible => exact h.shrink ne child eligible hbal

theorem along_append {P : DomainTree → DomainOp → Prop} {before after : List DomainOp} :
    t.Along P (before ++ after) ↔ t.Along P before ∧ (t.run before).Along P after := by
  induction before generalizing t with
  | nil => exact (and_iff_right trivial).symm
  | cons op before ih =>
    rw [List.cons_append, Along, Along, ih, and_assoc]
    rfl

/-- **A run** whose operations meet the condition keeps the tree in order. -/
theorem Rooted.run (h : Rooted root limits t)
    (hops : t.Along (fun t op ↦ t.Matches op ∧ t.Meets op) ops) :
    Rooted root limits (t.run ops) := by
  induction ops generalizing t with
  | nil => exact h
  | cons op ops ih => exact ih (h.exec hops.1.1 hops.1.2) hops.2

/-- What is outstanding in the whole tree stays within the limits of the root. -/
theorem Rooted.sum_own_le (h : Rooted root limits t) : ∑ i ∈ t.members, t.own i ≤ limits := by
  have hroot := h.within root h.root_mem
  rw [h.root_limits] at hroot
  refine le_trans (@Budgets.sum_own_le _ _ _ _ _ _ t.members t.active root
    (fun i ↦ (t.domain i).parent) (fun i ↦ (t.domain i).limits) (fun i ↦ (t.domain i).usage) t.own
    h.root_mem ?_ h.parent h.usage ?_ ?_) hroot
  · intro i hi
    obtain ⟨hmem, hactive⟩ := mem_active.mp hi
    refine Finset.mem_erase.mpr ⟨?_, hmem⟩
    rintro rfl
    rw [h.root_inactive] at hactive
    cases hactive
  · exact fun c hc ↦ h.within c (mem_active.mp hc).1
  · intro i hi hne hnot
    refine h.settled i hi hne ?_
    by_contra hc
    exact hnot (mem_active.mpr ⟨hi, by simpa using hc⟩)

/-! ## Refunding once -/

/-- How often the reservation of a child is given back in a run. -/
def refunds (t : DomainTree) (i : ResourceDomainId) : List DomainOp → ℕ
  | [] => 0
  | op :: ops =>
    (if op.refundee = some i ∧ (t.exec op).1 = some (.ok ()) then 1 else 0)
      + refunds (t.exec op).2 i ops

theorem Balanced.exec_inactive (h : t.Balanced) (hm : t.Matches op) (hi : i ∈ t.members)
    (hinactive : (t.domain i).reservationActive = false) :
    i ∈ (t.exec op).2.members ∧ ((t.exec op).2.domain i).reservationActive = false := by
  have hstep := h.step hm
  generalize t.exec op = r at hstep
  have husage : ∀ j usage, ((t.setUsage j usage).domain i).reservationActive = false := by
    intro j usage
    rw [domain_setUsage]
    exact hinactive
  cases hstep with
  | unchanged => exact ⟨hi, hinactive⟩
  | charged | released => exact ⟨hi, husage _ _⟩
  | @grown p k l mem fresh fits =>
    have hik : i ≠ k := by
      rintro rfl
      exact fresh hi
    refine ⟨Finset.mem_insert_of_mem hi, ?_⟩
    rw [(shape_grow hik).2.1]
    exact hinactive
  | halfway => exact ⟨hi, husage _ _⟩
  | shrunk mem ne child eligible =>
    refine ⟨hi, ?_⟩
    rw [(shape_shrink ne).2.1, hinactive, ite_self]

/-- A refund that goes through finds the child active and empty, and leaves it inactive. -/
theorem Balanced.refund_ok (h : t.Balanced) (hok : (t.exec (.refund i p)).1 = some (.ok ())) :
    (i ∈ t.members ∧ (t.domain i).reservationActive = true ∧ t.own i = 0)
      ∧ ((t.exec (.refund i p)).2.domain i).reservationActive = false
      ∧ i ∈ (t.exec (.refund i p)).2.members := by
  have hm : t.Matches (.refund i p) := trivial
  have hstep := h.step hm
  generalize t.exec (.refund i p) = r at hstep hok
  cases hstep with
  | unchanged failed => exact absurd hok failed
  | shrunk mem ne child eligible =>
    obtain ⟨hi, hactive⟩ := mem_active.mp (mem_children.mp child).1
    refine ⟨⟨hi, hactive, ?_⟩, ?_, hi⟩
    · have husage := h.usage i hi
      rw [usage_of_eligible eligible] at husage
      exact le_antisymm (husage ▸ Resources.le_add_right _ _) (Resources.zero_le _)
    · rw [domain_shrink_self]

/-- **A reservation is given back at most once.** -/
theorem Rooted.refunds_le (h : Rooted root limits t)
    (hops : t.Along (fun t op ↦ t.Matches op ∧ t.Meets op) ops) (i : ResourceDomainId) :
    t.refunds i ops ≤ 1
      ∧ (i ∈ t.members → (t.domain i).reservationActive = false → t.refunds i ops = 0) := by
  induction ops generalizing t with
  | nil => exact ⟨Nat.zero_le _, fun _ _ ↦ rfl⟩
  | cons op ops ih =>
    obtain ⟨⟨hm, hmeets⟩, hrest⟩ := hops
    obtain ⟨hone, hzero⟩ := ih (h.exec hm hmeets) hrest
    rw [refunds]
    by_cases hrefund : op.refundee = some i ∧ (t.exec op).1 = some (.ok ())
    · obtain ⟨p, rfl⟩ : ∃ p, op = .refund i p := by
        cases op with
        | refund child p =>
          obtain rfl : child = i := Option.some_inj.mp hrefund.1
          exact ⟨p, rfl⟩
        | charge | release | newChild => cases hrefund.1
      obtain ⟨⟨-, hactive, -⟩, hinactive, hmem⟩ := h.toBalanced.refund_ok hrefund.2
      rw [if_pos hrefund, hzero hmem hinactive]
      refine ⟨Nat.le_refl 1, fun _ hc ↦ ?_⟩
      rw [hactive] at hc
      cases hc
    · rw [if_neg hrefund, Nat.zero_add]
      refine ⟨hone, fun hi hinactive ↦ ?_⟩
      obtain ⟨hi', hinactive'⟩ := h.toBalanced.exec_inactive hm hi hinactive
      exact hzero hi' hinactive'

/-! ## Conservation -/

/-- What holds of a tree whose root has these limits: each domain has used what it is charged for
and what it has reserved for its active children, within its limits, it counts its active children,
and all that is outstanding stays within the limits of the root. -/
structure Conserved (limits : Resources) (t : DomainTree) : Prop where
  usage : ∀ i ∈ t.members, (t.domain i).usage = t.own i + t.reserved i
  within : ∀ i ∈ t.members, (t.domain i).usage ≤ (t.domain i).limits
  refs : ∀ i ∈ t.members, (t.domain i).childDomainRefs = (t.children i).card
  total : ∑ i ∈ t.members, t.own i ≤ limits

theorem Rooted.conserved (h : Rooted root limits t) : Conserved limits t :=
  ⟨h.usage, h.within, h.refs, h.sum_own_le⟩

/-- **Conservation over the whole tree.** In every run whose releases match outstanding charges and
whose operations meet the condition, every state reached is conserved, no operation underflows, a
child is refunded only with nothing outstanding, and at most once. -/
theorem domain_tree_conserved (root : ResourceDomainId) (limits : Resources) (ops : List DomainOp)
    (hops : (start root limits).Along (fun t op ↦ t.Matches op ∧ t.Meets op) ops) :
    (∀ before after, ops = before ++ after → Conserved limits ((start root limits).run before))
    ∧ (∀ before op after, ops = before ++ op :: after →
      let t := (start root limits).run before
      (t.exec op).1 ≠ some (.error .accountingUnderflow)
      ∧ ∀ i p, op = .refund i p → (t.exec op).1 = some (.ok ()) → t.own i = 0)
    ∧ ∀ i, (start root limits).refunds i ops ≤ 1 := by
  refine ⟨?_, ?_, fun i ↦ (rooted_start.refunds_le hops i).1⟩
  · rintro before after rfl
    exact (rooted_start.run (along_append.mp hops).1).conserved
  · rintro before op after rfl
    obtain ⟨hbefore, ⟨hm, -⟩, -⟩ := along_append.mp hops
    have hrooted := rooted_start.run hbefore
    refine ⟨?_, ?_⟩
    · have hstep := hrooted.toBalanced.step hm
      generalize ((start root limits).run before).exec op = r at hstep
      cases hstep with
      | unchanged failed underflow => exact underflow
      | charged | released | grown | halfway | shrunk => exact nofun
    · rintro i p rfl hok
      exact (hrooted.toBalanced.refund_ok hok).1.2.2

/-- A child is made, charged, released and refunded, while the root is charged too. -/
theorem domain_tree_conserved_of_one_child :
    Conserved ⟨8, 8, 8192⟩ ((start ⟨⟨0, 1⟩⟩ ⟨8, 8, 8192⟩).run
      [.newChild ⟨⟨0, 1⟩⟩ ⟨⟨1, 1⟩⟩ ⟨2, 5, 4096⟩, .charge ⟨⟨0, 1⟩⟩ .object,
        .charge ⟨⟨1, 1⟩⟩ (.memory 4096), .release ⟨⟨1, 1⟩⟩ (.memory 4096),
        .refund ⟨⟨1, 1⟩⟩ ⟨⟨0, 1⟩⟩]) := by
  refine (domain_tree_conserved ⟨⟨0, 1⟩⟩ ⟨8, 8, 8192⟩ _ ?_).1 _ [] (List.append_nil _).symm
  refine ⟨⟨trivial, fun h ↦ absurd h.full (by decide), fun h ↦ h.1 rfl⟩,
    ⟨trivial, fun h ↦ h.1 rfl⟩, ⟨trivial, fun h ↦ absurd h.2 (by decide)⟩,
    ⟨List.mem_singleton_self _, trivial⟩, ⟨trivial, trivial⟩, trivial⟩

/-! ### Where it is not -/

theorem Balanced.not_conserved_of_halfway (h : t.Balanced) (hp : p ∈ t.members)
    (hi : i ∉ t.members) {l : Resources} (hhalf : (t.domain p).ReservesHalfway l) :
    ¬ Conserved limits (t.exec (.newChild p i l)).2 := by
  intro hc
  rcases ResourceDomain.newChild_cases i (t.domain p) l with
    ⟨hfits, -⟩ | ⟨-, ⟨-, heq⟩ | ⟨hroom, -⟩⟩
  · exact hfits hhalf.fits
  · have hexec : (t.exec (.newChild p i l)).2 = t.setUsage p ((t.domain p).usage + l) := by
      rw [DomainTree.exec, if_pos ⟨hp, hi⟩, heq]
      rfl
    rw [hexec] at hc
    have husage := hc.usage p hp
    rw [domain_setUsage, if_pos rfl, reserved_setUsage] at husage
    refine hhalf.something (ResourceDomain.add_eq_self_iff.mp (husage.trans ?_))
    exact (h.usage p hp).symm
  · exact absurd hhalf.full (Nat.not_le.mpr hroom)

/-- As many different names for children as there are words. -/
def childName (n : ℕ) : ResourceDomainId := ⟨⟨UInt32.ofNat n, 2⟩⟩

theorem childName_inj {m n : ℕ} (hm : m < 2 ^ 32) (hn : n < 2 ^ 32)
    (h : childName m = childName n) : m = n := by
  have := congrArg (fun i : ResourceDomainId ↦ i.objectId.index.toNat) h
  simp only [childName, UInt32.toNat_ofNat_of_lt' hm, UInt32.toNat_ofNat_of_lt' hn] at this
  exact this

/-- `n` children without any budget. -/
def crowd (n : ℕ) : List DomainOp :=
  (List.range n).map fun k ↦ .newChild ⟨⟨0, 1⟩⟩ (childName k) 0

theorem crowd_succ (n : ℕ) :
    crowd (n + 1) = crowd n ++ [.newChild ⟨⟨0, 1⟩⟩ (childName n) 0] := by
  rw [crowd, List.range_succ, List.map_append]
  rfl

theorem run_crowd {n : ℕ} (hn : n < 2 ^ 32) :
    let t := (start ⟨⟨0, 1⟩⟩ ⟨1, 1, 1⟩).run (crowd n)
    t.domain ⟨⟨0, 1⟩⟩ = { ResourceDomain.new ⟨⟨0, 1⟩⟩ ⟨1, 1, 1⟩ with childDomainRefs := n }
      ∧ t.members = insert ⟨⟨0, 1⟩⟩ ((Finset.range n).image childName) := by
  induction n with
  | zero => exact ⟨rfl, rfl⟩
  | succ n ih =>
    obtain ⟨hdomain, hmembers⟩ := ih (by omega)
    dsimp only
    rw [crowd_succ, run_append]
    generalize (start ⟨⟨0, 1⟩⟩ ⟨1, 1, 1⟩).run (crowd n) = t at hdomain hmembers
    have hroot : (⟨⟨0, 1⟩⟩ : ResourceDomainId) ∈ t.members := by
      rw [hmembers]
      exact Finset.mem_insert_self _ _
    have hne : (⟨⟨0, 1⟩⟩ : ResourceDomainId) ≠ childName n := by
      intro hc
      have hgen : (1 : UInt32) = 2 :=
        congrArg (fun i : ResourceDomainId ↦ i.objectId.generation) hc
      exact absurd hgen (by decide)
    have hfresh : childName n ∉ t.members := by
      rw [hmembers, Finset.mem_insert, Finset.mem_image]
      rintro (hc | ⟨m, hm, hc⟩)
      · exact hne hc.symm
      · have := Finset.mem_range.mp hm
        have := childName_inj (by omega) (by omega) hc
        omega
    have hexec : (t.exec (.newChild ⟨⟨0, 1⟩⟩ (childName n) 0)).2
        = t.grow ⟨⟨0, 1⟩⟩ (childName n) 0 := by
      have hrefs : (t.domain ⟨⟨0, 1⟩⟩).childDomainRefs = n := by rw [hdomain]
      have husage : (t.domain ⟨⟨0, 1⟩⟩).usage = ⟨0, 0, 0⟩ := by
        rw [hdomain]
        rfl
      have hlimits : (t.domain ⟨⟨0, 1⟩⟩).limits = ⟨1, 1, 1⟩ := by
        rw [hdomain]
        rfl
      rcases ResourceDomain.newChild_cases (childName n) (t.domain ⟨⟨0, 1⟩⟩) 0 with
        ⟨hfits, -⟩ | ⟨-, ⟨hfull, -⟩ | ⟨-, heq⟩⟩
      · refine absurd ⟨⟨?_, ?_, ?_⟩, ?_⟩ hfits
        · rw [husage]
          decide
        · rw [husage]
          decide
        · rw [husage]
          decide
        · rw [husage, hlimits]
          decide
      · omega
      · rw [exec, if_pos ⟨hroot, hfresh⟩, heq]
        rfl
    change (t.exec (.newChild ⟨⟨0, 1⟩⟩ (childName n) 0)).2.domain ⟨⟨0, 1⟩⟩ = _
      ∧ (t.exec (.newChild ⟨⟨0, 1⟩⟩ (childName n) 0)).2.members = _
    rw [hexec, domain_grow_parent hne, hdomain]
    refine ⟨rfl, ?_⟩
    change insert (childName n) t.members = _
    rw [hmembers, Finset.range_add_one, Finset.image_insert, Finset.insert_comm]

theorem balanced_crowd (n : ℕ) : ((start ⟨⟨0, 1⟩⟩ ⟨1, 1, 1⟩).run (crowd n)).Balanced := by
  induction n with
  | zero => exact balanced_start
  | succ n ih =>
    rw [crowd_succ, run_append]
    refine ih.exec trivial ?_
    rintro p i l heq hhalf
    obtain ⟨-, -, rfl⟩ : _ ∧ _ ∧ 0 = l := by simpa using heq
    exact hhalf.something rfl

theorem along_of_forall {P : DomainTree → DomainOp → Prop} (h : ∀ op ∈ ops, ∀ t, P t op) :
    t.Along P ops := by
  induction ops generalizing t with
  | nil => trivial
  | cons op ops ih =>
    exact ⟨h op List.mem_cons_self t, ih fun op hop ↦ h op (List.mem_cons_of_mem _ hop)⟩

/-- A budget asked of a root that has counted `n` children. -/
def crowdedOps (n : ℕ) : List DomainOp :=
  crowd n ++ [.newChild ⟨⟨0, 1⟩⟩ ⟨⟨0, 3⟩⟩ ⟨1, 1, 1⟩]

theorem along_crowdedOps (n : ℕ) :
    (start ⟨⟨0, 1⟩⟩ ⟨1, 1, 1⟩).Along Matches (crowdedOps n) := by
  refine along_of_forall fun op hop t ↦ ?_
  rcases List.mem_append.mp hop with hop | hop
  · obtain ⟨k, -, rfl⟩ := List.mem_map.mp hop
    trivial
  · obtain rfl := List.mem_singleton.mp hop
    trivial

/-- With as many children as a word can hold, the root has used what nobody holds. -/
theorem not_conserved_crowdedOps {n : ℕ} (hn : n = 2 ^ 32 - 1) :
    ¬ Conserved ⟨1, 1, 1⟩ ((start ⟨⟨0, 1⟩⟩ ⟨1, 1, 1⟩).run (crowdedOps n)) := by
  obtain ⟨hdomain, hmembers⟩ := run_crowd (n := n) (by omega)
  have hbalanced := balanced_crowd n
  rw [crowdedOps, run_append]
  generalize (start ⟨⟨0, 1⟩⟩ ⟨1, 1, 1⟩).run (crowd n) = t at hdomain hmembers hbalanced
  refine hbalanced.not_conserved_of_halfway ?_ ?_ ?_
  · rw [hmembers]
    exact Finset.mem_insert_self _ _
  · rw [hmembers, Finset.mem_insert, Finset.mem_image]
    rintro (hc | ⟨m, -, hc⟩)
    · exact absurd hc (by decide)
    · have hgen : (2 : UInt32) = 3 :=
        congrArg (fun i : ResourceDomainId ↦ i.objectId.generation) hc
      exact absurd hgen (by decide)
  · rw [hdomain, hn]
    exact ⟨⟨⟨by decide, by decide, by decide⟩, by decide⟩, by decide, by decide⟩

/-- A child that is charged after it has been refunded. -/
def revivedOps : List DomainOp :=
  [.newChild ⟨⟨0, 1⟩⟩ ⟨⟨1, 1⟩⟩ ⟨1, 1, 1⟩, .refund ⟨⟨1, 1⟩⟩ ⟨⟨0, 1⟩⟩, .charge ⟨⟨1, 1⟩⟩ .object,
    .charge ⟨⟨0, 1⟩⟩ .object]

/-- Behind the failed reservation the root has used what nobody holds. And a refunded child spends
what its parent has given out again. -/
theorem domain_tree_not_conserved :
    (∃ n, n = 2 ^ 32 - 1 ∧ (start ⟨⟨0, 1⟩⟩ ⟨1, 1, 1⟩).Along Matches (crowdedOps n)
      ∧ ¬ Conserved ⟨1, 1, 1⟩ ((start ⟨⟨0, 1⟩⟩ ⟨1, 1, 1⟩).run (crowdedOps n)))
    ∧ (start ⟨⟨0, 1⟩⟩ ⟨1, 1, 1⟩).Along Matches revivedOps
    ∧ ¬ Conserved ⟨1, 1, 1⟩ ((start ⟨⟨0, 1⟩⟩ ⟨1, 1, 1⟩).run revivedOps) := by
  refine ⟨?_, ⟨trivial, trivial, trivial, trivial, trivial⟩, fun h ↦ ?_⟩
  · obtain ⟨n, hn⟩ : ∃ n, n = 2 ^ 32 - 1 := ⟨_, rfl⟩
    exact ⟨n, hn, along_crowdedOps n, not_conserved_crowdedOps hn⟩
  · exact absurd h.total (by decide)

end DomainTree

end Gaxera

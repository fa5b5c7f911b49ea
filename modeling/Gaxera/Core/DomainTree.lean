import Gaxera.Core.Reservation
import Gaxera.Data.Budgets

/-!
# Trees of resource domains

A tree of domains grows from a root by `new_child`, and every domain of it is charged, released and
refunded in any order. Beside the domains the tree carries what the domains themselves do not know:
the charges of each that have not been released yet.

What a domain has used is what it has been charged for and what it has reserved for its active
children. A reservation that fails on the count of children breaks this, since by then it has been
written; every other operation keeps it.
-/

namespace Gaxera

open ResourceDomain Function

/-! ## Amounts -/

namespace Resources

instance : AddCommMonoid Resources where
  add_assoc a b c := by ext <;> simp [Nat.add_assoc]
  zero_add a := by ext <;> simp
  add_zero a := by ext <;> simp
  add_comm a b := by ext <;> simp [Nat.add_comm]
  nsmul := nsmulRec

instance : PartialOrder Resources where
  le_refl a := ⟨le_rfl, le_rfl, le_rfl⟩
  le_trans a b c h h' := ⟨h.1.trans h'.1, h.2.1.trans h'.2.1, h.2.2.trans h'.2.2⟩
  le_antisymm a b h h' := by
    ext
    · exact le_antisymm h.1 h'.1
    · exact le_antisymm h.2.1 h'.2.1
    · exact le_antisymm h.2.2 h'.2.2

instance : IsOrderedCancelAddMonoid Resources where
  add_le_add_left a b h c := by
    obtain ⟨ho, hc, hm⟩ := h
    exact ⟨Nat.add_le_add_right ho _, Nat.add_le_add_right hc _, Nat.add_le_add_right hm _⟩
  le_of_add_le_add_left a b c h := by
    obtain ⟨ho, hc, hm⟩ := h
    exact ⟨Nat.le_of_add_le_add_left ho, Nat.le_of_add_le_add_left hc,
      Nat.le_of_add_le_add_left hm⟩

instance : DecidableLE Resources := fun a b ↦
  inferInstanceAs (Decidable (a.objects ≤ b.objects ∧ a.capabilities ≤ b.capabilities
    ∧ a.memoryBytes ≤ b.memoryBytes))

theorem zero_le (a : Resources) : 0 ≤ a := ⟨Nat.zero_le _, Nat.zero_le _, Nat.zero_le _⟩

theorem le_add_right (a b : Resources) : a ≤ a + b :=
  ⟨Nat.le_add_right _ _, Nat.le_add_right _ _, Nat.le_add_right _ _⟩

theorem add_sub_cancel_left (a b : Resources) : a + b - a = b := by ext <;> simp

end Resources

/-- What a domain may be charged for. -/
inductive Charge
  | object
  | capability
  | memory (bytes : ℕ)
deriving DecidableEq, Repr

def Charge.amount : Charge → Resources
  | .object => ⟨1, 0, 0⟩
  | .capability => ⟨0, 1, 0⟩
  | .memory bytes => ⟨0, 0, bytes⟩

namespace ResourceDomain

variable {d d' : ResourceDomain} {c : Charge} {e : ResourceError}

def charge (d : ResourceDomain) : Charge → Except ResourceError ResourceDomain
  | .object => d.chargeObject
  | .capability => d.chargeCapability
  | .memory bytes => d.chargeMemory bytes

def release (d : ResourceDomain) : Charge → Except ResourceError ResourceDomain
  | .object => d.releaseObject
  | .capability => d.releaseCapability
  | .memory bytes => d.releaseMemory bytes

theorem charge_eq (h : d.charge c = .ok d') : d' = { d with usage := d.usage + c.amount } := by
  cases c with
  | object => exact (chargeObject_eq_ok.mp h).2
  | capability => exact (chargeCapability_eq_ok.mp h).2
  | memory bytes => exact (chargeMemory_eq_ok.mp h).2.2

theorem charge_le (hd : d.usage ≤ d.limits) (h : d.charge c = .ok d') :
    d.usage + c.amount ≤ d.limits := by
  obtain ⟨ho, hc, hm⟩ := hd
  cases c with
  | object => exact ⟨Nat.succ_le_of_lt (chargeObject_eq_ok.mp h).1, hc, hm⟩
  | capability => exact ⟨ho, Nat.succ_le_of_lt (chargeCapability_eq_ok.mp h).1, hm⟩
  | memory bytes => exact ⟨ho, hc, (chargeMemory_eq_ok.mp h).2.1⟩

theorem release_eq (h : d.release c = .ok d') : d' = { d with usage := d.usage - c.amount } := by
  cases c with
  | object => exact (releaseObject_eq_ok.mp h).2
  | capability => exact (releaseCapability_eq_ok.mp h).2
  | memory bytes => exact (rollbackMemory_eq_ok.mp h).2

theorem charge_ne_underflow (h : d.charge c = .error e) : e ≠ .accountingUnderflow := by
  cases c <;> grind [charge, chargeObject, chargeCapability, chargeMemory]

theorem newChild_ne_underflow {id : ResourceDomainId} {parent parent' : ResourceDomain}
    {limits : Resources} : newChild id parent limits ≠ (.error .accountingUnderflow, parent') := by
  rw [newChild]
  grind

theorem release_of_le (h : c.amount ≤ d.usage) :
    d.release c = .ok { d with usage := d.usage - c.amount } := by
  cases c with
  | object => exact releaseObject_eq_ok.mpr ⟨Nat.one_le_iff_ne_zero.mp h.1, rfl⟩
  | capability => exact releaseCapability_eq_ok.mpr ⟨Nat.one_le_iff_ne_zero.mp h.2.1, rfl⟩
  | memory bytes => exact rollbackMemory_eq_ok.mpr ⟨h.2.2, rfl⟩

end ResourceDomain

/-! ## The tree -/

/-- The domains of a tree, and the charges of each that are outstanding. -/
structure DomainTree where
  members : Finset ResourceDomainId
  domain : ResourceDomainId → ResourceDomain
  ledger : ResourceDomainId → List Charge

inductive DomainOp
  | charge (id : ResourceDomainId) (charge : Charge)
  | release (id : ResourceDomainId) (charge : Charge)
  | newChild (parent id : ResourceDomainId) (limits : Resources)
  | refund (child parent : ResourceDomainId)

namespace DomainTree

variable {t t' : DomainTree} {root i j p c : ResourceDomainId} {limits : Resources}
  {d : ResourceDomain} {op : DomainOp} {ops : List DomainOp}

/-- The root alone. -/
def start (root : ResourceDomainId) (limits : Resources) : DomainTree where
  members := {root}
  domain := fun _ ↦ ResourceDomain.new root limits
  ledger := fun _ ↦ []

def set (t : DomainTree) (i : ResourceDomainId) (d : ResourceDomain) : DomainTree :=
  { t with domain := update t.domain i d }

/-- The result of an operation is empty where it names no domain of the tree, or takes an identity
that is in use. -/
def exec (t : DomainTree) : DomainOp → Option (Except ResourceError Unit) × DomainTree
  | .charge i c =>
    if i ∈ t.members then
      match (t.domain i).charge c with
      | .error e => (some (.error e), t)
      | .ok d =>
        (some (.ok ()), { t.set i d with ledger := update t.ledger i (c :: t.ledger i) })
    else (none, t)
  | .release i c =>
    if i ∈ t.members then
      match (t.domain i).release c with
      | .error e => (some (.error e), t)
      | .ok d =>
        (some (.ok ()),
          { t.set i d with ledger := update t.ledger i ((t.ledger i).erase c) })
    else (none, t)
  | .newChild p i limits =>
    if p ∈ t.members ∧ i ∉ t.members then
      match ResourceDomain.newChild i (t.domain p) limits with
      | (.error e, parent) => (some (.error e), t.set p parent)
      | (.ok child, parent) =>
        (some (.ok ()),
          { (t.set p parent).set i child with
            members := insert i t.members
            ledger := update t.ledger i [] })
    else (none, t)
  | .refund i p =>
    if i ∈ t.members ∧ p ∈ t.members ∧ i ≠ p then
      let r := (t.domain i).refundToParent (t.domain p)
      (some r.1, (t.set p r.2.2).set i r.2.1)
    else (none, t)

/-- The tree after a list of operations. -/
def run (t : DomainTree) : List DomainOp → DomainTree
  | [] => t
  | op :: ops => run (t.exec op).2 ops

theorem run_append (t : DomainTree) (ops ops' : List DomainOp) :
    t.run (ops ++ ops') = (t.run ops).run ops' := by
  induction ops generalizing t with
  | nil => rfl
  | cons op ops ih => exact ih _

/-- Every operation of a run finds the tree as `P` asks for. -/
def Along (P : DomainTree → DomainOp → Prop) (t : DomainTree) : List DomainOp → Prop
  | [] => True
  | op :: ops => P t op ∧ Along P (t.exec op).2 ops

/-- The domains whose reservation is held by their parent. -/
def active (t : DomainTree) : Finset ResourceDomainId :=
  t.members.filter fun i ↦ (t.domain i).reservationActive = true

/-- The active children of a domain. -/
def children (t : DomainTree) (i : ResourceDomainId) : Finset ResourceDomainId :=
  Budgets.childrenOf (fun c ↦ (t.domain c).parent) t.active i

/-- What a domain has been charged for and not released. -/
def own (t : DomainTree) (i : ResourceDomainId) : Resources := ((t.ledger i).map Charge.amount).sum

/-- What a domain has reserved for its active children. -/
def reserved (t : DomainTree) (i : ResourceDomainId) : Resources :=
  ∑ c ∈ t.children i, (t.domain c).limits

/-- A domain that was a child once, and has given its reservation back. -/
def Refunded (t : DomainTree) (i : ResourceDomainId) : Prop :=
  (t.domain i).parent ≠ none ∧ (t.domain i).reservationActive = false

/-- A release matches an outstanding charge. -/
def Matches (t : DomainTree) : DomainOp → Prop
  | .release i c => c ∈ t.ledger i
  | _ => True

/-- No budget is asked of a parent that cannot count another child, and a domain that has been
refunded is left alone. -/
def Meets (t : DomainTree) : DomainOp → Prop
  | .charge i _ => ¬ t.Refunded i
  | .newChild p _ limits => ¬ (t.domain p).ReservesHalfway limits ∧ ¬ t.Refunded p
  | _ => True

/-! ## The invariant -/

theorem mem_active : i ∈ t.active ↔ i ∈ t.members ∧ (t.domain i).reservationActive = true :=
  Finset.mem_filter

theorem mem_children :
    c ∈ t.children i ↔ c ∈ t.active ∧ (t.domain c).parent = some i :=
  Budgets.mem_childrenOf

/-- Every domain has used what it has been charged for and what it has reserved for its active
children. -/
structure Balanced (t : DomainTree) : Prop where
  id : ∀ i ∈ t.members, (t.domain i).id = i
  parent : ∀ c ∈ t.active, ∃ p ∈ t.members, (t.domain c).parent = some p
  usage : ∀ i ∈ t.members, (t.domain i).usage = t.own i + t.reserved i
  within : ∀ i ∈ t.members, (t.domain i).usage ≤ (t.domain i).limits
  refs : ∀ i ∈ t.members, (t.domain i).childDomainRefs = (t.children i).card

theorem balanced_start : (start root limits).Balanced := by
  have hactive : (start root limits).active = ∅ := by
    refine Finset.filter_eq_empty_iff.mpr fun i _ ↦ ?_
    simp [start, ResourceDomain.new]
  have hchildren : ∀ i, (start root limits).children i = ∅ := by
    intro i
    rw [children, hactive]
    rfl
  constructor
  · intro i hi
    exact (Finset.mem_singleton.mp hi).symm
  · intro c hc
    rw [hactive] at hc
    simp at hc
  · intro i _
    rw [reserved, hchildren, own]
    rfl
  · exact fun i _ ↦ Resources.zero_le _
  · intro i _
    rw [hchildren]
    rfl

/-! ### Charging and releasing -/

/-- Changing the usage of one domain. -/
def setUsage (t : DomainTree) (i : ResourceDomainId) (usage : Resources) : DomainTree :=
  t.set i { t.domain i with usage := usage }

section SetUsage

variable {usage : Resources}

theorem domain_setUsage (j : ResourceDomainId) :
    (t.setUsage i usage).domain j
      = { t.domain j with usage := if j = i then usage else (t.domain j).usage } := by
  change update t.domain i _ j = _
  by_cases hj : j = i
  · subst hj
    rw [update_self, if_pos rfl]
  · rw [update_of_ne hj, if_neg hj]

theorem active_setUsage : (t.setUsage i usage).active = t.active := by
  rw [active, active]
  refine Finset.filter_congr fun j _ ↦ ?_
  rw [domain_setUsage]

theorem children_setUsage : (t.setUsage i usage).children j = t.children j := by
  rw [children, children, active_setUsage]
  refine Finset.filter_congr fun c _ ↦ ?_
  dsimp only
  rw [domain_setUsage]

theorem reserved_setUsage : (t.setUsage i usage).reserved j = t.reserved j := by
  rw [reserved, reserved, children_setUsage]
  refine Finset.sum_congr rfl fun c _ ↦ ?_
  rw [domain_setUsage]

theorem Balanced.setUsage (h : t.Balanced) (hle : usage ≤ (t.domain i).limits)
    {charges : List Charge} (hown : usage = (charges.map Charge.amount).sum + t.reserved i) :
    Balanced { t.setUsage i usage with ledger := update t.ledger i charges } := by
  constructor
  · intro j hj
    change ((t.setUsage i usage).domain j).id = j
    rw [domain_setUsage]
    exact h.id j hj
  · intro c hc
    change c ∈ (t.setUsage i usage).active at hc
    rw [active_setUsage] at hc
    change ∃ p ∈ t.members, ((t.setUsage i usage).domain c).parent = some p
    rw [domain_setUsage]
    exact h.parent c hc
  · intro j hj
    change ((t.setUsage i usage).domain j).usage
      = ((update t.ledger i charges j).map Charge.amount).sum
        + (t.setUsage i usage).reserved j
    rw [domain_setUsage, reserved_setUsage]
    by_cases hji : j = i
    · subst hji
      rw [if_pos rfl, update_self]
      exact hown
    · rw [if_neg hji, update_of_ne hji]
      exact h.usage j hj
  · intro j hj
    change ((t.setUsage i usage).domain j).usage ≤ ((t.setUsage i usage).domain j).limits
    rw [domain_setUsage]
    by_cases hji : j = i
    · subst hji
      rw [if_pos rfl]
      exact hle
    · rw [if_neg hji]
      exact h.within j hj
  · intro j hj
    change ((t.setUsage i usage).domain j).childDomainRefs = ((t.setUsage i usage).children j).card
    rw [domain_setUsage, children_setUsage]
    exact h.refs j hj

end SetUsage

theorem amount_le_own {charge : Charge} (h : charge ∈ t.ledger i) :
    charge.amount ≤ t.own i := by
  rw [own, (List.perm_cons_erase h).map Charge.amount |>.sum_eq, List.map_cons, List.sum_cons]
  exact Resources.le_add_right _ _

theorem own_erase {charge : Charge} (h : charge ∈ t.ledger i) :
    charge.amount + (((t.ledger i).erase charge).map Charge.amount).sum = t.own i := by
  rw [own, (List.perm_cons_erase h).map Charge.amount |>.sum_eq, List.map_cons, List.sum_cons]

/-! ### Reserving and refunding -/

theorem not_mem_children_of_not_mem (h : t.Balanced) (hi : i ∉ t.members) : t.children i = ∅ := by
  refine Finset.eq_empty_of_forall_notMem fun c hc ↦ ?_
  obtain ⟨hactive, hparent⟩ := mem_children.mp hc
  obtain ⟨p, hp, hpc⟩ := h.parent c hactive
  exact hi (Option.some_inj.mp (hparent.symm.trans hpc) ▸ hp)

section NewChild

/-- The tree with a child more. -/
def grow (t : DomainTree) (p i : ResourceDomainId) (limits : Resources) : DomainTree :=
  { (t.set p { (t.domain p).reserve limits with
      childDomainRefs := (t.domain p).childDomainRefs + 1 }).set i
        (ResourceDomain.child i (t.domain p) limits) with
    members := insert i t.members
    ledger := update t.ledger i [] }

theorem domain_grow_self : (t.grow p i limits).domain i
    = ResourceDomain.child i (t.domain p) limits :=
  update_self ..

theorem domain_grow_parent (hpi : p ≠ i) : (t.grow p i limits).domain p
    = { (t.domain p).reserve limits with
      childDomainRefs := (t.domain p).childDomainRefs + 1 } :=
  (update_of_ne hpi ..).trans (update_self ..)

theorem domain_grow_of_ne (hp : j ≠ p) (hi : j ≠ i) :
    (t.grow p i limits).domain j = t.domain j :=
  (update_of_ne hi ..).trans (update_of_ne hp ..)

theorem shape_grow (hi : j ≠ i) :
    ((t.grow p i limits).domain j).parent = (t.domain j).parent
      ∧ ((t.grow p i limits).domain j).reservationActive = (t.domain j).reservationActive
      ∧ ((t.grow p i limits).domain j).limits = (t.domain j).limits
      ∧ ((t.grow p i limits).domain j).id = (t.domain j).id := by
  by_cases hp : j = p
  · subst hp
    rw [domain_grow_parent hi]
    exact ⟨rfl, rfl, rfl, rfl⟩
  · rw [domain_grow_of_ne hp hi]
    exact ⟨rfl, rfl, rfl, rfl⟩

theorem active_grow (hi : i ∉ t.members) : (t.grow p i limits).active = insert i t.active := by
  ext j
  rw [mem_active, Finset.mem_insert, mem_active]
  by_cases hj : j = i
  · subst hj
    rw [domain_grow_self]
    exact iff_of_true ⟨Finset.mem_insert_self _ _, rfl⟩ (Or.inl rfl)
  · rw [(shape_grow hj).2.1]
    change j ∈ insert i t.members ∧ _ ↔ _
    simp [hj]

theorem children_grow (h : t.Balanced) (hp : p ∈ t.members) (hi : i ∉ t.members)
    (j : ResourceDomainId) :
    (t.grow p i limits).children j = if j = p then insert i (t.children p) else t.children j := by
  have hid := h.id p hp
  ext c
  rw [mem_children, active_grow hi]
  by_cases hc : c = i
  · subst hc
    have hnot : ∀ k, c ∉ t.children k := fun k hk ↦
      hi (mem_active.mp (mem_children.mp hk).1).1
    rw [domain_grow_self]
    change c ∈ insert c t.active ∧ some (t.domain p).id = some j ↔ _
    rw [hid]
    by_cases hj : j = p
    · simp [hj]
    · rw [if_neg hj]
      simp [hnot, Ne.symm hj]
  · rw [(shape_grow hc).1, Finset.mem_insert, or_iff_right hc, ← mem_children]
    by_cases hj : j = p
    · rw [if_pos hj, Finset.mem_insert, or_iff_right hc, hj]
    · rw [if_neg hj]

theorem reserved_grow (h : t.Balanced) (hp : p ∈ t.members) (hi : i ∉ t.members)
    (j : ResourceDomainId) :
    (t.grow p i limits).reserved j = t.reserved j + if j = p then limits else 0 := by
  have hold : ∀ k, ∑ c ∈ t.children k, ((t.grow p i limits).domain c).limits = t.reserved k := by
    intro k
    refine Finset.sum_congr rfl fun c hc ↦ (shape_grow ?_).2.2.1
    rintro rfl
    exact hi (mem_active.mp (mem_children.mp hc).1).1
  rw [reserved, children_grow h hp hi]
  by_cases hj : j = p
  · subst hj
    have hnot : i ∉ t.children j := fun hc ↦ hi (mem_active.mp (mem_children.mp hc).1).1
    rw [if_pos rfl, if_pos rfl, Finset.sum_insert hnot, hold, domain_grow_self, add_comm]
    rfl
  · rw [if_neg hj, if_neg hj, hold, add_zero]

theorem own_grow (hj : j ≠ i) : (t.grow p i limits).own j = t.own j := by
  change ((update t.ledger i [] j).map Charge.amount).sum = _
  rw [update_of_ne hj]
  rfl

theorem Balanced.grow (h : t.Balanced) (hp : p ∈ t.members) (hi : i ∉ t.members)
    (hfits : (t.domain p).Fits limits) : (t.grow p i limits).Balanced := by
  have hpi : p ≠ i := fun hc ↦ hi (hc ▸ hp)
  have hne : ∀ {j}, j ∈ t.members → j ≠ i := fun hj hc ↦ hi (hc ▸ hj)
  have hmem : ∀ {j}, j ∈ (t.grow p i limits).members ↔ j = i ∨ j ∈ t.members :=
    Finset.mem_insert
  constructor
  · intro j hj
    rcases hmem.mp hj with rfl | hj
    · rw [domain_grow_self]
      rfl
    · exact (shape_grow (hne hj)).2.2.2.trans (h.id j hj)
  · intro c hc
    rw [active_grow hi, Finset.mem_insert] at hc
    rcases hc with rfl | hc
    · refine ⟨p, hmem.mpr (Or.inr hp), ?_⟩
      rw [domain_grow_self]
      exact congrArg some (h.id p hp)
    · obtain ⟨q, hq, hqc⟩ := h.parent c hc
      refine ⟨q, hmem.mpr (Or.inr hq), ?_⟩
      rw [(shape_grow (hne (mem_active.mp hc).1)).1, hqc]
  · intro j hj
    rw [reserved_grow h hp hi]
    rcases hmem.mp hj with rfl | hj
    · -- The child itself starts with nothing.
      have hown : (t.grow p j limits).own j = 0 := by
        change ((update t.ledger j [] j).map Charge.amount).sum = 0
        rw [update_self]
        rfl
      have hreserved : t.reserved j = 0 := by
        rw [reserved, not_mem_children_of_not_mem h hi, Finset.sum_empty]
      rw [domain_grow_self, hown, hreserved, if_neg hpi.symm]
      rfl
    · rw [own_grow (hne hj), ← add_assoc, ← h.usage j hj]
      by_cases hjp : j = p
      · subst hjp
        rw [domain_grow_parent hpi, if_pos rfl]
        rfl
      · rw [domain_grow_of_ne hjp (hne hj), if_neg hjp, add_zero]
  · intro j hj
    rcases hmem.mp hj with rfl | hj
    · rw [domain_grow_self]
      exact Resources.zero_le _
    · by_cases hjp : j = p
      · subst hjp
        rw [domain_grow_parent hpi]
        exact hfits.limits
      · rw [domain_grow_of_ne hjp (hne hj)]
        exact h.within j hj
  · intro j hj
    rw [children_grow h hp hi]
    rcases hmem.mp hj with rfl | hj'
    · rw [domain_grow_self, if_neg hpi.symm, not_mem_children_of_not_mem h hi]
      rfl
    · by_cases hjp : j = p
      · subst hjp
        have hnot : i ∉ t.children j := fun hc ↦ hi (mem_active.mp (mem_children.mp hc).1).1
        rw [domain_grow_parent hpi, if_pos rfl, Finset.card_insert_of_notMem hnot, ← h.refs j hj']
      · rw [domain_grow_of_ne hjp (hne hj'), if_neg hjp]
        exact h.refs j hj'

end NewChild

section Refund

/-- The tree after a child has given its reservation back. -/
def shrink (t : DomainTree) (i p : ResourceDomainId) : DomainTree :=
  (t.set p ((t.domain p).restore (t.domain i))).set i
    { t.domain i with reservationActive := false }

theorem domain_shrink_self : (t.shrink i p).domain i
    = { t.domain i with reservationActive := false } :=
  update_self ..

theorem domain_shrink_parent (hpi : p ≠ i) :
    (t.shrink i p).domain p = (t.domain p).restore (t.domain i) :=
  (update_of_ne hpi ..).trans (update_self ..)

theorem domain_shrink_of_ne (hp : j ≠ p) (hi : j ≠ i) : (t.shrink i p).domain j = t.domain j :=
  (update_of_ne hi ..).trans (update_of_ne hp ..)

theorem shape_shrink (hpi : p ≠ i) :
    ((t.shrink i p).domain j).parent = (t.domain j).parent
      ∧ ((t.shrink i p).domain j).reservationActive
        = (if j = i then false else (t.domain j).reservationActive)
      ∧ ((t.shrink i p).domain j).limits = (t.domain j).limits
      ∧ ((t.shrink i p).domain j).id = (t.domain j).id := by
  by_cases hi : j = i
  · subst hi
    rw [domain_shrink_self, if_pos rfl]
    exact ⟨rfl, rfl, rfl, rfl⟩
  · rw [if_neg hi]
    by_cases hp : j = p
    · subst hp
      rw [domain_shrink_parent hpi]
      exact ⟨rfl, rfl, rfl, rfl⟩
    · rw [domain_shrink_of_ne hp hi]
      exact ⟨rfl, rfl, rfl, rfl⟩

theorem active_shrink (hpi : p ≠ i) : (t.shrink i p).active = t.active.erase i := by
  ext j
  rw [mem_active, (shape_shrink hpi).2.1, Finset.mem_erase, mem_active]
  change j ∈ t.members ∧ _ ↔ _
  by_cases hj : j = i <;> simp [hj]

theorem children_shrink (hpi : p ≠ i) : (t.shrink i p).children j = (t.children j).erase i := by
  ext c
  rw [mem_children, active_shrink hpi, (shape_shrink hpi).1, Finset.mem_erase, Finset.mem_erase,
    mem_children, and_assoc]

theorem reserved_shrink (hpi : p ≠ i) :
    (t.shrink i p).reserved j = ∑ c ∈ (t.children j).erase i, (t.domain c).limits := by
  rw [reserved, children_shrink hpi]
  exact Finset.sum_congr rfl fun c _ ↦ (shape_shrink hpi).2.2.1

/-- The parent carries what a child with an active reservation is to get back. -/
theorem Balanced.covers (h : t.Balanced) (hi : i ∈ t.members) (hp : p ∈ t.members)
    (hready : (t.domain i).Refundable (t.domain p)) :
    i ∈ t.children p ∧ (t.domain p).Covers (t.domain i) := by
  have hchild : i ∈ t.children p := by
    refine mem_children.mpr ⟨mem_active.mpr ⟨hi, hready.active⟩, ?_⟩
    rw [hready.parent, h.id p hp]
  refine ⟨hchild, ⟨?_, ?_⟩⟩
  · rw [h.usage p hp, reserved, ← Finset.add_sum_erase _ _ hchild, add_left_comm]
    exact Resources.le_add_right _ _
  · rw [h.refs p hp]
    exact Finset.card_ne_zero_of_mem hchild

theorem Balanced.shrink (h : t.Balanced) (hp : p ∈ t.members) (hpi : p ≠ i)
    (hchild : i ∈ t.children p) : (t.shrink i p).Balanced := by
  have hnot : ∀ {j}, j ≠ p → i ∉ t.children j := fun hj hc ↦
    hj (Option.some_inj.mp ((mem_children.mp hc).2.symm.trans (mem_children.mp hchild).2))
  have hown : ∀ j, (t.shrink i p).own j = t.own j := fun _ ↦ rfl
  constructor
  · intro j hj
    exact (shape_shrink hpi).2.2.2.trans (h.id j hj)
  · intro c hc
    rw [active_shrink hpi] at hc
    rw [(shape_shrink hpi).1]
    exact h.parent c (Finset.mem_of_mem_erase hc)
  · intro j hj
    rw [hown, reserved_shrink hpi]
    by_cases hjp : j = p
    · subst hjp
      rw [domain_shrink_parent hpi]
      change (t.domain j).usage - (t.domain i).limits = _
      rw [h.usage j hp, reserved, ← Finset.add_sum_erase _ _ hchild, add_left_comm,
        Resources.add_sub_cancel_left]
    · rw [Finset.erase_eq_of_notMem (hnot hjp)]
      have husage : ((t.shrink i p).domain j).usage = (t.domain j).usage := by
        by_cases hji : j = i
        · rw [hji, domain_shrink_self]
        · rw [domain_shrink_of_ne hjp hji]
      exact husage.trans (h.usage j hj)
  · intro j hj
    rw [(shape_shrink hpi).2.2.1]
    refine le_trans ?_ (h.within j hj)
    by_cases hji : j = i
    · rw [hji, domain_shrink_self]
    · by_cases hjp : j = p
      · rw [hjp, domain_shrink_parent hpi]
        exact ⟨Nat.sub_le _ _, Nat.sub_le _ _, Nat.sub_le _ _⟩
      · rw [domain_shrink_of_ne hjp hji]
  · intro j hj
    rw [children_shrink hpi]
    by_cases hjp : j = p
    · subst hjp
      rw [domain_shrink_parent hpi, Finset.card_erase_of_mem hchild, ← h.refs j hp]
      rfl
    · rw [Finset.erase_eq_of_notMem (hnot hjp), ← h.refs j hj]
      by_cases hji : j = i
      · rw [hji, domain_shrink_self]
      · rw [domain_shrink_of_ne hjp hji]

end Refund

/-! ## One operation -/

/-- What an operation does to a tree that is balanced. -/
inductive Step (t : DomainTree) : DomainOp → Option (Except ResourceError Unit) × DomainTree → Prop
  | unchanged {op : DomainOp} {r : Option (Except ResourceError Unit)} (failed : r ≠ some (.ok ()))
      (underflow : r ≠ some (.error .accountingUnderflow)) : Step t op (r, t)
  | charged {i : ResourceDomainId} {c : Charge} (mem : i ∈ t.members)
      (fits : (t.domain i).usage + c.amount ≤ (t.domain i).limits) :
      Step t (.charge i c) (some (.ok ()),
        { t.setUsage i ((t.domain i).usage + c.amount) with
          ledger := update t.ledger i (c :: t.ledger i) })
  | released {i : ResourceDomainId} {c : Charge} (mem : i ∈ t.members)
      (outstanding : c ∈ t.ledger i) :
      Step t (.release i c) (some (.ok ()),
        { t.setUsage i ((t.domain i).usage - c.amount) with
          ledger := update t.ledger i ((t.ledger i).erase c) })
  | grown {p i : ResourceDomainId} {limits : Resources} (mem : p ∈ t.members)
      (fresh : i ∉ t.members) (fits : (t.domain p).Fits limits) :
      Step t (.newChild p i limits) (some (.ok ()), t.grow p i limits)
  | halfway {p i : ResourceDomainId} {limits : Resources} (mem : p ∈ t.members)
      (fits : (t.domain p).Fits limits) (full : 2 ^ 32 ≤ (t.domain p).childDomainRefs + 1) :
      Step t (.newChild p i limits)
        (some (.error .objectLimit), t.setUsage p ((t.domain p).usage + limits))
  | shrunk {i p : ResourceDomainId} (mem : p ∈ t.members) (ne : p ≠ i) (child : i ∈ t.children p)
      (eligible : (t.domain i).isEligibleForDestruction = true) :
      Step t (.refund i p) (some (.ok ()), t.shrink i p)

theorem set_self (t : DomainTree) (i : ResourceDomainId) : t.set i (t.domain i) = t := by
  rw [set, update_eq_self]

/-- **One operation**, if a release matches an outstanding charge. -/
theorem Balanced.step (h : t.Balanced) (hm : t.Matches op) : Step t op (t.exec op) := by
  cases op with
  | charge i c =>
    rw [exec]
    by_cases hi : i ∈ t.members
    swap
    · rw [if_neg hi]
      exact .unchanged nofun nofun
    rw [if_pos hi]
    cases hc : (t.domain i).charge c with
    | error e =>
      refine .unchanged nofun fun hu ↦ charge_ne_underflow hc ?_
      simpa using hu
    | ok d =>
      obtain rfl := charge_eq hc
      exact .charged hi (charge_le (h.within i hi) hc)
  | release i c =>
    rw [exec]
    by_cases hi : i ∈ t.members
    swap
    · rw [if_neg hi]
      exact .unchanged nofun nofun
    have hle : c.amount ≤ (t.domain i).usage := by
      rw [h.usage i hi]
      exact (amount_le_own hm).trans (Resources.le_add_right _ _)
    rw [if_pos hi, release_of_le hle]
    exact .released hi hm
  | newChild p i limits =>
    rw [exec]
    by_cases hpi : p ∈ t.members ∧ i ∉ t.members
    swap
    · rw [if_neg hpi]
      exact .unchanged nofun nofun
    rw [if_pos hpi]
    rcases newChild_cases i (t.domain p) limits with
      ⟨hfits, e, heq⟩ | ⟨hfits, ⟨hfull, heq⟩ | ⟨-, heq⟩⟩
    · rw [heq]
      dsimp only
      rw [set_self]
      refine .unchanged nofun fun hu ↦ ?_
      obtain rfl : e = .accountingUnderflow := by simpa using hu
      exact newChild_ne_underflow heq
    · rw [heq]
      exact .halfway hpi.1 hfits hfull
    · rw [heq]
      exact .grown hpi.1 hpi.2 hfits
  | refund i p =>
    rw [exec]
    by_cases hip : i ∈ t.members ∧ p ∈ t.members ∧ i ≠ p
    swap
    · rw [if_neg hip]
      exact .unchanged nofun nofun
    rw [if_pos hip]
    dsimp only
    obtain ⟨hi, hp, hne⟩ := hip
    rcases refundToParent_cases (t.domain i) (t.domain p) with
      ⟨-, heq⟩ | ⟨hready, ⟨hshort, heq⟩ | ⟨-, heq⟩⟩
    · rw [heq]
      dsimp only
      rw [set_self, set_self]
      exact .unchanged nofun nofun
    · exact absurd (h.covers hi hp hready).2 hshort
    · rw [heq]
      exact .shrunk hp hne.symm (h.covers hi hp hready).1 hready.eligible

theorem Balanced.exec (h : t.Balanced) (hm : t.Matches op)
    (hroom : ∀ p i l, op = .newChild p i l → ¬ (t.domain p).ReservesHalfway l) :
    (t.exec op).2.Balanced := by
  have hstep := h.step hm
  generalize t.exec op = r at hstep
  cases hstep with
  | unchanged => exact h
  | @charged i c mem fits =>
    refine h.setUsage fits ?_
    rw [List.map_cons, List.sum_cons, h.usage i mem, add_comm, add_assoc]
    rfl
  | @released i c mem outstanding =>
    refine h.setUsage (le_trans ?_ (h.within i mem)) ?_
    · exact ⟨Nat.sub_le _ _, Nat.sub_le _ _, Nat.sub_le _ _⟩
    · rw [h.usage i mem, ← own_erase outstanding, add_assoc, Resources.add_sub_cancel_left]
  | grown mem fresh fits => exact h.grow mem fresh fits
  | @halfway p i l mem fits full =>
    -- A budget of nothing is reserved, which changes nothing.
    have hzero : l = 0 := by
      by_contra hne
      exact hroom p i l rfl ⟨fits, full, hne⟩
    have hset : t.setUsage p ((t.domain p).usage + l) = t := by
      rw [hzero, add_zero, DomainTree.setUsage]
      exact set_self t p
    change (t.setUsage p ((t.domain p).usage + l)).Balanced
    rw [hset]
    exact h
  | shrunk mem ne child eligible => exact h.shrink mem ne child

end DomainTree

end Gaxera

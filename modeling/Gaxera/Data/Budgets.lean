import Mathlib.Algebra.Order.BigOperators.Group.Finset

/-!
# Budgets reserved in a hierarchy

Accounts form a hierarchy in which the whole limit of an active child is part of the usage of its
parent. An account that stays within its limit then stays within what its parent has reserved for
it, and what is spent in all of them together stays within the usage of the root. No induction over
the hierarchy is needed: every reservation is counted once at the parent that carries it and once at
the child that spends within it.
-/

namespace Gaxera

namespace Budgets

variable {ι M : Type*} [DecidableEq ι] [AddCommMonoid M]

/-- The accounts among `active` that have `i` as their parent. -/
def childrenOf (parent : ι → Option ι) (active : Finset ι) (i : ι) : Finset ι :=
  active.filter fun c ↦ parent c = some i

theorem mem_childrenOf {parent : ι → Option ι} {active : Finset ι} {i c : ι} :
    c ∈ childrenOf parent active i ↔ c ∈ active ∧ parent c = some i :=
  Finset.mem_filter

theorem sum_sum_childrenOf {accounts active : Finset ι} {parent : ι → Option ι} {limit : ι → M}
    (hparent : ∀ c ∈ active, ∃ p ∈ accounts, parent c = some p) :
    ∑ i ∈ accounts, ∑ c ∈ childrenOf parent active i, limit c = ∑ c ∈ active, limit c := by
  have hdisjoint : (accounts : Set ι).PairwiseDisjoint (childrenOf parent active) := by
    intro i _ j _ hij
    refine Finset.disjoint_left.mpr fun c hc hc' ↦ hij ?_
    exact Option.some_inj.mp ((mem_childrenOf.mp hc).2.symm.trans (mem_childrenOf.mp hc').2)
  rw [← Finset.sum_biUnion hdisjoint]
  congr 1
  ext c
  rw [Finset.mem_biUnion]
  constructor
  · rintro ⟨i, -, hc⟩
    exact (mem_childrenOf.mp hc).1
  · intro hc
    obtain ⟨p, hp, hpc⟩ := hparent c hc
    exact ⟨p, hp, mem_childrenOf.mpr ⟨hc, hpc⟩⟩

/-- **What is spent in the whole hierarchy stays within the usage of its root**, if the accounts
that are neither the root nor active are empty. -/
theorem sum_own_le [PartialOrder M] [IsOrderedCancelAddMonoid M] {accounts active : Finset ι}
    {root : ι} {parent : ι → Option ι} {limit usage own : ι → M} (hroot : root ∈ accounts)
    (hactive : active ⊆ accounts.erase root)
    (hparent : ∀ c ∈ active, ∃ p ∈ accounts, parent c = some p)
    (husage : ∀ i ∈ accounts, usage i = own i + ∑ c ∈ childrenOf parent active i, limit c)
    (hlimit : ∀ c ∈ active, usage c ≤ limit c)
    (hempty : ∀ i ∈ accounts, i ≠ root → i ∉ active → usage i = 0) :
    ∑ i ∈ accounts, own i ≤ usage root := by
  have htotal : ∑ i ∈ accounts, usage i = ∑ i ∈ accounts, own i + ∑ c ∈ active, limit c := by
    rw [Finset.sum_congr rfl husage, Finset.sum_add_distrib, sum_sum_childrenOf hparent]
  have hsplit : ∑ i ∈ accounts, usage i = usage root + ∑ c ∈ active, usage c := by
    rw [← Finset.add_sum_erase accounts usage hroot]
    congr 1
    refine (Finset.sum_subset hactive fun i hi hna ↦ ?_).symm
    exact hempty i (Finset.mem_of_mem_erase hi) (Finset.ne_of_mem_erase hi) hna
  refine le_of_add_le_add_right (a := ∑ c ∈ active, limit c) ?_
  rw [← htotal, hsplit]
  gcongr with c hc
  exact hlimit c hc

end Budgets

end Gaxera

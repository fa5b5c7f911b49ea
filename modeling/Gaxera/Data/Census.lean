import Mathlib.Algebra.BigOperators.Group.List.Basic
import Mathlib.Algebra.BigOperators.Group.List.Lemmas
import Mathlib.Algebra.BigOperators.Group.Finset.Piecewise
import Mathlib.Algebra.Ring.Nat
import Mathlib.Data.Finset.Card
import Std.Data.TreeMap.Lemmas

/-!
# Counting over tables and ordered maps

A census of a development that keeps its objects in tables and ordered maps is a count over the
entries of a list or a sum over the entries of a map: how many entries have a property, how much
they weigh together. What is needed of it is how it moves when one entry is written, inserted or
erased, and that is stated without subtraction: the old weight of the entry stands on the other
side.
-/

namespace Gaxera

/-! ## Tables -/

/-- Writing one entry of a table replaces what the entry counted for. -/
theorem countP_set_add {α : Type*} (p : α → Bool) {l : List α} {i : ℕ} {a b : α}
    (h : l[i]? = some b) :
    (l.set i a).countP p + (if p b then 1 else 0) = l.countP p + if p a then 1 else 0 := by
  induction l generalizing i with
  | nil => simp at h
  | cons x l ih =>
    cases i with
    | zero =>
      obtain rfl : x = b := by simpa using h
      simp only [List.set_cons_zero, List.countP_cons]
      omega
    | succ i =>
      have := ih (i := i) (by simpa using h)
      simp only [List.set_cons_succ, List.countP_cons]
      omega

/-! ## Ordered maps

`TreeMap.sumBy f t` adds up `f k v` over the entries of `t`. -/

open Std

namespace TreeMap

variable {α β : Type*} {cmp : α → α → Ordering} {t : Std.TreeMap α β cmp}

/-- The sum of `f` over the entries of `t`. -/
def sumBy (f : α → β → ℕ) (t : Std.TreeMap α β cmp) : ℕ :=
  (t.toList.map fun e ↦ f e.1 e.2).sum

variable [TransCmp cmp] [LawfulEqCmp cmp] [DecidableEq α]

private theorem sum_filter_key (f : α → β → ℕ) (k : α) :
    ((t.toList.filter fun e ↦ decide (e.1 = k)).map fun e ↦ f e.1 e.2).sum
      = (t[k]?).elim 0 (f k) := by
  have hpair := t.distinct_keys_toList
  have hmem : ∀ v, (k, v) ∈ t.toList ↔ t[k]? = some v := fun v ↦
    Std.TreeMap.mem_toList_iff_getElem?_eq_some
  generalize t.toList = l at hpair hmem ⊢
  generalize t[k]? = o at hmem ⊢
  induction l generalizing o with
  | nil =>
    cases o with
    | none => rfl
    | some v => exact absurd ((hmem v).mpr rfl) (by simp)
  | cons e l ih =>
    obtain ⟨hhead, htail⟩ := List.pairwise_cons.mp hpair
    by_cases hk : e.1 = k
    · obtain ⟨k', v⟩ := e
      subst hk
      have ho : o = some v := ((hmem v).mp List.mem_cons_self)
      have hnone : ∀ v', (k', v') ∉ l := by
        intro v' hv'
        exact hhead _ hv' (LawfulEqCmp.compare_eq_iff_eq.mpr rfl)
      have hrest := ih htail none fun v' ↦ iff_of_false (hnone v') (by simp)
      rw [List.filter_cons_of_pos (by simp), List.map_cons, List.sum_cons, hrest, ho]
      rfl
    · rw [List.filter_cons_of_neg (by simpa using hk)]
      refine ih htail o fun v ↦ ?_
      rw [← hmem v, List.mem_cons]
      refine ⟨Or.inr, fun h ↦ h.resolve_left ?_⟩
      rintro rfl
      exact hk rfl

private theorem sumBy_split (f : α → β → ℕ) (k : α) :
    sumBy f t = (t[k]?).elim 0 (f k)
      + ((t.toList.filter fun e ↦ decide (¬ e.1 = k)).map fun e ↦ f e.1 e.2).sum := by
  rw [← sum_filter_key f k, sumBy, ← List.sum_append, ← List.map_append]
  have hperm : ((t.toList.filter fun e ↦ decide (e.1 = k))
      ++ t.toList.filter fun e ↦ decide (¬ e.1 = k)).Perm t.toList := by
    simpa using List.filter_append_perm (fun e : α × β ↦ decide (e.1 = k)) t.toList
  exact ((hperm.map _).sum_eq).symm

theorem sumBy_insert (f : α → β → ℕ) (k : α) (v : β) :
    sumBy f (t.insert k v) + (t[k]?).elim 0 (f k) = sumBy f t + f k v := by
  have hperm := (Std.TreeMap.toList_insert_perm (t := t) (k := k) (v := v)).map
    fun e : α × β ↦ f e.1 e.2
  have hfilter : (t.toList.filter fun e : α × β ↦ decide ¬(k == e.1) = true)
      = t.toList.filter fun e ↦ decide (¬ e.1 = k) := by
    refine List.filter_congr fun e _ ↦ decide_eq_decide.mpr (not_congr ?_)
    rw [beq_iff_eq]
    exact eq_comm
  have hsplit := sumBy_split (t := t) f k
  rw [sumBy, hperm.sum_eq, List.map_cons, List.sum_cons, hfilter]
  dsimp only
  omega

theorem sumBy_erase (f : α → β → ℕ) (k : α) :
    sumBy f (t.erase k) + (t[k]?).elim 0 (f k) = sumBy f t := by
  have hequiv : (t.erase k).Equiv (t.filter fun a _ ↦ decide (¬ a = k)) := by
    refine Std.TreeMap.Equiv.of_forall_constGet?_eq fun a ↦ ?_
    rw [Std.TreeMap.getElem?_erase, Std.TreeMap.getElem?_filter']
    by_cases h : k = a
    · subst h
      rw [if_pos (LawfulEqCmp.compare_eq_iff_eq.mpr rfl)]
      cases t[k]? <;> simp
    · rw [if_neg fun hc ↦ h (LawfulEqCmp.compare_eq_iff_eq.mp hc)]
      cases t[a]? <;> simp [Ne.symm h, Option.filter]
  rw [sumBy, hequiv.toList_eq, Std.TreeMap.toList_filter, sumBy_split (t := t) f k]
  omega

theorem le_sumBy (f : α → β → ℕ) {k : α} {v : β} (h : t[k]? = some v) : f k v ≤ sumBy f t := by
  have := sumBy_split (t := t) f k
  rw [h, Option.elim_some] at this
  omega

omit [DecidableEq α] in

omit [DecidableEq α] in
theorem sumBy_eq_zero_iff {f : α → β → ℕ} :
    sumBy f t = 0 ↔ ∀ k v, t[k]? = some v → f k v = 0 := by
  rw [sumBy, List.sum_eq_zero_iff_forall_eq_nat]
  constructor
  · intro h k v hkv
    exact h _ (List.mem_map.mpr ⟨(k, v), Std.TreeMap.mem_toList_iff_getElem?_eq_some.mpr hkv, rfl⟩)
  · intro h n hn
    obtain ⟨e, he, rfl⟩ := List.mem_map.mp hn
    exact h e.1 e.2 (Std.TreeMap.mem_toList_iff_getElem?_eq_some.mp he)

omit [DecidableEq α] in
/-- Entries with distinct labels that count for one are no more than the labels they may have. -/
private theorem sum_map_le_card {κ : Type*} [DecidableEq κ] {f : α → β → ℕ} {label : α → κ}
    {l : List (α × β)} {s : Finset κ} (hdistinct : l.Pairwise fun e e' ↦ label e.1 ≠ label e'.1)
    (hone : ∀ e ∈ l, f e.1 e.2 ≤ 1) (hs : ∀ e ∈ l, f e.1 e.2 ≠ 0 → label e.1 ∈ s) :
    (l.map fun e ↦ f e.1 e.2).sum ≤ s.card := by
  induction l generalizing s with
  | nil => exact Nat.zero_le _
  | cons e l ih =>
    obtain ⟨hhead, htail⟩ := List.pairwise_cons.mp hdistinct
    have hone' := fun e he ↦ hone e (List.mem_cons_of_mem _ he)
    have hs' := fun e he ↦ hs e (List.mem_cons_of_mem _ he)
    rw [List.map_cons, List.sum_cons]
    by_cases hzero : f e.1 e.2 = 0
    · rw [hzero, Nat.zero_add]
      exact ih htail hone' hs'
    · -- The label of the first entry is not the label of another.
      have hmem := hs e List.mem_cons_self hzero
      have hrest := ih (s := s.erase (label e.1)) htail hone' fun e' he' hne ↦
        Finset.mem_erase.mpr ⟨(hhead e' he').symm, hs' e' he' hne⟩
      rw [Finset.card_erase_of_mem hmem] at hrest
      have := hone e List.mem_cons_self
      have := Finset.card_pos.mpr ⟨_, hmem⟩
      omega

omit [DecidableEq α] in
/-- A sum of ones is at most the number of labels that may count. -/
theorem sumBy_le_card {κ : Type*} [DecidableEq κ] {f : α → β → ℕ} {label : α → κ}
    (hlabel : Function.Injective label) {s : Finset κ}
    (hone : ∀ k v, t[k]? = some v → f k v ≤ 1)
    (hs : ∀ k v, t[k]? = some v → f k v ≠ 0 → label k ∈ s) : sumBy f t ≤ s.card := by
  have hget : ∀ {e}, e ∈ t.toList → t[e.1]? = some e.2 := fun he ↦
    Std.TreeMap.mem_toList_iff_getElem?_eq_some.mp he
  refine sum_map_le_card (t.distinct_keys_toList.imp fun hne heq ↦ ?_)
    (fun e he ↦ hone _ _ (hget he)) fun e he ↦ hs _ _ (hget he)
  exact hne (LawfulEqCmp.compare_eq_iff_eq.mpr (hlabel heq))

omit [DecidableEq α] in
theorem sumBy_ext {t' : Std.TreeMap α β cmp} (f : α → β → ℕ)
    (h : ∀ k : α, t'[k]? = t[k]?) :
    sumBy f t' = sumBy f t := by
  have hequiv : t'.Equiv t := Std.TreeMap.Equiv.of_forall_constGet?_eq h
  rw [sumBy, hequiv.toList_eq, sumBy]

end TreeMap

end Gaxera

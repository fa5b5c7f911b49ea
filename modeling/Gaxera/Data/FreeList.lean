import Gaxera.Data.Threads

/-!
# Tables with a free list

A table indexed by 32-bit words threads its free entries through a link they carry; `link` reads
it, and is empty where an entry is not free. `FreeList link xs head` says that the walk from `head`
meets exactly the free entries. The three writes of an allocator keep it: the first free entry is
taken, an entry is appended that is not free, an entry that was not free is put in front.
-/

namespace Gaxera

variable {α : Type*} {link : α → Option (Option UInt32)} {xs : List α} {head : Option UInt32}
  {i : UInt32} {x y : α}

/-- The link of entry `i`, if it is a free one. -/
def linkAt (link : α → Option (Option UInt32)) (xs : List α) (i : UInt32) :
    Option (Option UInt32) :=
  (xs[i.toNat]?).bind link

/-- The walk from `head` meets exactly the free entries. -/
def FreeList (link : α → Option (Option UInt32)) (xs : List α) (head : Option UInt32) : Prop :=
  ∃ l, Threads (linkAt link xs) head l ∧ ∀ i, i ∈ l ↔ ∃ next, linkAt link xs i = some next

theorem getElem?_set_word (hx : xs[i.toNat]? = some x) (k : UInt32) :
    (xs.set i.toNat y)[k.toNat]? = if k = i then some y else xs[k.toNat]? := by
  have hlt := (List.getElem?_eq_some_iff.mp hx).1
  rw [List.getElem?_set]
  by_cases h : k = i
  · subst h
    rw [if_pos rfl, if_pos hlt, if_pos rfl]
  · rw [if_neg fun hc ↦ h (UInt32.toNat_inj.mp hc).symm, if_neg h]

theorem getElem?_append_word (hlen : xs.length < 2 ^ 32) (k : UInt32) :
    (xs ++ [y])[k.toNat]? = if k = UInt32.ofNat xs.length then some y else xs[k.toNat]? := by
  have hidx : (UInt32.ofNat xs.length).toNat = xs.length := UInt32.toNat_ofNat_of_lt' hlen
  by_cases hk : k = UInt32.ofNat xs.length
  · rw [if_pos hk, hk, hidx]
    simp
  · have hne : k.toNat ≠ xs.length := fun h ↦ hk (UInt32.toNat_inj.mp (h.trans hidx.symm))
    rw [if_neg hk, List.getElem?_append]
    split
    · rfl
    · rw [List.getElem?_eq_none (by simp only [List.length_singleton]; omega),
        List.getElem?_eq_none (by omega)]

theorem getElem?_length_word (hlen : xs.length < 2 ^ 32) :
    xs[(UInt32.ofNat xs.length).toNat]? = none := by
  rw [UInt32.toNat_ofNat_of_lt' hlen]
  exact List.getElem?_eq_none (Nat.le_refl _)

theorem linkAt_set (hx : xs[i.toNat]? = some x) (k : UInt32) :
    linkAt link (xs.set i.toNat y) k = if k = i then link y else linkAt link xs k := by
  rw [linkAt, getElem?_set_word hx]
  split
  · rfl
  · rfl

theorem linkAt_append (hlen : xs.length < 2 ^ 32) (hy : link y = none) :
    linkAt link (xs ++ [y]) = linkAt link xs := by
  funext k
  rw [linkAt, getElem?_append_word hlen]
  by_cases hk : k = UInt32.ofNat xs.length
  · rw [if_pos hk, linkAt, hk, getElem?_length_word hlen]
    exact hy
  · rw [if_neg hk]
    rfl

namespace FreeList

theorem nil : FreeList link [] none :=
  ⟨[], Threads.nil, fun i ↦ by simp [linkAt]⟩

theorem exists_head (h : FreeList link xs (some i)) :
    ∃ x next, xs[i.toNat]? = some x ∧ link x = some next := by
  obtain ⟨l, hl, -⟩ := h
  cases hl with
  | @cons _ n l' hlink _ =>
    obtain ⟨x, hx, hlink⟩ := Option.bind_eq_some_iff.mp hlink
    exact ⟨x, n, hx, hlink⟩

theorem take {next : Option UInt32} (h : FreeList link xs (some i)) (hx : xs[i.toNat]? = some x)
    (hlink : link x = some next) (hy : link y = none) :
    FreeList link (xs.set i.toNat y) next := by
  obtain ⟨l, hl, hmem⟩ := h
  have hnext : linkAt link xs i = some next := Option.bind_eq_some_iff.mpr ⟨x, hx, hlink⟩
  cases hl with
  | @cons _ n l' link' rest =>
    obtain rfl : next = n := Option.some_inj.mp (hnext.symm.trans link')
    have hnot : i ∉ l' := (List.nodup_cons.mp (Threads.cons link' rest).nodup).1
    refine ⟨l', rest.congr fun k hk ↦ ?_, fun k ↦ ?_⟩
    · rw [linkAt_set hx, if_neg]
      rintro rfl
      exact hnot hk
    · rw [linkAt_set hx]
      by_cases hk : k = i
      · subst hk
        simp [hnot, hy]
      · rw [if_neg hk, ← hmem, List.mem_cons]
        exact ⟨Or.inr, fun h ↦ h.resolve_left hk⟩

theorem append (h : FreeList link xs head) (hlen : xs.length < 2 ^ 32) (hy : link y = none) :
    FreeList link (xs ++ [y]) head := by
  rw [FreeList, linkAt_append hlen hy]
  exact h

theorem give (h : FreeList link xs head) (hx : xs[i.toNat]? = some x) (hlink : link x = none)
    (hy : link y = some head) : FreeList link (xs.set i.toNat y) (some i) := by
  obtain ⟨l, hl, hmem⟩ := h
  have hnot : linkAt link xs i = none := by
    rw [linkAt, hx]
    exact hlink
  have hne : ∀ k ∈ l, k ≠ i := by
    rintro k hk rfl
    obtain ⟨next, hnext⟩ := (hmem k).mp hk
    rw [hnot] at hnext
    cases hnext
  refine ⟨i :: l, hl.push ?_ fun k hk ↦ ?_, fun k ↦ ?_⟩
  · rw [linkAt_set hx, if_pos rfl, hy]
  · rw [linkAt_set hx, if_neg (hne k hk)]
  · rw [List.mem_cons, linkAt_set hx]
    by_cases hk : k = i
    · simp [hk, hy]
    · rw [if_neg hk, hmem]
      simp [hk]

theorem link_eq_none (h : FreeList link xs none) (hlen : xs.length < 2 ^ 32) (hx : x ∈ xs) :
    link x = none := by
  obtain ⟨l, hl, hmem⟩ := h
  obtain rfl := Threads.none_iff.mp hl
  obtain ⟨n, hn, rfl⟩ := List.mem_iff_getElem.mp hx
  have hidx : (UInt32.ofNat n).toNat = n := UInt32.toNat_ofNat_of_lt' (Nat.lt_trans hn hlen)
  have hget : linkAt link xs (UInt32.ofNat n) = link xs[n] := by
    rw [linkAt, hidx, List.getElem?_eq_getElem hn]
    rfl
  cases hlink : link xs[n] with
  | none => rfl
  | some next => exact absurd ((hmem _).mpr ⟨next, hget.trans hlink⟩) (by simp)

end FreeList

end Gaxera

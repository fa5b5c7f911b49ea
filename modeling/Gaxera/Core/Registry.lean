import Gaxera.Core.Identity
import Gaxera.Data.Census

/-!
# Typed object registries

A registry maps the index of an object to its generation and its state, and answers only to the
exact generation. `census f` adds up a weight over everything registered; it is how the
developments below count slots, mappings and reservations across a whole registry.
-/

namespace Gaxera

/-- `BTreeRegistry`: index to generation and object. -/
structure Registry (T : Type*) where
  store : Std.TreeMap UInt32 (UInt32 × T) compare

namespace Registry

variable {T : Type*} {r : Registry T} {id j : ObjectId} {x y : T}

def empty : Registry T := ⟨∅⟩

def insert (r : Registry T) (id : ObjectId) (object : T) : Registry T :=
  ⟨r.store.insert id.index (id.generation, object)⟩

def get (r : Registry T) (id : ObjectId) : Option T :=
  match r.store[id.index]? with
  | some (generation, object) => if generation = id.generation then some object else none
  | none => none

/-- What `get_mut` is used for: rewriting the registered object in place. -/
def modify (r : Registry T) (id : ObjectId) (f : T → T) : Registry T :=
  match r.get id with
  | some object => ⟨r.store.insert id.index (id.generation, f object)⟩
  | none => r

/-- A stale identity removes nothing. -/
def remove (r : Registry T) (id : ObjectId) : Registry T :=
  match r.get id with
  | some _ => ⟨r.store.erase id.index⟩
  | none => r

/-- Everything registered, in the order of the indices. -/
def entries (r : Registry T) : List (ObjectId × T) :=
  r.store.toList.map fun e ↦ (⟨e.1, e.2.1⟩, e.2.2)

/-- The sum of `f` over all registered objects. -/
def census (f : ObjectId → T → ℕ) (r : Registry T) : ℕ :=
  TreeMap.sumBy (fun index e ↦ f ⟨index, e.1⟩ e.2) r.store

/-! ## What is registered -/

theorem get_eq_some : r.get id = some x ↔ r.store[id.index]? = some (id.generation, x) := by
  rw [get]
  split
  · next generation object h =>
    rw [h]
    by_cases hg : generation = id.generation <;> simp [hg]
  · next h => simp [h]

@[simp] theorem get_empty : (empty : Registry T).get id = none := by
  rw [get, empty]
  simp

theorem getElem?_insert (m : Std.TreeMap UInt32 (UInt32 × T) compare) (k i : UInt32)
    (v : UInt32 × T) : (m.insert k v)[i]? = if i = k then some v else m[i]? := by
  rw [Std.TreeMap.getElem?_insert]
  by_cases h : i = k
  · subst h
    rw [if_pos rfl, if_pos (Std.LawfulEqCmp.compare_eq_iff_eq.mpr rfl)]
  · rw [if_neg h, if_neg fun hc ↦ h (Std.LawfulEqCmp.compare_eq_iff_eq.mp hc).symm]

theorem getElem?_erase (m : Std.TreeMap UInt32 (UInt32 × T) compare) (k i : UInt32) :
    (m.erase k)[i]? = if i = k then none else m[i]? := by
  rw [Std.TreeMap.getElem?_erase]
  by_cases h : i = k
  · subst h
    rw [if_pos rfl, if_pos (Std.LawfulEqCmp.compare_eq_iff_eq.mpr rfl)]
  · rw [if_neg h, if_neg fun hc ↦ h (Std.LawfulEqCmp.compare_eq_iff_eq.mp hc).symm]

theorem mem_entries : (id, x) ∈ r.entries ↔ r.get id = some x := by
  rw [entries, List.mem_map, get_eq_some]
  constructor
  · rintro ⟨⟨index, generation, y⟩, hmem, heq⟩
    obtain ⟨rfl, rfl⟩ : (⟨index, generation⟩ : ObjectId) = id ∧ y = x := by simpa using heq
    exact Std.TreeMap.mem_toList_iff_getElem?_eq_some.mp hmem
  · intro h
    exact ⟨(id.index, id.generation, x), Std.TreeMap.mem_toList_iff_getElem?_eq_some.mpr h, rfl⟩

theorem get_insert_self : (r.insert id x).get id = some x := by
  rw [get_eq_some, insert, getElem?_insert, if_pos rfl]

theorem get_insert_of_index_ne (h : j.index ≠ id.index) : (r.insert id x).get j = r.get j := by
  rw [get, get, insert, getElem?_insert, if_neg h]

/-- An index answers to one identity only. -/
theorem get_eq_none_of_ne (hx : r.get id = some x) (hi : j.index = id.index) (hj : j ≠ id) :
    r.get j = none := by
  rw [get, hi, get_eq_some.mp hx]
  exact if_neg fun hg ↦ hj (ObjectId.ext hi hg.symm)

/-- Registering an identity evicts whatever was registered under the same index. -/
theorem get_insert : (r.insert id x).get j =
    if j = id then some x else if j.index = id.index then none else r.get j := by
  by_cases hj : j = id
  · rw [if_pos hj, hj, get_insert_self]
  · rw [if_neg hj]
    by_cases hi : j.index = id.index
    · rw [if_pos hi, get_eq_none_of_ne get_insert_self hi hj]
    · rw [if_neg hi, get_insert_of_index_ne hi]

theorem get_modify {f : T → T} :
    (r.modify id f).get j = if j = id then (r.get id).map f else r.get j := by
  cases hx : r.get id with
  | none =>
    rw [modify, hx]
    by_cases hj : j = id
    · rw [if_pos hj, hj, hx]
      rfl
    · rw [if_neg hj]
  | some x =>
    rw [modify, hx]
    change (r.insert id (f x)).get j = _
    rw [get_insert]
    by_cases hj : j = id
    · rw [if_pos hj, if_pos hj]
      rfl
    · rw [if_neg hj, if_neg hj]
      by_cases hi : j.index = id.index
      · rw [if_pos hi, get_eq_none_of_ne hx hi hj]
      · rw [if_neg hi]

theorem get_remove : (r.remove id).get j = if j = id then none else r.get j := by
  cases hx : r.get id with
  | none =>
    rw [remove, hx]
    by_cases hj : j = id
    · rw [if_pos hj, hj, hx]
    · rw [if_neg hj]
  | some x =>
    rw [remove, hx]
    by_cases hj : j = id
    · rw [if_pos hj, hj, get, getElem?_erase, if_pos rfl]
    · rw [if_neg hj]
      by_cases hi : j.index = id.index
      · rw [get, getElem?_erase, if_pos hi, get_eq_none_of_ne hx hi hj]
      · rw [get, getElem?_erase, if_neg hi, get]

theorem isSome_of_get_insert (h : ((r.insert id x).get j).isSome = true) :
    (r.get j).isSome = true ∨ j = id := by
  rw [get_insert] at h
  by_cases hj : j = id
  · exact .inr hj
  · rw [if_neg hj] at h
    split_ifs at h
    · cases h
    · exact .inl h

/-! ## Censuses -/

theorem census_insert (f : ObjectId → T → ℕ) (h : r.store[id.index]? = none) :
    census f (r.insert id x) = census f r + f id x := by
  have := TreeMap.sumBy_insert (t := r.store) (fun index e ↦ f ⟨index, e.1⟩ e.2) id.index
    (id.generation, x)
  rw [h] at this
  exact this

theorem census_modify (f : ObjectId → T → ℕ) {g : T → T} (h : r.get id = some x) :
    census f (r.modify id g) + f id x = census f r + f id (g x) := by
  have := TreeMap.sumBy_insert (t := r.store) (fun index e ↦ f ⟨index, e.1⟩ e.2) id.index
    (id.generation, g x)
  rw [get_eq_some.mp h] at this
  rw [modify, h]
  exact this

theorem census_remove (f : ObjectId → T → ℕ) (h : r.get id = some x) :
    census f (r.remove id) + f id x = census f r := by
  have := TreeMap.sumBy_erase (t := r.store) (fun index e ↦ f ⟨index, e.1⟩ e.2) id.index
  rw [get_eq_some.mp h] at this
  rw [remove, h]
  exact this

theorem le_census (f : ObjectId → T → ℕ) (h : r.get id = some x) : f id x ≤ census f r :=
  TreeMap.le_sumBy (fun index e ↦ f ⟨index, e.1⟩ e.2) (get_eq_some.mp h)

theorem census_eq_zero_iff {f : ObjectId → T → ℕ} :
    census f r = 0 ↔ ∀ id x, r.get id = some x → f id x = 0 := by
  rw [census, TreeMap.sumBy_eq_zero_iff]
  exact ⟨fun h id x hx ↦ h id.index (id.generation, x) (get_eq_some.mp hx),
    fun h index e he ↦ h ⟨index, e.1⟩ e.2 (get_eq_some.mpr he)⟩

theorem census_ext {r' : Registry T} (f : ObjectId → T → ℕ) (h : ∀ id, r'.get id = r.get id) :
    census f r' = census f r := by
  refine TreeMap.sumBy_ext _ fun index ↦ Option.ext fun e ↦ ?_
  rw [← @get_eq_some _ r' ⟨index, e.1⟩ e.2, ← @get_eq_some _ r ⟨index, e.1⟩ e.2, h]

/-- A census of ones is at most the number of indices that may count. -/
theorem census_le_card {f : ObjectId → T → ℕ} {s : Finset ℕ}
    (hone : ∀ id x, r.get id = some x → f id x ≤ 1)
    (hs : ∀ id x, r.get id = some x → f id x ≠ 0 → id.index.toNat ∈ s) : census f r ≤ s.card :=
  TreeMap.sumBy_le_card (fun _ _ ↦ UInt32.toNat_inj.mp)
    (fun index e he ↦ hone ⟨index, e.1⟩ e.2 (get_eq_some.mpr he))
    fun index e he ↦ hs ⟨index, e.1⟩ e.2 (get_eq_some.mpr he)

/-- No object is registered under the index. -/
def isFree (r : Registry T) (id : ObjectId) : Bool := (r.store[id.index]?).isNone

theorem isFree_iff : r.isFree id = true ↔ r.store[id.index]? = none := Option.isNone_iff_eq_none

theorem get_eq_none_of_isFree (h : r.isFree id = true) (hj : j.index = id.index) :
    r.get j = none := by
  rw [get, hj, isFree_iff.mp h]

theorem isFree_modify {f : T → T} (h : r.isFree id = true) : (r.modify j f).isFree id = true := by
  rw [isFree_iff] at h ⊢
  rw [modify]
  cases hx : r.get j with
  | none => exact h
  | some x =>
    have hne : id.index ≠ j.index := by
      intro hc
      rw [get_eq_some, ← hc, h] at hx
      cases hx
    exact (getElem?_insert _ _ _ _).trans (if_neg hne |>.trans h)

end Registry

end Gaxera

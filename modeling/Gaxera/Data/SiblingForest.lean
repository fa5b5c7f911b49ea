import Gaxera.Data.Threads

/-!
# Forests threaded by sibling links

A forest kept in a table: every node carries a link to its parent, a link to its first child, and
a link to the next of its siblings. A table is a partial function `f : ι → Option (Links ι)`, and
`Wf f` says that the three links tell one story. Climbing from any node ends at a root, and the
children list of a node threads exactly the nodes that name it as their parent.

Acyclicity is not a separate condition. A climb that ends is a `Threads` walk, a walk has no
repetitions, and each of the four edits below changes the climb of one node only: a fresh node is
put in front of its parent's climb, and a childless node is on no climb but its own.
-/

namespace Gaxera

open Function

/-- The links of one node. -/
structure Links (ι : Type*) where
  parent : Option ι
  firstChild : Option ι
  nextSibling : Option ι
deriving DecidableEq

namespace SiblingForest

variable {ι : Type*} {f f' : ι → Option (Links ι)} {c p q : ι}

/-- The climbing link. -/
def up (f : ι → Option (Links ι)) (i : ι) : Option (Option ι) := (f i).map Links.parent

/-- The sibling link. -/
def next (f : ι → Option (Links ι)) (i : ι) : Option (Option ι) := (f i).map Links.nextSibling

/-- `c` is a live node whose parent is `p`. -/
def IsChild (f : ι → Option (Links ι)) (p c : ι) : Prop := up f c = some (some p)

/-- The links of the table describe one forest. -/
structure Wf (f : ι → Option (Links ι)) : Prop where
  /-- Climbing from a live node ends. -/
  ancestry : ∀ i n, f i = some n → ∃ l, Threads (up f) (some i) l
  /-- The children list of a live node threads exactly its children. -/
  children : ∀ p n, f p = some n →
    ∃ l, Threads (next f) n.firstChild l ∧ ∀ c, c ∈ l ↔ IsChild f p c

theorem exists_of_up_eq_some {i : ι} {o : Option ι} (h : up f i = some o) :
    ∃ n, f i = some n ∧ n.parent = o := by
  simpa [up] using h

/-- Whoever is met on a climb behind its start is the parent of somebody on the climb. -/
theorem exists_isChild_of_mem {i j : ι} {l : List ι} (h : Threads (up f) (some i) l) (hj : j ∈ l)
    (hne : j ≠ i) : ∃ c, IsChild f j c := by
  generalize hs : some i = s at h
  induction h generalizing i with
  | nil => simp at hj
  | @cons k n l link rest ih =>
    obtain rfl : i = k := Option.some_inj.mp hs
    rcases List.mem_cons.mp hj with rfl | hj
    · exact absurd rfl hne
    · cases rest with
      | nil => simp at hj
      | @cons k' n' l' link' rest' =>
        by_cases hk : j = k'
        · exact ⟨i, by rw [IsChild, link, hk]⟩
        · exact ih hj hk rfl

namespace Wf

theorem parent_live (h : Wf f) (hc : IsChild f p c) : ∃ n, f p = some n := by
  obtain ⟨m, hm, -⟩ := exists_of_up_eq_some hc
  obtain ⟨l, hl⟩ := h.ancestry c m hm
  cases hl with
  | cons link rest =>
    rw [hc, Option.some_inj] at link
    subst link
    cases rest with
    | cons link' _ =>
      obtain ⟨n, hn, -⟩ := exists_of_up_eq_some link'
      exact ⟨n, hn⟩

theorem not_isChild (h : Wf f) (hp : f p = none) : ¬ IsChild f p c := by
  intro hc
  obtain ⟨n, hn⟩ := h.parent_live hc
  rw [hp] at hn
  cases hn

theorem ne_of_isChild (h : Wf f) (hc : IsChild f p c) : p ≠ c := by
  rintro rfl
  obtain ⟨n, hn⟩ := h.parent_live hc
  obtain ⟨l, hl⟩ := h.ancestry p n hn
  obtain ⟨l', rfl⟩ : ∃ l', l = p :: l' := by
    cases hl with
    | @cons _ _ l' _ _ => exact ⟨l', rfl⟩
  have hrest := hl.tail hc
  have := congrArg List.length (hl.unique hrest)
  simp at this

/-- Bringing in `c`, below a live parent or as a root, leaves every other climb alone. -/
theorem ancestry_insert (h : Wf f) (hc : f c = none) (hup : ∀ i ≠ c, up f' i = up f i)
    {o : Option ι} (hco : up f' c = some o) (ho : ∀ p, o = some p → ∃ n, f p = some n) :
    ∀ i n, f' i = some n → ∃ l, Threads (up f') (some i) l := by
  have old : ∀ i n, f i = some n → ∃ l, Threads (up f') (some i) l := by
    intro i n hn
    obtain ⟨l, hl⟩ := h.ancestry i n hn
    refine ⟨l, hl.congr fun j hj ↦ hup j ?_⟩
    rintro rfl
    obtain ⟨o', ho'⟩ := hl.exists_link hj
    simp [up, hc] at ho'
  intro i n hn
  by_cases hi : i = c
  · subst hi
    cases o with
    | none => exact ⟨[i], Threads.cons hco Threads.nil⟩
    | some p =>
      obtain ⟨m, hm⟩ := ho p rfl
      obtain ⟨l, hl⟩ := old p m hm
      exact ⟨i :: l, Threads.cons hco hl⟩
  · have : up f i = some n.parent := by rw [← hup i hi, up, hn]; rfl
    obtain ⟨m, hm, -⟩ := exists_of_up_eq_some this
    exact old i m hm

theorem ancestry_erase (h : Wf f) (hleaf : ∀ x, ¬ IsChild f c x) (hup : ∀ i ≠ c, up f' i = up f i)
    (hc : f' c = none) : ∀ i n, f' i = some n → ∃ l, Threads (up f') (some i) l := by
  intro i n hn
  have hi : i ≠ c := by
    rintro rfl
    rw [hc] at hn
    cases hn
  have : up f i = some n.parent := by rw [← hup i hi, up, hn]; rfl
  obtain ⟨m, hm, -⟩ := exists_of_up_eq_some this
  obtain ⟨l, hl⟩ := h.ancestry i m hm
  refine ⟨l, hl.congr fun j hj ↦ hup j ?_⟩
  rintro rfl
  obtain ⟨x, hx⟩ := exists_isChild_of_mem hl hj (Ne.symm hi)
  exact hleaf x hx

/-! ## Edits -/

section Edits

variable [DecidableEq ι] {m n k : Links ι}

theorem attachRoot (h : Wf f) (hc : f c = none) :
    Wf (update f c (some ⟨none, none, none⟩)) := by
  have hup : ∀ i ≠ c, up (update f c (some ⟨none, none, none⟩)) i = up f i := by
    intro i hi
    rw [up, up, update_of_ne hi]
  have hupc : up (update f c (some ⟨none, none, none⟩)) c = some none := by simp [up]
  have hchild : ∀ p i, IsChild (update f c (some ⟨none, none, none⟩)) p i
      ↔ IsChild f p i := by
    intro p i
    by_cases hi : i = c
    · subst hi
      rw [IsChild, IsChild, hupc]
      simp [up, hc]
    · rw [IsChild, IsChild, hup i hi]
  constructor
  · exact h.ancestry_insert hc hup hupc (by simp)
  · intro p n hn
    by_cases hp : p = c
    · subst hp
      obtain rfl : n = ⟨none, none, none⟩ := by simpa using hn.symm
      refine ⟨[], Threads.nil, fun i ↦ ?_⟩
      simp [hchild, h.not_isChild hc]
    · rw [update_of_ne hp] at hn
      obtain ⟨l, hl, hmem⟩ := h.children p n hn
      refine ⟨l, hl.congr fun i hi ↦ ?_, fun i ↦ by rw [hmem, hchild]⟩
      have hic : i ≠ c := by
        rintro rfl
        simpa [IsChild, up, hc] using (hmem i).mp hi
      rw [next, next, update_of_ne hic]

/-- A fresh child goes to the front of its parent's children list. -/
theorem attach (h : Wf f) (hc : f c = none) (hp : f p = some n) :
    Wf (update (update f c (some ⟨some p, none, n.firstChild⟩)) p
      (some { n with firstChild := some c })) := by
  have hpc : p ≠ c := by
    rintro rfl
    rw [hc] at hp
    cases hp
  set f' := update (update f c (some ⟨some p, none, n.firstChild⟩)) p
    (some { n with firstChild := some c }) with hf'
  have hfc : f' c = some ⟨some p, none, n.firstChild⟩ := by
    rw [hf', update_of_ne hpc.symm, update_self]
  have hfp : f' p = some { n with firstChild := some c } := by rw [hf', update_self]
  have hother : ∀ i, i ≠ c → i ≠ p → f' i = f i := by
    intro i hi hip
    rw [hf', update_of_ne hip, update_of_ne hi]
  have hup : ∀ i ≠ c, up f' i = up f i := by
    intro i hi
    by_cases hip : i = p
    · subst hip
      simp [up, hfp, hp]
    · rw [up, up, hother i hi hip]
  have hnext : ∀ i ≠ c, next f' i = next f i := by
    intro i hi
    by_cases hip : i = p
    · subst hip
      simp [next, hfp, hp]
    · rw [next, next, hother i hi hip]
  have hupc : up f' c = some (some p) := by rw [up, hfc]; rfl
  have hchild : ∀ x i, IsChild f' x i ↔ (i = c ∧ x = p) ∨ IsChild f x i := by
    intro x i
    by_cases hi : i = c
    · subst hi
      rw [IsChild, IsChild, hupc]
      simp [up, hc, eq_comm]
    · rw [IsChild, IsChild, hup i hi]
      simp [hi]
  have hmem_ne : ∀ {x i}, IsChild f x i → i ≠ c := by
    rintro x i hi rfl
    simp [IsChild, up, hc] at hi
  constructor
  · exact h.ancestry_insert hc hup hupc (by rintro _ ⟨⟩; exact ⟨n, hp⟩)
  · intro x k hk
    by_cases hxc : x = c
    · subst hxc
      obtain rfl : k = ⟨some p, none, n.firstChild⟩ := by rw [hfc] at hk; simpa using hk.symm
      refine ⟨[], Threads.nil, fun i ↦ ?_⟩
      simp [hchild, h.not_isChild hc, hpc.symm]
    by_cases hxp : x = p
    · subst hxp
      obtain rfl : k = { n with firstChild := some c } := by rw [hfp] at hk; simpa using hk.symm
      obtain ⟨l, hl, hmem⟩ := h.children x n hp
      refine ⟨c :: l, hl.push (by rw [next, hfc]; rfl)
        fun i hi ↦ hnext i (hmem_ne ((hmem i).mp hi)),
        fun i ↦ ?_⟩
      rw [List.mem_cons, hmem, hchild]
      simp
    · rw [hother x hxc hxp] at hk
      obtain ⟨l, hl, hmem⟩ := h.children x k hk
      refine ⟨l, hl.congr fun i hi ↦ hnext i (hmem_ne ((hmem i).mp hi)), fun i ↦ ?_⟩
      rw [hmem, hchild]
      simp [hxp]

/-- What is left to show when a childless node is taken out: its siblings are threaded without
it. -/
private theorem of_erase (h : Wf f) (hleaf : ∀ x, ¬ IsChild f c x) (hc : f' c = none)
    (hup : ∀ i ≠ c, up f' i = up f i)
    (hch : ∀ x n, x ≠ c → f' x = some n →
      ∃ l, Threads (next f') n.firstChild l ∧ ∀ i, i ∈ l ↔ i ≠ c ∧ IsChild f x i) : Wf f' := by
  have hchild : ∀ x i, IsChild f' x i ↔ i ≠ c ∧ IsChild f x i := by
    intro x i
    by_cases hi : i = c
    · subst hi
      simp [IsChild, up, hc]
    · rw [IsChild, IsChild, hup i hi]
      simp [hi]
  constructor
  · exact h.ancestry_erase hleaf hup hc
  · intro x n hn
    have hx : x ≠ c := by
      rintro rfl
      rw [hc] at hn
      cases hn
    obtain ⟨l, hl, hmem⟩ := hch x n hx hn
    exact ⟨l, hl, fun i ↦ by rw [hmem, hchild]⟩

theorem detachRoot (h : Wf f) (hc : f c = some m) (hm : m.parent = none)
    (hleaf : ∀ x, ¬ IsChild f c x) : Wf (update f c none) := by
  refine h.of_erase hleaf (update_self ..) (fun i hi ↦ ?_) fun x n hx hn ↦ ?_
  · rw [up, up, update_of_ne hi]
  · rw [update_of_ne hx] at hn
    obtain ⟨l, hl, hmem⟩ := h.children x n hn
    have hne : ∀ i ∈ l, i ≠ c := by
      rintro i hi rfl
      simpa [IsChild, up, hc, hm] using (hmem i).mp hi
    refine ⟨l, hl.congr fun i hi ↦ ?_, fun i ↦ ?_⟩
    · rw [next, next, update_of_ne (hne i hi)]
    · rw [← hmem]
      exact ⟨fun hi ↦ ⟨hne i hi, hi⟩, And.right⟩

/-- A childless child of `p` goes, and one other node is written. The lists of the other parents
stay if that node keeps its links, but for its first child if it is `p`, and for its sibling if it
is a child of `p`. -/
private theorem of_detach {r : ι} {k' : Links ι} (h : Wf f) (hcp : IsChild f p c)
    (hleaf : ∀ x, ¬ IsChild f c x) (hr : f r = some k) (hrc : r ≠ c) (hup : k'.parent = k.parent)
    (hfirst : r ≠ p → k'.firstChild = k.firstChild)
    (hsibling : ¬ IsChild f p r → k'.nextSibling = k.nextSibling)
    (hch : ∀ n, update (update f r (some k')) c none p = some n →
      ∃ l, Threads (next (update (update f r (some k')) c none)) n.firstChild l
        ∧ ∀ i, i ∈ l ↔ i ≠ c ∧ IsChild f p i) :
    Wf (update (update f r (some k')) c none) := by
  set f' := update (update f r (some k')) c none with hf'
  have hfr : f' r = some k' := by rw [hf', update_of_ne hrc, update_self]
  have hother : ∀ i, i ≠ c → i ≠ r → f' i = f i := by
    intro i hi hir
    rw [hf', update_of_ne hi, update_of_ne hir]
  refine h.of_erase hleaf (by rw [hf', update_self]) (fun i hi ↦ ?_) fun x n hx hn ↦ ?_
  · by_cases hir : i = r
    · subst hir
      simp [up, hfr, hr, hup]
    · rw [up, up, hother i hi hir]
  by_cases hxp : x = p
  · exact hxp ▸ hch n (hxp ▸ hn)
  obtain ⟨n₀, hn₀, hfc⟩ : ∃ n₀, f x = some n₀ ∧ n₀.firstChild = n.firstChild := by
    by_cases hxr : x = r
    · subst hxr
      obtain rfl : k' = n := Option.some_inj.mp (hfr.symm.trans hn)
      exact ⟨k, hr, (hfirst hxp).symm⟩
    · exact ⟨n, hother x hx hxr ▸ hn, rfl⟩
  obtain ⟨l, hl, hmem⟩ := h.children x n₀ hn₀
  -- a child of `x` is none of `p`
  have hnot : ∀ i ∈ l, ¬ IsChild f p i := by
    intro i hi hip
    have := (hmem i).mp hi
    rw [IsChild, hip] at this
    simp only [Option.some_inj] at this
    exact hxp this.symm
  have hne : ∀ i ∈ l, i ≠ c := fun i hi hic ↦ hnot i hi (hic ▸ hcp)
  rw [← hfc]
  refine ⟨l, hl.congr fun i hi ↦ ?_, fun i ↦ ?_⟩
  · by_cases hir : i = r
    · subst hir
      simp [next, hfr, hr, hsibling (hnot i hi)]
    · rw [next, next, hother i (hne i hi) hir]
  · rw [← hmem]
    exact ⟨fun hi ↦ ⟨hne i hi, hi⟩, And.right⟩

/-- A childless first child goes: its parent inherits its sibling link. -/
theorem detachFirst (h : Wf f) (hc : f c = some m) (hm : m.parent = some p) (hp : f p = some n)
    (hfirst : n.firstChild = some c) (hleaf : ∀ x, ¬ IsChild f c x) :
    Wf (update (update f p (some { n with firstChild := m.nextSibling })) c
      none) := by
  have hcp : IsChild f p c := by simp [IsChild, up, hc, hm]
  have hpc : p ≠ c := h.ne_of_isChild hcp
  refine h.of_detach hcp hleaf hp hpc rfl (fun hne ↦ absurd rfl hne) (fun _ ↦ rfl) fun k hk ↦ ?_
  rw [update_of_ne hpc, update_self] at hk
  obtain rfl := Option.some_inj.mp hk
  obtain ⟨l, hl, hmem⟩ := h.children p n hp
  rw [hfirst] at hl
  obtain ⟨l', rfl⟩ : ∃ l', l = c :: l' := by
    cases hl with
    | @cons _ _ l' _ _ => exact ⟨l', rfl⟩
  have hcl : c ∉ l' := (List.nodup_cons.mp hl.nodup).1
  have hne : ∀ i ∈ l', i ≠ c := fun i hi hic ↦ hcl (hic ▸ hi)
  refine ⟨l', (hl.tail (by rw [next, hc]; rfl)).congr fun i hi ↦ ?_, fun i ↦ ?_⟩
  · have hip := h.ne_of_isChild ((hmem i).mp (List.mem_cons_of_mem _ hi))
    rw [next, next, update_of_ne (hne i hi), update_of_ne hip.symm]
  · rw [← hmem, List.mem_cons]
    exact ⟨fun hi ↦ ⟨hne i hi, .inr hi⟩, fun hi ↦ hi.2.resolve_left hi.1⟩

/-- A childless child behind `q` goes: `q` inherits its sibling link. -/
theorem detachBehind (h : Wf f) (hc : f c = some m) (hm : m.parent = some p) (hq : f q = some k)
    (hqp : IsChild f p q) (hqc : k.nextSibling = some c) (hleaf : ∀ x, ¬ IsChild f c x) :
    Wf (update (update f q (some { k with nextSibling := m.nextSibling })) c
      none) := by
  have hcp : IsChild f p c := by simp [IsChild, up, hc, hm]
  obtain ⟨n, hp⟩ := h.parent_live hcp
  obtain ⟨l, hl, hmem⟩ := h.children p n hp
  -- `c` stands right behind `q` in the list of their parent, so the two are different nodes
  obtain ⟨l₁, l₂, rfl⟩ := List.append_of_mem ((hmem q).mpr hqp)
  obtain ⟨l₃, rfl⟩ : ∃ l₃, l₂ = c :: l₃ := by
    have hrest := hl.suffix.tail (n := some c) (by simp [next, hq, hqc])
    cases hrest with
    | @cons _ _ l₃ _ _ => exact ⟨l₃, rfl⟩
  have hnd := List.nodup_append.mp hl.nodup
  have hqc' : q ≠ c := by grind
  have hcl : ∀ i ∈ l₁ ++ l₃, i ≠ c ∧ i ≠ q := by grind
  refine h.of_detach hcp hleaf hq hqc' rfl (fun _ ↦ rfl) (fun hnot ↦ absurd hqp hnot)
    fun n' hn' ↦ ?_
  rw [update_of_ne (h.ne_of_isChild hcp), update_of_ne (h.ne_of_isChild hqp),
    hp] at hn'
  obtain rfl := Option.some_inj.mp hn'
  refine ⟨l₁ ++ q :: l₃, hl.unlink (by rw [next, hc]; rfl)
    (by rw [next, update_of_ne hqc', update_self]; rfl) fun i hi ↦ ?_, fun i ↦ ?_⟩
  · rw [next, next, update_of_ne (hcl i hi).1, update_of_ne (hcl i hi).2]
  · rw [← hmem]
    constructor
    · intro hi
      refine ⟨by grind, ?_⟩
      simp only [List.mem_append, List.mem_cons] at hi ⊢
      tauto
    · rintro ⟨hic, hi⟩
      simp only [List.mem_append, List.mem_cons] at hi ⊢
      tauto

end Edits

end Wf

end SiblingForest

end Gaxera

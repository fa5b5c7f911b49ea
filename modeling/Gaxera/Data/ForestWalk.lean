import Gaxera.Data.SiblingForest
import Mathlib.Logic.Relation

/-!
# Searching a sibling forest

Everything below a node is met by going from a node to its first child or to its next sibling,
starting at the first child of the node. A search that does this needs no memory of where it has
been: going to a child leads one step further from the root, going to a sibling leads further along
one list, and neither is ever undone. So a path of the search repeats nothing, and a depth of one
more than the number of nodes is enough.

The induction that shows this carries the path that has led to the current node. Its members are
live and pairwise different, hence no more than the nodes there are, and the depth that is left
makes up the difference.
-/

namespace Gaxera

namespace SiblingForest

variable {ι : Type*} {f : ι → Option (Links ι)} {a b c m n p q : ι} {x : Links ι}

/-- One step of the walk: to the first child, or to the next sibling. -/
inductive Step (f : ι → Option (Links ι)) (a : ι) : ι → Prop
  | child {x : Links ι} {b : ι} (live : f a = some x) (first : x.firstChild = some b) : Step f a b
  | sibling {x : Links ι} {b : ι} (live : f a = some x) (next : x.nextSibling = some b) : Step f a b

namespace Wf

/-! ## Where a step leads -/

theorem isChild_of_firstChild (h : Wf f) (ha : f a = some x) (hb : x.firstChild = some b) :
    IsChild f a b := by
  obtain ⟨l, hl, hmem⟩ := h.children a x ha
  rw [hb] at hl
  cases hl with
  | cons link rest => exact (hmem b).mp List.mem_cons_self

/-- The next sibling stands right behind, in the list of the same parent. -/
theorem children_split (h : Wf f) (hp : IsChild f p a) :
    ∃ y l₁ l₂, f p = some y ∧ Threads (next f) y.firstChild (l₁ ++ a :: l₂)
      ∧ ∀ i, i ∈ l₁ ++ a :: l₂ ↔ IsChild f p i := by
  obtain ⟨y, hy⟩ := h.parent_live hp
  obtain ⟨l, hl, hmem⟩ := h.children p y hy
  obtain ⟨l₁, l₂, rfl⟩ := List.append_of_mem ((hmem a).mpr hp)
  exact ⟨y, l₁, l₂, hy, hl, hmem⟩

theorem head_of_nextSibling {l₁ l₂ : List ι} {head : Option ι}
    (hl : Threads (next f) head (l₁ ++ a :: l₂)) (ha : f a = some x)
    (hb : x.nextSibling = some b) : ∃ l₃, l₂ = b :: l₃ := by
  have hrest := hl.suffix.tail (n := some b) (by simp [next, ha, hb])
  cases hrest with
  | @cons _ _ l₃ _ _ => exact ⟨l₃, rfl⟩

theorem isChild_of_nextSibling (h : Wf f) (hp : IsChild f p a) (ha : f a = some x)
    (hb : x.nextSibling = some b) : IsChild f p b := by
  obtain ⟨y, l₁, l₂, -, hl, hmem⟩ := h.children_split hp
  obtain ⟨l₃, rfl⟩ := head_of_nextSibling hl ha hb
  exact (hmem b).mp (by simp)

/-- The climb of a child is the climb of its parent, with the child in front. -/
theorem climb_child (h : Wf f) (hp : IsChild f p c) :
    ∃ l, Threads (up f) (some p) l ∧ Threads (up f) (some c) (c :: l) := by
  obtain ⟨y, hy⟩ := h.parent_live hp
  obtain ⟨l, hl⟩ := h.ancestry p y hy
  exact ⟨l, hl, Threads.cons hp hl⟩

/-! ## The walk is never back where it was -/

/-- `b` comes behind `a` in the children list of `p`. -/
def Later (f : ι → Option (Links ι)) (p a b : ι) : Prop :=
  ∃ y l₁ l₂, f p = some y ∧ Threads (next f) y.firstChild (l₁ ++ a :: l₂) ∧ b ∈ l₂

/-- `b` is further from its root than `a`. -/
def Deeper (f : ι → Option (Links ι)) (a b : ι) : Prop :=
  ∃ l l', Threads (up f) (some a) l ∧ Threads (up f) (some b) l' ∧ l.length < l'.length

theorem Later.next (hlater : Later f p a b) (hb : f b = some x) (hc : x.nextSibling = some c) :
    Later f p a c := by
  obtain ⟨y, l₁, l₂, hy, hl, hmem⟩ := hlater
  refine ⟨y, l₁, l₂, hy, hl, ?_⟩
  obtain ⟨l₃, l₄, rfl⟩ := List.append_of_mem hmem
  have hl' : Threads (SiblingForest.next f) y.firstChild ((l₁ ++ a :: l₃) ++ b :: l₄) := by
    simpa using hl
  obtain ⟨l₅, rfl⟩ := head_of_nextSibling hl' hb hc
  simp

/-- **A walk leads deeper, or further along one list.** -/
theorem deeper_or_later (h : Wf f) (hab : Relation.TransGen (Step f) a b) (hp : IsChild f p a) :
    ∃ q, IsChild f q b ∧ (Deeper f a b ∨ (q = p ∧ Later f p a b)) := by
  induction hab with
  | single hstep =>
    cases hstep with
    | child live first =>
      have hchild := h.isChild_of_firstChild live first
      obtain ⟨l, hl, hl'⟩ := h.climb_child hchild
      exact ⟨a, hchild, .inl ⟨l, _, hl, hl', by simp⟩⟩
    | sibling live next =>
      refine ⟨p, h.isChild_of_nextSibling hp live next, .inr ⟨rfl, ?_⟩⟩
      obtain ⟨y, l₁, l₂, hy, hl, -⟩ := h.children_split hp
      obtain ⟨l₃, rfl⟩ := head_of_nextSibling hl live next
      exact ⟨y, l₁, _, hy, hl, List.mem_cons_self⟩
  | @tail b c _ hstep ih =>
    obtain ⟨q, hq, hcases⟩ := ih
    obtain ⟨l, hl, hlb⟩ := h.climb_child hq
    cases hstep with
    | child live first =>
      have hchild := h.isChild_of_firstChild live first
      refine ⟨b, hchild, .inl ?_⟩
      rcases hcases with ⟨la, lb, ha, hb, hlt⟩ | ⟨rfl, -⟩
      · obtain rfl := hb.unique hlb
        exact ⟨la, _, ha, Threads.cons hchild hlb, by simp at hlt ⊢; omega⟩
      · -- `a` and `b` have one parent, and climb the same way.
        exact ⟨_, _, Threads.cons hp hl, Threads.cons hchild hlb, by simp⟩
    | sibling live next =>
      have hchild := h.isChild_of_nextSibling hq live next
      refine ⟨q, hchild, ?_⟩
      rcases hcases with ⟨la, lb, ha, hb, hlt⟩ | ⟨rfl, hlater⟩
      · obtain rfl := hb.unique hlb
        exact .inl ⟨la, _, ha, Threads.cons hchild hl, by simpa using hlt⟩
      · exact .inr ⟨rfl, hlater.next live next⟩

theorem not_transGen_self (h : Wf f) (hp : IsChild f p a) : ¬ Relation.TransGen (Step f) a a := by
  intro hcycle
  obtain ⟨q, -, ⟨l, l', hl, hl', hlt⟩ | ⟨-, y, l₁, l₂, -, hl, hmem⟩⟩ := h.deeper_or_later hcycle hp
  · rw [hl.unique hl'] at hlt
    exact Nat.lt_irrefl _ hlt
  · have := (List.nodup_append.mp hl.nodup).2.1
    exact (List.nodup_cons.mp this).1 hmem

theorem deeper_of_transGen (h : Wf f) (hnm : Relation.TransGen (IsChild f) n m) :
    Deeper f n m := by
  induction hnm with
  | single hstep =>
    obtain ⟨l, hl, hl'⟩ := h.climb_child hstep
    exact ⟨l, _, hl, hl', by simp⟩
  | tail _ hstep ih =>
    obtain ⟨l, l', hl, hl', hlt⟩ := ih
    exact ⟨l, _, hl, Threads.cons hstep hl', by simp only [List.length_cons]; omega⟩

theorem not_transGen_isChild_self (h : Wf f) : ¬ Relation.TransGen (IsChild f) n n := by
  intro hcycle
  obtain ⟨l, l', hl, hl', hlt⟩ := h.deeper_of_transGen hcycle
  rw [hl.unique hl'] at hlt
  exact Nat.lt_irrefl _ hlt

/-! ## What is met -/

theorem transGen_isChild_of_walk (h : Wf f) (hp : IsChild f p a)
    (hab : Relation.ReflTransGen (Step f) a b) :
    ∃ q, IsChild f q b ∧ Relation.ReflTransGen (IsChild f) p q := by
  induction hab with
  | refl => exact ⟨p, hp, .refl⟩
  | @tail b c _ hstep ih =>
    obtain ⟨q, hq, hpq⟩ := ih
    cases hstep with
    | child live first => exact ⟨b, h.isChild_of_firstChild live first, hpq.tail hq⟩
    | sibling live next => exact ⟨q, h.isChild_of_nextSibling hq live next, hpq⟩

private theorem walk_of_mem {head : Option ι} {l : List ι} (hl : Threads (next f) head l)
    (hb : b ∈ l) : ∃ a, head = some a ∧ Relation.ReflTransGen (Step f) a b := by
  induction hl with
  | nil => simp at hb
  | @cons i o l link rest ih =>
    refine ⟨i, rfl, ?_⟩
    rcases List.mem_cons.mp hb with rfl | hb
    · exact .refl
    · obtain ⟨j, rfl, hj⟩ := ih hb
      obtain ⟨x, hx, hnext⟩ : ∃ x, f i = some x ∧ x.nextSibling = some j := by
        simpa [next] using link
      exact .head (.sibling hx hnext) hj

/-- **The walk from the first child meets exactly what is below a node.** -/
theorem transGen_isChild_iff (h : Wf f) (hn : f n = some x) :
    Relation.TransGen (IsChild f) n m
      ↔ ∃ a, x.firstChild = some a ∧ Relation.ReflTransGen (Step f) a m := by
  constructor
  · intro hnm
    induction hnm with
    | @single m hstep =>
      obtain ⟨l, hl, hmem⟩ := h.children n x hn
      exact walk_of_mem hl ((hmem m).mpr hstep)
    | @tail q m _ hstep ih =>
      obtain ⟨a, ha, hwalk⟩ := ih
      obtain ⟨y, hy⟩ := h.parent_live hstep
      obtain ⟨l, hl, hmem⟩ := h.children q y hy
      obtain ⟨b, hb, hbm⟩ := walk_of_mem hl ((hmem m).mpr hstep)
      exact ⟨a, ha, (hwalk.tail (.child hy hb)).trans hbm⟩
  · rintro ⟨a, ha, hwalk⟩
    obtain ⟨q, hq, hnq⟩ := h.transGen_isChild_of_walk (h.isChild_of_firstChild hn ha) hwalk
    exact .tail' hnq hq

end Wf

/-! ## The search -/

/-- Depth first from one node on: the node itself, then below it, then behind it. -/
def search (f : ι → Option (Links ι)) (wanted : ι → Bool) : ℕ → Option ι → Option ι
  | 0, _ => none
  | _ + 1, none => none
  | fuel + 1, some c =>
    match f c with
    | none => none
    | some x =>
      if wanted c then some c
      else
        match search f wanted fuel x.firstChild with
        | some found => some found
        | none => search f wanted fuel x.nextSibling

variable {wanted : ι → Bool}

theorem search_sound {fuel : ℕ} (h : search f wanted fuel (some c) = some m) :
    Relation.ReflTransGen (Step f) c m ∧ wanted m = true ∧ ∃ x, f m = some x := by
  induction fuel generalizing c with
  | zero => cases h
  | succ fuel ih =>
    rw [search] at h
    cases hx : f c with
    | none => simp [hx] at h
    | some x =>
      simp only [hx] at h
      split_ifs at h with hw
      · obtain rfl : c = m := by simpa using h
        exact ⟨.refl, hw, x, hx⟩
      · -- The search went on at the first child or at the next sibling.
        have hnext : ∀ (o : Option ι) (hstep : ∀ d, o = some d → Step f c d),
            search f wanted fuel o = some m →
              Relation.ReflTransGen (Step f) c m ∧ wanted m = true ∧ ∃ x, f m = some x := by
          intro o hstep ho
          cases o with
          | none => cases fuel <;> cases ho
          | some d =>
            obtain ⟨hwalk, hfound⟩ := ih ho
            exact ⟨.head (hstep d rfl) hwalk, hfound⟩
        cases hs : search f wanted fuel x.firstChild with
        | some d =>
          obtain rfl : d = m := by simpa [hs] using h
          exact hnext _ (fun d hd ↦ .child hx hd) hs
        | none =>
          rw [hs] at h
          exact hnext _ (fun d hd ↦ .sibling hx hd) h

/-- A search that gives up has met everything on the walk, if it could go deep enough. -/
private theorem search_complete_from (h : Wf f) {bound : ℕ}
    (hbound : ∀ l : List ι, l.Nodup → (∀ i ∈ l, ∃ x, f i = some x) → l.length ≤ bound)
    {fuel : ℕ} {path : List ι} (hnodup : path.Nodup) (hlive : ∀ i ∈ path, ∃ x, f i = some x)
    (hlength : bound < path.length + fuel) (hpath : ∀ i ∈ path, Relation.TransGen (Step f) i c)
    (hp : IsChild f p c) (hnone : search f wanted fuel (some c) = none)
    (hwalk : Relation.ReflTransGen (Step f) c m) : wanted m = false := by
  induction fuel generalizing c p path with
  | zero => exact absurd (hbound path hnodup hlive) (by omega)
  | succ fuel ih =>
    obtain ⟨x, hx, -⟩ := exists_of_up_eq_some hp
    rw [search] at hnone
    simp only [hx] at hnone
    split_ifs at hnone with hw
    have hfresh : c ∉ path := fun hc ↦ h.not_transGen_self hp (hpath c hc)
    -- One step further, with the current node on the path.
    have hstep : ∀ {d q}, Step f c d → IsChild f q d → search f wanted fuel (some d) = none →
        Relation.ReflTransGen (Step f) d m → wanted m = false := by
      intro d q hcd hq hd hdm
      have hnodup' : (c :: path).Nodup := List.nodup_cons.mpr ⟨hfresh, hnodup⟩
      refine ih hnodup' ?_ ?_ ?_ hq hd hdm
      · exact fun i hi ↦ (List.mem_cons.mp hi).elim (fun hic ↦ ⟨x, hic ▸ hx⟩) (hlive i)
      · simp only [List.length_cons]
        omega
      · exact fun i hi ↦ (List.mem_cons.mp hi).elim (fun hic ↦ hic ▸ .single hcd)
          fun hi ↦ (hpath i hi).tail hcd
    cases hs : search f wanted fuel x.firstChild with
    | some d => simp [hs] at hnone
    | none =>
      rw [hs] at hnone
      rcases Relation.ReflTransGen.cases_head hwalk with rfl | ⟨d, hcd, hdm⟩
      · simpa using hw
      · cases hcd with
        | @child y _ live first =>
          obtain rfl : x = y := Option.some_inj.mp (hx.symm.trans live)
          rw [first] at hs
          exact hstep (.child hx first) (h.isChild_of_firstChild hx first) hs hdm
        | @sibling y _ live next =>
          obtain rfl : x = y := Option.some_inj.mp (hx.symm.trans live)
          dsimp only at hnone
          rw [next] at hnone
          exact hstep (.sibling hx next) (h.isChild_of_nextSibling hp hx next) hnone hdm

/-- **The search below a node** finds something wanted exactly when there is something wanted
below it. -/
theorem Wf.search_eq_none_iff (h : Wf f) {bound : ℕ}
    (hbound : ∀ l : List ι, l.Nodup → (∀ i ∈ l, ∃ x, f i = some x) → l.length ≤ bound)
    (hn : f n = some x) :
    search f wanted (bound + 1) x.firstChild = none
      ↔ ∀ m, Relation.TransGen (IsChild f) n m → wanted m = false := by
  constructor
  · intro hnone m hm
    obtain ⟨a, ha, hwalk⟩ := (h.transGen_isChild_iff hn).mp hm
    rw [ha] at hnone
    exact search_complete_from h hbound List.nodup_nil (by simp) (by simp) (by simp)
      (h.isChild_of_firstChild hn ha) hnone hwalk
  · intro hall
    cases hs : search f wanted (bound + 1) x.firstChild with
    | none => rfl
    | some m =>
      cases hfirst : x.firstChild with
      | none =>
        rw [hfirst] at hs
        cases hs
      | some a =>
        rw [hfirst] at hs
        obtain ⟨hwalk, hw, -⟩ := search_sound hs
        rw [hall m ((h.transGen_isChild_iff hn).mpr ⟨a, hfirst, hwalk⟩)] at hw
        cases hw

end SiblingForest

end Gaxera

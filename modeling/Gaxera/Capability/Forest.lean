import Gaxera.Capability.NodeTable

/-!
# The capability system keeps its forest

`CapabilitySystem.Wf held` is the well-formedness of the node table, relative to a count `held` of
how often each node is held from outside, by slots. The links form a forest, the free list threads
the free entries, and the reference count of a live node is the number of its holders and children
together.

Keeping `held` abstract is what makes the release loop one induction. A turn of the loop starts
with a node that is held once more than the slots account for. If that was not its last reference,
the debt is paid. If it was, the node goes, and what remains is one reference too many at its
parent: the same situation, with one live node less.
-/

namespace Gaxera

open Function

/-- What the source decides by, of a node: what it grants, from whom, and whether it stands. -/
structure Grant where
  info : CapabilityInfo
  parent : Option NodeId
  revoked : Bool
deriving DecidableEq, Repr

def LiveNode.grant (n : LiveNode) : Grant := ⟨n.info, n.parent, n.revoked⟩

namespace CapabilitySystem

variable {sys sys' : CapabilitySystem} {id j p : NodeId} {n : LiveNode} {held : NodeId → ℕ}

/-- The grants of the live nodes. -/
def grants (sys : CapabilitySystem) (id : NodeId) : Option Grant :=
  (sys.liveNode id).map LiveNode.grant

theorem grants_eq (sys : CapabilitySystem) :
    sys.grants = Option.map LiveNode.grant ∘ sys.liveNode := rfl

/-- One more holder of `id`. -/
def hold (held : NodeId → ℕ) (id : NodeId) : NodeId → ℕ := fun j ↦ held j + if j = id then 1 else 0

/-- The free list threads the free entries. -/
def FreeListed (sys : CapabilitySystem) : Prop :=
  ∃ l, Threads sys.freeLink sys.freeHead l ∧ ∀ i, i ∈ l ↔ ∃ next, sys.freeLink i = some next

/-- The node table is well formed, with `held id` holders of `id` outside the table. -/
structure Wf (sys : CapabilitySystem) (held : NodeId → ℕ) : Prop where
  capacity_lt : sys.capacity < 2 ^ 32
  length_le : sys.nodes.length ≤ sys.capacity
  forest : SiblingForest.Wf sys.links
  free : sys.FreeListed
  references : ∀ id n, sys.liveNode id = some n → n.references = held id + sys.childCount id
  held_live : ∀ id, held id ≠ 0 → ∃ n, sys.liveNode id = some n

theorem hold_self : hold held id id = held id + 1 := by simp [hold]

theorem hold_of_ne (h : j ≠ id) : hold held id j = held j := by simp [hold, h]

/-- Distinct live nodes are no more than the entries of the table. -/
theorem length_le_of_live {l : List NodeId} (hnd : l.Nodup)
    (hlive : ∀ i ∈ l, ∃ n, sys.liveNode i = some n) : l.length ≤ sys.nodes.length := by
  have hmap : (l.map fun i ↦ i.index.toNat).Nodup := by
    refine List.Nodup.map_on (fun i hi j hj hij ↦ ?_) hnd
    obtain ⟨n, hn⟩ := hlive i hi
    obtain ⟨m, hm⟩ := hlive j hj
    exact eq_of_liveNode_of_index_eq hm hn (UInt32.toNat_inj.mp hij)
  have hsub : (l.map fun i ↦ i.index.toNat) ⊆ List.range sys.nodes.length := by
    intro k hk
    obtain ⟨i, hi, rfl⟩ := List.mem_map.mp hk
    obtain ⟨n, hn⟩ := hlive i hi
    exact List.mem_range.mpr (liveNode_lt hn)
  simpa using (List.subperm_of_subset hmap hsub).length_le

theorem childCount_eq_zero (hlen : sys.nodes.length ≤ 2 ^ 32)
    (h : ∀ j, ¬ SiblingForest.IsChild sys.links p j) : sys.childCount p = 0 := by
  rw [childCount, List.countP_eq_zero]
  rintro ⟨g, st⟩ he hp
  obtain ⟨i, hi, hget⟩ := List.getElem_of_mem he
  cases st with
  | free next => simp [CapabilityNode.parent] at hp
  | live n =>
    refine h ⟨UInt32.ofNat i, g⟩ (isChild_iff.mpr ⟨n, ?_, of_decide_eq_true hp⟩)
    rw [liveNode_eq_some, UInt32.toNat_ofNat_of_lt' (Nat.lt_of_lt_of_le hi hlen),
      List.getElem?_eq_getElem hi, hget]

theorem wf_of_tryNew {capacity : ℕ} (h : tryNew capacity = some sys) : sys.Wf fun _ ↦ 0 := by
  have hsys : sys = ⟨[], capacity, none⟩ ∧ capacity < 2 ^ 32 := by grind [tryNew]
  obtain ⟨rfl, hcap⟩ := hsys
  have hlive : ∀ id, liveNode ⟨[], capacity, none⟩ id = none := fun id ↦ rfl
  refine ⟨hcap, Nat.zero_le _, ⟨fun i n hn ↦ ?_, fun i n hn ↦ ?_⟩, ⟨[], Threads.nil, fun i ↦ ?_⟩,
    fun id n hn ↦ ?_, fun id hid ↦ absurd rfl hid⟩
  · simp [links, hlive] at hn
  · simp [links, hlive] at hn
  · simp [freeLink]
  · simp [hlive] at hn

/-! ## Rewrites that keep the forest -/

namespace Wf

theorem length_lt (h : sys.Wf held) : sys.nodes.length < 2 ^ 32 :=
  Nat.lt_of_le_of_lt h.length_le h.capacity_lt

/-- Every live node has a climb, and it is no longer than the table. -/
theorem exists_climb (h : sys.Wf held) (hn : sys.liveNode id = some n) :
    ∃ l, Threads (SiblingForest.up sys.links) (some id) l ∧ l.Nodup ∧ l.length ≤ sys.capacity := by
  obtain ⟨l, hl⟩ := h.forest.ancestry id n.links (links_eq_some.mpr ⟨n, hn, rfl⟩)
  refine ⟨l, hl, hl.nodup, le_trans (length_le_of_live hl.nodup fun i hi ↦ ?_) h.length_le⟩
  obtain ⟨o, ho⟩ := hl.exists_link hi
  obtain ⟨k, hk, -⟩ := SiblingForest.exists_of_up_eq_some ho
  obtain ⟨m, hm, -⟩ := links_eq_some.mp hk
  exact ⟨m, hm⟩

theorem parent_live (h : sys.Wf held) (hn : sys.liveNode id = some n) (hp : n.parent = some p) :
    ∃ m, sys.liveNode p = some m := by
  obtain ⟨k, hk⟩ := h.forest.parent_live (isChild_iff.mpr ⟨n, hn, hp⟩)
  obtain ⟨m, hm, -⟩ := links_eq_some.mp hk
  exact ⟨m, hm⟩

/-- A rewrite that keeps links and references, such as setting the revoked flag. -/
theorem modifyLive (h : sys.Wf held) {f : LiveNode → LiveNode} (hlinks : ∀ n, (f n).links = n.links)
    (hrefs : ∀ n, (f n).references = n.references) : (sys.modifyLive id f).Wf held := by
  have hsame : (sys.modifyLive id f).links = sys.links := by
    rw [links_modifyLive]
    simp only [hlinks]
    exact update_eq_self id sys.links
  have hlive : ∀ j m, (sys.modifyLive id f).liveNode j = some m →
      ∃ m₀, sys.liveNode j = some m₀ ∧ m.references = m₀.references := by
    intro j m hm
    rw [liveNode_modifyLive] at hm
    by_cases hj : j = id
    · subst hj
      rw [update_self, Option.map_eq_some_iff] at hm
      obtain ⟨m₀, hm₀, rfl⟩ := hm
      exact ⟨m₀, hm₀, hrefs m₀⟩
    · rw [update_of_ne hj] at hm
      exact ⟨m, hm, rfl⟩
  refine ⟨by simpa using h.capacity_lt, by simpa using h.length_le, hsame ▸ h.forest, ?_, ?_, ?_⟩
  · rw [FreeListed, freeLink_modifyLive, freeHead_modifyLive]
    exact h.free
  · intro j m hm
    obtain ⟨m₀, hm₀, hr⟩ := hlive j m hm
    rw [hr, childCount_modifyLive fun n ↦ congrArg Links.parent (hlinks n)]
    exact h.references j m₀ hm₀
  · intro j hj
    obtain ⟨m, hm⟩ := h.held_live j hj
    rw [liveNode_modifyLive]
    by_cases hji : j = id
    · subst hji
      exact ⟨f m, by rw [update_self, hm]; rfl⟩
    · exact ⟨m, by rw [update_of_ne hji, hm]⟩

/-- Rewriting the reference count of one node along with the count of its holders. -/
theorem modifyReferences {held' : NodeId → ℕ} {m : ℕ} (h : sys.Wf held)
    (hn : sys.liveNode id = some n) (hother : ∀ j ≠ id, held' j = held j)
    (hm : m = held' id + sys.childCount id) :
    (sys.modifyLive id fun n ↦ { n with references := m }).Wf held' := by
  have hlinks : (sys.modifyLive id fun n ↦ { n with references := m }).links = sys.links := by
    rw [links_modifyLive]
    exact update_eq_self id sys.links
  refine ⟨by simpa using h.capacity_lt, by simpa using h.length_le, hlinks ▸ h.forest, ?_, ?_, ?_⟩
  · rw [FreeListed, freeLink_modifyLive, freeHead_modifyLive]
    exact h.free
  · intro j k hk
    rw [liveNode_modifyLive] at hk
    rw [childCount_modifyLive (by exact fun _ ↦ rfl)]
    by_cases hj : j = id
    · subst hj
      rw [update_self, hn] at hk
      obtain rfl : k = { n with references := m } := by simpa using hk.symm
      exact hm
    · rw [update_of_ne hj] at hk
      rw [hother j hj]
      exact h.references j k hk
  · intro j hj
    rw [liveNode_modifyLive]
    by_cases hji : j = id
    · subst hji
      exact ⟨_, by rw [update_self, hn]; rfl⟩
    · rw [update_of_ne hji]
      rw [hother j hji] at hj
      exact h.held_live j hj

end Wf

/-! ## Creating a node -/

/-- With room in the table, an entry is found and comes to life; linking it is left. -/
theorem Wf.allocateEntry_eq (h : sys.Wf held)
    (hroom : ¬ (sys.freeHead = none ∧ sys.nodes.length = sys.capacity)) (info : CapabilityInfo)
    (parent : Option NodeId) :
    ∃ id sys', sys.allocateEntry info parent = (.ok id, sys'.linkToParent parent id)
      ∧ Spawned sys id (freshNode info parent) sys' ∧ sys'.nodes.length ≤ sys'.capacity
      ∧ FreeListed sys' := by
  obtain ⟨l, hl, hmem⟩ := h.free
  cases hhead : sys.freeHead with
  | none =>
    have hlen : sys.nodes.length ≠ sys.capacity := fun hc ↦ hroom ⟨hhead, hc⟩
    have hspawn := spawned_pushNode (n := freshNode info parent) h.length_lt
    refine ⟨_, _, ?_, hspawn, ?_, ?_⟩
    · simp only [allocateEntry, hhead, hlen, if_false]
    · have := h.length_le
      simp only [pushNode, List.length_append, List.length_singleton]
      omega
    · rw [hhead, Threads.none_iff] at hl
      subst hl
      refine ⟨[], by rw [show (sys.pushNode _).freeHead = none from hhead]; exact Threads.nil, ?_⟩
      intro i
      simp only [List.not_mem_nil, false_iff] at hmem ⊢
      rw [hspawn.freeLink]
      by_cases hi : i = UInt32.ofNat sys.nodes.length
      · simp [hi]
      · rw [update_of_ne hi]
        exact hmem i
  | some index =>
    rw [hhead] at hl
    obtain ⟨l', rfl⟩ : ∃ l', l = index :: l' := by
      cases hl with
      | @cons _ _ l' _ _ => exact ⟨l', rfl⟩
    obtain ⟨next, hnext⟩ := (hmem index).mp List.mem_cons_self
    obtain ⟨g, hb⟩ := freeLink_eq_some.mp hnext
    have hspawn := spawned_setNode (n := freshNode info parent) next hb
    refine ⟨_, _, ?_, hspawn, ?_, l', ?_, fun i ↦ ?_⟩
    · simp only [allocateEntry, hhead, hb]
    · rw [length_setNode, capacity_setNode]
      exact h.length_le
    · rw [hspawn.freeLink]
      refine (hl.tail hnext).congr fun i hi ↦ update_of_ne ?_ _ _
      rintro rfl
      exact (List.nodup_cons.mp hl.nodup).1 hi
    · rw [hspawn.freeLink]
      have hi := hmem i
      have hnot := (List.nodup_cons.mp hl.nodup).1
      by_cases hii : i = index
      · subst hii
        simp [hnot]
      · rw [update_of_ne hii, ← hi, List.mem_cons]
        exact ⟨Or.inr, fun h ↦ h.resolve_left hii⟩

/-- What a creation does to the system, as far as later arguments read it. -/
structure Created (sys : CapabilitySystem) (id : NodeId) (info : CapabilityInfo)
    (parent : Option NodeId) (sys' : CapabilitySystem) : Prop where
  fresh : sys.liveNode id = none
  grants : sys'.grants = update sys.grants id (some ⟨info, parent, false⟩)
  capacity : sys'.capacity = sys.capacity

variable {info : CapabilityInfo}

theorem Wf.spawnRoot (h : sys.Wf held) (hs : Spawned sys id (freshNode info none) sys')
    (hlen : sys'.nodes.length ≤ sys'.capacity) (hfree : FreeListed sys') :
    sys'.Wf (hold held id) := by
  have hheld : held id = 0 := by
    by_contra hne
    obtain ⟨n, hn⟩ := h.held_live id hne
    rw [hs.fresh] at hn
    cases hn
  have hlinks : sys'.links = update sys.links id (some ⟨none, none, none⟩) := by
    rw [links_eq, hs.liveNode, comp_update]
    rfl
  have hnone : sys.links id = none := by rw [links, hs.fresh]; rfl
  have hcount : sys.childCount id = 0 :=
    childCount_eq_zero h.length_lt.le fun j ↦ h.forest.not_isChild hnone
  refine ⟨hs.capacity ▸ h.capacity_lt, hlen, hlinks ▸ h.forest.attachRoot hnone, hfree, ?_, ?_⟩
  · intro j m hm
    rw [hs.liveNode] at hm
    rw [hs.childCount]
    simp only [freshNode, reduceCtorEq, if_false, Nat.add_zero]
    by_cases hj : j = id
    · subst hj
      obtain rfl : m = freshNode info none := by simpa using hm.symm
      rw [hold_self, hheld, hcount]
      rfl
    · rw [update_of_ne hj] at hm
      rw [hold_of_ne hj]
      exact h.references j m hm
  · intro j hj
    rw [hs.liveNode]
    by_cases hji : j = id
    · exact ⟨_, by rw [hji, update_self]⟩
    · rw [hold_of_ne hji] at hj
      rw [update_of_ne hji]
      exact h.held_live j hj

theorem liveNode_linkChild (hs : Spawned sys id (freshNode info (some p)) sys')
    (hp : sys.liveNode p = some n) :
    (sys'.linkChild p id).liveNode
      = update (update sys.liveNode id
          (some { freshNode info (some p) with nextSibling := n.firstChild })) p
        (some { n with firstChild := some id }) := by
  have hne : p ≠ id := by
    rintro rfl
    rw [hs.fresh] at hp
    cases hp
  have hp' : sys'.liveNode p = some n := by rw [hs.liveNode, update_of_ne hne, hp]
  have hfirst : sys'.firstChild p = n.firstChild := by rw [firstChild, hp']; rfl
  rw [linkChild, liveNode_modifyLive, liveNode_modifyLive, hfirst, hs.liveNode,
    update_self, update_idem, update_of_ne hne, hp]
  rfl

/-- A fresh child is well formed: the reference its parent was held with is now the child's. -/
theorem Wf.spawnChild (h : sys.Wf (hold held p)) (hp : sys.liveNode p = some n)
    (hs : Spawned sys id (freshNode info (some p)) sys') (hlen : sys'.nodes.length ≤ sys'.capacity)
    (hfree : FreeListed sys') : (sys'.linkChild p id).Wf (hold held id) := by
  have hne : p ≠ id := by
    rintro rfl
    rw [hs.fresh] at hp
    cases hp
  have hlive := liveNode_linkChild hs hp
  have hheld : held id = 0 := by
    by_contra hne'
    obtain ⟨m, hm⟩ := h.held_live id (by rwa [hold_of_ne hne.symm])
    rw [hs.fresh] at hm
    cases hm
  have hnone : sys.links id = none := by rw [links, hs.fresh]; rfl
  have hcount : sys.childCount id = 0 :=
    childCount_eq_zero h.length_lt.le fun j ↦ h.forest.not_isChild hnone
  have hlinks : (sys'.linkChild p id).links
      = update (update sys.links id (some ⟨some p, none, n.links.firstChild⟩)) p
        (some { n.links with firstChild := some id }) := by
    rw [links_eq, hlive, comp_update, comp_update]
    rfl
  have hchild : ∀ q, (sys'.linkChild p id).childCount q
      = sys.childCount q + if some p = some q then 1 else 0 := by
    intro q
    rw [linkChild, childCount_modifyLive (by exact fun _ ↦ rfl),
      childCount_modifyLive (by exact fun _ ↦ rfl)]
    exact hs.childCount q
  refine ⟨?_, ?_, ?_, ?_, ?_, ?_⟩
  · simpa [linkChild, hs.capacity] using h.capacity_lt
  · simpa [linkChild] using hlen
  · rw [hlinks]
    exact h.forest.attach hnone (links_eq_some.mpr ⟨n, hp, rfl⟩)
  · rw [FreeListed, linkChild, freeLink_modifyLive, freeLink_modifyLive, freeHead_modifyLive,
      freeHead_modifyLive]
    exact hfree
  · intro j m hm
    rw [hlive] at hm
    rw [hchild]
    by_cases hjp : j = p
    · subst hjp
      obtain rfl : m = { n with firstChild := some id } := by simpa using hm.symm
      have := h.references j n hp
      rw [hold_self] at this
      rw [hold_of_ne hne, if_pos rfl]
      change n.references = _
      omega
    · rw [update_of_ne hjp] at hm
      rw [if_neg (by simpa using Ne.symm hjp), Nat.add_zero]
      by_cases hj : j = id
      · subst hj
        obtain rfl : m = { freshNode info (some p) with nextSibling := n.firstChild } := by
          simpa using hm.symm
        rw [hold_self, hheld, hcount]
        rfl
      · rw [update_of_ne hj] at hm
        have := h.references j m hm
        rw [hold_of_ne hjp] at this
        rw [hold_of_ne hj, this]
  · intro j hj
    rw [hlive]
    by_cases hjp : j = p
    · exact ⟨_, by rw [hjp, update_self]⟩
    · rw [update_of_ne hjp]
      by_cases hji : j = id
      · exact ⟨_, by rw [hji, update_self]⟩
      · rw [update_of_ne hji]
        rw [hold_of_ne hji] at hj
        exact h.held_live j (by rwa [hold_of_ne hjp])

/-- With the reference added for a child to come, the parent is held once more. -/
theorem Wf.addReference (h : sys.Wf held) (hok : sys.addReference p = .ok sys') :
    ∃ n, sys.liveNode p = some n ∧ sys'.Wf (hold held p)
      ∧ sys' = sys.modifyLive p fun m ↦ { m with references := n.references + 1 } := by
  cases hn : sys.liveNode p with
  | none => simp [CapabilitySystem.addReference, hn] at hok
  | some n =>
    have hsys : sys' = sys.modifyLive p fun m ↦ { m with references := n.references + 1 } := by
      simp only [CapabilitySystem.addReference, hn] at hok
      cases hadd : checkedAdd 32 n.references 1 with
      | none => simp [hadd] at hok
      | some k =>
        obtain ⟨-, rfl⟩ := checkedAdd_eq_some.mp hadd
        simpa [hadd] using hok.symm
    refine ⟨n, rfl, hsys ▸ h.modifyReferences hn (fun j hj ↦ hold_of_ne hj) ?_, hsys⟩
    rw [hold_self, h.references p n hn]
    omega

theorem grants_modifyLive {f : LiveNode → LiveNode} (hf : ∀ n, (f n).grant = n.grant) :
    (sys.modifyLive id f).grants = sys.grants := by
  funext j
  rw [grants, liveNode_modifyLive]
  by_cases hj : j = id
  · rw [hj, update_self, Option.map_map, grants]
    exact congrArg (Option.map · (sys.liveNode id)) (funext hf)
  · rw [update_of_ne hj, grants]

/-- **Creation.** With room in the table and a live parent, if any, `allocateNode` fails without a
trace or creates one node, held once. -/
theorem Wf.allocateNode (h : sys.Wf held)
    (hroom : ¬ (sys.freeHead = none ∧ sys.nodes.length = sys.capacity)) (info : CapabilityInfo)
    (parent : Option NodeId) :
    (∃ e, sys.allocateNode info parent = (.error e, sys))
      ∨ ∃ id sys', sys.allocateNode info parent = (.ok id, sys') ∧ sys'.Wf (hold held id)
        ∧ Created sys id info parent sys' := by
  cases parent with
  | none =>
    obtain ⟨id, sys', heq, hs, hlen, hfree⟩ := h.allocateEntry_eq hroom info none
    refine .inr ⟨id, sys', heq, h.spawnRoot hs hlen hfree, hs.fresh, ?_, hs.capacity⟩
    rw [grants_eq, hs.liveNode, comp_update]
    rfl
  | some p =>
    cases hadd : sys.addReference p with
    | error e => exact .inl ⟨e, by simp [CapabilitySystem.allocateNode, hadd]⟩
    | ok sys₁ =>
      obtain ⟨n, hn, h₁, hsys₁⟩ := h.addReference hadd
      have hp : sys₁.liveNode p = some { n with references := n.references + 1 } := by
        rw [hsys₁, liveNode_modifyLive, update_self, hn]
        rfl
      have hroom₁ : ¬ (sys₁.freeHead = none ∧ sys₁.nodes.length = sys₁.capacity) := by
        simpa [hsys₁] using hroom
      have hgrants : sys₁.grants = sys.grants := by
        rw [hsys₁]
        exact grants_modifyLive fun _ ↦ rfl
      obtain ⟨id, sys', heq, hs, hlen, hfree⟩ := h₁.allocateEntry_eq hroom₁ info (some p)
      refine .inr ⟨id, sys'.linkChild p id, ?_, h₁.spawnChild hp hs hlen hfree, ?_, ?_, ?_⟩
      · simpa [CapabilitySystem.allocateNode, hadd, linkToParent] using heq
      · have := congrFun hgrants id
        rw [grants, hs.fresh] at this
        simpa [grants] using this.symm
      · rw [← hgrants]
        funext j
        rw [grants, liveNode_linkChild hs hp]
        by_cases hjp : j = p
        · have hpid : p ≠ id := by
            rintro rfl
            rw [hs.fresh] at hp
            cases hp
          rw [hjp, update_self, update_of_ne hpid, grants, hp]
          rfl
        · rw [update_of_ne hjp]
          by_cases hj : j = id
          · rw [hj, update_self, update_self]
            rfl
          · rw [update_of_ne hj, update_of_ne hj, grants]
      · simp [linkChild, hs.capacity, hsys₁]

end CapabilitySystem

end Gaxera

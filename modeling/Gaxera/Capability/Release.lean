import Gaxera.Capability.Forest

/-!
# Releasing a node

`release_node` drops one reference and, when it was the last, frees the node and goes on with the
reference the node had on its parent. `Wf.releaseStep` says what one turn does to a node that is
held once more than the slots account for; `Wf.releaseNode` is the run of the loop. On the way,
`unlink_child` finds the child it is asked to unlink, which is `findChild_eq`: the walk over the
siblings is a `Threads` walk, and the child is on it.
-/

namespace Gaxera

open Function

namespace CapabilitySystem

variable {sys sys' : CapabilitySystem} {id j p : NodeId} {n : LiveNode} {held : NodeId → ℕ}

/-! ## Finding the child -/

theorem next_links_eq_some {o : Option NodeId} :
    SiblingForest.next sys.links id = some o ↔
      ∃ n, sys.liveNode id = some n ∧ n.nextSibling = o := by
  rw [SiblingForest.next, links, Option.map_map, Option.map_eq_some_iff]
  rfl

/-- The walk over the siblings stops in front of the child, if the child is on it. -/
theorem findPredecessor_eq {first : NodeId} {l : List NodeId} {fuel : ℕ}
    (hl : Threads (SiblingForest.next sys.links) (some first) l) (hid : id ∈ l) (hne : first ≠ id)
    (hfuel : l.length ≤ fuel) :
    ∃ q k, sys.findPredecessor id fuel first = some q ∧ q ∈ l ∧ sys.liveNode q = some k
      ∧ k.nextSibling = some id := by
  induction fuel generalizing first l with
  | zero =>
    rw [List.length_eq_zero_iff.mp (Nat.le_zero.mp hfuel)] at hid
    simp at hid
  | succ fuel ih =>
    cases hl with
    | @cons _ o l' link rest =>
      obtain ⟨k, hk, rfl⟩ := next_links_eq_some.mp link
      by_cases hnext : k.nextSibling = some id
      · exact ⟨first, k, by simp [findPredecessor, hk, hnext], List.mem_cons_self, hk, hnext⟩
      · have hid' : id ∈ l' := (List.mem_cons.mp hid).resolve_left (Ne.symm hne)
        obtain ⟨nxt, hnxt⟩ : ∃ nxt, k.nextSibling = some nxt := by
          cases hks : k.nextSibling with
          | none =>
            rw [hks, Threads.none_iff] at rest
            subst rest
            simp at hid'
          | some nxt => exact ⟨nxt, rfl⟩
        rw [hnxt] at rest
        have hne' : nxt ≠ id := fun hc ↦ hnext (hnxt.trans (by rw [hc]))
        obtain ⟨q, m, hq, hmem, hm, hmn⟩ := ih rest hid' hne' (by simpa using hfuel)
        refine ⟨q, m, ?_, List.mem_cons_of_mem _ hmem, hm, hmn⟩
        simpa [findPredecessor, hk, hnxt, hne'] using hq

/-- **Every child is found**, as the first child of its parent or behind a sibling. -/
theorem findChild_eq (h : SiblingForest.Wf sys.links) (hn : sys.liveNode id = some n)
    (hp : n.parent = some p) :
    (sys.findChild p id = some .first ∧ sys.firstChild p = some id)
      ∨ ∃ q k, sys.findChild p id = some (.behind q) ∧ SiblingForest.IsChild sys.links p q
        ∧ sys.liveNode q = some k ∧ k.nextSibling = some id := by
  have hchild : SiblingForest.IsChild sys.links p id := isChild_iff.mpr ⟨n, hn, hp⟩
  obtain ⟨kp, hkp⟩ := h.parent_live hchild
  obtain ⟨np, hnp, rfl⟩ := links_eq_some.mp hkp
  obtain ⟨l, hl, hmem⟩ := h.children p np.links hkp
  have hid := (hmem id).mpr hchild
  obtain ⟨first, hfirst⟩ : ∃ first, np.firstChild = some first := by
    cases hf : np.firstChild with
    | none =>
      rw [show np.links.firstChild = none from hf, Threads.none_iff] at hl
      subst hl
      simp at hid
    | some first => exact ⟨first, rfl⟩
  rw [show np.links.firstChild = some first from hfirst] at hl
  have hfc : sys.firstChild p = some first := by rw [firstChild, hnp]; exact hfirst
  by_cases hne : first = id
  · left
    exact ⟨by simp [findChild, hfc, hne], by rw [hfc, hne]⟩
  · right
    have hlive : ∀ i ∈ l, ∃ m, sys.liveNode i = some m := by
      intro i hi
      obtain ⟨m, hm, -⟩ := isChild_iff.mp ((hmem i).mp hi)
      exact ⟨m, hm⟩
    have hfuel : l.length ≤ sys.nodes.length + 1 :=
      (length_le_of_live hl.nodup hlive).trans (Nat.le_succ _)
    obtain ⟨q, k, hq, hql, hk, hkn⟩ := findPredecessor_eq hl hid hne hfuel
    refine ⟨q, k, ?_, (hmem q).mp hql, hk, hkn⟩
    simp [findChild, hfc, hne, hq]

/-- Unlinking a childless child rewrites one other node, in its links only, and leaves a forest
without the child. -/
theorem unlinkChild_eq (h : SiblingForest.Wf sys.links) (hn : sys.liveNode id = some n)
    (hp : n.parent = some p) (hleaf : ∀ x, ¬ SiblingForest.IsChild sys.links id x) :
    ∃ q f, sys.unlinkChild p id = sys.modifyLive q f ∧ q ≠ id ∧ (∀ m, (f m).grant = m.grant)
      ∧ (∀ m, (f m).references = m.references)
      ∧ SiblingForest.Wf (update (sys.modifyLive q f).links id none) := by
  have hchild : SiblingForest.IsChild sys.links p id := isChild_iff.mpr ⟨n, hn, hp⟩
  have hc : sys.links id = some n.links := links_eq_some.mpr ⟨n, hn, rfl⟩
  have hsib : sys.nextSibling id = n.nextSibling := by rw [nextSibling, hn]; rfl
  obtain ⟨kp, hkp⟩ := h.parent_live hchild
  obtain ⟨np, hnp, rfl⟩ := links_eq_some.mp hkp
  rcases findChild_eq h hn hp with ⟨hfind, hfirst⟩ | ⟨q, k, hfind, hqp, hk, hkn⟩
  · refine ⟨p, fun m ↦ { m with firstChild := sys.nextSibling id }, by rw [unlinkChild, hfind],
      h.ne_of_isChild hchild, fun _ ↦ rfl, fun _ ↦ rfl, ?_⟩
    have hfirst' : np.links.firstChild = some id := by
      rw [firstChild, hnp] at hfirst
      exact hfirst
    rw [links_modifyLive, hnp, hsib]
    exact h.detachFirst hc hp hkp hfirst' hleaf
  · have hq : sys.links q = some k.links := links_eq_some.mpr ⟨k, hk, rfl⟩
    have hqid : q ≠ id := by
      rintro rfl
      -- a node behind itself would make the sibling walk endless
      obtain ⟨l, hl, hmem⟩ := h.children p np.links hkp
      obtain ⟨l₁, l₂, rfl⟩ := List.append_of_mem ((hmem q).mpr hqp)
      have hself : SiblingForest.next sys.links q = some (some q) :=
        next_links_eq_some.mpr ⟨k, hk, hkn⟩
      have := congrArg List.length (hl.suffix.unique (hl.suffix.tail hself))
      simp at this
    refine ⟨q, fun m ↦ { m with nextSibling := sys.nextSibling id }, by rw [unlinkChild, hfind],
      hqid, fun _ ↦ rfl, fun _ ↦ rfl, ?_⟩
    rw [links_modifyLive, hk, hsib]
    exact h.detachBehind hc hp hq hqp hkn hleaf

/-! ## Freeing a node -/

/-- What a freed node leaves behind, given that its links have been taken out of the forest and
that the remaining counts agree. -/
theorem Wf.of_freeNode {held' : NodeId → ℕ} (hcap : sys.capacity < 2 ^ 32)
    (hlen : sys.nodes.length ≤ sys.capacity) (hfree : sys.FreeListed)
    (hn : sys.liveNode id = some n)
    (hforest : SiblingForest.Wf (update sys.links id none))
    (hrefs : ∀ j m, j ≠ id → sys.liveNode j = some m →
      m.references + (if n.parent = some j then 1 else 0) = held' j + sys.childCount j)
    (hlive : ∀ j, held' j ≠ 0 → j ≠ id ∧ ∃ m, sys.liveNode j = some m) :
    (sys.freeNode id sys.freeHead).Wf held' := by
  obtain ⟨l, hl, hmem⟩ := hfree
  refine ⟨hcap, by simpa using hlen, by rwa [links_freeNode hn], ⟨id.index :: l, ?_, fun i ↦ ?_⟩,
    fun j m hm ↦ ?_, fun j hj ↦ ?_⟩
  · rw [freeHead_freeNode, freeLink_freeNode hn]
    refine hl.push (update_self ..) fun i hi ↦ update_of_ne ?_ _ _
    rintro rfl
    obtain ⟨next, hnext⟩ := (hmem _).mp hi
    rw [freeLink_of_liveNode hn] at hnext
    cases hnext
  · rw [freeLink_freeNode hn, List.mem_cons]
    by_cases hi : i = id.index
    · subst hi
      simp
    · rw [update_of_ne hi, hmem]
      simp [hi]
  · rw [liveNode_freeNode hn] at hm
    have hj : j ≠ id := by
      rintro rfl
      simp at hm
    rw [update_of_ne hj] at hm
    have := hrefs j m hj hm
    have := childCount_freeNode hn sys.freeHead j
    omega
  · obtain ⟨hji, m, hm⟩ := hlive j hj
    exact ⟨m, by rw [liveNode_freeNode hn, update_of_ne hji, hm]⟩

/-! ## One turn of the loop -/

theorem live_modifyLive {f : LiveNode → LiveNode} {m : LiveNode}
    (hf : ∀ k, (f k).references = k.references) (h : (sys.modifyLive id f).liveNode j = some m) :
    ∃ k, sys.liveNode j = some k ∧ m.references = k.references := by
  rw [liveNode_modifyLive] at h
  by_cases hj : j = id
  · subst hj
    rw [update_self, Option.map_eq_some_iff] at h
    obtain ⟨k, hk, rfl⟩ := h
    exact ⟨k, hk, hf k⟩
  · rw [update_of_ne hj] at h
    exact ⟨m, h, rfl⟩

theorem exists_live_modifyLive {f : LiveNode → LiveNode} (h : ∃ m, sys.liveNode j = some m) :
    ∃ m, (sys.modifyLive id f).liveNode j = some m := by
  obtain ⟨m, hm⟩ := h
  rw [liveNode_modifyLive]
  by_cases hj : j = id
  · subst hj
    exact ⟨f m, by rw [update_self, hm]; rfl⟩
  · exact ⟨m, by rw [update_of_ne hj, hm]⟩

/-- How a turn of the release loop ends: the debt is paid, or passed on to the parent of a node
that is gone. -/
inductive ReleaseTurn (sys : CapabilitySystem) (held : NodeId → ℕ) (id : NodeId) :
    ReleaseOutcome × CapabilitySystem → Prop
  | kept {sys' : CapabilitySystem} (wf : sys'.Wf held) (grants : sys'.grants = sys.grants)
      (capacity : sys'.capacity = sys.capacity) :
      ReleaseTurn sys held id (.done (.ok ()), sys')
  | root {sys' : CapabilitySystem} (wf : sys'.Wf held)
      (grants : sys'.grants = update sys.grants id none)
      (capacity : sys'.capacity = sys.capacity) :
      ReleaseTurn sys held id (.done (.ok ()), sys')
  | child {sys' : CapabilitySystem} {p : NodeId} (wf : sys'.Wf (hold held p))
      (grants : sys'.grants = update sys.grants id none)
      (capacity : sys'.capacity = sys.capacity) (liveCount : sys'.liveCount + 1 = sys.liveCount) :
      ReleaseTurn sys held id (.again p, sys')

theorem grants_freeNode {head : Option UInt32} (hn : sys.liveNode id = some n) :
    (sys.freeNode id head).grants = update sys.grants id none := by
  rw [grants_eq, liveNode_freeNode hn, comp_update]
  rfl

/-- The system on which `unlink_child` is called, when the last reference of `id` goes. -/
def dropped (sys : CapabilitySystem) (id : NodeId) : CapabilitySystem :=
  sys.modifyLive id fun n ↦ { n with references := n.references - 1 }

theorem links_dropped : (sys.dropped id).links = sys.links := by
  rw [dropped, links_modifyLive]
  exact update_eq_self id sys.links

theorem liveNode_dropped (hn : sys.liveNode id = some n) :
    (sys.dropped id).liveNode id = some { n with references := n.references - 1 } := by
  rw [dropped, liveNode_modifyLive, update_self, hn]
  rfl

theorem Wf.releaseStep (h : sys.Wf (hold held id)) :
    ReleaseTurn sys held id (sys.releaseStep id) := by
  obtain ⟨n, hn⟩ := h.held_live id (by rw [hold_self]; omega)
  have hrefs := h.references id n hn
  rw [hold_self] at hrefs
  have hpos : n.references ≠ 0 := by omega
  set sys₁ := sys.dropped id with hsys₁
  rw [dropped] at hsys₁
  have hgrants₁ : sys₁.grants = sys.grants := grants_modifyLive fun _ ↦ rfl
  by_cases hlast : n.references - 1 = 0
  swap
  · -- not the last reference
    have hstep : sys.releaseStep id = (.done (.ok ()), sys₁) := by
      simp [CapabilitySystem.releaseStep, hn, hpos, hlast, hsys₁]
    rw [hstep]
    refine .kept ?_ hgrants₁ (by simp [hsys₁])
    have hsame : sys₁ = sys.modifyLive id fun m ↦ { m with references := n.references - 1 } := by
      rw [hsys₁, modifyLive_of_some hn, modifyLive_of_some hn]
    rw [hsame]
    refine h.modifyReferences hn (fun j hj ↦ (hold_of_ne hj).symm) ?_
    omega
  -- the last reference: nobody holds the node and it has no children
  have hheld : held id = 0 := by omega
  have hcount : sys.childCount id = 0 := by omega
  have hn₁ := liveNode_dropped hn
  have hcount₁ : sys₁.childCount = sys.childCount := childCount_modifyLive fun _ ↦ rfl
  have hforest₁ : SiblingForest.Wf sys₁.links := links_dropped.symm ▸ h.forest
  have hleaf : ∀ x, ¬ SiblingForest.IsChild sys₁.links id x := fun x ↦
    not_isChild_of_childCount_eq_zero (by rw [hcount₁, hcount])
  have hcap₁ : sys₁.capacity = sys.capacity := by simp [hsys₁]
  have hlen₁ : sys₁.nodes.length ≤ sys₁.capacity := by simpa [hsys₁] using h.length_le
  have hfree₁ : sys₁.FreeListed := by
    rw [FreeListed, hsys₁, freeLink_modifyLive, freeHead_modifyLive]
    exact h.free
  have hlive₁ : ∀ j, held j ≠ 0 → j ≠ id ∧ ∃ m, sys₁.liveNode j = some m := by
    intro j hj
    have hji : j ≠ id := by
      rintro rfl
      exact hj hheld
    exact ⟨hji, exists_live_modifyLive (h.held_live j (by rwa [hold_of_ne hji]))⟩
  have hrefs₁ : ∀ j m, j ≠ id → sys₁.liveNode j = some m →
      m.references = held j + sys₁.childCount j := by
    intro j m hj hm
    rw [hsys₁, liveNode_modifyLive, update_of_ne hj] at hm
    rw [h.references j m hm, hold_of_ne hj, hcount₁]
  cases hparent : n.parent with
  | none =>
    have hstep : sys.releaseStep id = (.done (.ok ()), sys₁.freeNode id sys₁.freeHead) := by
      simp [CapabilitySystem.releaseStep, hn, hpos, hlast, hparent, hsys₁]
    rw [hstep]
    refine .root (Wf.of_freeNode (hcap₁ ▸ h.capacity_lt) hlen₁ hfree₁ hn₁ ?_ ?_ hlive₁) ?_ hcap₁
    · exact hforest₁.detachRoot (links_eq_some.mpr ⟨_, hn₁, rfl⟩) hparent hleaf
    · intro j m hj hm
      simp [hparent, hrefs₁ j m hj hm]
    · rw [grants_freeNode hn₁, hgrants₁]
  | some p =>
    obtain ⟨q, f, hunlink, hq, hfg, hfr, hforest⟩ := unlinkChild_eq hforest₁ hn₁ hparent hleaf
    set sys₂ := sys₁.modifyLive q f with hsys₂
    have hn₂ : sys₂.liveNode id = some { n with references := n.references - 1 } := by
      rw [hsys₂, liveNode_modifyLive, update_of_ne hq.symm, hn₁]
    have hnode₂ : sys₂.node id
        = some ⟨id.generation, .live { n with references := n.references - 1 }⟩ := by
      rw [node, liveNode_eq_some.mp hn₂]
      simp
    have hhead₂ : sys₂.freeHead = sys₁.freeHead := by simp [hsys₂]
    have hcount₂ : sys₂.childCount = sys₁.childCount :=
      childCount_modifyLive fun m ↦ congrArg Grant.parent (hfg m)
    have hstep : sys.releaseStep id = (.again p, sys₂.freeNode id sys₂.freeHead) := by
      rw [hhead₂]
      simp [CapabilitySystem.releaseStep, hn, hpos, hlast, hparent, ← hsys₁, hunlink, hnode₂]
    have hpid : p ≠ id := hforest₁.ne_of_isChild (isChild_iff.mpr ⟨_, hn₁, hparent⟩)
    rw [hstep]
    refine .child (Wf.of_freeNode ?_ ?_ ?_ hn₂ hforest ?_ ?_) ?_ ?_ ?_
    · simpa [hsys₂, hcap₁] using h.capacity_lt
    · simpa [hsys₂] using hlen₁
    · rw [FreeListed, hsys₂, freeLink_modifyLive, freeHead_modifyLive]
      exact hfree₁
    · intro j m hj hm
      obtain ⟨k, hk, hmk⟩ := live_modifyLive hfr hm
      rw [hmk, hrefs₁ j k hj hk, hcount₂, hold, hparent]
      by_cases hjp : j = p
      · simp only [hjp, if_true]
        omega
      · rw [if_neg hjp, if_neg fun hc ↦ hjp (Option.some_inj.mp hc).symm]
        omega
    · intro j hj
      by_cases hjp : j = p
      · subst hjp
        obtain ⟨k, hk⟩ := hforest₁.parent_live (isChild_iff.mpr ⟨_, hn₁, hparent⟩)
        obtain ⟨m, hm, -⟩ := links_eq_some.mp hk
        exact ⟨hpid, exists_live_modifyLive ⟨m, hm⟩⟩
      · obtain ⟨hji, hm⟩ := hlive₁ j (by rwa [hold_of_ne hjp] at hj)
        exact ⟨hji, exists_live_modifyLive hm⟩
    · rw [grants_freeNode hn₂, hsys₂, grants_modifyLive hfg, hgrants₁]
    · simp [hsys₂, hcap₁]
    · rw [liveCount_freeNode hn₂, hsys₂, liveCount_modifyLive, hsys₁, liveCount_modifyLive]

/-! ## The run of the loop -/

/-- Releasing takes grants away and changes none. -/
def Restricts (g g' : NodeId → Option Grant) : Prop := ∀ j, g' j = g j ∨ g' j = none

theorem restricts_update {g g' : NodeId → Option Grant}
    (h : Restricts (update g id none) g') : Restricts g g' := by
  intro j
  rcases h j with hj | hj
  · by_cases hji : j = id
    · subst hji
      right
      rw [hj, update_self]
    · left
      rw [hj, update_of_ne hji]
  · exact .inr hj

theorem Wf.releaseLoop {fuel : ℕ} (h : sys.Wf (hold held id)) (hfuel : sys.liveCount < fuel) :
    ∃ sys', releaseLoop fuel sys id = (.ok (), sys') ∧ sys'.Wf held
      ∧ Restricts sys.grants sys'.grants ∧ sys'.capacity = sys.capacity := by
  induction fuel generalizing sys id with
  | zero => omega
  | succ fuel ih =>
    have hturn := h.releaseStep
    rw [CapabilitySystem.releaseLoop]
    generalize sys.releaseStep id = r at hturn
    cases hturn with
    | @kept sys' wf grants capacity =>
      exact ⟨sys', rfl, wf, fun j ↦ .inl (by rw [grants]), capacity⟩
    | @root sys' wf grants capacity =>
      exact ⟨sys', rfl, wf, restricts_update fun j ↦ .inl (by rw [grants]), capacity⟩
    | @child sys' p wf grants capacity liveCount =>
      obtain ⟨sys'', heq, wf', hres, hcap⟩ := ih wf (by omega)
      rw [grants] at hres
      exact ⟨sys'', heq, wf', restricts_update hres, hcap.trans capacity⟩

/-- **Releasing a held node succeeds** and takes its one reference back. -/
theorem Wf.releaseNode (h : sys.Wf (hold held id)) :
    ∃ sys', sys.releaseNode id = (.ok (), sys') ∧ sys'.Wf held
      ∧ Restricts sys.grants sys'.grants ∧ sys'.capacity = sys.capacity :=
  h.releaseLoop (Nat.lt_succ_of_le liveCount_le)

/-- The systems and nodes at the head of the loop, in the course of one call. -/
inductive ReleaseHead (sys : CapabilitySystem) (id : NodeId) : CapabilitySystem → NodeId → Prop
  | start : ReleaseHead sys id sys id
  | again {s s' : CapabilitySystem} {i p : NodeId} (head : ReleaseHead sys id s i)
      (step : s.releaseStep i = (.again p, s')) : ReleaseHead sys id s' p

theorem Wf.releaseHead {s : CapabilitySystem} {i : NodeId} (h : sys.Wf (hold held id))
    (hhead : ReleaseHead sys id s i) : s.Wf (hold held i) := by
  induction hhead with
  | start => exact h
  | again _ step ih =>
    have hturn := ih.releaseStep
    rw [step] at hturn
    cases hturn with
    | child wf _ _ _ => exact wf

/-- Whenever the loop unlinks a child from its parent, it finds it. -/
theorem Wf.findChild_dropped (h : sys.Wf held) (hn : sys.liveNode id = some n)
    (hp : n.parent = some p) : (sys.dropped id).findChild p id ≠ none := by
  rcases findChild_eq (links_dropped.symm ▸ h.forest) (liveNode_dropped hn) hp with
    ⟨hfind, -⟩ | ⟨q, k, hfind, -⟩ <;>
    simp [hfind]

end CapabilitySystem

end Gaxera

import Gaxera.Capability.Step

/-!
# The derivation forest over whole runs

The invariant of the runs, said in the terms of the table itself: what the reference counts count,
where the parent links lead, what the children lists and the free list thread. And what follows for
deletion: it cannot fail behind the slot, and on its way up it finds every child it unlinks.
-/

namespace Gaxera

open CapabilitySystem

namespace CapState

variable {st : CapState}

/-- The node table describes one derivation forest. -/
structure NodeTableSound (st : CapState) : Prop where
  /-- A reference count counts the slots that hold the node and the live nodes below it. -/
  references : ∀ id n, st.system.liveNode id = some n →
    n.references = st.holders id + st.system.childCount id
  /-- The parent links lead from a live node over live nodes, none of them twice, to a root, in at
  most as many steps as the table has room for. -/
  parents : ∀ id n, st.system.liveNode id = some n →
    ∃ l, Threads (fun i ↦ (st.system.liveNode i).map LiveNode.parent) (some id) l ∧ l.Nodup
      ∧ l.length ≤ st.system.capacity
  /-- The children list of a live node meets the live nodes below it, each once. -/
  children : ∀ id n, st.system.liveNode id = some n →
    ∃ l, Threads (fun i ↦ (st.system.liveNode i).map LiveNode.nextSibling) n.firstChild l
      ∧ l.Nodup ∧ ∀ c, c ∈ l ↔ ∃ m, st.system.liveNode c = some m ∧ m.parent = some id
  /-- The free list meets the free entries, each once. -/
  free : ∃ l, Threads st.system.freeLink st.system.freeHead l ∧ l.Nodup
    ∧ ∀ i, i ∈ l ↔ ∃ g next, st.system.nodes[i.toNat]? = some ⟨g, .free next⟩

/-- Deleting a handle that resolves succeeds, and finds what it unlinks: at every head of the
release loop, a child that is about to be freed is found below its parent. -/
structure DeleteSound (st : CapState) : Prop where
  succeeds : ∀ k d space dom handle node, st.spaces.get k = some space →
    st.domains.get d = some dom → space.domain = dom.id → space.nodeFor handle = .ok node →
    (st.system.delete space dom handle).1 = .ok ()
  finds : ∀ k space handle node, st.spaces.get k = some space → space.nodeFor handle = .ok node →
    ∀ s i n p, CapabilitySystem.ReleaseHead st.system node s i → s.liveNode i = some n →
      n.parent = some p → (s.dropped i).findChild p i ≠ none

theorem Wf.nodeTableSound (h : st.Wf) : st.NodeTableSound := by
  have hup : SiblingForest.up st.system.links
      = fun i ↦ (st.system.liveNode i).map LiveNode.parent := by
    funext i
    rw [SiblingForest.up, links, Option.map_map]
    rfl
  have hnext : SiblingForest.next st.system.links
      = fun i ↦ (st.system.liveNode i).map LiveNode.nextSibling := by
    funext i
    rw [SiblingForest.next, links, Option.map_map]
    rfl
  refine ⟨h.system.references, fun id n hn ↦ hup ▸ h.system.exists_climb hn, fun id n hn ↦ ?_, ?_⟩
  · obtain ⟨l, hl, hmem⟩ := h.system.forest.children id n.links
      (links_eq_some.mpr ⟨n, hn, rfl⟩)
    exact ⟨l, hnext ▸ hl, hl.nodup, fun c ↦ (hmem c).trans isChild_iff⟩
  · obtain ⟨l, hl, hmem⟩ := h.system.free
    refine ⟨l, hl, hl.nodup, fun i ↦ (hmem i).trans ?_⟩
    simp only [freeLink_eq_some]
    exact exists_comm

theorem Wf.deleteSound (h : st.Wf) : st.DeleteSound := by
  constructor
  · intro k d space dom handle node hspace hdom hmatch hnode
    rcases h.system.delete (h.spaces k space hspace) handle (holders_le hspace)
      (h.occupied_le_usage hspace hdom) with
      ⟨e, -, hnot⟩ | ⟨_, _, _, _, heq, -⟩
    · exact absurd ⟨hmatch, node, hnode⟩ hnot
    · rw [heq]
  · intro k space handle node hspace hnode s i n p hhead hn hp
    have hheld : st.holders node ≠ 0 := by
      obtain ⟨-, hslot⟩ := CapabilitySpace.nodeFor_eq_ok.mp hnode
      obtain ⟨next, hx⟩ := CapabilitySpace.slotAt_eq_some.mp hslot
      have hpos : 0 < space.holders node :=
        List.countP_pos_iff.mpr ⟨_, List.mem_of_getElem? hx, by simp⟩
      have := holders_le hspace node
      omega
    obtain ⟨held', hhold⟩ := exists_hold hheld
    have hwf := h.system
    rw [hhold] at hwf
    exact (hwf.releaseHead hhead).findChild_dropped hn hp

/-- **The derivation forest.** Whatever the operations, and whether they succeed or fail, the node
table stays a derivation forest and deletion stays sound. -/
theorem derivation_forest_of_run (h : st.Initial) (ops : List CapOp) :
    (st.run ops).NodeTableSound ∧ (st.run ops).DeleteSound :=
  ⟨(h.wf.run ops).nodeTableSound, (h.wf.run ops).deleteSound⟩

/-- The chain survives the deletion of its upper handles, and is a forest all along. -/
theorem derivation_forest_of_chain :
    (twoSpaces.run chainOps).system.liveCount = 3
      ∧ (twoSpaces.run chainOps).NodeTableSound ∧ (twoSpaces.run chainOps).DeleteSound :=
  ⟨by decide, derivation_forest_of_run twoSpaces_initial chainOps⟩

end CapState

end Gaxera

import Gaxera.Core.Capability
import Gaxera.Data.SiblingForest

/-!
# The node table, read as a forest

Every statement about the capability system reads the node table in one of four ways: which
identities name live nodes and what is in them (`liveNode`), how those nodes are linked (`links`),
how the free entries are linked (`freeLink`), and how many live nodes have a given parent
(`childCount`). The table is written in four ways: a live node is rewritten in place, a live node
is freed, a free entry is brought to life, and an entry is added at the end. This module says how
each of the four writes moves each of the four readings, and nothing else about the system unfolds
the table again.
-/

namespace Gaxera

open Function

def LiveNode.links (n : LiveNode) : Links NodeId := ⟨n.parent, n.firstChild, n.nextSibling⟩

namespace CapabilityNode

def parent (n : CapabilityNode) : Option NodeId :=
  match n.state with
  | .live n => n.parent
  | .free _ => none

def isLive (n : CapabilityNode) : Bool :=
  match n.state with
  | .live _ => true
  | .free _ => false

end CapabilityNode

namespace CapabilitySystem

variable {sys : CapabilitySystem} {id j p : NodeId} {n : LiveNode} {f : LiveNode → LiveNode}

/-! ## Readings -/

/-- The links of the live nodes. -/
def links (sys : CapabilitySystem) (id : NodeId) : Option (Links NodeId) :=
  (sys.liveNode id).map LiveNode.links

theorem links_eq (sys : CapabilitySystem) :
    sys.links = Option.map LiveNode.links ∘ sys.liveNode := rfl

/-- The link of a free entry. -/
def freeLink (sys : CapabilitySystem) (index : UInt32) : Option (Option UInt32) :=
  match sys.nodes[index.toNat]? with
  | some ⟨_, .free next⟩ => some next
  | _ => none

/-- The number of live nodes whose parent is `id`. -/
def childCount (sys : CapabilitySystem) (id : NodeId) : ℕ :=
  sys.nodes.countP fun n ↦ n.parent = some id

/-- The number of live nodes. -/
def liveCount (sys : CapabilitySystem) : ℕ := sys.nodes.countP CapabilityNode.isLive

theorem liveNode_eq_some :
    sys.liveNode id = some n ↔ sys.nodes[id.index.toNat]? = some ⟨id.generation, .live n⟩ := by
  rw [liveNode, node]
  cases h : sys.nodes[id.index.toNat]? with
  | none => simp
  | some e =>
    obtain ⟨g, st⟩ := e
    by_cases hg : g = id.generation
    · cases st <;> simp [hg]
    · simp [hg]

variable {next : Option UInt32}

theorem freeLink_eq_some {i : UInt32} :
    sys.freeLink i = some next ↔ ∃ g, sys.nodes[i.toNat]? = some ⟨g, .free next⟩ := by
  rw [freeLink]
  cases h : sys.nodes[i.toNat]? with
  | none => simp
  | some e =>
    obtain ⟨g, st⟩ := e
    cases st <;> simp

theorem liveNode_lt (h : sys.liveNode id = some n) : id.index.toNat < sys.nodes.length := by
  rw [liveNode_eq_some] at h
  exact (List.getElem?_eq_some_iff.mp h).1

theorem eq_of_liveNode_of_index_eq {m : LiveNode} (h : sys.liveNode id = some n)
    (h' : sys.liveNode j = some m) (hi : j.index = id.index) : j = id := by
  rw [liveNode_eq_some] at h h'
  rw [hi, h] at h'
  simp only [Option.some_inj, CapabilityNode.mk.injEq] at h'
  exact CapabilityNodeId.ext hi h'.1.symm

theorem liveNode_eq_none_of_ne (h : sys.liveNode id = some n) (hi : j.index = id.index)
    (hj : j ≠ id) : sys.liveNode j = none :=
  Option.eq_none_iff_forall_ne_some.mpr fun _ h' ↦ hj (eq_of_liveNode_of_index_eq h h' hi)

theorem liveNode_of_free {i g : UInt32} (hb : sys.nodes[i.toNat]? = some ⟨g, .free next⟩)
    (hj : j.index = i) : sys.liveNode j = none := by
  rw [liveNode, node, hj, hb]
  dsimp only
  split <;> simp_all

theorem freeLink_of_liveNode (h : sys.liveNode id = some n) : sys.freeLink id.index = none := by
  rw [freeLink, liveNode_eq_some.mp h]

theorem links_eq_some {k : Links NodeId} :
    sys.links id = some k ↔ ∃ n, sys.liveNode id = some n ∧ n.links = k := by
  rw [links, Option.map_eq_some_iff]

theorem isChild_iff :
    SiblingForest.IsChild sys.links p id ↔ ∃ n, sys.liveNode id = some n ∧ n.parent = some p := by
  rw [SiblingForest.IsChild, SiblingForest.up, links, Option.map_map, Option.map_eq_some_iff]
  rfl

theorem not_isChild_of_childCount_eq_zero (h : sys.childCount p = 0) :
    ¬ SiblingForest.IsChild sys.links p id := by
  rw [isChild_iff]
  rintro ⟨n, hn, hp⟩
  rw [childCount, List.countP_eq_zero] at h
  rw [liveNode_eq_some] at hn
  exact h _ (List.mem_of_getElem? hn) (decide_eq_true hp)

theorem liveCount_le : sys.liveCount ≤ sys.nodes.length := List.countP_le_length

/-! ## Writing one entry -/

section SetNode

variable {i : UInt32} {b e : CapabilityNode}

/-- `sys'` is `sys` with the entry `e` at the index `i`. -/
def Written (sys : CapabilitySystem) (i : UInt32) (e : CapabilityNode) (sys' : CapabilitySystem) :
    Prop :=
  ∀ k : UInt32, sys'.nodes[k.toNat]? = if k = i then some e else sys.nodes[k.toNat]?

theorem written_setNode (hb : sys.nodes[i.toNat]? = some b) :
    Written sys i e (sys.setNode i e) := by
  intro k
  have hlt := (List.getElem?_eq_some_iff.mp hb).1
  rw [setNode, List.getElem?_set]
  by_cases h : k = i
  · subst h
    rw [if_pos rfl, if_pos hlt, if_pos rfl]
  · rw [if_neg fun hc ↦ h (UInt32.toNat_inj.mp hc).symm, if_neg h]

variable {sys' : CapabilitySystem}

theorem Written.self (h : Written sys i e sys') : sys'.nodes[i.toNat]? = some e := by
  rw [h, if_pos rfl]

/-- An entry is read under one identity at most. -/
theorem Written.liveNode (h : Written sys id.index e sys')
    (hbefore : ∀ j : NodeId, j.index = id.index → j ≠ id → sys.liveNode j = none)
    (hafter : ∀ j : NodeId, j.index = id.index → j ≠ id → sys'.liveNode j = none) :
    sys'.liveNode = update sys.liveNode id (sys'.liveNode id) := by
  funext j
  by_cases hj : j = id
  · rw [hj, update_self]
  · rw [update_of_ne hj]
    by_cases hi : j.index = id.index
    · rw [hbefore j hi hj, hafter j hi hj]
    · rw [CapabilitySystem.liveNode, node, h, if_neg hi]
      rfl

theorem Written.freeLink (h : Written sys i e sys') :
    sys'.freeLink = update sys.freeLink i (sys'.freeLink i) := by
  funext k
  by_cases hk : k = i
  · rw [hk, update_self]
  · rw [update_of_ne hk, CapabilitySystem.freeLink, h, if_neg hk]
    rfl

theorem childCount_setNode (hb : sys.nodes[i.toNat]? = some b) {x y : Option NodeId}
    (hx : b.parent = x) (hy : e.parent = y) (p : NodeId) :
    (sys.setNode i e).childCount p + (if x = some p then 1 else 0)
      = sys.childCount p + if y = some p then 1 else 0 := by
  subst hx hy
  simpa [childCount, setNode] using countP_set_add (fun n ↦ decide (n.parent = some p)) hb (a := e)

theorem liveCount_setNode (hb : sys.nodes[i.toNat]? = some b) :
    (sys.setNode i e).liveCount + (if b.isLive then 1 else 0)
      = sys.liveCount + if e.isLive then 1 else 0 :=
  countP_set_add CapabilityNode.isLive hb

@[simp] theorem length_setNode : (sys.setNode i e).nodes.length = sys.nodes.length :=
  List.length_set

@[simp] theorem capacity_setNode : (sys.setNode i e).capacity = sys.capacity := rfl

@[simp] theorem freeHead_setNode : (sys.setNode i e).freeHead = sys.freeHead := rfl

end SetNode

/-! ## Rewriting a live node -/

section ModifyLive

theorem modifyLive_of_some (h : sys.liveNode id = some n) :
    sys.modifyLive id f = sys.setNode id.index ⟨id.generation, .live (f n)⟩ := by
  rw [modifyLive, h]

theorem modifyLive_of_none (h : sys.liveNode id = none) : sys.modifyLive id f = sys := by
  rw [modifyLive, h]

theorem liveNode_modifyLive :
    (sys.modifyLive id f).liveNode
      = update sys.liveNode id ((sys.liveNode id).map f) := by
  cases h : sys.liveNode id with
  | none =>
    rw [modifyLive_of_none h, Option.map_none, ← h, update_eq_self]
  | some n =>
    have hw := written_setNode (e := ⟨id.generation, .live (f n)⟩) (liveNode_eq_some.mp h)
    have hlive := liveNode_eq_some.mpr hw.self
    rw [modifyLive_of_some h, Option.map_some, ← hlive]
    exact hw.liveNode (fun _ ↦ liveNode_eq_none_of_ne h) fun _ ↦ liveNode_eq_none_of_ne hlive

theorem links_modifyLive :
    (sys.modifyLive id f).links
      = update sys.links id ((sys.liveNode id).map fun n ↦ (f n).links) := by
  rw [links_eq, liveNode_modifyLive, comp_update, Option.map_map]
  rfl

theorem freeLink_modifyLive : (sys.modifyLive id f).freeLink = sys.freeLink := by
  cases h : sys.liveNode id with
  | none => rw [modifyLive_of_none h]
  | some n =>
    have hw := written_setNode (e := ⟨id.generation, .live (f n)⟩) (liveNode_eq_some.mp h)
    rw [modifyLive_of_some h, hw.freeLink, freeLink_of_liveNode (liveNode_eq_some.mpr hw.self),
      ← freeLink_of_liveNode h, update_eq_self]

theorem childCount_modifyLive (hf : ∀ n, (f n).parent = n.parent) :
    (sys.modifyLive id f).childCount = sys.childCount := by
  funext p
  cases h : sys.liveNode id with
  | none => rw [modifyLive_of_none h]
  | some n =>
    rw [modifyLive_of_some h]
    exact Nat.add_right_cancel (childCount_setNode (e := ⟨id.generation, .live (f n)⟩)
      (x := n.parent) (y := n.parent) (liveNode_eq_some.mp h) rfl (hf n) p)

@[simp] theorem liveCount_modifyLive : (sys.modifyLive id f).liveCount = sys.liveCount := by
  cases h : sys.liveNode id with
  | none => rw [modifyLive_of_none h]
  | some n =>
    rw [modifyLive_of_some h]
    have := liveCount_setNode (e := ⟨id.generation, .live (f n)⟩) (liveNode_eq_some.mp h)
    simpa [CapabilityNode.isLive] using this

@[simp] theorem length_modifyLive : (sys.modifyLive id f).nodes.length = sys.nodes.length := by
  rw [modifyLive]
  split <;> simp

@[simp] theorem capacity_modifyLive : (sys.modifyLive id f).capacity = sys.capacity := by
  rw [modifyLive]
  split <;> simp

@[simp] theorem freeHead_modifyLive : (sys.modifyLive id f).freeHead = sys.freeHead := by
  rw [modifyLive]
  split <;> simp

end ModifyLive

/-! ## Freeing a live node -/

section FreeNode

variable {head : Option UInt32}

theorem liveNode_freeNode (h : sys.liveNode id = some n) :
    (sys.freeNode id head).liveNode = update sys.liveNode id none := by
  have hw : Written sys id.index _ (sys.freeNode id head) :=
    written_setNode (liveNode_eq_some.mp h)
  rw [hw.liveNode (fun _ ↦ liveNode_eq_none_of_ne h) fun j hj _ ↦ liveNode_of_free hw.self hj,
    liveNode_of_free hw.self rfl]

theorem links_freeNode (h : sys.liveNode id = some n) :
    (sys.freeNode id head).links = update sys.links id none := by
  rw [links_eq, liveNode_freeNode h, comp_update]
  rfl

theorem freeLink_freeNode (h : sys.liveNode id = some n) :
    (sys.freeNode id head).freeLink = update sys.freeLink id.index (some head) := by
  have hw : Written sys id.index _ (sys.freeNode id head) :=
    written_setNode (liveNode_eq_some.mp h)
  rw [hw.freeLink, freeLink_eq_some.mpr ⟨_, hw.self⟩]

theorem childCount_freeNode (h : sys.liveNode id = some n) (head : Option UInt32) (p : NodeId) :
    (sys.freeNode id head).childCount p + (if n.parent = some p then 1 else 0)
      = sys.childCount p :=
  childCount_setNode (e := ⟨nextGeneration id.generation, .free head⟩)
    (liveNode_eq_some.mp h) rfl rfl p

theorem liveCount_freeNode (h : sys.liveNode id = some n) :
    (sys.freeNode id head).liveCount + 1 = sys.liveCount :=
  liveCount_setNode (e := ⟨nextGeneration id.generation, .free head⟩) (liveNode_eq_some.mp h)

@[simp] theorem length_freeNode : (sys.freeNode id head).nodes.length = sys.nodes.length :=
  List.length_set

@[simp] theorem capacity_freeNode : (sys.freeNode id head).capacity = sys.capacity := rfl

@[simp] theorem freeHead_freeNode : (sys.freeNode id head).freeHead = some id.index := rfl

end FreeNode

/-! ## Bringing an entry to life -/

/-- `sys'` is `sys` with one more live node, `n` under the identity `id`. -/
structure Spawned (sys : CapabilitySystem) (id : NodeId) (n : LiveNode) (sys' : CapabilitySystem) :
    Prop where
  fresh : sys.liveNode id = none
  liveNode : sys'.liveNode = update sys.liveNode id (some n)
  freeLink : sys'.freeLink = update sys.freeLink id.index none
  childCount : ∀ p, sys'.childCount p = sys.childCount p + if n.parent = some p then 1 else 0
  capacity : sys'.capacity = sys.capacity

theorem Written.spawned {sys' : CapabilitySystem}
    (h : Written sys id.index ⟨id.generation, .live n⟩ sys')
    (hnone : ∀ j : NodeId, j.index = id.index → sys.liveNode j = none)
    (hcount : ∀ p, sys'.childCount p = sys.childCount p + if n.parent = some p then 1 else 0)
    (hcapacity : sys'.capacity = sys.capacity) : Spawned sys id n sys' := by
  have hlive := liveNode_eq_some.mpr h.self
  refine ⟨hnone id rfl, ?_, ?_, hcount, hcapacity⟩
  · rw [← hlive]
    exact h.liveNode (fun j hj _ ↦ hnone j hj) fun _ ↦ liveNode_eq_none_of_ne hlive
  · rw [h.freeLink, freeLink_of_liveNode hlive]

/-- An entry of the free list comes to life under its own generation. -/
theorem spawned_setNode {i g : UInt32} (head : Option UInt32)
    (hb : sys.nodes[i.toNat]? = some ⟨g, .free next⟩) :
    Spawned sys ⟨i, g⟩ n ({ sys with freeHead := head }.setNode i ⟨g, .live n⟩) := by
  have hb' : ({ sys with freeHead := head } : CapabilitySystem).nodes[i.toNat]?
      = some ⟨g, .free next⟩ := hb
  refine Written.spawned (written_setNode hb') (fun j hj ↦ liveNode_of_free hb hj) (fun p ↦ ?_) rfl
  exact childCount_setNode (x := none) hb' rfl rfl p

theorem spawned_pushNode (hlen : sys.nodes.length < 2 ^ 32) :
    Spawned sys ⟨UInt32.ofNat sys.nodes.length, 1⟩ n (sys.pushNode ⟨1, .live n⟩) := by
  have hidx : (UInt32.ofNat sys.nodes.length).toNat = sys.nodes.length :=
    UInt32.toNat_ofNat_of_lt' hlen
  refine Written.spawned (fun k ↦ ?_) (fun j hj ↦ ?_) (fun p ↦ ?_) rfl
  · by_cases hk : k = UInt32.ofNat sys.nodes.length
    · rw [if_pos hk, hk, hidx, pushNode]
      simp
    · have hne : k.toNat ≠ sys.nodes.length := fun h ↦ hk (UInt32.toNat_inj.mp (h.trans hidx.symm))
      rw [if_neg hk, pushNode, List.getElem?_append]
      split
      · rfl
      · rw [List.getElem?_eq_none (by simp only [List.length_singleton]; omega),
          List.getElem?_eq_none (by omega)]
  · have hend : sys.nodes[j.index.toNat]? = none := by
      rw [hj, hidx]
      exact List.getElem?_eq_none (Nat.le_refl _)
    rw [CapabilitySystem.liveNode, node, hend]
  · rw [CapabilitySystem.childCount, pushNode, List.countP_append, List.countP_singleton,
      CapabilitySystem.childCount]
    congr 1
    by_cases hp : n.parent = some p
    · rw [if_pos hp]
      exact if_pos (decide_eq_true hp)
    · rw [if_neg hp]
      exact if_neg fun h ↦ hp (of_decide_eq_true h)

end CapabilitySystem

end Gaxera

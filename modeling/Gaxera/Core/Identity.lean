import Gaxera.Abi
import Mathlib.Logic.Function.Iterate

/-!
# Generational identities

Objects and capability nodes are named by an index into a table together with the generation the
entry had when the name was given out. Freeing an entry advances its generation, so a name dies
with the entry it named. The generation is a 32-bit word that skips zero, and so comes back to
where it was after `2 ^ 32 - 1` advances and not before.
-/

namespace Gaxera

/-- The identity of a kernel object. -/
@[ext]
structure ObjectId where
  index : UInt32
  generation : UInt32
deriving DecidableEq, Repr

def ObjectId.raw (id : ObjectId) : UInt64 :=
  (id.generation.toUInt64 <<< 32) ||| id.index.toUInt64

def ObjectId.fromRaw (raw : UInt64) : ObjectId := ⟨raw.toUInt32, (raw >>> 32).toUInt32⟩

theorem ObjectId.fromRaw_raw (id : ObjectId) : fromRaw id.raw = id := by
  obtain ⟨index, generation⟩ := id
  simp only [fromRaw, raw, ObjectId.mk.injEq]
  constructor
  · apply UInt32.toBitVec_inj.mp
    simp
  · apply UInt32.toBitVec_inj.mp
    ext k hk
    simp [show 32 + k < 64 by omega, show k < 64 by omega, BitVec.getLsbD_eq_getElem hk]

/-- The identity of a resource domain is the identity of its object. -/
structure ResourceDomainId where
  objectId : ObjectId
deriving DecidableEq, Repr

/-- The identity of a capability node. -/
@[ext]
structure CapabilityNodeId where
  index : UInt32
  generation : UInt32
deriving DecidableEq, Repr

abbrev NodeId := CapabilityNodeId

/-! ## Advancing a generation -/

def nextGeneration (generation : UInt32) : UInt32 :=
  let next := generation + 1
  if next = 0 then 1 else next

theorem nextGeneration_ne_zero (g : UInt32) : nextGeneration g ≠ 0 := by
  rw [nextGeneration]
  split
  · decide
  · assumption

theorem toNat_nextGeneration (g : UInt32) :
    (nextGeneration g).toNat = if g.toNat + 1 = 2 ^ 32 then 1 else g.toNat + 1 := by
  have hlt := g.toNat_lt
  have hadd : (g + 1).toNat = (g.toNat + 1) % 2 ^ 32 := UInt32.toNat_add g 1
  have hzero : g + 1 = 0 ↔ g.toNat + 1 = 2 ^ 32 := by
    rw [← UInt32.toNat_inj, hadd, UInt32.toNat_zero]
    omega
  simp only [nextGeneration, hzero]
  split
  · rfl
  · rw [hadd]
    omega

theorem toNat_iterate_nextGeneration {g : UInt32} (hg : g ≠ 0) (j : ℕ) :
    (nextGeneration^[j] g).toNat = (g.toNat - 1 + j) % (2 ^ 32 - 1) + 1 := by
  have hlt := g.toNat_lt
  have hpos : g.toNat ≠ 0 := fun h ↦ hg (UInt32.toNat_inj.mp h)
  induction j with
  | zero =>
    rw [Function.iterate_zero_apply, Nat.add_zero, Nat.mod_eq_of_lt (by omega)]
    omega
  | succ j ih =>
    rw [Function.iterate_succ_apply', toNat_nextGeneration, ih]
    split <;> omega

/-- **A generation does not come back early.** -/
theorem le_of_iterate_nextGeneration_eq {g : UInt32} (hg : g ≠ 0) {j : ℕ} (hj : 0 < j)
    (h : nextGeneration^[j] g = g) : 2 ^ 32 - 1 ≤ j := by
  have hiter := toNat_iterate_nextGeneration hg j
  have hlt := g.toNat_lt
  have hpos : g.toNat ≠ 0 := fun h ↦ hg (UInt32.toNat_inj.mp h)
  rw [h] at hiter
  by_contra hsmall
  rcases Nat.lt_or_ge (g.toNat - 1 + j) (2 ^ 32 - 1) with hlt' | hge
  · rw [Nat.mod_eq_of_lt hlt'] at hiter
    omega
  · rw [Nat.mod_eq_sub_mod hge, Nat.mod_eq_of_lt (by omega)] at hiter
    omega

end Gaxera

import Gaxera.Core.Resource
import Gaxera.Data.Decoder
import Mathlib.Data.Nat.ModEq
import Mathlib.Tactic.Ring
import Mathlib.Tactic.Linarith

/-!
# Poly1305

The authenticator of the crypto server. A number is kept in five limbs of 26 bits; each block of the
message is added and the sum multiplied by the clamped half of the key, modulo `2 ^ 130 - 5`.
Carries are only passed on as far as is needed for the next multiplication, and the number is
reduced completely once, at the end.

Every sum and product of the source that is not a wrapping one is checked here, in the width the
source computes it in, so that a result is also a proof that nothing overflowed. What the limbs
stand for is their `value`; each stage is read as a change of the value, with bounds on the limbs
for the next stage.
-/

namespace Gaxera

namespace Poly1305

open Decoder (wordOf word)

/-! ## The code -/

structure Limbs where
  l0 : ℕ
  l1 : ℕ
  l2 : ℕ
  l3 : ℕ
  l4 : ℕ
deriving DecidableEq, Repr

/-- The low 26 bits. -/
def low (n : ℕ) : ℕ := n &&& 0x3FFFFFF

/-- `from_le_bytes` of the bytes from `i` on, as many as there are of `n`. -/
def wordAt (bytes : List UInt8) (i n : ℕ) : ℕ := wordOf n (bytes.drop i)

def limbsOf (bytes : List UInt8) : Limbs where
  l0 := low (wordAt bytes 0 4)
  l1 := low (wordAt bytes 3 4 >>> 2)
  l2 := low (wordAt bytes 6 4 >>> 4)
  l3 := low (wordAt bytes 9 4 >>> 6)
  l4 := low (wordAt bytes 12 5 >>> 8)

/-- The bytes of `r` keep the bits that are set here. -/
def clampMask : List UInt8 :=
  [255, 255, 255, 15, 252, 255, 255, 15, 252, 255, 255, 15, 252, 255, 255, 15]

def clamp (bytes : List UInt8) : List UInt8 := List.zipWith (· &&& ·) bytes clampMask

/-- The limbs of `r`, and five times each but the first. -/
structure Multiplier where
  r : Limbs
  s1 : ℕ
  s2 : ℕ
  s3 : ℕ
  s4 : ℕ

def multiplier (r : Limbs) : Option Multiplier := do
  let s1 ← checkedMul 64 r.l1 5
  let s2 ← checkedMul 64 r.l2 5
  let s3 ← checkedMul 64 r.l3 5
  let s4 ← checkedMul 64 r.l4 5
  return ⟨r, s1, s2, s3, s4⟩

/-- A sum of products in 128 bits. -/
def dot (pairs : List (ℕ × ℕ)) : Option ℕ :=
  pairs.foldlM (fun sum pair ↦ (checkedMul 128 pair.1 pair.2).bind (checkedAdd 128 sum)) 0

def accumulate (h b : Limbs) : Option Limbs := do
  let h0 ← checkedAdd 64 h.l0 b.l0
  let h1 ← checkedAdd 64 h.l1 b.l1
  let h2 ← checkedAdd 64 h.l2 b.l2
  let h3 ← checkedAdd 64 h.l3 b.l3
  let h4 ← checkedAdd 64 h.l4 b.l4
  return ⟨h0, h1, h2, h3, h4⟩

def multiply (h : Limbs) (m : Multiplier) : Option Limbs := do
  let d0 ← dot [(h.l0, m.r.l0), (h.l1, m.s4), (h.l2, m.s3), (h.l3, m.s2), (h.l4, m.s1)]
  let d1 ← dot [(h.l0, m.r.l1), (h.l1, m.r.l0), (h.l2, m.s4), (h.l3, m.s3), (h.l4, m.s2)]
  let d2 ← dot [(h.l0, m.r.l2), (h.l1, m.r.l1), (h.l2, m.r.l0), (h.l3, m.s4), (h.l4, m.s3)]
  let d3 ← dot [(h.l0, m.r.l3), (h.l1, m.r.l2), (h.l2, m.r.l1), (h.l3, m.r.l0), (h.l4, m.s4)]
  let d4 ← dot [(h.l0, m.r.l4), (h.l1, m.r.l3), (h.l2, m.r.l2), (h.l3, m.r.l1), (h.l4, m.r.l0)]
  return ⟨d0, d1, d2, d3, d4⟩

/-- The carries after a multiplication; `as u64` keeps the low 64 bits. -/
def carry (d : Limbs) : Option Limbs := do
  let c0 := (d.l0 >>> 26) % 2 ^ 64
  let h0 := low d.l0 % 2 ^ 64
  let d1 ← checkedAdd 128 d.l1 c0
  let c1 := (d1 >>> 26) % 2 ^ 64
  let h1 := low d1 % 2 ^ 64
  let d2 ← checkedAdd 128 d.l2 c1
  let c2 := (d2 >>> 26) % 2 ^ 64
  let h2 := low d2 % 2 ^ 64
  let d3 ← checkedAdd 128 d.l3 c2
  let c3 := (d3 >>> 26) % 2 ^ 64
  let h3 := low d3 % 2 ^ 64
  let d4 ← checkedAdd 128 d.l4 c3
  let c4 := (d4 >>> 26) % 2 ^ 64
  let h4 := low d4 % 2 ^ 64
  let c ← checkedMul 64 c4 5
  let h0 ← checkedAdd 64 h0 c
  let h1 ← checkedAdd 64 h1 (h0 >>> 26)
  return ⟨low h0, h1, h2, h3, h4⟩

/-- One round of the loop: the bytes of a chunk, a one, and zeros up to seventeen bytes. -/
def absorb (m : Multiplier) (h : Limbs) (chunk : List UInt8) : Option Limbs := do
  let h ← accumulate h (limbsOf (chunk ++ 1 :: List.replicate (16 - chunk.length) 0))
  let d ← multiply h m
  carry d

/-- `chunks(16)`. -/
def chunks (bytes : List UInt8) : List (List UInt8) :=
  if bytes = [] then [] else bytes.take 16 :: chunks (bytes.drop 16)
termination_by bytes.length
decreasing_by
  rw [List.length_drop]
  have := List.length_pos_of_ne_nil ‹_›
  omega

/-- The carries after the last block, once around. -/
def normalize (h : Limbs) : Option Limbs := do
  let h1 ← checkedAdd 64 h.l1 (h.l0 >>> 26)
  let h0 := low h.l0
  let h2 ← checkedAdd 64 h.l2 (h1 >>> 26)
  let h1 := low h1
  let h3 ← checkedAdd 64 h.l3 (h2 >>> 26)
  let h2 := low h2
  let h4 ← checkedAdd 64 h.l4 (h3 >>> 26)
  let h3 := low h3
  let c ← checkedMul 64 (h4 >>> 26) 5
  let h4 := low h4
  let h0 ← checkedAdd 64 h0 c
  let h1 ← checkedAdd 64 h1 (h0 >>> 26)
  return ⟨low h0, h1, h2, h3, h4⟩

def wrappingAdd (a b : ℕ) : ℕ := (a + b) % 2 ^ 64

def wrappingSub (a b : ℕ) : ℕ := (a + 2 ^ 64 - b) % 2 ^ 64

/-- `(h & !mask) | (g & mask)`, and the low bits of it. -/
def choose (mask h g : ℕ) : ℕ := low ((h &&& (2 ^ 64 - 1 - mask)) ||| (g &&& mask))

/-- Five is added, and the sum taken instead if it reaches `2 ^ 130`. -/
def reduce (h : Limbs) : Limbs :=
  let g0 := wrappingAdd h.l0 5
  let g1 := wrappingAdd h.l1 (g0 >>> 26)
  let g2 := wrappingAdd h.l2 (g1 >>> 26)
  let g3 := wrappingAdd h.l3 (g2 >>> 26)
  let g4 := wrappingSub (wrappingAdd h.l4 (g3 >>> 26)) (2 ^ 26)
  let mask := wrappingSub (g4 >>> 63) 1
  { l0 := choose mask h.l0 (low g0)
    l1 := choose mask h.l1 (low g1)
    l2 := choose mask h.l2 (low g2)
    l3 := choose mask h.l3 (low g3)
    l4 := choose mask h.l4 (wrappingAdd g4 (2 ^ 26)) }

/-- `<<` on words of 64 bits, of which 32 are kept. -/
def half (low high shift : ℕ) : ℕ := (low ||| (high <<< shift) % 2 ^ 64) &&& 0xFFFFFFFF

/-- The limbs as two words, and the other half of the key added to them. -/
def finish (h : Limbs) (s0 s1 : ℕ) : List UInt8 :=
  let f0 := half h.l0 h.l1 26
  let f1 := half (h.l1 >>> 6) h.l2 20
  let f2 := half (h.l2 >>> 12) h.l3 14
  let f3 := half (h.l3 >>> 18) h.l4 8
  let hLow := f0 ||| (f1 <<< 32) % 2 ^ 64
  let hHigh := f2 ||| (f3 <<< 32) % 2 ^ 64
  let resLow := wrappingAdd hLow s0
  let resHigh := wrappingAdd (wrappingAdd hHigh s1) (if resLow < hLow then 1 else 0)
  word 8 resLow ++ word 8 resHigh

/-- `poly1305_mac_with_key`; nothing is returned if a sum or product overflows. -/
def macWithKey (message : List UInt8) (key : Vector UInt8 32) : Option (List UInt8) := do
  let m ← multiplier (limbsOf (clamp (key.toList.take 16)))
  let h ← (chunks message).foldlM (absorb m) ⟨0, 0, 0, 0, 0⟩
  let h ← normalize h
  return finish (reduce h) (wordAt key.toList 16 8) (wordAt key.toList 24 8)

/-! ## Values -/

/-- The modulus. -/
def prime : ℕ := 2 ^ 130 - 5

namespace Limbs

def value (h : Limbs) : ℕ :=
  h.l0 + 2 ^ 26 * h.l1 + 2 ^ 52 * h.l2 + 2 ^ 78 * h.l3 + 2 ^ 104 * h.l4

/-- All limbs have 26 bits, but for the second, to which a small carry may still be added. -/
structure Settled (h : Limbs) : Prop where
  l0 : h.l0 < 2 ^ 26
  l1 : h.l1 < 2 ^ 26 + 64
  l2 : h.l2 < 2 ^ 26
  l3 : h.l3 < 2 ^ 26
  l4 : h.l4 < 2 ^ 26

structure Tight (h : Limbs) : Prop where
  l0 : h.l0 < 2 ^ 26
  l1 : h.l1 < 2 ^ 26
  l2 : h.l2 < 2 ^ 26
  l3 : h.l3 < 2 ^ 26
  l4 : h.l4 < 2 ^ 26

end Limbs

/-- The number a byte string stands for, the lowest byte first. -/
def number (bytes : List UInt8) : ℕ := Nat.ofDigits 256 (bytes.map UInt8.toNat)

theorem low_eq (n : ℕ) : low n = n % 2 ^ 26 := Nat.and_two_pow_sub_one_eq_mod n 26

theorem checkedAdd_of_lt {w a b : ℕ} (h : a + b < 2 ^ w) : checkedAdd w a b = some (a + b) :=
  if_pos h

theorem checkedMul_of_lt {w a b : ℕ} (h : a * b < 2 ^ w) : checkedMul w a b = some (a * b) :=
  if_pos h

theorem digits_lt (bytes : List UInt8) : ∀ d ∈ bytes.map UInt8.toNat, d < 256 := by
  intro d hd
  obtain ⟨b, -, rfl⟩ := List.mem_map.mp hd
  exact b.toNat_lt

theorem number_lt (bytes : List UInt8) : number bytes < 256 ^ bytes.length := by
  have h := Nat.ofDigits_lt_base_pow_length (by decide : 1 < 256) (digits_lt bytes)
  rwa [List.length_map] at h

theorem number_append (bytes rest : List UInt8) :
    number (bytes ++ rest) = number bytes + 256 ^ bytes.length * number rest := by
  rw [number, List.map_append, Nat.ofDigits_append, List.length_map]
  rfl

theorem number_zeros (n : ℕ) : number (List.replicate n 0) = 0 := by
  induction n with
  | zero => rfl
  | succ n ih =>
    rw [number, List.replicate_succ, List.map_cons, Nat.ofDigits_cons, ← number, ih]
    rfl

theorem wordAt_eq (bytes : List UInt8) (i n : ℕ) :
    wordAt bytes i n = number bytes / 256 ^ i % 256 ^ n := by
  have hdrop : ∀ d ∈ (bytes.map UInt8.toNat).drop i, d < 256 :=
    fun d hd ↦ digits_lt bytes d (List.mem_of_mem_drop hd)
  rw [number, Nat.ofDigits_div_pow_eq_ofDigits_drop i (by decide) _ (digits_lt bytes),
    Nat.ofDigits_mod_pow_eq_ofDigits_take n (by decide) _ hdrop, wordAt, wordOf, List.map_take,
    List.map_drop]

theorem limbsOf_spec {bytes : List UInt8} (h : number bytes < 2 ^ 130) :
    (limbsOf bytes).value = number bytes ∧ (limbsOf bytes).Tight := by
  have hlow : ∀ n, low n < 2 ^ 26 := fun n ↦ low_eq n ▸ Nat.mod_lt _ (by decide)
  refine ⟨?_, hlow _, hlow _, hlow _, hlow _, hlow _⟩
  simp only [Limbs.value, limbsOf, low_eq, wordAt_eq, Nat.shiftRight_eq_div_pow]
  generalize number bytes = n at h
  omega

/-! ## One block -/

section Block

variable {h b r d : Limbs}

theorem multiplier_eq (hr : r.Tight) :
    multiplier r = some ⟨r, r.l1 * 5, r.l2 * 5, r.l3 * 5, r.l4 * 5⟩ := by
  obtain ⟨h0, h1, h2, h3, h4⟩ := hr
  rw [multiplier, checkedMul_of_lt (by omega), checkedMul_of_lt (by omega),
    checkedMul_of_lt (by omega), checkedMul_of_lt (by omega)]
  rfl

theorem dot_eq {pairs : List (ℕ × ℕ)} (h : (pairs.map fun p ↦ p.1 * p.2).sum < 2 ^ 128) :
    dot pairs = some (pairs.map fun p ↦ p.1 * p.2).sum := by
  have hsum : ∀ (pairs : List (ℕ × ℕ)) (sum : ℕ),
      sum + (pairs.map fun p ↦ p.1 * p.2).sum < 2 ^ 128 →
      pairs.foldlM (fun sum pair ↦ (checkedMul 128 pair.1 pair.2).bind (checkedAdd 128 sum)) sum
        = some (sum + (pairs.map fun p ↦ p.1 * p.2).sum) := by
    intro pairs
    induction pairs with
    | nil => simp
    | cons pair pairs ih =>
      intro sum hlt
      rw [List.map_cons, List.sum_cons, ← Nat.add_assoc] at hlt ⊢
      rw [List.foldlM_cons, checkedMul_of_lt (by omega), Option.bind_some,
        checkedAdd_of_lt (by omega)]
      exact ih _ hlt
  rw [dot, hsum pairs 0 (by rwa [Nat.zero_add]), Nat.zero_add]

theorem accumulate_spec (hh : h.Settled) (hb : b.Tight) :
    ∃ sum, accumulate h b = some sum ∧ sum.value = h.value + b.value
      ∧ sum.l0 < 2 ^ 27 + 64 ∧ sum.l1 < 2 ^ 27 + 64 ∧ sum.l2 < 2 ^ 27 + 64
      ∧ sum.l3 < 2 ^ 27 + 64 ∧ sum.l4 < 2 ^ 27 + 64 := by
  obtain ⟨h0, h1, h2, h3, h4⟩ := hh
  obtain ⟨b0, b1, b2, b3, b4⟩ := hb
  refine ⟨⟨h.l0 + b.l0, h.l1 + b.l1, h.l2 + b.l2, h.l3 + b.l3, h.l4 + b.l4⟩, ?_, ?_, ?_⟩
  · rw [accumulate, checkedAdd_of_lt (by omega), checkedAdd_of_lt (by omega),
      checkedAdd_of_lt (by omega), checkedAdd_of_lt (by omega), checkedAdd_of_lt (by omega)]
    rfl
  · simp only [Limbs.value]
    ring
  · dsimp only
    omega

/-- The sums of products in unbounded arithmetic. -/
def product (h r : Limbs) : Limbs where
  l0 := h.l0 * r.l0 + h.l1 * (r.l4 * 5) + h.l2 * (r.l3 * 5) + h.l3 * (r.l2 * 5) + h.l4 * (r.l1 * 5)
  l1 := h.l0 * r.l1 + h.l1 * r.l0 + h.l2 * (r.l4 * 5) + h.l3 * (r.l3 * 5) + h.l4 * (r.l2 * 5)
  l2 := h.l0 * r.l2 + h.l1 * r.l1 + h.l2 * r.l0 + h.l3 * (r.l4 * 5) + h.l4 * (r.l3 * 5)
  l3 := h.l0 * r.l3 + h.l1 * r.l2 + h.l2 * r.l1 + h.l3 * r.l0 + h.l4 * (r.l4 * 5)
  l4 := h.l0 * r.l4 + h.l1 * r.l3 + h.l2 * r.l2 + h.l3 * r.l1 + h.l4 * r.l0

/-- **The product modulo `2 ^ 130 - 5`.** The parts at and above `2 ^ 130` come in with a factor of
five further down; `q` is what they are multiples of. -/
theorem product_value (h r : Limbs) :
    ∃ q, h.value * r.value + 5 * q = (product h r).value + 2 ^ 130 * q := by
  refine ⟨h.l1 * r.l4 + h.l2 * r.l3 + h.l3 * r.l2 + h.l4 * r.l1
    + 2 ^ 26 * (h.l2 * r.l4 + h.l3 * r.l3 + h.l4 * r.l2)
    + 2 ^ 52 * (h.l3 * r.l4 + h.l4 * r.l3) + 2 ^ 78 * (h.l4 * r.l4), ?_⟩
  simp only [Limbs.value, product]
  ring

/-- How large a product of two limbs can be. -/
def productBound : ℕ := (2 ^ 27 + 64) * 2 ^ 26

structure Bounded (d : Limbs) : Prop where
  l0 : d.l0 ≤ 21 * productBound
  l1 : d.l1 ≤ 17 * productBound
  l2 : d.l2 ≤ 13 * productBound
  l3 : d.l3 ≤ 9 * productBound
  l4 : d.l4 ≤ 5 * productBound

theorem product_bounded (h0 : h.l0 < 2 ^ 27 + 64) (h1 : h.l1 < 2 ^ 27 + 64)
    (h2 : h.l2 < 2 ^ 27 + 64) (h3 : h.l3 < 2 ^ 27 + 64) (h4 : h.l4 < 2 ^ 27 + 64) (hr : r.Tight) :
    Bounded (product h r) := by
  have hone : ∀ {a c : ℕ}, a < 2 ^ 27 + 64 → c < 2 ^ 26 → a * c ≤ productBound :=
    fun ha hc ↦ Nat.mul_le_mul ha.le hc.le
  have hfive : ∀ {a c : ℕ}, a < 2 ^ 27 + 64 → c < 2 ^ 26 → a * (c * 5) ≤ 5 * productBound := by
    intro a c ha hc
    rw [← Nat.mul_assoc, Nat.mul_comm _ 5]
    exact Nat.mul_le_mul_left 5 (hone ha hc)
  obtain ⟨r0, r1, r2, r3, r4⟩ := hr
  constructor
  · have := hone h0 r0; have := hfive h1 r4; have := hfive h2 r3; have := hfive h3 r2
    have := hfive h4 r1
    simp only [product]
    omega
  · have := hone h0 r1; have := hone h1 r0; have := hfive h2 r4; have := hfive h3 r3
    have := hfive h4 r2
    simp only [product]
    omega
  · have := hone h0 r2; have := hone h1 r1; have := hone h2 r0; have := hfive h3 r4
    have := hfive h4 r3
    simp only [product]
    omega
  · have := hone h0 r3; have := hone h1 r2; have := hone h2 r1; have := hone h3 r0
    have := hfive h4 r4
    simp only [product]
    omega
  · have := hone h0 r4; have := hone h1 r3; have := hone h2 r2; have := hone h3 r1
    have := hone h4 r0
    simp only [product]
    omega

theorem multiply_eq (hbounded : Bounded (product h r)) :
    multiply h ⟨r, r.l1 * 5, r.l2 * 5, r.l3 * 5, r.l4 * 5⟩ = some (product h r) := by
  have hsmall : 21 * productBound < 2 ^ 128 := by decide
  have hdot : ∀ {a₀ a₁ a₂ a₃ a₄ c₀ c₁ c₂ c₃ c₄ : ℕ},
      a₀ * c₀ + a₁ * c₁ + a₂ * c₂ + a₃ * c₃ + a₄ * c₄ ≤ 21 * productBound →
      dot [(a₀, c₀), (a₁, c₁), (a₂, c₂), (a₃, c₃), (a₄, c₄)]
        = some (a₀ * c₀ + a₁ * c₁ + a₂ * c₂ + a₃ * c₃ + a₄ * c₄) := by
    intro a₀ a₁ a₂ a₃ a₄ c₀ c₁ c₂ c₃ c₄ hle
    have hsum : ([(a₀, c₀), (a₁, c₁), (a₂, c₂), (a₃, c₃), (a₄, c₄)].map fun p ↦ p.1 * p.2).sum
        = a₀ * c₀ + a₁ * c₁ + a₂ * c₂ + a₃ * c₃ + a₄ * c₄ := by
      simp only [List.map_cons, List.map_nil, List.sum_cons, List.sum_nil, Nat.add_zero,
        Nat.add_assoc]
    rw [dot_eq (by rw [hsum]; omega), hsum]
  obtain ⟨d0, d1, d2, d3, d4⟩ := hbounded
  rw [multiply, hdot d0, hdot (d1.trans (by omega)), hdot (d2.trans (by omega)),
    hdot (d3.trans (by omega)), hdot (d4.trans (by omega))]
  rfl

theorem split_word {n : ℕ} (h : n < 2 ^ 90) :
    ∃ c e, (n >>> 26) % 2 ^ 64 = c ∧ low n % 2 ^ 64 = e ∧ n = 2 ^ 26 * c + e ∧ e < 2 ^ 26 := by
  refine ⟨_, _, rfl, rfl, ?_, ?_⟩
  · rw [low_eq, Nat.shiftRight_eq_div_pow]
    omega
  · rw [low_eq]
    omega

/-- **The carries** take off multiples of `2 ^ 130` and put them back five times at the low end. -/
theorem carry_spec (hd : Bounded d) :
    ∃ h c, carry d = some h ∧ h.Settled ∧ h.value + prime * c = d.value := by
  obtain ⟨d0, d1, d2, d3, d4⟩ := hd
  simp only [productBound] at d0 d1 d2 d3 d4
  rw [carry]
  obtain ⟨c0, e0, hc0, he0, heq0, hlt0⟩ := split_word (n := d.l0) (by omega)
  rw [hc0, he0, checkedAdd_of_lt (by omega)]
  obtain ⟨c1, e1, hc1, he1, heq1, hlt1⟩ := split_word (n := d.l1 + c0) (by omega)
  simp only [Option.bind_eq_bind, Option.bind_some, hc1, he1]
  rw [checkedAdd_of_lt (by omega)]
  obtain ⟨c2, e2, hc2, he2, heq2, hlt2⟩ := split_word (n := d.l2 + c1) (by omega)
  simp only [Option.bind_some, hc2, he2]
  rw [checkedAdd_of_lt (by omega)]
  obtain ⟨c3, e3, hc3, he3, heq3, hlt3⟩ := split_word (n := d.l3 + c2) (by omega)
  simp only [Option.bind_some, hc3, he3]
  rw [checkedAdd_of_lt (by omega)]
  obtain ⟨c4, e4, hc4, he4, heq4, hlt4⟩ := split_word (n := d.l4 + c3) (by omega)
  simp only [Option.bind_some, hc4, he4]
  -- what is carried around is less than fifty-two times `2 ^ 26`
  rw [checkedMul_of_lt (by omega), Option.bind_some, checkedAdd_of_lt (by omega), Option.bind_some,
    Nat.shiftRight_eq_div_pow, low_eq, checkedAdd_of_lt (by omega), Option.bind_some]
  refine ⟨_, c4, rfl, ⟨?_, ?_, hlt2, hlt3, hlt4⟩, ?_⟩
  · exact Nat.mod_lt _ (by decide)
  · dsimp only
    omega
  · simp only [Limbs.value, prime]
    omega

/-- **One block** is added, and the sum multiplied by `r`. -/
theorem absorb_spec (hr : r.Tight) (hh : h.Settled) {chunk : List UInt8}
    (hchunk : chunk.length ≤ 16) :
    ∃ h', absorb ⟨r, r.l1 * 5, r.l2 * 5, r.l3 * 5, r.l4 * 5⟩ h chunk = some h' ∧ h'.Settled
      ∧ h'.value ≡ (h.value + (number chunk + 256 ^ chunk.length)) * r.value [MOD prime] := by
  have hblock : number (chunk ++ 1 :: List.replicate (16 - chunk.length) 0)
      = number chunk + 256 ^ chunk.length := by
    have hone : number (1 :: List.replicate (16 - chunk.length) 0) = 1 := by
      rw [number, List.map_cons, Nat.ofDigits_cons, ← number, number_zeros]
      rfl
    rw [number_append, hone, Nat.mul_one]
  have hsmall : number chunk + 256 ^ chunk.length < 2 ^ 130 := by
    have hlt := number_lt chunk
    have hpow : 256 ^ chunk.length ≤ 256 ^ 16 := Nat.pow_le_pow_right (by decide) hchunk
    omega
  obtain ⟨hvalue, htight⟩ := limbsOf_spec (hblock ▸ hsmall)
  obtain ⟨sum, hsum, hsumValue, h0, h1, h2, h3, h4⟩ := accumulate_spec hh htight
  have hbounded := product_bounded h0 h1 h2 h3 h4 hr
  obtain ⟨h', c, hcarry, hsettled, hcarried⟩ := carry_spec hbounded
  obtain ⟨q, hq⟩ := product_value sum r
  refine ⟨h', ?_, hsettled, ?_⟩
  · rw [absorb, hsum]
    simp only [Option.bind_eq_bind, Option.bind_some, multiply_eq hbounded, hcarry]
  · rw [← hblock, ← hvalue, ← hsumValue]
    have htotal : sum.value * r.value = h'.value + prime * (c + q) := by
      rw [Nat.mul_add, ← Nat.add_assoc, hcarried, prime]
      omega
    rw [htotal]
    exact (Nat.add_mul_mod_self_left ..).symm

end Block

/-! ## The whole message -/

/-- The sum of the blocks, each times a power of `r`: the last one is multiplied once. -/
def polynomial (r : ℕ) : List ℕ → ℕ
  | [] => 0
  | block :: blocks => block * r ^ (blocks.length + 1) + polynomial r blocks

/-- The blocks of a message with the one behind each. -/
def blocks (message : List UInt8) : List ℕ :=
  (chunks message).map fun chunk ↦ number chunk + 256 ^ chunk.length

theorem length_le_of_mem_chunks {message chunk : List UInt8} (h : chunk ∈ chunks message) :
    chunk.length ≤ 16 := by
  fun_induction chunks message with
  | case1 => simp at h
  | case2 message hne ih =>
    rcases List.mem_cons.mp h with rfl | h
    · exact List.length_take_le ..
    · exact ih h

theorem foldlM_absorb {r h : Limbs} (hr : r.Tight) (hh : h.Settled) {rest : List (List UInt8)}
    (hrest : ∀ chunk ∈ rest, chunk.length ≤ 16) :
    ∃ h', rest.foldlM (absorb ⟨r, r.l1 * 5, r.l2 * 5, r.l3 * 5, r.l4 * 5⟩) h = some h'
      ∧ h'.Settled ∧ h'.value ≡ h.value * r.value ^ rest.length
        + polynomial r.value (rest.map fun chunk ↦ number chunk + 256 ^ chunk.length)
          [MOD prime] := by
  induction rest generalizing h with
  | nil => exact ⟨h, rfl, hh, by simp [polynomial, Nat.ModEq]⟩
  | cons chunk rest ih =>
    obtain ⟨hchunk, hrest⟩ := List.forall_mem_cons.mp hrest
    obtain ⟨h₁, habsorb, hsettled, hvalue⟩ := absorb_spec hr hh hchunk
    obtain ⟨h₂, hrun, hsettled₂, hvalue₂⟩ := ih hsettled hrest
    refine ⟨h₂, ?_, hsettled₂, hvalue₂.trans ?_⟩
    · rw [List.foldlM_cons, habsorb]
      exact hrun
    · refine ((hvalue.mul_right _).add_right _).trans ?_
      rw [List.map_cons, polynomial, List.length_map, List.length_cons]
      exact congrArg (· % prime) (by ring)

/-! ## The reduction at the end -/

theorem split_low (n : ℕ) :
    ∃ c e, n >>> 26 = c ∧ low n = e ∧ n = 2 ^ 26 * c + e ∧ e < 2 ^ 26 := by
  refine ⟨_, _, rfl, rfl, ?_, ?_⟩
  · rw [low_eq, Nat.shiftRight_eq_div_pow, Nat.div_add_mod]
  · rw [low_eq]
    exact Nat.mod_lt _ (by decide)

/-- **After the last carries all limbs have 26 bits.** A carry out of the last limb means that every
limb but the first was full and the second had overrun; what is left of that one has room. -/
theorem normalize_spec {h : Limbs} (hh : h.Settled) :
    ∃ h', normalize h = some h' ∧ h'.Tight ∧ h'.value ≡ h.value [MOD prime] := by
  obtain ⟨h0, h1, h2, h3, h4⟩ := hh
  rw [normalize]
  obtain ⟨c0, e0, hc0, he0, heq0, hlt0⟩ := split_low h.l0
  rw [hc0, he0, checkedAdd_of_lt (by omega)]
  obtain ⟨c1, e1, hc1, he1, heq1, hlt1⟩ := split_low (h.l1 + c0)
  simp only [Option.bind_eq_bind, Option.bind_some, hc1, he1]
  rw [checkedAdd_of_lt (by omega)]
  obtain ⟨c2, e2, hc2, he2, heq2, hlt2⟩ := split_low (h.l2 + c1)
  simp only [Option.bind_some, hc2, he2]
  rw [checkedAdd_of_lt (by omega)]
  obtain ⟨c3, e3, hc3, he3, heq3, hlt3⟩ := split_low (h.l3 + c2)
  simp only [Option.bind_some, hc3, he3]
  rw [checkedAdd_of_lt (by omega)]
  obtain ⟨c4, e4, hc4, he4, heq4, hlt4⟩ := split_low (h.l4 + c3)
  simp only [Option.bind_some, hc4, he4]
  rw [checkedMul_of_lt (by omega), Option.bind_some, checkedAdd_of_lt (by omega)]
  obtain ⟨c5, e5, hc5, he5, heq5, hlt5⟩ := split_low (e0 + c4 * 5)
  simp only [Option.bind_some, hc5, he5]
  rw [checkedAdd_of_lt (by omega), Option.bind_some]
  refine ⟨_, rfl, ⟨hlt5, ?_, hlt2, hlt3, hlt4⟩, ?_⟩
  · dsimp only
    omega
  · have hvalue : h.value = Limbs.value ⟨e5, e1 + c5, e2, e3, e4⟩ + prime * c4 := by
      simp only [Limbs.value, prime]
      omega
    rw [hvalue]
    exact (Nat.add_mul_mod_self_left ..).symm

theorem choose_zero {h g : ℕ} (hh : h < 2 ^ 26) : choose 0 h g = h := by
  rw [choose, Nat.and_zero, Nat.or_zero, Nat.sub_zero, Nat.and_two_pow_sub_one_eq_mod, low_eq]
  omega

theorem choose_full (h g : ℕ) : choose (2 ^ 64 - 1) h g = g % 2 ^ 26 := by
  rw [choose, Nat.sub_self, Nat.and_zero, Nat.zero_or, Nat.and_two_pow_sub_one_eq_mod, low_eq]
  omega

/-- **The subtraction of the modulus**, if there is something to subtract it from. -/
theorem reduce_spec {h : Limbs} (hh : h.Tight) :
    (reduce h).Tight ∧ (reduce h).value = h.value % prime := by
  obtain ⟨h0, h1, h2, h3, h4⟩ := hh
  obtain ⟨c0, e0, hc0, he0, heq0, hlt0⟩ := split_low (wrappingAdd h.l0 5)
  obtain ⟨c1, e1, hc1, he1, heq1, hlt1⟩ := split_low (wrappingAdd h.l1 c0)
  obtain ⟨c2, e2, hc2, he2, heq2, hlt2⟩ := split_low (wrappingAdd h.l2 c1)
  obtain ⟨c3, e3, hc3, he3, heq3, hlt3⟩ := split_low (wrappingAdd h.l3 c2)
  simp only [reduce, hc0, he0, hc1, he1, hc2, he2, hc3, he3]
  simp only [wrappingAdd] at heq0 heq1 heq2 heq3
  rw [Nat.mod_eq_of_lt (by omega)] at heq0
  rw [Nat.mod_eq_of_lt (by omega)] at heq1
  rw [Nat.mod_eq_of_lt (by omega)] at heq2
  rw [Nat.mod_eq_of_lt (by omega)] at heq3
  have hlast : wrappingAdd h.l4 c3 = h.l4 + c3 := Nat.mod_eq_of_lt (by omega)
  rw [hlast]
  by_cases hover : h.l4 + c3 = 2 ^ 26
  · -- the sum with five has reached `2 ^ 130`
    have hg : wrappingSub (h.l4 + c3) (2 ^ 26) = 0 := by rw [hover]; decide
    have hmask : wrappingSub (0 >>> 63) 1 = 2 ^ 64 - 1 := by decide
    have hzero : wrappingAdd 0 (2 ^ 26) % 2 ^ 26 = 0 := by decide
    rw [hg, hmask, choose_full, choose_full, choose_full, choose_full, choose_full, hzero,
      Nat.mod_eq_of_lt hlt0, Nat.mod_eq_of_lt hlt1, Nat.mod_eq_of_lt hlt2, Nat.mod_eq_of_lt hlt3]
    refine ⟨⟨hlt0, hlt1, hlt2, hlt3, Nat.two_pow_pos 26⟩, ?_⟩
    have hvalue : h.value = prime + Limbs.value ⟨e0, e1, e2, e3, 0⟩ := by
      simp only [Limbs.value, prime]
      omega
    have hsmall : Limbs.value ⟨e0, e1, e2, e3, 0⟩ < prime := by
      simp only [Limbs.value, prime]
      omega
    rw [hvalue, Nat.add_mod_left, Nat.mod_eq_of_lt hsmall]
  · have hg : (wrappingSub (h.l4 + c3) (2 ^ 26)) >>> 63 = 1 := by
      rw [wrappingSub, Nat.shiftRight_eq_div_pow]
      omega
    have hmask : wrappingSub 1 1 = 0 := by decide
    rw [hg, hmask, choose_zero h0, choose_zero h1, choose_zero h2, choose_zero h3, choose_zero h4]
    refine ⟨⟨h0, h1, h2, h3, h4⟩, (Nat.mod_eq_of_lt ?_).symm⟩
    simp only [Limbs.value, prime]
    omega

/-! ## The tag -/

theorem half_eq {low high shift : ℕ} (hlow : low < 2 ^ shift) (hhigh : high < 2 ^ 26)
    (hshift : shift ≤ 26) : half low high shift = (low + 2 ^ shift * high) % 2 ^ 32 := by
  have hfits : high <<< shift < 2 ^ 64 := by
    rw [Nat.shiftLeft_eq]
    calc high * 2 ^ shift < 2 ^ 26 * 2 ^ 26 :=
          Nat.mul_lt_mul_of_lt_of_le hhigh (Nat.pow_le_pow_right (by decide) hshift) (by decide)
      _ < 2 ^ 64 := by decide
  rw [half, Nat.mod_eq_of_lt hfits, Nat.or_comm, ← Nat.shiftLeft_add_eq_or_of_lt hlow,
    Nat.shiftLeft_eq, Nat.add_comm, Nat.mul_comm]
  exact Nat.and_two_pow_sub_one_eq_mod _ 32

theorem word_of_halves {low high : ℕ} (hlow : low < 2 ^ 32) (hhigh : high < 2 ^ 32) :
    low ||| (high <<< 32) % 2 ^ 64 = low + 2 ^ 32 * high := by
  have hfits : high <<< 32 < 2 ^ 64 := by
    rw [Nat.shiftLeft_eq]
    omega
  rw [Nat.mod_eq_of_lt hfits, Nat.or_comm, ← Nat.shiftLeft_add_eq_or_of_lt hlow, Nat.shiftLeft_eq,
    Nat.add_comm, Nat.mul_comm]

theorem word_add (n m k : ℕ) : word (n + m) k = word n k ++ word m (k / 256 ^ n) := by
  induction n generalizing k with
  | zero => simp [word]
  | succ n ih =>
    rw [Nat.add_right_comm, word, ih, word, Nat.pow_succ', Nat.div_div_eq_div_mul,
      List.cons_append]

theorem word_mod (n k : ℕ) : word n (k % 256 ^ n) = word n k := by
  induction n generalizing k with
  | zero => rfl
  | succ n ih =>
    rw [word, word, Nat.pow_succ', Nat.mod_mul_right_div_self, ih]
    congr 1
    rw [← UInt8.toNat_inj, UInt8.toNat_ofNat', UInt8.toNat_ofNat', Nat.mod_mul_right_mod]

/-- **The tag** is the low 128 bits of the sum with `s`. -/
theorem finish_eq {h : Limbs} (hh : h.Tight) {s0 s1 : ℕ} (hs0 : s0 < 2 ^ 64) :
    finish h s0 s1 = word 16 ((h.value + (s0 + 2 ^ 64 * s1)) % 2 ^ 128) := by
  obtain ⟨h0, h1, h2, h3, h4⟩ := hh
  have hf1 : h.l1 >>> 6 < 2 ^ 20 := by rw [Nat.shiftRight_eq_div_pow]; omega
  have hf2 : h.l2 >>> 12 < 2 ^ 14 := by rw [Nat.shiftRight_eq_div_pow]; omega
  have hf3 : h.l3 >>> 18 < 2 ^ 8 := by rw [Nat.shiftRight_eq_div_pow]; omega
  have hmod : ∀ n : ℕ, n % 2 ^ 32 < 2 ^ 32 := fun n ↦ Nat.mod_lt n (by decide)
  simp only [finish]
  rw [half_eq h0 h1 (by decide), half_eq hf1 h2 (by decide), half_eq hf2 h3 (by decide),
    half_eq hf3 h4 (by decide), word_of_halves (hmod _) (hmod _), word_of_halves (hmod _) (hmod _)]
  obtain ⟨low, hlow⟩ : ∃ low, (h.l0 + 2 ^ 26 * h.l1) % 2 ^ 32
      + 2 ^ 32 * ((h.l1 >>> 6 + 2 ^ 20 * h.l2) % 2 ^ 32) = low := ⟨_, rfl⟩
  obtain ⟨high, hhigh⟩ : ∃ high, (h.l2 >>> 12 + 2 ^ 14 * h.l3) % 2 ^ 32
      + 2 ^ 32 * ((h.l3 >>> 18 + 2 ^ 8 * h.l4) % 2 ^ 32) = high := ⟨_, rfl⟩
  have hlowValue : low = h.value % 2 ^ 64 := by
    rw [← hlow, Nat.shiftRight_eq_div_pow, Limbs.value]
    omega
  have hhighValue : high = h.value / 2 ^ 64 % 2 ^ 64 := by
    rw [← hhigh, Nat.shiftRight_eq_div_pow, Nat.shiftRight_eq_div_pow, Limbs.value]
    omega
  rw [hlow, hhigh]
  generalize h.value = value at hlowValue hhighValue ⊢
  have hfirst : wrappingAdd low s0 = (value + (s0 + 2 ^ 64 * s1)) % 256 ^ 8 := by
    rw [wrappingAdd, hlowValue]
    omega
  have hsecond : wrappingAdd (wrappingAdd high s1) (if wrappingAdd low s0 < low then 1 else 0)
      = (value + (s0 + 2 ^ 64 * s1)) / 256 ^ 8 % 256 ^ 8 := by
    simp only [wrappingAdd, hlowValue, hhighValue]
    split <;> omega
  rw [hsecond, hfirst, word_mod, word_mod, ← word_add]
  exact (word_mod 16 _).symm

/-! ## The key -/

/-- The first half of the key as the number that blocks are multiplied by: twenty-two of its bits
are cleared. -/
def clampedR (key : Vector UInt8 32) : ℕ :=
  number (key.toList.take 16) &&& 0x0ffffffc0ffffffc0ffffffc0fffffff

/-- The second half, which is added at the end. -/
def secretS (key : Vector UInt8 32) : ℕ := number (key.toList.drop 16)

theorem and_add_mul {x y : ℕ} (hx : x < 2 ^ 8) (hy : y < 2 ^ 8) (a b : ℕ) :
    (2 ^ 8 * a + x) &&& (2 ^ 8 * b + y) = 2 ^ 8 * (a &&& b) + (x &&& y) := by
  have hxy : x &&& y < 2 ^ 8 := Nat.and_lt_two_pow x hy
  refine Nat.eq_of_testBit_eq fun j ↦ ?_
  rw [Nat.testBit_and, Nat.testBit_two_pow_mul_add a hx, Nat.testBit_two_pow_mul_add b hy,
    Nat.testBit_two_pow_mul_add _ hxy]
  split <;> rw [Nat.testBit_and]

theorem number_zipWith_and {bytes mask : List UInt8} (h : bytes.length = mask.length) :
    number (List.zipWith (· &&& ·) bytes mask) = number bytes &&& number mask := by
  induction bytes generalizing mask with
  | nil =>
    obtain rfl := List.length_eq_zero_iff.mp h.symm
    rfl
  | cons b bytes ih =>
    obtain ⟨m, mask, rfl⟩ := List.exists_cons_of_length_eq_add_one h.symm
    have hcons : ∀ (x : UInt8) (rest : List UInt8),
        number (x :: rest) = 2 ^ 8 * number rest + x.toNat := by
      intro x rest
      rw [number, List.map_cons, Nat.ofDigits_cons, Nat.add_comm]
      rfl
    rw [List.zipWith_cons_cons, hcons, hcons, hcons, ih (Nat.succ.inj h),
      and_add_mul b.toNat_lt m.toNat_lt, UInt8.toNat_and]

theorem number_clamp (key : Vector UInt8 32) :
    number (clamp (key.toList.take 16)) = clampedR key := by
  have hlength : (key.toList.take 16).length = clampMask.length := by simp [clampMask]
  have hmask : number clampMask = 0x0ffffffc0ffffffc0ffffffc0fffffff := by decide +kernel
  rw [clamp, number_zipWith_and hlength, hmask, clampedR]

/-- Nothing overflows, and what is added at the end is completely reduced. -/
theorem macWithKey_spec (message : List UInt8) (key : Vector UInt8 32) :
    ∃ h : Limbs, h.Tight ∧ h.value = polynomial (clampedR key) (blocks message) % prime
      ∧ macWithKey message key
        = some (finish h (wordAt key.toList 16 8) (wordAt key.toList 24 8)) := by
  have hsmall : number (clamp (key.toList.take 16)) < 2 ^ 130 := by
    rw [number_clamp]
    exact Nat.lt_of_le_of_lt Nat.and_le_right (by decide)
  obtain ⟨hvalue, hr⟩ := limbsOf_spec hsmall
  rw [number_clamp] at hvalue
  have hzero : Limbs.Settled ⟨0, 0, 0, 0, 0⟩ := by constructor <;> decide
  have hchunks : ∀ chunk ∈ chunks message, chunk.length ≤ 16 :=
    fun chunk hchunk ↦ length_le_of_mem_chunks hchunk
  obtain ⟨h₁, hrun, hsettled, hvalue₁⟩ := foldlM_absorb hr hzero hchunks
  obtain ⟨h₂, hnormal, htight, hvalue₂⟩ := normalize_spec hsettled
  obtain ⟨htight₃, hvalue₃⟩ := reduce_spec htight
  refine ⟨reduce h₂, htight₃, ?_, ?_⟩
  · rw [hvalue₃, ← hvalue]
    have hstart : Limbs.value ⟨0, 0, 0, 0, 0⟩ = 0 := rfl
    rw [hstart, Nat.zero_mul, Nat.zero_add] at hvalue₁
    exact hvalue₂.trans hvalue₁
  · rw [macWithKey, multiplier_eq hr]
    simp only [Option.bind_eq_bind, Option.bind_some, hrun, hnormal]
    rfl

/-- The tag of the standard. -/
def tag (message : List UInt8) (key : Vector UInt8 32) : List UInt8 :=
  word 16 ((polynomial (clampedR key) (blocks message) % prime + secretS key) % 2 ^ 128)

theorem macWithKey_eq (message : List UInt8) (key : Vector UInt8 32) :
    macWithKey message key = some (tag message key) := by
  obtain ⟨h, htight, hvalue, hmac⟩ := macWithKey_spec message key
  have hlow : wordAt key.toList 16 8 < 2 ^ 64 := by
    rw [wordAt_eq]
    exact Nat.mod_lt _ (by decide)
  have hsecret : wordAt key.toList 16 8 + 2 ^ 64 * wordAt key.toList 24 8 = secretS key := by
    have hlt := number_lt key.toList
    rw [Vector.length_toList] at hlt
    have hdrop : secretS key = number key.toList / 256 ^ 16 := by
      rw [number, Nat.ofDigits_div_pow_eq_ofDigits_drop 16 (by decide) _ (digits_lt _), secretS,
        number, List.map_drop]
    rw [hdrop, wordAt_eq, wordAt_eq]
    omega
  rw [hmac, finish_eq htight hlow, hvalue, hsecret]
  rfl

/-- **Poly1305 is computed correctly**: for every message and key there is a tag, and it is the sum
of the blocks times the powers of `r`, modulo `2 ^ 130 - 5`, plus `s`, in 128 bits. -/
theorem macWithKey_correct (message : List UInt8) (key : Vector UInt8 32) :
    macWithKey message key = some (word 16
      ((polynomial (clampedR key) (blocks message) % (2 ^ 130 - 5) + secretS key) % 2 ^ 128)) :=
  macWithKey_eq message key

end Poly1305

end Gaxera

import Mathlib.Data.Nat.ModEq
import Mathlib.Tactic.Ring

/-!
# Sums with end-around carry

A sum is written in base `m + 1`, and what stands above the lowest digit is added to it, until only
one digit is left. Each round keeps the residue modulo `m`. The digit that is left is therefore
known from the residue, with one exception: zero has the two spellings `0` and `m`, and a round
never turns a positive sum into zero. So a sum ends as `0` only if it was zero from the start.

`endAround` is that last digit. Complementing it against `m` gives what has to be added to the sum
so that it ends as `m`.
-/

namespace Gaxera

/-- The digit a sum ends as. -/
def endAround (m n : ℕ) : ℕ := if n = 0 then 0 else (n - 1) % m + 1

variable {m n a b : ℕ}

theorem endAround_of_pos (hn : 0 < n) : endAround m n = (n - 1) % m + 1 :=
  if_neg (Nat.pos_iff_ne_zero.mp hn)

theorem endAround_eq_zero_iff : endAround m n = 0 ↔ n = 0 := by
  rw [endAround]
  split_ifs with hn
  · simp [hn]
  · simp [hn]

theorem endAround_le (hm : 0 < m) (n : ℕ) : endAround m n ≤ m := by
  rw [endAround]
  split_ifs
  · exact Nat.zero_le m
  · exact Nat.mod_lt _ hm

theorem endAround_modEq (m n : ℕ) : endAround m n ≡ n [MOD m] := by
  rcases Nat.eq_zero_or_pos n with rfl | hn
  · rfl
  rw [endAround_of_pos hn]
  calc (n - 1) % m + 1 ≡ n - 1 + 1 [MOD m] := (Nat.mod_modEq _ _).add_right 1
    _ = n := Nat.sub_add_cancel hn

theorem endAround_of_le (h : n ≤ m) : endAround m n = n := by
  rcases Nat.eq_zero_or_pos n with rfl | hn
  · rfl
  rw [endAround_of_pos hn, Nat.mod_eq_of_lt (by omega), Nat.sub_add_cancel hn]

/-- **Two sums end alike** if they have the same residue and neither or both of them are zero. -/
theorem endAround_eq_iff (m a b : ℕ) :
    endAround m a = endAround m b ↔ (a = 0 ↔ b = 0) ∧ a ≡ b [MOD m] := by
  constructor
  · intro h
    refine ⟨by rw [← endAround_eq_zero_iff (m := m), h, endAround_eq_zero_iff], ?_⟩
    exact (endAround_modEq m a).symm.trans (h ▸ endAround_modEq m b)
  · rintro ⟨hzero, hmod⟩
    rcases Nat.eq_zero_or_pos a with rfl | ha
    · rw [hzero.mp rfl]
    have hb : 0 < b := Nat.pos_iff_ne_zero.mpr fun hb ↦ (Nat.pos_iff_ne_zero.mp ha) (hzero.mpr hb)
    rw [endAround_of_pos ha, endAround_of_pos hb]
    congr 1
    apply Nat.ModEq.add_right_cancel' 1
    rwa [Nat.sub_add_cancel ha, Nat.sub_add_cancel hb]

/-- **One round**: what stands above the lowest digit is added to it. -/
theorem endAround_carry (m n : ℕ) :
    endAround m (n % (m + 1) + n / (m + 1)) = endAround m n := by
  have hsplit := Nat.div_add_mod n (m + 1)
  rw [endAround_eq_iff]
  constructor
  · constructor
    · intro h
      obtain ⟨hlow, hhigh⟩ := Nat.add_eq_zero_iff.mp h
      rw [← hsplit, hlow, hhigh, Nat.mul_zero]
    · rintro rfl
      simp
  · -- the base is one more than the modulus
    have hbase : (m + 1) * (n / (m + 1)) ≡ n / (m + 1) [MOD m] := by
      rw [Nat.add_mul, Nat.one_mul]
      exact Nat.ModEq.symm (by simp [Nat.ModEq])
    calc n % (m + 1) + n / (m + 1) ≡ n % (m + 1) + (m + 1) * (n / (m + 1)) [MOD m] :=
          hbase.symm.add_left _
      _ = n := by rw [Nat.add_comm, hsplit]

theorem endAround_eq_self_iff (hm : 0 < m) : endAround m n = m ↔ n ≠ 0 ∧ m ∣ n := by
  have hself : endAround m m = m := endAround_of_le (Nat.le_refl m)
  have hzero : (n = 0 ↔ m = 0) ↔ n ≠ 0 := by
    rw [iff_false_right (Nat.pos_iff_ne_zero.mp hm)]
  have hdvd : n ≡ m [MOD m] ↔ m ∣ n := by
    rw [Nat.ModEq, Nat.mod_self, Nat.dvd_iff_mod_eq_zero]
  calc endAround m n = m ↔ endAround m n = endAround m m := by rw [hself]
    _ ↔ n ≠ 0 ∧ m ∣ n := by rw [endAround_eq_iff, hzero, hdvd]

/-- **The complement** of what a sum ends as completes it to a multiple of `m`. -/
theorem endAround_add_complement (hm : 0 < m) (n : ℕ) :
    endAround m (n + (m - endAround m n)) = m := by
  have hle := endAround_le hm n
  rw [endAround_eq_self_iff hm]
  constructor
  · intro h
    obtain ⟨rfl, hcomplement⟩ := Nat.add_eq_zero_iff.mp h
    rw [endAround_eq_zero_iff.mpr rfl] at hcomplement
    omega
  · apply (Nat.modEq_zero_iff_dvd).mp
    calc n + (m - endAround m n) ≡ endAround m n + (m - endAround m n) [MOD m] :=
          (endAround_modEq m n).symm.add_right _
      _ = m := Nat.add_sub_cancel' hle
      _ ≡ 0 [MOD m] := by simp [Nat.ModEq]

end Gaxera

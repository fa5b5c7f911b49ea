import Gaxera.Storage.Header

/-!
# What the checksum detects

The checksum has 32 lanes of one byte. Byte number `i` is added to lane `i`, together with a
constant, and its rotation is mixed by exclusive or into the lane seven further on. So a lane is
only touched by the bytes 32 apart that are added to it and, 25 behind each of them, those that are
mixed into it.

Every touch is a bijection of the lane. If two strings first differ at `i` and agree again from
`i + 25` on, lane `i` is the same up to there, then different, and then touched by bytes that agree.
-/

namespace Gaxera

/-- What a byte does to one lane. -/
def mixLane (lane : ℕ) (value : UInt8) (entry : UInt8 × ℕ) : UInt8 :=
  if lane = entry.2 % 32 then value + entry.1 + UInt8.ofNat entry.2 * 31
  else if lane = (entry.2 % 32 + 7) % 32 then value ^^^ rotateLeft entry.1 (entry.2 % 7)
  else value

variable {lane : ℕ}

theorem getElem_mixByte (hash : Checksum) (entry : UInt8 × ℕ) (hlane : lane < 32) :
    (mixByte hash entry)[lane] = mixLane lane hash[lane] entry := by
  rw [mixByte, mixLane, Vector.getElem_set]
  by_cases hmixed : (entry.2 % 32 + 7) % 32 = lane
  · have hother : entry.2 % 32 ≠ lane := by omega
    subst hmixed
    rw [if_pos rfl, if_neg (Ne.symm hother), if_pos rfl, Vector.getElem_set, if_neg hother]
  · rw [if_neg hmixed, Vector.getElem_set]
    by_cases hadded : entry.2 % 32 = lane
    · subst hadded
      rw [if_pos rfl, if_pos rfl]
    · rw [if_neg hadded, if_neg (Ne.symm hadded), if_neg (Ne.symm hmixed)]

theorem getElem_foldl_mixByte (entries : List (UInt8 × ℕ)) (hash : Checksum) (hlane : lane < 32) :
    (entries.foldl mixByte hash)[lane] = entries.foldl (mixLane lane) hash[lane] := by
  induction entries generalizing hash with
  | nil => rfl
  | cons entry entries ih => rw [List.foldl_cons, ih, getElem_mixByte, List.foldl_cons]

theorem mixLane_inj {entry : UInt8 × ℕ} {x y : UInt8}
    (h : mixLane lane x entry = mixLane lane y entry) : x = y := by
  rw [mixLane, mixLane] at h
  split_ifs at h
  · exact (UInt8.add_left_inj _).mp ((UInt8.add_left_inj _).mp h)
  · exact (UInt8.xor_left_inj _).mp h
  · exact h

theorem mixLane_of_untouched {i : ℕ} (hadded : lane ≠ i % 32) (hmixed : lane ≠ (i % 32 + 7) % 32)
    (value byte : UInt8) : mixLane lane value (byte, i) = value := by
  rw [mixLane, if_neg hadded, if_neg hmixed]

/-- **A difference in a lane stays**, if the bytes behind it differ only where they do not touch
the lane. -/
theorem foldl_mixLane_ne {s t : List UInt8} {n : ℕ} (hlength : s.length = t.length)
    (huntouched : ∀ j, s[j]? ≠ t[j]? → lane ≠ (n + j) % 32 ∧ lane ≠ ((n + j) % 32 + 7) % 32)
    {x y : UInt8} (hne : x ≠ y) :
    (s.zipIdx n).foldl (mixLane lane) x ≠ (t.zipIdx n).foldl (mixLane lane) y := by
  induction s generalizing t n x y with
  | nil =>
    rw [List.length_nil, eq_comm, List.length_eq_zero_iff] at hlength
    subst hlength
    exact hne
  | cons c s ih =>
    obtain ⟨d, t, rfl⟩ := List.exists_cons_of_length_pos
      (hlength.symm.trans_gt (Nat.succ_pos s.length))
    rw [List.zipIdx_cons, List.zipIdx_cons, List.foldl_cons, List.foldl_cons]
    refine ih (Nat.succ.inj hlength) (fun j hj ↦ ?_) fun heq ↦ hne ?_
    · have hbehind := huntouched (j + 1) (by rwa [List.getElem?_cons_succ, List.getElem?_cons_succ])
      rwa [← Nat.add_assoc, Nat.add_right_comm] at hbehind
    · by_cases hcd : c = d
      · subst hcd
        exact mixLane_inj heq
      · obtain ⟨hadded, hmixed⟩ := huntouched 0 (by simpa using hcd)
        rw [Nat.add_zero] at hadded hmixed
        rwa [mixLane_of_untouched hadded hmixed, mixLane_of_untouched hadded hmixed] at heq

variable {a b : List UInt8}

theorem exists_first_difference (hlength : a.length = b.length) (hne : a ≠ b) :
    ∃ front x y s t, a = front ++ x :: s ∧ b = front ++ y :: t ∧ x ≠ y ∧
      s.length = t.length := by
  induction a generalizing b with
  | nil => exact absurd (List.length_eq_zero_iff.mp hlength.symm).symm hne
  | cons x s ih =>
    obtain ⟨y, t, rfl⟩ := List.exists_cons_of_length_pos (by rw [← hlength]; simp)
    by_cases hxy : x = y
    · subst hxy
      have hst : s ≠ t := fun h ↦ hne (h ▸ rfl)
      obtain ⟨front, x', y', s', t', rfl, rfl, hne', hlength'⟩ := ih (Nat.succ.inj hlength) hst
      exact ⟨x :: front, x', y', s', t', rfl, rfl, hne', hlength'⟩
    · exact ⟨[], x, y, s, t, rfl, rfl, hxy, Nat.succ.inj hlength⟩

/-- The strings differ only at positions in a window of the given width. -/
def DifferWithin (a b : List UInt8) (start width : ℕ) : Prop :=
  ∀ i, a[i]? ≠ b[i]? → start ≤ i ∧ i < start + width

theorem computeChecksum_ne (hlength : a.length = b.length) (hne : a ≠ b) {start : ℕ}
    (hwindow : DifferWithin a b start 25) : computeChecksum a ≠ computeChecksum b := by
  obtain ⟨front, x, y, s, t, rfl, rfl, hxy, hst⟩ := exists_first_difference hlength hne
  obtain ⟨hstart, -⟩ := hwindow front.length (by simpa using hxy)
  have hlane : front.length % 32 < 32 := Nat.mod_lt _ (by decide)
  intro heq
  -- Everything in front of the difference leaves one value in the lane.
  have hlanes := congrArg (fun hash : Checksum ↦ hash[front.length % 32]) heq
  simp only [computeChecksum, getElem_foldl_mixByte _ _ hlane, List.zipIdx_append, List.zipIdx_cons,
    List.foldl_append, List.foldl_cons, Nat.zero_add] at hlanes
  refine foldl_mixLane_ne hst (fun j hj ↦ ?_) ?_ hlanes
  · have hbehind : (front ++ x :: s)[front.length + (j + 1)]? ≠
        (front ++ y :: t)[front.length + (j + 1)]? := by
      rwa [List.getElem?_append_right (by omega), List.getElem?_append_right (by omega),
        Nat.add_sub_cancel_left, List.getElem?_cons_succ, List.getElem?_cons_succ]
    have hafter := (hwindow _ hbehind).2
    -- The next byte mixed into the lane is 25 behind the one added to it.
    constructor <;> omega
  · rw [getElem_mixByte _ _ hlane, getElem_mixByte _ _ hlane]
    simp only [mixLane, if_pos]
    exact fun h ↦ hxy ((UInt8.add_right_inj _).mp ((UInt8.add_left_inj _).mp h))

/-- **Every short burst is detected**: two strings of one length that differ, and only inside some
25 consecutive positions, have different checksums, and neither passes under the other's. -/
theorem burst_detected (a b : List UInt8) (start : ℕ) (hlength : a.length = b.length) (hne : a ≠ b)
    (hwindow : DifferWithin a b start 25) :
    computeChecksum a ≠ computeChecksum b ∧ verifyChecksum b (computeChecksum a) = false ∧
      verifyChecksum a (computeChecksum b) = false := by
  have hdiffer := computeChecksum_ne hlength hne hwindow
  refine ⟨hdiffer, ?_, ?_⟩
  · rw [verifyChecksum, beq_eq_false_iff_ne]
    exact hdiffer.symm
  · rw [verifyChecksum, beq_eq_false_iff_ne]
    exact hdiffer

/-- A byte changed in one of thirty. -/
theorem burst_detected_byte :
    computeChecksum (List.replicate 30 7) ≠ computeChecksum ((List.replicate 30 7).set 3 8) ∧
      verifyChecksum ((List.replicate 30 7).set 3 8) (computeChecksum (List.replicate 30 7)) =
        false ∧
      verifyChecksum (List.replicate 30 7) (computeChecksum ((List.replicate 30 7).set 3 8)) =
        false := by
  refine burst_detected _ _ 3 (by decide) (by decide) fun i hi ↦ ?_
  by_cases hthree : i = 3
  · omega
  · rw [List.getElem?_set_ne (Ne.symm hthree)] at hi
    exact absurd rfl hi

end Gaxera

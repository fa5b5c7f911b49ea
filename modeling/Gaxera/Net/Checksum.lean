import Gaxera.Data.BigEndian
import Gaxera.Data.EndAround
import Mathlib.Algebra.Order.BigOperators.Group.List

/-!
# The Internet checksum

A packet is read as 16-bit words, a last byte alone being the upper half of one. The words are added
up in a 32-bit accumulator, the carries are folded back into the lower half until there are none,
and the complement of what is left is the checksum.

Below 131072 bytes there are at most 65536 words, and their sum stays below `2 ^ 32`: the
accumulator has the plain sum, and the folds bring it to what `endAround` says for the modulus
65535. Everything else is arithmetic of residues. A word that is set to the checksum completes the
sum to a multiple of 65535, and of two sums that end alike the words can differ only by such a
multiple.
-/

namespace Gaxera

/-! ## The code -/

/-- `chunks(2)`, as words. -/
def chunkWords : List UInt8 → List UInt32
  | a :: b :: bytes => (fromBeBytes16 a b).toUInt32 :: chunkWords bytes
  | [a] => [a.toUInt32 <<< 8]
  | [] => []

/-- The accumulator after some words; `+` wraps, as `wrapping_add` does. -/
def accumulate (words : List UInt32) : UInt32 := words.foldl (· + ·) 0

/-- The body of the loop that folds the carries. -/
def carryRound (sum : UInt32) : UInt32 := (sum &&& (0xFFFF : UInt32)) + (sum >>> 16)

theorem toNat_low (sum : UInt32) : (sum &&& 0xFFFF).toNat = sum.toNat % 65536 := by
  rw [UInt32.toNat_and]
  exact Nat.and_two_pow_sub_one_eq_mod sum.toNat 16

theorem toNat_high (sum : UInt32) : (sum >>> 16).toNat = sum.toNat / 65536 := by
  rw [UInt32.toNat_shiftRight]
  exact Nat.shiftRight_eq_div_pow sum.toNat 16

theorem carryRound_no_wrap (sum : UInt32) :
    (sum &&& 0xFFFF).toNat + (sum >>> 16).toNat < 2 ^ 32 := by
  have hsum := sum.toNat_lt
  rw [toNat_low, toNat_high]
  omega

theorem toNat_carryRound (sum : UInt32) :
    (carryRound sum).toNat = sum.toNat % 65536 + sum.toNat / 65536 := by
  rw [carryRound, UInt32.toNat_add, Nat.mod_eq_of_lt (carryRound_no_wrap sum), toNat_low,
    toNat_high]

theorem high_ne_zero_iff (sum : UInt32) : sum >>> 16 ≠ 0 ↔ 65536 ≤ sum.toNat := by
  rw [ne_eq, ← UInt32.toNat_inj, toNat_high, UInt32.toNat_zero]
  omega

/-- The loop. A round with a carry makes the sum smaller. -/
def foldCarries (sum : UInt32) : UInt32 :=
  if sum >>> 16 ≠ 0 then foldCarries (carryRound sum) else sum
termination_by sum.toNat
decreasing_by
  rename_i hcarry
  rw [high_ne_zero_iff] at hcarry
  rw [toNat_carryRound]
  omega

def computeInternetChecksum (bytes : List UInt8) : UInt16 :=
  ~~~(foldCarries (accumulate (chunkWords bytes))).toUInt16

/-- `copy_from_slice` of a word in network order. -/
def storeWord (bytes : List UInt8) (offset : ℕ) (w : UInt16) : List UInt8 :=
  (bytes.set offset (w >>> 8).toUInt8).set (offset + 1) w.toUInt8

/-! ## Folding -/

theorem foldCarries_of_lt {sum : UInt32} (h : sum.toNat < 65536) : foldCarries sum = sum := by
  rw [foldCarries, if_neg]
  rw [high_ne_zero_iff]
  omega

theorem foldCarries_carryRound (sum : UInt32) :
    foldCarries (carryRound sum) = foldCarries sum := by
  by_cases hcarry : sum >>> 16 ≠ 0
  · rw [foldCarries.eq_1 sum, if_pos hcarry]
  · -- without a carry the round changes nothing
    rw [high_ne_zero_iff, Nat.not_le] at hcarry
    congr 1
    apply UInt32.toNat_inj.mp
    rw [toNat_carryRound]
    omega

/-- **Two rounds are enough.** -/
theorem carryRound_carryRound_lt (sum : UInt32) : (carryRound (carryRound sum)).toNat < 65536 := by
  have hsum := sum.toNat_lt
  rw [toNat_carryRound, toNat_carryRound]
  omega

theorem toNat_foldCarries (sum : UInt32) : (foldCarries sum).toNat = endAround 65535 sum.toNat := by
  have hlt := carryRound_carryRound_lt sum
  rw [← foldCarries_carryRound, ← foldCarries_carryRound, foldCarries_of_lt hlt,
    ← endAround_of_le (Nat.le_of_lt_succ hlt), toNat_carryRound, toNat_carryRound]
  exact (endAround_carry 65535 _).trans (endAround_carry 65535 _)

/-! ## Accumulating -/

/-- The sum of the words of some bytes. -/
def wordSum (words : List UInt32) : ℕ := (words.map UInt32.toNat).sum

@[simp] theorem wordSum_cons (w : UInt32) (words : List UInt32) :
    wordSum (w :: words) = w.toNat + wordSum words := rfl

@[simp] theorem wordSum_append (words words' : List UInt32) :
    wordSum (words ++ words') = wordSum words + wordSum words' := by
  simp [wordSum]

theorem toNat_accumulate (words : List UInt32) :
    (accumulate words).toNat = wordSum words % 2 ^ 32 := by
  suffices h : ∀ sum : UInt32,
      (words.foldl (· + ·) sum).toNat = (sum.toNat + wordSum words) % 2 ^ 32 by
    rw [accumulate, h 0, UInt32.toNat_zero, Nat.zero_add]
  intro sum
  induction words generalizing sum with
  | nil => exact (Nat.mod_eq_of_lt sum.toNat_lt).symm
  | cons w words ih =>
    rw [List.foldl_cons, ih, UInt32.toNat_add, wordSum_cons]
    omega

theorem toNat_toUInt32_fromBeBytes16 (a b : UInt8) :
    (fromBeBytes16 a b).toUInt32.toNat = a.toNat * 256 + b.toNat := by
  rw [UInt16.toNat_toUInt32, toNat_fromBeBytes16]

theorem toNat_lastWord (a : UInt8) : (a.toUInt32 <<< 8).toNat = a.toNat * 256 := by
  have ha := a.toNat_lt
  rw [UInt32.toNat_shiftLeft, UInt8.toNat_toUInt32]
  change a.toNat <<< 8 % 2 ^ 32 = a.toNat * 256
  rw [Nat.shiftLeft_eq, Nat.mod_eq_of_lt (by omega)]

theorem length_chunkWords (bytes : List UInt8) :
    (chunkWords bytes).length = (bytes.length + 1) / 2 := by
  fun_induction chunkWords bytes with
  | case1 a b bytes ih =>
    simp only [List.length_cons, ih]
    omega
  | case2 | case3 => simp

variable {bytes : List UInt8} {w : UInt32}

theorem le_of_mem_chunkWords (h : w ∈ chunkWords bytes) : w.toNat ≤ 65535 := by
  fun_induction chunkWords bytes with
  | case1 a b bytes ih =>
    rcases List.mem_cons.mp h with rfl | h
    · have ha := a.toNat_lt
      have hb := b.toNat_lt
      rw [toNat_toUInt32_fromBeBytes16]
      omega
    · exact ih h
  | case2 a =>
    obtain rfl := List.mem_singleton.mp h
    have ha := a.toNat_lt
    rw [toNat_lastWord]
    omega
  | case3 => exact absurd h List.not_mem_nil

variable {words : List UInt32}

/-- **No wrap**: up to 65536 words fit. -/
theorem wordSum_lt (h : ∀ w ∈ words, w.toNat ≤ 65535) (hlength : words.length ≤ 65536) :
    wordSum words < 2 ^ 32 := by
  have hle : wordSum words ≤ (words.map UInt32.toNat).length * 65535 :=
    List.sum_le_card_nsmul _ _ (by simpa using h)
  rw [List.length_map] at hle
  omega

theorem toNat_complement (h : wordSum words < 2 ^ 32) :
    (~~~(foldCarries (accumulate words)).toUInt16).toNat
      = 65535 - endAround 65535 (wordSum words) := by
  have hle := endAround_le (m := 65535) (by decide) (wordSum words)
  rw [UInt16.toNat_not, UInt32.toNat_toUInt16, toNat_foldCarries, toNat_accumulate,
    Nat.mod_eq_of_lt h, Nat.mod_eq_of_lt (by omega)]
  rfl

theorem toNat_computeInternetChecksum (h : bytes.length < 131072) :
    (computeInternetChecksum bytes).toNat
      = 65535 - endAround 65535 (wordSum (chunkWords bytes)) := by
  apply toNat_complement
  apply wordSum_lt fun w hw ↦ le_of_mem_chunkWords hw
  rw [length_chunkWords]
  omega

/-- The sum over all the words, that of the checksum included, ends as all ones. -/
def ChecksumCorrect (bytes : List UInt8) : Prop :=
  endAround 65535 (wordSum (chunkWords bytes)) = 65535

instance (bytes : List UInt8) : Decidable (ChecksumCorrect bytes) :=
  inferInstanceAs (Decidable (_ = _))

theorem checksumCorrect_iff (bytes : List UInt8) : ChecksumCorrect bytes
    ↔ wordSum (chunkWords bytes) ≠ 0 ∧ 65535 ∣ wordSum (chunkWords bytes) :=
  endAround_eq_self_iff (by decide)

theorem computeInternetChecksum_eq_zero_iff (h : bytes.length < 131072) :
    computeInternetChecksum bytes = 0 ↔ ChecksumCorrect bytes := by
  have hle := endAround_le (m := 65535) (by decide) (wordSum (chunkWords bytes))
  rw [← UInt16.toNat_inj, toNat_computeInternetChecksum h, UInt16.toNat_zero, ChecksumCorrect]
  omega

/-! ## Storing a word -/

theorem wordSum_set {i : ℕ} (h : words[i]? = some w) (w' : UInt32) :
    wordSum (words.set i w') + w.toNat = wordSum words + w'.toNat := by
  induction words generalizing i with
  | nil => simp at h
  | cons v words ih =>
    rcases i with - | i
    · obtain rfl : v = w := by simpa using h
      simp only [List.set_cons_zero, wordSum_cons]
      omega
    · have hrest := ih (i := i) (by simpa using h)
      simp only [List.set_cons_succ, wordSum_cons]
      omega

theorem length_storeWord (bytes : List UInt8) (offset : ℕ) (w : UInt16) :
    (storeWord bytes offset w).length = bytes.length := by
  simp [storeWord]

theorem chunkWords_storeWord {i : ℕ} (h : 2 * i + 1 < bytes.length) (w : UInt16) :
    chunkWords (storeWord bytes (2 * i) w) = (chunkWords bytes).set i w.toUInt32 := by
  induction i generalizing bytes with
  | zero =>
    match bytes, h with
    | a :: b :: bytes, _ =>
      simp [storeWord, chunkWords]
  | succ i ih =>
    match bytes, h with
    | a :: b :: bytes, h =>
      have hrest := @ih bytes (by simp only [List.length_cons] at h; omega)
      have hstore : storeWord (a :: b :: bytes) (2 * (i + 1)) w
          = a :: b :: storeWord bytes (2 * i) w := by
        simp [storeWord, Nat.mul_succ]
      rw [hstore, chunkWords, hrest, chunkWords, List.set_cons_succ]

theorem getElem?_chunkWords {i : ℕ} {a b : UInt8} (ha : bytes[2 * i]? = some a)
    (hb : bytes[2 * i + 1]? = some b) :
    (chunkWords bytes)[i]? = some (fromBeBytes16 a b).toUInt32 := by
  induction i generalizing bytes with
  | zero =>
    match bytes, ha, hb with
    | a' :: b' :: bytes, ha, hb =>
      obtain rfl : a' = a := by simpa using ha
      obtain rfl : b' = b := by simpa using hb
      rfl
  | succ i ih =>
    match bytes, ha, hb with
    | a' :: b' :: bytes, ha, hb =>
      rw [chunkWords, List.getElem?_cons_succ]
      exact ih (by simpa [Nat.mul_succ] using ha) (by simpa [Nat.mul_succ] using hb)

/-- **A checksum that is stored verifies.** -/
theorem computeInternetChecksum_storeWord {offset : ℕ} (hlength : bytes.length < 131072)
    (heven : offset % 2 = 0) (hhigh : bytes[offset]? = some 0)
    (hlow : bytes[offset + 1]? = some 0) :
    computeInternetChecksum (storeWord bytes offset (computeInternetChecksum bytes)) = 0 := by
  obtain ⟨i, rfl⟩ : ∃ i, offset = 2 * i := ⟨offset / 2, by omega⟩
  have hinside := (List.getElem?_eq_some_iff.mp hlow).1
  have hword := getElem?_chunkWords hhigh hlow
  have hsum : wordSum ((chunkWords bytes).set i (computeInternetChecksum bytes).toUInt32)
      = wordSum (chunkWords bytes) + (65535 - endAround 65535 (wordSum (chunkWords bytes))) := by
    rw [← toNat_computeInternetChecksum hlength, ← UInt16.toNat_toUInt32]
    exact wordSum_set hword _
  rw [computeInternetChecksum_eq_zero_iff (by rwa [length_storeWord]), ChecksumCorrect,
    chunkWords_storeWord hinside, hsum]
  exact endAround_add_complement (by decide) _

/-! ## Order and changes -/

/-- **The order of the words does not matter**, whether the accumulator wraps or not. -/
theorem accumulate_perm {words' : List UInt32} (h : words.Perm words') :
    accumulate words = accumulate words' := by
  apply UInt32.toNat_inj.mp
  rw [toNat_accumulate, toNat_accumulate, wordSum, wordSum, (h.map UInt32.toNat).sum_eq]

/-- **A changed word** that leaves the checksum as it is differs by the modulus. -/
theorem exchanged_of_checksum_eq {i : ℕ} {w' : UInt32} (hsum : wordSum words < 2 ^ 32)
    (hsum' : wordSum (words.set i w') < 2 ^ 32) (hw : w.toNat ≤ 65535) (hw' : w'.toNat ≤ 65535)
    (hget : words[i]? = some w) (hne : w ≠ w')
    (h : ~~~(foldCarries (accumulate (words.set i w'))).toUInt16
      = ~~~(foldCarries (accumulate words)).toUInt16) :
    w = 0 ∧ w' = 0xFFFF ∨ w = 0xFFFF ∧ w' = 0 := by
  have hset := wordSum_set hget w'
  have hne' : w.toNat ≠ w'.toNat := fun heq ↦ hne (UInt32.toNat_inj.mp heq)
  -- the two sums end alike, so the two words have the same residue
  have hend : endAround 65535 (wordSum (words.set i w')) = endAround 65535 (wordSum words) := by
    have hle := endAround_le (m := 65535) (by decide) (wordSum words)
    have hle' := endAround_le (m := 65535) (by decide) (wordSum (words.set i w'))
    have hcheck := congrArg UInt16.toNat h
    rw [toNat_complement hsum, toNat_complement hsum'] at hcheck
    omega
  have hmod := ((endAround_eq_iff _ _ _).mp hend).2
  have hword : w.toNat % 65535 = w'.toNat % 65535 := by
    rw [Nat.ModEq] at hmod
    omega
  have hcases : w.toNat = 0 ∧ w'.toNat = 65535 ∨ w.toNat = 65535 ∧ w'.toNat = 0 := by omega
  rcases hcases with ⟨h0, h1⟩ | ⟨h0, h1⟩
  · exact .inl ⟨UInt32.toNat_inj.mp h0, UInt32.toNat_inj.mp h1⟩
  · exact .inr ⟨UInt32.toNat_inj.mp h0, UInt32.toNat_inj.mp h1⟩

/-- **The checksum verifies and ignores order.** For a string below 131072 bytes: stored in the
place of a zero word, its checksum makes the checksum of the whole zero; strings of even length
that have the same words in another order have the same checksum; a string that differs in exactly
one word has the same checksum only if `0x0000` and `0xFFFF` were exchanged; the accumulator never
wraps; and the loop over the carries never wraps and ends after two rounds. -/
theorem internet_checksum_verifies (bytes : List UInt8) (hlength : bytes.length < 131072) :
    (∀ offset, offset % 2 = 0 → bytes[offset]? = some 0 → bytes[offset + 1]? = some 0 →
      computeInternetChecksum (storeWord bytes offset (computeInternetChecksum bytes)) = 0)
    ∧ (∀ even other : List UInt8, even.length % 2 = 0 → other.length % 2 = 0 →
      (chunkWords other).Perm (chunkWords even) →
      computeInternetChecksum other = computeInternetChecksum even)
    ∧ (∀ (other : List UInt8) (i : ℕ) (w w' : UInt32), (chunkWords bytes)[i]? = some w →
      chunkWords other = (chunkWords bytes).set i w' → w ≠ w' →
      computeInternetChecksum other = computeInternetChecksum bytes →
      w = 0 ∧ w' = 0xFFFF ∨ w = 0xFFFF ∧ w' = 0)
    ∧ (∀ words w rest, chunkWords bytes = words ++ w :: rest →
      (accumulate words).toNat + w.toNat < 2 ^ 32)
    ∧ ∀ sum : UInt32, (sum &&& 0xFFFF).toNat + (sum >>> 16).toNat < 2 ^ 32
      ∧ carryRound (carryRound sum) >>> 16 = 0
      ∧ foldCarries sum = foldCarries (carryRound (carryRound sum)) := by
  have hwords : (chunkWords bytes).length ≤ 65536 := by
    rw [length_chunkWords]
    omega
  have hsum := wordSum_lt (fun w hw ↦ le_of_mem_chunkWords hw) hwords
  refine ⟨fun offset heven hhigh hlow ↦ computeInternetChecksum_storeWord hlength heven hhigh hlow,
    fun even other _ _ hperm ↦ ?_, fun other i w w' hget hother hne heq ↦ ?_,
    fun words w rest hsplit ↦ ?_, fun sum ↦ ⟨carryRound_no_wrap sum, ?_, ?_⟩⟩
  · rw [computeInternetChecksum, computeInternetChecksum, accumulate_perm hperm]
  · have hsum' : wordSum (chunkWords other) < 2 ^ 32 := by
      apply wordSum_lt fun w hw ↦ le_of_mem_chunkWords hw
      rwa [hother, List.length_set]
    have hi := (List.getElem?_eq_some_iff.mp hget).1
    have hmem' : w' ∈ chunkWords other := hother ▸ List.mem_set hi w'
    rw [computeInternetChecksum, computeInternetChecksum, hother] at heq
    exact exchanged_of_checksum_eq hsum (hother ▸ hsum')
      (le_of_mem_chunkWords (List.mem_of_getElem? hget)) (le_of_mem_chunkWords hmem') hget hne heq
  · rw [hsplit, wordSum_append, wordSum_cons] at hsum
    rw [toNat_accumulate, Nat.mod_eq_of_lt (by omega)]
    omega
  · have hlt := carryRound_carryRound_lt sum
    apply of_not_not
    intro hcarry
    have hge := (high_ne_zero_iff _).mp hcarry
    omega
  · rw [foldCarries_carryRound, foldCarries_carryRound]

/-- A header of 20 bytes with its checksum. -/
theorem internet_checksum_verifies_header :
    let header : List UInt8 :=
      [0x45, 0, 0, 40, 0x12, 0x34, 0x40, 0, 64, 6, 0, 0, 10, 0, 2, 15, 10, 0, 2, 2]
    computeInternetChecksum header = 0x108C
      ∧ computeInternetChecksum (storeWord header 10 (computeInternetChecksum header)) = 0 := by
  intro header
  refine ⟨?_, (internet_checksum_verifies header (by decide)).1 10 rfl rfl rfl⟩
  apply UInt16.toNat_inj.mp
  rw [toNat_computeInternetChecksum (by decide)]
  decide

end Gaxera

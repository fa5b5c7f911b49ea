import Mathlib.Data.List.Basic

/-!
# Bits kept in words

A row of bits, packed into machine words of `w` bits with the lowest bit first. A bit is tested, set
and cleared through its word and a mask of one bit; the first clear bit is found by skipping the
words that are full and counting the trailing zeros of the complement of the first one that is not.

`bits` lays the words end to end. Each operation on the words is the obvious operation on that list,
whatever the index, so a client can forget the words.
-/

namespace Gaxera.WordBitmap

variable {w : ℕ} {word : BitVec w} {words : List (BitVec w)} {i b : ℕ}

/-- The bits of one word, the lowest first. -/
def wordBits (word : BitVec w) : List Bool := (List.range w).map word.getLsbD

/-- The bits of all words, end to end. -/
def bits (words : List (BitVec w)) : List Bool := words.flatMap wordBits

/-- Whether a bit is set. Past the last word every bit counts as set. -/
def test (words : List (BitVec w)) (i : ℕ) : Bool :=
  decide (words.getD (i / w) (BitVec.allOnes w) &&& 1#w <<< (i % w) ≠ 0)

def set (words : List (BitVec w)) (i : ℕ) : List (BitVec w) :=
  words.modify (i / w) fun word ↦ word ||| 1#w <<< (i % w)

def clear (words : List (BitVec w)) (i : ℕ) : List (BitVec w) :=
  words.modify (i / w) fun word ↦ word &&& ~~~(1#w <<< (i % w))

/-- The place of the lowest bit that is set, and `w` for the word zero. -/
def trailingZeros (word : BitVec w) : ℕ := (wordBits word).findIdx id

/-- The first clear bit, where `index` words have been passed. -/
def firstClearFrom (index : ℕ) : List (BitVec w) → Option ℕ
  | [] => none
  | word :: words =>
    if ~~~word = 0 then firstClearFrom (index + 1) words
    else some (index * w + trailingZeros (~~~word))

/-! ## One word -/

@[simp] theorem length_wordBits (word : BitVec w) : (wordBits word).length = w := by
  rw [wordBits, List.length_map, List.length_range]

theorem getElem?_wordBits (hb : b < w) : (wordBits word)[b]? = some (word.getLsbD b) := by
  rw [wordBits, List.getElem?_map, List.getElem?_range hb, Option.map_some]

private theorem getLsbD_bit (hb : b < w) (j : ℕ) : (1#w <<< b).getLsbD j = decide (b = j) := by
  have htwo : (BitVec.twoPow w b).getLsbD j = (decide (b < w) && decide (b = j)) :=
    BitVec.getLsbD_twoPow b j
  rw [decide_eq_true hb, Bool.true_and] at htwo
  exact htwo

theorem wordBits_or_bit (hb : b < w) :
    wordBits (word ||| 1#w <<< b) = (wordBits word).set b true := by
  refine List.ext_getElem? fun j ↦ ?_
  rw [List.getElem?_set]
  by_cases hj : j < w
  · rw [getElem?_wordBits hj, getElem?_wordBits hj, BitVec.getLsbD_or, getLsbD_bit hb]
    by_cases heq : b = j
    · simp [heq, hj]
    · simp [heq]
  · rw [if_neg (by omega), List.getElem?_eq_none, List.getElem?_eq_none] <;>
      exact Nat.le_trans (Nat.le_of_eq (length_wordBits _)) (Nat.le_of_not_lt hj)

theorem wordBits_and_not_bit (hb : b < w) :
    wordBits (word &&& ~~~(1#w <<< b)) = (wordBits word).set b false := by
  refine List.ext_getElem? fun j ↦ ?_
  rw [List.getElem?_set]
  by_cases hj : j < w
  · rw [getElem?_wordBits hj, getElem?_wordBits hj, BitVec.getLsbD_and, BitVec.getLsbD_not,
      getLsbD_bit hb]
    by_cases heq : b = j
    · simp [heq, hj]
    · simp [heq, hj]
  · rw [if_neg (by omega), List.getElem?_eq_none, List.getElem?_eq_none] <;>
      exact Nat.le_trans (Nat.le_of_eq (length_wordBits _)) (Nat.le_of_not_lt hj)

theorem and_bit_ne_zero_iff (hb : b < w) :
    word &&& 1#w <<< b ≠ 0 ↔ word.getLsbD b = true := by
  constructor
  · intro hne
    by_contra hclear
    apply hne
    refine BitVec.eq_of_getLsbD_eq fun j _ ↦ ?_
    rw [BitVec.getLsbD_and, getLsbD_bit hb]
    by_cases heq : b = j
    · simpa [← heq] using hclear
    · simp [heq]
  · intro hset hzero
    have hbit := congrArg (fun word ↦ BitVec.getLsbD word b) hzero
    simp [getLsbD_bit hb, hset, -BitVec.shiftLeft_eq] at hbit

theorem wordBits_not (word : BitVec w) : wordBits (~~~word) = (wordBits word).map (!·) := by
  rw [wordBits, wordBits, List.map_map]
  refine List.map_congr_left fun b hb ↦ ?_
  rw [BitVec.getLsbD_not, decide_eq_true (List.mem_range.mp hb), Bool.true_and]
  rfl

theorem mem_wordBits_iff : true ∈ wordBits word ↔ word ≠ 0 := by
  rw [wordBits, List.mem_map]
  constructor
  · rintro ⟨b, -, hset⟩ rfl
    cases BitVec.getLsbD_zero.symm.trans hset
  · intro hne
    by_contra hnone
    refine hne (BitVec.eq_of_getLsbD_eq fun b hb ↦ ?_)
    have hclear : word.getLsbD b ≠ true := fun hset ↦ hnone ⟨b, List.mem_range.mpr hb, hset⟩
    rw [Bool.eq_false_iff.mpr hclear]
    exact BitVec.getLsbD_zero.symm

/-- Searching a word is counting the trailing zeros of its complement, unless it is full. -/
theorem findIdx?_wordBits (word : BitVec w) :
    (wordBits word).findIdx? (fun bit ↦ !bit)
      = if ~~~word = 0 then none else some (trailingZeros (~~~word)) := by
  have hnot : (wordBits word).findIdx? (fun bit ↦ !bit) = (wordBits (~~~word)).findIdx? id := by
    rw [wordBits_not, List.findIdx?_map]
    rfl
  rw [hnot]
  by_cases hzero : ~~~word = 0
  · rw [if_pos hzero, List.findIdx?_eq_none_iff]
    intro bit hbit
    rw [id, Bool.eq_false_iff]
    rintro rfl
    exact mem_wordBits_iff.mp hbit hzero
  · rw [if_neg hzero]
    exact List.findIdx?_eq_some_of_exists ⟨true, mem_wordBits_iff.mpr hzero, rfl⟩

/-! ## All words -/

theorem length_bits (words : List (BitVec w)) : (bits words).length = words.length * w := by
  rw [bits, List.length_flatMap]
  simp

private theorem index_cases (hw : 0 < w) (i : ℕ) :
    (i < w ∧ i / w = 0 ∧ i % w = i) ∨ ∃ j, i = w + j ∧ i / w = j / w + 1 ∧ i % w = j % w := by
  by_cases hi : i < w
  · exact .inl ⟨hi, Nat.div_eq_of_lt hi, Nat.mod_eq_of_lt hi⟩
  · obtain ⟨j, rfl⟩ := Nat.exists_eq_add_of_le (Nat.le_of_not_lt hi)
    exact .inr ⟨j, rfl, Nat.add_div_left j hw, Nat.add_mod_left w j⟩

theorem bits_cons (word : BitVec w) (words : List (BitVec w)) :
    bits (word :: words) = wordBits word ++ bits words :=
  List.flatMap_cons

private theorem bits_modify (hw : 0 < w) (f : ℕ → BitVec w → BitVec w) (bit : Bool)
    (hf : ∀ b < w, ∀ word, wordBits (f b word) = (wordBits word).set b bit)
    (words : List (BitVec w)) (i : ℕ) :
    bits (words.modify (i / w) (f (i % w))) = (bits words).set i bit := by
  induction words generalizing i with
  | nil => simp [bits]
  | cons word words ih =>
    rcases index_cases hw i with ⟨hi, hdiv, hmod⟩ | ⟨j, rfl, hdiv, hmod⟩
    · rw [hdiv, hmod, List.modify_zero_cons, bits_cons, bits_cons, hf i hi,
        List.set_append_left _ _ ((length_wordBits word).symm ▸ hi)]
    · rw [hdiv, hmod, List.modify_succ_cons, bits_cons, bits_cons, ih,
        List.set_append_right _ _ (by rw [length_wordBits]; omega), length_wordBits,
        Nat.add_sub_cancel_left]

theorem bits_set (hw : 0 < w) (words : List (BitVec w)) (i : ℕ) :
    bits (set words i) = (bits words).set i true :=
  bits_modify hw (fun b word ↦ word ||| 1#w <<< b) true (fun _ hb _ ↦ wordBits_or_bit hb) words i

theorem bits_clear (hw : 0 < w) (words : List (BitVec w)) (i : ℕ) :
    bits (clear words i) = (bits words).set i false :=
  bits_modify hw (fun b word ↦ word &&& ~~~(1#w <<< b)) false
    (fun _ hb _ ↦ wordBits_and_not_bit hb) words i

theorem test_eq (hw : 0 < w) (words : List (BitVec w)) (i : ℕ) :
    test words i = (bits words).getD i true := by
  have hmod : i % w < w := Nat.mod_lt i hw
  have htest : test words i = (words.getD (i / w) (BitVec.allOnes w)).getLsbD (i % w) := by
    rw [test, Bool.eq_iff_iff, decide_eq_true_eq]
    exact and_bit_ne_zero_iff hmod
  rw [htest]
  clear htest hmod
  induction words generalizing i with
  | nil => simp [bits, Nat.mod_lt i hw]
  | cons word words ih =>
    rw [bits_cons]
    rcases index_cases hw i with ⟨hi, hdiv, hmod⟩ | ⟨j, rfl, hdiv, hmod⟩
    · rw [hdiv, hmod, List.getD_cons_zero, List.getD_eq_getElem?_getD,
        List.getElem?_append_left ((length_wordBits word).symm ▸ hi), getElem?_wordBits hi,
        Option.getD_some]
    · rw [hdiv, hmod, List.getD_cons_succ, ih, List.getD_eq_getElem?_getD,
        List.getD_eq_getElem?_getD, List.getElem?_append_right (by rw [length_wordBits]; omega),
        length_wordBits, Nat.add_sub_cancel_left]

/-- **The search.** -/
theorem firstClearFrom_eq (index : ℕ) (words : List (BitVec w)) :
    firstClearFrom index words
      = ((bits words).findIdx? fun bit ↦ !bit).map fun i ↦ index * w + i := by
  induction words generalizing index with
  | nil => rfl
  | cons word words ih =>
    rw [firstClearFrom, bits_cons, List.findIdx?_append, findIdx?_wordBits]
    by_cases hzero : ~~~word = 0
    · rw [if_pos hzero, if_pos hzero, ih, Option.none_or, Option.map_map, length_wordBits]
      congr 1
      funext i
      simp only [Function.comp]
      rw [Nat.succ_mul]
      omega
    · rw [if_neg hzero, if_neg hzero, Option.some_or, Option.map_some]

end Gaxera.WordBitmap

import Mathlib.Data.Nat.Digits.Lemmas

/-!
# Decoding byte strings

A decoder reads from the front of a byte string and leaves the rest. Besides giving up with an error
it can do two things it should never do: read past the end, and set memory aside for more entries
than the bytes in front of it can hold. Both end the decoding here.

Two rules are used. `Answers` is a weakest precondition: the decoder gives up, or goes on with a
value and a rest for which a postcondition holds. It follows the decoder exactly, so it turns "never
reads past the end" into a condition on the bytes. The other rule is the round trip: a decoder that
reads back what an encoder wrote in front of anything reads back lists of it.
-/

namespace Gaxera

inductive Decoded (ε α : Type)
  | ok (value : α) (rest : List UInt8)
  | error (e : ε)
  | outOfBounds
  | overReserved
deriving DecidableEq

def Decoder (ε α : Type) := List UInt8 → Decoded ε α

namespace Decoder

variable {ε α β : Type}

protected def pure (value : α) : Decoder ε α := fun bytes ↦ .ok value bytes

def fail (e : ε) : Decoder ε α := fun _ ↦ .error e

protected def bind (d : Decoder ε α) (f : α → Decoder ε β) : Decoder ε β := fun bytes ↦
  match d bytes with
  | .ok value rest => f value rest
  | .error e => .error e
  | .outOfBounds => .outOfBounds
  | .overReserved => .overReserved

instance : Monad (Decoder ε) where
  pure := Decoder.pure
  bind := Decoder.bind

/-- A little-endian number at the front of the bytes. -/
def wordOf (width : ℕ) (bytes : List UInt8) : ℕ :=
  Nat.ofDigits 256 ((bytes.take width).map UInt8.toNat)

def readBytes (n : ℕ) : Decoder ε (List UInt8) := fun bytes ↦
  if n ≤ bytes.length then .ok (bytes.take n) (bytes.drop n) else .outOfBounds

def readWord (width : ℕ) : Decoder ε ℕ := fun bytes ↦
  if width ≤ bytes.length then .ok (wordOf width bytes) (bytes.drop width) else .outOfBounds

def skipBytes (n : ℕ) : Decoder ε Unit := fun bytes ↦
  if n ≤ bytes.length then .ok () (bytes.drop n) else .outOfBounds

/-- An array of known length. -/
def readArray (n : ℕ) : Decoder ε (Vector UInt8 n) := fun bytes ↦
  if h : n ≤ bytes.length then .ok ⟨(bytes.take n).toArray, by simpa using h⟩ (bytes.drop n)
  else .outOfBounds

/-- Memory for `count` entries, each of which takes at least `size` of the bytes to come. -/
def reserve (count size : ℕ) : Decoder ε Unit := fun bytes ↦
  if count * size ≤ bytes.length then .ok () bytes else .overReserved

def times (d : Decoder ε α) : ℕ → Decoder ε (List α)
  | 0 => pure []
  | n + 1 => do
    let value ← d
    let values ← times d n
    pure (value :: values)

/-- A 32-bit count, memory for that many entries, and the entries. -/
def readList (size : ℕ) (d : Decoder ε α) : Decoder ε (List α) := do
  let count ← readWord 4
  reserve count size
  times d count

variable {bytes : List UInt8} {d : Decoder ε α}

theorem bind_of_ok {f : α → Decoder ε β} {rest : List UInt8} {value : α}
    (h : d bytes = .ok value rest) : (d >>= f) bytes = f value rest := by
  change Decoder.bind d f bytes = _
  rw [Decoder.bind, h]

theorem bind_eq_ok {f : α → Decoder ε β} {rest : List UInt8} {value : β}
    (h : (d >>= f) bytes = .ok value rest) :
    ∃ a mid, d bytes = .ok a mid ∧ f a mid = .ok value rest := by
  change Decoder.bind d f bytes = _ at h
  rw [Decoder.bind] at h
  rcases hd : d bytes with ⟨a, mid⟩ | e | - | - <;> rw [hd] at h
  · exact ⟨a, mid, rfl, h⟩
  all_goals cases h

/-! ## When a decoder answers -/

/-- The decoder gives up, or goes on so that the postcondition holds. -/
def Answers (d : Decoder ε α) (bytes : List UInt8) (post : α → List UInt8 → Prop) : Prop :=
  match d bytes with
  | .ok value rest => post value rest
  | .error _ => True
  | .outOfBounds | .overReserved => False

section Answers

variable {bytes : List UInt8}

theorem answers_pure {value : α} {post : α → List UInt8 → Prop} :
    (pure value : Decoder ε α).Answers bytes post ↔ post value bytes := Iff.rfl

theorem answers_fail {e : ε} {post : α → List UInt8 → Prop} :
    (fail e : Decoder ε α).Answers bytes post ↔ True := Iff.rfl

variable {d : Decoder ε α}

theorem answers_bind {f : α → Decoder ε β} {post : β → List UInt8 → Prop} :
    (d >>= f).Answers bytes post ↔
      d.Answers bytes fun value rest ↦ (f value).Answers rest post := by
  change (match Decoder.bind d f bytes with
    | .ok value rest => post value rest
    | .error _ => True
    | .outOfBounds | .overReserved => False) ↔ _
  unfold Answers Decoder.bind
  rcases d bytes with ⟨value, rest⟩ | e | - | - <;> exact Iff.rfl

variable {n : ℕ}

theorem answers_readBytes {post : List UInt8 → List UInt8 → Prop} :
    (readBytes n : Decoder ε _).Answers bytes post ↔
      n ≤ bytes.length ∧ post (bytes.take n) (bytes.drop n) := by
  by_cases h : n ≤ bytes.length <;> simp [Answers, readBytes, h]

theorem answers_readWord {width : ℕ} {post : ℕ → List UInt8 → Prop} :
    (readWord width : Decoder ε _).Answers bytes post ↔
      width ≤ bytes.length ∧ post (wordOf width bytes) (bytes.drop width) := by
  by_cases h : width ≤ bytes.length <;> simp [Answers, readWord, h]

theorem answers_skipBytes {post : Unit → List UInt8 → Prop} :
    (skipBytes n : Decoder ε _).Answers bytes post ↔ n ≤ bytes.length ∧ post () (bytes.drop n) := by
  by_cases h : n ≤ bytes.length <;> simp [Answers, skipBytes, h]

variable {post : List UInt8 → Prop}

/-- Where only the rest matters, an array is read as any other bytes are. -/
theorem answers_readArray :
    (readArray n : Decoder ε _).Answers bytes (fun _ rest ↦ post rest) ↔
      n ≤ bytes.length ∧ post (bytes.drop n) := by
  by_cases h : n ≤ bytes.length <;> simp [Answers, readArray, h]

theorem answers_reserve {count size : ℕ} {post : Unit → List UInt8 → Prop} :
    (reserve count size : Decoder ε _).Answers bytes post ↔
      count * size ≤ bytes.length ∧ post () bytes := by
  by_cases h : count * size ≤ bytes.length <;> simp [Answers, reserve, h]

theorem answers_times_succ :
    (times d (n + 1)).Answers bytes (fun _ rest ↦ post rest) ↔
      d.Answers bytes fun _ rest ↦ (times d n).Answers rest fun _ rest ↦ post rest := by
  rw [times, answers_bind]
  simp only [answers_bind, answers_pure]

theorem answers_readList {size : ℕ} :
    (readList size d).Answers bytes (fun _ rest ↦ post rest) ↔
      4 + wordOf 4 bytes * size ≤ bytes.length ∧
        (times d (wordOf 4 bytes)).Answers (bytes.drop 4) fun _ rest ↦ post rest := by
  rw [readList, answers_bind, answers_readWord, answers_bind, answers_reserve, List.length_drop]
  constructor
  · rintro ⟨h4, hsize, htimes⟩
    exact ⟨by omega, htimes⟩
  · rintro ⟨hsize, htimes⟩
    exact ⟨by omega, by omega, htimes⟩

theorem answers_true_iff : d.Answers bytes (fun _ _ ↦ True)
    ↔ d bytes ≠ .outOfBounds ∧ d bytes ≠ .overReserved := by
  unfold Answers
  rcases d bytes with ⟨value, rest⟩ | e | - | - <;> simp

theorem answers_iff {post : α → List UInt8 → Prop} :
    d.Answers bytes post ↔ d.Answers bytes (fun _ _ ↦ True)
      ∧ ∀ value rest, d bytes = .ok value rest → post value rest := by
  unfold Answers
  rcases d bytes with ⟨value, rest⟩ | e | - | - <;> simp

theorem answers_times_iff :
    (times d n).Answers bytes (fun _ _ ↦ True) ↔ ∀ k < n, ∀ values rest,
      times d k bytes = .ok values rest → d.Answers rest fun _ _ ↦ True := by
  induction n generalizing bytes with
  | zero => simp [times, answers_pure]
  | succ n ih =>
    rw [answers_times_succ, answers_iff]
    constructor
    · rintro ⟨hfirst, hnext⟩ (- | k) hk values rest hrun
      · obtain ⟨-, rfl⟩ : [] = values ∧ bytes = rest := by
          simpa [times, pure, Decoder.pure] using hrun
        exact hfirst
      · obtain ⟨value, mid, hd, hrest⟩ := bind_eq_ok hrun
        obtain ⟨values', rest', hrun', hpure⟩ := bind_eq_ok hrest
        obtain ⟨-, rfl⟩ : _ ∧ rest' = rest := by simpa [pure, Decoder.pure] using hpure
        exact ih.mp (hnext value mid hd) k (Nat.lt_of_succ_lt_succ hk) values' rest' hrun'
    · intro hall
      refine ⟨hall 0 (Nat.succ_pos n) [] bytes rfl, fun value mid hd ↦ ih.mpr ?_⟩
      intro k hk values rest hrun
      refine hall (k + 1) (Nat.succ_lt_succ hk) (value :: values) rest ?_
      rw [times, bind_of_ok hd, bind_of_ok hrun]
      rfl

/-- Entries that take `size` bytes each are there exactly if that many bytes are. -/
theorem answers_times {size : ℕ}
    (hd : ∀ bytes (next : List UInt8 → Prop), d.Answers bytes (fun _ rest ↦ next rest) ↔
      size ≤ bytes.length ∧ next (bytes.drop size)) (n : ℕ) :
    (times d n).Answers bytes (fun _ rest ↦ post rest) ↔
      n * size ≤ bytes.length ∧ post (bytes.drop (n * size)) := by
  induction n generalizing bytes with
  | zero => simp [times, answers_pure]
  | succ n ih =>
    rw [answers_times_succ, hd, ih, List.length_drop, List.drop_drop, Nat.succ_mul,
      Nat.add_comm size, ← and_assoc]
    exact and_congr_left fun _ ↦ by omega

end Answers

/-! ## Reading back what was written -/

/-- A number as `width` little-endian bytes, cut off if it is too large. -/
def word : ℕ → ℕ → List UInt8
  | 0, _ => []
  | width + 1, n => UInt8.ofNat n :: word width (n / 256)

@[simp] theorem length_word (width n : ℕ) : (word width n).length = width := by
  induction width generalizing n with
  | zero => rfl
  | succ width ih => simp [word, ih]

theorem wordOf_word_append (width n : ℕ) (rest : List UInt8) :
    wordOf width (word width n ++ rest) = n % 256 ^ width := by
  rw [wordOf, List.take_left' (length_word width n)]
  induction width generalizing n with
  | zero => simp [word, Nat.mod_one]
  | succ width ih =>
    rw [word, List.map_cons, Nat.ofDigits_cons, ih, pow_succ', Nat.mod_mul]
    simp

/-- What is decoded is what was encoded, whatever comes behind it. -/
def ReadsBack (d : Decoder ε α) (encode : α → List UInt8) (value : α) : Prop :=
  ∀ rest, d (encode value ++ rest) = .ok value rest

theorem readWord_word (width n : ℕ) (rest : List UInt8) :
    (readWord width : Decoder ε ℕ) (word width n ++ rest) = .ok (n % 256 ^ width) rest := by
  rw [readWord, if_pos (by simp), wordOf_word_append, List.drop_left' (length_word width n)]

theorem readBytes_append {n : ℕ} (hn : bytes.length = n) (rest : List UInt8) :
    (readBytes n : Decoder ε _) (bytes ++ rest) = .ok bytes rest := by
  rw [readBytes, if_pos (by simp [hn]), List.take_left' hn, List.drop_left' hn]

theorem readArray_readsBack {n : ℕ} (array : Vector UInt8 n) :
    (readArray n : Decoder ε _).ReadsBack Vector.toList array := by
  intro rest
  have hn : array.toList.length = n := Vector.length_toList
  rw [readArray, dif_pos (by simp), List.drop_left' hn]
  congr 1
  apply Vector.toList_inj.mp
  simp

variable {encode : α → List UInt8}

theorem times_readsBack {values : List α} (h : ∀ value ∈ values, d.ReadsBack encode value)
    (rest : List UInt8) :
    times d values.length (values.flatMap encode ++ rest) = .ok values rest := by
  induction values with
  | nil => rfl
  | cons value values ih =>
    rw [List.flatMap_cons, List.append_assoc, List.length_cons, times,
      bind_of_ok (h value List.mem_cons_self _),
      bind_of_ok (ih fun value hvalue ↦ h value (List.mem_cons_of_mem _ hvalue))]
    rfl

/-- A list with its count in front. -/
def list (encode : α → List UInt8) (values : List α) : List UInt8 :=
  word 4 values.length ++ values.flatMap encode

theorem length_flatMap_ge {size : ℕ} (hsize : ∀ value, size ≤ (encode value).length)
    (values : List α) : values.length * size ≤ (values.flatMap encode).length := by
  induction values with
  | nil => simp
  | cons value values ih =>
    rw [List.flatMap_cons, List.length_append, List.length_cons, Nat.succ_mul]
    have := hsize value
    omega

theorem readList_readsBack {size : ℕ} (hsize : ∀ value, size ≤ (encode value).length)
    {values : List α} (hcount : values.length < 2 ^ 32)
    (h : ∀ value ∈ values, d.ReadsBack encode value) :
    (readList size d).ReadsBack (list encode) values := by
  intro rest
  rw [list, List.append_assoc, readList, bind_of_ok (readWord_word _ _ _),
    Nat.mod_eq_of_lt (by simpa using hcount)]
  have hreserve : (reserve values.length size : Decoder ε Unit) (values.flatMap encode ++ rest) =
      .ok () (values.flatMap encode ++ rest) := by
    have := length_flatMap_ge hsize values
    rw [reserve, if_pos (by rw [List.length_append]; omega)]
  rw [bind_of_ok hreserve, times_readsBack h]

/-! ## Accepting only what was written -/

end Decoder

end Gaxera

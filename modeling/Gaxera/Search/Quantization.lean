import Mathlib.Algebra.Order.Ring.Nat
import Mathlib.Data.Nat.Basic
import Mathlib.Tactic.Ring

/-!
# Compressed vectors

A vector is turned by a Walsh-Hadamard transform and its coordinates are packed into half a byte
each. The transform works in levels: on the level of stride `h` it combines each place with the one
`h` further on, in stretches of `2 * h`. A stretch that starts inside the vector has to end inside
it, so the length must be a multiple of `2 * h`, and of the next stride, until the stride has
reached the length: only powers of two get that far. Packing rounds an odd number of coordinates
up, and unpacking knows no other number than the rounded one.

Both happen whatever the floats are. They are any type with the operations the code uses.
-/

namespace Gaxera

/-- What the code does with its floats. -/
class F32 (F : Type) extends Add F, Sub F, Mul F, Div F, Neg F, OfScientific F where
  ofNat : ℕ → F
  sqrt : F → F
  lt : F → F → Bool
  beq : F → F → Bool
  fromLeBytes : UInt8 → UInt8 → UInt8 → UInt8 → F
  toLeBytes : F → Vector UInt8 4

inductive CompressionError
  | compressFailed (reason : String)
  | decompressFailed (reason : String)
deriving DecidableEq

instance : F32 Float32 where
  ofNat := Float32.ofNat
  sqrt := Float32.sqrt
  lt a b := decide (a < b)
  beq a b := a == b
  fromLeBytes a b c d := Float32.ofBits
    (a.toUInt32 ||| b.toUInt32 <<< 8 ||| c.toUInt32 <<< 16 ||| d.toUInt32 <<< 24)
  toLeBytes x := Vector.ofFn fun i : Fin 4 ↦ (x.toBits >>> UInt32.ofNat (8 * i)).toUInt8

variable {F : Type} [F32 F]

namespace TurboQuantProvider

/-! ## The code -/

def centroids4bit1536 : Vector F 16 :=
  #v[-0.1245, -0.0982, -0.0761, -0.0571, -0.0398, -0.0236, -0.0078, 0.0078, 0.0236, 0.0398, 0.0571,
    0.0761, 0.0982, 0.1245, 0.1580, 0.2050]

def boundaries4bit1536 : List F :=
  [-0.11135, -0.08715, -0.06660, -0.04845, -0.03170, -0.01570, 0.00000, 0.01570, 0.03170, 0.04845,
    0.06660, 0.08715, 0.11135, 0.14125, 0.18150]

def quantizeScalar4bit (val : F) : UInt8 :=
  UInt8.ofNat (boundaries4bit1536.takeWhile fun boundary ↦ F32.lt boundary val).length

def dequantizeScalar4bit (idx : UInt8) : F :=
  centroids4bit1536.get ⟨min idx.toNat 15, by omega⟩

/-- The body of the innermost loop. -/
def butterfly (h : ℕ) (output : List F) (j : ℕ) : Option (List F) :=
  match output[j]?, output[j + h]? with
  | some x, some y => some ((output.set j (x + y)).set (j + h) (x - y))
  | _, _ => none

/-- The places the two inner loops go through. -/
def levelPlaces (len h : ℕ) : List ℕ :=
  (List.range' 0 ((len + (h * 2 - 1)) / (h * 2)) (h * 2)).flatMap fun i ↦ List.range' i h

/-- The outer loop. It counts as failed if it has not ended after so many rounds. -/
def rotateLevels (len : ℕ) : ℕ → ℕ → List F → Option (List F)
  | 0, h, output => if h < len then none else some output
  | rounds + 1, h, output =>
    if h < len then do
      let output ← (levelPlaces len h).foldlM (butterfly h) output
      rotateLevels len rounds (h * 2) output
    else some output

/-- Every access outside of a buffer is `none`. -/
def rotateVector (input output : List F) : Option (List F) :=
  if output.length < input.length then none
  else do
    let output ← rotateLevels input.length input.length 1 (input ++ output.drop input.length)
    let norm := 1.0 / F32.sqrt (F32.ofNat input.length)
    some ((output.take input.length).map (· * norm) ++ output.drop input.length)

/-- `chunks_exact(4)`, as floats. -/
def floatsOf : List UInt8 → List F
  | a :: b :: c :: d :: bytes => F32.fromLeBytes a b c d :: floatsOf bytes
  | _ => []

/-- `chunks(2)`, as bytes. -/
def packIndices : List UInt8 → List UInt8
  | a :: b :: indices => ((a &&& (0x0F : UInt8)) ||| ((b &&& (0x0F : UInt8)) <<< 4)) ::
    packIndices indices
  | [a] => [a &&& 0x0F]
  | [] => []

def compress (F : Type) [F32 F] (input : List UInt8) :
    Option (Except CompressionError (List UInt8)) :=
  if input.length % 4 ≠ 0 then
    some (.error (.compressFailed "Input buffer length must be a multiple of 4 (f32 slice)"))
  else
    let numFloats := input.length / 4
    let f32In : List F := floatsOf input
    let vectorNorm := F32.sqrt (f32In.foldl (fun normSq val ↦ normSq + val * val) 0.0)
    if F32.beq vectorNorm 0.0 then some (.ok (List.replicate ((numFloats + 1) / 2 + 4) 0))
    else do
      let unitV := f32In.map (· / vectorNorm)
      let rotated ← rotateVector unitV (List.replicate numFloats 0.0)
      let coordScale : F := F32.sqrt (F32.ofNat numFloats)
      let quantize (val : F) := quantizeScalar4bit (val * coordScale * 0.035)
      let dotUXhat := rotated.foldl (fun dot val ↦
        dot + val * (dequantizeScalar4bit (quantize val) / 0.035 / coordScale)) 0.0
      let scale := if F32.lt 1e-12 dotUXhat then vectorNorm / dotUXhat else vectorNorm
      some (.ok ((F32.toLeBytes scale).toList ++ packIndices (rotated.map quantize)))

/-- The two coordinates of each byte. -/
def unpackIndices (packed : List UInt8) : List F :=
  let coordScale : F := F32.sqrt (F32.ofNat (packed.length * 2))
  let centroid (idx : UInt8) := dequantizeScalar4bit idx / 0.035 / coordScale
  packed.flatMap fun byte ↦ [centroid (byte &&& 0x0F), centroid ((byte >>> 4) &&& 0x0F)]

def decompress (F : Type) [F32 F] (compressed : List UInt8) :
    Option (Except CompressionError (List UInt8)) :=
  match compressed with
  | a :: b :: c :: d :: packed => do
    let scale : F := F32.fromLeBytes a b c d
    let unquantized := unpackIndices packed
    let unit ← rotateVector unquantized (List.replicate unquantized.length 0.0)
    some (.ok (unit.flatMap fun val ↦ (F32.toLeBytes (val * scale)).toList))
  | _ => some (.error (.decompressFailed "Compressed buffer too short"))

/-! ## The transform -/

variable {h : ℕ} {output : List F}

theorem butterfly_of_lt {j : ℕ} (hj : j + h < output.length) :
    ∃ output', butterfly h output j = some output' ∧ output'.length = output.length := by
  rw [butterfly, List.getElem?_eq_getElem (Nat.lt_of_le_of_lt (Nat.le_add_right j h) hj),
    List.getElem?_eq_getElem hj]
  exact ⟨_, rfl, by simp⟩

variable {output' : List F}

theorem butterfly_eq_some {j : ℕ} (hsome : butterfly h output j = some output') :
    j + h < output.length ∧ output'.length = output.length := by
  by_cases hj : j + h < output.length
  · obtain ⟨output₁, heq, hlength⟩ := butterfly_of_lt hj
    obtain rfl := Option.mem_unique heq hsome
    exact ⟨hj, hlength⟩
  · rw [butterfly, List.getElem?_eq_none (Nat.le_of_not_lt hj)] at hsome
    rcases hx : output[j]? with - | x
    · rw [hx] at hsome
      cases hsome
    · rw [hx] at hsome
      cases hsome

theorem foldlM_butterfly_of_lt {places : List ℕ} (hplaces : ∀ j ∈ places, j + h < output.length) :
    ∃ output', places.foldlM (butterfly h) output = some output' ∧
      output'.length = output.length := by
  induction places generalizing output with
  | nil => exact ⟨output, rfl, rfl⟩
  | cons j places ih =>
    obtain ⟨output₁, heq, hlength⟩ := butterfly_of_lt (hplaces j List.mem_cons_self)
    obtain ⟨output', heq', hlength'⟩ := ih fun i hi ↦
      hlength ▸ hplaces i (List.mem_cons_of_mem j hi)
    exact ⟨output', by rw [List.foldlM_cons, heq]; exact heq', hlength'.trans hlength⟩

theorem foldlM_butterfly_eq_some {places : List ℕ}
    (hsome : places.foldlM (butterfly h) output = some output') :
    (∀ j ∈ places, j + h < output.length) ∧ output'.length = output.length := by
  induction places generalizing output with
  | nil =>
    obtain rfl := Option.some.inj hsome
    exact ⟨nofun, rfl⟩
  | cons j places ih =>
    rw [List.foldlM_cons] at hsome
    obtain ⟨output₁, heq, hrest⟩ := Option.bind_eq_some_iff.mp hsome
    obtain ⟨hj, hlength⟩ := butterfly_eq_some heq
    obtain ⟨hplaces, hlength'⟩ := ih hrest
    refine ⟨fun i hi ↦ ?_, hlength'.trans hlength⟩
    rcases List.mem_cons.mp hi with rfl | hi
    · exact hj
    · exact hlength ▸ hplaces i hi

variable {len : ℕ}

theorem mem_levelPlaces {j : ℕ} (hpos : 0 < h) :
    j ∈ levelPlaces len h ↔ ∃ t, t * (h * 2) < len ∧ t * (h * 2) ≤ j ∧ j < t * (h * 2) + h := by
  have hcount (t : ℕ) : t < (len + (h * 2 - 1)) / (h * 2) ↔ t * (h * 2) < len := by
    rw [Nat.lt_div_iff_mul_lt (by omega)]
    omega
  rw [levelPlaces, List.mem_flatMap]
  constructor
  · rintro ⟨i, hi, hj⟩
    obtain ⟨t, ht, rfl⟩ := List.mem_range'.mp hi
    rw [List.mem_range'_1, Nat.zero_add, Nat.mul_comm] at hj
    exact ⟨t, (hcount t).mp ht, hj⟩
  · rintro ⟨t, ht, hj⟩
    refine ⟨t * (h * 2), List.mem_range'.mpr ⟨t, (hcount t).mpr ht, ?_⟩, List.mem_range'_1.mpr hj⟩
    rw [Nat.zero_add, Nat.mul_comm]

/-- **The places of a level fit if its stretches fill the vector.** -/
theorem levelPlaces_fit_iff (hpos : 0 < h) :
    (∀ j ∈ levelPlaces len h, j + h < len) ↔ h * 2 ∣ len := by
  constructor
  · intro hfit
    rcases Nat.eq_zero_or_pos len with rfl | hlen
    · exact Nat.dvd_zero _
    -- The last stretch starts inside, so its last place is inside.
    have hstart : (len - 1) / (h * 2) * (h * 2) ≤ len - 1 := Nat.div_mul_le_self _ _
    have hend : len - 1 < ((len - 1) / (h * 2) + 1) * (h * 2) := by
      rw [Nat.mul_comm]
      exact Nat.lt_mul_div_succ (len - 1) (by omega)
    rw [Nat.succ_mul] at hend
    have hlast := hfit ((len - 1) / (h * 2) * (h * 2) + h - 1)
      ((mem_levelPlaces hpos).mpr ⟨(len - 1) / (h * 2), by omega, by omega, by omega⟩)
    refine ⟨(len - 1) / (h * 2) + 1, ?_⟩
    rw [Nat.mul_comm (h * 2), Nat.succ_mul]
    omega
  · rintro ⟨q, rfl⟩ j hj
    obtain ⟨t, ht, -, hlt⟩ := (mem_levelPlaces hpos).mp hj
    rw [Nat.mul_comm t] at ht hlt
    have hstretch : h * 2 * (t + 1) ≤ h * 2 * q :=
      Nat.mul_le_mul_left _ (Nat.lt_of_mul_lt_mul_left ht)
    rw [Nat.mul_succ] at hstretch
    omega

theorem eq_of_dvd_of_not_lt (hdvd : h ∣ len) (hge : ¬h < len) : len = 0 ∨ ∃ k, len = h * 2 ^ k := by
  rcases Nat.eq_zero_or_pos len with hzero | hlen
  · exact .inl hzero
  · refine .inr ⟨0, ?_⟩
    rw [pow_zero, Nat.mul_one]
    exact Nat.le_antisymm (Nat.le_of_not_lt hge) (Nat.le_of_dvd hlen hdvd)

/-- A rotation that gets through has doubled its stride up to the length. -/
theorem rotateLevels_eq_some {rounds : ℕ} (hpos : 0 < h) (hdvd : h ∣ len)
    (hlength : output.length = len) (hsome : rotateLevels len rounds h output = some output') :
    (len = 0 ∨ ∃ k, len = h * 2 ^ k) ∧ output'.length = len := by
  induction rounds generalizing h output with
  | zero =>
    rw [rotateLevels] at hsome
    split_ifs at hsome with hlt
    obtain rfl := Option.some.inj hsome
    exact ⟨eq_of_dvd_of_not_lt hdvd hlt, hlength⟩
  | succ rounds ih =>
    rw [rotateLevels] at hsome
    split_ifs at hsome with hlt
    · obtain ⟨output₁, hlevel, hrest⟩ := Option.bind_eq_some_iff.mp hsome
      obtain ⟨hplaces, hlength₁⟩ := foldlM_butterfly_eq_some hlevel
      have hdvd' := (levelPlaces_fit_iff hpos).mp (hlength ▸ hplaces)
      obtain ⟨hzero | ⟨k, hk⟩, hlength'⟩ := ih (by omega) hdvd' (hlength₁.trans hlength) hrest
      · exact ⟨.inl hzero, hlength'⟩
      · exact ⟨.inr ⟨k + 1, by rw [hk, pow_succ]; ring⟩, hlength'⟩
    · obtain rfl := Option.some.inj hsome
      exact ⟨eq_of_dvd_of_not_lt hdvd hlt, hlength⟩

/-- Enough rounds, and a length that is the stride doubled so many times. -/
theorem rotateLevels_of_eq {rounds k : ℕ} (hpos : 0 < h) (hlen : len = h * 2 ^ k)
    (hrounds : k ≤ rounds) (hlength : output.length = len) :
    ∃ output', rotateLevels len rounds h output = some output' := by
  induction k generalizing rounds h output with
  | zero =>
    have hge : ¬h < len := by rw [hlen, pow_zero, Nat.mul_one]; exact Nat.lt_irrefl h
    rcases rounds with - | rounds <;> exact ⟨output, by rw [rotateLevels, if_neg hge]⟩
  | succ k ih =>
    obtain ⟨rounds, rfl⟩ : ∃ r, rounds = r + 1 := ⟨rounds - 1, by omega⟩
    have hdouble : len = h * 2 * 2 ^ k := by rw [hlen, pow_succ]; ring
    have hlt : h < len := by
      have := Nat.le_mul_of_pos_right (h * 2) (Nat.two_pow_pos k)
      omega
    have hfit : ∀ j ∈ levelPlaces len h, j + h < output.length := fun j hj ↦
      hlength.symm ▸ (levelPlaces_fit_iff hpos).mpr ⟨_, hdouble⟩ j hj
    obtain ⟨output₁, hlevel, hlength₁⟩ := foldlM_butterfly_of_lt hfit
    obtain ⟨output', hrest⟩ :=
      ih (by omega) hdouble (Nat.le_of_succ_le_succ hrounds) (hlength₁.trans hlength)
    refine ⟨output', ?_⟩
    rw [rotateLevels, if_pos hlt]
    exact Option.bind_eq_some_iff.mpr ⟨output₁, hlevel, hrest⟩

/-- **The rotation stays inside its buffers for powers of two only.** -/
theorem rotateVector_isSome_iff (input output : List F) (hlength : output.length = input.length) :
    (∃ rotated, rotateVector input output = some rotated) ↔
      input.length = 0 ∨ ∃ k, input.length = 2 ^ k := by
  have hbuffer : (input ++ output.drop input.length).length = input.length := by
    simp [hlength]
  rw [rotateVector, if_neg (by omega)]
  constructor
  · rintro ⟨rotated, hsome⟩
    obtain ⟨output', hlevels, -⟩ := Option.bind_eq_some_iff.mp hsome
    simpa using (rotateLevels_eq_some Nat.one_pos (Nat.one_dvd _) hbuffer hlevels).1
  · rintro (hzero | ⟨k, hpow⟩)
    · rw [hzero, rotateLevels, if_neg (by decide)]
      exact ⟨_, rfl⟩
    · obtain ⟨output', hlevels⟩ := rotateLevels_of_eq Nat.one_pos (hpow.trans (Nat.one_mul _).symm)
        (hpow ▸ Nat.le_of_lt k.lt_two_pow_self) hbuffer
      exact ⟨_, Option.bind_eq_some_iff.mpr ⟨output', hlevels, rfl⟩⟩

theorem length_rotateVector {input rotated : List F} (hlength : output.length = input.length)
    (hsome : rotateVector input output = some rotated) : rotated.length = input.length := by
  have hbuffer : (input ++ output.drop input.length).length = input.length := by
    simp [hlength]
  rw [rotateVector, if_neg (by omega)] at hsome
  obtain ⟨output', hlevels, hscaled⟩ := Option.bind_eq_some_iff.mp hsome
  have hlength' := (rotateLevels_eq_some Nat.one_pos (Nat.one_dvd _) hbuffer hlevels).2
  obtain rfl := Option.some.inj hscaled
  simp [hlength']

/-! ## Packing and unpacking -/

theorem length_floatsOf {n : ℕ} {bytes : List UInt8} (h : bytes.length = 4 * n) :
    (floatsOf bytes : List F).length = n := by
  induction n generalizing bytes with
  | zero =>
    rw [List.length_eq_zero_iff.mp h]
    rfl
  | succ n ih =>
    obtain ⟨a, b, c, d, rest, rfl⟩ : ∃ a b c d rest, bytes = a :: b :: c :: d :: rest := by
      match bytes, h with
      | a :: b :: c :: d :: rest, _ => exact ⟨a, b, c, d, rest, rfl⟩
    rw [floatsOf, List.length_cons, ih (by simp only [List.length_cons] at h; omega)]

theorem length_packIndices (indices : List UInt8) :
    (packIndices indices).length = (indices.length + 1) / 2 := by
  fun_induction packIndices indices with
  | case1 a b indices ih =>
    simp only [List.length_cons, ih]
    omega
  | case2 | case3 => simp

private theorem length_flatMap_const {α β : Type} {f : α → List β} {n : ℕ}
    (h : ∀ a, (f a).length = n) (l : List α) : (l.flatMap f).length = n * l.length := by
  induction l with
  | nil => rfl
  | cons a l ih => rw [List.flatMap_cons, List.length_append, h, ih, List.length_cons, Nat.mul_succ,
      Nat.add_comm]

theorem length_unpackIndices (packed : List UInt8) :
    (unpackIndices packed : List F).length = 2 * packed.length := by
  rw [unpackIndices, length_flatMap_const (n := 2) fun _ ↦ rfl]

private theorem double_eq_two_pow_iff (m : ℕ) :
    (2 * m = 0 ∨ ∃ k, 2 * m = 2 ^ k) ↔ m = 0 ∨ ∃ k, m = 2 ^ k := by
  constructor
  · rintro (hzero | ⟨k, hk⟩)
    · exact .inl (by omega)
    · rcases k with - | k
      · omega
      · exact .inr ⟨k, by rw [pow_succ] at hk; omega⟩
  · rintro (hzero | ⟨k, hk⟩)
    · exact .inl (by omega)
    · exact .inr ⟨k + 1, by rw [pow_succ]; omega⟩

/-- **Unpacking**: so many bytes behind the scale are twice as many coordinates. -/
theorem decompress_isSome_iff (F : Type) [F32 F] (a b c d : UInt8) (packed : List UInt8) :
    (∃ result, decompress F (a :: b :: c :: d :: packed) = some result) ↔
      packed.length = 0 ∨ ∃ k, packed.length = 2 ^ k := by
  rw [← double_eq_two_pow_iff, ← length_unpackIndices (F := F) packed,
    ← rotateVector_isSome_iff _ (List.replicate (unpackIndices packed : List F).length 0.0)
      (List.length_replicate ..), decompress]
  constructor
  · rintro ⟨result, hresult⟩
    obtain ⟨unit, hunit, -⟩ := Option.bind_eq_some_iff.mp hresult
    exact ⟨unit, hunit⟩
  · rintro ⟨unit, hunit⟩
    exact ⟨_, Option.bind_eq_some_iff.mpr ⟨unit, hunit, rfl⟩⟩

theorem decompress_eq_some {F : Type} [F32 F] {a b c d : UInt8} {packed : List UInt8}
    {result : Except CompressionError (List UInt8)}
    (h : decompress F (a :: b :: c :: d :: packed) = some result) :
    ∃ out, result = .ok out ∧ out.length = 4 * (2 * packed.length) := by
  rw [decompress] at h
  obtain ⟨unit, hunit, hout⟩ := Option.bind_eq_some_iff.mp h
  refine ⟨_, (Option.some.inj hout).symm, ?_⟩
  rw [length_flatMap_const (fun _ ↦ Vector.length_toList),
    length_rotateVector (List.length_replicate ..) hunit, length_unpackIndices]

section

variable {n : ℕ} {input : List UInt8}

/-- The two buffers of the rotation have the length of the vector. -/
private theorem length_unit (hinput : input.length = 4 * n) (vectorNorm : F) :
    ((floatsOf input : List F).map (· / vectorNorm)).length = n ∧
      (List.replicate (input.length / 4) (0.0 : F)).length = n := by
  rw [List.length_map, length_floatsOf hinput, List.length_replicate]
  omega

/-- **Packing** a power of two goes through, whether the vector is rotated or has norm zero. -/
theorem compress_of_pow (hinput : input.length = 4 * n) (hn : n = 0 ∨ ∃ k, n = 2 ^ k) :
    ∃ result, compress F input = some result := by
  rw [compress, if_neg (by omega)]
  dsimp only
  split_ifs
  · exact ⟨_, rfl⟩
  · obtain ⟨hunit, hbuffer⟩ := length_unit (F := F) hinput
      (F32.sqrt ((floatsOf input).foldl (fun normSq val ↦ normSq + val * val) 0.0))
    obtain ⟨rotated, hrotated⟩ :=
      (rotateVector_isSome_iff _ _ (hbuffer.trans hunit.symm)).mpr (hunit.symm ▸ hn)
    exact ⟨_, Option.bind_eq_some_iff.mpr ⟨rotated, hrotated, rfl⟩⟩

/-- A result of packing is a scale and half as many bytes as coordinates, rounded up. -/
theorem compress_eq_some (hinput : input.length = 4 * n)
    {result : Except CompressionError (List UInt8)} (h : compress F input = some result) :
    ∃ a b c d packed, result = .ok (a :: b :: c :: d :: packed) ∧
      packed.length = (n + 1) / 2 := by
  have hsplit {bytes : List UInt8} (hbytes : bytes.length = (n + 1) / 2 + 4) :
      ∃ a b c d packed, bytes = a :: b :: c :: d :: packed ∧ packed.length = (n + 1) / 2 := by
    match bytes, hbytes with
    | a :: b :: c :: d :: packed, hbytes => exact ⟨a, b, c, d, packed, rfl, by simpa using hbytes⟩
  suffices hok : ∃ bytes, result = .ok bytes ∧ bytes.length = (n + 1) / 2 + 4 by
    obtain ⟨bytes, rfl, hbytes⟩ := hok
    obtain ⟨a, b, c, d, packed, rfl, hpacked⟩ := hsplit hbytes
    exact ⟨a, b, c, d, packed, rfl, hpacked⟩
  rw [compress, if_neg (by omega)] at h
  dsimp only at h
  split_ifs at h
  · refine ⟨_, (Option.some.inj h).symm, ?_⟩
    rw [List.length_replicate]
    omega
  · obtain ⟨hunit, hbuffer⟩ := length_unit (F := F) hinput
      (F32.sqrt ((floatsOf input).foldl (fun normSq val ↦ normSq + val * val) 0.0))
    obtain ⟨rotated, hrotated, hout⟩ := Option.bind_eq_some_iff.mp h
    have hlength := (length_rotateVector (hbuffer.trans hunit.symm) hrotated).trans hunit
    refine ⟨_, (Option.some.inj hout).symm, ?_⟩
    rw [List.length_append, Vector.length_toList, length_packIndices, List.length_map, hlength,
      Nat.add_comm]

end

/-- **When compression is total and keeps the length.** The rotation of `n` floats stays inside its
buffers exactly if `n` is zero or a power of two; packing and unpacking give back `n` floats exactly
if it is zero or a power of two other than one; and unpacking any bytes behind a scale goes through
exactly if there are none or a power of two of them. -/
theorem compression_total_iff (F : Type) [F32 F] (n : ℕ) (input : List UInt8)
    (hinput : input.length = 4 * n) :
    (∀ vector output : List F, vector.length = n → output.length = n →
      ((∃ rotated, rotateVector vector output = some rotated) ↔ n = 0 ∨ ∃ k, n = 2 ^ k)) ∧
    ((∃ compressed out, compress F input = some (.ok compressed) ∧
      decompress F compressed = some (.ok out) ∧ out.length = 4 * n) ↔
      n = 0 ∨ ∃ k, n = 2 ^ (k + 1)) ∧
    ∀ bytes : List UInt8, 4 ≤ bytes.length →
      ((∃ result, decompress F bytes = some result) ↔
        bytes.length = 4 ∨ ∃ k, bytes.length = 4 + 2 ^ k) := by
  refine ⟨fun vector output hvector houtput ↦ ?_, ⟨?_, fun hn ↦ ?_⟩, fun bytes hbytes ↦ ?_⟩
  · rw [rotateVector_isSome_iff _ _ (houtput.trans hvector.symm), hvector]
  · rintro ⟨compressed, out, hcompress, hdecompress, hout⟩
    obtain ⟨a, b, c, d, packed, hok, hpacked⟩ := compress_eq_some hinput hcompress
    obtain rfl := Except.ok.inj hok
    obtain ⟨out', hok', hlength⟩ := decompress_eq_some hdecompress
    obtain rfl := Except.ok.inj hok'
    rcases (decompress_isSome_iff F a b c d packed).mp ⟨_, hdecompress⟩ with hzero | ⟨k, hk⟩
    · exact .inl (by omega)
    · exact .inr ⟨k, by rw [pow_succ]; omega⟩
  · obtain ⟨result, hcompress⟩ := compress_of_pow (F := F) hinput
      (hn.imp_right fun ⟨k, hk⟩ ↦ ⟨k + 1, hk⟩)
    obtain ⟨a, b, c, d, packed, rfl, hpacked⟩ := compress_eq_some hinput hcompress
    have hhalf : packed.length = 0 ∨ ∃ k, packed.length = 2 ^ k := by
      rcases hn with hzero | ⟨k, hk⟩
      · exact .inl (by omega)
      · exact .inr ⟨k, by rw [pow_succ] at hk; omega⟩
    obtain ⟨result, hdecompress⟩ := (decompress_isSome_iff F a b c d packed).mpr hhalf
    obtain ⟨out, rfl, hout⟩ := decompress_eq_some hdecompress
    refine ⟨_, out, hcompress, hdecompress, ?_⟩
    rcases hn with hzero | ⟨k, hk⟩
    · omega
    · rw [pow_succ] at hk
      omega
  · match bytes, hbytes with
    | a :: b :: c :: d :: packed, hbytes =>
      have hbehind (m : ℕ) : (a :: b :: c :: d :: packed).length = 4 + m ↔ packed.length = m := by
        simp only [List.length_cons]
        omega
      rw [decompress_isSome_iff]
      exact or_congr (hbehind 0).symm (exists_congr fun k ↦ (hbehind (2 ^ k)).symm)

/-- Two floats. -/
theorem compression_total_pair : ∃ compressed out,
    compress Float32 [0, 0, 128, 63, 0, 0, 0, 64] = some (.ok compressed) ∧
      decompress Float32 compressed = some (.ok out) ∧ out.length = 8 :=
  (compression_total_iff Float32 2 [0, 0, 128, 63, 0, 0, 0, 64] rfl).2.1.mpr (.inr ⟨0, rfl⟩)

/-- Three floats are too many for a stride of one, three bytes for a stride of two, and one float
comes back as two. -/
theorem compression_leaves_buffer :
    rotateVector ([1.0, 1.0, 1.0] : List Float32) [0.0, 0.0, 0.0] = none ∧
    decompress Float32 [0, 0, 128, 63, 0x77, 0x77, 0x77] = none ∧
    ∀ compressed out, compress Float32 [0, 0, 128, 63] = some (.ok compressed) →
      decompress Float32 compressed = some (.ok out) → out.length = 8 := by
  refine ⟨rfl, rfl, fun compressed out hcompress hdecompress ↦ ?_⟩
  obtain ⟨a, b, c, d, packed, hok, hpacked⟩ := compress_eq_some (n := 1) rfl hcompress
  obtain rfl := Except.ok.inj hok
  obtain ⟨out', hok', hlength⟩ := decompress_eq_some hdecompress
  obtain rfl := Except.ok.inj hok'
  omega

end TurboQuantProvider

end Gaxera

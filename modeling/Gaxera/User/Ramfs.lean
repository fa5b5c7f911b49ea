import Gaxera.Elf.Parser

/-!
# The file archive

The file server answers a request with the front of a file of its image: a header with the number
of files, a table of entries of 44 bytes, and the files. The numbers of the image are not to be
trusted, and every access goes through a raw pointer; an access outside of the image is a fault
here. One check before the loop over the table and one behind it are enough for every access.
-/

namespace Gaxera

namespace Ramfs

def statusOk : ℕ := 0

def statusNotFound : ℕ := 1

/-- The four words of a reply. -/
structure Reply where
  status : ℕ
  word1 : ℕ
  word2 : ℕ
  word3 : ℕ
deriving DecidableEq, Repr

def readU32 (image : List UInt8) (offset : ℕ) : Except Fault ℕ :=
  (readAt image offset 4).map (field · 0 4)

/-- The loop over the table, from entry `i` on: the offset and the size of the file. -/
def findEntry (image : List UInt8) (fileId i : ℕ) : ℕ → Except Fault (Option (ℕ × ℕ))
  | 0 => .ok none
  | remaining + 1 => do
    let fid ← readU32 image (16 + i * 44)
    if fid = fileId then
      let fileOffset ← readU32 image (16 + i * 44 + 36)
      let fileSize ← readU32 image (16 + i * 44 + 40)
      return some (fileOffset, fileSize)
    else findEntry image fileId (i + 1) remaining

/-- The first bytes of a file, in three words. -/
def replyOf (slice : List UInt8) : Reply :=
  let buf := slice ++ List.replicate (24 - slice.length) 0
  ⟨statusOk, field buf 0 8, field buf 8 8, field buf 16 8⟩

def parseGaxfs (image : List UInt8) (fileId : ℕ) (reply : Reply) : Except Fault Reply :=
  let notFound := { reply with status := statusNotFound }
  if image.length < 16 then .ok notFound
  else do
    let numFiles ← readU32 image 12
    match (checkedMul 64 numFiles 44).bind (checkedAdd 64 · 16) with
    | none => return notFound
    | some totalHeaderSize =>
      if image.length < totalHeaderSize then return notFound
      match ← findEntry image fileId 0 numFiles with
      | none => return notFound
      | some (fileOffset, fileSize) =>
        match checkedAdd 64 fileOffset fileSize with
        | none => return notFound
        | some stop =>
          if image.length < stop then return notFound
          let slice ← readAt image fileOffset (min fileSize 24)
          return replyOf slice

/-! ## What is served -/

def numFiles (image : List UInt8) : ℕ := field image 12 4

def fileId (image : List UInt8) (i : ℕ) : ℕ := field image (16 + i * 44) 4

def fileOffset (image : List UInt8) (i : ℕ) : ℕ := field image (16 + i * 44 + 36) 4

def fileSize (image : List UInt8) (i : ℕ) : ℕ := field image (16 + i * 44 + 40) 4

/-- The table fits, and its first entry for a file is entry `i`, whose bytes are in the image. -/
structure Serves (image : List UInt8) (id i : ℕ) : Prop where
  header : 16 ≤ image.length
  table : 16 + numFiles image * 44 ≤ image.length
  lt : i < numFiles image
  id_eq : fileId image i = id
  first : ∀ j < i, fileId image j ≠ id
  inside : fileOffset image i + fileSize image i ≤ image.length

variable {image : List UInt8} {id : ℕ}

theorem readU32_eq {offset : ℕ} (h : offset + 4 ≤ image.length) :
    readU32 image offset = .ok (field image offset 4) := by
  rw [readU32, readAt, if_pos h, Except.map, field, List.drop_zero, List.take_take, Nat.min_self,
    field]

theorem field_lt (image : List UInt8) (offset : ℕ) : field image offset 4 < 2 ^ 32 := by
  refine (Nat.ofDigits_lt_base_pow_length (by decide : 1 < 256) ?_).trans_le ?_
  · intro d hd
    obtain ⟨b, -, rfl⟩ := List.mem_map.mp hd
    exact b.toNat_lt
  · refine (Nat.pow_le_pow_right (by decide) ?_ : _ ≤ 256 ^ 4)
    simp

theorem findEntry_eq {i n : ℕ} (h : 16 + (i + n) * 44 ≤ image.length) :
    findEntry image id i n = .ok (((List.range' i n).find? (fileId image · = id)).map
      fun j ↦ (fileOffset image j, fileSize image j)) := by
  induction n generalizing i with
  | zero => rfl
  | succ n ih =>
    rw [findEntry, readU32_eq (by omega), readU32_eq (by omega), readU32_eq (by omega),
      List.range'_succ]
    by_cases hid : fileId image i = id
    · rw [List.find?_cons_of_pos (by simpa using hid)]
      exact if_pos hid
    · rw [List.find?_cons_of_neg (by simpa using hid), ← ih (by omega)]
      exact if_neg hid

/-- **The parser reads only its image**, and it serves a file exactly if the table fits and the
first entry for the file describes bytes of the image: no access faults, the reply is the front of
the file with zeros behind it, and otherwise nothing of the reply but its status is written. -/
theorem parseGaxfs_serves (image : List UInt8) (id : ℕ) (reply : Reply) :
    (∀ i, Serves image id i → parseGaxfs image id reply = .ok (replyOf
        ((image.drop (fileOffset image i)).take (min (fileSize image i) 24))))
      ∧ ((¬ ∃ i, Serves image id i) →
        parseGaxfs image id reply = .ok { reply with status := statusNotFound }) := by
  rw [parseGaxfs]
  by_cases hheader : image.length < 16
  · rw [if_pos hheader]
    exact ⟨fun i h ↦ absurd h.header (Nat.not_le.mpr hheader), fun _ ↦ rfl⟩
  have hcount : numFiles image < 2 ^ 32 := field_lt image 12
  have htotal : (checkedMul 64 (numFiles image) 44).bind (checkedAdd 64 · 16)
      = some (numFiles image * 44 + 16) := by
    rw [checkedMul, if_pos (by omega)]
    exact checkedAdd_eq_some.mpr ⟨by omega, rfl⟩
  rw [if_neg hheader, readU32_eq (by omega), ← numFiles]
  simp only [Bind.bind, Except.bind, htotal]
  by_cases htable : image.length < numFiles image * 44 + 16
  · rw [if_pos htable]
    exact ⟨fun i h ↦ absurd h.table (by omega), fun _ ↦ rfl⟩
  rw [if_neg htable, findEntry_eq (by omega), ← List.range_eq_range']
  cases hfind : (List.range (numFiles image)).find? (fileId image · = id) with
  | none =>
    refine ⟨fun i h ↦ ?_, fun _ ↦ rfl⟩
    simpa [h.id_eq] using List.find?_eq_none.mp hfind i (List.mem_range.mpr h.lt)
  | some j =>
    obtain ⟨hid, hlt, hfirst⟩ := List.find?_range_eq_some.mp hfind
    rw [decide_eq_true_eq] at hid
    rw [List.mem_range] at hlt
    simp only [Bool.not_eq_true', decide_eq_false_iff_not] at hfirst
    have hsum : checkedAdd 64 (fileOffset image j) (fileSize image j)
        = some (fileOffset image j + fileSize image j) := by
      have hoffset : fileOffset image j < 2 ^ 32 := field_lt ..
      have hsize : fileSize image j < 2 ^ 32 := field_lt ..
      exact checkedAdd_eq_some.mpr ⟨by omega, rfl⟩
    have hunique : ∀ i, Serves image id i → i = j := by
      intro i h
      rcases lt_trichotomy i j with hij | hij | hij
      · exact absurd h.id_eq (hfirst i hij)
      · exact hij
      · exact absurd hid (h.first j hij)
    simp only [Option.map_some, hsum]
    by_cases hinside : image.length < fileOffset image j + fileSize image j
    · rw [if_pos hinside]
      refine ⟨fun i h ↦ ?_, fun _ ↦ rfl⟩
      obtain rfl := hunique i h
      exact absurd h.inside (Nat.not_le.mpr hinside)
    · rw [if_neg hinside, readAt, if_pos (by omega)]
      refine ⟨fun i h ↦ ?_, fun hnone ↦ ?_⟩
      · rw [hunique i h]
        rfl
      · exact absurd ⟨j, by omega, by omega, hlt, hid, hfirst, by omega⟩ hnone

end Ramfs

end Gaxera

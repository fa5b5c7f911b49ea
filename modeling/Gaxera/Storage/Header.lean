import Gaxera.Data.Decoder

/-!
# Object headers and journal records on disk

A header is written as its fields one after the other, each of its three lists with a count in
front and each string with a length, and a checksum over all of it at the end. Reading goes the same
way: the last 32 bytes are taken for the checksum, and the body is decoded from the front. What is
left of the body after the last relationship is never looked at.

Reading undoes writing as long as the counts and lengths fit their fields. The other way round
nothing protects the decoder: the checksum has no key, so the counts and lengths it goes by are
whatever the author of the bytes wanted. `HeaderFits` says of a body what those numbers have to
satisfy for the decoder to stay inside it.
-/

namespace Gaxera

open Decoder

inductive StorageError
  | ioError (message : String)
  | outOfBounds (requested max : ℕ)
  | checksumMismatch
  | deviceNotReady
deriving DecidableEq

abbrev Checksum := Vector UInt8 32

/-- `rotate_left` of a byte, by less than eight. -/
def rotateLeft (byte : UInt8) (n : ℕ) : UInt8 :=
  UInt8.ofNat (byte.toNat <<< n ||| byte.toNat >>> (8 - n))

def mixByte (hash : Checksum) (entry : UInt8 × ℕ) : Checksum :=
  let i := entry.2
  let hash := hash.set (i % 32) (hash[i % 32] + entry.1 + UInt8.ofNat i * 31)
  hash.set ((i % 32 + 7) % 32) (hash[(i % 32 + 7) % 32] ^^^ rotateLeft entry.1 (i % 7))

def computeChecksum (data : List UInt8) : Checksum :=
  data.zipIdx.foldl mixByte (Vector.replicate 32 0)

def verifyChecksum (data : List UInt8) (expected : Checksum) : Bool :=
  computeChecksum data == expected

/-- The last 32 bytes. -/
def lastBytes (buf : List UInt8) : Checksum :=
  Vector.ofFn fun i : Fin 32 ↦ buf.getD (buf.length - 32 + i) 0

/-- Both decoders take the checksum off the end and check it before they look at the body. -/
def decodeChecked {α : Type} (least : ℕ) (decode : Checksum → Decoder StorageError α)
    (buf : List UInt8) : Decoded StorageError α :=
  if buf.length < least + 32 then .error (.outOfBounds buf.length (least + 32))
  else
    let body := buf.take (buf.length - 32)
    if verifyChecksum body (lastBytes buf) then decode (lastBytes buf) body
    else .error .checksumMismatch

variable {α : Type} {least : ℕ} {decode : Checksum → Decoder StorageError α}

/-- The bytes with their checksum behind them. -/
def withChecksum (body : List UInt8) : List UInt8 := body ++ (computeChecksum body).toList

theorem length_withChecksum (body : List UInt8) :
    (withChecksum body).length = body.length + 32 := by
  simp [withChecksum]

theorem take_withChecksum (body : List UInt8) :
    (withChecksum body).take ((withChecksum body).length - 32) = body := by
  rw [length_withChecksum, Nat.add_sub_cancel, withChecksum, List.take_left]

theorem lastBytes_withChecksum (body : List UInt8) :
    lastBytes (withChecksum body) = computeChecksum body := by
  ext i hi
  simp [lastBytes, withChecksum]

variable {body : List UInt8}

theorem decodeChecked_withChecksum (hbody : least ≤ body.length) :
    decodeChecked least decode (withChecksum body) = decode (computeChecksum body) body := by
  have hlength := length_withChecksum body
  rw [decodeChecked, if_neg (by omega), take_withChecksum, lastBytes_withChecksum]
  exact if_pos (beq_self_eq_true _)

/-! ## The header -/

abbrev GaxObjectId := Vector UInt8 16

structure ExtentDescriptor where
  startBlock : UInt64
  numBlocks : UInt32
deriving DecidableEq

inductive RelationshipKind
  | generatedFrom
  | dependsOn
  | references
  | contains
  | belongsTo
deriving DecidableEq

def RelationshipKind.raw : RelationshipKind → ℕ
  | .generatedFrom => 1
  | .dependsOn => 2
  | .references => 3
  | .contains => 4
  | .belongsTo => 5

structure RelationshipEdge where
  kind : RelationshipKind
  targetId : GaxObjectId
deriving DecidableEq

structure GaxFsObjectHeader where
  objectId : GaxObjectId
  payloadSize : UInt64
  extents : List ExtentDescriptor
  attributes : List (String × String)
  relationships : List RelationshipEdge
  checksum : Checksum
deriving DecidableEq

/-- The bytes of a string. -/
def utf8 (s : String) : List UInt8 := s.toByteArray.data.toList

/-- `String::from_utf8` -/
def fromUtf8 (bytes : List UInt8) : Option String := String.fromUTF8? ⟨bytes.toArray⟩

theorem fromUtf8_utf8 (s : String) : fromUtf8 (utf8 s) = some s := by
  have : (⟨(utf8 s).toArray⟩ : ByteArray) = s.toByteArray := by simp [utf8]
  rw [fromUtf8, this, String.fromUTF8?, dif_pos s.isValidUTF8]
  rfl

def encodeString (s : String) : List UInt8 := word 2 (utf8 s).length ++ utf8 s

def encodeExtent (extent : ExtentDescriptor) : List UInt8 :=
  word 8 extent.startBlock.toNat ++ word 4 extent.numBlocks.toNat

def encodeAttribute (pair : String × String) : List UInt8 :=
  encodeString pair.1 ++ encodeString pair.2

def encodeRelationship (edge : RelationshipEdge) : List UInt8 :=
  word 2 edge.kind.raw ++ edge.targetId.toList

namespace GaxFsObjectHeader

def encodeBody (header : GaxFsObjectHeader) : List UInt8 :=
  header.objectId.toList ++ word 8 header.payloadSize.toNat ++
    list encodeExtent header.extents ++ list encodeAttribute header.attributes ++
    list encodeRelationship header.relationships

def serialize (header : GaxFsObjectHeader) : List UInt8 := withChecksum header.encodeBody

def updateChecksum (header : GaxFsObjectHeader) : GaxFsObjectHeader :=
  { header with checksum := computeChecksum header.encodeBody }

def new (objectId : GaxObjectId) (payloadSize : UInt64) : GaxFsObjectHeader :=
  updateChecksum ⟨objectId, payloadSize, [], [], [], Vector.replicate 32 0⟩

end GaxFsObjectHeader

def readString : Decoder StorageError String := do
  let bytes ← readBytes (← readWord 2)
  match fromUtf8 bytes with
  | some s => pure s
  | none => fail .checksumMismatch

def readExtent : Decoder StorageError ExtentDescriptor := do
  let startBlock ← readWord 8
  let numBlocks ← readWord 4
  pure ⟨UInt64.ofNat startBlock, UInt32.ofNat numBlocks⟩

def readAttribute : Decoder StorageError (String × String) := do
  let k ← readString
  let v ← readString
  pure (k, v)

def RelationshipKind.ofRaw : ℕ → Option RelationshipKind
  | 1 => some .generatedFrom
  | 2 => some .dependsOn
  | 3 => some .references
  | 4 => some .contains
  | 5 => some .belongsTo
  | _ => none

def readRelationship : Decoder StorageError RelationshipEdge := do
  match RelationshipKind.ofRaw (← readWord 2) with
  | none => fail .checksumMismatch
  | some kind => pure ⟨kind, ← readArray 16⟩

namespace GaxFsObjectHeader

def decodeBody (expected : Checksum) : Decoder StorageError GaxFsObjectHeader := do
  let objectId ← readArray 16
  let payloadSize ← readWord 8
  let extents ← readList 12 readExtent
  let attributes ← readList 4 readAttribute
  let relationships ← readList 18 readRelationship
  pure ⟨objectId, UInt64.ofNat payloadSize, extents, attributes, relationships, expected⟩

/-- What is left of the body is part of the answer here; the caller never sees it. -/
def deserialize (buf : List UInt8) : Decoded StorageError GaxFsObjectHeader :=
  decodeChecked 28 decodeBody buf

end GaxFsObjectHeader

/-! ## Writing and reading back -/

theorem readString_readsBack {s : String} (hs : (utf8 s).length < 2 ^ 16) :
    readString.ReadsBack encodeString s := by
  intro rest
  rw [encodeString, List.append_assoc, readString, bind_of_ok (readWord_word _ _ _),
    Nat.mod_eq_of_lt (by simpa using hs), bind_of_ok (readBytes_append rfl _), fromUtf8_utf8]
  rfl

theorem readExtent_readsBack (extent : ExtentDescriptor) :
    readExtent.ReadsBack encodeExtent extent := by
  intro rest
  have h64 := extent.startBlock.toNat_lt
  have h32 := extent.numBlocks.toNat_lt
  rw [encodeExtent, List.append_assoc, readExtent, bind_of_ok (readWord_word _ _ _),
    bind_of_ok (readWord_word _ _ _), Nat.mod_eq_of_lt (by simpa using h64),
    Nat.mod_eq_of_lt (by simpa using h32), UInt64.ofNat_toNat, UInt32.ofNat_toNat]
  rfl

theorem readAttribute_readsBack {pair : String × String}
    (hk : (utf8 pair.1).length < 2 ^ 16) (hv : (utf8 pair.2).length < 2 ^ 16) :
    readAttribute.ReadsBack encodeAttribute pair := by
  intro rest
  rw [encodeAttribute, List.append_assoc, readAttribute, bind_of_ok (readString_readsBack hk _),
    bind_of_ok (readString_readsBack hv _)]
  rfl

theorem readRelationship_readsBack (edge : RelationshipEdge) :
    readRelationship.ReadsBack encodeRelationship edge := by
  intro rest
  have hraw : RelationshipKind.ofRaw (edge.kind.raw % 256 ^ 2) = some edge.kind := by
    rcases edge with ⟨- | - | - | - | -, targetId⟩ <;> rfl
  rw [encodeRelationship, List.append_assoc, readRelationship, bind_of_ok (readWord_word _ _ _),
    hraw]
  exact bind_of_ok (readArray_readsBack edge.targetId rest)

namespace GaxFsObjectHeader

/-- Every count fits its 32 bits and every length its 16 bits. -/
structure Fits (header : GaxFsObjectHeader) : Prop where
  extents : header.extents.length < 2 ^ 32
  attributes : header.attributes.length < 2 ^ 32
  relationships : header.relationships.length < 2 ^ 32
  strings : ∀ pair ∈ header.attributes,
    (utf8 pair.1).length < 2 ^ 16 ∧ (utf8 pair.2).length < 2 ^ 16

theorem length_encodeBody_ge (header : GaxFsObjectHeader) : 28 ≤ header.encodeBody.length := by
  simp [encodeBody, list]
  omega

/-- **A body is decoded where it was encoded**, and what stands behind it is left. -/
theorem decodeBody_encodeBody {header : GaxFsObjectHeader} (hfits : header.Fits)
    (expected : Checksum) (rest : List UInt8) :
    decodeBody expected (header.encodeBody ++ rest) =
      .ok { header with checksum := expected } rest := by
  have h64 := header.payloadSize.toNat_lt
  have hextents : (readList 12 readExtent).ReadsBack (list encodeExtent) header.extents :=
    readList_readsBack (by simp [encodeExtent]) hfits.extents fun e _ ↦ readExtent_readsBack e
  have hattributes : (readList 4 readAttribute).ReadsBack (list encodeAttribute)
      header.attributes :=
    readList_readsBack (by simp [encodeAttribute, encodeString]; omega) hfits.attributes
      fun _ h ↦ readAttribute_readsBack (hfits.strings _ h).1 (hfits.strings _ h).2
  have hrelationships : (readList 18 readRelationship).ReadsBack (list encodeRelationship)
      header.relationships :=
    readList_readsBack (by simp [encodeRelationship]) hfits.relationships
      fun edge _ ↦ readRelationship_readsBack edge
  simp only [encodeBody, List.append_assoc]
  rw [decodeBody, bind_of_ok (readArray_readsBack _ _), bind_of_ok (readWord_word _ _ _),
    bind_of_ok (hextents _), bind_of_ok (hattributes _), bind_of_ok (hrelationships _),
    Nat.mod_eq_of_lt (by simpa using h64), UInt64.ofNat_toNat]
  rfl

theorem deserialize_serialize {header : GaxFsObjectHeader} (hfits : header.Fits) :
    deserialize header.serialize = .ok header.updateChecksum [] := by
  have h := decodeBody_encodeBody hfits (computeChecksum header.encodeBody) []
  rw [List.append_nil] at h
  rw [deserialize, serialize, decodeChecked_withChecksum header.length_encodeBody_ge, h]
  rfl

/-- Reading gives back what was written, with the checksum of the body, so headers that are written
the same are the same up to their checksum. -/
theorem serialize_round_trip (header : GaxFsObjectHeader) (hfits : header.Fits) :
    deserialize header.serialize =
      .ok { header with checksum := computeChecksum header.encodeBody } [] ∧
    ∀ other : GaxFsObjectHeader, other.Fits → other.serialize = header.serialize →
      { other with checksum := header.checksum } = header := by
  refine ⟨deserialize_serialize hfits, fun other hother heq ↦ ?_⟩
  have h := deserialize_serialize hother
  rw [heq, deserialize_serialize hfits] at h
  obtain ⟨hid, hsize, hextents, hattributes, hrelationships, -⟩ :=
    GaxFsObjectHeader.mk.inj (Decoded.ok.inj h).1
  simp only [← hid, ← hsize, ← hextents, ← hattributes, ← hrelationships]

/-- A header with something in each of its lists. -/
def taggedHeader : GaxFsObjectHeader :=
  ⟨Vector.replicate 16 1, 4096, [⟨64, 8⟩], [("author", "nyx")],
    [⟨.generatedFrom, Vector.replicate 16 2⟩], Vector.replicate 32 0⟩

theorem taggedHeader_round_trip :
    deserialize taggedHeader.serialize =
      .ok { taggedHeader with checksum := computeChecksum taggedHeader.encodeBody } [] :=
  (serialize_round_trip taggedHeader
    ⟨by decide, by decide, by decide, by
      intro pair hpair
      obtain rfl := List.mem_singleton.mp hpair
      exact ⟨by decide +kernel, by decide +kernel⟩⟩).1

end GaxFsObjectHeader

/-! ## Accepting only what was written -/

structure JournalRecord where
  transactionId : UInt64
  targetBlock : UInt64
  blockData : List UInt8
  checksum : Checksum
deriving DecidableEq

namespace JournalRecord

def decodeBody (expected : Checksum) : Decoder StorageError JournalRecord := do
  let transactionId ← readWord 8
  let targetBlock ← readWord 8
  let blockData ← readBytes (← readWord 4)
  pure ⟨UInt64.ofNat transactionId, UInt64.ofNat targetBlock, blockData, expected⟩

def deserialize (buf : List UInt8) : Decoded StorageError JournalRecord :=
  decodeChecked 20 decodeBody buf

end JournalRecord

/-- `Ok` or `Err`, with no access outside the buffer and no reservation beyond it. -/
def Decoded.IsAnswer {α : Type} : Decoded StorageError α → Prop
  | .ok _ _ | .error _ => True
  | .outOfBounds | .overReserved => False

/-- A string's length and bytes are there; what follows matters only if the string is one. -/
def StringFits (next : List UInt8 → Prop) (bytes : List UInt8) : Prop :=
  2 + wordOf 2 bytes ≤ bytes.length ∧ 2 ≤ bytes.length ∧
    ((fromUtf8 ((bytes.drop 2).take (wordOf 2 bytes))).isSome →
      next (bytes.drop (2 + wordOf 2 bytes)))

def AttributesFit (next : List UInt8 → Prop) : ℕ → List UInt8 → Prop
  | 0 => next
  | n + 1 => StringFits (StringFits (AttributesFit next n))

/-- A count, with room behind it for that many entries of the given size. -/
def CountFits (size : ℕ) (bytes : List UInt8) : Prop := 4 + wordOf 4 bytes * size ≤ bytes.length

/-- **What the numbers in a body have to satisfy.** Every count leaves room for that many entries,
at 12, 4 and 18 bytes each, and every string is there. -/
def HeaderFits (body : List UInt8) : Prop :=
  let extents := body.drop 24
  let attributes := extents.drop (4 + wordOf 4 extents * 12)
  CountFits 12 extents ∧ CountFits 4 attributes ∧
    AttributesFit (CountFits 18) (wordOf 4 attributes) (attributes.drop 4)

variable {bytes : List UInt8} {next : List UInt8 → Prop}

theorem answers_readString :
    readString.Answers bytes (fun _ rest ↦ next rest) ↔ StringFits next bytes := by
  rw [readString, answers_bind, answers_readWord, answers_bind, answers_readBytes, StringFits,
    List.length_drop, List.drop_drop]
  rcases hs : fromUtf8 ((bytes.drop 2).take (wordOf 2 bytes)) with - | s
  · simp only [answers_fail, Option.isSome_none]
    constructor
    · rintro ⟨h2, h, -⟩
      exact ⟨by omega, h2, by simp⟩
    · rintro ⟨h, h2, -⟩
      exact ⟨h2, by omega, trivial⟩
  · simp only [answers_pure, Option.isSome_some, forall_const]
    constructor
    · rintro ⟨h2, h, hnext⟩
      exact ⟨by omega, h2, hnext⟩
    · rintro ⟨h, h2, hnext⟩
      exact ⟨h2, by omega, hnext⟩

theorem answers_attributes (n : ℕ) (bytes : List UInt8) :
    (times readAttribute n).Answers bytes (fun _ rest ↦ next rest) ↔
      AttributesFit next n bytes := by
  induction n generalizing bytes with
  | zero => exact answers_pure
  | succ n ih =>
    have hpair (next : List UInt8 → Prop) : readAttribute.Answers bytes (fun _ rest ↦ next rest) ↔
        StringFits (StringFits next) bytes := by
      simp only [readAttribute, answers_bind, answers_pure, answers_readString]
    rw [answers_times_succ, hpair, AttributesFit]
    simp only [ih]

theorem answers_extents :
    (readList 12 readExtent).Answers bytes (fun _ rest ↦ next rest) ↔
      CountFits 12 bytes ∧ next (bytes.drop (4 + wordOf 4 bytes * 12)) := by
  have hextent (bytes : List UInt8) (next : List UInt8 → Prop) :
      readExtent.Answers bytes (fun _ rest ↦ next rest) ↔
        12 ≤ bytes.length ∧ next (bytes.drop 12) := by
    simp only [readExtent, answers_bind, answers_pure, answers_readWord, List.length_drop,
      List.drop_drop, ← and_assoc]
    exact and_congr_left fun _ ↦ by omega
  rw [answers_readList, answers_times hextent, List.length_drop, List.drop_drop, ← and_assoc]
  exact and_congr_left fun _ ↦ by rw [CountFits]; omega

/-- The last list has to be announced truthfully, and then nothing can go wrong in it. -/
theorem answers_relationships :
    (readList 18 readRelationship).Answers bytes (fun _ _ ↦ True) ↔ CountFits 18 bytes := by
  have hedges (n : ℕ) : ∀ bytes : List UInt8, n * 18 ≤ bytes.length →
      (times readRelationship n).Answers bytes (fun _ _ ↦ True) := by
    induction n with
    | zero => exact fun _ _ ↦ trivial
    | succ n ih =>
      intro bytes hn
      rw [answers_times_succ, readRelationship, answers_bind, answers_readWord]
      refine ⟨by omega, ?_⟩
      rcases RelationshipKind.ofRaw (wordOf 2 bytes) with - | kind
      · trivial
      · have hrest := ih (bytes.drop 18) (by rw [List.length_drop]; omega)
        simp only [answers_bind, answers_pure, answers_readArray, List.length_drop, List.drop_drop]
        exact ⟨by omega, hrest⟩
  rw [answers_readList, CountFits, and_iff_left_iff_imp]
  intro h
  exact hedges _ _ (by rw [List.length_drop]; omega)

theorem answers_header (expected : Checksum) (hbody : 28 ≤ body.length) :
    (GaxFsObjectHeader.decodeBody expected).Answers body (fun _ _ ↦ True) ↔ HeaderFits body := by
  simp only [GaxFsObjectHeader.decodeBody, answers_bind, answers_pure, answers_readWord,
    answers_readArray, answers_relationships, answers_extents]
  simp only [answers_readList (d := readAttribute), answers_attributes, HeaderFits, CountFits,
    List.length_drop, List.drop_drop, Nat.reduceAdd]
  constructor
  · rintro ⟨-, -, hextents, hattributes⟩
    exact ⟨hextents, hattributes⟩
  · rintro ⟨hextents, hattributes⟩
    exact ⟨by omega, by omega, hextents, hattributes⟩

theorem answers_record (expected : Checksum) (hbody : 20 ≤ body.length) :
    (JournalRecord.decodeBody expected).Answers body (fun _ _ ↦ True) ↔
      20 + wordOf 4 (body.drop 16) ≤ body.length := by
  simp only [JournalRecord.decodeBody, answers_bind, answers_pure, answers_readWord,
    answers_readBytes, List.length_drop, List.drop_drop, and_true, Nat.reduceAdd]
  omega

theorem isAnswer_decodeChecked {fits : List UInt8 → Prop}
    (hfits : ∀ expected body, least ≤ body.length →
      ((decode expected).Answers body (fun _ _ ↦ True) ↔ fits body)) (buf : List UInt8) :
    (decodeChecked least decode buf).IsAnswer ↔ buf.length < least + 32 ∨
      verifyChecksum (buf.take (buf.length - 32)) (lastBytes buf) = false ∨
      fits (buf.take (buf.length - 32)) := by
  unfold decodeChecked
  by_cases hshort : buf.length < least + 32
  · simp [hshort, Decoded.IsAnswer]
  · rcases hverify : verifyChecksum (buf.take (buf.length - 32)) (lastBytes buf)
    · simp [hshort, hverify, Decoded.IsAnswer]
    · rw [← hfits (lastBytes buf) _ (by rw [List.length_take]; omega)]
      simp only [hshort, hverify, if_false, if_true, false_or, Bool.true_eq_false]
      unfold Decoded.IsAnswer Answers
      rcases decode (lastBytes buf) _ with - | - | - | - <;> rfl

/-- **Exactly when the decoders stay inside the buffer.** A buffer that is too short or has the
wrong checksum is turned away. Any other is decoded safely if and only if the counts and lengths in
it announce no more than what follows them. -/
theorem decoders_answer_iff (buf : List UInt8) :
    ((GaxFsObjectHeader.deserialize buf).IsAnswer ↔ buf.length < 60 ∨
      verifyChecksum (buf.take (buf.length - 32)) (lastBytes buf) = false ∨
      HeaderFits (buf.take (buf.length - 32))) ∧
    ((JournalRecord.deserialize buf).IsAnswer ↔ buf.length < 52 ∨
      verifyChecksum (buf.take (buf.length - 32)) (lastBytes buf) = false ∨
      20 + wordOf 4 ((buf.take (buf.length - 32)).drop 16) ≤ buf.length - 32) := by
  refine ⟨isAnswer_decodeChecked (fun e _ h ↦ answers_header e h) buf, ?_⟩
  have h := isAnswer_decodeChecked (fun e _ h ↦ answers_record e h) buf
  rwa [List.length_take, Nat.min_eq_left (Nat.sub_le _ _)] at h

/-- A body of 28 bytes passes the length check and ends before its second count; memory is set
aside for any number of extents; and a record may announce one byte more than it has. -/
theorem crafted_bytes_are_read_out_of_bounds :
    GaxFsObjectHeader.deserialize (withChecksum (List.replicate 28 0)) = .outOfBounds ∧
    GaxFsObjectHeader.deserialize
      (withChecksum (List.replicate 24 0 ++ word 4 (2 ^ 32 - 1) ++ List.replicate 8 0)) =
        .overReserved ∧
    JournalRecord.deserialize (withChecksum (List.replicate 16 0 ++ word 4 1)) =
      .outOfBounds := by
  refine ⟨by decide +kernel, by decide +kernel, by decide +kernel⟩

end Gaxera

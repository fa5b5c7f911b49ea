import Gaxera.Storage.Header

/-!
# The storage engine

The engine keeps three things in memory: the device, the active one of two superblocks and a bitmap
of the blocks it has given out. An object is written in three strokes, each of them whole blocks:
its payload, its header, and a superblock of the next generation into the slot that is not active.
The bitmap is never written; a mounted engine starts with an empty one in which it marks the first
66 blocks, a formatted engine with an empty one.

Of the device no more is assumed than that it gives back what was last stored; it may refuse any
call. Its `log` is no part of the program. It is there to say what is on the disk when the power
goes off between two writes.
-/

namespace Gaxera

open Decoder

/-! ## Extents -/

/-- The blocks of an extent. -/
def ExtentDescriptor.Covers (extent : ExtentDescriptor) (b : ℕ) : Prop :=
  extent.startBlock.toNat ≤ b ∧ b < extent.startBlock.toNat + extent.numBlocks.toNat

instance (extent : ExtentDescriptor) (b : ℕ) : Decidable (extent.Covers b) :=
  inferInstanceAs (Decidable (_ ∧ _))

/-- The bitmap, bit by bit. It has to fit into memory, so no block number comes near `2 ^ 64`. -/
structure ExtentAllocator where
  totalBlocks : UInt64
  eraseBlockAlign : ℕ
  allocated : ℕ → Bool

namespace ExtentAllocator

def new (totalBlocks : UInt64) (eraseBlockAlign : ℕ) : ExtentAllocator :=
  ⟨totalBlocks, eraseBlockAlign, fun _ ↦ false⟩

/-- The loop of `allocate_extent`. Every round moves on by a block at least, so one more round than
there are blocks is enough. -/
def search (a : ExtentAllocator) (requested : ℕ) : ℕ → ℕ → Option ℕ
  | 0, _ => none
  | rounds + 1, curr =>
    if a.totalBlocks.toNat < curr + requested then none
    else if curr % max a.eraseBlockAlign 1 ≠ 0 then
      a.search requested rounds ((curr / max a.eraseBlockAlign 1 + 1) * max a.eraseBlockAlign 1)
    else match (List.range' curr requested).find? a.allocated with
      | some b => a.search requested rounds (b + 1)
      | none => some curr

def mark (a : ExtentAllocator) (extent : ExtentDescriptor) : ExtentAllocator :=
  { a with allocated := fun b ↦ a.allocated b || decide (extent.Covers b) }

def allocateExtent (a : ExtentAllocator) (requested : UInt32) :
    Except StorageError (ExtentDescriptor × ExtentAllocator) :=
  if requested = 0 then .error (.outOfBounds 0 a.totalBlocks.toNat)
  else match a.search requested.toNat (a.totalBlocks.toNat + 1) 0 with
    | none => .error (.outOfBounds requested.toNat a.totalBlocks.toNat)
    | some start =>
      .ok (⟨UInt64.ofNat start, requested⟩, a.mark ⟨UInt64.ofNat start, requested⟩)

variable {a : ExtentAllocator}

theorem search_some {requested : ℕ} {rounds curr start : ℕ}
    (h : a.search requested rounds curr = some start) :
    start + requested ≤ a.totalBlocks.toNat ∧
      ∀ b, start ≤ b → b < start + requested → a.allocated b = false := by
  induction rounds generalizing curr with
  | zero => cases h
  | succ rounds ih =>
    rw [search] at h
    split_ifs at h with hroom halign
    · exact ih h
    · split at h
      · exact ih h
      · next hfree =>
        obtain rfl := Option.some.inj h
        refine ⟨by omega, fun b hb hb' ↦ ?_⟩
        have hmem : b ∈ List.range' curr requested := List.mem_range'_1.mpr ⟨hb, hb'⟩
        simpa using List.find?_eq_none.mp hfree b hmem

variable {requested : UInt32}

/-- **What an allocation gives.** Blocks of the device that were free, and are marked now. -/
theorem allocateExtent_ok {a' : ExtentAllocator} {extent : ExtentDescriptor}
    (h : a.allocateExtent requested = .ok (extent, a')) :
    extent.numBlocks = requested ∧ requested ≠ 0 ∧ a' = a.mark extent ∧
      extent.startBlock.toNat + extent.numBlocks.toNat ≤ a.totalBlocks.toNat ∧
      ∀ b, extent.Covers b → a.allocated b = false := by
  rw [allocateExtent] at h
  split_ifs at h with hzero
  rcases hsearch : a.search requested.toNat (a.totalBlocks.toNat + 1) 0 with - | start
  · rw [hsearch] at h
    cases h
  · rw [hsearch] at h
    obtain ⟨rfl, rfl⟩ := Prod.mk.inj (Except.ok.inj h)
    obtain ⟨hroom, hfree⟩ := search_some hsearch
    have hstart : (UInt64.ofNat start).toNat = start :=
      UInt64.toNat_ofNat_of_lt' (by have := a.totalBlocks.toNat_lt; show start < 2 ^ 64; omega)
    refine ⟨rfl, hzero, rfl, by rwa [hstart], fun b hb ↦ hfree b ?_ ?_⟩
    · exact hstart ▸ hb.1
    · exact hstart ▸ hb.2

theorem allocateExtent_new {total : UInt64} {align : ℕ} (hzero : requested ≠ 0)
    (hroom : requested.toNat ≤ total.toNat) :
    (new total align).allocateExtent requested =
      .ok (⟨0, requested⟩, (new total align).mark ⟨0, requested⟩) := by
  have hfind : (List.range' 0 requested.toNat).find? (new total align).allocated = none :=
    List.find?_eq_none.mpr fun _ _ ↦ Bool.false_ne_true
  have hsearch : (new total align).search requested.toNat (total.toNat + 1) 0 = some 0 := by
    rw [search, if_neg (by simpa [new] using hroom), if_neg (by simp), hfind]
  rw [allocateExtent, if_neg hzero, show (new total align).totalBlocks = total from rfl, hsearch]
  rfl

theorem allocateExtent_new_covers {total : UInt64} {align : ℕ} {extent : ExtentDescriptor}
    (h : (new total align).allocateExtent requested = .ok (extent, a)) : extent.Covers 0 := by
  obtain ⟨hnum, hzero, -, hroom, -⟩ := allocateExtent_ok h
  have htotal : requested.toNat ≤ total.toNat := hnum ▸ (Nat.le_add_left _ _).trans hroom
  rw [allocateExtent_new hzero htotal] at h
  obtain ⟨rfl, -⟩ := Prod.mk.inj (Except.ok.inj h)
  have hpos : requested.toNat ≠ 0 := fun h ↦ hzero (UInt32.toNat_inj.mp h)
  exact ⟨Nat.zero_le _, by simpa using Nat.pos_of_ne_zero hpos⟩

end ExtentAllocator

/-! ## Superblocks -/

/-- `resize` with zeros. -/
def resize (bytes : List UInt8) (n : ℕ) : List UInt8 :=
  (bytes ++ List.replicate (n - bytes.length) 0).take n

theorem length_resize (bytes : List UInt8) (n : ℕ) : (resize bytes n).length = n := by
  simp [resize]
  omega

theorem resize_of_le {bytes : List UInt8} {n : ℕ} (h : bytes.length ≤ n) :
    resize bytes n = bytes ++ List.replicate (n - bytes.length) 0 :=
  List.take_of_length_le (by simp; omega)

def superblockMagic : UInt64 := 0x47415846535F5342

structure SuperblockHeader where
  magic : UInt64
  generation : UInt64
  blockSize : UInt32
  totalBlocks : UInt64
  rootObject : GaxObjectId
  journalStartBlock : UInt64
  journalBlockCount : UInt32
  checksum : Checksum
deriving DecidableEq

namespace SuperblockHeader

/-- The first 56 bytes. -/
def fields (sb : SuperblockHeader) : List UInt8 :=
  word 8 sb.magic.toNat ++ word 8 sb.generation.toNat ++ word 4 sb.blockSize.toNat ++
    word 8 sb.totalBlocks.toNat ++ sb.rootObject.toList ++ word 8 sb.journalStartBlock.toNat ++
    word 4 sb.journalBlockCount.toNat

def updateChecksum (sb : SuperblockHeader) : SuperblockHeader :=
  { sb with checksum := computeChecksum sb.fields }

def new (generation : UInt64) (blockSize : UInt32) (totalBlocks : UInt64)
    (rootObject : GaxObjectId) (journalStartBlock : UInt64) (journalBlockCount : UInt32) :
    SuperblockHeader :=
  updateChecksum ⟨superblockMagic, generation, blockSize, totalBlocks, rootObject,
    journalStartBlock, journalBlockCount, Vector.replicate 32 0⟩

/-- Into a buffer of at least 512 bytes. -/
def serialize (sb : SuperblockHeader) (length : ℕ) : List UInt8 :=
  resize (withChecksum sb.fields) length

def decode (buf : List UInt8) : Decoder StorageError SuperblockHeader := do
  let magic ← readWord 8
  if UInt64.ofNat magic ≠ superblockMagic then fail .checksumMismatch
  else do
    let generation ← readWord 8
    let blockSize ← readWord 4
    let totalBlocks ← readWord 8
    let rootObject ← readArray 16
    let journalStartBlock ← readWord 8
    let journalBlockCount ← readWord 4
    let expected ← readArray 32
    if verifyChecksum (buf.take 56) expected then
      pure ⟨UInt64.ofNat magic, UInt64.ofNat generation, UInt32.ofNat blockSize,
        UInt64.ofNat totalBlocks, rootObject, UInt64.ofNat journalStartBlock,
        UInt32.ofNat journalBlockCount, expected⟩
    else fail .checksumMismatch

/-- `Ok` as `some`: nobody asks why a slot is not valid. -/
def deserialize (buf : List UInt8) : Option SuperblockHeader :=
  if buf.length < 512 then none
  else match decode buf buf with
    | .ok sb _ => some sb
    | _ => none

theorem length_fields (sb : SuperblockHeader) : sb.fields.length = 56 := by
  simp [fields]

private theorem toNat_mod_256_pow_8 (x : UInt64) : x.toNat % 256 ^ 8 = x.toNat :=
  Nat.mod_eq_of_lt (by simpa using x.toNat_lt)

private theorem toNat_mod_256_pow_4 (x : UInt32) : x.toNat % 256 ^ 4 = x.toNat :=
  Nat.mod_eq_of_lt (by simpa using x.toNat_lt)

variable {sb : SuperblockHeader}

private theorem decode_fields {buf : List UInt8} (hmagic : sb.magic = superblockMagic)
    (hverify : verifyChecksum (buf.take 56) sb.checksum = true) (rest : List UInt8) :
    decode buf (sb.fields ++ (sb.checksum.toList ++ rest)) = .ok sb rest := by
  simp only [fields, List.append_assoc]
  rw [decode, bind_of_ok (readWord_word _ _ _), toNat_mod_256_pow_8, UInt64.ofNat_toNat,
    if_neg (not_not.mpr hmagic), bind_of_ok (readWord_word _ _ _), bind_of_ok (readWord_word _ _ _),
    bind_of_ok (readWord_word _ _ _), bind_of_ok (readArray_readsBack _ _),
    bind_of_ok (readWord_word _ _ _), bind_of_ok (readWord_word _ _ _),
    bind_of_ok (readArray_readsBack _ _), if_pos hverify, toNat_mod_256_pow_8, toNat_mod_256_pow_8,
    toNat_mod_256_pow_8, toNat_mod_256_pow_4, toNat_mod_256_pow_4]
  simp only [UInt64.ofNat_toNat, UInt32.ofNat_toNat]
  rfl

theorem deserialize_serialize {length : ℕ} (hmagic : sb.magic = superblockMagic)
    (hchecksum : sb.checksum = computeChecksum sb.fields) (hlength : 512 ≤ length) :
    deserialize (sb.serialize length) = some sb := by
  have hbytes : sb.serialize length = sb.fields ++ (sb.checksum.toList ++
      List.replicate (length - (withChecksum sb.fields).length) 0) := by
    have hfits : (withChecksum sb.fields).length ≤ length := by
      simp [withChecksum, length_fields]
      omega
    rw [serialize, resize_of_le hfits, withChecksum, List.append_assoc, hchecksum]
  have hverify : verifyChecksum ((sb.serialize length).take 56) sb.checksum = true := by
    rw [hbytes, List.take_left' sb.length_fields, verifyChecksum, hchecksum]
    exact beq_self_eq_true _
  have hdecode := decode_fields hmagic hverify
    (List.replicate (length - (withChecksum sb.fields).length) 0)
  rw [← hbytes] at hdecode
  rw [deserialize, if_neg (by rw [serialize, length_resize]; omega), hdecode]

theorem deserialize_serialize_updateChecksum {length : ℕ} (hmagic : sb.magic = superblockMagic)
    (hlength : 512 ≤ length) :
    deserialize (sb.updateChecksum.serialize length) = some sb.updateChecksum := by
  have hfields : sb.updateChecksum.fields = sb.fields := rfl
  have hchecksum : sb.updateChecksum.checksum = computeChecksum sb.updateChecksum.fields := by
    rw [hfields, updateChecksum]
  exact deserialize_serialize hmagic hchecksum hlength

end SuperblockHeader

structure DualSuperblockManager where
  activeSuperblock : SuperblockHeader
  activeIndex : ℕ
deriving DecidableEq

def DualSuperblockManager.recoverActive (sb0Buf sb1Buf : List UInt8) :
    Except StorageError DualSuperblockManager :=
  match SuperblockHeader.deserialize sb0Buf, SuperblockHeader.deserialize sb1Buf with
  | some sb0, some sb1 => if sb0.generation < sb1.generation then .ok ⟨sb1, 1⟩ else .ok ⟨sb0, 0⟩
  | some sb0, none => .ok ⟨sb0, 0⟩
  | none, some sb1 => .ok ⟨sb1, 1⟩
  | none, none => .error .checksumMismatch

/-! ## The device -/

/-- A call of `write_blocks`. -/
structure BlockWrite where
  startBlock : ℕ
  numBlocks : ℕ
  buf : List UInt8

/-- What the blocks hold once a write is stored. -/
def BlockWrite.apply (blockSize : ℕ) (blocks : ℕ → List UInt8) (w : BlockWrite) :
    ℕ → List UInt8 := fun b ↦
  if w.startBlock ≤ b ∧ b < w.startBlock + w.numBlocks then
    (w.buf.drop ((b - w.startBlock) * blockSize)).take blockSize
  else blocks b

structure StorageDevice where
  blockSize : UInt32
  totalBlocks : UInt64
  blocks : ℕ → List UInt8
  /-- Every write that was stored, in order. -/
  log : List BlockWrite
  /-- How the calls to come are refused, if they are. -/
  refuses : ℕ → Option StorageError

namespace StorageDevice

def next (d : StorageDevice) : StorageDevice := { d with refuses := fun n ↦ d.refuses (n + 1) }

def flushCache (d : StorageDevice) : Except StorageError StorageDevice :=
  match d.refuses 0 with
  | some e => .error e
  | none => .ok d.next

def stored (d : StorageDevice) (w : BlockWrite) : StorageDevice :=
  { d.next with blocks := w.apply d.blockSize.toNat d.blocks, log := d.log ++ [w] }

def writeBlocks (d : StorageDevice) (w : BlockWrite) : Except StorageError StorageDevice :=
  match d.refuses 0 with
  | some e => .error e
  | none => .ok (d.stored w)

def readBlocks (d : StorageDevice) (startBlock numBlocks : ℕ) : List UInt8 :=
  (List.range numBlocks).flatMap fun i ↦ d.blocks (startBlock + i)

end StorageDevice

/-! ## The engine -/

structure GaxStorageEngine where
  device : StorageDevice
  superblockMgr : DualSuperblockManager
  extentAllocator : ExtentAllocator

/-- What a failed operation has done to the engine stays done. -/
abbrev EngineM := EStateM StorageError GaxStorageEngine

/-- `div_ceil` -/
def divCeil (n d : ℕ) : ℕ := (n + d - 1) / d

/-- One block with a superblock in it. -/
def superblockWrite (blockSize : UInt32) (slot : ℕ) (sb : SuperblockHeader) : BlockWrite :=
  ⟨slot, 1, sb.serialize blockSize.toNat⟩

namespace GaxStorageEngine

def format (device : StorageDevice) (rootId : GaxObjectId) :
    Except StorageError GaxStorageEngine :=
  if device.totalBlocks < 128 then .error (.outOfBounds 128 device.totalBlocks.toNat)
  else do
    let sb := SuperblockHeader.new 1 device.blockSize device.totalBlocks rootId 2 64
    let device ← device.writeBlocks (superblockWrite device.blockSize 0 sb)
    let device ← device.writeBlocks (superblockWrite device.blockSize 1 sb)
    let device ← device.flushCache
    let buf := sb.serialize device.blockSize.toNat
    let superblockMgr ← DualSuperblockManager.recoverActive buf buf
    pure ⟨device, superblockMgr, .new device.totalBlocks 8⟩

/-- The blocks of superblocks and journal are marked with an ordinary allocation, and if that fails
it fails silently. -/
def mountedAllocator (totalBlocks : UInt64) : ExtentAllocator :=
  let fresh := ExtentAllocator.new totalBlocks 8
  match fresh.allocateExtent (2 + 64) with
  | .ok (_, extentAllocator) => extentAllocator
  | .error _ => fresh

def mount (device : StorageDevice) : Except StorageError GaxStorageEngine :=
  (DualSuperblockManager.recoverActive (device.readBlocks 0 1) (device.readBlocks 1 1)).map
    fun superblockMgr ↦ ⟨device, superblockMgr, mountedAllocator device.totalBlocks⟩

def allocateExtent (requested : UInt32) : EngineM ExtentDescriptor := fun e ↦
  match e.extentAllocator.allocateExtent requested with
  | .ok (extent, extentAllocator) => .ok extent { e with extentAllocator }
  | .error err => .error err e

/-- A call of the device; a refused one is over too. -/
def callDevice (call : StorageDevice → Except StorageError StorageDevice) : EngineM Unit := fun e ↦
  match call e.device with
  | .ok device => .ok () { e with device }
  | .error err => .error err { e with device := e.device.next }

/-- Payload and header are stored the same way: as many blocks as the bytes take, counted in 32
bits, and the bytes filled up with zeros or cut off to that length. -/
def storeBytes (bytes : List UInt8) : EngineM ExtentDescriptor := do
  let blockSize := (← get).device.blockSize.toNat
  let numBlocks := UInt32.ofNat (divCeil bytes.length blockSize)
  let extent ← allocateExtent numBlocks
  callDevice (·.writeBlocks ⟨extent.startBlock.toNat, numBlocks.toNat,
    resize bytes (numBlocks.toNat * blockSize)⟩)
  pure extent

/-- The payload's extent, if there is anything to store. -/
def storePayload (payload : List UInt8) : EngineM (List ExtentDescriptor) := do
  let numBlocks := UInt32.ofNat (divCeil payload.length (← get).device.blockSize.toNat)
  if numBlocks = 0 then pure [] else do pure [← storeBytes payload]

def objectHeader (objectId : GaxObjectId) (payload : List UInt8)
    (attributes : List (String × String)) (extents : List ExtentDescriptor) : GaxFsObjectHeader :=
  GaxFsObjectHeader.updateChecksum
    { GaxFsObjectHeader.new objectId (UInt64.ofNat payload.length) with extents, attributes }

/-- `write_object` up to its commit: the header, and the extent it is stored in. -/
def storeObject (objectId : GaxObjectId) (payload : List UInt8)
    (attributes : List (String × String)) : EngineM (GaxFsObjectHeader × ExtentDescriptor) := do
  let extents ← storePayload payload
  let header := objectHeader objectId payload attributes extents
  let headerExtent ← storeBytes header.serialize
  pure (header, headerExtent)

/-- The superblock of the next commit, and the slot it goes to. -/
def nextSuperblock (e : GaxStorageEngine) (newRootId : GaxObjectId) : DualSuperblockManager where
  activeSuperblock := .new (e.superblockMgr.activeSuperblock.generation + 1) e.device.blockSize
    e.device.totalBlocks newRootId e.superblockMgr.activeSuperblock.journalStartBlock
    e.superblockMgr.activeSuperblock.journalBlockCount
  activeIndex := if e.superblockMgr.activeIndex = 0 then 1 else 0

def commitGeneration (newRootId : GaxObjectId) : EngineM Unit := do
  let superblockMgr := (← get).nextSuperblock newRootId
  callDevice fun d ↦ d.writeBlocks
    (superblockWrite d.blockSize superblockMgr.activeIndex superblockMgr.activeSuperblock)
  callDevice (·.flushCache)
  modify fun e ↦ { e with superblockMgr }

def writeObject (objectId : GaxObjectId) (payload : List UInt8)
    (attributes : List (String × String)) : EngineM GaxFsObjectHeader := do
  let (header, _) ← storeObject objectId payload attributes
  commitGeneration objectId
  pure header

def readObject (e : GaxStorageEngine) (header : GaxFsObjectHeader) : List UInt8 :=
  (header.extents.flatMap fun extent ↦
    e.device.readBlocks extent.startBlock.toNat extent.numBlocks.toNat).take
    header.payloadSize.toNat

end GaxStorageEngine

end Gaxera

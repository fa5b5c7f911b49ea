import Gaxera.Storage.Engine

/-!
# Objects that stay readable

Payloads and headers go to blocks that are free in the bitmap, and are marked there from then on. So
an object keeps its blocks as long as the bitmap knows them, and as long as they are not among the
two that commits write to. Both conditions can fail. A formatted engine has not marked the blocks of
the superblocks, and its first object lands on the first of them. A mounted engine has marked those,
but knows nothing of the objects written before, and its first object lands on one of theirs.

`Writes` says what an operation has done to the device, whether it succeeded or not: some more
writes in the log, none of them to a block that was marked.
-/

namespace Gaxera

open Decoder StorageDevice GaxFsObjectHeader

def BlockWrite.Covers (w : BlockWrite) (b : ℕ) : Prop :=
  w.startBlock ≤ b ∧ b < w.startBlock + w.numBlocks

theorem BlockWrite.apply_of_not_covers {w : BlockWrite} {blockSize b : ℕ} {blocks : ℕ → List UInt8}
    (h : ¬w.Covers b) : w.apply blockSize blocks b = blocks b := if_neg h

theorem BlockWrite.foldl_apply_of_not_covers {new : List BlockWrite} {blockSize b : ℕ}
    {blocks : ℕ → List UInt8} (h : ∀ w ∈ new, ¬w.Covers b) :
    new.foldl (BlockWrite.apply blockSize) blocks b = blocks b := by
  induction new generalizing blocks with
  | nil => rfl
  | cons w new ih =>
    rw [List.foldl_cons, ih fun w hw ↦ h w (List.mem_cons_of_mem _ hw),
      apply_of_not_covers (h w List.mem_cons_self)]

/-- The device refuses no call. -/
def StorageDevice.Willing (d : StorageDevice) : Prop := ∀ n, d.refuses n = none

variable {α β : Type} {e : GaxStorageEngine} {f : α → EngineM β}

theorem bind_ok {x : EngineM α} {e₁ : GaxStorageEngine} {a : α} (h : x e = .ok a e₁) :
    (x >>= f) e = f a e₁ := by
  change EStateM.bind x f e = _
  rw [EStateM.bind, h]

theorem bind_error {x : EngineM α} {e₁ : GaxStorageEngine} {err : StorageError}
    (h : x e = .error err e₁) : (x >>= f) e = .error err e₁ := by
  change EStateM.bind x f e = _
  rw [EStateM.bind, h]

theorem bind_eq_ok {x : EngineM α} {e' : GaxStorageEngine} {b : β} (h : (x >>= f) e = .ok b e') :
    ∃ a e₁, x e = .ok a e₁ ∧ f a e₁ = .ok b e' := by
  change EStateM.bind x f e = _ at h
  rw [EStateM.bind] at h
  rcases hx : x e with ⟨a, e₁⟩ | ⟨err, e₁⟩
  · rw [hx] at h
    exact ⟨a, e₁, rfl, h⟩
  · rw [hx] at h
    cases h

namespace GaxStorageEngine

/-- **What an operation does to the disk.** Its writes are appended to the log and go to blocks that
were not marked, or to the first `slots` blocks, which only commits write to. -/
structure Writes (slots : ℕ) (e e' : GaxStorageEngine) (new : List BlockWrite) : Prop where
  blockSize : e'.device.blockSize = e.device.blockSize
  log : e'.device.log = e.device.log ++ new
  blocks : e'.device.blocks =
    new.foldl (BlockWrite.apply e.device.blockSize.toNat) e.device.blocks
  marks : ∀ b, e.extentAllocator.allocated b → e'.extentAllocator.allocated b
  free : ∀ w ∈ new, ∀ b, w.Covers b → e.extentAllocator.allocated b = false ∨ b < slots
  mgr : slots = 0 → e'.superblockMgr = e.superblockMgr
  willing : e.device.Willing → e'.device.Willing

namespace Writes

variable {slots : ℕ} {e e' e'' : GaxStorageEngine} {new new' : List BlockWrite}

theorem refl (slots : ℕ) (e : GaxStorageEngine) : Writes slots e e [] :=
  ⟨rfl, by simp, rfl, fun _ h ↦ h, by simp, fun _ ↦ rfl, id⟩

theorem trans (h : Writes slots e e' new) (h' : Writes slots e' e'' new') :
    Writes slots e e'' (new ++ new') where
  blockSize := h'.blockSize.trans h.blockSize
  log := by rw [h'.log, h.log, List.append_assoc]
  blocks := by rw [h'.blocks, h.blocks, List.foldl_append, h.blockSize]
  marks b hb := h'.marks b (h.marks b hb)
  free w hw b hb := by
    rcases List.mem_append.mp hw with hw | hw
    · exact h.free w hw b hb
    · refine (h'.free w hw b hb).imp_left fun hfree ↦ ?_
      by_contra hmarked
      rw [h.marks b (by simpa using hmarked)] at hfree
      cases hfree
  mgr h0 := (h'.mgr h0).trans (h.mgr h0)
  willing hw := h'.willing (h.willing hw)

theorem of_data (h : Writes 0 e e' new) : Writes 2 e e' new :=
  { h with
    free := fun w hw b hb ↦ .inl ((h.free w hw b hb).resolve_right (Nat.not_lt_zero b))
    mgr := nofun }

theorem blocks_eq (h : Writes slots e e' new) {b : ℕ} (hb : e.extentAllocator.allocated b)
    (hslots : slots ≤ b) : e'.device.blocks b = e.device.blocks b := by
  rw [h.blocks]
  refine BlockWrite.foldl_apply_of_not_covers fun w hw hcovers ↦ ?_
  rcases h.free w hw b hcovers with hfree | hlt
  · rw [hfree] at hb
    cases hb
  · omega

theorem readBlocks_eq (h : Writes slots e e' new) {extent : ExtentDescriptor}
    (hextent : ∀ b, extent.Covers b → e.extentAllocator.allocated b ∧ slots ≤ b) :
    e'.device.readBlocks extent.startBlock.toNat extent.numBlocks.toNat =
      e.device.readBlocks extent.startBlock.toNat extent.numBlocks.toNat := by
  apply List.flatMap_congr
  intro i hi
  have hcovers : extent.Covers (extent.startBlock.toNat + i) :=
    ⟨by omega, by have := List.mem_range.mp hi; omega⟩
  exact h.blocks_eq (hextent _ hcovers).1 (hextent _ hcovers).2

end Writes

/-! ## One stroke -/

variable {d : StorageDevice}

theorem readBlocks_stored {startBlock numBlocks : ℕ} {buf : List UInt8}
    (hbuf : buf.length = numBlocks * d.blockSize.toNat) :
    (d.stored ⟨startBlock, numBlocks, buf⟩).readBlocks startBlock numBlocks = buf := by
  have hchunks (n : ℕ) (hn : n ≤ numBlocks) :
      (d.stored ⟨startBlock, numBlocks, buf⟩).readBlocks startBlock n =
        buf.take (n * d.blockSize.toNat) := by
    induction n with
    | zero => simp [readBlocks]
    | succ n ih =>
      have hblock : (d.stored ⟨startBlock, numBlocks, buf⟩).blocks (startBlock + n) =
          (buf.drop (n * d.blockSize.toNat)).take d.blockSize.toNat := by
        simp only [StorageDevice.stored, BlockWrite.apply]
        rw [if_pos ⟨by omega, by omega⟩, Nat.add_sub_cancel_left]
      rw [readBlocks, List.range_succ, List.flatMap_append,
        ← readBlocks,
        ih (by omega), List.flatMap_singleton, hblock, Nat.succ_mul, List.take_add]
  rw [hchunks numBlocks le_rfl, ← hbuf, List.take_length]

/-- The bytes as they are stored. -/
def stored (blockSize : UInt32) (bytes : List UInt8) : List UInt8 :=
  resize bytes ((UInt32.ofNat (divCeil bytes.length blockSize.toNat)).toNat * blockSize.toNat)

/-- The bytes are in an extent that was free and is marked now. -/
structure Stores (e e' : GaxStorageEngine) (bytes : List UInt8) (extent : ExtentDescriptor) :
    Prop where
  writes : ∃ new, Writes 0 e e' new
  free : ∀ b, extent.Covers b → e.extentAllocator.allocated b = false
  marked : ∀ b, extent.Covers b → e'.extentAllocator.allocated b
  contents : e'.device.readBlocks extent.startBlock.toNat extent.numBlocks.toNat =
    stored e.device.blockSize bytes

theorem storeBytes_eq (bytes : List UInt8) (e : GaxStorageEngine) :
    storeBytes bytes e =
      match e.extentAllocator.allocateExtent
        (UInt32.ofNat (divCeil bytes.length e.device.blockSize.toNat)) with
      | .error err => .error err e
      | .ok (extent, a) => match e.device.refuses 0 with
        | some err => .error err ⟨e.device.next, e.superblockMgr, a⟩
        | none => .ok extent ⟨e.device.stored ⟨extent.startBlock.toNat,
            (UInt32.ofNat (divCeil bytes.length e.device.blockSize.toNat)).toNat,
            stored e.device.blockSize bytes⟩, e.superblockMgr, a⟩ := by
  change EStateM.bind (allocateExtent _) _ e = _
  rw [EStateM.bind, allocateExtent]
  rcases e.extentAllocator.allocateExtent _ with err | ⟨extent, a⟩
  · rfl
  · change EStateM.bind (callDevice _) _ _ = _
    rw [EStateM.bind, callDevice, writeBlocks]
    rcases e.device.refuses 0 with - | err <;> rfl

theorem storeBytes_cases (bytes : List UInt8) (e : GaxStorageEngine) :
    (∃ extent e', storeBytes bytes e = .ok extent e' ∧ Stores e e' bytes extent) ∨
    ∃ err e', storeBytes bytes e = .error err e' ∧ Writes 0 e e' [] := by
  rw [storeBytes_eq]
  rcases halloc : e.extentAllocator.allocateExtent
    (UInt32.ofNat (divCeil bytes.length e.device.blockSize.toNat)) with err | ⟨extent, a⟩
  · exact .inr ⟨err, e, rfl, .refl 0 e⟩
  obtain ⟨hnum, -, rfl, -, hfree⟩ := ExtentAllocator.allocateExtent_ok halloc
  have hmarks (b : ℕ) (hb : e.extentAllocator.allocated b) :
      (e.extentAllocator.mark extent).allocated b := by simp [ExtentAllocator.mark, hb]
  rcases e.device.refuses 0 with - | err
  · refine .inl ⟨extent, _, rfl, ⟨⟨_, rfl, rfl, rfl, hmarks, ?_, fun _ ↦ rfl,
      fun h n ↦ h (n + 1)⟩, hfree, ?_, ?_⟩⟩
    · intro w hw b hb
      obtain rfl := List.mem_singleton.mp hw
      exact .inl (hfree b ⟨hb.1, hnum ▸ hb.2⟩)
    · exact fun b hb ↦ by simp [ExtentAllocator.mark, hb]
    · rw [hnum]
      exact readBlocks_stored (length_resize _ _)
  · exact .inr ⟨err, _, rfl, rfl, by simp [StorageDevice.next], rfl, hmarks, by simp, fun _ ↦ rfl,
      fun h n ↦ h (n + 1)⟩

/-! ## An object -/

/-- What `write_object` is called with. -/
structure ObjectWrite where
  objectId : GaxObjectId
  payload : List UInt8
  attributes : List (String × String)

/-- An object that was written: the header its writer got, and where the engine put that header. -/
structure Written where
  object : ObjectWrite
  header : GaxFsObjectHeader
  headerExtent : ExtentDescriptor

/-- The blocks of an object. -/
def Written.Holds (w : Written) (b : ℕ) : Prop :=
  ∃ extent ∈ w.headerExtent :: w.header.extents, extent.Covers b

/-- `write_object` that also says where it put the header. -/
def putObject (w : ObjectWrite) : EngineM Written := do
  let (header, headerExtent) ← storeObject w.objectId w.payload w.attributes
  commitGeneration w.objectId
  pure ⟨w, header, headerExtent⟩

/-- **What a stored object has become.** Its blocks were free and are marked, and they hold the
payload and the header as they are stored. -/
structure Put (e e' : GaxStorageEngine) (w : Written) : Prop where
  writes : ∃ new, Writes 0 e e' new
  header_eq : w.header = objectHeader w.object.objectId w.object.payload w.object.attributes
    w.header.extents
  extents : w.header.extents.length ≤ 1
  free : ∀ b, w.Holds b → e.extentAllocator.allocated b = false
  marked : ∀ b, w.Holds b → e'.extentAllocator.allocated b
  payload : (w.header.extents.flatMap fun extent ↦
      e'.device.readBlocks extent.startBlock.toNat extent.numBlocks.toNat) =
    stored e.device.blockSize w.object.payload
  header : e'.device.readBlocks w.headerExtent.startBlock.toNat w.headerExtent.numBlocks.toNat =
    stored e.device.blockSize w.header.serialize

theorem storePayload_cases (payload : List UInt8) (e : GaxStorageEngine) :
    (∃ extents e', storePayload payload e = .ok extents e' ∧ extents.length ≤ 1 ∧
      (∃ new, Writes 0 e e' new) ∧
      (∀ extent ∈ extents, ∀ b, extent.Covers b → e.extentAllocator.allocated b = false ∧
        e'.extentAllocator.allocated b) ∧
      (extents.flatMap fun extent ↦
        e'.device.readBlocks extent.startBlock.toNat extent.numBlocks.toNat) =
        stored e.device.blockSize payload) ∨
    ∃ err e', storePayload payload e = .error err e' ∧ Writes 0 e e' [] := by
  have heq : storePayload payload e =
      (if UInt32.ofNat (divCeil payload.length e.device.blockSize.toNat) = 0 then pure []
        else (do pure [← storeBytes payload]) : EngineM _) e := rfl
  rw [heq]
  by_cases hzero : UInt32.ofNat (divCeil payload.length e.device.blockSize.toNat) = 0
  · rw [if_pos hzero]
    refine .inl ⟨[], e, rfl, Nat.zero_le 1, ⟨[], .refl 0 e⟩, by simp, ?_⟩
    simp [stored, hzero, resize]
  · rw [if_neg hzero]
    rcases storeBytes_cases payload e with ⟨extent, e', h, hstores⟩ | ⟨err, e', h, hwrites⟩
    · refine .inl ⟨[extent], e', bind_ok h, le_rfl, hstores.writes, ?_,
        by simpa using hstores.contents⟩
      intro extent' hmem b hb
      obtain rfl := List.mem_singleton.mp hmem
      exact ⟨hstores.free b hb, hstores.marked b hb⟩
    · exact .inr ⟨err, e', bind_error h, hwrites⟩

theorem storeObject_cases (w : ObjectWrite) (e : GaxStorageEngine) :
    (∃ header headerExtent e', storeObject w.objectId w.payload w.attributes e =
      .ok (header, headerExtent) e' ∧ Put e e' ⟨w, header, headerExtent⟩) ∨
    ∃ err e' new, storeObject w.objectId w.payload w.attributes e = .error err e' ∧
      Writes 0 e e' new := by
  rcases storePayload_cases w.payload e with
    ⟨extents, e₁, h, hone, ⟨new, hwrites⟩, hblocks, hpayload⟩ | ⟨err, e₁, h, hwrites⟩
  · rw [storeObject, bind_ok h]
    rcases storeBytes_cases (objectHeader w.objectId w.payload w.attributes extents).serialize e₁
      with ⟨headerExtent, e', h', hstores⟩ | ⟨err, e', h', hwrites'⟩
    · rw [bind_ok h']
      obtain ⟨new', hwrites'⟩ := hstores.writes
      refine .inl ⟨_, headerExtent, e', rfl,
        ⟨⟨_, hwrites.trans hwrites'⟩, rfl, hone, ?_, ?_, ?_, ?_⟩⟩
      · rintro b ⟨extent, hmem, hb⟩
        rcases List.mem_cons.mp hmem with rfl | hmem
        · by_contra hmarked
          have := hstores.free b hb
          rw [hwrites.marks b (by simpa using hmarked)] at this
          cases this
        · exact (hblocks extent hmem b hb).1
      · rintro b ⟨extent, hmem, hb⟩
        rcases List.mem_cons.mp hmem with rfl | hmem
        · exact hstores.marked b hb
        · exact hwrites'.marks b (hblocks extent hmem b hb).2
      · rw [← hpayload]
        apply List.flatMap_congr
        exact fun extent hmem ↦ hwrites'.readBlocks_eq fun b hb ↦
          ⟨(hblocks extent hmem b hb).2, Nat.zero_le b⟩
      · rw [← hwrites.blockSize]
        exact hstores.contents
    · exact .inr ⟨err, e', _, bind_error h', hwrites.trans hwrites'⟩
  · exact .inr ⟨err, e₁, [], bind_error h, hwrites⟩

/-! ## The commit -/

/-- The write of the next superblock. -/
def commitWrite (e : GaxStorageEngine) (newRootId : GaxObjectId) : BlockWrite :=
  superblockWrite e.device.blockSize (e.nextSuperblock newRootId).activeIndex
    (e.nextSuperblock newRootId).activeSuperblock

def committed (e : GaxStorageEngine) (newRootId : GaxObjectId) : GaxStorageEngine :=
  ⟨(e.device.stored (e.commitWrite newRootId)).next, e.nextSuperblock newRootId, e.extentAllocator⟩

theorem writes_stored_commitWrite (e : GaxStorageEngine) (newRootId : GaxObjectId)
    (mgr : DualSuperblockManager) :
    Writes 2 e ⟨(e.device.stored (e.commitWrite newRootId)).next, mgr, e.extentAllocator⟩
      [e.commitWrite newRootId] := by
  refine ⟨rfl, rfl, rfl, fun _ h ↦ h, fun w hw b hb ↦ .inr ?_, nofun, fun h n ↦ h (n + 2)⟩
  obtain rfl := List.mem_singleton.mp hw
  have hlast : b < (if e.superblockMgr.activeIndex = 0 then 1 else 0) + 1 := hb.2
  split_ifs at hlast <;> omega

theorem commitGeneration_cases (newRootId : GaxObjectId) (e : GaxStorageEngine) :
    commitGeneration newRootId e = .ok () (e.committed newRootId) ∨
    ¬e.device.Willing ∧ ∃ err e' new, commitGeneration newRootId e = .error err e' ∧
      Writes 2 e e' new := by
  change (callDevice _ >>= _ : EngineM Unit) e = _ ∨
    _ ∧ ∃ err e' new, (callDevice _ >>= _ : EngineM Unit) e = .error err e' ∧ _
  rcases hrefuse : e.device.refuses 0 with - | err
  · have hwrite : callDevice (fun d ↦ d.writeBlocks (superblockWrite d.blockSize
        (e.nextSuperblock newRootId).activeIndex (e.nextSuperblock newRootId).activeSuperblock)) e =
        .ok () { e with device := e.device.stored (e.commitWrite newRootId) } := by
      rw [callDevice, writeBlocks, hrefuse]
      rfl
    have hnext : (e.device.stored (e.commitWrite newRootId)).refuses 0 = e.device.refuses 1 := rfl
    rw [bind_ok hwrite]
    rcases hanswer : e.device.refuses 1 with - | err
    · left
      rw [bind_ok (by simp only [callDevice, flushCache, hnext, hanswer]; rfl)]
      rfl
    · refine .inr ⟨fun h ↦ ?_, err, _, _, bind_error ?_,
        writes_stored_commitWrite e newRootId e.superblockMgr⟩
      · rw [h 1] at hanswer
        cases hanswer
      · simp only [callDevice, flushCache, hnext, hanswer]
  · refine .inr ⟨fun h ↦ ?_, err, { e with device := e.device.next }, [], bind_error ?_, ?_⟩
    · rw [h 0] at hrefuse
      cases hrefuse
    · rw [callDevice, writeBlocks, hrefuse]
    · exact ⟨rfl, by simp [StorageDevice.next], rfl, fun _ h ↦ h, by simp, nofun,
        fun h n ↦ h (n + 1)⟩

theorem putObject_cases (w : ObjectWrite) (e : GaxStorageEngine) :
    (∃ written e₁, putObject w e = .ok written (e₁.committed w.objectId) ∧ written.object = w ∧
      Put e e₁ written) ∨
    ∃ err e' new, putObject w e = .error err e' ∧ Writes 2 e e' new := by
  rcases storeObject_cases w e with ⟨header, headerExtent, e₁, h, hput⟩ | ⟨err, e₁, new, h, hwrites⟩
  · rw [putObject, bind_ok h]
    rcases commitGeneration_cases w.objectId e₁ with hcommit | ⟨-, err, e', new, hcommit, hwrites⟩
    · exact .inl ⟨⟨w, header, headerExtent⟩, e₁, bind_ok hcommit, rfl, hput⟩
    · obtain ⟨new', hwrites'⟩ := hput.writes
      exact .inr ⟨err, e', _, bind_error hcommit, hwrites'.of_data.trans hwrites⟩
  · exact .inr ⟨err, e₁, new, bind_error h, hwrites.of_data⟩

/-! ## Objects in a session -/

/-- The blocks of superblocks and journal are marked. -/
def Reserved (e : GaxStorageEngine) : Prop := ∀ b < 66, e.extentAllocator.allocated b

/-- The bitmap knows the object. -/
def Knows (e : GaxStorageEngine) (w : Written) : Prop :=
  ∀ b, w.Holds b → e.extentAllocator.allocated b

/-- The object is outside the reserved blocks and gives back its payload as it was stored. -/
def Keeps (e : GaxStorageEngine) (w : Written) : Prop :=
  (∀ b, w.Holds b → 66 ≤ b) ∧ e.readObject w.header =
    (stored e.device.blockSize w.object.payload).take (w.object.payload.length % 2 ^ 64)

variable {e e' : GaxStorageEngine} {w : Written} {new : List BlockWrite}

theorem Writes.knows (h : Writes 2 e e' new) (hw : e.Knows w) : e'.Knows w :=
  fun b hb ↦ h.marks b (hw b hb)

theorem Writes.reserved (h : Writes 2 e e' new) (he : e.Reserved) : e'.Reserved :=
  fun b hb ↦ h.marks b (he b hb)

theorem Writes.keeps (h : Writes 2 e e' new) (hknows : e.Knows w) (hw : e.Keeps w) :
    e'.Keeps w := by
  refine ⟨hw.1, ?_⟩
  have hread : e'.readObject w.header = e.readObject w.header := by
    rw [readObject, readObject, List.flatMap_congr fun extent hmem ↦ h.readBlocks_eq fun b hb ↦ ?_]
    have hholds : w.Holds b := ⟨extent, List.mem_cons_of_mem _ hmem, hb⟩
    exact ⟨hknows b hholds, (hw.1 b hholds).trans' (by omega)⟩
  rw [hread, hw.2, h.blockSize]

variable {object : ObjectWrite}

/-- **One more object.** With the reserved blocks marked it is kept and known, and so is every
object that was known before. -/
theorem putObject_ok (hreserved : e.Reserved) (h : putObject object e = .ok w e') :
    w.object = object ∧ (∃ new, Writes 2 e e' new) ∧ e'.Knows w ∧ e'.Keeps w := by
  rcases putObject_cases object e with ⟨w', e₁, h', hobject, hput⟩ | ⟨err, e₁, new, h', -⟩
  · rw [h'] at h
    obtain ⟨rfl, rfl⟩ := EStateM.Result.ok.inj h
    obtain ⟨new, hwrites⟩ := hput.writes
    have hcommit := writes_stored_commitWrite e₁ object.objectId (e₁.nextSuperblock object.objectId)
    have hfar (b : ℕ) (hb : w'.Holds b) : 66 ≤ b := by
      by_contra hnear
      have := hput.free b hb
      rw [hreserved b (by omega)] at this
      cases this
    have hkeeps : e₁.Keeps w' := by
      refine ⟨hfar, ?_⟩
      rw [readObject, hput.payload, hwrites.blockSize, hput.header_eq]
      rfl
    exact ⟨hobject, ⟨_, hwrites.of_data.trans hcommit⟩, hcommit.knows hput.marked,
      hcommit.keeps hput.marked hkeeps⟩
  · rw [h'] at h
    cases h

variable {blockSize : UInt32}

/-- Nothing is cut off exactly if the blocks can be counted in 32 bits. -/
theorem length_le_stored_iff (hsize : 0 < blockSize.toNat) (bytes : List UInt8) :
    bytes.length ≤ (stored blockSize bytes).length ↔
      divCeil bytes.length blockSize.toNat < 2 ^ 32 := by
  obtain ⟨q, hq⟩ : ∃ q, divCeil bytes.length blockSize.toNat = q := ⟨_, rfl⟩
  have hle : q * blockSize.toNat ≤ bytes.length + blockSize.toNat - 1 :=
    hq ▸ Nat.div_mul_le_self _ _
  have hlt : bytes.length + blockSize.toNat - 1 < (q + 1) * blockSize.toNat :=
    hq ▸ Nat.lt_mul_of_div_lt (Nat.lt_succ_self _) hsize
  rw [Nat.succ_mul] at hlt
  rw [stored, length_resize, hq, UInt32.toNat_ofNat']
  constructor
  · intro h
    by_contra hlarge
    have hcut : (q % 2 ^ 32 + 1) * blockSize.toNat ≤ q * blockSize.toNat :=
      Nat.mul_le_mul_right _ (by omega)
    rw [Nat.succ_mul] at hcut
    omega
  · intro hsmall
    rw [Nat.mod_eq_of_lt hsmall]
    omega

variable {bytes : List UInt8}

/-- A payload comes back whole exactly if nothing of it is cut off. -/
theorem stored_take_eq_iff (hsize : 0 < blockSize.toNat) (payload : List UInt8) :
    (stored blockSize payload).take (payload.length % 2 ^ 64) = payload ↔
      divCeil payload.length blockSize.toNat < 2 ^ 32 := by
  rw [← length_le_stored_iff hsize]
  constructor
  · intro h
    have hlength := congrArg List.length h
    rw [List.length_take] at hlength
    omega
  · intro h
    have hwhole : (stored blockSize payload).length < 2 ^ 64 := by
      rw [stored, length_resize]
      exact lt_of_lt_of_le (Nat.mul_lt_mul'' (UInt32.toNat_lt _) blockSize.toNat_lt) (by norm_num)
    rw [stored, length_resize] at h
    rw [Nat.mod_eq_of_lt (by rw [stored, length_resize] at hwhole; omega), stored, resize_of_le h,
      List.take_left]

/-! ## Sequences of objects -/

def putAll : List ObjectWrite → EngineM (List Written)
  | [] => pure []
  | object :: objects => do
    let w ← putObject object
    let ws ← putAll objects
    pure (w :: ws)

variable {objects : List ObjectWrite} {ws : List Written}

theorem putAll_cons_ok (h : putAll (object :: objects) e = .ok ws e') :
    ∃ w e₁ ws₁, putObject object e = .ok w e₁ ∧ putAll objects e₁ = .ok ws₁ e' ∧ ws = w :: ws₁ := by
  obtain ⟨w, e₁, hw, h⟩ := bind_eq_ok h
  obtain ⟨ws₁, e₂, hws, h⟩ := bind_eq_ok h
  obtain ⟨rfl, rfl⟩ := EStateM.Result.ok.inj h
  exact ⟨w, e₁, ws₁, hw, hws, rfl⟩

theorem putAll_ok (hreserved : e.Reserved) (h : putAll objects e = .ok ws e') :
    ws.map Written.object = objects ∧ (∃ new, Writes 2 e e' new) ∧ ∀ w ∈ ws, e'.Keeps w := by
  induction objects generalizing e ws with
  | nil =>
    obtain ⟨rfl, rfl⟩ := EStateM.Result.ok.inj h
    exact ⟨rfl, ⟨[], .refl 2 e⟩, by simp⟩
  | cons object objects ih =>
    obtain ⟨w, e₁, ws₁, hw, hws, rfl⟩ := putAll_cons_ok h
    obtain ⟨hobject, ⟨new, hwrites⟩, hknows, hkeeps⟩ := putObject_ok hreserved hw
    obtain ⟨hobjects, ⟨new', hwrites'⟩, hkept⟩ := ih (hwrites.reserved hreserved) hws
    refine ⟨by rw [List.map_cons, hobject, hobjects], ⟨_, hwrites.trans hwrites'⟩, ?_⟩
    intro w' hw'
    rcases List.mem_cons.mp hw' with rfl | hw'
    · exact hwrites'.keeps hknows hkeeps
    · exact hkept w' hw'

variable {total : UInt64}

/-- With an empty bitmap the first bytes land on the first block. -/
theorem storeBytes_fresh {extent : ExtentDescriptor} {align : ℕ}
    (hfresh : e.extentAllocator = .new total align) (h : storeBytes bytes e = .ok extent e') :
    extent.Covers 0 := by
  rw [storeBytes_eq] at h
  rcases halloc : e.extentAllocator.allocateExtent
    (UInt32.ofNat (divCeil bytes.length e.device.blockSize.toNat)) with err | ⟨extent', a⟩
  · rw [halloc] at h
    cases h
  · obtain rfl : extent' = extent := by
      rw [halloc] at h
      rcases hrefuse : e.device.refuses 0 with - | err <;> simp only [hrefuse] at h
      · exact (EStateM.Result.ok.inj h).1
      · cases h
    rw [hfresh] at halloc
    exact ExtentAllocator.allocateExtent_new_covers halloc

theorem putObject_fresh {align : ℕ} (hfresh : e.extentAllocator = .new total align)
    (h : putObject object e = .ok w e') : w.Holds 0 := by
  obtain ⟨⟨header, headerExtent⟩, e₁, hstore, h⟩ := bind_eq_ok h
  obtain ⟨_, e₂, -, h⟩ := bind_eq_ok h
  obtain ⟨rfl, rfl⟩ := EStateM.Result.ok.inj h
  obtain ⟨extents, e₃, hpayload, hstore⟩ := bind_eq_ok hstore
  obtain ⟨headerExtent', e₄, hheader, hstore⟩ := bind_eq_ok hstore
  obtain ⟨hpair, rfl⟩ := EStateM.Result.ok.inj hstore
  obtain ⟨rfl, rfl⟩ := Prod.mk.inj hpair
  -- Without a payload it is the header that comes first.
  change (if _ then pure [] else (do pure [← storeBytes object.payload]) : EngineM _) e =
    .ok extents e₃ at hpayload
  split_ifs at hpayload
  · obtain ⟨rfl, rfl⟩ := EStateM.Result.ok.inj hpayload
    exact ⟨_, List.mem_cons_self, storeBytes_fresh hfresh hheader⟩
  · obtain ⟨extent, e₅, hextent, hpayload⟩ := bind_eq_ok hpayload
    obtain ⟨rfl, rfl⟩ := EStateM.Result.ok.inj hpayload
    exact ⟨extent, List.mem_cons_of_mem _ List.mem_cons_self, storeBytes_fresh hfresh hextent⟩

private theorem except_bind_eq_ok {α β : Type} {x : Except StorageError α}
    {f : α → Except StorageError β} {b : β} (h : x >>= f = .ok b) :
    ∃ a, x = .ok a ∧ f a = .ok b := by
  rcases x with err | a
  · cases h
  · exact ⟨a, rfl, h⟩

private theorem writeBlocks_ok {d' : StorageDevice} {write : BlockWrite}
    (h : d.writeBlocks write = .ok d') : d' = d.stored write := by
  rw [writeBlocks] at h
  split at h
  · cases h
  · exact (Except.ok.inj h).symm

/-- The superblock of a formatted device. -/
def firstSuperblock (d : StorageDevice) (rootId : GaxObjectId) : SuperblockHeader :=
  .new 1 d.blockSize d.totalBlocks rootId 2 64

/-- What formatting leaves: the same superblock in both slots, and an empty bitmap. -/
theorem format_ok {rootId : GaxObjectId} (h : format d rootId = .ok e) :
    128 ≤ d.totalBlocks ∧ e.extentAllocator = .new d.totalBlocks 8 ∧ e.device =
      ((d.stored (superblockWrite d.blockSize 0 (firstSuperblock d rootId))).stored
        (superblockWrite d.blockSize 1 (firstSuperblock d rootId))).next := by
  rw [format] at h
  split_ifs at h with htotal
  obtain ⟨d₁, h₁, h⟩ := except_bind_eq_ok h
  obtain ⟨d₂, h₂, h⟩ := except_bind_eq_ok h
  obtain ⟨d₃, h₃, h⟩ := except_bind_eq_ok h
  obtain ⟨mgr, -, h⟩ := except_bind_eq_ok h
  obtain rfl := Except.ok.inj h
  obtain rfl := writeBlocks_ok h₁
  obtain rfl := writeBlocks_ok h₂
  rw [flushCache] at h₃
  split at h₃
  · cases h₃
  · obtain rfl := Except.ok.inj h₃
    exact ⟨UInt64.not_lt.mp htotal, rfl, rfl⟩

theorem mount_ok (h : mount d = .ok e) :
    e.device = d ∧ e.extentAllocator = mountedAllocator d.totalBlocks ∧
      DualSuperblockManager.recoverActive (d.readBlocks 0 1) (d.readBlocks 1 1) =
        .ok e.superblockMgr := by
  rw [mount] at h
  rcases hactive : DualSuperblockManager.recoverActive (d.readBlocks 0 1) (d.readBlocks 1 1)
    with err | mgr <;> rw [hactive] at h
  · cases h
  · obtain rfl := Except.ok.inj h
    exact ⟨rfl, rfl, rfl⟩

theorem mountedAllocator_reserves (htotal : 128 ≤ total) {b : ℕ} (hb : b < 66) :
    (mountedAllocator total).allocated b := by
  have hroom : (2 + 64 : UInt32).toNat ≤ total.toNat :=
    (UInt64.le_iff_toNat_le.mp htotal).trans' (by decide)
  have hcovers : ExtentDescriptor.Covers ⟨0, 2 + 64⟩ b := ⟨Nat.zero_le b, by simpa using hb⟩
  have hmark : mountedAllocator total = (ExtentAllocator.new total 8).mark ⟨0, 2 + 64⟩ := by
    rw [mountedAllocator, ExtentAllocator.allocateExtent_new (by decide) hroom]
  simp only [hmark, ExtentAllocator.mark, hcovers, decide_true, Bool.or_true]

/-- **When objects stay readable.** For an engine that was just formatted or mounted and any objects
it then takes: every one of them reads as it was written and none is put on the superblocks or the
journal, exactly if there are none, or the bitmap has these blocks marked and no payload has so many
blocks that they cannot be counted in 32 bits. -/
theorem objects_stay_readable_iff {d : StorageDevice} (rootId : GaxObjectId)
    {objects : List ObjectWrite} {ws : List Written} (hsize : 512 ≤ d.blockSize)
    (htotal : 128 ≤ d.totalBlocks) (he : format d rootId = .ok e ∨ mount d = .ok e)
    (hrun : putAll objects e = .ok ws e') :
    ((∀ w ∈ ws, e'.readObject w.header = w.object.payload) ∧ ∀ w ∈ ws, ∀ b, w.Holds b → 66 ≤ b) ↔
      objects = [] ∨ e.Reserved ∧
        ∀ object ∈ objects, divCeil object.payload.length d.blockSize.toNat < 2 ^ 32 := by
  have hpos : 0 < d.blockSize.toNat := (UInt32.le_iff_toNat_le.mp hsize).trans' (by decide)
  by_cases hreserved : e.Reserved
  · obtain ⟨hobjects, ⟨new, hwrites⟩, hkeeps⟩ := putAll_ok hreserved hrun
    have hblockSize : e'.device.blockSize = d.blockSize := by
      rw [hwrites.blockSize]
      rcases he with he | he
      · rw [(format_ok he).2.2]
        rfl
      · rw [(mount_ok he).1]
    have hread (w : Written) (hw : w ∈ ws) : e'.readObject w.header = w.object.payload ↔
        divCeil w.object.payload.length d.blockSize.toNat < 2 ^ 32 := by
      rw [(hkeeps w hw).2, hblockSize, stored_take_eq_iff hpos]
    rw [← hobjects]
    constructor
    · rintro ⟨hall, -⟩
      refine .inr ⟨hreserved, fun object hobject ↦ ?_⟩
      obtain ⟨w, hw, rfl⟩ := List.mem_map.mp hobject
      exact (hread w hw).mp (hall w hw)
    · rintro (hnone | ⟨-, hsmall⟩)
      · rw [List.map_eq_nil_iff.mp hnone]
        simp
      · exact ⟨fun w hw ↦ (hread w hw).mpr (hsmall _ (List.mem_map_of_mem hw)),
          fun w hw ↦ (hkeeps w hw).1⟩
  · -- Only a formatted engine is like this, and its first object is on the first block.
    have hfresh : e.extentAllocator = .new d.totalBlocks 8 := by
      rcases he with he | he
      · exact (format_ok he).2.1
      · exact absurd (fun b hb ↦ by
          rw [(mount_ok he).2.1]; exact mountedAllocator_reserves htotal hb)
          hreserved
    constructor
    · rintro ⟨-, hfar⟩
      rcases objects with - | ⟨object, objects⟩
      · exact .inl rfl
      · obtain ⟨w, e₁, ws₁, hw, -, rfl⟩ := putAll_cons_ok hrun
        exact absurd (hfar w List.mem_cons_self 0 (putObject_fresh hfresh hw)) (by decide)
    · rintro (rfl | ⟨h, -⟩)
      · obtain ⟨rfl, -⟩ := EStateM.Result.ok.inj hrun
        simp
      · exact absurd h hreserved

/-- A device of 128 empty blocks that takes every call. -/
def blankDevice : StorageDevice :=
  ⟨512, 128, fun _ ↦ List.replicate 512 0, [], fun _ ↦ none⟩

def deviceOf : Except StorageError GaxStorageEngine → StorageDevice
  | .ok e => e.device
  | .error _ => blankDevice

def formattedDevice : StorageDevice := deviceOf (format blankDevice (Vector.replicate 16 0))

def objectOf (payload : List UInt8) : ObjectWrite := ⟨Vector.replicate 16 1, payload, []⟩

/-- The payloads that are read once all of them are written. -/
def readBack (start : Except StorageError GaxStorageEngine) (payloads : List (List UInt8)) :
    Option (List (List UInt8)) :=
  match start with
  | .error _ => none
  | .ok e => match putAll (payloads.map objectOf) e with
    | .error _ _ => none
    | .ok ws e' => some (ws.map fun w ↦ e'.readObject w.header)

/-- The first object is written over the first superblock, and the second commit writes over the
first object: what is read is the first byte of a superblock. -/
theorem formatted_engine_loses_object :
    readBack (format blankDevice (Vector.replicate 16 0)) [[1], [2]] = some [[0x42], [2]] := by
  decide +kernel

theorem mounted_engine_keeps_objects :
    ∃ e ws e', mount formattedDevice = .ok e ∧ putAll ([[1], [2]].map objectOf) e = .ok ws e' ∧
      (∀ w ∈ ws, e'.readObject w.header = w.object.payload) ∧
      ∀ w ∈ ws, ∀ b, w.Holds b → 66 ≤ b := by
  have hread : (readBack (mount formattedDevice) [[1], [2]]).isSome := by decide +kernel
  rcases hmount : mount formattedDevice with err | e
  · rw [hmount] at hread
    cases hread
  rcases hrun : putAll ([[1], [2]].map objectOf) e with ⟨ws, e'⟩ | ⟨err, e'⟩
  · have hiff := objects_stay_readable_iff (Vector.replicate 16 0) (by decide +kernel)
      (by decide +kernel) (.inr hmount) hrun
    refine ⟨e, ws, e', rfl, hrun, hiff.mpr (.inr ⟨fun b hb ↦ ?_, by decide +kernel⟩)⟩
    rw [(mount_ok hmount).2.1]
    exact mountedAllocator_reserves (by decide +kernel) hb
  · rw [hmount, readBack, hrun] at hread
    cases hread

/-! ## The header on disk -/

end GaxStorageEngine

end Gaxera

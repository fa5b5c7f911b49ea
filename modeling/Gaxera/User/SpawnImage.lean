import Gaxera.User.Spawn
import Mathlib.Data.Set.Insert

/-!
# What a spawned process sees

Memory as the builder of a process has to rely on it: memory objects with their bytes, and address
spaces that map addresses to bytes of objects. Nothing is known of a call that fails. A call that
succeeds does what it is for: a new object is zero and mapped nowhere, a mapping puts the whole
object at addresses that were free, and unmapping takes away entries of that mapping only, all of
them or some, whether it succeeds or not.

A segment is written through the window into an object that nobody else refers to, so it can be read
in the child afterwards, and no later segment disturbs it: entries stay, and the bytes behind them
do, since what is written later lies in newer objects.
-/

namespace Gaxera

/-- What a handle stands for. -/
inductive Referent
  | process (id : ℕ)
  | space (id : ℕ)
  | thread (id : ℕ)
  | capabilitySpace (id : ℕ)
  | object (id : ℕ)
  | mapping (id : ℕ)
deriving DecidableEq, Repr

/-- Neither a memory object nor a mapping. -/
def Referent.isPart : Referent → Bool
  | .process _ | .space _ | .thread _ | .capabilitySpace _ => true
  | .object _ | .mapping _ => false

/-- What an address space has at an address: a byte of an object, through a mapping. -/
structure MappedByte where
  object : ℕ
  offset : ℕ
  rights : Rights
  mapping : ℕ
deriving DecidableEq, Repr

structure World where
  handles : Set Handle
  referent : Handle → Referent
  /-- The address space of a process. -/
  spaceOf : ℕ → ℕ
  size : ℕ → ℕ
  content : ℕ → ℕ → UInt8
  maps : ℕ → ℕ → Option MappedByte
  /-- The entry point and the stack that were set for a process. -/
  configured : ℕ → Option (ℕ × ℕ)

namespace World

variable {self : ℕ} {s s' s'' : World}

/-! ## Calls -/

/-- Neither objects nor address spaces have changed. -/
structure SameMemory (s s' : World) : Prop where
  spaceOf : s'.spaceOf = s.spaceOf
  size : s'.size = s.size
  content : s'.content = s.content
  maps : s'.maps = s.maps

/-- The caller has one more handle. -/
structure NewHandle (s : World) (raw : UInt64) (s' : World) : Prop where
  fresh : ⟨raw⟩ ∉ s.handles
  handles : s'.handles = insert ⟨raw⟩ s.handles
  referent : ∀ g, g ≠ ⟨raw⟩ → s'.referent g = s.referent g

/-- A new memory object is zero, and nothing refers to it. -/
structure NewObject (s : World) (id size : ℕ) (s' : World) : Prop where
  unmapped : ∀ space a e, s.maps space a = some e → e.object ≠ id
  size_eq : s'.size id = size
  zero : ∀ j, s'.content id j = 0
  others : ∀ o, o ≠ id → s'.content o = s.content o
  maps : s'.maps = s.maps
  spaceOf : s'.spaceOf = s.spaceOf

/-- A mapping puts a whole object at free addresses. -/
structure NewMapping (s : World) (space object vaddr : ℕ) (rights : Rights) (id : ℕ) (s' : World) :
    Prop where
  unused : ∀ space a e, s.maps space a = some e → e.mapping ≠ id
  free : ∀ a, vaddr ≤ a → a < vaddr + s.size object → s.maps space a = none
  entries : ∀ a, vaddr ≤ a → a < vaddr + s.size object →
    s'.maps space a = some ⟨object, a - vaddr, rights, id⟩
  others : ∀ space' a, (space' = space → vaddr ≤ a → vaddr + s.size object ≤ a) →
    s'.maps space' a = s.maps space' a
  size : s'.size = s.size
  content : s'.content = s.content
  spaceOf : s'.spaceOf = s.spaceOf

/-- Entries of one mapping may have gone, and the handle as well. -/
structure Releases (s : World) (h : Handle) (s' : World) : Prop where
  handles : ∀ g, g ∈ s.handles → g ≠ h → g ∈ s'.handles
  referent : s'.referent = s.referent
  maps : ∀ space a, s'.maps space a = s.maps space a
    ∨ ∃ e, s.maps space a = some e ∧ s.referent h = .mapping e.mapping
  spaceOf : s'.spaceOf = s.spaceOf
  configured : s'.configured = s.configured

/-- A byte is written where the caller has an object mapped. -/
def writeByte (self : ℕ) (s : World) (a : ℕ) (byte : UInt8) : World :=
  match s.maps self a with
  | none => s
  | some e => { s with content := fun o j ↦
      if o = e.object ∧ j = e.offset then byte else s.content o j }

def writeBytes (self : ℕ) (s : World) (a : ℕ) : List UInt8 → World
  | [] => s
  | byte :: bytes => (s.writeByte self a byte).writeBytes self (a + 1) bytes

/-- The operations on processes. -/
def Controls (process : Handle) (arg1 arg2 : ℕ) (s : World) (raw : UInt64) (s' : World) :
    ProcessControlOp → Prop
  | .acquireAddressSpace => s.SameMemory s' ∧ s.NewHandle raw s'
    ∧ ∀ p, s.referent process = .process p → s'.referent ⟨raw⟩ = .space (s.spaceOf p)
  | .acquireMainThread => s.SameMemory s' ∧ s.NewHandle raw s'
    ∧ ∃ id, s'.referent ⟨raw⟩ = .thread id
  | .acquireCapabilitySpace => s.SameMemory s' ∧ s.NewHandle raw s'
    ∧ ∃ id, s'.referent ⟨raw⟩ = .capabilitySpace id
  | .installCapability => s.SameMemory s' ∧ s'.handles = s.handles ∧ s'.referent = s.referent
  | .configureMainThread => s.SameMemory s' ∧ s'.handles = s.handles ∧ s'.referent = s.referent
    ∧ ∀ p, s.referent process = .process p → s'.configured p = some (arg1, arg2)
  | .start => s.SameMemory s' ∧ s'.handles = s.handles ∧ s'.referent = s.referent
    ∧ s'.configured = s.configured

/-- How the calls of `spawn` may go. The caller's own address space is `self`. -/
def Behaves (self : ℕ) : SpawnCall → World → Option UInt64 → World → Prop
  | .createProcess .., s, some raw, s' => s.NewHandle raw s'
    ∧ s'.size = s.size ∧ s'.content = s.content ∧ s'.maps = s.maps
    ∧ ∃ p, s'.referent ⟨raw⟩ = .process p
  | .processControl process operation arg1 arg2 _, s, some raw, s' =>
    Controls process arg1 arg2 s raw s' operation
  | .createMemoryObject _ sizeBytes, s, some raw, s' => s.NewHandle raw s'
    ∧ ∃ id, s'.referent ⟨raw⟩ = .object id ∧ s.NewObject id sizeBytes s'
  | .mapMemory aspace memoryObject vaddr rights, s, some raw, s' => s.NewHandle raw s'
    ∧ ∃ space object id, s.referent aspace = .space space ∧ s.referent memoryObject = .object object
      ∧ s'.referent ⟨raw⟩ = .mapping id ∧ s.NewMapping space object vaddr rights id s'
  | .unmapMemory mapping, s, _, s' => s.Releases mapping s'
    ∧ ∀ o, s'.content o = s.content o ∧ s'.size o = s.size o
  | .deleteHandle handle, s, _, s' => s.Releases handle s'
    ∧ ∀ o, s.referent handle ≠ .object o → s'.content o = s.content o ∧ s'.size o = s.size o
  | .copy destination bytes, s, _, s' => s' = s.writeBytes self destination bytes
  | _, _, none, _ => True

/-! ## Writing -/

theorem writeBytes_eq (s : World) (self a : ℕ) (bytes : List UInt8) :
    ∃ content, s.writeBytes self a bytes = { s with content } := by
  induction bytes generalizing s a with
  | nil => exact ⟨s.content, rfl⟩
  | cons byte bytes ih =>
    obtain ⟨content, heq⟩ := ih (s.writeByte self a byte) (a + 1)
    refine ⟨content, ?_⟩
    rw [writeBytes, heq, writeByte]
    cases s.maps self a <;> rfl

/-- **Bytes written through one mapping** are in the object, and nowhere else. -/
theorem content_writeBytes {o offset k : ℕ} {r : Rights} {a : ℕ} {bytes : List UInt8}
    (h : ∀ i < bytes.length, s.maps self (a + i) = some ⟨o, offset + i, r, k⟩) (o' j : ℕ) :
    (s.writeBytes self a bytes).content o' j
      = if o' = o ∧ offset ≤ j ∧ j < offset + bytes.length then bytes.getD (j - offset) 0
        else s.content o' j := by
  induction bytes generalizing s a offset with
  | nil =>
    rw [if_neg]
    · rfl
    · rw [List.length_nil]
      omega
  | cons byte bytes ih =>
    have hhead := h 0 (Nat.succ_pos _)
    rw [Nat.add_zero, Nat.add_zero] at hhead
    have hwrite : s.writeByte self a byte = { s with
        content := fun o' j ↦ if o' = o ∧ j = offset then byte else s.content o' j } := by
      rw [writeByte, hhead]
    have htail : ∀ i < bytes.length,
        (s.writeByte self a byte).maps self (a + 1 + i) = some ⟨o, offset + 1 + i, r, k⟩ := by
      intro i hi
      have hnext := h (i + 1) (by simpa using hi)
      rw [Nat.add_comm i 1, ← Nat.add_assoc, ← Nat.add_assoc] at hnext
      rw [hwrite]
      exact hnext
    rw [writeBytes, ih htail, hwrite]
    dsimp only
    rw [List.length_cons]
    by_cases hobject : o' = o
    · by_cases hfirst : j = offset
      · subst hfirst
        rw [if_neg (by omega), if_pos ⟨hobject, rfl⟩, if_pos (by omega), Nat.sub_self]
        rfl
      · rw [if_neg (by omega : ¬(o' = o ∧ j = offset))]
        by_cases hlater : offset + 1 ≤ j ∧ j < offset + 1 + bytes.length
        · obtain ⟨d, rfl⟩ := Nat.exists_eq_add_of_le hlater.1
          rw [if_pos ⟨hobject, hlater⟩, if_pos (by omega), Nat.add_sub_cancel_left,
            Nat.add_assoc, Nat.add_sub_cancel_left, Nat.add_comm 1 d, List.getD_cons_succ]
        · rw [if_neg (by omega), if_neg (by omega)]
    · rw [if_neg (by omega), if_neg (by omega), if_neg (by omega)]

/-! ## What stays -/

/-- Handles stand for what they did, and what is mapped is still mapped, with the same bytes. -/
structure Extends (s s' : World) : Prop where
  handles : ∀ g ∈ s.handles, g ∈ s'.handles
  referent : ∀ g ∈ s.handles, s'.referent g = s.referent g
  spaceOf : s'.spaceOf = s.spaceOf
  maps : ∀ {space a e}, s.maps space a = some e → s'.maps space a = some e
  content : ∀ {space a e}, s.maps space a = some e →
    s'.content e.object e.offset = s.content e.object e.offset

/-- The caller has a handle that stands for `r`. -/
def Stands (s : World) (g : Handle) (r : Referent) : Prop := g ∈ s.handles ∧ s.referent g = r

variable {g : Handle}

theorem Extends.stands {r : Referent} (h : s.Extends s') (hg : s.Stands g r) : s'.Stands g r :=
  ⟨h.handles g hg.1, (h.referent g hg.1).trans hg.2⟩

theorem Extends.refl (s : World) : s.Extends s :=
  ⟨fun _ h ↦ h, fun _ _ ↦ rfl, rfl, fun h ↦ h, fun _ ↦ rfl⟩

theorem Extends.trans (h : s.Extends s') (h' : s'.Extends s'') : s.Extends s'' where
  handles g hg := h'.handles g (h.handles g hg)
  referent g hg := (h'.referent g (h.handles g hg)).trans (h.referent g hg)
  spaceOf := h'.spaceOf.trans h.spaceOf
  maps he := h'.maps (h.maps he)
  content he := (h'.content (h.maps he)).trans (h.content he)

variable {raw : UInt64}

theorem NewHandle.extends_handles (h : s.NewHandle raw s') (hg : g ∈ s.handles) :
    g ∈ s'.handles ∧ s'.referent g = s.referent g := by
  refine ⟨h.handles ▸ Set.mem_insert_of_mem _ hg, h.referent g ?_⟩
  rintro rfl
  exact h.fresh hg

theorem SameMemory.extends (h : s.SameMemory s')
    (hhandles : ∀ g ∈ s.handles, g ∈ s'.handles ∧ s'.referent g = s.referent g) :
    s.Extends s' where
  handles g hg := (hhandles g hg).1
  referent g hg := (hhandles g hg).2
  spaceOf := h.spaceOf
  maps he := h.maps ▸ he
  content _ := h.content ▸ rfl

theorem NewObject.extends {id size : ℕ} (h : s.NewObject id size s')
    (hhandle : s.NewHandle raw s') : s.Extends s' where
  handles _ hg := (hhandle.extends_handles hg).1
  referent _ hg := (hhandle.extends_handles hg).2
  spaceOf := h.spaceOf
  maps he := h.maps ▸ he
  content he := by rw [h.others _ (h.unmapped _ _ _ he)]

variable {rights : Rights} {space object vaddr id : ℕ}

theorem NewMapping.keeps (h : s.NewMapping space object vaddr rights id s') {space' a : ℕ}
    {e : MappedByte} (he : s.maps space' a = some e) : s'.maps space' a = some e := by
  rw [h.others space' a, he]
  rintro rfl hlo
  by_contra hhi
  rw [h.free a hlo (not_le.mp hhi)] at he
  cases he

theorem NewMapping.extends (h : s.NewMapping space object vaddr rights id s')
    (hhandle : s.NewHandle raw s') :
    s.Extends s' where
  handles _ hg := (hhandle.extends_handles hg).1
  referent _ hg := (hhandle.extends_handles hg).2
  spaceOf := h.spaceOf
  maps he := h.keeps he
  content _ := h.content ▸ rfl

/-! ## While a segment is filled -/

/-- Since `s` only the object `o` has been written, and whatever was mapped is. -/
structure Fills (s : World) (o : ℕ) (s' : World) : Prop where
  handles : ∀ g ∈ s.handles, g ∈ s'.handles ∧ s'.referent g = s.referent g
  spaceOf : s'.spaceOf = s.spaceOf
  size : s'.size o = s.size o
  maps : ∀ {space a e}, s.maps space a = some e → s'.maps space a = some e
  others : ∀ o', o' ≠ o → s'.content o' = s.content o'

variable {o : ℕ}

theorem Fills.refl (s : World) (o : ℕ) : s.Fills o s :=
  ⟨fun _ h ↦ ⟨h, rfl⟩, rfl, rfl, fun h ↦ h, fun _ _ ↦ rfl⟩

/-- In the end all is as it was, if nothing referred to that object. -/
theorem Fills.extends (h : s.Fills o s')
    (hunmapped : ∀ space a e, s.maps space a = some e → e.object ≠ o) : s.Extends s' where
  handles g hg := (h.handles g hg).1
  referent g hg := (h.handles g hg).2
  spaceOf := h.spaceOf
  maps he := h.maps he
  content he := by rw [h.others _ (hunmapped _ _ _ he)]

theorem Fills.map (h : s.Fills o s') (hhandle : s'.NewHandle raw s'')
    (hnew : s'.NewMapping space object vaddr rights id s'') : s.Fills o s'' where
  handles g hg := by
    have hg' := h.handles g hg
    have hg'' := hhandle.extends_handles hg'.1
    exact ⟨hg''.1, hg''.2.trans hg'.2⟩
  spaceOf := hnew.spaceOf.trans h.spaceOf
  size := hnew.size ▸ h.size
  maps he := hnew.keeps (h.maps he)
  others o' ho' := hnew.content ▸ h.others o' ho'

theorem Fills.write (h : s.Fills o s') {a offset k : ℕ} {r : Rights} {bytes : List UInt8}
    (hmaps : ∀ i < bytes.length, s'.maps self (a + i) = some ⟨o, offset + i, r, k⟩) :
    s.Fills o (s'.writeBytes self a bytes) := by
  have hcontent := content_writeBytes hmaps
  obtain ⟨content, heq⟩ := s'.writeBytes_eq self a bytes
  rw [heq] at hcontent ⊢
  refine ⟨h.handles, h.spaceOf, h.size, h.maps, fun o' ho' ↦ ?_⟩
  rw [← h.others o' ho']
  funext j
  exact (hcontent o' j).trans (if_neg fun hin ↦ ho' hin.1)

/-- A handle is released that was not there before, and if it is one of a mapping, that was not
there either. -/
theorem Fills.release (h : s.Fills o s') (hr : s'.Releases g s'') (hg : g ∉ s.handles)
    (hmapping : ∀ space a e, s.maps space a = some e → s'.referent g ≠ .mapping e.mapping)
    (hcontent : ∀ o, s''.content o = s'.content o ∧ s''.size o = s'.size o) : s.Fills o s'' where
  handles k hk := by
    have hk' := h.handles k hk
    refine ⟨hr.handles k hk'.1 fun heq ↦ hg (heq ▸ hk), ?_⟩
    rw [hr.referent]
    exact hk'.2
  spaceOf := hr.spaceOf.trans h.spaceOf
  size := (hcontent o).2.trans h.size
  maps {space a e} he := by
    rcases hr.maps space a with hsame | ⟨e', he', hreferent⟩
    · rw [hsame]
      exact h.maps he
    · rw [Option.some.inj ((h.maps he).symm.trans he')] at he
      exact absurd hreferent (hmapping space a e' he)
  others o' ho' := (hcontent o').1.trans (h.others o' ho')

end World

/-! ## The script -/

/-- What holds if the script has succeeded. -/
def IfOk {α : Type} (promise : α → World → Prop) (result : Except SpawnExit α) (s : World) : Prop :=
  ∀ a, result = .ok a → promise a s

variable {α β : Type} {self : ℕ} {s : World}

theorem IfOk.of_ok {promise : α → World → Prop} {a : α} (h : promise a s) :
    IfOk promise (.ok a) s := by
  intro a' heq
  exact Except.ok.inj heq ▸ h

theorem andThen_ifOk {script : SpawnScript α} {f : α → SpawnScript β} {next : α → World → Prop}
    {promise : β → World → Prop} (h : script.Always (World.Behaves self) (IfOk next) s)
    (hnext : ∀ a s', next a s' → (f a).Always (World.Behaves self) (IfOk promise) s') :
    (script.andThen f).Always (World.Behaves self) (IfOk promise) s := by
  refine Script.always_andThen (h.imp fun result s' hresult ↦ ?_) hnext
  rcases result with e | a
  · exact .inl ⟨e, rfl, fun a ha ↦ nomatch ha⟩
  · exact .inr ⟨a, rfl, hresult a rfl⟩

theorem giveUp_ifOk {promise : α → World → Prop} (handles : List Handle) (e : ProcessBuildError)
    (s : World) : (giveUp handles e).Always (World.Behaves self) (IfOk promise) s := by
  rw [giveUp]
  induction handles generalizing s with
  | nil => exact fun a ha ↦ nomatch ha
  | cons g handles ih => exact fun _ s' _ ↦ ih s'

/-! ## Segments -/

/-- The byte of a segment at a distance from its start: one of the file, or zero. -/
def Elf64Phdr.imageByte (ph : Elf64Phdr) (image : List UInt8) (j : ℕ) : UInt8 :=
  if j < ph.pFilesz then image.getD (ph.pOffset + j) 0 else 0

/-- The segment is in the address space, with the rights of its flags. -/
def World.Shows (s : World) (space : ℕ) (ph : Elf64Phdr) (image : List UInt8) : Prop :=
  ∀ j < ph.pMemsz, ∃ e, s.maps space (ph.pVaddr + j) = some e
    ∧ s.content e.object e.offset = ph.imageByte image j
    ∧ e.rights.contains Rights.read = true
    ∧ e.rights.contains Rights.write = ph.isWrite
    ∧ e.rights.contains Rights.execute = ph.isExec

theorem World.Shows.extends {s s' : World} {space : ℕ} {ph : Elf64Phdr} {image : List UInt8}
    (h : s.Shows space ph image) (hextends : s.Extends s') : s'.Shows space ph image := by
  intro j hj
  obtain ⟨e, he, hcontent, hrights⟩ := h j hj
  exact ⟨e, hextends.maps he, (hextends.content he).trans hcontent, hrights⟩

namespace Elf64Phdr

variable {ph : Elf64Phdr}

theorem memSize_le {memSize : ℕ} (h : ph.memSize = some memSize) :
    ph.segmentOffset + ph.pMemsz ≤ memSize ∧ memSize < 2 ^ 64 := by
  obtain ⟨size, hsize, rfl⟩ := Option.map_eq_some_iff.mp h
  obtain ⟨sum, hsum, hsize⟩ := Option.bind_eq_some_iff.mp hsize
  rw [checkedAdd, Option.ite_none_right_eq_some] at hsum hsize
  obtain rfl := Option.some.inj hsum.2
  obtain rfl := Option.some.inj hsize.2
  omega

theorem mapVaddr_add_segmentOffset (ph : Elf64Phdr) :
    ph.mapVaddr + ph.segmentOffset = ph.pVaddr :=
  Nat.div_add_mod' ph.pVaddr 4096

theorem segmentRights_contains (ph : Elf64Phdr) :
    ph.segmentRights.contains Rights.read = true
      ∧ ph.segmentRights.contains Rights.write = ph.isWrite
      ∧ ph.segmentRights.contains Rights.execute = ph.isExec := by
  rw [segmentRights]
  cases ph.isWrite <;> cases ph.isExec <;> decide

end Elf64Phdr

namespace ProcessBuilder

variable {b : ProcessBuilder} {c : ChildHandles} {ph : Elf64Phdr} {memSize o space : ℕ}
  {mem : Handle}

/-- **A segment in its object**: if the window shows the object, which is zero, then the image of
the segment is in the object afterwards. -/
theorem copySegment_ifOk {s' : World} {rights : Rights} {k : ℕ}
    (hload : ph.LoadableFrom b.elfData.bytes.length)
    (hsize : ph.segmentOffset + ph.pMemsz ≤ memSize) (hlt : memSize < 2 ^ 64)
    (hfills : s.Fills o s') (hzero : ∀ j, s'.content o j = 0)
    (hwindow : ∀ a, tempVaddr ≤ a → a < tempVaddr + memSize →
      s'.maps self a = some ⟨o, a - tempVaddr, rights, k⟩) :
    (b.copySegment ph memSize).Always (World.Behaves self) (IfOk fun _ t ↦ s.Fills o t
      ∧ t.referent = s'.referent ∧ ∀ j < ph.pMemsz,
        t.content o (ph.segmentOffset + j) = ph.imageByte b.elfData.bytes j) s' := by
  have hfilesz := hload.filesz_le
  have hinside := hload.inside
  have hlength := b.elfData.length_lt
  rw [copySegment]
  by_cases hempty : 0 < ph.pFilesz
  · have hguard : 0 < ph.pFilesz
        ∧ ((checkedAdd 64 ph.pOffset ph.pFilesz).any fun stop ↦
          decide (stop ≤ b.elfData.bytes.length)) = true
        ∧ ((checkedAdd 64 ph.segmentOffset ph.pFilesz).any fun stop ↦
          decide (stop ≤ memSize)) = true := by
      rw [checkedAdd, if_pos (by omega), checkedAdd, if_pos (by omega)]
      simp only [Option.any_some, decide_eq_true_eq]
      omega
    rw [if_pos hguard, readAt_eq_ok.mpr ⟨hinside, rfl⟩]
    rintro _ t rfl
    apply IfOk.of_ok
    have hbytes : ((b.elfData.bytes.drop ph.pOffset).take ph.pFilesz).length = ph.pFilesz := by
      rw [List.length_take, List.length_drop]
      omega
    have hmaps : ∀ i < ((b.elfData.bytes.drop ph.pOffset).take ph.pFilesz).length,
        s'.maps self (tempVaddr + ph.segmentOffset + i)
          = some ⟨o, ph.segmentOffset + i, rights, k⟩ := by
      intro i hi
      rw [hwindow _ (by omega) (by omega), Nat.add_assoc, Nat.add_sub_cancel_left]
    refine ⟨hfills.write hmaps, ?_, fun j hj ↦ ?_⟩
    · obtain ⟨content, heq⟩ := s'.writeBytes_eq self (tempVaddr + ph.segmentOffset) _
      rw [heq]
    · rw [World.content_writeBytes hmaps, hbytes, Elf64Phdr.imageByte, hzero,
        Nat.add_sub_cancel_left]
      by_cases hj' : j < ph.pFilesz
      · rw [if_pos ⟨rfl, by omega, by omega⟩, if_pos hj', List.getD_eq_getElem?_getD,
          List.getElem?_take_of_lt hj', List.getElem?_drop, ← List.getD_eq_getElem?_getD]
      · rw [if_neg (by omega), if_neg hj']
  · rw [if_neg fun h ↦ hempty h.1]
    apply IfOk.of_ok
    refine ⟨hfills, rfl, fun j _ ↦ ?_⟩
    rw [hzero, Elf64Phdr.imageByte, if_neg (by omega)]

/-- **A segment in the child**, from its memory object on. -/
theorem fillSegment_ifOk (hload : ph.LoadableFrom b.elfData.bytes.length)
    (hsize : ph.segmentOffset + ph.pMemsz ≤ memSize) (hlt : memSize < 2 ^ 64)
    (hself : s.Stands b.selfAspace (.space self)) (haspace : s.Stands c.aspace (.space space))
    (hmem : s.Stands mem (.object o)) (hobject : s.size o = memSize)
    (hzero : ∀ j, s.content o j = 0)
    (hunmapped : ∀ space a e, s.maps space a = some e → e.object ≠ o) :
    (b.fillSegment c ph memSize mem).Always (World.Behaves self)
      (IfOk fun _ s' ↦ s.Extends s' ∧ s'.Shows space ph b.elfData.bytes) s := by
  rintro (_ | temp) s₁ hmap
  · exact giveUp_ifOk _ _ s₁
  obtain ⟨hhandle, space', o', k, hspace', ho', hk, hnew⟩ := hmap
  obtain rfl : self = space' := Referent.space.inj (hself.2.symm.trans hspace')
  obtain rfl : o = o' := Referent.object.inj (hmem.2.symm.trans ho')
  have hfills₁ : s.Fills o s₁ := (World.Fills.refl s o).map hhandle hnew
  refine andThen_ifOk (copySegment_ifOk hload hsize hlt hfills₁
    (fun j ↦ hnew.content ▸ hzero j) (hobject ▸ hnew.entries)) ?_
  rintro _ s₂ ⟨hfills₂, hreferent, hbytes⟩
  -- the window is a mapping that nothing of before is part of, so it may go or stay
  have hwindow : ∀ space a e, s.maps space a = some e →
      s₂.referent ⟨temp⟩ ≠ .mapping e.mapping := by
    intro space a e he heq
    rw [hreferent, hk] at heq
    exact hnew.unused space a e he (Referent.mapping.inj heq).symm
  rintro _ s₃ ⟨hrelease₃, hcontent₃⟩
  have hfills₃ := hfills₂.release hrelease₃ hhandle.fresh hwindow hcontent₃
  rintro _ s₄ ⟨hrelease₄, hcontent₄⟩
  have hcontent₄' : ∀ o, s₄.content o = s₃.content o ∧ s₄.size o = s₃.size o := by
    refine fun o ↦ hcontent₄ o ?_
    rw [hrelease₃.referent, hreferent, hk]
    exact fun heq ↦ nomatch heq
  have hfills₄ := hfills₃.release hrelease₄ hhandle.fresh (hrelease₃.referent ▸ hwindow) hcontent₄'
  rintro (_ | child) s₅ hmap'
  · exact giveUp_ifOk _ _ s₅
  obtain ⟨hhandle', space', o', id, hspace', ho', -, hnew'⟩ := hmap'
  have hreferent₄ := fun g hg ↦ (hfills₄.handles g hg).2
  obtain rfl : space = space' :=
    Referent.space.inj (haspace.2.symm.trans ((hreferent₄ _ haspace.1).symm.trans hspace'))
  obtain rfl : o = o' :=
    Referent.object.inj (hmem.2.symm.trans ((hreferent₄ _ hmem.1).symm.trans ho'))
  apply IfOk.of_ok
  refine ⟨(hfills₄.map hhandle' hnew').extends hunmapped, fun j hj ↦ ?_⟩
  have hvaddr := ph.mapVaddr_add_segmentOffset
  have hsize₄ := hfills₄.size.trans hobject
  refine ⟨_, hnew'.entries (ph.pVaddr + j) (by omega) (by omega), ?_, ph.segmentRights_contains⟩
  dsimp only
  rw [← hvaddr, Nat.add_assoc, Nat.add_sub_cancel_left, hnew'.content, (hcontent₄' o).1,
    (hcontent₃ o).1, hbytes j hj]

/-- **A program header**: if it is one of a segment to load, the child has the segment. -/
theorem loadSegment_ifOk (hload : ph.pType = ptLoad → ph.LoadableFrom b.elfData.bytes.length)
    (hself : s.Stands b.selfAspace (.space self)) (haspace : s.Stands c.aspace (.space space)) :
    (b.loadSegment c ph).Always (World.Behaves self) (IfOk fun _ s' ↦ s.Extends s'
      ∧ (ph.pType = ptLoad → s'.Shows space ph b.elfData.bytes)) s := by
  rw [loadSegment]
  by_cases htype : ph.pType = ptLoad
  · rw [if_pos htype]
    split_ifs
    · exact giveUp_ifOk _ _ s
    cases hmemSize : ph.memSize with
    | none => exact fun a ha ↦ nomatch ha
    | some memSize =>
      have hsize := Elf64Phdr.memSize_le hmemSize
      rw [placeSegment]
      by_cases hnone : memSize = 0
      · rw [if_pos hnone]
        refine IfOk.of_ok ⟨World.Extends.refl s, fun _ j hj ↦ ?_⟩
        omega
      rw [if_neg hnone]
      rintro (_ | mem) s' hcreate
      · exact giveUp_ifOk _ _ s'
      obtain ⟨hhandle, o, ho, hnew⟩ := hcreate
      have hextends := hnew.extends hhandle
      have hmem : s'.Stands ⟨mem⟩ (.object o) := ⟨hhandle.handles ▸ Set.mem_insert _ _, ho⟩
      refine (fillSegment_ifOk (hload htype) hsize.1 hsize.2 (hextends.stands hself)
        (hextends.stands haspace) hmem hnew.size_eq hnew.zero (hnew.maps ▸ hnew.unmapped)).imp ?_
      intro result s'' h a ha
      exact ⟨hextends.trans (h a ha).1, fun _ ↦ (h a ha).2⟩
  · rw [if_neg htype]
    exact IfOk.of_ok ⟨World.Extends.refl s, fun h ↦ absurd h htype⟩

/-- **Every segment**: one that is loaded is not disturbed by those that follow. -/
theorem loadSegments_ifOk {phs : List Elf64Phdr}
    (hload : ∀ ph ∈ phs, ph.pType = ptLoad → ph.LoadableFrom b.elfData.bytes.length)
    (hself : s.Stands b.selfAspace (.space self)) (haspace : s.Stands c.aspace (.space space)) :
    (b.loadSegments c phs).Always (World.Behaves self) (IfOk fun _ s' ↦ s.Extends s'
      ∧ ∀ ph ∈ phs, ph.pType = ptLoad → s'.Shows space ph b.elfData.bytes) s := by
  induction phs generalizing s with
  | nil => exact IfOk.of_ok ⟨World.Extends.refl s, fun ph hph ↦ nomatch hph⟩
  | cons ph phs ih =>
    refine andThen_ifOk (loadSegment_ifOk (hload ph List.mem_cons_self) hself haspace) ?_
    rintro _ s' ⟨hextends, hshows⟩
    refine (ih (fun ph hph ↦ hload ph (List.mem_cons_of_mem _ hph)) (hextends.stands hself)
      (hextends.stands haspace)).imp ?_
    intro result s'' h a ha
    obtain ⟨hextends', hshows'⟩ := h a ha
    refine ⟨hextends.trans hextends', fun ph' hph' htype ↦ ?_⟩
    rcases List.mem_cons.mp hph' with rfl | hph'
    · exact (hshows htype).extends hextends'
    · exact hshows' ph' hph' htype

end ProcessBuilder

/-! ## The stack and the start -/

namespace World

/-- One mapping takes exactly the addresses from `base` to `top`, and can be read and written. -/
def HasStack (s : World) (space base top : ℕ) : Prop :=
  ∃ id, (∀ a, base ≤ a ∧ a < top ↔ ∃ e, s.maps space a = some e ∧ e.mapping = id)
    ∧ ∀ a e, s.maps space a = some e → e.mapping = id →
      e.rights.contains (Rights.read ||| Rights.write) = true

theorem NewMapping.hasStack {s s' : World} {space object vaddr id : ℕ} {rights : Rights}
    (h : s.NewMapping space object vaddr rights id s')
    (hrights : rights.contains (Rights.read ||| Rights.write) = true) :
    s'.HasStack space vaddr (vaddr + s.size object) := by
  have hinside : ∀ a e, s'.maps space a = some e → e.mapping = id →
      vaddr ≤ a ∧ a < vaddr + s.size object := by
    intro a e he hid
    by_contra hout
    rw [h.others space a fun _ hlo ↦ not_lt.mp fun hhi ↦ hout ⟨hlo, hhi⟩] at he
    exact h.unused space a e he hid
  refine ⟨id, fun a ↦ ⟨fun ha ↦ ⟨_, h.entries a ha.1 ha.2, rfl⟩, ?_⟩, fun a e he hid ↦ ?_⟩
  · rintro ⟨e, he, hid⟩
    exact hinside a e he hid
  · obtain ⟨hlo, hhi⟩ := hinside a e he hid
    rw [h.entries a hlo hhi] at he
    obtain rfl := Option.some.inj he
    exact hrights

/-- The memory and what the handles stand for are the same. -/
structure Rests (s s' : World) : Prop extends s.SameMemory s' where
  referent : s'.referent = s.referent

variable {s s' s'' : World}

theorem Rests.refl (s : World) : s.Rests s := ⟨⟨rfl, rfl, rfl, rfl⟩, rfl⟩

theorem Rests.trans (h : s.Rests s') (h' : s'.Rests s'') : s.Rests s'' :=
  ⟨⟨h'.spaceOf.trans h.spaceOf, h'.size.trans h.size, h'.content.trans h.content,
    h'.maps.trans h.maps⟩, h'.referent.trans h.referent⟩

theorem Rests.shows {space : ℕ} {ph : Elf64Phdr} {image : List UInt8} (h : s.Rests s')
    (hshows : s.Shows space ph image) : s'.Shows space ph image := by
  rw [Shows, h.maps, h.content]
  exact hshows

theorem Rests.hasStack {space base top : ℕ} (h : s.Rests s') (hstack : s.HasStack space base top) :
    s'.HasStack space base top := by
  rw [HasStack, h.maps]
  exact hstack

/-- The handles of the parts of a process can be deleted without harm to its memory. -/
theorem Releases.rests {g : Handle} (h : s.Releases g s') (hpart : (s.referent g).isPart = true)
    (hcontent : ∀ o, s.referent g ≠ .object o →
      s'.content o = s.content o ∧ s'.size o = s.size o) :
    s.Rests s' ∧ s'.configured = s.configured := by
  have hcontent' : ∀ o, s'.content o = s.content o ∧ s'.size o = s.size o := by
    refine fun o ↦ hcontent o fun heq ↦ ?_
    rw [heq] at hpart
    cases hpart
  refine ⟨⟨⟨h.spaceOf, funext fun o ↦ (hcontent' o).2, funext fun o ↦ (hcontent' o).1, ?_⟩,
    h.referent⟩, h.configured⟩
  funext space a
  rcases h.maps space a with heq | ⟨e, -, heq⟩
  · exact heq
  · rw [heq] at hpart
    cases hpart

end World

theorem deleteHandles_rests (result : Except SpawnExit α) {handles : List Handle}
    (hparts : ∀ g ∈ handles, (s.referent g).isPart = true) :
    (deleteHandles result handles).Always (World.Behaves self)
      (fun r s' ↦ r = result ∧ s.Rests s' ∧ s'.configured = s.configured) s := by
  induction handles generalizing s with
  | nil => exact ⟨rfl, World.Rests.refl s, rfl⟩
  | cons g handles ih =>
    rintro _ s₁ ⟨hrelease, hcontent⟩
    obtain ⟨hrests, hconfigured⟩ := hrelease.rests (hparts g List.mem_cons_self) hcontent
    have hparts₁ : ∀ g ∈ handles, (s₁.referent g).isPart = true := by
      intro k hk
      rw [hrests.referent]
      exact hparts k (List.mem_cons_of_mem _ hk)
    refine (ih hparts₁).imp ?_
    rintro r s' ⟨rfl, hrests', hconfigured'⟩
    exact ⟨rfl, hrests.trans hrests', hconfigured'.trans hconfigured⟩

/-- The handles of a process that is being built stand for it and for its parts. -/
structure World.Holds (s : World) (c : ChildHandles) (p : ℕ) : Prop where
  process : s.Stands c.process (.process p)
  aspace : s.Stands c.aspace (.space (s.spaceOf p))
  thread : ∃ id, s.Stands c.thread (.thread id)
  cspace : ∃ id, s.Stands c.cspace (.capabilitySpace id)

theorem World.Holds.extends {s s' : World} {c : ChildHandles} {p : ℕ} (h : s.Holds c p)
    (hextends : s.Extends s') : s'.Holds c p where
  process := hextends.stands h.process
  aspace := hextends.spaceOf ▸ hextends.stands h.aspace
  thread := h.thread.imp fun _ hid ↦ hextends.stands hid
  cspace := h.cspace.imp fun _ hid ↦ hextends.stands hid

/-- A caller with a factory and its own address space, and nothing mapped anywhere. -/
def World.bare : World where
  handles := {⟨1⟩, ⟨2⟩}
  referent g := if g = ⟨2⟩ then .space 0 else .process 0
  spaceOf _ := 0
  size _ := 0
  content _ _ := 0
  maps _ _ := none
  configured _ := none

namespace ProcessBuilder

variable {b : ProcessBuilder} {c : ChildHandles} {p : ℕ}

theorem mapStack_ifOk {space : ℕ} (haspace : s.Stands c.aspace (.space space)) :
    (b.mapStack c).Always (World.Behaves self) (IfOk fun _ s' ↦ s.Extends s'
      ∧ s'.HasStack space stackVaddr (stackVaddr + stackSize)) s := by
  rintro (_ | mem) s₁ hcreate
  · exact giveUp_ifOk _ _ s₁
  obtain ⟨hhandle, o, ho, hnew⟩ := hcreate
  have hextends := hnew.extends hhandle
  rintro (_ | mapping) s₂ hmap
  · exact giveUp_ifOk _ _ s₂
  obtain ⟨hhandle', space', o', id, hspace', ho', -, hmapping⟩ := hmap
  obtain rfl : space = space' :=
    Referent.space.inj ((hextends.stands haspace).2.symm.trans hspace')
  obtain rfl : o = o' := Referent.object.inj (ho.symm.trans ho')
  refine IfOk.of_ok ⟨hextends.trans (hmapping.extends hhandle'), ?_⟩
  rw [← hnew.size_eq]
  exact hmapping.hasStack (by decide)

theorem installCapabilities_ifOk {capabilities : List (ℕ × Handle × Rights)} :
    (installCapabilities c capabilities).Always (World.Behaves self)
      (IfOk fun _ s' ↦ s.Rests s' ∧ s'.handles = s.handles) s := by
  induction capabilities generalizing s with
  | nil => exact IfOk.of_ok ⟨World.Rests.refl s, rfl⟩
  | cons capability capabilities ih =>
    rintro (_ | raw) s₁ hinstall
    · exact giveUp_ifOk _ _ s₁
    obtain ⟨hsame, hhandles, hreferent⟩ := hinstall
    refine ih.imp fun result s' h a ha ↦ ?_
    obtain ⟨hrests, hhandles'⟩ := h a ha
    exact ⟨World.Rests.trans ⟨hsame, hreferent⟩ hrests, hhandles'.trans hhandles⟩

/-- **The start**: the main thread has its entry point and its stack, and nothing else has changed.
-/
theorem startProcess_ifOk {entry : ℕ} (hc : s.Holds c p) :
    (startProcess c entry).Always (World.Behaves self) (IfOk fun process s' ↦
      process = c.process ∧ s.Rests s'
        ∧ s'.configured p = some (entry, stackVaddr + stackSize)) s := by
  rintro (_ | raw) s₁ hconfigure
  · exact giveUp_ifOk _ _ s₁
  obtain ⟨hsame₁, -, hreferent₁, hconfigured⟩ := hconfigure
  rintro (_ | raw) s₂ hstart
  · exact giveUp_ifOk _ _ s₂
  obtain ⟨hsame₂, -, hreferent₂, hconfigured₂⟩ := hstart
  have hrests₂ : s.Rests s₂ := World.Rests.trans ⟨hsame₁, hreferent₁⟩ ⟨hsame₂, hreferent₂⟩
  have hparts : ∀ g ∈ [c.cspace, c.thread, c.aspace], (s₂.referent g).isPart = true := by
    obtain ⟨id, hthread⟩ := hc.thread
    obtain ⟨id', hcspace⟩ := hc.cspace
    rw [hrests₂.referent]
    simp only [List.forall_mem_cons, hcspace.2, hthread.2, hc.aspace.2, Referent.isPart, true_and]
    exact fun g hg ↦ nomatch hg
  refine (deleteHandles_rests _ hparts).imp ?_
  rintro r s' ⟨rfl, hrests, hconfigured'⟩
  apply IfOk.of_ok
  refine ⟨rfl, hrests₂.trans hrests, ?_⟩
  rw [hconfigured', hconfigured₂]
  exact hconfigured p hc.process.2

/-- **The parts of the process**: every handle is a new one and stands for what it is acquired for.
-/
theorem acquire_ifOk {g : Handle} {r : Referent} (hg : s.Stands g r) :
    b.acquire.Always (World.Behaves self)
      (IfOk fun c s' ↦ s'.Stands g r ∧ ∃ p, s'.Holds c p) s := by
  rintro (_ | process) s₁ hcreate
  · exact giveUp_ifOk _ _ s₁
  obtain ⟨hhandle₁, -, -, -, p, hp⟩ := hcreate
  have hg₁ : s₁.Stands g r :=
    ⟨(hhandle₁.extends_handles hg.1).1, (hhandle₁.extends_handles hg.1).2.trans hg.2⟩
  have hprocess : s₁.Stands ⟨process⟩ (.process p) := ⟨hhandle₁.handles ▸ Set.mem_insert _ _, hp⟩
  rintro (_ | aspace) s₂ hacquire
  · exact giveUp_ifOk _ _ s₂
  obtain ⟨hsame₂, hhandle₂, haspace⟩ := hacquire
  have hextends₂ := hsame₂.extends fun _ hk ↦ hhandle₂.extends_handles hk
  have haspace₂ : s₂.Stands ⟨aspace⟩ (.space (s₁.spaceOf p)) :=
    ⟨hhandle₂.handles ▸ Set.mem_insert _ _, haspace p hp⟩
  rintro (_ | thread) s₃ hacquire
  · exact giveUp_ifOk _ _ s₃
  obtain ⟨hsame₃, hhandle₃, id, hid⟩ := hacquire
  have hextends₃ := hsame₃.extends fun _ hk ↦ hhandle₃.extends_handles hk
  have hthread : s₃.Stands ⟨thread⟩ (.thread id) := ⟨hhandle₃.handles ▸ Set.mem_insert _ _, hid⟩
  rintro (_ | cspace) s₄ hacquire
  · exact giveUp_ifOk _ _ s₄
  obtain ⟨hsame₄, hhandle₄, id', hid'⟩ := hacquire
  have hextends₄ := hsame₄.extends fun _ hk ↦ hhandle₄.extends_handles hk
  have hextends := hextends₂.trans (hextends₃.trans hextends₄)
  refine IfOk.of_ok ⟨hextends.stands hg₁, p, hextends.stands hprocess, ?_,
    ⟨id, hextends₄.stands hthread⟩, id', hhandle₄.handles ▸ Set.mem_insert _ _, hid'⟩
  rw [hextends.spaceOf]
  exact (hextends₃.trans hextends₄).stands haspace₂

/-- **From the parts to the process.** -/
theorem build_ifOk {phs : List Elf64Phdr} {entry : ℕ} (hc : s.Holds c p)
    (hload : ∀ ph ∈ phs, ph.pType = ptLoad → ph.LoadableFrom b.elfData.bytes.length)
    (hself : s.Stands b.selfAspace (.space self)) :
    (b.build phs entry c).Always (World.Behaves self) (IfOk fun process s' ↦
      s'.referent process = .process p
        ∧ (∀ ph ∈ phs, ph.pType = ptLoad → s'.Shows (s'.spaceOf p) ph b.elfData.bytes)
        ∧ s'.configured p = some (entry, stackVaddr + stackSize)
        ∧ s'.HasStack (s'.spaceOf p) stackVaddr (stackVaddr + stackSize)) s := by
  refine andThen_ifOk (loadSegments_ifOk hload hself hc.aspace) ?_
  rintro _ s₁ ⟨hextends₁, hshows⟩
  refine andThen_ifOk (mapStack_ifOk (hextends₁.stands hc.aspace)) ?_
  rintro _ s₂ ⟨hextends₂, hstack⟩
  have hextends := hextends₁.trans hextends₂
  refine andThen_ifOk installCapabilities_ifOk ?_
  rintro _ s₃ ⟨hrests₃, hhandles₃⟩
  have hextends₃ : s.Extends s₃ := hextends.trans (hrests₃.toSameMemory.extends fun g hg ↦
    ⟨hhandles₃ ▸ hg, congrFun hrests₃.referent g⟩)
  refine (startProcess_ifOk (hc.extends hextends₃)).imp fun result s' h process hresult ↦ ?_
  obtain ⟨rfl, hrests', hconfigured⟩ := h process hresult
  have hrests := hrests₃.trans hrests'
  have hspace : s'.spaceOf = s.spaceOf := hrests.spaceOf.trans hextends.spaceOf
  rw [hspace]
  refine ⟨?_, fun ph hph htype ↦ ?_, hconfigured, hrests.hasStack hstack⟩
  · rw [hrests'.referent]
    exact (hc.extends hextends₃).process.2
  · exact hrests.shows ((hshows ph hph htype).extends hextends₂)

/-- **A spawned process sees its image**: if `spawn` succeeds, the handle it returns stands for a
process whose address space has every loaded segment, its bytes of the file and then zeros, with the
rights of its flags; and the process starts at the entry point of the image, with the top of a stack
that is mapped. -/
theorem spawned_process_sees_image (b : ProcessBuilder) (self : ℕ) (w : World)
    (hself : w.Stands b.selfAspace (.space self)) :
    b.spawn.Always (World.Behaves self) (IfOk fun process s ↦ ∃ p,
      s.referent process = .process p
        ∧ (∀ i < (fileHeader b.elfData.bytes).ePhnum,
            (tableEntry b.elfData.bytes i).pType = ptLoad →
              s.Shows (s.spaceOf p) (tableEntry b.elfData.bytes i) b.elfData.bytes)
        ∧ ∃ base top, base < top
            ∧ s.configured p = some ((fileHeader b.elfData.bytes).eEntry, top)
            ∧ s.HasStack (s.spaceOf p) base top) w := by
  obtain ⟨answer, hnew, hanswer⟩ := ElfParser.answers b.elfData
  rw [spawn, hnew]
  rcases answer with e | parser
  · exact fun a ha ↦ nomatch ha
  obtain ⟨rfl, hloadable⟩ := hanswer parser rfl
  dsimp only
  refine andThen_ifOk (acquire_ifOk hself) ?_
  rintro c s₁ ⟨hself₁, p, hc⟩
  rw [ElfParser.programHeaders_eq hloadable]
  dsimp only
  have hload : ∀ ph ∈ (List.range (fileHeader b.elfData.bytes).ePhnum).map
      (tableEntry b.elfData.bytes), ph.pType = ptLoad →
        ph.LoadableFrom b.elfData.bytes.length := by
    intro ph hph
    obtain ⟨i, hi, rfl⟩ := List.mem_map.mp hph
    exact hloadable.segments i (List.mem_range.mp hi)
  refine (build_ifOk hc hload hself₁).imp fun result s' h process hresult ↦ ?_
  obtain ⟨hprocess, hshows, hconfigured, hstack⟩ := h process hresult
  refine ⟨p, hprocess, fun i hi ↦ ?_, stackVaddr, _, by decide, hconfigured, hstack⟩
  exact hshows _ (List.mem_map.mpr ⟨i, List.mem_range.mpr hi, rfl⟩)

theorem smallBuilder_sees_image :
    smallBuilder.spawn.Always (World.Behaves 0) (IfOk fun process s ↦ ∃ p,
      s.referent process = .process p
        ∧ s.Shows (s.spaceOf p) (tableEntry ElfParser.smallImage.bytes 0) ElfParser.smallImage.bytes
        ∧ ∃ top, s.configured p = some (0x400000, top)) World.bare := by
  refine (spawned_process_sees_image smallBuilder 0 World.bare ⟨Or.inr rfl, rfl⟩).imp ?_
  intro result s h process hresult
  obtain ⟨p, hprocess, hshows, base, top, -, hconfigured, -⟩ := h process hresult
  exact ⟨p, hprocess, hshows 0 (by decide) (by decide), top, hconfigured⟩

end ProcessBuilder

end Gaxera

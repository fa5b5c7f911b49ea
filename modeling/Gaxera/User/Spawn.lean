import Gaxera.Data.Script
import Gaxera.Elf.Parser

/-!
# Building a process

`ProcessBuilder::spawn` of the user library, as a script of the system calls it makes. An answer is
the word a call returns, or nothing if the call fails; the library does not look at the reason. The
one access to memory that is not a call, the copy of a segment through the temporary window, is a
request as well.

The image is parsed first; then the process is created and its parts are acquired, every loaded
segment gets a memory object that is filled through the window and mapped into the child, and the
stack, the capabilities and the start follow. Every call has its own way out.
-/

namespace Gaxera

/-- The operations on a process that the builder uses. -/
inductive ProcessControlOp
  | acquireAddressSpace
  | acquireMainThread
  | installCapability
  | acquireCapabilitySpace
  | configureMainThread
  | start
deriving DecidableEq, Repr

inductive SpawnCall
  | createProcess (factory : Handle) (maxObjects maxCapabilities maxMemoryBytes : ℕ)
  | processControl (process : Handle) (operation : ProcessControlOp) (arg1 arg2 arg3 : ℕ)
  | createMemoryObject (factory : Handle) (sizeBytes : ℕ)
  | mapMemory (aspace memoryObject : Handle) (vaddr : ℕ) (rights : Rights)
  | unmapMemory (mapping : Handle)
  | deleteHandle (handle : Handle)
  /-- Bytes are written to the memory of the caller. -/
  | copy (destination : ℕ) (bytes : List UInt8)
deriving DecidableEq, Repr

inductive ProcessBuildError
  | elfParseFailed
  | createProcessFailed
  | acquireComponentFailed
  | memoryAllocationFailed
  | temporaryMappingFailed
  | childMappingFailed
  | stackMappingFailed
  | capabilityInstallFailed
  | threadConfigurationFailed
  | startFailed
deriving DecidableEq, Repr

/-- How `spawn` ends without a process: it returns an error, or it has read the image amiss. -/
inductive SpawnExit
  | failed (e : ProcessBuildError)
  | faulted (fault : Fault)
deriving DecidableEq, Repr

abbrev SpawnScript (α : Type) := Script SpawnCall (Option UInt64) (Except SpawnExit α)

structure ProcessBuilder where
  factory : Handle
  selfAspace : Handle
  elfData : Buffer
  imageFactory : Option Handle
  capabilities : List (ℕ × Handle × Rights)

/-- The handles of a process that is being built. -/
structure ChildHandles where
  process : Handle
  aspace : Handle
  thread : Handle
  cspace : Handle
deriving DecidableEq, Repr

/-- Handles are deleted one after the other, whether that works or not. -/
def deleteHandles {α : Type} (result : Except SpawnExit α) : List Handle → SpawnScript α
  | [] => .done result
  | h :: handles => .ask (.deleteHandle h) fun _ ↦ deleteHandles result handles

def giveUp {α : Type} (handles : List Handle) (e : ProcessBuildError) : SpawnScript α :=
  deleteHandles (.error (.failed e)) handles

/-! ## The segments -/

namespace Elf64Phdr

def segmentOffset (ph : Elf64Phdr) : ℕ := ph.pVaddr % 4096

def mapVaddr (ph : Elf64Phdr) : ℕ := ph.pVaddr / 4096 * 4096

/-- The segment with what precedes it on its first page, in whole pages. -/
def memSize (ph : Elf64Phdr) : Option ℕ :=
  ((checkedAdd 64 ph.segmentOffset ph.pMemsz).bind fun size ↦ checkedAdd 64 size 4095).map
    fun size ↦ size / 4096 * 4096

def segmentRights (ph : Elf64Phdr) : Rights :=
  (if ph.isExec then fun r ↦ r ||| Rights.execute else id)
    ((if ph.isWrite then fun r ↦ r ||| Rights.write else id) Rights.read)

end Elf64Phdr

def tempVaddr : ℕ := 0x500000000000

namespace ProcessBuilder

variable (b : ProcessBuilder)

def imgFactory : Handle := b.imageFactory.getD b.factory

/-- The file bytes of a segment are copied behind its offset in the window. -/
def copySegment (ph : Elf64Phdr) (memSize : ℕ) : SpawnScript Unit :=
  if 0 < ph.pFilesz
      ∧ ((checkedAdd 64 ph.pOffset ph.pFilesz).any fun stop ↦
          decide (stop ≤ b.elfData.bytes.length)) = true
      ∧ ((checkedAdd 64 ph.segmentOffset ph.pFilesz).any fun stop ↦ decide (stop ≤ memSize)) = true
  then
    match readAt b.elfData.bytes ph.pOffset ph.pFilesz with
    | .error fault => .done (.error (.faulted fault))
    | .ok bytes => .ask (.copy (tempVaddr + ph.segmentOffset) bytes) fun _ ↦ .done (.ok ())
  else .done (.ok ())

/-- From the memory object of a segment on. -/
def fillSegment (c : ChildHandles) (ph : Elf64Phdr) (memSize : ℕ) (mem : Handle) :
    SpawnScript Unit :=
  .ask (.mapMemory b.selfAspace mem tempVaddr (Rights.read ||| Rights.write)) fun
    | none => giveUp [mem, c.thread, c.aspace, c.process] .temporaryMappingFailed
    | some temp =>
      (b.copySegment ph memSize).andThen fun _ ↦
        .ask (.unmapMemory ⟨temp⟩) fun _ ↦
        .ask (.deleteHandle ⟨temp⟩) fun _ ↦
        .ask (.mapMemory c.aspace mem ph.mapVaddr ph.segmentRights) fun
          | none => giveUp [mem, c.thread, c.aspace, c.process] .childMappingFailed
          | some _ => .done (.ok ())

/-- A segment of which the size is known; no object is made for one that has no page. -/
def placeSegment (c : ChildHandles) (ph : Elf64Phdr) : Option ℕ → SpawnScript Unit
  | none => .done (.error (.failed .memoryAllocationFailed))
  | some memSize =>
    if memSize = 0 then .done (.ok ())
    else
      .ask (.createMemoryObject (if ph.isExec then b.imgFactory else b.factory) memSize) fun
        | none => giveUp [c.thread, c.aspace, c.process] .memoryAllocationFailed
        | some mem => b.fillSegment c ph memSize ⟨mem⟩

def loadSegment (c : ChildHandles) (ph : Elf64Phdr) : SpawnScript Unit :=
  if ph.pType = ptLoad then
    if ph.isExec && ph.isWrite then giveUp [c.thread, c.aspace, c.process] .elfParseFailed
    else b.placeSegment c ph ph.memSize
  else .done (.ok ())

def loadSegments (c : ChildHandles) : List Elf64Phdr → SpawnScript Unit
  | [] => .done (.ok ())
  | ph :: phs => (b.loadSegment c ph).andThen fun _ ↦ loadSegments c phs

/-! ## The process -/

/-- The process is created, and its parts are acquired. -/
def acquire : SpawnScript ChildHandles :=
  .ask (.createProcess b.factory 128 128 (4 * 1024 * 1024)) fun
    | none => giveUp [] .createProcessFailed
    | some process =>
      .ask (.processControl ⟨process⟩ .acquireAddressSpace 0 0 0) fun
        | none => giveUp [⟨process⟩] .acquireComponentFailed
        | some aspace =>
          .ask (.processControl ⟨process⟩ .acquireMainThread 0 0 0) fun
            | none => giveUp [⟨aspace⟩, ⟨process⟩] .acquireComponentFailed
            | some thread =>
              .ask (.processControl ⟨process⟩ .acquireCapabilitySpace 0 0 0) fun
                | none => giveUp [⟨thread⟩, ⟨aspace⟩, ⟨process⟩] .acquireComponentFailed
                | some cspace => .done (.ok ⟨⟨process⟩, ⟨aspace⟩, ⟨thread⟩, ⟨cspace⟩⟩)

def stackSize : ℕ := 64 * 1024

def stackVaddr : ℕ := 0x7ffffe000000

def mapStack (c : ChildHandles) : SpawnScript Unit :=
  .ask (.createMemoryObject b.factory stackSize) fun
    | none => giveUp [c.thread, c.aspace, c.process] .memoryAllocationFailed
    | some mem =>
      .ask (.mapMemory c.aspace ⟨mem⟩ stackVaddr (Rights.read ||| Rights.write)) fun
        | none => giveUp [⟨mem⟩, c.thread, c.aspace, c.process] .stackMappingFailed
        | some _ => .done (.ok ())

def installCapabilities (c : ChildHandles) : List (ℕ × Handle × Rights) → SpawnScript Unit
  | [] => .done (.ok ())
  | (slot, handle, rights) :: capabilities =>
    .ask (.processControl c.process .installCapability handle.raw.toNat rights.bits.toNat slot) fun
      | none => giveUp [c.cspace, c.thread, c.aspace, c.process] .capabilityInstallFailed
      | some _ => installCapabilities c capabilities

/-- The main thread is configured and started; what is returned is the process. -/
def startProcess (c : ChildHandles) (entry : ℕ) : SpawnScript Handle :=
  .ask (.processControl c.process .configureMainThread entry (stackVaddr + stackSize) 0) fun
    | none => giveUp [c.thread, c.aspace, c.process] .threadConfigurationFailed
    | some _ =>
      .ask (.processControl c.process .start 0 0 0) fun
        | none => giveUp [c.thread, c.aspace, c.process] .startFailed
        | some _ => deleteHandles (.ok c.process) [c.cspace, c.thread, c.aspace]

/-- What follows when the parts of the process are there. -/
def build (phs : List Elf64Phdr) (entry : ℕ) (c : ChildHandles) : SpawnScript Handle :=
  (b.loadSegments c phs).andThen fun _ ↦
    (b.mapStack c).andThen fun _ ↦
      (installCapabilities c b.capabilities).andThen fun _ ↦ startProcess c entry

def spawn : SpawnScript Handle :=
  match ElfParser.new b.elfData with
  | .error fault => .done (.error (.faulted fault))
  | .ok (.error _) => .done (.error (.failed .elfParseFailed))
  | .ok (.ok parser) =>
    b.acquire.andThen fun c ↦
      match parser.programHeaders with
      | .error fault => .done (.error (.faulted fault))
      | .ok phs => b.build phs parser.header.eEntry c

/-- A builder of the small image, from the handles of a factory and of the caller's memory. -/
def smallBuilder : ProcessBuilder := ⟨⟨1⟩, ⟨2⟩, ElfParser.smallImage, none, []⟩

end ProcessBuilder

end Gaxera

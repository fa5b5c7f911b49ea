import Gaxera.Core.Memory

/-!
# Physical frames

The segmented bitmap allocator: one bit a frame, set when the frame is in use, over a list of
managed ranges that number their frames one after the other. The words of the bitmap are laid end
to end here, so that searching them word by word and bit by bit from the low end is searching the
list from its front.
-/

namespace Gaxera

structure PhysicalRange where
  start : ℕ
  stop : ℕ
deriving DecidableEq, Repr

namespace PhysicalRange

def frameCount (r : PhysicalRange) : ℕ := (r.stop - r.start) / pageSize

def containsFrame (r : PhysicalRange) (frame : ℕ) : Bool :=
  decide (r.start ≤ frame ∧ frame < r.stop ∧ frame % pageSize = 0)

end PhysicalRange

inductive PhysicalAllocatorError
  | addressOverflow
  | invalidPhysicalAddress
  | tooManyUsableRanges
  | tooManyReservations
  | overlappingUsableRanges
  | invalidReservation
  | insufficientBitmapStorage
  | frameOutsideManagedMemory
  | frameAlreadyFree
deriving DecidableEq, Repr

/-- A range of usable memory, and the number of its first frame. -/
structure ManagedRange where
  physical : PhysicalRange
  bitmapStart : ℕ
deriving DecidableEq, Repr

/-- `SegmentedBitmapFrameAllocator`. -/
structure FrameAllocator where
  bitmap : List Bool
  ranges : List ManagedRange
  frameCount : ℕ
deriving DecidableEq, Repr

/-- `frame_from_address`: physical addresses have 52 bits, and frames are aligned. -/
def frameFromAddress (address : ℕ) : Except PhysicalAllocatorError ℕ :=
  if 2 ^ 52 ≤ address ∨ address % pageSize ≠ 0 then .error .invalidPhysicalAddress
  else .ok address

namespace FrameAllocator

def frameAddress (a : FrameAllocator) (index : ℕ) : Except PhysicalAllocatorError ℕ :=
  match a.ranges.find? fun r ↦ decide (index < r.bitmapStart + r.physical.frameCount) with
  | none => .error .frameOutsideManagedMemory
  | some r =>
    match checkedAdd 64 r.physical.start ((index - r.bitmapStart) * pageSize) with
    | none => .error .addressOverflow
    | some address => .ok address

def frameIndex (a : FrameAllocator) (address : ℕ) : Except PhysicalAllocatorError ℕ :=
  match a.ranges.find? fun r ↦ r.physical.containsFrame address with
  | none => .error .frameOutsideManagedMemory
  | some r => .ok (r.bitmapStart + (address - r.physical.start) / pageSize)

def isUsed (a : FrameAllocator) (index : ℕ) : Bool := a.bitmap.getD index true

def markUsed (a : FrameAllocator) (index : ℕ) : FrameAllocator :=
  { a with bitmap := a.bitmap.set index true }

def markFree (a : FrameAllocator) (index : ℕ) : FrameAllocator :=
  { a with bitmap := a.bitmap.set index false }

/-- The first free frame. The bit is set before the address is computed. -/
def allocate (a : FrameAllocator) : Option ℕ × FrameAllocator :=
  match a.bitmap.findIdx? fun used ↦ !used with
  | none => (none, a)
  | some index =>
    if a.frameCount ≤ index then (none, a)
    else
      match a.frameAddress index with
      | .error _ => (none, a.markUsed index)
      | .ok address =>
        match frameFromAddress address with
        | .error _ => (none, a.markUsed index)
        | .ok frame => (some frame, a.markUsed index)

def deallocate (a : FrameAllocator) (frame : ℕ) :
    Except PhysicalAllocatorError Unit × FrameAllocator :=
  match a.frameIndex frame with
  | .error e => (.error e, a)
  | .ok index =>
    if a.isUsed index = false then (.error .frameAlreadyFree, a)
    else (.ok (), a.markFree index)

/-- The frames are handed back one after the other; an error of one is ignored. -/
def deallocateFrames (a : FrameAllocator) (frames : List ℕ) : FrameAllocator :=
  frames.foldl (fun a frame ↦ (a.deallocate frame).2) a

def allFree (a : FrameAllocator) (index pageCount : ℕ) : Bool :=
  (List.range pageCount).all fun k ↦ !a.isUsed (index + k)

def markRangeUsed (a : FrameAllocator) (index pageCount : ℕ) : FrameAllocator :=
  (List.range pageCount).foldl (fun a k ↦ a.markUsed (index + k)) a

/-- The first place of one range where `pageCount` free frames start at a multiple of their total
size. -/
def findContiguous (a : FrameAllocator) (pageCount : ℕ) (r : ManagedRange) : Option ℕ :=
  if r.physical.frameCount < pageCount then none
  else
    (List.range (r.physical.frameCount - pageCount + 1)).find? fun start ↦
      decide ((r.physical.start + start * pageSize) % (pageCount * pageSize) = 0)
        && a.allFree (r.bitmapStart + start) pageCount

def allocateContiguous (a : FrameAllocator) (pageCount : ℕ) : Option ℕ × FrameAllocator :=
  if pageCount = 0 then (none, a)
  else
    match a.ranges.findSome? fun r ↦ (a.findContiguous pageCount r).map fun start ↦ (r, start) with
    | none => (none, a)
    | some (r, start) =>
      (some (r.physical.start + start * pageSize),
        a.markRangeUsed (r.bitmapStart + start) pageCount)

/-- The loop of `deallocate_contiguous` over the remaining pages: the first error ends it, and what
was freed before stays free. -/
def deallocateContiguousLoop (a : FrameAllocator) (base : ℕ) :
    ℕ → Except PhysicalAllocatorError Unit × FrameAllocator
  | 0 => (.ok (), a)
  | remaining + 1 =>
    match a.deallocate base with
    | (.error e, a) => (.error e, a)
    | (.ok (), a) => a.deallocateContiguousLoop (base + pageSize) remaining

def deallocateContiguous (a : FrameAllocator) (baseFrame pageCount : ℕ) :
    Except PhysicalAllocatorError Unit × FrameAllocator :=
  if pageCount = 0 ∨ baseFrame % pageSize ≠ 0 then (.error .invalidPhysicalAddress, a)
  else a.deallocateContiguousLoop baseFrame pageCount

/-! ## Free frames -/

/-- Whether the allocator manages a frame and has it free. -/
def isFree (a : FrameAllocator) (frame : ℕ) : Bool :=
  match a.frameIndex frame with
  | .ok index => !a.isUsed index
  | .error _ => false

end FrameAllocator

end Gaxera

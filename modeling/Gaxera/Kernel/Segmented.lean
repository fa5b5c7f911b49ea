import Gaxera.Data.WordBitmap
import Gaxera.Kernel.Frames

/-!
# The segmented bitmap

The frame allocator as it is built at boot, over the words of its bitmap. The usable regions of the
memory map are cut down to whole frames, numbered one after the other, and every frame is marked
free that no boot reservation covers; the bits past the last frame stay set.

`flat` lays the words end to end. The allocator does to its words what the flat one does to its
bits, so whatever is known of free frames there holds here.
-/

namespace Gaxera

open WordBitmap

/-! ## The memory map -/

inductive MemoryKind
  | usable
  | reserved
  | acpiReclaimable
  | acpiNvs
  | badMemory
  | bootloaderReclaimable
  | executableAndModules
  | framebuffer
  | mappedReserved
  | unknown
deriving DecidableEq, Repr

/-- A region of the memory map; its bounds are 64-bit addresses. -/
structure MemoryRegion where
  start : ℕ
  stop : ℕ
  kind : MemoryKind
  start_lt : start < 2 ^ 64
  stop_lt : stop < 2 ^ 64

/-- A frame lies within a region. -/
def MemoryRegion.Holds (region : MemoryRegion) (frame : ℕ) : Prop :=
  region.start ≤ frame ∧ frame + pageSize ≤ region.stop ∧ frame % pageSize = 0

/-- A frame of usable memory. -/
def UsableFrame (regions : List MemoryRegion) (frame : ℕ) : Prop :=
  ∃ region ∈ regions, region.kind = .usable ∧ region.Holds frame

def maxUsableRanges : ℕ := 64

/-- `value & !(PAGE_SIZE - 1)`: the low twelve bits are cleared. -/
def alignDown (address : ℕ) : ℕ := address / pageSize * pageSize

/-- `ok_or`. -/
def okOr {ε α : Type} (e : ε) : Option α → Except ε α
  | none => .error e
  | some a => .ok a

theorem okOr_eq_ok {ε α : Type} {e : ε} {o : Option α} {a : α} : okOr e o = .ok a ↔ o = some a := by
  cases o <;> simp [okOr]

def alignUp (address : ℕ) : Except PhysicalAllocatorError ℕ :=
  okOr .addressOverflow ((checkedAdd 64 address (pageSize - 1)).map alignDown)

/-- One region of the map, after the ranges already found. -/
def normalizeRegion (ranges : List PhysicalRange) (region : MemoryRegion) :
    Except PhysicalAllocatorError (List PhysicalRange) :=
  if region.kind ≠ .usable then .ok ranges
  else
    match alignUp region.start with
    | .error e => .error e
    | .ok start =>
      if alignDown region.stop ≤ start then .ok ranges
      else if ranges.length = maxUsableRanges then .error .tooManyUsableRanges
      else if ranges.getLast?.any fun previous ↦ decide (start < previous.stop) then
        .error .overlappingUsableRanges
      else .ok (ranges ++ [⟨start, alignDown region.stop⟩])

def normalizeRegions (ranges : List PhysicalRange) :
    List MemoryRegion → Except PhysicalAllocatorError (List PhysicalRange)
  | [] => .ok ranges
  | region :: regions =>
    match normalizeRegion ranges region with
    | .error e => .error e
    | .ok ranges => normalizeRegions ranges regions

def normalizedUsableRanges (regions : List MemoryRegion) :
    Except PhysicalAllocatorError (List PhysicalRange) :=
  normalizeRegions [] regions

/-! ## Boot reservations -/

def maxBootReservations : ℕ := 128

structure BootReservations where
  ranges : List PhysicalRange
deriving DecidableEq, Repr

namespace BootReservations

def new : BootReservations := ⟨[]⟩

/-- A range that touches or overlaps the last one is merged with it. -/
def reserveRange (reservations : BootReservations) (range : PhysicalRange) :
    Except PhysicalAllocatorError BootReservations :=
  if range.stop ≤ range.start ∨ range.start % pageSize ≠ 0 ∨ range.stop % pageSize ≠ 0 then
    .error .invalidReservation
  else
    match reservations.ranges.getLast? with
    | some last =>
      if range.start ≤ last.stop ∧ last.start ≤ range.stop then
        .ok ⟨reservations.ranges.dropLast
          ++ [⟨min last.start range.start, max last.stop range.stop⟩]⟩
      else if reservations.ranges.length = maxBootReservations then .error .tooManyReservations
      else .ok ⟨reservations.ranges ++ [range]⟩
    | none => .ok ⟨[range]⟩

def reserveFrame (reservations : BootReservations) (frame : ℕ) :
    Except PhysicalAllocatorError BootReservations := do
  let stop ← okOr .addressOverflow (checkedAdd 64 frame pageSize)
  reservations.reserveRange ⟨frame, stop⟩

def containsFrame (reservations : BootReservations) (frame : ℕ) : Bool :=
  reservations.ranges.any fun range ↦ range.containsFrame frame

end BootReservations

/-! ## The allocator -/

structure SegmentedBitmapFrameAllocator where
  bitmap : List (BitVec 64)
  ranges : List ManagedRange
  frameCount : ℕ
deriving DecidableEq, Repr

namespace SegmentedBitmapFrameAllocator

/-- The allocator with the words of its bitmap laid end to end. -/
def flat (s : SegmentedBitmapFrameAllocator) : FrameAllocator :=
  ⟨bits s.bitmap, s.ranges, s.frameCount⟩

/-- The translation between numbers and addresses reads the ranges only. -/
def frameAddress (s : SegmentedBitmapFrameAllocator) (index : ℕ) :
    Except PhysicalAllocatorError ℕ :=
  s.flat.frameAddress index

def frameIndex (s : SegmentedBitmapFrameAllocator) (address : ℕ) :
    Except PhysicalAllocatorError ℕ :=
  s.flat.frameIndex address

def isUsed (s : SegmentedBitmapFrameAllocator) (index : ℕ) : Bool := test s.bitmap index

def markUsed (s : SegmentedBitmapFrameAllocator) (index : ℕ) : SegmentedBitmapFrameAllocator :=
  { s with bitmap := WordBitmap.set s.bitmap index }

def markFree (s : SegmentedBitmapFrameAllocator) (index : ℕ) : SegmentedBitmapFrameAllocator :=
  { s with bitmap := clear s.bitmap index }

/-- The words are searched for one that is not full. -/
def allocate (s : SegmentedBitmapFrameAllocator) : Option ℕ × SegmentedBitmapFrameAllocator :=
  match firstClearFrom 0 s.bitmap with
  | none => (none, s)
  | some index =>
    if s.frameCount ≤ index then (none, s)
    else
      match s.frameAddress index with
      | .error _ => (none, s.markUsed index)
      | .ok address =>
        match frameFromAddress address with
        | .error _ => (none, s.markUsed index)
        | .ok frame => (some frame, s.markUsed index)

def deallocate (s : SegmentedBitmapFrameAllocator) (frame : ℕ) :
    Except PhysicalAllocatorError Unit × SegmentedBitmapFrameAllocator :=
  match s.frameIndex frame with
  | .error e => (.error e, s)
  | .ok index =>
    if s.isUsed index = false then (.error .frameAlreadyFree, s)
    else (.ok (), s.markFree index)

def allFree (s : SegmentedBitmapFrameAllocator) (index pageCount : ℕ) : Bool :=
  (List.range pageCount).all fun k ↦ !s.isUsed (index + k)

def markRangeUsed (s : SegmentedBitmapFrameAllocator) (index pageCount : ℕ) :
    SegmentedBitmapFrameAllocator :=
  (List.range pageCount).foldl (fun s k ↦ s.markUsed (index + k)) s

/-- The number of bytes is a 64-bit product; where it wraps around, no range is long enough. -/
def findContiguous (s : SegmentedBitmapFrameAllocator) (pageCount : ℕ) (r : ManagedRange) :
    Option ℕ :=
  if r.physical.frameCount < pageCount then none
  else
    (List.range (r.physical.frameCount - pageCount + 1)).find? fun start ↦
      decide ((r.physical.start + start * pageSize) % (pageCount * pageSize % 2 ^ 64) = 0)
        && s.allFree (r.bitmapStart + start) pageCount

def allocateContiguous (s : SegmentedBitmapFrameAllocator) (pageCount : ℕ) :
    Option ℕ × SegmentedBitmapFrameAllocator :=
  if pageCount = 0 then (none, s)
  else
    match s.ranges.findSome? fun r ↦ (s.findContiguous pageCount r).map fun start ↦ (r, start) with
    | none => (none, s)
    | some (r, start) =>
      (some (r.physical.start + start * pageSize),
        s.markRangeUsed (r.bitmapStart + start) pageCount)

def deallocateContiguousLoop (s : SegmentedBitmapFrameAllocator) (base : ℕ) :
    ℕ → Except PhysicalAllocatorError Unit × SegmentedBitmapFrameAllocator
  | 0 => (.ok (), s)
  | remaining + 1 =>
    match s.deallocate base with
    | (.error e, s) => (.error e, s)
    | (.ok (), s) => s.deallocateContiguousLoop (base + pageSize) remaining

def deallocateContiguous (s : SegmentedBitmapFrameAllocator) (baseFrame pageCount : ℕ) :
    Except PhysicalAllocatorError Unit × SegmentedBitmapFrameAllocator :=
  if pageCount = 0 ∨ baseFrame % pageSize ≠ 0 then (.error .invalidPhysicalAddress, s)
  else s.deallocateContiguousLoop baseFrame pageCount

/-! ## Construction -/

/-- The ranges are numbered one after the other. -/
def number (managed : List ManagedRange) (frameCount : ℕ) :
    List PhysicalRange → Except PhysicalAllocatorError (List ManagedRange × ℕ)
  | [] => .ok (managed, frameCount)
  | range :: ranges =>
    match checkedAdd 64 frameCount range.frameCount with
    | none => .error .addressOverflow
    | some next => number (managed ++ [⟨range, frameCount⟩]) next ranges

/-- The loop over the numbers of the frames, from `index` on: what is not reserved becomes free. -/
def releaseLoop (reservations : BootReservations) (s : SegmentedBitmapFrameAllocator) (index : ℕ) :
    ℕ → Except PhysicalAllocatorError SegmentedBitmapFrameAllocator
  | 0 => .ok s
  | remaining + 1 =>
    match s.frameAddress index with
    | .error e => .error e
    | .ok address =>
      releaseLoop reservations
        (if reservations.containsFrame address then s else s.markFree index) (index + 1) remaining

def new (regions : List MemoryRegion) (reservations : BootReservations)
    (bitmap : List (BitVec 64)) : Except PhysicalAllocatorError SegmentedBitmapFrameAllocator :=
  match normalizedUsableRanges regions with
  | .error e => .error e
  | .ok normalized =>
    match number [] 0 normalized with
    | .error e => .error e
    | .ok (ranges, frameCount) =>
      if bitmap.length < (frameCount + 63) / 64 then .error .insufficientBitmapStorage
      else
        releaseLoop reservations ⟨bitmap.map fun _ ↦ BitVec.allOnes 64, ranges, frameCount⟩ 0
          frameCount

/-! ## The words laid end to end -/

section Flat

variable (s : SegmentedBitmapFrameAllocator)

@[simp] theorem flat_ranges : s.flat.ranges = s.ranges := rfl

@[simp] theorem flat_frameCount : s.flat.frameCount = s.frameCount := rfl

theorem isUsed_eq (index : ℕ) : s.isUsed index = s.flat.isUsed index :=
  test_eq (by decide) s.bitmap index

theorem flat_markUsed (index : ℕ) : (s.markUsed index).flat = s.flat.markUsed index := by
  rw [flat, markUsed, bits_set (by decide)]
  rfl

theorem flat_markFree (index : ℕ) : (s.markFree index).flat = s.flat.markFree index := by
  rw [flat, markFree, bits_clear (by decide)]
  rfl

theorem allocate_flat : s.flat.allocate = (s.allocate.1, s.allocate.2.flat) := by
  have hfirst : firstClearFrom 0 s.bitmap = s.flat.bitmap.findIdx? fun bit ↦ !bit := by
    rw [firstClearFrom_eq]
    simp [flat]
  rw [FrameAllocator.allocate, allocate, hfirst, flat_frameCount]
  cases s.flat.bitmap.findIdx? fun bit ↦ !bit with
  | none => rfl
  | some index =>
    dsimp only
    by_cases hcount : s.frameCount ≤ index
    · rw [if_pos hcount, if_pos hcount]
    · rw [if_neg hcount, if_neg hcount, frameAddress]
      cases s.flat.frameAddress index with
      | error e => rw [← flat_markUsed]
      | ok address =>
        dsimp only
        cases frameFromAddress address with
        | error | ok => rw [← flat_markUsed]

theorem deallocate_flat (frame : ℕ) :
    s.flat.deallocate frame = ((s.deallocate frame).1, (s.deallocate frame).2.flat) := by
  rw [FrameAllocator.deallocate, deallocate, frameIndex]
  cases s.flat.frameIndex frame with
  | error e => rfl
  | ok index =>
    dsimp only
    rw [isUsed_eq]
    by_cases hfree : s.flat.isUsed index = false
    · rw [if_pos hfree, if_pos hfree]
    · rw [if_neg hfree, if_neg hfree, ← flat_markFree]

theorem deallocateContiguousLoop_flat (base remaining : ℕ) :
    s.flat.deallocateContiguousLoop base remaining
      = ((s.deallocateContiguousLoop base remaining).1,
        (s.deallocateContiguousLoop base remaining).2.flat) := by
  induction remaining generalizing s base with
  | zero => rfl
  | succ remaining ih =>
    rw [FrameAllocator.deallocateContiguousLoop, deallocateContiguousLoop, deallocate_flat]
    rcases s.deallocate base with ⟨e | _, s'⟩
    · rfl
    · exact ih s' (base + pageSize)

theorem deallocateContiguous_flat (base pageCount : ℕ) :
    s.flat.deallocateContiguous base pageCount
      = ((s.deallocateContiguous base pageCount).1,
        (s.deallocateContiguous base pageCount).2.flat) := by
  rw [FrameAllocator.deallocateContiguous, deallocateContiguous]
  by_cases hbad : pageCount = 0 ∨ base % pageSize ≠ 0
  · rw [if_pos hbad, if_pos hbad]
  · rw [if_neg hbad, if_neg hbad, deallocateContiguousLoop_flat]

theorem allFree_eq (index pageCount : ℕ) :
    s.allFree index pageCount = s.flat.allFree index pageCount := by
  simp only [allFree, FrameAllocator.allFree, isUsed_eq]

theorem flat_markRangeUsed (index pageCount : ℕ) :
    (s.markRangeUsed index pageCount).flat = s.flat.markRangeUsed index pageCount := by
  rw [markRangeUsed, FrameAllocator.markRangeUsed]
  generalize List.range pageCount = pages
  induction pages generalizing s with
  | nil => rfl
  | cons k pages ih => rw [List.foldl_cons, List.foldl_cons, ih, flat_markUsed]

theorem findContiguous_eq {r : ManagedRange} (hr : r.physical.Whole) (pageCount : ℕ) :
    s.findContiguous pageCount r = s.flat.findContiguous pageCount r := by
  rw [findContiguous, FrameAllocator.findContiguous]
  by_cases hcount : r.physical.frameCount < pageCount
  · rw [if_pos hcount, if_pos hcount]
  · have hsize : pageCount * pageSize < 2 ^ 64 := by
      have hstop := hr.stop_lt
      simp only [PhysicalRange.frameCount, pageSize] at hcount ⊢
      omega
    rw [if_neg hcount, if_neg hcount, Nat.mod_eq_of_lt hsize]
    simp only [allFree_eq]

theorem allocateContiguous_flat (h : s.flat.Laid) (pageCount : ℕ) :
    s.flat.allocateContiguous pageCount
      = ((s.allocateContiguous pageCount).1, (s.allocateContiguous pageCount).2.flat) := by
  have hfind : ∀ ranges : List ManagedRange, (∀ r ∈ ranges, r.physical.Whole) →
      (ranges.findSome? fun r ↦ (s.findContiguous pageCount r).map fun start ↦ (r, start))
        = ranges.findSome? fun r ↦
          (s.flat.findContiguous pageCount r).map fun start ↦ (r, start) := by
    intro ranges hranges
    induction ranges with
    | nil => rfl
    | cons r ranges ih =>
      rw [List.findSome?_cons, List.findSome?_cons,
        findContiguous_eq s (hranges r List.mem_cons_self),
        ih fun r hr ↦ hranges r (List.mem_cons_of_mem _ hr)]
  rw [FrameAllocator.allocateContiguous, allocateContiguous, flat_ranges,
    hfind s.ranges h.ranges]
  by_cases hzero : pageCount = 0
  · rw [if_pos hzero, if_pos hzero]
  · rw [if_neg hzero, if_neg hzero]
    rcases s.ranges.findSome? fun r ↦
      (s.flat.findContiguous pageCount r).map fun start ↦ (r, start) with _ | ⟨r, start⟩
    · rfl
    · dsimp only
      rw [flat_markRangeUsed]

end Flat

end SegmentedBitmapFrameAllocator

namespace SegmentedBitmapFrameAllocator

open FrameAllocator

/-- **A run that is given back** was out as a whole and is free afterwards. Where it is refused, the
free frames are as before exactly if the arguments are refused at once or the first frame is not
out: with a bad frame further on, those before it have become free. -/
theorem deallocateContiguous_atomic_iff (s : SegmentedBitmapFrameAllocator) (h : s.flat.Laid)
    (base pageCount : ℕ) :
    ((s.deallocateContiguous base pageCount).1 = .ok () →
        (∀ f ∈ run base pageCount, f ∈ s.flat.managed ∧ f ∉ s.flat.free)
          ∧ (s.deallocateContiguous base pageCount).2.flat.free
            = s.flat.free ∪ {f | f ∈ run base pageCount})
      ∧ ∀ e, (s.deallocateContiguous base pageCount).1 = .error e →
        ((s.deallocateContiguous base pageCount).2.flat.free = s.flat.free
          ↔ pageCount = 0 ∨ base % pageSize ≠ 0 ∨ base ∉ s.flat.managed ∨ base ∈ s.flat.free) := by
  have hresult : (s.flat.deallocateContiguous base pageCount).1
      = (s.deallocateContiguous base pageCount).1 := by rw [deallocateContiguous_flat]
  have hafter : (s.flat.deallocateContiguous base pageCount).2
      = (s.deallocateContiguous base pageCount).2.flat := by rw [deallocateContiguous_flat]
  rw [← hresult, ← hafter, FrameAllocator.deallocateContiguous]
  by_cases hbad : pageCount = 0 ∨ base % pageSize ≠ 0
  · rw [if_pos hbad]
    refine ⟨fun hok ↦ by simp at hok, fun e _ ↦ iff_of_true rfl ?_⟩
    rw [← or_assoc]
    exact .inl hbad
  rw [if_neg hbad]
  rcases h.deallocateContiguousLoop_cases base pageCount with
    ⟨hok, hall, hset⟩ | ⟨⟨e, herr⟩, j, hj, hstop, hall, hset⟩
  · exact ⟨fun _ ↦ ⟨hall, hset⟩, fun e herr ↦ by simp [hok] at herr⟩
  refine ⟨fun hok ↦ by simp [herr] at hok, fun _ _ ↦ ?_⟩
  have hfirst : (base ∉ s.flat.managed ∨ base ∈ s.flat.free) ↔ base ∉ s.flat.out := by
    rw [out, Set.mem_sdiff, not_and_or, not_not]
  rw [← or_assoc, or_iff_right hbad, hfirst, hset, Set.union_eq_left]
  constructor
  · intro hsub hmem
    -- the loop got past the first frame, so that one is free now and was not before
    rcases j with - | j
    · exact hstop (by simpa using hmem)
    · exact hmem.2 (hsub (mem_run.mpr ⟨0, Nat.succ_pos j, by simp⟩))
  · intro hmem f hf
    rcases j with - | j
    · simp [run] at hf
    · exact absurd (hall base (mem_run.mpr ⟨0, Nat.succ_pos j, by simp⟩)) hmem

/-- Three frames, the first two of them out. -/
def threeFrames : SegmentedBitmapFrameAllocator where
  bitmap := [0xFFFFFFFFFFFFFFFB]
  ranges := [⟨⟨0x1000, 0x4000⟩, 0⟩]
  frameCount := 3

theorem deallocateContiguous_atomic_iff_threeFrames :
    threeFrames.flat.Laid ∧ ∀ f ∈ run 0x1000 2, f ∈ threeFrames.flat.managed
      ∧ f ∉ threeFrames.flat.free :=
  have hlaid : threeFrames.flat.Laid :=
    ⟨by decide, ⟨rfl, rfl⟩, fun r hr ↦ by
      obtain rfl := List.mem_singleton.mp hr
      exact ⟨by decide, by decide, by decide, by decide⟩, List.pairwise_singleton ..⟩
  ⟨hlaid, ((deallocateContiguous_atomic_iff threeFrames hlaid 0x1000 2).1 (by decide)).1⟩

/-- The third frame is free already, and the two before it are free after the error. -/
theorem deallocateContiguous_frees_before_error :
    (threeFrames.deallocateContiguous 0x1000 3).1 = .error .frameAlreadyFree
      ∧ threeFrames.flat.isFree 0x1000 = false
      ∧ (threeFrames.deallocateContiguous 0x1000 3).2.flat.isFree 0x1000 = true := by
  decide +kernel

end SegmentedBitmapFrameAllocator

end Gaxera

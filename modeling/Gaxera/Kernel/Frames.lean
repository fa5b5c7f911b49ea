import Gaxera.Kernel.Paging
import Mathlib.Data.List.Nodup
import Mathlib.Data.Set.Insert
import Mathlib.Order.BooleanAlgebra.Set

/-!
# Free frames

What the bitmap is for: a set of free frames, from which one is taken and to which one is given
back. The managed ranges number their frames one after the other, so a frame has one bit and a bit
has one frame; with that, every operation of the allocator is read as a change to the set `free`,
and the bitmap is not looked at again.
-/

namespace Gaxera

/-- A range of whole frames. -/
structure PhysicalRange.Whole (r : PhysicalRange) : Prop where
  start_aligned : r.start % pageSize = 0
  stop_aligned : r.stop % pageSize = 0
  start_le_stop : r.start ≤ r.stop
  stop_lt : r.stop < 2 ^ 64

/-- A range of whole frames at physical addresses. -/
structure PhysicalRange.Wf (r : PhysicalRange) : Prop where
  start_aligned : r.start % pageSize = 0
  stop_aligned : r.stop % pageSize = 0
  start_le_stop : r.start ≤ r.stop
  stop_le : r.stop ≤ 2 ^ 52

theorem PhysicalRange.Wf.whole {r : PhysicalRange} (h : r.Wf) : r.Whole :=
  ⟨h.start_aligned, h.stop_aligned, h.start_le_stop, h.stop_le.trans_lt (by decide)⟩

namespace FrameAllocator

variable {a a' : FrameAllocator} {f i : ℕ} {frames : List ℕ}

/-! ## Numbering -/

/-- The ranges number their frames one after the other, from the first number to the second. -/
def Numbered : ℕ → List ManagedRange → ℕ → Prop
  | first, [], last => first = last
  | first, r :: ranges, last =>
    r.bitmapStart = first ∧ Numbered (first + r.physical.frameCount) ranges last

/-- The allocator as it is set up, whatever its bits. -/
structure Wf (a : FrameAllocator) : Prop where
  length : a.frameCount ≤ a.bitmap.length
  numbered : Numbered 0 a.ranges a.frameCount
  ranges : ∀ r ∈ a.ranges, r.physical.Wf
  disjoint : a.ranges.Pairwise fun r s ↦
    r.physical.stop ≤ s.physical.start ∨ s.physical.stop ≤ r.physical.start

/-- The layout alone: the ranges may also lie where no frame has a physical address. -/
structure Laid (a : FrameAllocator) : Prop where
  length : a.frameCount ≤ a.bitmap.length
  numbered : Numbered 0 a.ranges a.frameCount
  ranges : ∀ r ∈ a.ranges, r.physical.Whole
  disjoint : a.ranges.Pairwise fun r s ↦
    r.physical.stop ≤ s.physical.start ∨ s.physical.stop ≤ r.physical.start

theorem Wf.laid (h : a.Wf) : a.Laid :=
  ⟨h.length, h.numbered, fun r hr ↦ (h.ranges r hr).whole, h.disjoint⟩

variable {r : ManagedRange}

theorem Numbered.find {ranges : List ManagedRange} {first last : ℕ} (h : Numbered first ranges last)
    (hr : r ∈ ranges) (hlo : r.bitmapStart ≤ i) (hhi : i < r.bitmapStart + r.physical.frameCount) :
    first ≤ i ∧ i < last
      ∧ ranges.find? (fun r ↦ decide (i < r.bitmapStart + r.physical.frameCount)) = some r := by
  induction ranges generalizing first with
  | nil => cases hr
  | cons x xs ih =>
    obtain ⟨hx, hrest⟩ := h
    have hle : ∀ {first last : ℕ} {ranges : List ManagedRange},
        Numbered first ranges last → first ≤ last := by
      intro first last ranges
      induction ranges generalizing first with
      | nil => exact fun h ↦ h.le
      | cons y ys ih => exact fun h ↦ (Nat.le_add_right _ _).trans (ih h.2)
    rcases List.mem_cons.mp hr with rfl | hmem
    · refine ⟨hx ▸ hlo, ?_, List.find?_cons_of_pos (by simpa using hhi)⟩
      have := hle hrest
      omega
    · obtain ⟨hfirst, hlast, hfind⟩ := ih hrest hmem
      refine ⟨by omega, hlast, ?_⟩
      rw [List.find?_cons_of_neg (by simp; omega)]
      exact hfind

theorem Numbered.exists_range {ranges : List ManagedRange} {first last : ℕ}
    (h : Numbered first ranges last) (hlo : first ≤ i) (hhi : i < last) :
    ∃ r ∈ ranges, r.bitmapStart ≤ i ∧ i < r.bitmapStart + r.physical.frameCount := by
  induction ranges generalizing first with
  | nil =>
    obtain rfl : first = last := h
    omega
  | cons x xs ih =>
    obtain ⟨hx, hrest⟩ := h
    by_cases hi : i < first + x.physical.frameCount
    · exact ⟨x, List.mem_cons_self, by omega, by omega⟩
    · obtain ⟨r, hr, hbounds⟩ := ih hrest (by omega)
      exact ⟨r, List.mem_cons_of_mem _ hr, hbounds⟩

theorem Laid.find_range (h : a.Laid) (hr : r ∈ a.ranges) (hf : r.physical.containsFrame f = true) :
    a.ranges.find? (fun r ↦ r.physical.containsFrame f) = some r := by
  have hdisjoint := h.disjoint
  generalize a.ranges = ranges at hr hdisjoint
  induction ranges with
  | nil => cases hr
  | cons x xs ih =>
    obtain ⟨hx, hxs⟩ := List.pairwise_cons.mp hdisjoint
    rcases List.mem_cons.mp hr with rfl | hmem
    · exact List.find?_cons_of_pos hf
    · rw [List.find?_cons_of_neg, ih hmem hxs]
      have hapart := hx r hmem
      simp only [PhysicalRange.containsFrame, decide_eq_true_eq] at hf ⊢
      omega

theorem contains_of_lt {r : PhysicalRange} (h : r.Whole) {j : ℕ} (hj : j < r.frameCount) :
    r.containsFrame (r.start + j * pageSize) = true := by
  obtain ⟨hstart, hstop, hle, -⟩ := h
  simp only [PhysicalRange.containsFrame, decide_eq_true_eq]
  simp only [PhysicalRange.frameCount, pageSize] at hj hstart hstop ⊢
  omega

theorem Laid.frame_of_index (h : a.Laid) (hr : r ∈ a.ranges) {j : ℕ}
    (hj : j < r.physical.frameCount) :
    a.frameAddress (r.bitmapStart + j) = .ok (r.physical.start + j * pageSize)
      ∧ a.frameIndex (r.physical.start + j * pageSize) = .ok (r.bitmapStart + j)
      ∧ r.bitmapStart + j < a.frameCount := by
  have hcontains := contains_of_lt (h.ranges r hr) hj
  obtain ⟨-, hlast, hfind⟩ := h.numbered.find hr (Nat.le_add_right _ j) (by omega)
  have hbound : r.physical.start + j * pageSize < r.physical.stop := by
    simp only [PhysicalRange.containsFrame, decide_eq_true_eq] at hcontains
    exact hcontains.2.1
  have hmax := (h.ranges r hr).stop_lt
  refine ⟨?_, ?_, hlast⟩
  · rw [frameAddress, hfind]
    dsimp only
    rw [Nat.add_sub_cancel_left, checkedAdd_eq_some.mpr ⟨by omega, rfl⟩]
  · rw [frameIndex, h.find_range hr hcontains]
    simp only [pageSize]
    congr
    omega

theorem Laid.range_of_index (h : a.Laid) (hi : a.frameIndex f = .ok i) :
    ∃ r ∈ a.ranges, ∃ j < r.physical.frameCount,
      f = r.physical.start + j * pageSize ∧ i = r.bitmapStart + j := by
  rw [frameIndex] at hi
  cases hfind : a.ranges.find? fun r ↦ r.physical.containsFrame f with
  | none => simp [hfind] at hi
  | some r =>
    rw [hfind] at hi
    obtain rfl : r.bitmapStart + (f - r.physical.start) / pageSize = i := Except.ok.inj hi
    have hr := List.mem_of_find?_eq_some hfind
    obtain ⟨hstart, hstop, hle, -⟩ := h.ranges r hr
    have hcontains := List.find?_some hfind
    rw [PhysicalRange.containsFrame, decide_eq_true_eq] at hcontains
    simp only [pageSize] at hcontains hstart hstop
    refine ⟨r, hr, (f - r.physical.start) / pageSize, ?_, ?_, rfl⟩
    · simp only [PhysicalRange.frameCount, pageSize]
      omega
    · simp only [pageSize]
      omega

theorem Laid.index_inj (h : a.Laid) {g : ℕ} (hf : a.frameIndex f = .ok i)
    (hg : a.frameIndex g = .ok i) : f = g := by
  obtain ⟨r, hr, j, hj, rfl, hi⟩ := h.range_of_index hf
  obtain ⟨s, hs, l, hl, rfl, hi'⟩ := h.range_of_index hg
  have haddress := (h.frame_of_index hr hj).1
  rw [← hi, hi', (h.frame_of_index hs hl).1] at haddress
  exact (Except.ok.inj haddress).symm

/-- **Numbers and addresses are inverse to each other.** -/
theorem Laid.address_of_index (h : a.Laid) (hi : a.frameIndex f = .ok i) :
    a.frameAddress i = .ok f ∧ i < a.frameCount := by
  obtain ⟨r, hr, j, hj, rfl, rfl⟩ := h.range_of_index hi
  obtain ⟨haddress, -, hlt⟩ := h.frame_of_index hr hj
  exact ⟨haddress, hlt⟩

theorem Laid.index_of_address (h : a.Laid) (hi : i < a.frameCount) :
    ∃ f, a.frameAddress i = .ok f ∧ a.frameIndex f = .ok i := by
  obtain ⟨r, hr, hlo, hhi⟩ := h.numbered.exists_range (Nat.zero_le i) hi
  obtain ⟨j, rfl⟩ := Nat.exists_eq_add_of_le hlo
  obtain ⟨haddress, hindex, -⟩ := h.frame_of_index hr (by omega : j < _)
  exact ⟨_, haddress, hindex⟩

theorem Laid.index_lt (h : a.Laid) (hi : a.frameIndex f = .ok i) : i < a.bitmap.length := by
  exact (h.address_of_index hi).2.trans_le h.length

theorem Wf.physical (h : a.Wf) (hi : a.frameIndex f = .ok i) : frameFromAddress f = .ok f := by
  obtain ⟨r, hr, j, hj, rfl, -⟩ := h.laid.range_of_index hi
  have hcontains := contains_of_lt (h.ranges r hr).whole hj
  have hmax := (h.ranges r hr).stop_le
  simp only [PhysicalRange.containsFrame, decide_eq_true_eq] at hcontains
  rw [frameFromAddress, if_neg (by omega)]

/-! ## The set of free frames -/

def managed (a : FrameAllocator) : Set ℕ := {f | ∃ i, a.frameIndex f = .ok i}

def free (a : FrameAllocator) : Set ℕ := {f | a.isFree f = true}

/-- A frame that is out. -/
def out (a : FrameAllocator) : Set ℕ := a.managed \ a.free

theorem mem_free : f ∈ a.free ↔ ∃ i, a.frameIndex f = .ok i ∧ a.isUsed i = false := by
  change a.isFree f = true ↔ _
  rw [isFree]
  cases a.frameIndex f with
  | error | ok => simp

theorem isUsed_set (a : FrameAllocator) (b : Bool) (hi : i < a.bitmap.length) (j : ℕ) :
    ({ a with bitmap := a.bitmap.set i b } : FrameAllocator).isUsed j
      = if j = i then b else a.isUsed j := by
  rw [isUsed, isUsed, List.getD_eq_getElem?_getD, List.getD_eq_getElem?_getD, List.getElem?_set]
  by_cases hj : j = i
  · rw [if_pos hj.symm, if_pos hj, if_pos (hj ▸ hi), Option.getD_some]
  · rw [if_neg (Ne.symm hj), if_neg hj]

theorem Laid.bits (h : a.Laid) {bits : List Bool} (hlength : bits.length = a.bitmap.length) :
    ({ a with bitmap := bits } : FrameAllocator).Laid :=
  ⟨h.length.trans_eq hlength.symm, h.numbered, h.ranges, h.disjoint⟩

theorem Wf.bits (h : a.Wf) {bits : List Bool} (hlength : bits.length = a.bitmap.length) :
    ({ a with bitmap := bits } : FrameAllocator).Wf :=
  ⟨h.length.trans_eq hlength.symm, h.numbered, h.ranges, h.disjoint⟩

/-- `a'` has given out `frames`. -/
structure Withdraws (a : FrameAllocator) (frames : List ℕ) (a' : FrameAllocator) : Prop where
  wf : a'.Wf
  managed : a'.managed = a.managed
  nodup : frames.Nodup
  subset : ∀ f ∈ frames, f ∈ a.free
  free : a'.free = a.free \ {f | f ∈ frames}

/-- `a'` has taken `frames` back. -/
structure Deposits (a : FrameAllocator) (frames : List ℕ) (a' : FrameAllocator) : Prop where
  wf : a'.Wf
  managed : a'.managed = a.managed
  free : a'.free = a.free ∪ {f | f ∈ frames}

theorem Withdraws.nil (h : a.Wf) : a.Withdraws [] a := ⟨h, rfl, List.nodup_nil, by simp, by simp⟩

/-! ## The operations -/

/-- Marking a frame changes whether it is free, and no other frame is touched. -/
theorem Laid.mem_free_set (h : a.Laid) (hi : a.frameIndex f = .ok i) (b : Bool) {g : ℕ} :
    g ∈ ({ a with bitmap := a.bitmap.set i b } : FrameAllocator).free
      ↔ if g = f then b = false else g ∈ a.free := by
  rw [mem_free]
  simp only [isUsed_set a b ((h.address_of_index hi).2.trans_le h.length)]
  change (∃ j, a.frameIndex g = .ok j ∧ _) ↔ _
  by_cases hg : g = f
  · subst hg
    simp [hi]
  · rw [if_neg hg, mem_free]
    refine exists_congr fun j ↦ and_congr_right fun hj ↦ ?_
    rw [if_neg]
    rintro rfl
    exact hg (h.index_inj hj hi)

theorem Laid.free_markUsed (h : a.Laid) (hi : a.frameIndex f = .ok i) :
    (a.markUsed i).free = a.free \ {f} := by
  ext g
  rw [markUsed, h.mem_free_set hi]
  by_cases hg : g = f <;> simp [hg]

theorem Laid.free_markFree (h : a.Laid) (hi : a.frameIndex f = .ok i) :
    (a.markFree i).free = a.free ∪ {f} := by
  ext g
  rw [markFree, h.mem_free_set hi]
  by_cases hg : g = f <;> simp [hg]

/-- **The first free frame** is marked, also where it has no physical address. -/
theorem Laid.allocate_cases (h : a.Laid) :
    (a.allocate = (none, a) ∧ a.free = ∅) ∨ ∃ i f, a.frameIndex f = .ok i ∧ a.isUsed i = false
      ∧ a.allocate = ((frameFromAddress f).toOption, a.markUsed i) := by
  have hbit : ∀ {j} (hj : j < a.bitmap.length), a.isUsed j = a.bitmap[j] := fun hj ↦ by
    rw [isUsed, List.getD_eq_getElem?_getD, List.getElem?_eq_getElem hj, Option.getD_some]
  rw [allocate]
  cases hfind : a.bitmap.findIdx? fun used ↦ !used with
  | none =>
    refine .inl ⟨rfl, Set.eq_empty_of_forall_notMem fun f hf ↦ ?_⟩
    obtain ⟨j, hj, hunused⟩ := mem_free.mp hf
    have hlt := (h.address_of_index hj).2.trans_le h.length
    have hall := List.findIdx?_eq_none_iff.mp hfind _ (List.getElem_mem hlt)
    rw [← hbit hlt, hunused] at hall
    cases hall
  | some i =>
    obtain ⟨hlt, hfirst, hbefore⟩ := List.findIdx?_eq_some_iff_getElem.mp hfind
    dsimp only
    by_cases hcount : a.frameCount ≤ i
    · rw [if_pos hcount]
      refine .inl ⟨rfl, Set.eq_empty_of_forall_notMem fun f hf ↦ ?_⟩
      obtain ⟨j, hj, hunused⟩ := mem_free.mp hf
      have hjlt := (h.address_of_index hj).2.trans_le hcount
      have hused := hbefore j hjlt
      rw [← hbit (hjlt.trans hlt), hunused] at hused
      exact hused rfl
    · obtain ⟨f, haddress, hindex⟩ := h.index_of_address (not_le.mp hcount)
      rw [if_neg hcount, haddress]
      refine .inr ⟨i, f, hindex, ?_, ?_⟩
      · rw [hbit hlt]
        simpa using hfirst
      · dsimp only
        cases frameFromAddress f <;> rfl

/-- **One frame**, or none and nothing has changed. -/
theorem Wf.allocate (h : a.Wf) : a.Withdraws a.allocate.1.toList a.allocate.2 := by
  rcases h.laid.allocate_cases with ⟨hnone, -⟩ | ⟨i, f, hi, hunused, hsome⟩
  · rw [hnone]
    exact .nil h
  · rw [hsome, h.physical hi]
    refine ⟨h.bits (List.length_set ..), rfl, List.nodup_singleton f, fun g hg ↦ ?_, ?_⟩
    · rw [List.mem_singleton.mp hg]
      exact mem_free.mpr ⟨i, hi, hunused⟩
    · rw [h.laid.free_markUsed hi]
      simp [Except.toOption]

theorem deallocate_cases (a : FrameAllocator) (f : ℕ) :
    (f ∈ a.out ∧ ∃ i, a.frameIndex f = .ok i ∧ a.deallocate f = (.ok (), a.markFree i))
      ∨ f ∉ a.out ∧ ∃ e, a.deallocate f = (.error e, a) := by
  rw [deallocate]
  rcases hindex : a.frameIndex f with e | i
  · refine .inr ⟨?_, e, rfl⟩
    rintro ⟨⟨i, hi⟩, -⟩
    simp [hindex] at hi
  dsimp only
  by_cases hfree : a.isUsed i = false
  · rw [if_pos hfree]
    exact .inr ⟨fun hout ↦ hout.2 (mem_free.mpr ⟨i, hindex, hfree⟩), _, rfl⟩
  · rw [if_neg hfree]
    refine .inl ⟨⟨⟨i, hindex⟩, fun hmem ↦ ?_⟩, i, rfl, rfl⟩
    obtain ⟨j, hj, hused⟩ := mem_free.mp hmem
    obtain rfl : i = j := by simpa using hindex.symm.trans hj
    exact hfree hused

/-- **A managed frame** is given back; giving back a free one changes nothing. -/
theorem Wf.deallocate (h : a.Wf) (hf : f ∈ a.managed) : a.Deposits [f] (a.deallocate f).2 := by
  rcases a.deallocate_cases f with ⟨-, i, hi, heq⟩ | ⟨hout, e, heq⟩
  · rw [heq]
    refine ⟨h.bits (List.length_set ..), rfl, ?_⟩
    rw [h.laid.free_markFree hi]
    simp
  · rw [heq]
    refine ⟨h, rfl, ?_⟩
    have hfree : f ∈ a.free := not_not.mp fun hnot ↦ hout ⟨hf, hnot⟩
    simp [hfree]

/-! ## Contiguous frames -/

/-- The frames of a run. -/
def run (base pageCount : ℕ) : List ℕ := (List.range pageCount).map fun j ↦ base + j * pageSize

theorem markRangeUsed_succ (a : FrameAllocator) (i n : ℕ) :
    a.markRangeUsed i (n + 1) = (a.markRangeUsed i n).markUsed (i + n) := by
  rw [markRangeUsed, List.range_succ, List.foldl_append]
  rfl

theorem markRangeUsed_bits (a : FrameAllocator) (i n : ℕ) :
    ∃ bits, bits.length = a.bitmap.length ∧ a.markRangeUsed i n = { a with bitmap := bits } := by
  induction n with
  | zero => exact ⟨_, rfl, rfl⟩
  | succ n ih =>
    obtain ⟨bits, hlength, hbits⟩ := ih
    refine ⟨bits.set (i + n) true, by rw [List.length_set, hlength], ?_⟩
    rw [markRangeUsed_succ, hbits]
    rfl

theorem run_succ (base n : ℕ) : run base (n + 1) = run base n ++ [base + n * pageSize] := by
  rw [run, List.range_succ, List.map_append]
  rfl

theorem run_cons (base n : ℕ) : run base (n + 1) = base :: run (base + pageSize) n := by
  rw [run, List.range_succ_eq_map, List.map_cons, List.map_map, Nat.zero_mul, Nat.add_zero]
  congr 1
  refine List.map_congr_left fun j _ ↦ ?_
  simp only [Function.comp, pageSize]
  omega

theorem mem_run {base n : ℕ} : f ∈ run base n ↔ ∃ j < n, base + j * pageSize = f := by
  simp [run]

theorem nodup_run (base n : ℕ) : (run base n).Nodup := by
  refine List.Nodup.map (fun j k heq ↦ ?_) List.nodup_range
  simp only [pageSize] at heq
  omega

theorem Laid.free_markRangeUsed (h : a.Laid) (hr : r ∈ a.ranges) {start n : ℕ}
    (hn : start + n ≤ r.physical.frameCount) :
    (a.markRangeUsed (r.bitmapStart + start) n).free
      = a.free \ {f | f ∈ run (r.physical.start + start * pageSize) n} := by
  induction n with
  | zero => simp [run, markRangeUsed]
  | succ n ih =>
    obtain ⟨bits, hlength, hbits⟩ := a.markRangeUsed_bits (r.bitmapStart + start) n
    obtain ⟨-, hindex, -⟩ := h.frame_of_index hr (by omega : start + n < _)
    rw [Nat.add_mul, ← Nat.add_assoc, ← Nat.add_assoc] at hindex
    have hfree := (h.bits hlength).free_markUsed hindex
    rw [← hbits, ← markRangeUsed_succ, ih (by omega)] at hfree
    rw [hfree, run_succ]
    ext g
    simp only [Set.mem_sdiff, Set.mem_singleton_iff, Set.mem_ofPred_eq, List.mem_append,
      List.mem_singleton, not_or, and_assoc]

/-- Where a run is found: within one range, all free, and aligned to its size. -/
theorem allocateContiguous_found (a : FrameAllocator) (n : ℕ) :
    a.allocateContiguous n = (none, a) ∨ ∃ r ∈ a.ranges, ∃ start,
      start + n ≤ r.physical.frameCount
      ∧ (r.physical.start + start * pageSize) % (n * pageSize) = 0
      ∧ (∀ j < n, a.isUsed (r.bitmapStart + start + j) = false)
      ∧ a.allocateContiguous n = (some (r.physical.start + start * pageSize),
          a.markRangeUsed (r.bitmapStart + start) n) := by
  rw [allocateContiguous]
  by_cases hn : n = 0
  · rw [if_pos hn]
    exact .inl rfl
  · rw [if_neg hn]
    cases hfind : a.ranges.findSome? fun r ↦ (a.findContiguous n r).map fun start ↦ (r, start) with
    | none => exact .inl rfl
    | some p =>
      obtain ⟨r₀, hr₀, hmap⟩ := List.exists_of_findSome?_eq_some hfind
      obtain ⟨start, hstart, rfl⟩ := Option.map_eq_some_iff.mp hmap
      rw [findContiguous] at hstart
      by_cases hcount : r₀.physical.frameCount < n
      · rw [if_pos hcount] at hstart
        cases hstart
      · rw [if_neg hcount] at hstart
        have hlt := List.mem_range.mp (List.mem_of_find?_eq_some hstart)
        have hfits := List.find?_some hstart
        rw [Bool.and_eq_true, decide_eq_true_eq] at hfits
        refine .inr ⟨r₀, hr₀, start, by omega, hfits.1, fun j hj ↦ ?_, rfl⟩
        have hall := List.all_eq_true.mp hfits.2 j (List.mem_range.mpr hj)
        simpa using hall

theorem Laid.allocateContiguous_cases (h : a.Laid) (n : ℕ) :
    a.allocateContiguous n = (none, a) ∨ ∃ base bits, bits.length = a.bitmap.length
      ∧ a.allocateContiguous n = (some base, { a with bitmap := bits })
      ∧ base % (n * pageSize) = 0 ∧ (∀ f ∈ run base n, f ∈ a.free)
      ∧ ({ a with bitmap := bits } : FrameAllocator).free = a.free \ {f | f ∈ run base n} := by
  rcases a.allocateContiguous_found n with hnone | ⟨r, hr, start, hfits, haligned, hunused, hsome⟩
  · exact .inl hnone
  · obtain ⟨bits, hlength, hbits⟩ := a.markRangeUsed_bits (r.bitmapStart + start) n
    have hfree := h.free_markRangeUsed hr hfits
    rw [hbits] at hsome hfree
    refine .inr ⟨_, bits, hlength, hsome, haligned, fun f hf ↦ ?_, hfree⟩
    obtain ⟨j, hj, rfl⟩ := mem_run.mp hf
    obtain ⟨-, hindex, -⟩ := h.frame_of_index hr (by omega : start + j < _)
    rw [Nat.add_mul, ← Nat.add_assoc, ← Nat.add_assoc] at hindex
    exact mem_free.mpr ⟨_, hindex, hunused j hj⟩

/-- **A run of frames**, or none and nothing has changed. -/
theorem Wf.allocateContiguous (h : a.Wf) (n : ℕ) :
    a.Withdraws ((a.allocateContiguous n).1.elim [] fun base ↦ run base n)
      (a.allocateContiguous n).2 := by
  rcases h.laid.allocateContiguous_cases n with
    hnone | ⟨base, bits, hlength, hsome, -, hsubset, hfree⟩
  · rw [hnone]
    exact .nil h
  · rw [hsome]
    exact ⟨h.bits hlength, rfl, nodup_run base n, hsubset, hfree⟩

/-! ## Giving a run back

A run is given back frame by frame, and the first frame that is free or unmanaged ends the loop. No
frame of a managed range is among the last of the 64-bit addresses, so the loop ends before the
address of the next frame would not fit. -/

theorem deallocateContiguousLoop_bits (a : FrameAllocator) (base n : ℕ) :
    ∃ bits, bits.length = a.bitmap.length
      ∧ (a.deallocateContiguousLoop base n).2 = { a with bitmap := bits } := by
  induction n generalizing a base with
  | zero => exact ⟨_, rfl, rfl⟩
  | succ n ih =>
    rw [deallocateContiguousLoop]
    rcases a.deallocate_cases base with ⟨-, i, -, heq⟩ | ⟨-, e, heq⟩
    · rw [heq]
      obtain ⟨bits, hlength, hbits⟩ := ih (a.markFree i) (base + pageSize)
      exact ⟨bits, hlength.trans (List.length_set ..), hbits⟩
    · rw [heq]
      exact ⟨_, rfl, rfl⟩

/-- **What the loop does**: it frees the frames up to the first one that is not out. -/
theorem Laid.deallocateContiguousLoop_cases (h : a.Laid) (base n : ℕ) :
    ((a.deallocateContiguousLoop base n).1 = .ok () ∧ (∀ f ∈ run base n, f ∈ a.out)
        ∧ (a.deallocateContiguousLoop base n).2.free = a.free ∪ {f | f ∈ run base n})
      ∨ (∃ e, (a.deallocateContiguousLoop base n).1 = .error e) ∧ ∃ j < n,
        base + j * pageSize ∉ a.out ∧ (∀ f ∈ run base j, f ∈ a.out)
          ∧ (a.deallocateContiguousLoop base n).2.free = a.free ∪ {f | f ∈ run base j} := by
  induction n generalizing a base with
  | zero => exact .inl ⟨rfl, by simp [run], by simp [run, deallocateContiguousLoop]⟩
  | succ n ih =>
    rcases a.deallocate_cases base with ⟨hout, i, hi, heq⟩ | ⟨hout, e, heq⟩
    · have hfree := h.free_markFree hi
      have hmanaged : (a.markFree i).managed = a.managed := rfl
      -- the frames behind the first one are out as they were
      have hlater : ∀ j, base + pageSize + j * pageSize ∈ (a.markFree i).out
          ↔ base + pageSize + j * pageSize ∈ a.out := by
        intro j
        have hne : base + pageSize + j * pageSize ≠ base := by
          simp only [pageSize]
          omega
        simp only [out, Set.mem_sdiff, hmanaged, hfree, Set.mem_union, Set.mem_singleton_iff, hne,
          or_false]
      have hrun : ∀ m, (∀ f ∈ run (base + pageSize) m, f ∈ (a.markFree i).out)
          → ∀ f ∈ run base (m + 1), f ∈ a.out := by
        intro m hm f hf
        rw [run_cons, List.mem_cons] at hf
        rcases hf with rfl | hf
        · exact hout
        obtain ⟨j, hj, rfl⟩ := mem_run.mp hf
        exact (hlater j).mp (hm _ hf)
      have hset : ∀ m, (a.markFree i).free ∪ {f | f ∈ run (base + pageSize) m}
          = a.free ∪ {f | f ∈ run base (m + 1)} := by
        intro m
        ext f
        simp only [hfree, Set.mem_union, Set.mem_singleton_iff, Set.mem_ofPred_eq, run_cons,
          List.mem_cons, or_assoc]
      rw [deallocateContiguousLoop, heq]
      dsimp only
      rcases ih (h.bits (List.length_set ..)) (base + pageSize) with
        ⟨hok, hall, hset'⟩ | ⟨herr, j, hj, hbad, hall, hset'⟩
      · exact .inl ⟨hok, hrun n hall, hset'.trans (hset n)⟩
      · refine .inr ⟨herr, j + 1, Nat.succ_lt_succ hj, ?_, hrun j hall, hset'.trans (hset j)⟩
        have hbad := mt (hlater j).mpr hbad
        rwa [Nat.add_mul, Nat.one_mul, Nat.add_comm (j * pageSize), ← Nat.add_assoc]
    · rw [deallocateContiguousLoop, heq]
      refine .inr ⟨⟨e, rfl⟩, 0, Nat.succ_pos n, ?_, by simp [run], by simp [run]⟩
      rwa [Nat.zero_mul, Nat.add_zero]

/-- **A run is given back** as a whole where none of its frames is free. -/
theorem Wf.deallocateContiguous (h : a.Wf) {base n : ℕ} (hbase : base % pageSize = 0) (hn : n ≠ 0)
    (hmanaged : ∀ f ∈ run base n, f ∈ a.managed) (hused : ∀ f ∈ run base n, f ∉ a.free) :
    a.Deposits (run base n) (a.deallocateContiguous base n).2 := by
  rw [FrameAllocator.deallocateContiguous, if_neg (by simp [hbase, hn])]
  obtain ⟨bits, hlength, hbits⟩ := a.deallocateContiguousLoop_bits base n
  rcases h.laid.deallocateContiguousLoop_cases base n with ⟨-, -, hfree⟩ | ⟨-, j, hj, hout, -⟩
  · rw [hbits] at hfree ⊢
    exact ⟨h.bits hlength, rfl, hfree⟩
  · have hmem : base + j * pageSize ∈ run base n := mem_run.mpr ⟨j, hj, rfl⟩
    exact absurd ⟨hmanaged _ hmem, hused _ hmem⟩ hout

end FrameAllocator

end Gaxera

import Gaxera.Kernel.Segmented

/-!
# Outstanding frames

The frames the allocator has given out and not got back, followed through whole runs of its
operations. The list of them is kept by the callers, so it is read off the answers: what an
allocation returns comes on it, what is freed goes off it. The callers keep to one rule, which is to
free only what is on the list.

Of an allocator that was just built, a frame is free exactly if it lies in usable memory and no
reservation covers it. From there every operation keeps the equation that the free frames are those
of the beginning less the outstanding ones, and everything else follows from it.
-/

namespace Gaxera

open FrameAllocator (run mem_run)

variable {f i : ℕ} {regions : List MemoryRegion} {ranges ranges' : List PhysicalRange}
  {region : MemoryRegion}

/-! ## The ranges of usable memory -/

/-- What the ranges found in a part of the memory map are. -/
structure Normal (regions : List MemoryRegion) (ranges : List PhysicalRange) : Prop where
  whole : ∀ r ∈ ranges, r.Whole
  sorted : ranges.Pairwise fun r s ↦ r.stop ≤ s.start
  covers : ∀ f, (∃ r ∈ ranges, r.containsFrame f = true) ↔ UsableFrame regions f
  bounded : ∀ r ∈ ranges, ∃ region ∈ regions, region.kind = .usable ∧ r.stop ≤ region.stop

theorem alignUp_eq_ok {address start : ℕ} (h : alignUp address = .ok start) :
    start % pageSize = 0 ∧ address ≤ start ∧ start < address + pageSize := by
  rw [alignUp, okOr_eq_ok] at h
  obtain ⟨value, hadd, rfl⟩ := Option.map_eq_some_iff.mp h
  obtain ⟨-, rfl⟩ := checkedAdd_eq_some.mp hadd
  simp only [alignDown, pageSize]
  omega

/-- The frames of a region are those between its bounds, once these are aligned. -/
theorem MemoryRegion.holds_iff {start : ℕ} (h : alignUp region.start = .ok start) :
    region.Holds f ↔ (⟨start, alignDown region.stop⟩ : PhysicalRange).containsFrame f = true := by
  obtain ⟨haligned, hle, hlt⟩ := alignUp_eq_ok h
  rw [PhysicalRange.containsFrame, decide_eq_true_eq]
  simp only [Holds, alignDown, pageSize] at haligned hlt ⊢
  omega

theorem usableFrame_append : UsableFrame (regions ++ [region]) f
    ↔ UsableFrame regions f ∨ region.kind = .usable ∧ region.Holds f := by
  simp only [UsableFrame, List.mem_append, List.mem_singleton, or_and_right, exists_or,
    exists_eq_left]

theorem UsableFrame.aligned (h : UsableFrame regions f) : f % pageSize = 0 := by
  obtain ⟨region, -, -, -, -, haligned⟩ := h
  exact haligned

private theorem Normal.skip (h : Normal regions ranges)
    (hnone : ∀ f, ¬(region.kind = .usable ∧ region.Holds f)) :
    Normal (regions ++ [region]) ranges where
  whole := h.whole
  sorted := h.sorted
  covers f := by
    rw [usableFrame_append, h.covers f]
    exact (or_iff_left (hnone f)).symm
  bounded r hr := by
    obtain ⟨region', hmem, hbound⟩ := h.bounded r hr
    exact ⟨region', List.mem_append_left _ hmem, hbound⟩

private theorem Normal.stop_le (h : Normal regions ranges) {start : ℕ}
    (hlast : ¬(ranges.getLast?.any fun previous ↦ decide (start < previous.stop)) = true) :
    ∀ r ∈ ranges, r.stop ≤ start := by
  intro r hr
  cases hget : ranges.getLast? with
  | none =>
    rw [List.getLast?_eq_none_iff.mp hget] at hr
    cases hr
  | some last =>
    obtain ⟨front, rfl⟩ := List.getLast?_eq_some_iff.mp hget
    have hle : last.stop ≤ start := by simpa [hget] using hlast
    rcases List.mem_append.mp hr with hr | hr
    · have hbefore := (List.pairwise_append.mp h.sorted).2.2 r hr last (List.mem_singleton_self _)
      have hwhole := (h.whole last (by simp)).start_le_stop
      omega
    · rwa [List.mem_singleton.mp hr]

theorem Normal.step (h : Normal regions ranges)
    (hstep : normalizeRegion ranges region = .ok ranges') :
    Normal (regions ++ [region]) ranges' := by
  rw [normalizeRegion] at hstep
  by_cases hkind : region.kind ≠ .usable
  · rw [if_pos hkind] at hstep
    obtain rfl := Except.ok.inj hstep
    exact h.skip fun f husable ↦ hkind husable.1
  rw [if_neg hkind] at hstep
  cases halign : alignUp region.start with
  | error e => simp [halign] at hstep
  | ok start =>
    rw [halign] at hstep
    dsimp only at hstep
    have hholds := fun f ↦ MemoryRegion.holds_iff (f := f) halign
    obtain ⟨haligned, -, -⟩ := alignUp_eq_ok halign
    by_cases hempty : alignDown region.stop ≤ start
    · rw [if_pos hempty] at hstep
      obtain rfl := Except.ok.inj hstep
      refine h.skip fun f husable ↦ ?_
      have hcontains := (hholds f).mp husable.2
      simp only [PhysicalRange.containsFrame, decide_eq_true_eq] at hcontains
      omega
    rw [if_neg hempty] at hstep
    by_cases hfull : ranges.length = maxUsableRanges
    · rw [if_pos hfull] at hstep
      cases hstep
    rw [if_neg hfull] at hstep
    by_cases hover : (ranges.getLast?.any fun previous ↦ decide (start < previous.stop)) = true
    · rw [if_pos hover] at hstep
      cases hstep
    rw [if_neg hover] at hstep
    obtain rfl := Except.ok.inj hstep
    have hbound : alignDown region.stop ≤ region.stop := Nat.div_mul_le_self _ _
    refine ⟨?_, ?_, fun f ↦ ?_, ?_⟩
    · intro r hr
      rcases List.mem_append.mp hr with hr | hr
      · exact h.whole r hr
      · rw [List.mem_singleton.mp hr]
        exact ⟨haligned, Nat.mul_mod_left _ _, (not_le.mp hempty).le,
          hbound.trans_lt region.stop_lt⟩
    · refine List.pairwise_append.mpr ⟨h.sorted, List.pairwise_singleton _ _, fun r hr s hs ↦ ?_⟩
      rw [List.mem_singleton.mp hs]
      exact h.stop_le hover r hr
    · rw [usableFrame_append, ← h.covers f, hholds f]
      simp [not_not.mp hkind, or_and_right, exists_or]
    · intro r hr
      rcases List.mem_append.mp hr with hr | hr
      · obtain ⟨region', hmem, hle⟩ := h.bounded r hr
        exact ⟨region', List.mem_append_left _ hmem, hle⟩
      · rw [List.mem_singleton.mp hr]
        exact ⟨region, by simp, not_not.mp hkind, hbound⟩

theorem Normal.run {done : List MemoryRegion} (h : Normal done ranges)
    (hok : normalizeRegions ranges regions = .ok ranges') : Normal (done ++ regions) ranges' := by
  induction regions generalizing done ranges with
  | nil =>
    obtain rfl := Except.ok.inj hok
    rwa [List.append_nil]
  | cons region regions ih =>
    rw [normalizeRegions] at hok
    cases hstep : normalizeRegion ranges region with
    | error e => simp [hstep] at hok
    | ok next =>
      rw [hstep] at hok
      have hrest := ih (h.step hstep) hok
      rwa [List.append_assoc] at hrest

/-- **The usable ranges** are whole frames in ascending order, and together they have exactly the
frames of usable memory. -/
theorem normal_of_normalizedUsableRanges (h : normalizedUsableRanges regions = .ok ranges) :
    Normal regions ranges := by
  have hnil : Normal [] [] := ⟨by simp, List.Pairwise.nil, fun f ↦ by simp [UsableFrame], by simp⟩
  exact hnil.run h

/-! ## A new allocator -/

namespace SegmentedBitmapFrameAllocator

variable {s s' : SegmentedBitmapFrameAllocator} {reservations : BootReservations}
  {bitmap : List (BitVec 64)}

theorem number_eq_ok {managed ranges : List ManagedRange} {first count : ℕ}
    {physical : List PhysicalRange} (h : number managed first physical = .ok (ranges, count)) :
    ∃ new, ranges = managed ++ new ∧ new.map ManagedRange.physical = physical
      ∧ FrameAllocator.Numbered first new count := by
  induction physical generalizing managed first with
  | nil =>
    obtain ⟨rfl, rfl⟩ := Prod.mk.inj (Except.ok.inj h)
    exact ⟨[], (List.append_nil _).symm, rfl, rfl⟩
  | cons range physical ih =>
    rw [number] at h
    cases hadd : checkedAdd 64 first range.frameCount with
    | none => simp [hadd] at h
    | some next =>
      rw [hadd] at h
      obtain ⟨new, rfl, hmap, hnumbered⟩ := ih h
      obtain ⟨-, rfl⟩ := checkedAdd_eq_some.mp hadd
      exact ⟨⟨range, first⟩ :: new, by rw [List.append_assoc]; rfl,
        congrArg (range :: ·) hmap, rfl, hnumbered⟩

theorem mem_managed {a : FrameAllocator} :
    f ∈ a.managed ↔ ∃ r ∈ a.ranges, r.physical.containsFrame f = true := by
  rw [FrameAllocator.managed, Set.mem_ofPred_eq, FrameAllocator.frameIndex.eq_def]
  constructor
  · rintro ⟨i, hi⟩
    cases hfind : a.ranges.find? fun r ↦ r.physical.containsFrame f with
    | none => simp [hfind] at hi
    | some r =>
      have hcontains := List.find?_some hfind
      exact ⟨r, List.mem_of_find?_eq_some hfind, hcontains⟩
  · rintro ⟨r, hr, hcontains⟩
    cases hfind : a.ranges.find? fun r ↦ r.physical.containsFrame f with
    | none => exact absurd hcontains (List.find?_eq_none.mp hfind r hr)
    | some r => exact ⟨_, rfl⟩

/-- **The loop of the constructor** ends well, and frees what is not reserved. -/
theorem releaseLoop_spec (reservations : BootReservations) (h : s.flat.Laid) (index n : ℕ)
    (hn : index + n ≤ s.frameCount) :
    ∃ s', releaseLoop reservations s index n = .ok s' ∧ s'.ranges = s.ranges
      ∧ s'.flat.Laid ∧ ∀ f, f ∈ s'.flat.free ↔ f ∈ s.flat.free
        ∨ ∃ j, index ≤ j ∧ j < index + n ∧ s.frameAddress j = .ok f
          ∧ reservations.containsFrame f = false := by
  induction n generalizing s index with
  | zero =>
    refine ⟨s, rfl, rfl, h, fun f ↦ ⟨Or.inl, ?_⟩⟩
    rintro (hfree | ⟨j, hlo, hhi, -⟩)
    · exact hfree
    · omega
  | succ n ih =>
    have hlt : index < s.flat.frameCount := by
      rw [flat_frameCount]
      omega
    obtain ⟨address, haddress, hindex⟩ := h.index_of_address hlt
    rw [releaseLoop, frameAddress, haddress]
    dsimp only
    generalize hnext : (if reservations.containsFrame address then s else s.markFree index) = next
    -- the frame at hand is freed, or it is reserved
    have hspec : next.ranges = s.ranges ∧ next.frameCount = s.frameCount ∧ next.flat.Laid
        ∧ ∀ f, f ∈ next.flat.free ↔ f ∈ s.flat.free
          ∨ f = address ∧ reservations.containsFrame f = false := by
      subst hnext
      by_cases hreserved : reservations.containsFrame address = true
      · rw [if_pos hreserved]
        refine ⟨rfl, rfl, h, fun f ↦ ⟨Or.inl, ?_⟩⟩
        rintro (hfree | ⟨rfl, hnot⟩)
        · exact hfree
        · simp [hreserved] at hnot
      · rw [if_neg hreserved, flat_markFree, h.free_markFree hindex]
        refine ⟨rfl, rfl, h.bits (List.length_set ..), fun f ↦ or_congr_right ?_⟩
        rw [Set.mem_singleton_iff]
        refine ⟨?_, And.left⟩
        rintro rfl
        exact ⟨rfl, Bool.eq_false_iff.mpr hreserved⟩
    obtain ⟨hranges, hcount, hlaid, hfree⟩ := hspec
    obtain ⟨s', heq, hranges', hlaid', hfree'⟩ := ih hlaid (index + 1) (by omega)
    refine ⟨s', heq, hranges'.trans hranges, hlaid', fun f ↦ ?_⟩
    have hsame : ∀ j, next.frameAddress j = s.frameAddress j := by
      intro j
      rw [frameAddress, frameAddress, FrameAllocator.frameAddress, FrameAllocator.frameAddress,
        flat_ranges, flat_ranges, hranges]
    rw [hfree', hfree, or_assoc]
    refine or_congr_right ⟨?_, ?_⟩
    · rintro (⟨rfl, hnot⟩ | ⟨j, hlo, hhi, hj, hnot⟩)
      · exact ⟨index, le_refl _, by omega, haddress, hnot⟩
      · exact ⟨j, by omega, by omega, (hsame j).symm.trans hj, hnot⟩
    · rintro ⟨j, hlo, hhi, hj, hnot⟩
      rcases Nat.eq_or_lt_of_le hlo with rfl | hlt
      · exact .inl ⟨Except.ok.inj (hj.symm.trans haddress), hnot⟩
      · exact .inr ⟨j, hlt, by omega, (hsame j).trans hj, hnot⟩

/-- An allocator that was just built. -/
structure Built (regions : List MemoryRegion) (reservations : BootReservations)
    (s : SegmentedBitmapFrameAllocator) : Prop where
  laid : s.flat.Laid
  managed : ∀ f, f ∈ s.flat.managed ↔ UsableFrame regions f
  free : ∀ f, f ∈ s.flat.free ↔ UsableFrame regions f ∧ reservations.containsFrame f = false
  bounded : ∀ r ∈ s.ranges, ∃ region ∈ regions,
    region.kind = .usable ∧ r.physical.stop ≤ region.stop

private theorem free_of_full (bitmap : List (BitVec 64)) (ranges : List ManagedRange) (count : ℕ) :
    f ∉ (flat ⟨bitmap.map fun _ ↦ BitVec.allOnes 64, ranges, count⟩).free := by
  intro hfree
  obtain ⟨i, -, hunused⟩ := FrameAllocator.mem_free.mp hfree
  rw [← isUsed_eq, isUsed, WordBitmap.test, decide_eq_false_iff_not, not_not] at hunused
  have hword : (bitmap.map fun _ ↦ BitVec.allOnes 64).getD (i / 64) (BitVec.allOnes 64)
      = BitVec.allOnes 64 := by
    rw [List.getD_eq_getElem?_getD, List.getElem?_map]
    cases bitmap[i / 64]? <;> rfl
  rw [hword] at hunused
  have hbit : i % 64 < 64 := Nat.mod_lt i (by decide)
  have hset : (BitVec.allOnes 64).getLsbD (i % 64) = true := by
    rw [BitVec.getLsbD_allOnes, decide_eq_true hbit]
  exact (WordBitmap.and_bit_ne_zero_iff hbit).mpr hset hunused

theorem built_of_new (h : new regions reservations bitmap = .ok s) :
    Built regions reservations s := by
  rw [new] at h
  cases hnormal : normalizedUsableRanges regions with
  | error e => simp [hnormal] at h
  | ok normalized =>
    rw [hnormal] at h
    dsimp only at h
    have hn := normal_of_normalizedUsableRanges hnormal
    cases hnumber : number [] 0 normalized with
    | error e => simp [hnumber] at h
    | ok p =>
      obtain ⟨ranges, count⟩ := p
      rw [hnumber] at h
      dsimp only at h
      obtain ⟨new, hnew, hmap, hnumbered⟩ := number_eq_ok hnumber
      rw [List.nil_append] at hnew
      subst hnew hmap
      by_cases hsmall : bitmap.length < (count + 63) / 64
      · rw [if_pos hsmall] at h
        cases h
      rw [if_neg hsmall] at h
      generalize hfull : (⟨bitmap.map fun _ ↦ BitVec.allOnes 64, ranges, count⟩ :
        SegmentedBitmapFrameAllocator) = full at h
      have hlaid : full.flat.Laid := by
        subst hfull
        refine ⟨?_, hnumbered, fun r hr ↦ hn.whole _ (List.mem_map_of_mem hr), ?_⟩
        · rw [flat, WordBitmap.length_bits, List.length_map]
          dsimp only
          omega
        · exact (List.pairwise_map.mp hn.sorted).imp Or.inl
      have hnone : ∀ f, f ∉ full.flat.free := fun f ↦ hfull ▸ free_of_full bitmap ranges count
      have hcount : full.frameCount = count := hfull ▸ rfl
      have hfrom : full.ranges = ranges := hfull ▸ rfl
      obtain ⟨s', heq, hranges, hlaid', hfree⟩ :=
        releaseLoop_spec reservations hlaid 0 count (by omega)
      obtain rfl := Except.ok.inj (h.symm.trans heq)
      have hmanaged : ∀ {a : FrameAllocator}, a.ranges = ranges →
          ∀ f, f ∈ a.managed ↔ UsableFrame regions f := by
        intro a ha f
        rw [mem_managed, ha, ← hn.covers f]
        simp
      refine ⟨hlaid', hmanaged (hranges.trans hfrom), fun f ↦ ?_, fun r hr ↦ ?_⟩
      · rw [hfree, or_iff_right (hnone f), ← hmanaged (a := full.flat) hfrom f]
        constructor
        · rintro ⟨j, -, hj, haddress, hnot⟩
          have hlt : j < full.flat.frameCount := by
            rw [flat_frameCount]
            omega
          obtain ⟨g, hg, hindex⟩ := hlaid.index_of_address hlt
          obtain rfl := Except.ok.inj (haddress.symm.trans hg)
          exact ⟨⟨j, hindex⟩, hnot⟩
        · rintro ⟨⟨j, hindex⟩, hnot⟩
          obtain ⟨haddress, hlt⟩ := hlaid.address_of_index hindex
          rw [flat_frameCount] at hlt
          exact ⟨j, Nat.zero_le j, by omega, haddress, hnot⟩
      · rw [hranges, hfrom] at hr
        exact hn.bounded _ (List.mem_map_of_mem hr)

theorem Built.wf (h : Built regions reservations s)
    (hfits : ∀ region ∈ regions, region.kind = .usable → region.stop ≤ 2 ^ 52) : s.flat.Wf where
  length := h.laid.length
  numbered := h.laid.numbered
  disjoint := h.laid.disjoint
  ranges r hr := by
    obtain ⟨hstart, hstop, hle, -⟩ := h.laid.ranges r hr
    obtain ⟨region, hmem, hkind, hbound⟩ := h.bounded r hr
    exact ⟨hstart, hstop, hle, hbound.trans (hfits region hmem hkind)⟩

end SegmentedBitmapFrameAllocator

/-! ## Reservations -/

namespace BootReservations

variable {reservations reservations' : BootReservations} {range : PhysicalRange}

/-- Two ranges that touch or overlap have, together, the frames of the one that spans them. -/
private theorem contains_span {r s : PhysicalRange} (hlo : s.start ≤ r.stop)
    (hhi : r.start ≤ s.stop) :
    (⟨min r.start s.start, max r.stop s.stop⟩ : PhysicalRange).containsFrame f = true
      ↔ r.containsFrame f = true ∨ s.containsFrame f = true := by
  simp only [PhysicalRange.containsFrame, decide_eq_true_eq]
  omega

/-- **A reservation covers what was covered before and the new range**, merged or not. -/
theorem containsFrame_reserveRange (h : reservations.reserveRange range = .ok reservations') :
    reservations'.containsFrame f = true
      ↔ reservations.containsFrame f = true ∨ range.containsFrame f = true := by
  rw [reserveRange] at h
  by_cases hinvalid : range.stop ≤ range.start ∨ range.start % pageSize ≠ 0
      ∨ range.stop % pageSize ≠ 0
  · rw [if_pos hinvalid] at h
    cases h
  rw [if_neg hinvalid] at h
  cases hlast : reservations.ranges.getLast? with
  | none =>
    rw [hlast] at h
    obtain rfl := Except.ok.inj h
    simp [containsFrame, List.getLast?_eq_none_iff.mp hlast]
  | some last =>
    rw [hlast] at h
    dsimp only at h
    by_cases hmerge : range.start ≤ last.stop ∧ last.start ≤ range.stop
    · rw [if_pos hmerge] at h
      obtain rfl := Except.ok.inj h
      obtain ⟨front, hfront⟩ := List.getLast?_eq_some_iff.mp hlast
      simp only [containsFrame, hfront, List.dropLast_concat, List.any_append, List.any_cons,
        List.any_nil, Bool.or_false, Bool.or_eq_true, or_assoc]
      exact or_congr_right (contains_span hmerge.1 hmerge.2)
    · rw [if_neg hmerge] at h
      by_cases hfull : reservations.ranges.length = maxBootReservations
      · rw [if_pos hfull] at h
        cases h
      rw [if_neg hfull] at h
      obtain rfl := Except.ok.inj h
      simp [containsFrame]

/-- The requests of the boot code one after the other, and those that were accepted. -/
def reserveAll (reservations : BootReservations) :
    List PhysicalRange → BootReservations × List PhysicalRange
  | [] => (reservations, [])
  | range :: requests =>
    match reservations.reserveRange range with
    | .error _ => reservations.reserveAll requests
    | .ok next => ((next.reserveAll requests).1, range :: (next.reserveAll requests).2)

theorem containsFrame_reserveAll (reservations : BootReservations) (requests : List PhysicalRange) :
    (reservations.reserveAll requests).1.containsFrame f = true
      ↔ reservations.containsFrame f = true
        ∨ ∃ range ∈ (reservations.reserveAll requests).2, range.containsFrame f = true := by
  induction requests generalizing reservations with
  | nil => simp [reserveAll]
  | cons range requests ih =>
    rw [reserveAll]
    cases hreserve : reservations.reserveRange range with
    | error e => exact ih reservations
    | ok next =>
      dsimp only
      rw [ih, containsFrame_reserveRange hreserve, or_assoc]
      simp only [List.mem_cons, exists_eq_or_imp]

end BootReservations

/-! ## Runs -/

inductive FrameOp
  | allocate
  | allocateContiguous (pageCount : ℕ)
  | deallocate (frame : ℕ)
  | deallocateContiguous (baseFrame pageCount : ℕ)
deriving DecidableEq, Repr

/-- The frames an operation gives back. -/
def FrameOp.freed : FrameOp → List ℕ
  | .allocate => []
  | .allocateContiguous _ => []
  | .deallocate frame => [frame]
  | .deallocateContiguous baseFrame pageCount => run baseFrame pageCount

/-- The frames an operation hands out, and the allocator after it. -/
def SegmentedBitmapFrameAllocator.perform (s : SegmentedBitmapFrameAllocator) :
    FrameOp → List ℕ × SegmentedBitmapFrameAllocator
  | .allocate => (s.allocate.1.toList, s.allocate.2)
  | .allocateContiguous pageCount =>
    ((s.allocateContiguous pageCount).1.elim [] fun base ↦ run base pageCount,
      (s.allocateContiguous pageCount).2)
  | .deallocate frame => ([], (s.deallocate frame).2)
  | .deallocateContiguous baseFrame pageCount =>
    ([], (s.deallocateContiguous baseFrame pageCount).2)

/-- The allocator, and the frames that are out. -/
structure FrameLedger where
  allocator : SegmentedBitmapFrameAllocator
  owned : List ℕ

namespace FrameLedger

def exec (l : FrameLedger) (op : FrameOp) : FrameLedger :=
  ⟨(l.allocator.perform op).2,
    (l.allocator.perform op).1 ++ l.owned.filter fun f ↦ decide (f ∉ op.freed)⟩

def execAll (l : FrameLedger) (ops : List FrameOp) : FrameLedger := ops.foldl exec l

/-- Only frames that are out are given back, at every step of a run. -/
def FreesOwned (l : FrameLedger) : List FrameOp → Prop
  | [] => True
  | op :: ops => (∀ f ∈ op.freed, f ∈ l.owned) ∧ (l.exec op).FreesOwned ops

theorem execAll_induction {P : FrameLedger → Prop} {l : FrameLedger} {ops : List FrameOp} (hl : P l)
    (hops : l.FreesOwned ops)
    (hstep : ∀ {l op}, P l → (∀ f ∈ FrameOp.freed op, f ∈ l.owned) → P (l.exec op)) :
    P (l.execAll ops) := by
  induction ops generalizing l with
  | nil => exact hl
  | cons op ops ih => exact ih (hstep hl hops.1) hops.2

/-- Of the frames of usable memory, `available` are those that may be given out, and a frame is free
exactly if it is one of them and not out. -/
structure Balanced (usable available : Set ℕ) (l : FrameLedger) : Prop where
  wf : l.allocator.flat.Wf
  managed : l.allocator.flat.managed = usable
  free : l.allocator.flat.free = available \ {f | f ∈ l.owned}
  nodup : l.owned.Nodup
  owned : ∀ f ∈ l.owned, f ∈ available

section Balanced

variable {usable available : Set ℕ} {l : FrameLedger} {frames : List ℕ}
  {s : SegmentedBitmapFrameAllocator}

/-- Frames that are handed out were free, so none of them was out. -/
theorem Balanced.withdraws (h : Balanced usable available l)
    (hw : l.allocator.flat.Withdraws frames s.flat) :
    Balanced usable available ⟨s, frames ++ l.owned⟩ where
  wf := hw.wf
  managed := hw.managed.trans h.managed
  free := by
    rw [hw.free, h.free]
    ext f
    simp only [Set.mem_sdiff, Set.mem_ofPred_eq, List.mem_append]
    tauto
  nodup := by
    refine hw.nodup.append h.nodup fun f hf hout ↦ ?_
    have hfree := hw.subset f hf
    rw [h.free] at hfree
    exact hfree.2 hout
  owned f hf := by
    rcases List.mem_append.mp hf with hf | hf
    · have hfree := hw.subset f hf
      rw [h.free] at hfree
      exact hfree.1
    · exact h.owned f hf

theorem Balanced.deposits (h : Balanced usable available l) (hframes : ∀ f ∈ frames, f ∈ l.owned)
    (hd : l.allocator.flat.Deposits frames s.flat) :
    Balanced usable available ⟨s, l.owned.filter fun f ↦ decide (f ∉ frames)⟩ where
  wf := hd.wf
  managed := hd.managed.trans h.managed
  free := by
    rw [hd.free, h.free]
    ext f
    have hout := fun hf ↦ h.owned f (hframes f hf)
    simp only [Set.mem_union, Set.mem_sdiff, Set.mem_ofPred_eq, List.mem_filter,
      decide_eq_true_eq]
    tauto
  nodup := h.nodup.filter _
  owned f hf := h.owned f (List.mem_filter.mp hf).1

/-- **One operation.** -/
theorem Balanced.exec (h : Balanced usable available l) (hsub : available ⊆ usable)
    (haligned : ∀ f ∈ available, f % pageSize = 0) {op : FrameOp}
    (hop : ∀ f ∈ op.freed, f ∈ l.owned) : Balanced usable available (l.exec op) := by
  have hkeep : l.owned.filter (fun f ↦ decide (f ∉ ([] : List ℕ))) = l.owned := by simp
  have hmanaged : ∀ f ∈ op.freed, f ∈ l.allocator.flat.managed := by
    intro f hf
    rw [h.managed]
    exact hsub (h.owned f (hop f hf))
  cases op with
  | allocate =>
    have hw := h.wf.allocate
    rw [l.allocator.allocate_flat] at hw
    rw [FrameLedger.exec, FrameOp.freed, hkeep]
    exact h.withdraws hw
  | allocateContiguous pageCount =>
    have hw := h.wf.allocateContiguous pageCount
    rw [l.allocator.allocateContiguous_flat h.wf.laid] at hw
    rw [FrameLedger.exec, FrameOp.freed, hkeep]
    exact h.withdraws hw
  | deallocate frame =>
    have hd := h.wf.deallocate (hmanaged frame (List.mem_singleton_self frame))
    rw [l.allocator.deallocate_flat] at hd
    exact h.deposits hop hd
  | deallocateContiguous baseFrame pageCount =>
    rw [FrameOp.freed] at hop hmanaged
    have hflat := l.allocator.deallocateContiguous_flat baseFrame pageCount
    by_cases hzero : pageCount = 0
    · -- nothing is asked for, and nothing is done
      subst hzero
      have hsame : (l.allocator.deallocateContiguous baseFrame 0).2 = l.allocator := rfl
      rw [FrameLedger.exec, FrameOp.freed, SegmentedBitmapFrameAllocator.perform, hsame]
      have hkeep' : l.owned.filter (fun f ↦ decide (f ∉ run baseFrame 0)) = l.owned := hkeep
      rw [hkeep']
      exact h
    · have hbase : baseFrame ∈ run baseFrame pageCount :=
        mem_run.mpr ⟨0, Nat.pos_of_ne_zero hzero, by rw [Nat.zero_mul, Nat.add_zero]⟩
      have hd := h.wf.deallocateContiguous
        (haligned baseFrame (h.owned baseFrame (hop baseFrame hbase))) hzero hmanaged
        fun f hf hfree ↦ by
          rw [h.free] at hfree
          exact hfree.2 (hop f hf)
      rw [hflat] at hd
      exact h.deposits hop hd

/-- Every allocation takes a frame that is free, until all of them are out. -/
theorem Balanced.drains (h : Balanced usable available l) (hsub : available ⊆ usable)
    (haligned : ∀ f ∈ available, f % pageSize = 0) :
    ∃ n, ∀ f, f ∈ (l.execAll (List.replicate n .allocate)).owned ↔ f ∈ available := by
  induction hclear : l.allocator.flat.bitmap.count false using Nat.strong_induction_on
    generalizing l with
  | h clear ih =>
    rcases h.wf.laid.allocate_cases with ⟨-, hempty⟩ | ⟨i, f, hi, hunused, hsome⟩
    · refine ⟨0, fun f ↦ ⟨h.owned f, fun hf ↦ ?_⟩⟩
      by_contra hout
      exact (hempty ▸ h.free).ge ⟨hf, hout⟩
    · have hlt := h.wf.laid.index_lt hi
      have hbit : l.allocator.flat.bitmap[i] = false := by
        simpa [FrameAllocator.isUsed, List.getD_eq_getElem?_getD, hlt] using hunused
      have hmarked : (l.exec .allocate).allocator.flat = l.allocator.flat.markUsed i :=
        (Prod.mk.inj (l.allocator.allocate_flat.symm.trans hsome)).2
      have hfewer : (l.exec .allocate).allocator.flat.bitmap.count false < clear := by
        rw [hmarked, FrameAllocator.markUsed, List.count_set hlt, hbit, ← hclear]
        exact Nat.sub_lt (List.count_pos_iff.mpr (hbit ▸ List.getElem_mem hlt)) Nat.one_pos
      obtain ⟨n, hn⟩ := ih _ hfewer (h.exec hsub haligned (by simp [FrameOp.freed])) rfl
      exact ⟨n + 1, hn⟩

end Balanced

/-! ## The allocator from boot on -/

/-- Usable memory that no accepted reservation covers. -/
def Available (regions : List MemoryRegion) (accepted : List PhysicalRange) (frame : ℕ) : Prop :=
  UsableFrame regions frame ∧ ∀ range ∈ accepted, range.containsFrame frame = false

section Boot

variable {requests : List PhysicalRange} {s : SegmentedBitmapFrameAllocator}

theorem available_iff :
    Available regions (BootReservations.new.reserveAll requests).2 f ↔ UsableFrame regions f
      ∧ (BootReservations.new.reserveAll requests).1.containsFrame f = false := by
  have hcontains := BootReservations.new.containsFrame_reserveAll (f := f) requests
  rw [or_iff_right (by simp [BootReservations.new, BootReservations.containsFrame])] at hcontains
  refine and_congr_right fun _ ↦ ?_
  rw [← Bool.not_eq_true, hcontains]
  simp

/-- The ledger of an allocator that was just built is balanced, and stays so. -/
theorem balanced_of_new {bitmap : List (BitVec 64)}
    (hfits : ∀ region ∈ regions, region.kind = .usable → region.stop ≤ 2 ^ 52)
    (hnew : SegmentedBitmapFrameAllocator.new regions
      (BootReservations.new.reserveAll requests).1 bitmap = .ok s)
    {ops : List FrameOp} (hops : FreesOwned ⟨s, []⟩ ops) :
    Balanced {f | UsableFrame regions f}
      {f | Available regions (BootReservations.new.reserveAll requests).2 f}
      (execAll ⟨s, []⟩ ops) := by
  have hbuilt := SegmentedBitmapFrameAllocator.built_of_new hnew
  refine execAll_induction ⟨hbuilt.wf hfits, ?_, ?_, List.nodup_nil, by simp⟩ hops
    fun hl hop ↦ hl.exec (fun f hf ↦ hf.1) (fun f hf ↦ UsableFrame.aligned hf.1) hop
  · ext f
    exact hbuilt.managed f
  · ext f
    rw [hbuilt.free f, ← available_iff]
    simp

/-- **No frame is given out twice.** In every run from boot in which only frames that are out are
given back: the frames that are out are distinct, usable and not reserved; numbers and addresses of
frames are inverse to each other; an allocation fails only if every available frame is out; and a
run of frames is aligned to its size and takes frames that were all available and not out. -/
theorem frames_are_never_given_out_twice (regions : List MemoryRegion)
    (hfits : ∀ region ∈ regions, region.kind = .usable → region.stop ≤ 2 ^ 52)
    (requests : List PhysicalRange) (bitmap : List (BitVec 64)) (s : SegmentedBitmapFrameAllocator)
    (hnew : SegmentedBitmapFrameAllocator.new regions
      (BootReservations.new.reserveAll requests).1 bitmap = .ok s)
    (ops : List FrameOp) (hops : FreesOwned ⟨s, []⟩ ops) :
    let accepted := (BootReservations.new.reserveAll requests).2
    let l := execAll ⟨s, []⟩ ops
    l.owned.Nodup
      ∧ (∀ f ∈ l.owned, UsableFrame regions f ∧ ∀ range ∈ accepted, range.containsFrame f = false)
      ∧ (∀ i < l.allocator.frameCount,
          ∃ f, l.allocator.frameAddress i = .ok f ∧ l.allocator.frameIndex f = .ok i)
      ∧ (∀ f i, l.allocator.frameIndex f = .ok i →
          l.allocator.frameAddress i = .ok f ∧ i < l.allocator.frameCount)
      ∧ (l.allocator.allocate.1 = none → ∀ f, Available regions accepted f → f ∈ l.owned)
      ∧ ∀ pageCount base, (l.allocator.allocateContiguous pageCount).1 = some base →
          base % (pageCount * pageSize) = 0 ∧ ∀ k < pageCount,
            Available regions accepted (base + k * pageSize) ∧ base + k * pageSize ∉ l.owned := by
  intro accepted l
  have h := balanced_of_new hfits hnew hops
  have hlaid := h.wf.laid
  refine ⟨h.nodup, h.owned, fun i hi ↦ hlaid.index_of_address hi,
    fun f i hi ↦ hlaid.address_of_index hi, fun hnone f havailable ↦ ?_, fun n base hbase ↦ ?_⟩
  · by_contra hout
    have hfree : f ∈ l.allocator.flat.free := by
      rw [h.free]
      exact ⟨havailable, hout⟩
    rcases hlaid.allocate_cases with ⟨-, hempty⟩ | ⟨i, g, hi, -, hsome⟩
    · exact absurd hfree (hempty ▸ Set.notMem_empty f)
    · rw [l.allocator.allocate_flat, hnone, h.wf.physical hi] at hsome
      cases hsome
  · have hflat := l.allocator.allocateContiguous_flat hlaid n
    rcases hlaid.allocateContiguous_cases n with
      hnone | ⟨base', bits, -, hsome, haligned, hsubset, -⟩
    · rw [(Prod.mk.inj (hflat.symm.trans hnone)).1] at hbase
      cases hbase
    · have hanswer := (Prod.mk.inj (hflat.symm.trans hsome)).1
      obtain rfl := Option.mem_unique hbase hanswer
      refine ⟨haligned, fun k hk ↦ ?_⟩
      have hmem := hsubset _ (mem_run.mpr ⟨k, hk, rfl⟩)
      rw [h.free] at hmem
      exact hmem

/-- **No frame is lost.** After any run from boot in which only frames that are out are given back,
a number of allocations brings out every available frame, and nothing else. -/
theorem every_frame_can_be_given_out (bitmap : List (BitVec 64))
    (hfits : ∀ region ∈ regions, region.kind = .usable → region.stop ≤ 2 ^ 52)
    (hnew : SegmentedBitmapFrameAllocator.new regions
      (BootReservations.new.reserveAll requests).1 bitmap = .ok s)
    (ops : List FrameOp) (hops : FreesOwned ⟨s, []⟩ ops) :
    ∃ n, ∀ f, f ∈ ((execAll ⟨s, []⟩ ops).execAll (List.replicate n .allocate)).owned ↔
      Available regions (BootReservations.new.reserveAll requests).2 f :=
  (balanced_of_new hfits hnew hops).drains (fun _ hf ↦ hf.1) fun _ hf ↦ UsableFrame.aligned hf.1

end Boot

/-- Five frames and three, with a region between them that is not usable. -/
def smallMap : List MemoryRegion :=
  [⟨0x800, 0x6000, .usable, by decide, by decide⟩,
   ⟨0x8000, 0x9000, .reserved, by decide, by decide⟩,
    ⟨0x10000, 0x13000, .usable, by decide, by decide⟩]

/-- The allocator of the small map, where the frame at `0x2000` is reserved. -/
def smallAllocator : SegmentedBitmapFrameAllocator :=
  ⟨[0xffffffffffffff02#64], [⟨⟨0x1000, 0x6000⟩, 0⟩, ⟨⟨0x10000, 0x13000⟩, 5⟩], 8⟩

theorem frames_of_smallMap :
    let l := execAll ⟨smallAllocator, []⟩
      [.allocate, .allocateContiguous 2, .deallocate 0x1000, .allocate]
    l.owned = [0x1000, 0x4000, 0x5000] ∧ l.owned.Nodup :=
  ⟨by decide +kernel,
    (frames_are_never_given_out_twice smallMap (by decide +kernel) [⟨0x2000, 0x3000⟩] [0#64]
      smallAllocator (by decide +kernel)
      [.allocate, .allocateContiguous 2, .deallocate 0x1000, .allocate]
      ⟨by decide, by decide, by decide +kernel, by decide, trivial⟩).1⟩

theorem every_frame_of_smallMap :
    ∃ n, ∀ f, f ∈ ((execAll ⟨smallAllocator, []⟩ [.allocateContiguous 2]).execAll
      (List.replicate n .allocate)).owned ↔
        Available smallMap (BootReservations.new.reserveAll [⟨0x2000, 0x3000⟩]).2 f :=
  every_frame_can_be_given_out [0#64] (by decide +kernel) (by decide +kernel)
    [.allocateContiguous 2] ⟨by decide, trivial⟩

end FrameLedger

end Gaxera

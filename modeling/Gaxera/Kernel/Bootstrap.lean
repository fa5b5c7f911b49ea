import Gaxera.Kernel.Outstanding

/-!
# The bootstrap allocator and its hand-over

Before the bitmap exists, frames are handed out by moving a cursor through each range of usable
memory, and whatever is handed out is entered in the reservations, which the bitmap is then built
from. The cursor moves before the entry is made: if the entry fails, the frames are handed to
nobody.

A range handed out lies behind the cursor of its range, so the next one is apart from it; and it is
covered by the reservations, however these were merged. The bitmap never has a reserved frame free,
and with the rule that only frames are given back that are out, it never comes to have one free.
-/

namespace Gaxera

open FrameAllocator (run mem_run)

variable {f i : ℕ}

structure BootstrapFrameAllocator where
  ranges : List PhysicalRange
  next : List ℕ
  currentRange : ℕ
  reservations : BootReservations
deriving DecidableEq, Repr

namespace BootstrapFrameAllocator

/-- The ranges are found as for the bitmap, by a loop of its own; every cursor is at the start. -/
def fromBootContext (regions : List MemoryRegion) :
    Except PhysicalAllocatorError BootstrapFrameAllocator :=
  match normalizedUsableRanges regions with
  | .error e => .error e
  | .ok ranges => .ok ⟨ranges, ranges.map PhysicalRange.start, 0, .new⟩

def skipRange (b : BootstrapFrameAllocator) : BootstrapFrameAllocator :=
  { b with currentRange := b.currentRange + 1 }

def advance (b : BootstrapFrameAllocator) (stop : ℕ) : BootstrapFrameAllocator :=
  { b with next := b.next.set b.currentRange stop }

/-- What was set aside is handed out if it could be entered. -/
def record {α : Type} (b : BootstrapFrameAllocator) (grant : α) :
    Except PhysicalAllocatorError BootReservations →
      Except PhysicalAllocatorError (Option α) × BootstrapFrameAllocator
  | .error e => (.error e, b)
  | .ok reservations => (.ok (some grant), { b with reservations })

def takeFrame (b : BootstrapFrameAllocator) (frame : ℕ) :
    Option ℕ → Except PhysicalAllocatorError (Option ℕ) × BootstrapFrameAllocator
  | none => (.error .addressOverflow, b)
  | some stop => (b.advance stop).record frame (b.reservations.reserveFrame frame)

/-- The loop of `allocate`, with the number of ranges that are left. -/
def allocateLoop (b : BootstrapFrameAllocator) :
    ℕ → Except PhysicalAllocatorError (Option ℕ) × BootstrapFrameAllocator
  | 0 => (.ok none, b)
  | remaining + 1 =>
    if b.next.getD b.currentRange 0 = (b.ranges.getD b.currentRange ⟨0, 0⟩).stop then
      b.skipRange.allocateLoop remaining
    else
      match frameFromAddress (b.next.getD b.currentRange 0) with
      | .error e => (.error e, b)
      | .ok frame => b.takeFrame frame (checkedAdd 64 (b.next.getD b.currentRange 0) pageSize)

def allocate (b : BootstrapFrameAllocator) :
    Except PhysicalAllocatorError (Option ℕ) × BootstrapFrameAllocator :=
  b.allocateLoop (b.ranges.length - b.currentRange)

/-- The loop of `allocate_contiguous`: a range that is too short is left for good. -/
def allocateContiguousLoop (b : BootstrapFrameAllocator) (byteCount : ℕ) :
    ℕ → Except PhysicalAllocatorError (Option PhysicalRange) × BootstrapFrameAllocator
  | 0 => (.ok none, b)
  | remaining + 1 =>
    match checkedAdd 64 (b.next.getD b.currentRange 0) byteCount with
    | none => (.error .addressOverflow, b)
    | some stop =>
      if (b.ranges.getD b.currentRange ⟨0, 0⟩).stop < stop then
        b.skipRange.allocateContiguousLoop byteCount remaining
      else
        (b.advance stop).record ⟨b.next.getD b.currentRange 0, stop⟩
          (b.reservations.reserveRange ⟨b.next.getD b.currentRange 0, stop⟩)

def allocateContiguous (b : BootstrapFrameAllocator) (frameCount : ℕ) :
    Except PhysicalAllocatorError (Option PhysicalRange) × BootstrapFrameAllocator :=
  if frameCount = 0 then (.error .invalidReservation, b)
  else if 2 ^ 64 ≤ frameCount * pageSize then (.error .addressOverflow, b)
  else b.allocateContiguousLoop (frameCount * pageSize) (b.ranges.length - b.currentRange)

/-! ## What has been handed out -/

/-- `handed` lies behind the cursors, and the reservations cover it. -/
structure Tracks (handed : List PhysicalRange) (b : BootstrapFrameAllocator) : Prop where
  whole : ∀ r ∈ b.ranges, r.Whole
  sorted : b.ranges.Pairwise fun r s ↦ r.stop ≤ s.start
  cursor : ∀ (i : ℕ) (r : PhysicalRange), b.ranges[i]? = some r →
    ∃ n, b.next[i]? = some n ∧ r.start ≤ n ∧ n ≤ r.stop ∧ n % pageSize = 0
  behind : ∀ h ∈ handed, ∃ (i : ℕ) (r : PhysicalRange) (n : ℕ),
    b.ranges[i]? = some r ∧ b.next[i]? = some n ∧ r.start ≤ h.start ∧ h.stop ≤ n
  apart : handed.Pairwise fun h k ↦ h.stop ≤ k.start ∨ k.stop ≤ h.start
  reserved : ∀ h ∈ handed, ∀ f, h.containsFrame f = true → b.reservations.containsFrame f = true

variable {b : BootstrapFrameAllocator} {handed : List PhysicalRange} {r : PhysicalRange}
  {n stop : ℕ}

theorem tracks_fromBootContext {regions : List MemoryRegion}
    (h : fromBootContext regions = .ok b) : Tracks [] b := by
  rw [fromBootContext] at h
  cases hnormal : normalizedUsableRanges regions with
  | error e => simp [hnormal] at h
  | ok ranges =>
    rw [hnormal] at h
    obtain rfl := Except.ok.inj h
    have hn := normal_of_normalizedUsableRanges hnormal
    refine ⟨hn.whole, hn.sorted, fun i r hr ↦ ?_, by simp, List.Pairwise.nil, by simp⟩
    have hwhole := hn.whole r (List.mem_of_getElem? hr)
    refine ⟨r.start, ?_, le_refl _, hwhole.start_le_stop, hwhole.start_aligned⟩
    dsimp only at hr ⊢
    rw [List.getElem?_map, hr, Option.map_some]

theorem Tracks.skipRange (h : Tracks handed b) : Tracks handed b.skipRange :=
  ⟨h.whole, h.sorted, h.cursor, h.behind, h.apart, h.reserved⟩

/-- **The cursor moves on.** -/
theorem Tracks.advance (h : Tracks handed b) (hr : b.ranges[b.currentRange]? = some r)
    (hn : b.next[b.currentRange]? = some n) (hle : n ≤ stop) (hstop : stop ≤ r.stop)
    (haligned : stop % pageSize = 0) : Tracks handed (b.advance stop) where
  whole := h.whole
  sorted := h.sorted
  cursor i s hs := by
    obtain ⟨m, hm, hlo, hhi, hmod⟩ := h.cursor i s hs
    rw [BootstrapFrameAllocator.advance]
    dsimp only
    rw [List.getElem?_set]
    by_cases heq : b.currentRange = i
    · subst heq
      obtain rfl := Option.mem_unique hr hs
      obtain rfl := Option.mem_unique hn hm
      rw [if_pos rfl, if_pos (List.getElem?_eq_some_iff.mp hn).1]
      exact ⟨stop, rfl, hlo.trans hle, hstop, haligned⟩
    · rw [if_neg heq]
      exact ⟨m, hm, hlo, hhi, hmod⟩
  behind k hk := by
    obtain ⟨i, s, m, hs, hm, hlo, hhi⟩ := h.behind k hk
    rw [BootstrapFrameAllocator.advance]
    by_cases heq : b.currentRange = i
    · subst heq
      obtain rfl := Option.mem_unique hn hm
      refine ⟨b.currentRange, s, stop, hs, ?_, hlo, hhi.trans hle⟩
      dsimp only
      rw [List.getElem?_set, if_pos rfl, if_pos (List.getElem?_eq_some_iff.mp hn).1]
    · refine ⟨i, s, m, hs, ?_, hlo, hhi⟩
      dsimp only
      rw [List.getElem?_set, if_neg heq]
      exact hm
  apart := h.apart
  reserved := h.reserved

/-- What lies between the cursor and the end of its range is apart from all that was handed out. -/
theorem Tracks.apart_of_cursor (h : Tracks handed b) (hr : b.ranges[i]? = some r)
    (hn : b.next[i]? = some n) (hstop : stop ≤ r.stop) {k : PhysicalRange} (hk : k ∈ handed) :
    stop ≤ k.start ∨ k.stop ≤ n := by
  obtain ⟨j, s, m, hs, hm, hlo, hhi⟩ := h.behind k hk
  obtain ⟨m', hm', -, hend, -⟩ := h.cursor j s hs
  obtain rfl := Option.mem_unique hm hm'
  obtain ⟨n', hn', hbegin, -, -⟩ := h.cursor i r hr
  obtain rfl := Option.mem_unique hn hn'
  obtain ⟨hi, rfl⟩ := List.getElem?_eq_some_iff.mp hr
  obtain ⟨hj, rfl⟩ := List.getElem?_eq_some_iff.mp hs
  rcases Nat.lt_trichotomy i j with hlt | rfl | hgt
  · have hbefore := List.pairwise_iff_getElem.mp h.sorted i j hi hj hlt
    omega
  · obtain rfl := Option.mem_unique hn hm
    exact .inr hhi
  · have hbefore := List.pairwise_iff_getElem.mp h.sorted j i hj hi hgt
    omega

/-- What an answer hands out. -/
def granted {α : Type} (range : α → PhysicalRange) :
    Except PhysicalAllocatorError (Option α) → List PhysicalRange
  | .ok (some grant) => [range grant]
  | .ok none => []
  | .error _ => []

def frameRange (frame : ℕ) : PhysicalRange := ⟨frame, frame + pageSize⟩

/-- **What the cursor moved past is handed out**, if it was entered in the reservations. -/
theorem Tracks.record (h : Tracks handed b) (hr : b.ranges[b.currentRange]? = some r)
    (hn : b.next[b.currentRange]? = some n) (hle : n ≤ stop) (hstop : stop ≤ r.stop)
    (haligned : stop % pageSize = 0) {α : Type} (range : α → PhysicalRange) (grant : α)
    (hgrant : range grant = ⟨n, stop⟩) {result : Except PhysicalAllocatorError BootReservations}
    (hresult : ∀ reservations, result = .ok reservations →
      b.reservations.reserveRange ⟨n, stop⟩ = .ok reservations) :
    Tracks (granted range ((b.advance stop).record grant result).1 ++ handed)
      ((b.advance stop).record grant result).2 := by
  have hadvance := h.advance hr hn hle hstop haligned
  cases result with
  | error e => exact hadvance
  | ok reservations =>
    have hcovers := fun f ↦
      BootReservations.containsFrame_reserveRange (f := f) (hresult reservations rfl)
    have hnew : (b.advance stop).next[b.currentRange]? = some stop := by
      rw [BootstrapFrameAllocator.advance]
      dsimp only
      rw [List.getElem?_set, if_pos rfl, if_pos (List.getElem?_eq_some_iff.mp hn).1]
    obtain ⟨n', hn', hbegin, -, -⟩ := h.cursor _ r hr
    obtain rfl := Option.mem_unique hn hn'
    rw [BootstrapFrameAllocator.record, granted, hgrant]
    refine ⟨hadvance.whole, hadvance.sorted, hadvance.cursor, ?_, ?_, ?_⟩
    · intro k hk
      rcases List.mem_cons.mp hk with rfl | hk
      · exact ⟨b.currentRange, r, stop, hr, hnew, hbegin, le_refl _⟩
      · exact hadvance.behind k hk
    · exact List.pairwise_cons.mpr ⟨fun k hk ↦ h.apart_of_cursor hr hn hstop hk, h.apart⟩
    · intro k hk f hf
      rcases List.mem_cons.mp hk with rfl | hk
      · exact (hcovers f).mpr (Or.inr hf)
      · exact (hcovers f).mpr (Or.inl (h.reserved k hk f hf))

theorem reserveRange_of_reserveFrame {reservations reservations' : BootReservations} {frame : ℕ}
    (h : reservations.reserveFrame frame = .ok reservations') :
    reservations.reserveRange (frameRange frame) = .ok reservations' := by
  rw [BootReservations.reserveFrame] at h
  cases hadd : okOr PhysicalAllocatorError.addressOverflow (checkedAdd 64 frame pageSize) with
  | error e =>
    rw [hadd] at h
    cases h
  | ok stop =>
    rw [hadd] at h
    obtain ⟨-, rfl⟩ := checkedAdd_eq_some.mp (okOr_eq_ok.mp hadd)
    exact h

private theorem Tracks.current (h : Tracks handed b) (hlt : b.currentRange < b.ranges.length) :
    ∃ r n, b.ranges[b.currentRange]? = some r ∧ b.next[b.currentRange]? = some n
      ∧ b.ranges.getD b.currentRange ⟨0, 0⟩ = r ∧ b.next.getD b.currentRange 0 = n
      ∧ r.Whole ∧ n ≤ r.stop ∧ n % pageSize = 0 := by
  have hr := List.getElem?_eq_getElem hlt
  obtain ⟨n, hn, -, hle, haligned⟩ := h.cursor _ _ hr
  refine ⟨_, n, hr, hn, ?_, ?_, h.whole _ (List.getElem_mem hlt), hle, haligned⟩
  · rw [List.getD_eq_getElem?_getD, hr, Option.getD_some]
  · rw [List.getD_eq_getElem?_getD, hn, Option.getD_some]

private theorem left_skipRange {remaining : ℕ}
    (hleft : ∀ k < remaining + 1, b.currentRange + k < b.ranges.length) (k : ℕ)
    (hk : k < remaining) :
    b.skipRange.currentRange + k < b.skipRange.ranges.length := by
  rw [BootstrapFrameAllocator.skipRange, Nat.add_right_comm]
  exact hleft (k + 1) (by omega)

theorem Tracks.allocateLoop (h : Tracks handed b) (remaining : ℕ)
    (hleft : ∀ k < remaining, b.currentRange + k < b.ranges.length) :
    Tracks (granted frameRange (b.allocateLoop remaining).1 ++ handed)
      (b.allocateLoop remaining).2 := by
  induction remaining generalizing b with
  | zero => exact h
  | succ remaining ih =>
    obtain ⟨r, n, hr, hn, hgetr, hgetn, hwhole, hle, haligned⟩ := h.current (hleft 0 (by omega))
    rw [BootstrapFrameAllocator.allocateLoop, hgetr, hgetn]
    by_cases hend : n = r.stop
    · rw [if_pos hend]
      exact ih h.skipRange (left_skipRange hleft)
    · rw [if_neg hend]
      by_cases hbad : 2 ^ 52 ≤ n ∨ n % pageSize ≠ 0
      · rw [frameFromAddress, if_pos hbad]
        exact h
      · rw [frameFromAddress, if_neg hbad]
        dsimp only
        cases hadd : checkedAdd 64 n pageSize with
        | none => exact h
        | some stop =>
          obtain ⟨-, rfl⟩ := checkedAdd_eq_some.mp hadd
          have hstop := hwhole.stop_aligned
          rw [takeFrame]
          refine h.record hr hn (Nat.le_add_right _ _) ?_ ?_ frameRange n rfl
            fun reservations hok ↦ reserveRange_of_reserveFrame hok
          · simp only [pageSize] at haligned hstop ⊢
            omega
          · simp only [pageSize] at haligned ⊢
            omega

theorem Tracks.allocateContiguousLoop (h : Tracks handed b) {byteCount : ℕ}
    (hbytes : byteCount % pageSize = 0) (remaining : ℕ)
    (hleft : ∀ k < remaining, b.currentRange + k < b.ranges.length) :
    Tracks (granted id (b.allocateContiguousLoop byteCount remaining).1 ++ handed)
      (b.allocateContiguousLoop byteCount remaining).2 := by
  induction remaining generalizing b with
  | zero => exact h
  | succ remaining ih =>
    obtain ⟨r, n, hr, hn, hgetr, hgetn, -, -, haligned⟩ := h.current (hleft 0 (by omega))
    rw [BootstrapFrameAllocator.allocateContiguousLoop, hgetr, hgetn]
    cases hadd : checkedAdd 64 n byteCount with
    | none => exact h
    | some stop =>
      obtain ⟨-, rfl⟩ := checkedAdd_eq_some.mp hadd
      dsimp only
      by_cases hshort : r.stop < n + byteCount
      · rw [if_pos hshort]
        exact ih h.skipRange (left_skipRange hleft)
      · rw [if_neg hshort]
        refine h.record hr hn (Nat.le_add_right _ _) (not_lt.mp hshort) ?_ id _ rfl fun _ hok ↦ hok
        rw [Nat.add_mod, haligned, hbytes]
        rfl

/-! ## Runs -/

inductive Op
  | allocate
  | allocateContiguous (frameCount : ℕ)
deriving DecidableEq, Repr

/-- What an operation hands out, and the allocator after it. -/
def perform (b : BootstrapFrameAllocator) : Op → List PhysicalRange × BootstrapFrameAllocator
  | .allocate => (granted frameRange b.allocate.1, b.allocate.2)
  | .allocateContiguous frameCount =>
    (granted id (b.allocateContiguous frameCount).1, (b.allocateContiguous frameCount).2)

/-- All that a run hands out, the last first, and the allocator after it. -/
def performAll (b : BootstrapFrameAllocator) (handed : List PhysicalRange) :
    List Op → List PhysicalRange × BootstrapFrameAllocator
  | [] => (handed, b)
  | op :: ops => (b.perform op).2.performAll ((b.perform op).1 ++ handed) ops

theorem Tracks.perform (h : Tracks handed b) (op : Op) :
    Tracks ((b.perform op).1 ++ handed) (b.perform op).2 := by
  cases op with
  | allocate => exact h.allocateLoop _ fun k hk ↦ by omega
  | allocateContiguous frameCount =>
    rw [BootstrapFrameAllocator.perform, BootstrapFrameAllocator.allocateContiguous]
    by_cases hzero : frameCount = 0
    · rw [if_pos hzero]
      exact h
    rw [if_neg hzero]
    by_cases hbig : 2 ^ 64 ≤ frameCount * pageSize
    · rw [if_pos hbig]
      exact h
    rw [if_neg hbig]
    exact h.allocateContiguousLoop (Nat.mul_mod_left _ _) _ fun k hk ↦ by omega

theorem Tracks.performAll (h : Tracks handed b) (ops : List Op) :
    Tracks (b.performAll handed ops).1 (b.performAll handed ops).2 := by
  induction ops generalizing b handed with
  | nil => exact h
  | cons op ops ih => exact ih (h.perform op)

end BootstrapFrameAllocator

/-! ## Frames that never become free -/

namespace FrameAllocator

variable {a : FrameAllocator}

/-- **A frame that is handed out was free**, and no frame becomes free. -/
theorem Laid.allocate (h : a.Laid) :
    a.allocate.2.Laid ∧ a.allocate.2.free ⊆ a.free ∧ ∀ f, a.allocate.1 = some f → f ∈ a.free := by
  rcases h.allocate_cases with ⟨hnone, -⟩ | ⟨i, f, hi, hunused, hsome⟩
  · rw [hnone]
    exact ⟨h, subset_rfl, by simp⟩
  · rw [hsome]
    refine ⟨h.bits (List.length_set ..), (h.free_markUsed hi).trans_subset Set.sdiff_subset,
      fun g hg ↦ ?_⟩
    rw [frameFromAddress] at hg
    split_ifs at hg
    · cases hg
    · obtain rfl := Option.some.inj hg
      exact mem_free.mpr ⟨i, hi, hunused⟩

theorem Laid.allocateContiguous (h : a.Laid) (n : ℕ) :
    (a.allocateContiguous n).2.Laid ∧ (a.allocateContiguous n).2.free ⊆ a.free
      ∧ ∀ base, (a.allocateContiguous n).1 = some base → ∀ f ∈ run base n, f ∈ a.free := by
  rcases h.allocateContiguous_cases n with
    hnone | ⟨base, bits, hlength, hsome, -, hsubset, hfree⟩
  · rw [hnone]
    exact ⟨h, subset_rfl, by simp⟩
  · rw [hsome]
    refine ⟨h.bits hlength, hfree.trans_subset Set.sdiff_subset, fun base' hbase ↦ ?_⟩
    obtain rfl := Option.some.inj hbase
    exact hsubset

theorem Laid.deallocate (h : a.Laid) (f : ℕ) :
    (a.deallocate f).2.Laid ∧ (a.deallocate f).2.free ⊆ a.free ∪ {f} := by
  rcases a.deallocate_cases f with ⟨-, i, hi, heq⟩ | ⟨-, e, heq⟩
  · rw [heq]
    exact ⟨h.bits (List.length_set ..), (h.free_markFree hi).subset⟩
  · rw [heq]
    exact ⟨h, Set.subset_union_left⟩

theorem Laid.deallocateContiguous (h : a.Laid) (base n : ℕ) :
    (a.deallocateContiguous base n).2.Laid
      ∧ ∀ f ∈ (a.deallocateContiguous base n).2.free, f ∈ a.free ∨ f ∈ run base n := by
  rw [FrameAllocator.deallocateContiguous]
  by_cases hbad : n = 0 ∨ base % pageSize ≠ 0
  · rw [if_pos hbad]
    exact ⟨h, fun f hf ↦ .inl hf⟩
  rw [if_neg hbad]
  obtain ⟨bits, hlength, hbits⟩ := a.deallocateContiguousLoop_bits base n
  refine ⟨hbits ▸ h.bits hlength, fun f hf ↦ ?_⟩
  rcases h.deallocateContiguousLoop_cases base n with ⟨-, -, hfree⟩ | ⟨-, j, hj, -, -, hfree⟩
  · rwa [hfree] at hf
  · rw [hfree] at hf
    refine hf.imp_right fun hrun ↦ ?_
    obtain ⟨k, hk, rfl⟩ := mem_run.mp hrun
    exact mem_run.mpr ⟨k, hk.trans hj, rfl⟩

end FrameAllocator

/-! ## The hand-over -/

namespace FrameLedger

/-- The frames of `kept` are neither free nor out. -/
structure Guards (kept : Set ℕ) (l : FrameLedger) : Prop where
  laid : l.allocator.flat.Laid
  free : ∀ f ∈ kept, f ∉ l.allocator.flat.free
  owned : ∀ f ∈ kept, f ∉ l.owned

variable {kept : Set ℕ} {l : FrameLedger}

/-- An operation hands out frames that were free, and makes those free that are given back. -/
private theorem Guards.exec_of {op : FrameOp} (h : Guards kept l)
    (hop : ∀ f ∈ op.freed, f ∈ l.owned) (hlaid : (l.allocator.perform op).2.flat.Laid)
    (hfree : ∀ f ∈ (l.allocator.perform op).2.flat.free,
      f ∈ l.allocator.flat.free ∨ f ∈ op.freed)
    (hout : ∀ f ∈ (l.allocator.perform op).1, f ∈ l.allocator.flat.free) :
    Guards kept (l.exec op) := by
  refine ⟨hlaid, fun f hf hmem ↦ ?_, fun f hf hmem ↦ ?_⟩
  · rcases hfree f hmem with hmem | hmem
    · exact h.free f hf hmem
    · exact h.owned f hf (hop f hmem)
  · rcases List.mem_append.mp hmem with hmem | hmem
    · exact h.free f hf (hout f hmem)
    · exact h.owned f hf (List.mem_filter.mp hmem).1

theorem Guards.exec (h : Guards kept l) {op : FrameOp} (hop : ∀ f ∈ op.freed, f ∈ l.owned) :
    Guards kept (l.exec op) := by
  cases op with
  | allocate =>
    obtain ⟨hlaid, hfree, hout⟩ := h.laid.allocate
    rw [l.allocator.allocate_flat] at hlaid hfree hout
    exact h.exec_of hop hlaid (fun f hf ↦ .inl (hfree hf))
      fun f hf ↦ hout f (Option.mem_toList.mp hf)
  | allocateContiguous n =>
    obtain ⟨hlaid, hfree, hout⟩ := h.laid.allocateContiguous n
    rw [l.allocator.allocateContiguous_flat h.laid] at hlaid hfree hout
    refine h.exec_of hop hlaid (fun f hf ↦ .inl (hfree hf)) fun f hf ↦ ?_
    rw [SegmentedBitmapFrameAllocator.perform] at hf
    cases hanswer : (l.allocator.allocateContiguous n).1 with
    | none => simp [hanswer] at hf
    | some base =>
      rw [hanswer] at hf
      exact hout base hanswer f hf
  | deallocate frame =>
    obtain ⟨hlaid, hfree⟩ := h.laid.deallocate frame
    rw [l.allocator.deallocate_flat] at hlaid hfree
    refine h.exec_of hop hlaid (fun f hf ↦ ?_) fun f hf ↦ by cases hf
    rcases hfree hf with hf | hf
    · exact .inl hf
    · exact .inr (List.mem_singleton.mpr hf)
  | deallocateContiguous base n =>
    obtain ⟨hlaid, hfree⟩ := h.laid.deallocateContiguous base n
    rw [l.allocator.deallocateContiguous_flat] at hlaid hfree
    exact h.exec_of hop hlaid hfree fun f hf ↦ by cases hf

end FrameLedger

namespace BootstrapFrameAllocator

/-- **The hand-over keeps early frames.** Whatever the memory map and the order of the early
allocations, the frames and ranges they hand out are pairwise disjoint; and no run of the bitmap
allocator that was built from their reservations, in which only frames that are out are given back,
ever has one of them out. -/
theorem early_frames_are_kept (regions : List MemoryRegion) (b : BootstrapFrameAllocator)
    (hboot : fromBootContext regions = .ok b) (early : List Op) (bitmap : List (BitVec 64))
    (s : SegmentedBitmapFrameAllocator)
    (hnew : SegmentedBitmapFrameAllocator.new regions (b.performAll [] early).2.reservations bitmap
      = .ok s)
    (ops : List FrameOp) (hops : FrameLedger.FreesOwned ⟨s, []⟩ ops) :
    let handed := (b.performAll [] early).1
    handed.Pairwise (fun r r' ↦ r.stop ≤ r'.start ∨ r'.stop ≤ r.start)
      ∧ ∀ r ∈ handed, ∀ f, r.containsFrame f = true →
          f ∉ (FrameLedger.execAll ⟨s, []⟩ ops).owned := by
  intro handed
  have htracks := (tracks_fromBootContext hboot).performAll early
  have hbuilt := SegmentedBitmapFrameAllocator.built_of_new hnew
  refine ⟨htracks.apart, fun r hr f hf ↦ ?_⟩
  have hstart : FrameLedger.Guards {f | ∃ r ∈ handed, r.containsFrame f = true} ⟨s, []⟩ := by
    refine ⟨hbuilt.laid, ?_, by simp⟩
    rintro f ⟨r, hr, hf⟩ hfree
    have hnot := ((hbuilt.free f).mp hfree).2
    rw [htracks.reserved r hr f hf] at hnot
    cases hnot
  have hend := FrameLedger.execAll_induction hstart hops fun hl hop ↦ hl.exec hop
  exact hend.owned f ⟨r, hr, hf⟩

/-- The allocator of the small map, and four early allocations that leave one frame of the first
range over. -/
def smallBootstrap : BootstrapFrameAllocator :=
  ⟨[⟨0x1000, 0x6000⟩, ⟨0x10000, 0x13000⟩], [0x1000, 0x10000], 0, .new⟩

def earlyOps : List Op := [.allocate, .allocateContiguous 3, .allocateContiguous 2, .allocate]

theorem early_frames_of_smallMap :
    let s : SegmentedBitmapFrameAllocator :=
      ⟨[0xffffffffffffffef#64], [⟨⟨0x1000, 0x6000⟩, 0⟩, ⟨⟨0x10000, 0x13000⟩, 5⟩], 8⟩
    (FrameLedger.execAll ⟨s, []⟩ [.allocate, .allocate]).owned = [0x5000]
      ∧ ∀ r ∈ (smallBootstrap.performAll [] earlyOps).1, ∀ f, r.containsFrame f = true →
          f ∉ (FrameLedger.execAll ⟨s, []⟩ [.allocate, .allocate]).owned :=
  ⟨by decide +kernel,
    (early_frames_are_kept FrameLedger.smallMap smallBootstrap (by decide +kernel) earlyOps [0#64] _
      (by decide +kernel) [.allocate, .allocate] ⟨by decide, by decide, trivial⟩).2⟩

end BootstrapFrameAllocator

end Gaxera

import Gaxera.Kernel.Segmented

/-!
# Tearing down page tables

`destroy_user_pml4` walks the lower half of a page table in three nested loops and hands the frames
of the tables back, each after the tables below it. Here an entry of a table is what the accessors
of the paging library say of it: it is present or not, points to a table or to a large page, and has
an address.

The walk is first read as a list of frames, in the order in which they are handed back. The list is
then compared with the tables that can be reached from the lower half of the root, which is a matter
of entries only. What is reached through other entries is not in the list: the pages at the bottom,
large pages, and what hangs below the upper half.
-/

namespace Gaxera

/-- An entry as the accessors read it. They only give addresses of whole pages. -/
structure PageTableEntry where
  isPresent : Bool
  isHuge : Bool
  addr : ℕ
  addr_aligned : addr % pageSize = 0

/-- What the loops below the root descend into. -/
def PageTableEntry.isTable (entry : PageTableEntry) : Bool := entry.isPresent && !entry.isHuge

/-- The entries of the tables, by the address of the table and the index of the entry. -/
abbrev TableMemory := ℕ → ℕ → PageTableEntry

open PageTableEntry

namespace SegmentedBitmapFrameAllocator

/-- `PhysFrame::from_start_address`, and `deallocate` with its error ignored. -/
def release (s : SegmentedBitmapFrameAllocator) (address : ℕ) : SegmentedBitmapFrameAllocator :=
  if address % pageSize = 0 then (s.deallocate address).2 else s

end SegmentedBitmapFrameAllocator

section Walk

variable (memory : TableMemory)

/-- One of the loops: the first `count` entries of a table, and what is done at those that are
descended into. -/
def walkTable {σ : Type} (table count : ℕ) (descends : PageTableEntry → Bool)
    (visit : σ → ℕ → σ) (s : σ) : σ :=
  (List.range count).foldl
    (fun s i ↦ if descends (memory table i) then visit s (addr (memory table i)) else s) s

def destroyPml2 (s : SegmentedBitmapFrameAllocator) (table : ℕ) : SegmentedBitmapFrameAllocator :=
  (walkTable memory table 512 isTable SegmentedBitmapFrameAllocator.release s).release table

def destroyPml3 (s : SegmentedBitmapFrameAllocator) (table : ℕ) : SegmentedBitmapFrameAllocator :=
  (walkTable memory table 512 isTable (destroyPml2 memory) s).release table

def destroyUserPml4 (s : SegmentedBitmapFrameAllocator) (root : ℕ) :
    SegmentedBitmapFrameAllocator :=
  (walkTable memory root 256 isPresent (destroyPml3 memory) s).release root

/-! ## The frames in their order -/

/-- The tables the first `count` entries of a table lead to. -/
def below (table count : ℕ) (descends : PageTableEntry → Bool) : List ℕ :=
  (((List.range count).map (memory table)).filter descends).map addr

def pml2Tables (table : ℕ) : List ℕ := below memory table 512 isTable ++ [table]

def pml3Tables (table : ℕ) : List ℕ :=
  (below memory table 512 isTable).flatMap (pml2Tables memory) ++ [table]

/-- The tables of the lower half, place by place, and the root. -/
def userTables (root : ℕ) : List ℕ :=
  (below memory root 256 isPresent).flatMap (pml3Tables memory) ++ [root]

variable {memory}

theorem walkTable_eq_foldl {σ : Type} (table count : ℕ) (descends : PageTableEntry → Bool)
    (visit : σ → ℕ → σ) (s : σ) :
    walkTable memory table count descends visit s
      = (below memory table count descends).foldl visit s := by
  rw [walkTable, below, List.foldl_map, List.foldl_filter, List.foldl_map]

/-- A loop whose body hands back a list of frames hands back all of them. -/
theorem foldl_flatMap_release {visit : SegmentedBitmapFrameAllocator → ℕ → _} {frames : ℕ → List ℕ}
    (hvisit : ∀ s table, visit s table = (frames table).foldl .release s) (tables : List ℕ)
    (s : SegmentedBitmapFrameAllocator) :
    tables.foldl visit s = (tables.flatMap frames).foldl .release s := by
  induction tables generalizing s with
  | nil => rfl
  | cons table tables ih => rw [List.foldl_cons, hvisit, ih, List.flatMap_cons, List.foldl_append]

theorem destroyPml2_eq (s : SegmentedBitmapFrameAllocator) (table : ℕ) :
    destroyPml2 memory s table = (pml2Tables memory table).foldl .release s := by
  rw [destroyPml2, walkTable_eq_foldl, pml2Tables, List.foldl_append]
  rfl

theorem destroyPml3_eq (s : SegmentedBitmapFrameAllocator) (table : ℕ) :
    destroyPml3 memory s table = (pml3Tables memory table).foldl .release s := by
  rw [destroyPml3, walkTable_eq_foldl, foldl_flatMap_release destroyPml2_eq, pml3Tables,
    List.foldl_append]
  rfl

theorem destroyUserPml4_eq (s : SegmentedBitmapFrameAllocator) (root : ℕ) :
    destroyUserPml4 memory s root = (userTables memory root).foldl .release s := by
  rw [destroyUserPml4, walkTable_eq_foldl, foldl_flatMap_release destroyPml3_eq, userTables,
    List.foldl_append]
  rfl

/-! ## Reachable tables -/

/-- The tables of each level that the lower half of the root leads to. -/
inductive UserTable (memory : TableMemory) (root : ℕ) : ℕ → ℕ → Prop
  | pml4 : UserTable memory root 4 root
  | pml3 {i : ℕ} (hi : i < 256) (hentry : isPresent (memory root i) = true) :
      UserTable memory root 3 (addr (memory root i))
  | pml2 {table j : ℕ} (htable : UserTable memory root 3 table) (hj : j < 512)
      (hentry : isTable (memory table j) = true) : UserTable memory root 2 (addr (memory table j))
  | pml1 {table k : ℕ} (htable : UserTable memory root 2 table) (hk : k < 512)
      (hentry : isTable (memory table k) = true) : UserTable memory root 1 (addr (memory table k))

theorem mem_below {table count frame : ℕ} {descends : PageTableEntry → Bool} :
    frame ∈ below memory table count descends
      ↔ ∃ i < count, descends (memory table i) = true ∧ addr (memory table i) = frame := by
  simp only [below, List.mem_map, List.mem_filter, List.mem_range]
  constructor
  · rintro ⟨-, ⟨⟨i, hi, rfl⟩, hentry⟩, rfl⟩
    exact ⟨i, hi, hentry, rfl⟩
  · rintro ⟨i, hi, hentry, rfl⟩
    exact ⟨_, ⟨⟨i, hi, rfl⟩, hentry⟩, rfl⟩

theorem mem_below_root {root frame : ℕ} :
    frame ∈ below memory root 256 isPresent ↔ UserTable memory root 3 frame := by
  rw [mem_below]
  constructor
  · rintro ⟨i, hi, hentry, rfl⟩
    exact .pml3 hi hentry
  · intro htable
    cases htable with
    | pml3 hi hentry => exact ⟨_, hi, hentry, rfl⟩

/-- **The list is what can be reached.** -/
theorem mem_userTables {root frame : ℕ} :
    frame ∈ userTables memory root ↔ ∃ level, UserTable memory root level frame := by
  simp only [userTables, pml3Tables, pml2Tables, List.mem_append, List.mem_flatMap,
    List.mem_singleton, mem_below_root]
  constructor
  · rintro (⟨pml3, hpml3, ⟨pml2, hpml2, hpml1 | rfl⟩ | rfl⟩ | rfl)
    · obtain ⟨j, hj, hentry, rfl⟩ := mem_below.mp hpml2
      obtain ⟨k, hk, hleaf, rfl⟩ := mem_below.mp hpml1
      exact ⟨1, .pml1 (.pml2 hpml3 hj hentry) hk hleaf⟩
    · obtain ⟨j, hj, hentry, rfl⟩ := mem_below.mp hpml2
      exact ⟨2, .pml2 hpml3 hj hentry⟩
    · exact ⟨3, hpml3⟩
    · exact ⟨4, .pml4⟩
  · have hsecond : ∀ table, UserTable memory root 2 table →
        ∃ pml3, UserTable memory root 3 pml3 ∧ table ∈ below memory pml3 512 isTable := by
      intro table htable
      cases htable with
      | pml2 hpml3 hj hentry => exact ⟨_, hpml3, mem_below.mpr ⟨_, hj, hentry, rfl⟩⟩
    rintro ⟨level, htable⟩
    rcases htable with _ | ⟨hi, hentry⟩ | ⟨hpml3, hj, hentry⟩ | ⟨hpml2, hk, hentry⟩
    · exact .inr rfl
    · exact .inl ⟨_, .pml3 hi hentry, .inr rfl⟩
    · exact .inl ⟨_, hpml3, .inl ⟨_, mem_below.mpr ⟨_, hj, hentry, rfl⟩, .inr rfl⟩⟩
    · obtain ⟨pml3, hpml3, hmem⟩ := hsecond _ hpml2
      exact .inl ⟨pml3, hpml3, .inl ⟨_, hmem, .inl (mem_below.mpr ⟨_, hk, hentry, rfl⟩)⟩⟩

end Walk

/-! ## What is free afterwards -/

namespace SegmentedBitmapFrameAllocator

open FrameAllocator

/-- Frames that are out are free once they are handed back, and no others. -/
theorem foldl_release {s : SegmentedBitmapFrameAllocator} {frames : List ℕ} (h : s.flat.Laid)
    (haligned : ∀ f ∈ frames, f % pageSize = 0) (hout : ∀ f ∈ frames, f ∈ s.flat.out)
    (hnodup : frames.Nodup) :
    (frames.foldl release s).flat.free = s.flat.free ∪ {f | f ∈ frames} := by
  induction frames generalizing s with
  | nil => simp
  | cons f frames ih =>
    obtain ⟨hfresh, hnodup⟩ := List.nodup_cons.mp hnodup
    obtain ⟨hf, haligned⟩ := List.forall_mem_cons.mp haligned
    obtain ⟨hfout, hout⟩ := List.forall_mem_cons.mp hout
    rcases s.flat.deallocate_cases f with ⟨-, i, hi, heq⟩ | ⟨hnot, -⟩
    swap
    · exact absurd hfout hnot
    have hfree := h.free_markFree hi
    have hrelease : (s.release f).flat = s.flat.markFree i := by
      rw [deallocate_flat] at heq
      rw [release, if_pos hf]
      exact congrArg Prod.snd heq
    have hlaid : (s.release f).flat.Laid := hrelease ▸ h.bits (List.length_set ..)
    rw [List.foldl_cons, ih hlaid haligned _ hnodup, hrelease, hfree]
    · ext g
      simp only [Set.mem_union, Set.mem_singleton_iff, Set.mem_ofPred_eq, List.mem_cons, or_assoc]
    · intro g hg
      have hne : g ≠ f := fun heq ↦ hfresh (heq ▸ hg)
      rw [hrelease, out, hfree]
      exact ⟨(hout g hg).1, fun hmem ↦ hmem.elim (hout g hg).2 hne⟩

theorem userTables_aligned {memory : TableMemory} {root : ℕ} (hroot : root % pageSize = 0) :
    ∀ frame ∈ userTables memory root, frame % pageSize = 0 := by
  intro frame hframe
  obtain ⟨level, htable⟩ := mem_userTables.mp hframe
  cases htable with
  | pml4 => exact hroot
  | pml3 | pml2 | pml1 => exact addr_aligned _

/-- **The teardown frees the user half**, for every page table in which no two places of the lower
half have one table. The frames it hands to the allocator, one after the other and each once, are
the tables that the lower half of the root leads to, and the root. If they were out they are free
afterwards, and every other frame is as it was: pages, large pages, and what only the upper half
leads to. -/
theorem destroyUserPml4_frees_user_half (memory : TableMemory) (root : ℕ)
    (s : SegmentedBitmapFrameAllocator) (hroot : root % pageSize = 0)
    (hdistinct : (userTables memory root).Nodup) :
    destroyUserPml4 memory s root
        = (userTables memory root).foldl (fun s frame ↦ (s.deallocate frame).2) s
      ∧ (∀ frame, (userTables memory root).count frame ≤ 1
        ∧ (frame ∈ userTables memory root ↔ ∃ level, UserTable memory root level frame))
      ∧ (s.flat.Laid → (∀ frame ∈ userTables memory root, frame ∈ s.flat.out) →
        (destroyUserPml4 memory s root).flat.free
          = s.flat.free ∪ {frame | ∃ level, UserTable memory root level frame}) := by
  have haligned : ∀ frame ∈ userTables memory root, frame % pageSize = 0 :=
    userTables_aligned hroot
  refine ⟨?_, fun frame ↦ ⟨List.nodup_iff_count_le_one.mp hdistinct frame, mem_userTables⟩, ?_⟩
  · rw [destroyUserPml4_eq]
    refine List.foldl_ext _ _ s fun s frame hframe ↦ ?_
    rw [release, if_pos (haligned frame hframe)]
  · intro hlaid hout
    rw [destroyUserPml4_eq, foldl_release hlaid haligned hout hdistinct]
    simp only [mem_userTables]

/-- A table of each level with one entry in use, and one in the upper half of the root. -/
def sampleTables : TableMemory
  | 0x1000, 0 => ⟨true, false, 0x2000, by decide⟩
  | 0x1000, 256 => ⟨true, false, 0x5000, by decide⟩
  | 0x2000, 1 => ⟨true, false, 0x3000, by decide⟩
  | 0x2000, 2 => ⟨true, true, 0x40000000, by decide⟩
  | 0x3000, 511 => ⟨true, false, 0x4000, by decide⟩
  | 0x4000, 3 => ⟨true, false, 0x6000, by decide⟩
  | _, _ => ⟨false, false, 0, by decide⟩

/-- Six frames, all of them out. -/
def sixFrames : SegmentedBitmapFrameAllocator where
  bitmap := [0xFFFFFFFFFFFFFFFF]
  ranges := [⟨⟨0x1000, 0x7000⟩, 0⟩]
  frameCount := 6

theorem destroyUserPml4_frees_sampleTables :
    userTables sampleTables 0x1000 = [0x4000, 0x3000, 0x2000, 0x1000]
      ∧ (destroyUserPml4 sampleTables sixFrames 0x1000).flat.free
        = sixFrames.flat.free ∪ {frame | ∃ level, UserTable sampleTables 0x1000 level frame} :=
  have htables : userTables sampleTables 0x1000 = [0x4000, 0x3000, 0x2000, 0x1000] := by
    decide +kernel
  have hlaid : sixFrames.flat.Laid :=
    ⟨by decide, ⟨rfl, rfl⟩, fun r hr ↦ by
      obtain rfl := List.mem_singleton.mp hr
      exact ⟨by decide, by decide, by decide, by decide⟩, List.pairwise_singleton ..⟩
  have hout : ∀ frame ∈ [0x4000, 0x3000, 0x2000, 0x1000], frame ∈ sixFrames.flat.out := by
    intro frame hframe
    have hused : sixFrames.flat.isFree frame = false
        ∧ ∃ i, sixFrames.flat.frameIndex frame = .ok i := by
      simp only [List.mem_cons, List.not_mem_nil, or_false] at hframe
      rcases hframe with rfl | rfl | rfl | rfl <;> exact ⟨by decide, _, rfl⟩
    exact ⟨hused.2, fun hfree ↦ absurd (hused.1.symm.trans hfree) Bool.false_ne_true⟩
  ⟨htables, (destroyUserPml4_frees_user_half sampleTables 0x1000 sixFrames (by decide)
    (htables ▸ by decide)).2.2 hlaid (htables ▸ hout)⟩

end SegmentedBitmapFrameAllocator

end Gaxera

import Gaxera.Core.Resource
import Mathlib.Data.Finset.Card
import Mathlib.Data.Finset.Range
import Mathlib.Logic.Function.Basic

/-!
# The user heap

The heap is a table of 1024 blocks, each a range of addresses that is free or handed out. A request
is cut out of the first free block that can hold it, aligned; what is left before and behind becomes
blocks of its own, if there are entries for them in the table. Free neighbours are joined only when
nothing fits, and then the heap grows by chunks of 64 KiB, one behind the other.

Everything an operation does to the table is one of three things: a block is replaced by a part of
itself, an entry that was not in use takes a range nobody has, and two neighbours become one. So
active blocks stay apart, and blocks that are handed out stay as they are (`Steps`). What the table
loses when it is full are only free bytes.
-/

namespace Gaxera

open Function

def chunkSize : ℕ := 64 * 1024
@[irreducible] def maxBlocks : ℕ := 1024
def heapStartVaddr : ℕ := 0x600000000000
def heapEndVaddr : ℕ := 0x7C0000000000

structure BlockMeta where
  active : Bool
  vaddr : ℕ
  size : ℕ
  isFree : Bool
deriving DecidableEq

def BlockMeta.empty : BlockMeta := ⟨false, 0, 0, false⟩

/-- The table by index. The handles of the chunks are kept for a later teardown only. -/
structure HeapArena where
  blocks : ℕ → BlockMeta
  chunkCount : ℕ
  nextVaddr : ℕ
  initialized : Bool

/-- A size, and an alignment that is a power of two. -/
structure Layout where
  size : ℕ
  align : ℕ
  align_eq : ∃ k, align = 2 ^ k

theorem Layout.align_pos (layout : Layout) : 0 < layout.align := by
  obtain ⟨k, hk⟩ := layout.align_eq
  exact hk ▸ Nat.two_pow_pos k

/-- What has to be skipped to reach an aligned address. -/
def adjustment (vaddr align : ℕ) : ℕ :=
  if vaddr % align = 0 then 0 else align - vaddr % align

theorem add_adjustment_mod {vaddr align : ℕ} (halign : 0 < align) :
    (vaddr + adjustment vaddr align) % align = 0 := by
  rw [adjustment]
  split_ifs with h
  · exact h
  · have hlt := Nat.mod_lt vaddr halign
    have hsum : vaddr + (align - vaddr % align) = align * (vaddr / align + 1) := by
      have := Nat.div_add_mod vaddr align
      rw [Nat.mul_add_one]
      omega
    rw [hsum, Nat.mul_mod_right]

namespace HeapArena

def new : HeapArena := ⟨fun _ ↦ .empty, 0, heapStartVaddr, false⟩

def init (h : HeapArena) : HeapArena := { h with initialized := true }

/-! ## The table -/

abbrev Blocks := ℕ → BlockMeta

def Fits (size align : ℕ) (b : BlockMeta) : Bool :=
  b.active && b.isFree && decide (size ≤ b.size) &&
    (checkedAdd 64 size (adjustment b.vaddr align)).any fun required ↦ decide (required ≤ b.size)

def findFreeBlock (blocks : Blocks) (size align : ℕ) : Option ℕ :=
  (List.range' 0 maxBlocks).find? fun i ↦ Fits size align (blocks i)

def findInactiveSlot (blocks : Blocks) : Option ℕ :=
  (List.range' 0 maxBlocks).find? fun i ↦ !(blocks i).active

/-- A range becomes a free block, if it is not empty and there is an entry for it. -/
def addFree (blocks : Blocks) (vaddr size : ℕ) : Blocks :=
  match findInactiveSlot blocks with
  | some k => if 0 < size then update blocks k ⟨true, vaddr, size, true⟩ else blocks
  | none => blocks

/-- The block is taken from `skip` bytes behind its start on, and what is before and behind becomes
free blocks. -/
def cut (blocks : Blocks) (idx skip size : ℕ) : Blocks :=
  let b := blocks idx
  let blocks := update blocks idx ⟨b.active, b.vaddr + skip, size, false⟩
  let blocks := addFree blocks b.vaddr skip
  addFree blocks (b.vaddr + skip + size) (b.size - size - skip)

def splitAndAllocate (h : HeapArena) (idx size align : ℕ) : ℕ × HeapArena :=
  let b := h.blocks idx
  let skip := adjustment b.vaddr align
  (b.vaddr + skip, { h with blocks := cut h.blocks idx skip size })

def activeCount (blocks : Blocks) : ℕ :=
  ((Finset.range maxBlocks).filter fun i ↦ (blocks i).active).card

/-- The inner loop body of `coalesce`: block `j` is joined to block `i`, which ended at `endVaddr`
when its turn began. -/
def mergeAt (i endVaddr : ℕ) (state : Blocks × Bool) (j : ℕ) : Blocks × Bool :=
  let (blocks, changed) := state
  if i ≠ j ∧ (blocks j).active ∧ (blocks j).isFree ∧ (blocks j).vaddr = endVaddr then
    let joined := { blocks i with size := (blocks i).size + (blocks j).size }
    (update (update blocks i joined) j { blocks j with active := false }, true)
  else (blocks, changed)

/-- The outer loop body. -/
def coalesceAt (state : Blocks × Bool) (i : ℕ) : Blocks × Bool :=
  if ¬(state.1 i).active ∨ ¬(state.1 i).isFree then state
  else match checkedAdd 64 (state.1 i).vaddr (state.1 i).size with
    | none => state
    | some endVaddr => (List.range' 0 maxBlocks).foldl (mergeAt i endVaddr) state

/-- What a pass over the table does to its active entries: nothing, or there are fewer. -/
def Shrinks (state state' : Blocks × Bool) : Prop :=
  state' = state ∨ activeCount state'.1 < activeCount state.1

theorem Shrinks.foldl {f : Blocks × Bool → ℕ → Blocks × Bool} {l : List ℕ}
    (hf : ∀ state, ∀ i ∈ l, Shrinks state (f state i)) (state : Blocks × Bool) :
    Shrinks state (l.foldl f state) := by
  induction l generalizing state with
  | nil => exact .inl rfl
  | cons i l ih =>
    have hl := ih (fun state j hj ↦ hf state j (.tail i hj)) (f state i)
    rcases hf state i (.head l) with heq | hlt
    · rw [heq] at hl
      rwa [List.foldl_cons, heq]
    · rcases hl with heq | hlt'
      · exact .inr (by rwa [List.foldl_cons, heq])
      · exact .inr (Nat.lt_trans hlt' hlt)

theorem mergeAt_shrinks (i endVaddr : ℕ) (state : Blocks × Bool) {j : ℕ} (hj : j < maxBlocks) :
    Shrinks state (mergeAt i endVaddr state j) := by
  obtain ⟨blocks, changed⟩ := state
  rw [mergeAt]
  split_ifs with hmerge
  · obtain ⟨-, hactive, -, -⟩ := hmerge
    refine .inr (Finset.card_lt_card ?_)
    dsimp only
    rw [Finset.ssubset_iff_of_subset]
    · refine ⟨j, Finset.mem_filter.mpr ⟨Finset.mem_range.mpr hj, hactive⟩, fun hmem ↦ ?_⟩
      have hstill := (Finset.mem_filter.mp hmem).2
      rw [update_self] at hstill
      cases hstill
    · intro k hk
      obtain ⟨hrange, hkactive⟩ := Finset.mem_filter.mp hk
      refine Finset.mem_filter.mpr ⟨hrange, ?_⟩
      by_cases hkj : k = j
      · rwa [hkj]
      · rw [update_of_ne hkj] at hkactive
        by_cases hki : k = i
        · subst hki
          rwa [update_self] at hkactive
        · rwa [update_of_ne hki] at hkactive
  · exact .inl rfl

theorem coalesceAt_shrinks (state : Blocks × Bool) (i : ℕ) :
    Shrinks state (coalesceAt state i) := by
  rw [coalesceAt]
  split_ifs
  · exact .inl rfl
  rcases checkedAdd 64 (state.1 i).vaddr (state.1 i).size with - | endVaddr
  · exact .inl rfl
  · refine Shrinks.foldl (fun state j hj ↦ mergeAt_shrinks i endVaddr state ?_) state
    simpa using hj

/-- One round of the `while` loop. -/
def coalesceRound (blocks : Blocks) : Blocks × Bool :=
  (List.range' 0 maxBlocks).foldl coalesceAt (blocks, false)

theorem activeCount_coalesceRound_lt {blocks : Blocks} (hchanged : (coalesceRound blocks).2) :
    activeCount (coalesceRound blocks).1 < activeCount blocks := by
  have hround : Shrinks (blocks, false) (coalesceRound blocks) :=
    Shrinks.foldl (fun state i _ ↦ coalesceAt_shrinks state i) _
  refine hround.resolve_left fun hsame ↦ ?_
  rw [hsame] at hchanged
  cases hchanged

/-- The `while` loop: a round that changes something leaves fewer active entries. -/
def coalesce (blocks : Blocks) : Blocks :=
  if (coalesceRound blocks).2 then coalesce (coalesceRound blocks).1 else (coalesceRound blocks).1
termination_by activeCount blocks
decreasing_by exact activeCount_coalesceRound_lt ‹_›

/-- `grow_heap`, with what becomes of its system calls: the chunk is mapped or it is not. -/
def growHeap (h : HeapArena) (mapped : Bool) : Bool × HeapArena :=
  if 64 ≤ h.chunkCount ∨ heapEndVaddr ≤ h.nextVaddr ∨ heapEndVaddr - h.nextVaddr < chunkSize then
    (false, h)
  else if !mapped then (false, h)
  else match findInactiveSlot h.blocks with
    | none => (false, h)
    | some idx => (true, { h with
        blocks := coalesce (update h.blocks idx ⟨true, h.nextVaddr, chunkSize, true⟩)
        chunkCount := h.chunkCount + 1
        nextVaddr := h.nextVaddr + chunkSize })

theorem growHeap_grows {h h' : HeapArena} {mapped : Bool} (hgrow : h.growHeap mapped = (true, h')) :
    64 - h'.chunkCount < 64 - h.chunkCount := by
  rw [growHeap] at hgrow
  split_ifs at hgrow with hfull
  · cases congrArg Prod.fst hgrow
  · cases congrArg Prod.fst hgrow
  rcases hslot : findInactiveSlot h.blocks with - | idx <;> rw [hslot] at hgrow
  · cases congrArg Prod.fst hgrow
  · have hcount : h'.chunkCount = h.chunkCount + 1 := (congrArg (·.2.chunkCount) hgrow).symm
    omega

/-- The growing loop: every round adds one of the 64 chunks. Which of them can be mapped is given by
their index. -/
def growLoop (size align : ℕ) (mapped : ℕ → Bool) (h : HeapArena) : ℕ × HeapArena :=
  match _hgrow : h.growHeap (mapped h.chunkCount) with
  | (false, h') => (0, h')
  | (true, h') => match findFreeBlock h'.blocks size align with
    | some idx => h'.splitAndAllocate idx size align
    | none => growLoop size align mapped h'
termination_by 64 - h.chunkCount
decreasing_by exact growHeap_grows ‹_›

def allocate (h : HeapArena) (layout : Layout) (mapped : ℕ → Bool) : ℕ × HeapArena :=
  if !h.initialized then (0, h)
  else
    let size := max layout.size layout.align
    match findFreeBlock h.blocks size layout.align with
    | some idx => h.splitAndAllocate idx size layout.align
    | none =>
      let h := { h with blocks := coalesce h.blocks }
      match findFreeBlock h.blocks size layout.align with
      | some idx => h.splitAndAllocate idx size layout.align
      | none => growLoop size layout.align mapped h

def deallocate (h : HeapArena) (ptr : ℕ) : HeapArena :=
  match (List.range' 0 maxBlocks).find? fun i ↦
      (h.blocks i).active && !(h.blocks i).isFree && decide ((h.blocks i).vaddr = ptr) with
  | some i => { h with blocks := update h.blocks i { h.blocks i with isFree := true } }
  | none => h

/-! ## Blocks that stay apart -/

def Apart (b c : BlockMeta) : Prop := b.vaddr + b.size ≤ c.vaddr ∨ c.vaddr + c.size ≤ b.vaddr

/-- A block that lies in the part of the heap below `hi`. -/
def Within (hi : ℕ) (b : BlockMeta) : Prop :=
  0 < b.size ∧ heapStartVaddr ≤ b.vaddr ∧ b.vaddr + b.size ≤ hi

structure Table (hi : ℕ) (blocks : Blocks) : Prop where
  within : ∀ i, (blocks i).active → Within hi (blocks i)
  apart : ∀ i j, i ≠ j → (blocks i).active → (blocks j).active → Apart (blocks i) (blocks j)

/-- A block that is handed out. -/
def Taken (b : BlockMeta) : Prop := b.active ∧ b.isFree = false

/-- **What every operation does**: from one table to another, with the taken blocks as they were. -/
structure Steps (hi : ℕ) (blocks blocks' : Blocks) : Prop where
  table : Table hi blocks'
  taken : ∀ i, Taken (blocks i) → blocks' i = blocks i

variable {hi : ℕ} {blocks blocks' blocks'' : Blocks}

theorem Steps.trans (h : Steps hi blocks blocks') (h' : Steps hi blocks' blocks'') :
    Steps hi blocks blocks'' where
  table := h'.table
  taken i hi := by
    have hsame := h.taken i hi
    rw [h'.taken i (hsame ▸ hi), hsame]

theorem Table.update (h : Table hi blocks) {k : ℕ} {b : BlockMeta}
    (hb : b.active → Within hi b ∧ ∀ j, j ≠ k → (blocks j).active → Apart b (blocks j)) :
    Table hi (update blocks k b) where
  within i hactive := by
    by_cases hik : i = k
    · subst hik
      rw [update_self] at hactive ⊢
      exact (hb hactive).1
    · rw [update_of_ne hik] at hactive ⊢
      exact h.within i hactive
  apart i j hij hactive hactive' := by
    by_cases hik : i = k
    · subst hik
      rw [update_self, update_of_ne hij.symm] at *
      exact (hb hactive).2 j hij.symm hactive'
    · rw [update_of_ne hik] at hactive ⊢
      by_cases hjk : j = k
      · subst hjk
        rw [update_self] at hactive' ⊢
        exact ((hb hactive').2 i hij hactive).symm
      · rw [update_of_ne hjk] at hactive' ⊢
        exact h.apart i j hij hactive hactive'

theorem findInactiveSlot_some {k : ℕ} (h : findInactiveSlot blocks = some k) :
    (blocks k).active = false := by
  simpa using List.find?_some h

theorem addFree_of_active {vaddr size i : ℕ} (hi : (blocks i).active) :
    addFree blocks vaddr size i = blocks i := by
  unfold addFree
  rcases hk : findInactiveSlot blocks with - | k
  · rfl
  · dsimp only
    split_ifs
    · refine update_of_ne (fun hik ↦ ?_) _ _
      rw [hik, findInactiveSlot_some hk] at hi
      cases hi
    · rfl

theorem addFree_cases (blocks : Blocks) (vaddr size i : ℕ) :
    addFree blocks vaddr size i = blocks i ∨
      addFree blocks vaddr size i = ⟨true, vaddr, size, true⟩ ∧ 0 < size := by
  unfold addFree
  rcases findInactiveSlot blocks with - | k
  · exact .inl rfl
  · dsimp only
    split_ifs with hsize
    · by_cases hik : i = k
      · exact .inr ⟨by rw [hik, update_self], hsize⟩
      · exact .inl (update_of_ne hik _ _)
    · exact .inl rfl

theorem Table.addFree (h : Table hi blocks) {vaddr size : ℕ}
    (hnew : 0 < size → Within hi ⟨true, vaddr, size, true⟩ ∧
      ∀ j, (blocks j).active → Apart ⟨true, vaddr, size, true⟩ (blocks j)) :
    Table hi (addFree blocks vaddr size) := by
  unfold HeapArena.addFree
  rcases findInactiveSlot blocks with - | k
  · exact h
  · dsimp only
    split_ifs with hsize
    · exact h.update fun _ ↦ ⟨(hnew hsize).1, fun j _ ↦ (hnew hsize).2 j⟩
    · exact h

/-! ## Cutting out a block -/

theorem Fits.spec {size align : ℕ} {b : BlockMeta} (h : Fits size align b) :
    b.active ∧ b.isFree ∧ size + adjustment b.vaddr align ≤ b.size := by
  simp only [Fits, Bool.and_eq_true, Option.any_eq_true, decide_eq_true_eq] at h
  obtain ⟨⟨⟨hactive, hfree⟩, -⟩, required, hrequired, hle⟩ := h
  obtain ⟨-, rfl⟩ := checkedAdd_eq_some.mp hrequired
  exact ⟨hactive, hfree, hle⟩

theorem findFreeBlock_some {size align idx : ℕ} (h : findFreeBlock blocks size align = some idx) :
    Fits size align (blocks idx) := by
  simpa using List.find?_some h

/-- **A block is cut into three.** The parts are apart from each other, and from all that the block
was apart from. -/
theorem cut_spec (h : Table hi blocks) {idx skip size : ℕ} (hactive : (blocks idx).active)
    (hfree : (blocks idx).isFree) (hsize : 0 < size) (hle : size + skip ≤ (blocks idx).size) :
    Steps hi blocks (cut blocks idx skip size) ∧
      cut blocks idx skip size idx = ⟨true, (blocks idx).vaddr + skip, size, false⟩ := by
  obtain ⟨-, hlow, hhigh⟩ := h.within idx hactive
  have hothers (j : ℕ) (hj : j ≠ idx) (hj' : (blocks j).active) := h.apart idx j hj.symm hactive hj'
  generalize hb : blocks idx = b at *
  obtain ⟨blocks₁, hblocks₁⟩ : ∃ blocks₁, update blocks idx
    ⟨true, b.vaddr + skip, size, false⟩ = blocks₁ := ⟨_, rfl⟩
  have hcut : cut blocks idx skip size = addFree (addFree blocks₁ b.vaddr skip)
      (b.vaddr + skip + size) (b.size - size - skip) := by
    rw [cut, hb, hactive, hblocks₁]
  have hmiddle : blocks₁ idx = ⟨true, b.vaddr + skip, size, false⟩ := by
    rw [← hblocks₁, update_self]
  have hrest (j : ℕ) (hj : j ≠ idx) : blocks₁ j = blocks j := by
    rw [← hblocks₁, update_of_ne hj]
  have h₁ : Table hi blocks₁ := by
    rw [← hblocks₁]
    refine h.update fun _ ↦ ⟨⟨hsize, by dsimp only; omega, by dsimp only; omega⟩, fun j hj hj' ↦ ?_⟩
    have := hothers j hj hj'
    simp only [Apart] at this ⊢
    omega
  -- A part of the block beside the middle one is apart from everything.
  have hpart (vaddr size' : ℕ) (hfrom : b.vaddr ≤ vaddr) (hto : vaddr + size' ≤ b.vaddr + b.size)
      (hbeside : vaddr + size' ≤ b.vaddr + skip ∨ b.vaddr + skip + size ≤ vaddr) (j : ℕ)
      (hj : (blocks₁ j).active) : Apart ⟨true, vaddr, size', true⟩ (blocks₁ j) := by
    by_cases hidx : j = idx
    · rw [hidx, hmiddle, Apart]
      omega
    · rw [hrest j hidx] at hj ⊢
      have := hothers j hidx hj
      simp only [Apart] at this ⊢
      omega
  have h₂ : Table hi (addFree blocks₁ b.vaddr skip) :=
    h₁.addFree fun hpos ↦ ⟨⟨hpos, hlow, by dsimp only; omega⟩,
      hpart b.vaddr skip (Nat.le_refl _) (by omega) (.inl (Nat.le_refl _))⟩
  have h₃ : Table hi (cut blocks idx skip size) := by
    rw [hcut]
    refine h₂.addFree fun hpos ↦ ⟨⟨hpos, by dsimp only; omega, by dsimp only; omega⟩, fun j hj ↦ ?_⟩
    rcases addFree_cases blocks₁ b.vaddr skip j with hsame | ⟨hnew, -⟩
    · rw [hsame] at hj ⊢
      exact hpart _ _ (by omega) (by omega) (.inr (Nat.le_refl _)) j hj
    · rw [hnew]
      simp only [Apart]
      omega
  have hkeep (j : ℕ) (hj : (blocks₁ j).active) : cut blocks idx skip size j = blocks₁ j := by
    rw [hcut, addFree_of_active] <;> rw [addFree_of_active hj]
    exact hj
  refine ⟨⟨h₃, fun j htaken ↦ ?_⟩, by rw [hkeep idx (by rw [hmiddle]), hmiddle]⟩
  have hidx : j ≠ idx := by
    rintro rfl
    rw [hb] at htaken
    rw [htaken.2] at hfree
    cases hfree
  rw [hkeep j (by rw [hrest j hidx]; exact htaken.1), hrest j hidx]

/-! ## Joining neighbours -/

/-- Block `j` becomes a part of block `i`. -/
def join (blocks : Blocks) (i j : ℕ) : Blocks :=
  update (update blocks i
    { blocks i with size := (blocks i).size + (blocks j).size }) j { blocks j with active := false }

/-- Two free neighbours in the table. -/
structure Joinable (hi i j : ℕ) (blocks : Blocks) : Prop where
  table : Table hi blocks
  lt : i < maxBlocks ∧ j < maxBlocks
  ne : i ≠ j
  left : (blocks i).active ∧ (blocks i).isFree
  right : (blocks j).active ∧ (blocks j).isFree
  ends : (blocks i).vaddr + (blocks i).size = (blocks j).vaddr

theorem Joinable.join_eq {i j : ℕ} (h : Joinable hi i j blocks) : join blocks i j =
    update (update blocks j { blocks j with active := false }) i
      ⟨true, (blocks i).vaddr, (blocks i).size + (blocks j).size, true⟩ := by
  obtain ⟨hactive, hfree⟩ := h.left
  rw [join, update_comm h.ne]
  dsimp only
  rw [hactive, hfree]

theorem Joinable.steps {i j : ℕ} (h : Joinable hi i j blocks) :
    Steps hi blocks (join blocks i j) := by
  have hends := h.ends
  have hoff : Table hi (update blocks j { blocks j with active := false }) :=
    h.table.update nofun
  rw [h.join_eq]
  refine ⟨hoff.update fun _ ↦ ⟨?_, fun k hki hk ↦ ?_⟩, fun k hk ↦ ?_⟩
  · obtain ⟨hpos, hlow, -⟩ := h.table.within i h.left.1
    obtain ⟨-, -, hhigh⟩ := h.table.within j h.right.1
    refine ⟨?_, ?_, ?_⟩ <;> dsimp only <;> omega
  · have hkj : k ≠ j := by
      rintro rfl
      rw [update_self] at hk
      cases hk
    rw [update_of_ne hkj] at hk ⊢
    have hki' := h.table.apart i k (Ne.symm hki) h.left.1 hk
    have hkj' := h.table.apart j k (Ne.symm hkj) h.right.1 hk
    have hkpos := (h.table.within k hk).1
    simp only [Apart] at hki' hkj' ⊢
    omega
  · have hki : k ≠ i := by
      rintro rfl
      rw [Taken, h.left.2] at hk
      cases hk.2
    have hkj : k ≠ j := by
      rintro rfl
      rw [Taken, h.right.2] at hk
      cases hk.2
    rw [update_of_ne hki, update_of_ne hkj]

/-- While block `i` has its turn: it is free and began before the address it is joined at. -/
structure Turn (i endVaddr : ℕ) (blocks : Blocks) : Prop where
  active : (blocks i).active
  isFree : (blocks i).isFree
  before : (blocks i).vaddr < endVaddr
  reaches : endVaddr ≤ (blocks i).vaddr + (blocks i).size

/-- What may be joined to a block in its turn is its neighbour: had it been joined to another
before, it would overlap this one. -/
theorem Turn.joinable {i j endVaddr : ℕ} (hturn : Turn i endVaddr blocks) (h : Table hi blocks)
    (hlt : i < maxBlocks ∧ j < maxBlocks) (hij : i ≠ j) (hactive : (blocks j).active)
    (hfree : (blocks j).isFree) (hvaddr : (blocks j).vaddr = endVaddr) :
    Joinable hi i j blocks := by
  refine ⟨h, hlt, hij, ⟨hturn.active, hturn.isFree⟩, ⟨hactive, hfree⟩, ?_⟩
  have hpos := (h.within j hactive).1
  have hbefore := hturn.before
  have hreaches := hturn.reaches
  have hapart := h.apart i j hij hturn.active hactive
  simp only [Apart] at hapart
  omega

theorem Turn.join {i j endVaddr : ℕ} (hturn : Turn i endVaddr blocks)
    (h : Joinable hi i j blocks) : Turn i endVaddr (join blocks i j) := by
  have hreaches := hturn.reaches
  rw [h.join_eq]
  refine ⟨?_, ?_, ?_, ?_⟩ <;> rw [update_self]
  · exact hturn.before
  · dsimp only
    omega

section Induction

variable {P : Blocks → Prop}
  (hjoin : ∀ blocks i j, Joinable hi i j blocks → P blocks → P (join blocks i j))

include hjoin

theorem mergeAt_induction {i endVaddr j : ℕ} {state : Blocks × Bool}
    (hlt : i < maxBlocks ∧ j < maxBlocks) (h : Table hi state.1) (hturn : Turn i endVaddr state.1)
    (hP : P state.1) : Table hi (mergeAt i endVaddr state j).1 ∧
      Turn i endVaddr (mergeAt i endVaddr state j).1 ∧ P (mergeAt i endVaddr state j).1 := by
  rw [mergeAt]
  split_ifs with hj
  · obtain ⟨hij, hactive, hfree, hvaddr⟩ := hj
    have hjoinable := hturn.joinable h hlt hij hactive hfree hvaddr
    exact ⟨hjoinable.steps.table, hturn.join hjoinable, hjoin _ i j hjoinable hP⟩
  · exact ⟨h, hturn, hP⟩

theorem coalesceAt_induction {i : ℕ} {state : Blocks × Bool} (hlt : i < maxBlocks)
    (h : Table hi state.1) (hP : P state.1) :
    Table hi (coalesceAt state i).1 ∧ P (coalesceAt state i).1 := by
  rw [coalesceAt]
  split_ifs with hskip
  · exact ⟨h, hP⟩
  rcases hend : checkedAdd 64 (state.1 i).vaddr (state.1 i).size with - | endVaddr
  · exact ⟨h, hP⟩
  obtain ⟨-, rfl⟩ := checkedAdd_eq_some.mp hend
  simp only [not_or, Decidable.not_not] at hskip
  have hpos := (h.within i hskip.1).1
  have hturn : Turn i ((state.1 i).vaddr + (state.1 i).size) state.1 :=
    ⟨hskip.1, hskip.2, Nat.lt_add_of_pos_right hpos, Nat.le_refl _⟩
  have hloop := List.foldlRecOn (List.range' 0 maxBlocks)
    (mergeAt i ((state.1 i).vaddr + (state.1 i).size))
    (motive := fun state' ↦ Table hi state'.1 ∧
      Turn i ((state.1 i).vaddr + (state.1 i).size) state'.1 ∧ P state'.1)
    ⟨h, hturn, hP⟩ fun state' ⟨htable, hturn, hP⟩ j hj ↦
      mergeAt_induction hjoin ⟨hlt, by simpa using hj⟩ htable hturn hP
  exact ⟨hloop.1, hloop.2.2⟩

theorem coalesceRound_induction (h : Table hi blocks) (hP : P blocks) :
    Table hi (coalesceRound blocks).1 ∧ P (coalesceRound blocks).1 :=
  List.foldlRecOn (List.range' 0 maxBlocks) coalesceAt
    (motive := fun state ↦ Table hi state.1 ∧ P state.1) ⟨h, hP⟩ fun state ⟨htable, hP⟩ i hi ↦
      coalesceAt_induction hjoin (by simpa using hi) htable hP

/-- **What every join keeps, coalescing keeps.** -/
theorem coalesce_induction (h : Table hi blocks) (hP : P blocks) : P (coalesce blocks) := by
  induction blocks using coalesce.induct with
  | case1 blocks hchanged ih =>
    have hround := coalesceRound_induction hjoin h hP
    rw [coalesce, if_pos hchanged]
    exact ih hround.1 hround.2
  | case2 blocks hsame =>
    rw [coalesce, if_neg hsame]
    exact (coalesceRound_induction hjoin h hP).2

end Induction

theorem coalesce_spec (h : Table hi blocks) : Steps hi blocks (coalesce blocks) :=
  coalesce_induction (P := Steps hi blocks) (fun _ _ _ hjoinable hsteps ↦
    hsteps.trans hjoinable.steps) h ⟨h, fun _ _ ↦ rfl⟩

/-! ## The heap -/

/-- The active blocks are apart and lie in the chunks, which are one behind the other. -/
structure Sound (h : HeapArena) : Prop where
  chunks : h.nextVaddr = heapStartVaddr + h.chunkCount * chunkSize
  table : Table h.nextVaddr h.blocks

/-- The heap goes on: it is sound, and what was taken is as it was. -/
structure Keeps (h h' : HeapArena) : Prop where
  sound : h'.Sound
  taken : ∀ i, Taken (h.blocks i) → h'.blocks i = h.blocks i

theorem Keeps.trans {h h' h'' : HeapArena} (hk : Keeps h h') (hk' : Keeps h' h'') :
    Keeps h h'' where
  sound := hk'.sound
  taken i hi := by
    have hsame := hk.taken i hi
    rw [hk'.taken i (hsame ▸ hi), hsame]

theorem Sound.keeps_of_steps {h : HeapArena} (hs : h.Sound) {blocks : Blocks}
    (hsteps : Steps h.nextVaddr h.blocks blocks) : Keeps h { h with blocks } :=
  ⟨⟨hs.chunks, hsteps.table⟩, hsteps.taken⟩

theorem Sound.table_grown {h : HeapArena} (hs : h.Sound) (idx : ℕ) :
    Table (h.nextVaddr + chunkSize)
      (update h.blocks idx ⟨true, h.nextVaddr, chunkSize, true⟩) := by
  have hwider : Table (h.nextVaddr + chunkSize) h.blocks :=
    ⟨fun i hi ↦ ⟨(hs.table.within i hi).1, (hs.table.within i hi).2.1,
      Nat.le_add_right_of_le (hs.table.within i hi).2.2⟩, hs.table.apart⟩
  have hpos : 0 < chunkSize := by decide
  exact hwider.update fun _ ↦ ⟨⟨hpos, Nat.le.intro hs.chunks.symm, Nat.le_refl _⟩,
    fun j _ hj ↦ .inr (hs.table.within j hj).2.2⟩

theorem growHeap_spec {h h' : HeapArena} {mapped grown : Bool} (hs : h.Sound)
    (hgrow : h.growHeap mapped = (grown, h')) : Keeps h h' := by
  obtain rfl : (h.growHeap mapped).2 = h' := congrArg Prod.snd hgrow
  clear hgrow
  have hself : Keeps h h := ⟨hs, fun _ _ ↦ rfl⟩
  rw [growHeap]
  split_ifs
  · exact hself
  · exact hself
  rcases hslot : findInactiveSlot h.blocks with - | idx
  · exact hself
  have hinactive := findInactiveSlot_some hslot
  have hsteps := coalesce_spec (hs.table_grown idx)
  dsimp only
  refine ⟨⟨?_, hsteps.table⟩, fun i hi ↦ ?_⟩
  · rw [hs.chunks, Nat.succ_mul, Nat.add_assoc]
  · have hne : i ≠ idx := by
      rintro rfl
      rw [Taken, hinactive] at hi
      cases hi.1
    have hsame := hsteps.taken i
    rw [update_of_ne hne] at hsame
    exact hsame hi

/-- **What an allocation gives**: nothing, or a block of its own that starts aligned. -/
def Gives (h : HeapArena) (size align : ℕ) (result : ℕ × HeapArena) : Prop :=
  Keeps h result.2 ∧ (result.1 = 0 ∨ result.1 ≠ 0 ∧ result.1 % align = 0 ∧
    ∃ i, ¬Taken (h.blocks i) ∧ result.2.blocks i = ⟨true, result.1, size, false⟩)

variable {h h' : HeapArena} {size align idx : ℕ}

theorem Keeps.gives {result : ℕ × HeapArena} (hk : Keeps h h') (hg : Gives h' size align result) :
    Gives h size align result := by
  obtain ⟨hkeeps, hptr⟩ := hg
  refine ⟨hk.trans hkeeps, hptr.imp_right ?_⟩
  rintro ⟨hne, haligned, i, hi, hnew⟩
  exact ⟨hne, haligned, i, fun htaken ↦ hi (hk.taken i htaken ▸ htaken), hnew⟩

theorem splitAndAllocate_ne_zero (size align : ℕ) (hs : h.Sound)
    (hactive : (h.blocks idx).active) : (h.splitAndAllocate idx size align).1 ≠ 0 := by
  have hlow := (hs.table.within idx hactive).2.1
  have hpos : 0 < heapStartVaddr := by decide
  exact Nat.ne_of_gt (Nat.add_pos_left (Nat.lt_of_lt_of_le hpos hlow) _)

theorem splitAndAllocate_spec (hs : h.Sound) (hsize : 0 < size) (halign : 0 < align)
    (hfind : findFreeBlock h.blocks size align = some idx) :
    Gives h size align (h.splitAndAllocate idx size align) := by
  obtain ⟨hactive, hfree, hle⟩ := Fits.spec (findFreeBlock_some hfind)
  obtain ⟨hsteps, hidx⟩ := cut_spec hs.table hactive hfree hsize hle
  refine ⟨hs.keeps_of_steps hsteps, .inr ⟨splitAndAllocate_ne_zero size align hs hactive,
    add_adjustment_mod halign, idx, fun htaken ↦ ?_, hidx⟩⟩
  rw [htaken.2] at hfree
  cases hfree

theorem growLoop_spec (hsize : 0 < size) (halign : 0 < align) (mapped : ℕ → Bool) (hs : h.Sound) :
    Gives h size align (growLoop size align mapped h) := by
  fun_induction growLoop size align mapped h with
  | case1 h h' hgrow => exact ⟨growHeap_spec hs hgrow, .inl rfl⟩
  | case2 h h' hgrow idx hfind =>
    have hkeeps := growHeap_spec hs hgrow
    exact hkeeps.gives (splitAndAllocate_spec hkeeps.sound hsize halign hfind)
  | case3 h h' hgrow hfind ih =>
    have hkeeps := growHeap_spec hs hgrow
    exact hkeeps.gives (ih hkeeps.sound)

theorem allocate_spec (hs : h.Sound) (layout : Layout) (mapped : ℕ → Bool) :
    Gives h (max layout.size layout.align) layout.align (h.allocate layout mapped) := by
  have halign := layout.align_pos
  have hsize : 0 < max layout.size layout.align := Nat.lt_of_lt_of_le halign (Nat.le_max_right _ _)
  rw [allocate]
  split_ifs
  · exact ⟨⟨hs, fun _ _ ↦ rfl⟩, .inl rfl⟩
  dsimp only
  rcases hfind : findFreeBlock h.blocks (max layout.size layout.align) layout.align with - | idx
  · have hkeeps := hs.keeps_of_steps (coalesce_spec hs.table)
    dsimp only
    rcases hfind' : findFreeBlock (coalesce h.blocks) (max layout.size layout.align) layout.align
      with - | idx
    · dsimp only
      exact hkeeps.gives (growLoop_spec hsize halign mapped hkeeps.sound)
    · exact hkeeps.gives (splitAndAllocate_spec hkeeps.sound hsize halign hfind')
  · exact splitAndAllocate_spec hs hsize halign hfind

/-- Freeing a pointer leaves every taken block that starts elsewhere. -/
theorem deallocate_spec (hs : h.Sound) (ptr : ℕ) : (h.deallocate ptr).Sound ∧
    ∀ i, Taken (h.blocks i) → (h.blocks i).vaddr ≠ ptr →
      (h.deallocate ptr).blocks i = h.blocks i := by
  unfold deallocate
  split
  case h_2 => exact ⟨hs, fun _ _ _ ↦ rfl⟩
  case h_1 k hfind =>
    have hk := List.find?_some hfind
    simp only [Bool.and_eq_true, Bool.not_eq_true', decide_eq_true_eq] at hk
    obtain ⟨⟨hactive, -⟩, hvaddr⟩ := hk
    refine ⟨⟨hs.chunks, hs.table.update fun _ ↦ ⟨hs.table.within k hactive, ?_⟩⟩, ?_⟩
    · exact fun j hj hjactive ↦ hs.table.apart k j hj.symm hactive hjactive
    · rintro i - hne
      have hik : i ≠ k := by
        rintro rfl
        exact hne hvaddr
      exact update_of_ne hik _ _

/-! ## Runs -/

/-- The heap, and the allocations that are live: each with its layout. -/
structure HeapState where
  arena : HeapArena
  live : List (ℕ × Layout)

/-- A request, with the chunks that can be mapped for it, or freeing the `k`-th of the live
allocations: so what is freed is live, and nothing is freed twice. -/
inductive HeapOp
  | alloc (layout : Layout) (mapped : ℕ → Bool)
  | free (k : ℕ)

namespace HeapState

def step (s : HeapState) : HeapOp → HeapState
  | .alloc layout mapped =>
    let result := s.arena.allocate layout mapped
    if result.1 = 0 then { s with arena := result.2 }
    else ⟨result.2, (result.1, layout) :: s.live⟩
  | .free k => match s.live[k]? with
    | some (ptr, _) => ⟨s.arena.deallocate ptr, s.live.eraseIdx k⟩
    | none => s

def run (ops : List HeapOp) : HeapState := ops.foldl step ⟨new.init, []⟩

/-- An allocation is the start of a taken block that holds it. -/
def Backed (arena : HeapArena) (a : ℕ × Layout) : Prop :=
  a.1 % a.2.align = 0 ∧ ∃ i, Taken (arena.blocks i) ∧ (arena.blocks i).vaddr = a.1 ∧
    a.2.size ≤ (arena.blocks i).size

theorem Backed.of_eq {arena arena' : HeapArena} {a : ℕ × Layout} (ha : Backed arena a)
    (hsame : ∀ i, Taken (arena.blocks i) → (arena.blocks i).vaddr = a.1 →
      arena'.blocks i = arena.blocks i) : Backed arena' a := by
  obtain ⟨haligned, i, htaken, hvaddr, hsize⟩ := ha
  refine ⟨haligned, i, ?_⟩
  rw [hsame i htaken hvaddr]
  exact ⟨htaken, hvaddr, hsize⟩

structure Good (s : HeapState) : Prop where
  sound : s.arena.Sound
  backed : ∀ a ∈ s.live, Backed s.arena a
  nodup : (s.live.map Prod.fst).Nodup

variable {s : HeapState}

theorem Good.alloc (hg : s.Good) (layout : Layout) (mapped : ℕ → Bool) :
    (s.step (.alloc layout mapped)).Good := by
  obtain ⟨hkeeps, hgives⟩ := allocate_spec hg.sound layout mapped
  have hold : ∀ a ∈ s.live, Backed (s.arena.allocate layout mapped).2 a := fun a ha ↦
    (hg.backed a ha).of_eq fun i htaken _ ↦ hkeeps.taken i htaken
  rw [step]
  split_ifs with hnull
  · exact ⟨hkeeps.sound, hold, hg.nodup⟩
  obtain ⟨-, haligned, i, hi, hnew⟩ := hgives.resolve_left hnull
  refine ⟨hkeeps.sound, List.forall_mem_cons.mpr ⟨⟨haligned, i, ?_⟩, hold⟩, ?_⟩
  · rw [hnew]
    exact ⟨⟨rfl, rfl⟩, rfl, Nat.le_max_left _ _⟩
  · refine List.nodup_cons.mpr ⟨fun hmem ↦ ?_, hg.nodup⟩
    -- A live allocation at the same address would be another block that starts there.
    obtain ⟨a, ha, hptr⟩ := List.mem_map.mp hmem
    obtain ⟨-, j, hj, hvaddr, -⟩ := hg.backed a ha
    have hij : i ≠ j := fun hij ↦ hi (hij ▸ hj)
    have hactive : ((s.arena.allocate layout mapped).2.blocks i).active := by rw [hnew]
    have hactive' : ((s.arena.allocate layout mapped).2.blocks j).active := by
      rw [hkeeps.taken j hj]
      exact hj.1
    have hapart := hkeeps.sound.table.apart i j hij hactive hactive'
    have hpos := (hkeeps.sound.table.within i hactive).1
    have hpos' := (hkeeps.sound.table.within j hactive').1
    rw [hkeeps.taken j hj, hnew] at hapart
    rw [hnew] at hpos
    rw [hkeeps.taken j hj] at hpos'
    simp only [Apart] at hapart hpos hpos'
    omega

theorem Good.free (hg : s.Good) (k : ℕ) : (s.step (.free k)).Good := by
  rw [step]
  rcases hk : s.live[k]? with - | ⟨ptr, layout⟩
  · exact hg
  obtain ⟨hsound, hsame⟩ := deallocate_spec hg.sound ptr
  refine ⟨hsound, fun a ha ↦ ?_, ?_⟩
  · have hne : a.1 ≠ ptr := by
      rintro rfl
      obtain ⟨i, hik, hi⟩ := List.mem_eraseIdx_iff_getElem?.mp ha
      have hlt : i < (s.live.map Prod.fst).length := by
        rw [List.length_map]
        exact (List.getElem?_eq_some_iff.mp hi).1
      refine hik ((List.getElem?_inj hlt hg.nodup).mp ?_)
      rw [List.getElem?_map, List.getElem?_map, hi, hk]
      rfl
    have hmem := (List.eraseIdx_sublist s.live k).subset ha
    exact (hg.backed a hmem).of_eq fun i htaken hvaddr ↦ hsame i htaken (hvaddr ▸ hne)
  · exact hg.nodup.sublist ((List.eraseIdx_sublist s.live k).map Prod.fst)

theorem run_good (ops : List HeapOp) : (run ops).Good := by
  have hrun : ∀ (ops : List HeapOp) (s : HeapState), s.Good → (ops.foldl step s).Good := by
    intro ops
    induction ops with
    | nil => exact fun _ hg ↦ hg
    | cons op ops ih =>
      intro s hg
      cases op with
      | alloc layout mapped => exact ih _ (hg.alloc layout mapped)
      | free k => exact ih _ (hg.free k)
  refine hrun ops _ ⟨⟨?_, ⟨fun i hi ↦ ?_, fun i j _ hi ↦ ?_⟩⟩, fun a ha ↦ ?_, List.nodup_nil⟩
  · exact (Nat.add_zero _).symm.trans (congrArg _ (Nat.zero_mul _).symm)
  · cases hi
  · cases hi
  · cases ha

theorem Good.mem_chunk (hg : s.Good) {i addr : ℕ} (hactive : (s.arena.blocks i).active)
    (hlow : (s.arena.blocks i).vaddr ≤ addr)
    (hhigh : addr < (s.arena.blocks i).vaddr + (s.arena.blocks i).size) :
    ∃ k < s.arena.chunkCount, heapStartVaddr + k * chunkSize ≤ addr ∧
      addr < heapStartVaddr + (k + 1) * chunkSize := by
  obtain ⟨-, hstart, hend⟩ := hg.sound.table.within i hactive
  have hpos : 0 < chunkSize := by decide
  obtain ⟨offset, rfl⟩ := Nat.exists_eq_add_of_le (Nat.le_trans hstart hlow)
  rw [hg.sound.chunks] at hend
  have hoffset : offset < s.arena.chunkCount * chunkSize :=
    Nat.lt_of_add_lt_add_left (Nat.lt_of_lt_of_le hhigh hend)
  refine ⟨offset / chunkSize, Nat.div_lt_of_lt_mul ?_, Nat.add_le_add_left ?_ _,
    Nat.add_lt_add_left ?_ _⟩
  · rwa [Nat.mul_comm]
  · exact Nat.div_mul_le_self _ _
  · rw [Nat.add_one_mul]
    exact Nat.lt_div_mul_add hpos

theorem Good.live_apart (hg : s.Good) {a b : ℕ × Layout} (ha : a ∈ s.live) (hb : b ∈ s.live)
    (hne : a.1 ≠ b.1) : a.1 + a.2.size ≤ b.1 ∨ b.1 + b.2.size ≤ a.1 := by
  obtain ⟨-, i, hi, hia, hisize⟩ := hg.backed a ha
  obtain ⟨-, j, hj, hjb, hjsize⟩ := hg.backed b hb
  have hij : i ≠ j := by
    rintro rfl
    exact hne (hia.symm.trans hjb)
  have hapart := hg.sound.table.apart i j hij hi.1 hj.1
  simp only [Apart] at hapart
  omega

/-- **Allocations never overlap.** After any run of requests and frees, whatever chunks could be
mapped: active blocks are apart and lie in the mapped chunks, what is live is aligned as requested
and lies in a taken block that has room for it, and no two live allocations share a byte. -/
theorem heap_allocations_never_overlap (ops : List HeapOp) :
    (∀ i j, i ≠ j → ((run ops).arena.blocks i).active → ((run ops).arena.blocks j).active →
      Apart ((run ops).arena.blocks i) ((run ops).arena.blocks j)) ∧
    (∀ i, ((run ops).arena.blocks i).active → ∀ addr, ((run ops).arena.blocks i).vaddr ≤ addr →
      addr < ((run ops).arena.blocks i).vaddr + ((run ops).arena.blocks i).size →
      ∃ k < (run ops).arena.chunkCount, heapStartVaddr + k * chunkSize ≤ addr ∧
        addr < heapStartVaddr + (k + 1) * chunkSize) ∧
    (∀ a ∈ (run ops).live, Backed (run ops).arena a) ∧
    (run ops).live.Pairwise fun a b ↦ a.1 + a.2.size ≤ b.1 ∨ b.1 + b.2.size ≤ a.1 := by
  have hg := run_good ops
  refine ⟨hg.sound.table.apart, fun i hactive addr ↦ hg.mem_chunk hactive, hg.backed, ?_⟩
  exact (List.pairwise_map.mp hg.nodup).imp_of_mem fun ha hb hne ↦ hg.live_apart ha hb hne

end HeapState

end HeapArena

end Gaxera

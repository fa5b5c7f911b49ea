import Gaxera.User.Heap
import Mathlib.Algebra.BigOperators.Group.Finset.Piecewise
import Mathlib.Algebra.Order.BigOperators.Group.Finset
import Mathlib.Order.Interval.Finset.Nat

/-!
# The bytes of the user heap

Two questions about the heap are about all of its blocks at once. The first is whether bytes get
lost. Joining neighbours keeps the sum of the sizes, and growing adds a chunk to it. Only a cut can
lose something: what it leaves before and behind needs an entry of the table each, and if there is
none the bytes belong to no block any more (`Room`).

The second is what a null pointer means. Joining goes on until a round changes nothing, and then no
free block ends where another begins. An allocation gives up only after that, and after the last
attempt to grow was refused.
-/

namespace Gaxera

open Function

namespace HeapArena

variable {hi : ℕ} {blocks blocks' : Blocks}

/-! ## Counting -/

/-- What an entry of the table stands for. -/
def weight (b : BlockMeta) : ℕ := if b.active then b.size else 0

/-- The bytes in active blocks. -/
def bytes (blocks : Blocks) : ℕ := ∑ i ∈ Finset.range maxBlocks, weight (blocks i)

/-- The number of entries that are not in use. -/
def spare (blocks : Blocks) : ℕ :=
  ((Finset.range maxBlocks).filter fun i ↦ (blocks i).active = false).card

theorem sum_update (f : BlockMeta → ℕ) (blocks : Blocks) {k : ℕ} (hk : k < maxBlocks)
    (b : BlockMeta) :
    ∑ i ∈ Finset.range maxBlocks, f (update blocks k b i) + f (blocks k) =
      ∑ i ∈ Finset.range maxBlocks, f (blocks i) + f b := by
  have hmem := Finset.mem_range.mpr hk
  have hothers : ∀ i ∈ (Finset.range maxBlocks).erase k,
      f (update blocks k b i) = f (blocks i) := fun i hi ↦ by
    rw [update_of_ne (Finset.ne_of_mem_erase hi)]
  rw [← Finset.add_sum_erase _ _ hmem, ← Finset.add_sum_erase _ _ hmem,
    Finset.sum_congr rfl hothers, update_self]
  omega

theorem bytes_update (blocks : Blocks) {k : ℕ} (hk : k < maxBlocks) (b : BlockMeta) :
    bytes (update blocks k b) + weight (blocks k) = bytes blocks + weight b :=
  sum_update weight blocks hk b

theorem spare_update (blocks : Blocks) {k : ℕ} (hk : k < maxBlocks) (b : BlockMeta) :
    spare (update blocks k b) + (if (blocks k).active = false then 1 else 0) =
      spare blocks + if b.active = false then 1 else 0 := by
  rw [spare, spare, Finset.card_filter, Finset.card_filter]
  exact sum_update (fun b ↦ if b.active = false then 1 else 0) blocks hk b

theorem findInactiveSlot_lt {k : ℕ} (h : findInactiveSlot blocks = some k) : k < maxBlocks := by
  have := List.mem_of_find?_eq_some h
  simpa using this

theorem findInactiveSlot_eq_none_iff : findInactiveSlot blocks = none ↔ spare blocks = 0 := by
  rw [findInactiveSlot, List.find?_eq_none, spare, Finset.card_eq_zero, Finset.filter_eq_empty_iff]
  simp

theorem bytes_addFree (blocks : Blocks) (vaddr size : ℕ) :
    bytes (addFree blocks vaddr size) = bytes blocks + if spare blocks = 0 then 0 else size := by
  rw [addFree]
  rcases hslot : findInactiveSlot blocks with - | k
  · rw [if_pos (findInactiveSlot_eq_none_iff.mp hslot)]
    rfl
  · have hspare : spare blocks ≠ 0 := fun hzero ↦ by
      rw [findInactiveSlot_eq_none_iff.mpr hzero] at hslot
      cases hslot
    have hupdate := bytes_update blocks (findInactiveSlot_lt hslot) ⟨true, vaddr, size, true⟩
    simp only [weight, findInactiveSlot_some hslot, Bool.false_eq_true, if_false, if_true]
      at hupdate
    rw [if_neg hspare]
    dsimp only
    split_ifs with hsize
    · exact hupdate
    · omega

theorem spare_addFree (blocks : Blocks) (vaddr size : ℕ) :
    spare (addFree blocks vaddr size) = if 0 < size then spare blocks - 1 else spare blocks := by
  rw [addFree]
  rcases hslot : findInactiveSlot blocks with - | k
  · have hzero := findInactiveSlot_eq_none_iff.mp hslot
    split_ifs <;> rw [hzero]
  · dsimp only
    split_ifs
    · have hupdate := spare_update blocks (findInactiveSlot_lt hslot) ⟨true, vaddr, size, true⟩
      simp only [findInactiveSlot_some hslot, Bool.true_eq_false, if_true, if_false] at hupdate
      omega
    · rfl

/-- There are entries for what a cut leaves before and behind. -/
def Room (blocks : Blocks) (before behind : ℕ) : Prop :=
  (if 0 < before then 1 else 0) + (if 0 < behind then 1 else 0) ≤ spare blocks

/-- **What a cut loses**: nothing if there is room, and something otherwise. -/
theorem bytes_cut {idx skip size : ℕ} (hidx : idx < maxBlocks) (hactive : (blocks idx).active)
    (hle : size + skip ≤ (blocks idx).size) :
    bytes (cut blocks idx skip size) ≤ bytes blocks ∧
      (bytes (cut blocks idx skip size) = bytes blocks ↔
        Room blocks skip ((blocks idx).size - size - skip)) := by
  have htaken := bytes_update blocks hidx
    ⟨(blocks idx).active, (blocks idx).vaddr + skip, size, false⟩
  have hspare := Nat.add_right_cancel (spare_update blocks hidx
    ⟨(blocks idx).active, (blocks idx).vaddr + skip, size, false⟩)
  simp only [weight, hactive, if_true] at htaken
  rw [cut, bytes_addFree, bytes_addFree, spare_addFree, Room]
  simp only [hactive] at hspare ⊢
  rw [hspare]
  split_ifs <;> omega

/-! ## Joining -/

/-- A byte of a free block. -/
def FreeByte (blocks : Blocks) (addr : ℕ) : Prop :=
  ∃ i < maxBlocks, (blocks i).active ∧ (blocks i).isFree ∧ (blocks i).vaddr ≤ addr ∧
    addr < (blocks i).vaddr + (blocks i).size

/-- **What joining keeps**: the blocks that are handed out, the free bytes, and the sum. -/
structure Joins (blocks blocks' : Blocks) : Prop where
  taken : ∀ i, Taken (blocks' i) ↔ Taken (blocks i)
  freeByte : ∀ addr, FreeByte blocks' addr ↔ FreeByte blocks addr
  bytes : bytes blocks' = bytes blocks

theorem Joins.refl (blocks : Blocks) : Joins blocks blocks :=
  ⟨fun _ ↦ Iff.rfl, fun _ ↦ Iff.rfl, rfl⟩

theorem Joins.trans {blocks'' : Blocks} (h : Joins blocks blocks') (h' : Joins blocks' blocks'') :
    Joins blocks blocks'' where
  taken i := (h'.taken i).trans (h.taken i)
  freeByte addr := (h'.freeByte addr).trans (h.freeByte addr)
  bytes := h'.bytes.trans h.bytes

theorem Joinable.freeByte {i j addr : ℕ} (h : Joinable hi i j blocks) :
    FreeByte (join blocks i j) addr ↔ FreeByte blocks addr := by
  have hends := h.ends
  have hleft : join blocks i j i =
      ⟨true, (blocks i).vaddr, (blocks i).size + (blocks j).size, true⟩ := by
    rw [h.join_eq, update_self]
  have hright : (join blocks i j j).active = false := by
    rw [join, update_self]
  have hothers {k : ℕ} (hki : k ≠ i) (hkj : k ≠ j) : join blocks i j k = blocks k := by
    rw [join, update_of_ne hkj, update_of_ne hki]
  constructor
  · rintro ⟨k, hk, hactive, hfree, hlow, hhigh⟩
    by_cases hki : k = i
    · subst hki
      rw [hleft] at hlow hhigh
      dsimp only at hlow hhigh
      rcases Nat.lt_or_ge addr (blocks j).vaddr with hlt | hge
      · exact ⟨k, hk, h.left.1, h.left.2, hlow, by omega⟩
      · exact ⟨j, h.lt.2, h.right.1, h.right.2, hge, by omega⟩
    · have hkj : k ≠ j := by
        rintro rfl
        rw [hright] at hactive
        cases hactive
      rw [hothers hki hkj] at *
      exact ⟨k, hk, hactive, hfree, hlow, hhigh⟩
  · rintro ⟨k, hk, hactive, hfree, hlow, hhigh⟩
    by_cases hpart : k = i ∨ k = j
    · refine ⟨i, h.lt.1, ?_⟩
      rw [hleft]
      refine ⟨rfl, rfl, ?_⟩
      dsimp only
      rcases hpart with rfl | rfl <;> omega
    · rw [not_or] at hpart
      refine ⟨k, hk, ?_⟩
      rw [hothers hpart.1 hpart.2]
      exact ⟨hactive, hfree, hlow, hhigh⟩

theorem Joinable.joins {i j : ℕ} (h : Joinable hi i j blocks) : Joins blocks (join blocks i j) where
  taken k := by
    refine ⟨fun hk ↦ ?_, fun hk ↦ ?_⟩
    · by_cases hkj : k = j
      · rw [hkj, join, update_self] at hk
        cases hk.1
      by_cases hki : k = i
      · rw [hki, h.join_eq, update_self] at hk
        cases hk.2
      rwa [join, update_of_ne hkj, update_of_ne hki] at hk
    · rwa [h.steps.taken k hk]
  freeByte _ := h.freeByte
  bytes := by
    have houter := bytes_update (update blocks j { blocks j with active := false }) h.lt.1
      ⟨true, (blocks i).vaddr, (blocks i).size + (blocks j).size, true⟩
    have hinner := bytes_update blocks h.lt.2 { blocks j with active := false }
    rw [← h.join_eq, update_of_ne h.ne] at houter
    simp only [weight, h.left.1, h.right.1, Bool.false_eq_true, if_true, if_false]
      at houter hinner
    omega

theorem coalesce_joins (h : Table hi blocks) : Joins blocks (coalesce blocks) :=
  coalesce_induction (P := Joins blocks) (fun _ _ _ hjoinable hjoins ↦
    hjoins.trans hjoinable.joins) h (.refl blocks)

/-! ## No neighbours left -/

/-- No free block ends where another begins. -/
def Coalesced (blocks : Blocks) : Prop :=
  ∀ i j, i < maxBlocks → j < maxBlocks → i ≠ j → (blocks i).active → (blocks i).isFree →
    (blocks j).active → (blocks j).isFree → (blocks i).vaddr + (blocks i).size ≠ (blocks j).vaddr

/-- A pass that reports no change has made none, and has found nothing to do on its way. -/
theorem foldl_unchanged {f : Blocks × Bool → ℕ → Blocks × Bool} {Q : ℕ → Blocks → Prop}
    (hf : ∀ state i, (f state i).2 = false → f state i = state ∧ Q i state.1) {l : List ℕ}
    {state : Blocks × Bool} (h : (l.foldl f state).2 = false) :
    l.foldl f state = state ∧ ∀ i ∈ l, Q i state.1 := by
  induction l generalizing state with
  | nil => exact ⟨rfl, nofun⟩
  | cons i l ih =>
    rw [List.foldl_cons] at h
    obtain ⟨hrest, hall⟩ := ih h
    rw [hrest] at h
    obtain ⟨hsame, hi⟩ := hf state i h
    rw [hsame] at hrest hall
    exact ⟨by rw [List.foldl_cons, hsame, hrest], List.forall_mem_cons.mpr ⟨hi, hall⟩⟩

theorem mergeAt_unchanged {i endVaddr j : ℕ} {state : Blocks × Bool}
    (h : (mergeAt i endVaddr state j).2 = false) : mergeAt i endVaddr state j = state ∧
      ¬(i ≠ j ∧ (state.1 j).active ∧ (state.1 j).isFree ∧ (state.1 j).vaddr = endVaddr) := by
  rw [mergeAt] at h ⊢
  split_ifs at h ⊢ with hmerge
  exact ⟨rfl, hmerge⟩

/-- What a block whose turn changes nothing has found. -/
def NoNeighbour (i : ℕ) (blocks : Blocks) : Prop :=
  (blocks i).active → (blocks i).isFree → (blocks i).vaddr + (blocks i).size < 2 ^ 64 →
    ∀ j ∈ List.range' 0 maxBlocks, ¬(i ≠ j ∧ (blocks j).active ∧ (blocks j).isFree ∧
      (blocks j).vaddr = (blocks i).vaddr + (blocks i).size)

theorem coalesceAt_unchanged (state : Blocks × Bool) (i : ℕ)
    (h : (coalesceAt state i).2 = false) :
    coalesceAt state i = state ∧ NoNeighbour i state.1 := by
  rw [coalesceAt] at h ⊢
  split_ifs at h ⊢ with hskip
  · refine ⟨rfl, fun hactive hfree ↦ ?_⟩
    rcases hskip with hinactive | htaken
    · exact absurd hactive hinactive
    · exact absurd hfree htaken
  rcases hend : checkedAdd 64 (state.1 i).vaddr (state.1 i).size with - | endVaddr
  · refine ⟨rfl, fun _ _ hlt ↦ ?_⟩
    rw [checkedAdd_eq_some.mpr ⟨hlt, rfl⟩] at hend
    cases hend
  · rw [hend] at h
    obtain ⟨-, rfl⟩ := checkedAdd_eq_some.mp hend
    obtain ⟨hsame, hnone⟩ := foldl_unchanged (Q := fun j blocks ↦ ¬(i ≠ j ∧ (blocks j).active ∧
      (blocks j).isFree ∧ (blocks j).vaddr = (state.1 i).vaddr + (state.1 i).size))
      (fun _ _ ↦ mergeAt_unchanged) h
    exact ⟨hsame, fun _ _ _ ↦ hnone⟩

theorem coalesceRound_unchanged (h : (coalesceRound blocks).2 = false) :
    (coalesceRound blocks).1 = blocks ∧ ∀ i ∈ List.range' 0 maxBlocks, NoNeighbour i blocks := by
  obtain ⟨hsame, hnone⟩ := foldl_unchanged coalesceAt_unchanged h
  exact ⟨congrArg Prod.fst hsame, hnone⟩

/-- **Joining ends with no two free neighbours.** -/
theorem coalesce_coalesced (h : Table hi blocks) (hhi : hi < 2 ^ 64) :
    Coalesced (coalesce blocks) := by
  induction blocks using coalesce.induct with
  | case1 blocks hchanged ih =>
    rw [coalesce, if_pos hchanged]
    exact ih (coalesceRound_induction (P := fun _ ↦ True) (fun _ _ _ _ _ ↦ trivial) h trivial).1
  | case2 blocks hsame =>
    obtain ⟨heq, hnone⟩ := coalesceRound_unchanged (Bool.not_eq_true _ ▸ hsame)
    rw [coalesce, if_neg hsame, heq]
    intro i j hilt hjlt hij hactive hfree hactive' hfree' hends
    have hwithin := (h.within i hactive).2.2
    exact hnone i (by simpa using hilt) hactive hfree (by omega) j (by simpa using hjlt)
      ⟨hij, hactive', hfree', hends.symm⟩

/-- The table after so many rounds of the loop. -/
def coalesceRounds : ℕ → Blocks → Blocks
  | 0, blocks => blocks
  | n + 1, blocks => coalesceRounds n (coalesceRound blocks).1

/-- **The loop ends** after at most as many rounds as there were active entries. -/
theorem exists_coalesceRounds (blocks : Blocks) : ∃ n ≤ activeCount blocks,
    (coalesceRound (coalesceRounds n blocks)).2 = false ∧
      coalesce blocks = (coalesceRound (coalesceRounds n blocks)).1 := by
  induction blocks using coalesce.induct with
  | case1 blocks hchanged ih =>
    obtain ⟨n, hn, hlast, hresult⟩ := ih
    have hlt := activeCount_coalesceRound_lt hchanged
    refine ⟨n + 1, by omega, ?_⟩
    rw [coalesceRounds, coalesce, if_pos hchanged]
    exact ⟨hlast, hresult⟩
  | case2 blocks hsame =>
    refine ⟨0, Nat.zero_le _, ?_⟩
    rw [coalesceRounds, coalesce, if_neg hsame]
    exact ⟨Bool.not_eq_true _ ▸ hsame, Eq.refl _⟩

theorem activeCount_le (blocks : Blocks) : activeCount blocks ≤ maxBlocks :=
  (Finset.card_filter_le _ _).trans (Finset.card_range _).le

/-! ## An allocation up to its cut -/

/-- The growing loop up to the cut: the block it has found, if it has, and the heap by then. -/
def growSearch (size align : ℕ) (mapped : ℕ → Bool) (h : HeapArena) : Option ℕ × HeapArena :=
  match _hgrow : h.growHeap (mapped h.chunkCount) with
  | (false, h') => (none, h')
  | (true, h') => match findFreeBlock h'.blocks size align with
    | some idx => (some idx, h')
    | none => growSearch size align mapped h'
termination_by 64 - h.chunkCount
decreasing_by exact growHeap_grows ‹_›

/-- The block that an allocation is going to cut. -/
def search (h : HeapArena) (size align : ℕ) (mapped : ℕ → Bool) : Option ℕ × HeapArena :=
  match findFreeBlock h.blocks size align with
  | some idx => (some idx, h)
  | none =>
    let h := { h with blocks := coalesce h.blocks }
    match findFreeBlock h.blocks size align with
    | some idx => (some idx, h)
    | none => growSearch size align mapped h

/-- The rest of an allocation. -/
def finish (size align : ℕ) : Option ℕ × HeapArena → ℕ × HeapArena
  | (some idx, h) => h.splitAndAllocate idx size align
  | (none, h) => (0, h)

theorem growLoop_eq (size align : ℕ) (mapped : ℕ → Bool) (h : HeapArena) :
    growLoop size align mapped h = finish size align (growSearch size align mapped h) := by
  fun_induction growLoop size align mapped h with
  | case1 h h' hgrow =>
    rw [growSearch, hgrow]
    rfl
  | case2 h h' hgrow idx hfind =>
    rw [growSearch, hgrow]
    dsimp only
    rw [hfind]
    rfl
  | case3 h h' hgrow hfind ih =>
    rw [growSearch, hgrow]
    dsimp only
    rw [hfind]
    exact ih

variable {h : HeapArena}

theorem allocate_eq (hinit : h.initialized) (layout : Layout) (mapped : ℕ → Bool) :
    h.allocate layout mapped =
      finish (max layout.size layout.align) layout.align
        (h.search (max layout.size layout.align) layout.align mapped) := by
  rw [allocate, search, hinit]
  dsimp only
  rcases findFreeBlock h.blocks (max layout.size layout.align) layout.align with - | idx
  · dsimp only
    rcases findFreeBlock (coalesce h.blocks) (max layout.size layout.align) layout.align
      with - | idx
    · exact growLoop_eq _ _ _ _
    · rfl
  · rfl

/-- The heap before the cut has only been joined and grown. -/
structure Reaches (h h' : HeapArena) : Prop where
  keeps : Keeps h h'
  initialized : h'.initialized = h.initialized
  chunks : h.chunkCount ≤ 64 → h'.chunkCount ≤ 64
  taken : ∀ i, Taken (h'.blocks i) ↔ Taken (h.blocks i)
  balanced : bytes h'.blocks + chunkSize * h.chunkCount =
    bytes h.blocks + chunkSize * h'.chunkCount

theorem Reaches.refl (hs : h.Sound) : Reaches h h :=
  ⟨⟨hs, fun _ _ ↦ rfl⟩, rfl, id, fun _ ↦ Iff.rfl, rfl⟩

theorem Reaches.trans {h' h'' : HeapArena} (hr : Reaches h h') (hr' : Reaches h' h'') :
    Reaches h h'' where
  keeps := hr.keeps.trans hr'.keeps
  initialized := hr'.initialized.trans hr.initialized
  chunks hle := hr'.chunks (hr.chunks hle)
  taken i := (hr'.taken i).trans (hr.taken i)
  balanced := by
    have := hr.balanced
    have := hr'.balanced
    omega

/-- The part of the heap that is mapped ends far below the last address. -/
theorem Sound.nextVaddr_lt (hs : h.Sound) (hle : h.chunkCount ≤ 64) : h.nextVaddr < 2 ^ 64 := by
  rw [hs.chunks, heapStartVaddr, chunkSize]
  omega

theorem coalesce_reaches (hs : h.Sound) : Reaches h { h with blocks := coalesce h.blocks } where
  keeps := hs.keeps_of_steps (coalesce_spec hs.table)
  initialized := rfl
  chunks := id
  taken := (coalesce_joins hs.table).taken
  balanced := by
    dsimp only
    rw [(coalesce_joins hs.table).bytes]

/-- Refused, the heap is what it was; grown, it is a chunk larger and joined. -/
theorem growHeap_reaches {h' : HeapArena} {mapped grown : Bool} (hs : h.Sound)
    (hle : h.chunkCount ≤ 64) (hgrow : h.growHeap mapped = (grown, h')) :
    Reaches h h' ∧ (grown = false → h' = h) ∧ (grown = true → Coalesced h'.blocks) := by
  have hkeeps := growHeap_spec hs hgrow
  rw [growHeap] at hgrow
  split_ifs at hgrow with hfull hmapped
  · obtain ⟨rfl, rfl⟩ := Prod.mk.inj hgrow
    exact ⟨.refl hs, fun _ ↦ rfl, by simp⟩
  · obtain ⟨rfl, rfl⟩ := Prod.mk.inj hgrow
    exact ⟨.refl hs, fun _ ↦ rfl, by simp⟩
  rcases hslot : findInactiveSlot h.blocks with - | idx
  · rw [hslot] at hgrow
    obtain ⟨rfl, rfl⟩ := Prod.mk.inj hgrow
    exact ⟨.refl hs, fun _ ↦ rfl, by simp⟩
  · rw [hslot] at hgrow
    obtain ⟨rfl, rfl⟩ := Prod.mk.inj hgrow
    have htable := hs.table_grown idx
    have hjoins := coalesce_joins htable
    have hinactive := findInactiveSlot_some hslot
    have hcount : h.chunkCount + 1 ≤ 64 := by omega
    refine ⟨⟨hkeeps, rfl, fun _ ↦ hcount, fun i ↦ ?_, ?_⟩, by simp, fun _ ↦ ?_⟩
    · rw [hjoins.taken i]
      by_cases hi : i = idx
      · rw [hi, update_self, Taken, Taken, hinactive]
        simp
      · rw [update_of_ne hi]
    · have hupdate := bytes_update h.blocks (findInactiveSlot_lt hslot)
        ⟨true, h.nextVaddr, chunkSize, true⟩
      simp only [weight, hinactive, Bool.false_eq_true, if_true, if_false] at hupdate
      dsimp only
      rw [hjoins.bytes, Nat.mul_succ]
      omega
    · exact coalesce_coalesced htable (hkeeps.sound.nextVaddr_lt hcount)

section Search

variable {h : HeapArena} {size align : ℕ} {mapped : ℕ → Bool} {layout : Layout}

/-- **What a search comes back with**: a block that fits, or a heap that is joined, has no block
that fits and cannot grow. -/
def Found (size align : ℕ) (mapped : ℕ → Bool) (result : Option ℕ × HeapArena) : Prop :=
  match result with
  | (some idx, h) => findFreeBlock h.blocks size align = some idx
  | (none, h) => Coalesced h.blocks ∧ findFreeBlock h.blocks size align = none ∧
      (h.growHeap (mapped h.chunkCount)).1 = false

theorem growSearch_spec (mapped : ℕ → Bool) (hs : h.Sound) (hle : h.chunkCount ≤ 64)
    (hcoalesced : Coalesced h.blocks)
    (hnone : findFreeBlock h.blocks size align = none) :
    Reaches h (growSearch size align mapped h).2 ∧
      Found size align mapped (growSearch size align mapped h) := by
  fun_induction growSearch size align mapped h with
  | case1 h h' hgrow =>
    obtain ⟨hreaches, hsame, -⟩ := growHeap_reaches hs hle hgrow
    obtain rfl := hsame rfl
    exact ⟨hreaches, hcoalesced, hnone, by rw [hgrow]⟩
  | case2 h h' hgrow idx hfind => exact ⟨(growHeap_reaches hs hle hgrow).1, hfind⟩
  | case3 h h' hgrow hfind ih =>
    obtain ⟨hreaches, -, hjoined⟩ := growHeap_reaches hs hle hgrow
    obtain ⟨hrest, hfound⟩ :=
      ih hreaches.keeps.sound (hreaches.chunks hle) (hjoined rfl) hfind
    exact ⟨hreaches.trans hrest, hfound⟩

theorem search_spec (size align : ℕ) (mapped : ℕ → Bool) (hs : h.Sound) (hle : h.chunkCount ≤ 64) :
    Reaches h (h.search size align mapped).2 ∧
      Found size align mapped (h.search size align mapped) := by
  rw [search]
  rcases hfind : findFreeBlock h.blocks size align with - | idx
  · have hreaches := coalesce_reaches hs
    dsimp only
    rcases hfind' : findFreeBlock (coalesce h.blocks) size align with - | idx
    · obtain ⟨hrest, hfound⟩ := growSearch_spec mapped hreaches.keeps.sound (hreaches.chunks hle)
        (coalesce_coalesced hs.table (hs.nextVaddr_lt hle)) hfind'
      exact ⟨hreaches.trans hrest, hfound⟩
    · exact ⟨hreaches, hfind'⟩
  · exact ⟨.refl hs, hfind⟩

/-- **What an allocation can do**: it gives up on a heap that is joined, has no block that fits and
cannot grow, or it cuts a block that fits. -/
theorem allocate_cases (layout : Layout) (mapped : ℕ → Bool) (hs : h.Sound)
    (hle : h.chunkCount ≤ 64) (hinit : h.initialized) :
    let size := max layout.size layout.align
    (∃ h', h.search size layout.align mapped = (none, h') ∧ h.allocate layout mapped = (0, h') ∧
      Reaches h h' ∧ Coalesced h'.blocks ∧ findFreeBlock h'.blocks size layout.align = none ∧
      (h'.growHeap (mapped h'.chunkCount)).1 = false) ∨
    ∃ idx h', h.search size layout.align mapped = (some idx, h') ∧
      h.allocate layout mapped = h'.splitAndAllocate idx size layout.align ∧ Reaches h h' ∧
      findFreeBlock h'.blocks size layout.align = some idx := by
  intro size
  obtain ⟨hreaches, hfound⟩ := search_spec size layout.align mapped hs hle
  rw [allocate_eq hinit]
  rcases hsearch : h.search size layout.align mapped with ⟨- | idx, h'⟩
  · rw [hsearch] at hreaches hfound
    exact .inl ⟨h', rfl, rfl, hreaches, hfound⟩
  · rw [hsearch] at hreaches hfound
    exact .inr ⟨idx, h', rfl, rfl, hreaches, hfound⟩

/-- A block has room for so many bytes from an aligned address on. -/
def CanHold (b : BlockMeta) (size align : ℕ) : Prop :=
  ∃ addr, b.vaddr ≤ addr ∧ addr % align = 0 ∧ addr + size ≤ b.vaddr + b.size

theorem add_adjustment_le {vaddr align addr : ℕ} (hle : vaddr ≤ addr) (haddr : addr % align = 0) :
    vaddr + adjustment vaddr align ≤ addr := by
  rw [adjustment]
  split_ifs with hzero
  · exact hle
  · have hv := Nat.div_add_mod vaddr align
    have ha := Nat.div_add_mod addr align
    have hquot : vaddr / align < addr / align := by
      refine Nat.lt_of_le_of_ne (Nat.div_le_div_right hle) fun heq ↦ ?_
      rw [heq] at hv
      omega
    have hstep : align * (vaddr / align + 1) ≤ align * (addr / align) :=
      Nat.mul_le_mul_left _ hquot
    rw [Nat.mul_succ] at hstep
    omega

theorem fits_of_canHold {b : BlockMeta} (hactive : b.active) (hfree : b.isFree)
    (hsize : b.size < 2 ^ 64) (hhold : CanHold b size align) : Fits size align b := by
  obtain ⟨addr, hle, haddr, hend⟩ := hhold
  have hadjust := add_adjustment_le hle haddr
  have hrequired : checkedAdd 64 size (adjustment b.vaddr align) =
      some (size + adjustment b.vaddr align) := checkedAdd_eq_some.mpr ⟨by omega, rfl⟩
  simp only [Fits, hactive, hfree, hrequired, Bool.true_and, Bool.and_eq_true, decide_eq_true_eq,
    Option.any_some]
  omega

/-- The cut an allocation makes, if it makes one, has its entries. -/
def CutFits (h : HeapArena) (layout : Layout) (mapped : ℕ → Bool) : Prop :=
  let size := max layout.size layout.align
  match h.search size layout.align mapped with
  | (some idx, h') => Room h'.blocks (adjustment (h'.blocks idx).vaddr layout.align)
      ((h'.blocks idx).size - size - adjustment (h'.blocks idx).vaddr layout.align)
  | (none, _) => True

theorem findFreeBlock_lt {idx : ℕ} (hfind : findFreeBlock blocks size align = some idx) :
    idx < maxBlocks := by
  have := List.mem_of_find?_eq_some hfind
  simpa using this

/-- **The balance of an allocation**: it loses bytes exactly if its cut finds no entries. -/
theorem allocate_bytes (layout : Layout) (mapped : ℕ → Bool) (hs : h.Sound)
    (hle : h.chunkCount ≤ 64) (hinit : h.initialized) :
    let h' := (h.allocate layout mapped).2
    bytes h'.blocks + chunkSize * h.chunkCount ≤ bytes h.blocks + chunkSize * h'.chunkCount ∧
      (bytes h'.blocks + chunkSize * h.chunkCount = bytes h.blocks + chunkSize * h'.chunkCount ↔
        h.CutFits layout mapped) ∧
      h'.chunkCount ≤ 64 ∧ h'.initialized := by
  rw [CutFits]
  dsimp only
  obtain ⟨h', hsearch, hresult, hreaches, -⟩ | ⟨idx, h', hsearch, hresult, hreaches, hfind⟩ :=
    allocate_cases layout mapped hs hle hinit
  · have hbalanced := hreaches.balanced
    rw [hsearch, hresult]
    exact ⟨hbalanced.le, ⟨fun _ ↦ trivial, fun _ ↦ hbalanced⟩, hreaches.chunks hle,
      hreaches.initialized.trans hinit⟩
  · have hbalanced := hreaches.balanced
    obtain ⟨hactive, -, hroom⟩ := Fits.spec (findFreeBlock_some hfind)
    obtain ⟨hloss, hiff⟩ := bytes_cut (findFreeBlock_lt hfind) hactive hroom
    rw [hsearch, hresult, splitAndAllocate]
    refine ⟨?_, ?_, hreaches.chunks hle, hreaches.initialized.trans hinit⟩
    · dsimp only
      omega
    · dsimp only
      rw [← hiff]
      omega

/-- **What a null pointer means.** -/
theorem allocate_null {h' : HeapArena} (hs : h.Sound) (hle : h.chunkCount ≤ 64)
    (hinit : h.initialized) (hnull : h.allocate layout mapped = (0, h')) :
    Coalesced h'.blocks ∧
      (∀ i < maxBlocks, (h'.blocks i).active → (h'.blocks i).isFree →
        ¬CanHold (h'.blocks i) (max layout.size layout.align) layout.align) ∧
      (h'.growHeap (mapped h'.chunkCount)).1 = false := by
  obtain ⟨h₁, -, hresult, hreaches, hcoalesced, hnone, hrefused⟩ |
    ⟨idx, h₁, -, hresult, hreaches, hfind⟩ := allocate_cases layout mapped hs hle hinit
  · obtain rfl : h₁ = h' := (Prod.mk.inj (hresult.symm.trans hnull)).2
    refine ⟨hcoalesced, fun i hi hactive hfree hhold ↦ ?_, hrefused⟩
    have hwithin := (hreaches.keeps.sound.table.within i hactive).2.2
    have hbound := hreaches.keeps.sound.nextVaddr_lt (hreaches.chunks hle)
    have hfits := fits_of_canHold hactive hfree (by omega) hhold
    have hnot := List.find?_eq_none.mp hnone i (by simpa using hi)
    exact hnot hfits
  · -- A block that was found does not start at zero.
    obtain ⟨hactive, -, -⟩ := Fits.spec (findFreeBlock_some hfind)
    exact absurd (Prod.mk.inj (hresult.symm.trans hnull)).1
      (splitAndAllocate_ne_zero (max layout.size layout.align) layout.align hreaches.keeps.sound
        hactive)

theorem taken_of_taken_addFree {vaddr i : ℕ} (htaken : Taken (addFree blocks vaddr size i)) :
    Taken (blocks i) := by
  rcases addFree_cases blocks vaddr size i with hsame | ⟨hnew, -⟩
  · rwa [hsame] at htaken
  · rw [hnew] at htaken
    cases htaken.2

theorem taken_of_taken_cut {idx skip i : ℕ} (hne : i ≠ idx)
    (htaken : Taken (cut blocks idx skip size i)) : Taken (blocks i) := by
  rw [cut] at htaken
  have hupdate := taken_of_taken_addFree (taken_of_taken_addFree htaken)
  rwa [update_of_ne hne] at hupdate

theorem allocate_taken (hs : h.Sound) (hle : h.chunkCount ≤ 64) (hinit : h.initialized) {i : ℕ}
    (htaken : Taken ((h.allocate layout mapped).2.blocks i)) :
    Taken (h.blocks i) ∨ (h.allocate layout mapped).1 ≠ 0 ∧
      ((h.allocate layout mapped).2.blocks i).vaddr = (h.allocate layout mapped).1 := by
  obtain ⟨h₁, -, hresult, hreaches, -⟩ | ⟨idx, h₁, -, hresult, hreaches, hfind⟩ :=
    allocate_cases layout mapped hs hle hinit
  · rw [hresult] at htaken
    exact .inl ((hreaches.taken i).mp htaken)
  · rw [hresult] at htaken ⊢
    obtain ⟨hactive, hfree, hroom⟩ := Fits.spec (findFreeBlock_some hfind)
    by_cases hidx : i = idx
    · subst hidx
      obtain ⟨-, hblock⟩ := cut_spec hreaches.keeps.sound.table hactive hfree
        (Nat.lt_of_lt_of_le layout.align_pos (Nat.le_max_right layout.size _)) hroom
      refine .inr ⟨splitAndAllocate_ne_zero _ _ hreaches.keeps.sound hactive, ?_⟩
      exact congrArg BlockMeta.vaddr hblock
    · exact .inl ((hreaches.taken i).mp (taken_of_taken_cut hidx htaken))

theorem deallocate_cases (h : HeapArena) (ptr : ℕ) :
    (h.deallocate ptr = h ∧ ∀ i < maxBlocks, Taken (h.blocks i) → (h.blocks i).vaddr ≠ ptr) ∨
    ∃ k < maxBlocks, Taken (h.blocks k) ∧ (h.blocks k).vaddr = ptr ∧ h.deallocate ptr =
      { h with blocks := update h.blocks k { h.blocks k with isFree := true } } := by
  rw [deallocate]
  rcases hfind : (List.range' 0 maxBlocks).find? fun i ↦
      (h.blocks i).active && !(h.blocks i).isFree && decide ((h.blocks i).vaddr = ptr) with - | k
  · refine .inl ⟨rfl, fun i hi htaken hvaddr ↦ ?_⟩
    have hnot := List.find?_eq_none.mp hfind i (by simpa using hi)
    simp [htaken.1, htaken.2, hvaddr] at hnot
  · have hk := List.find?_some hfind
    simp only [Bool.and_eq_true, Bool.not_eq_true', decide_eq_true_eq] at hk
    have hlt := List.mem_of_find?_eq_some hfind
    exact .inr ⟨k, by simpa using hlt, hk.1, hk.2, rfl⟩

theorem deallocate_bytes (h : HeapArena) (ptr : ℕ) :
    bytes (h.deallocate ptr).blocks = bytes h.blocks := by
  rcases h.deallocate_cases ptr with ⟨hsame, -⟩ | ⟨k, hk, -, -, hfreed⟩
  · rw [hsame]
  · have hupdate := bytes_update h.blocks hk { h.blocks k with isFree := true }
    simp only [weight] at hupdate
    rw [hfreed]
    exact Nat.add_right_cancel hupdate

theorem deallocate_chunkCount (h : HeapArena) (ptr : ℕ) :
    (h.deallocate ptr).chunkCount = h.chunkCount := by
  rcases h.deallocate_cases ptr with ⟨hsame, -⟩ | ⟨k, -, -, -, hfreed⟩
  · rw [hsame]
  · rw [hfreed]

end Search

end HeapArena

end Gaxera

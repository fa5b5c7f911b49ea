import Gaxera.User.HeapBytes

/-!
# The bytes of the user heap over runs

Every block that is handed out belongs to a live allocation, so when nothing is live what the table
counts is free. A run keeps all bytes exactly if every cut in it finds its entries. One that takes
word after word fills the table, and its last cut loses the rest of the chunk.
-/

namespace Gaxera

open Function

/-- Ranges that are apart from each other, lie in an interval and are together as long as it leave
no point of it out. -/
theorem exists_range_of_sum_ge {ι : Type*} {s : Finset ι} (start len : ι → ℕ) {lo hi : ℕ}
    (hwithin : ∀ i ∈ s, lo ≤ start i ∧ start i + len i ≤ hi)
    (hapart : ∀ i ∈ s, ∀ j ∈ s, i ≠ j → start i + len i ≤ start j ∨ start j + len j ≤ start i)
    (hsum : hi - lo ≤ ∑ i ∈ s, len i) {x : ℕ} (hlow : lo ≤ x) (hhigh : x < hi) :
    ∃ i ∈ s, start i ≤ x ∧ x < start i + len i := by
  classical
  let range (i : ι) := Finset.Ico (start i) (start i + len i)
  have hcard : (s.biUnion range).card = ∑ i ∈ s, len i := by
    rw [Finset.card_biUnion]
    · exact Finset.sum_congr rfl fun i _ ↦ by simp [range]
    · intro i hi j hj hij
      rw [Function.onFun, Finset.disjoint_left]
      intro y hy hy'
      have := hapart i hi j hj hij
      simp only [range, Finset.mem_Ico] at hy hy'
      omega
  have hsubset : s.biUnion range ⊆ Finset.Ico lo hi := by
    intro y hy
    obtain ⟨i, hi, hy⟩ := Finset.mem_biUnion.mp hy
    have := hwithin i hi
    simp only [range, Finset.mem_Ico] at hy ⊢
    omega
  have hall : s.biUnion range = Finset.Ico lo hi :=
    Finset.eq_of_subset_of_card_le hsubset (by rwa [hcard, Nat.card_Ico])
  have hx : x ∈ s.biUnion range := by
    rw [hall, Finset.mem_Ico]
    exact ⟨hlow, hhigh⟩
  obtain ⟨i, hi, hx⟩ := Finset.mem_biUnion.mp hx
  exact ⟨i, hi, Finset.mem_Ico.mp hx⟩

namespace HeapArena

namespace HeapState

variable {s : HeapState}

/-- What runs keep beyond `Good`: every block that is handed out belongs to a live allocation. -/
structure Tracked (s : HeapState) : Prop where
  good : s.Good
  chunks : s.arena.chunkCount ≤ 64
  initialized : s.arena.initialized
  owned : ∀ i < maxBlocks, Taken (s.arena.blocks i) →
    ∃ a ∈ s.live, a.1 = (s.arena.blocks i).vaddr

theorem Tracked.alloc (ht : s.Tracked) (layout : Layout) (mapped : ℕ → Bool) :
    (s.step (.alloc layout mapped)).Tracked := by
  have hgood := ht.good.alloc layout mapped
  obtain ⟨hkeeps, -⟩ := allocate_spec ht.good.sound layout mapped
  obtain ⟨-, -, hchunks, hinit⟩ :=
    allocate_bytes layout mapped ht.good.sound ht.chunks ht.initialized
  have howned (i : ℕ) (hi : i < maxBlocks)
      (htaken : Taken ((s.arena.allocate layout mapped).2.blocks i)) :
      (∃ a ∈ s.live, a.1 = ((s.arena.allocate layout mapped).2.blocks i).vaddr) ∨
        (s.arena.allocate layout mapped).1 ≠ 0 ∧
          (s.arena.allocate layout mapped).1 =
            ((s.arena.allocate layout mapped).2.blocks i).vaddr := by
    rcases allocate_taken ht.good.sound ht.chunks ht.initialized htaken with hold | ⟨hne, hnew⟩
    · rw [hkeeps.taken i hold]
      exact .inl (ht.owned i hi hold)
    · exact .inr ⟨hne, hnew.symm⟩
  rw [HeapState.step] at hgood ⊢
  split_ifs at hgood ⊢ with hnull
  · exact ⟨hgood, hchunks, hinit, fun i hi htaken ↦
      (howned i hi htaken).resolve_right fun hnew ↦ hnew.1 hnull⟩
  · refine ⟨hgood, hchunks, hinit, fun i hi htaken ↦ ?_⟩
    rcases howned i hi htaken with ⟨a, ha, hvaddr⟩ | ⟨-, hvaddr⟩
    · exact ⟨a, List.mem_cons_of_mem _ ha, hvaddr⟩
    · exact ⟨_, List.mem_cons_self, hvaddr⟩

theorem Tracked.free (ht : s.Tracked) (k : ℕ) : (s.step (.free k)).Tracked := by
  have hgood := ht.good.free k
  rw [step] at hgood ⊢
  rcases hk : s.live[k]? with - | ⟨ptr, layout⟩
  · exact ht
  rw [hk] at hgood
  dsimp only at hgood ⊢
  -- A live allocation that is not the one freed stays in the list.
  have hrest {a : ℕ × Layout} (ha : a ∈ s.live) (hne : a.1 ≠ ptr) : a ∈ s.live.eraseIdx k := by
    obtain ⟨i, hi⟩ := List.mem_iff_getElem?.mp ha
    refine List.mem_eraseIdx_iff_getElem?.mpr ⟨i, ?_, hi⟩
    rintro rfl
    exact hne (congrArg Prod.fst (Option.mem_unique hi hk))
  rcases s.arena.deallocate_cases ptr with ⟨hsame, hnone⟩ | ⟨j, hj, htaken, hptr, hfreed⟩
  · rw [hsame] at hgood ⊢
    refine ⟨hgood, ht.chunks, ht.initialized, fun i hi htaken ↦ ?_⟩
    obtain ⟨a, ha, hvaddr⟩ := ht.owned i hi htaken
    exact ⟨a, hrest ha (hvaddr ▸ hnone i hi htaken), hvaddr⟩
  · rw [hfreed] at hgood ⊢
    refine ⟨hgood, ht.chunks, ht.initialized, fun i hi hitaken ↦ ?_⟩
    dsimp only at hitaken ⊢
    have hij : i ≠ j := by
      rintro rfl
      rw [update_self] at hitaken
      cases hitaken.2
    rw [update_of_ne hij] at hitaken ⊢
    obtain ⟨a, ha, hvaddr⟩ := ht.owned i hi hitaken
    refine ⟨a, hrest ha fun heq ↦ ?_, hvaddr⟩
    have hapart := ht.good.sound.table.apart i j hij hitaken.1 htaken.1
    have hpos := (ht.good.sound.table.within i hitaken.1).1
    have hpos' := (ht.good.sound.table.within j htaken.1).1
    simp only [Apart] at hapart
    omega

theorem Tracked.step (ht : s.Tracked) (op : HeapOp) : (s.step op).Tracked := by
  rcases op with ⟨layout, mapped⟩ | k
  · exact ht.alloc layout mapped
  · exact ht.free k

theorem start_tracked : Tracked ⟨new.init, []⟩ :=
  ⟨run_good [], Nat.zero_le 64, rfl, fun _ _ htaken ↦ absurd htaken.1 Bool.false_ne_true⟩

theorem run_tracked (ops : List HeapOp) : (run ops).Tracked :=
  List.foldlRecOn ops HeapState.step (motive := Tracked) start_tracked fun _ ht op _ ↦ ht.step op

/-- **Joining and growing end with the right result.** In every table a run can reach, joining is
over after at most so many rounds as the table has entries. It keeps the free bytes and the blocks
that are handed out, and leaves no two free neighbours. And an allocation, which always returns,
gives a null pointer only if by then the table is joined, no free block has room for the request at
an aligned address, and the heap cannot grow. -/
theorem coalescing_and_growth (ops : List HeapOp) :
    let h := (run ops).arena
    (∃ n ≤ maxBlocks, (coalesceRound (coalesceRounds n h.blocks)).2 = false ∧
      coalesce h.blocks = (coalesceRound (coalesceRounds n h.blocks)).1) ∧
    (∀ addr, FreeByte (coalesce h.blocks) addr ↔ FreeByte h.blocks addr) ∧
    (∀ i, (Taken (coalesce h.blocks i) ↔ Taken (h.blocks i)) ∧
      (Taken (h.blocks i) → coalesce h.blocks i = h.blocks i)) ∧
    Coalesced (coalesce h.blocks) ∧
    ∀ layout mapped h', h.allocate layout mapped = (0, h') →
      Coalesced h'.blocks ∧
      (∀ i < maxBlocks, (h'.blocks i).active → (h'.blocks i).isFree →
        ¬CanHold (h'.blocks i) (max layout.size layout.align) layout.align) ∧
      (h'.growHeap (mapped h'.chunkCount)).1 = false := by
  intro h
  have ht := run_tracked ops
  have hsound := ht.good.sound
  have hjoins := coalesce_joins hsound.table
  obtain ⟨n, hn, hrounds⟩ := exists_coalesceRounds h.blocks
  refine ⟨⟨n, hn.trans (activeCount_le _), hrounds⟩, hjoins.freeByte,
    fun i ↦ ⟨hjoins.taken i, (coalesce_spec hsound.table).taken i⟩,
    coalesce_coalesced hsound.table (hsound.nextVaddr_lt ht.chunks),
    fun layout mapped h' hnull ↦ ?_⟩
  exact allocate_null hsound ht.chunks ht.initialized hnull

/-! ## The balance of a run -/

/-- The cut of an operation, if it makes one, finds its entries. -/
def OpFits (s : HeapState) : HeapOp → Prop
  | .alloc layout mapped => s.arena.CutFits layout mapped
  | .free _ => True

/-- Every cut of a run finds its entries. -/
def CutsFit : HeapState → List HeapOp → Prop
  | _, [] => True
  | s, op :: ops => s.OpFits op ∧ CutsFit (s.step op) ops

/-- The bytes of the chunks. -/
def mappedBytes (s : HeapState) : ℕ := chunkSize * s.arena.chunkCount

theorem Tracked.step_bytes (ht : s.Tracked) (op : HeapOp) :
    bytes (s.step op).arena.blocks + s.mappedBytes ≤
        bytes s.arena.blocks + (s.step op).mappedBytes ∧
      (bytes (s.step op).arena.blocks + s.mappedBytes =
        bytes s.arena.blocks + (s.step op).mappedBytes ↔ s.OpFits op) := by
  rcases op with ⟨layout, mapped⟩ | k
  · obtain ⟨hle, hiff, -⟩ := allocate_bytes layout mapped ht.good.sound ht.chunks ht.initialized
    have harena : (s.step (.alloc layout mapped)).arena = (s.arena.allocate layout mapped).2 := by
      rw [HeapState.step]
      split_ifs <;> rfl
    rw [mappedBytes, mappedBytes, harena]
    exact ⟨hle, hiff⟩
  · have hsame : bytes (s.step (.free k)).arena.blocks = bytes s.arena.blocks ∧
        (s.step (.free k)).mappedBytes = s.mappedBytes := by
      rw [HeapState.step]
      rcases s.live[k]? with - | ⟨ptr, layout⟩
      · exact ⟨rfl, rfl⟩
      · refine ⟨deallocate_bytes s.arena ptr, ?_⟩
        rw [mappedBytes, mappedBytes]
        dsimp only
        rw [deallocate_chunkCount]
    rw [hsame.1, hsame.2]
    exact ⟨le_rfl, fun _ ↦ trivial, fun _ ↦ rfl⟩

/-- **Bytes are only ever lost**, and none are exactly if every cut finds its entries. -/
theorem Tracked.run_bytes (ht : s.Tracked) (ops : List HeapOp) :
    bytes (ops.foldl HeapState.step s).arena.blocks + s.mappedBytes ≤
        bytes s.arena.blocks + (ops.foldl HeapState.step s).mappedBytes ∧
      (bytes (ops.foldl HeapState.step s).arena.blocks + s.mappedBytes =
        bytes s.arena.blocks + (ops.foldl HeapState.step s).mappedBytes ↔ CutsFit s ops) := by
  induction ops generalizing s with
  | nil => exact ⟨le_rfl, fun _ ↦ trivial, fun _ ↦ rfl⟩
  | cons op ops ih =>
    obtain ⟨hle, hiff⟩ := ht.step_bytes op
    obtain ⟨hle', hiff'⟩ := ih (ht.step op)
    rw [List.foldl_cons, CutsFit, ← hiff, ← hiff']
    -- Both losses are zero if their sum is.
    omega

theorem bytes_new : bytes new.init.blocks = 0 :=
  Finset.sum_eq_zero fun _ _ ↦ rfl

/-- If no byte is lost and none is handed out, all of them are free. -/
theorem Tracked.freeByte (ht : s.Tracked) (hlive : s.live = [])
    (hbytes : bytes s.arena.blocks = s.mappedBytes) {addr : ℕ} (hlow : heapStartVaddr ≤ addr)
    (hhigh : addr < heapStartVaddr + s.mappedBytes) : FreeByte s.arena.blocks addr := by
  have hsound := ht.good.sound
  have hend : s.arena.nextVaddr = heapStartVaddr + s.mappedBytes := by
    rw [hsound.chunks, mappedBytes, Nat.mul_comm]
  let actives := (Finset.range maxBlocks).filter fun i ↦ (s.arena.blocks i).active
  have hactive {i : ℕ} (hi : i ∈ actives) : (s.arena.blocks i).active := (Finset.mem_filter.mp hi).2
  have hsum : ∑ i ∈ actives, (s.arena.blocks i).size = s.mappedBytes := by
    rw [Finset.sum_filter, ← hbytes]
    rfl
  obtain ⟨i, hi, haddr⟩ := exists_range_of_sum_ge (s := actives)
    (fun i ↦ (s.arena.blocks i).vaddr) (fun i ↦ (s.arena.blocks i).size)
    (fun i hi ↦ (hsound.table.within i (hactive hi)).2)
    (fun i hi j hj hij ↦ hsound.table.apart i j hij (hactive hi) (hactive hj))
    (by rw [hsum, hend]; omega) hlow (hend ▸ hhigh)
  have hlt := Finset.mem_range.mp (Finset.mem_filter.mp hi).1
  refine ⟨i, hlt, hactive hi, ?_, haddr⟩
  -- A block that is not free would belong to a live allocation.
  by_contra hfree
  obtain ⟨a, ha, -⟩ := ht.owned i hlt ⟨hactive hi, by simpa using hfree⟩
  rw [hlive] at ha
  cases ha

/-- **When the heap loses no bytes.** In every run, the sizes of the active blocks add up to the
bytes of the chunks exactly if every cut found entries of the table for what it left over. And if
they do, then once everything is freed and joined every byte of every chunk is free. -/
theorem heap_loses_no_bytes_iff (ops : List HeapOp) :
    (bytes (run ops).arena.blocks = chunkSize * (run ops).arena.chunkCount ↔
      CutsFit ⟨new.init, []⟩ ops) ∧
    (CutsFit ⟨new.init, []⟩ ops → (run ops).live = [] → ∀ addr, heapStartVaddr ≤ addr →
      addr < heapStartVaddr + chunkSize * (run ops).arena.chunkCount →
      FreeByte (coalesce (run ops).arena.blocks) addr) := by
  have ht := run_tracked ops
  have hiff : bytes (run ops).arena.blocks = (run ops).mappedBytes ↔
      CutsFit ⟨new.init, []⟩ ops := by
    have hrun := (start_tracked.run_bytes ops).2
    rw [bytes_new, Nat.zero_add] at hrun
    exact hrun
  refine ⟨hiff, fun hfit hlive addr hlow hhigh ↦ ?_⟩
  rw [(coalesce_joins ht.good.sound.table).freeByte]
  exact ht.freeByte hlive (hiff.mpr hfit) hlow hhigh

/-! ## A full table -/

theorem maxBlocks_eq : maxBlocks = 1024 := by
  unfold maxBlocks
  rfl

variable {n : ℕ}

theorem words_fit (hn : n < maxBlocks) : 8 * n + 8 ≤ chunkSize := by
  rw [maxBlocks_eq] at hn
  rw [chunkSize]
  omega

/-- The first entries are eight bytes each, one behind the other. -/
def packed (n : ℕ) : Blocks := fun i ↦
  if i < n then ⟨true, heapStartVaddr + 8 * i, 8, false⟩ else .empty

/-- And the next one is what is left of the first chunk. -/
def filled (n : ℕ) : Blocks :=
  update (packed n) n ⟨true, heapStartVaddr + 8 * n, chunkSize - 8 * n, true⟩

theorem packed_succ (n : ℕ) : update (filled n) n
    ⟨true, heapStartVaddr + 8 * n, 8, false⟩ = packed (n + 1) := by
  rw [filled, update_idem]
  ext1 i
  by_cases hi : i = n
  · rw [hi, update_self, packed, if_pos (Nat.lt_succ_self n)]
  · rw [update_of_ne hi, packed, packed]
    simp only [Nat.lt_succ_iff_lt_or_eq, hi, or_false]

theorem findInactiveSlot_packed (hn : n < maxBlocks) : findInactiveSlot (packed n) = some n := by
  rw [findInactiveSlot, List.find?_range'_eq_some]
  refine ⟨?_, ?_, fun j _ hj ↦ ?_⟩
  · rw [packed, if_neg (Nat.lt_irrefl n)]
    rfl
  · simpa using hn
  · rw [packed, if_pos hj]
    rfl

theorem findInactiveSlot_packed_full (hn : maxBlocks ≤ n) : findInactiveSlot (packed n) = none := by
  rw [findInactiveSlot, List.find?_range'_eq_none]
  intro i _ hi
  rw [packed, if_pos (by omega)]
  rfl

theorem filled_self (n : ℕ) :
    filled n n = ⟨true, heapStartVaddr + 8 * n, chunkSize - 8 * n, true⟩ :=
  update_self ..

theorem adjustment_filled (n : ℕ) : adjustment (heapStartVaddr + 8 * n) 8 = 0 := by
  rw [adjustment, if_pos]
  rw [heapStartVaddr]
  omega

theorem findFreeBlock_filled (hn : n < maxBlocks) : findFreeBlock (filled n) 8 8 = some n := by
  rw [findFreeBlock, List.find?_range'_eq_some]
  refine ⟨?_, by simpa using hn, fun j _ hj ↦ ?_⟩
  · have hsize : 8 ≤ chunkSize - 8 * n := Nat.le_sub_of_add_le' (words_fit hn)
    rw [filled_self, Fits, adjustment_filled]
    simp [checkedAdd, hsize]
  · -- The entries before it are taken.
    rw [filled, update_of_ne hj.ne, packed, if_pos hj, Fits]
    rfl

theorem addFree_zero (blocks : Blocks) (vaddr : ℕ) : addFree blocks vaddr 0 = blocks := by
  rw [addFree]
  split <;> rfl

theorem splitAndAllocate_filled {h : HeapArena} (hblocks : h.blocks = filled n) :
    h.splitAndAllocate n 8 8 = (heapStartVaddr + 8 * n,
      ⟨addFree (packed (n + 1)) (heapStartVaddr + 8 * (n + 1)) (chunkSize - 8 * (n + 1)),
        h.chunkCount, h.nextVaddr, h.initialized⟩) := by
  simp only [splitAndAllocate, cut, hblocks, filled_self, adjustment_filled, addFree_zero,
    Nat.add_zero, packed_succ]
  rw [Nat.sub_zero, Nat.sub_sub, ← Nat.mul_add_one]
  rfl

theorem addFree_packed (hn : n < maxBlocks) :
    addFree (packed n) (heapStartVaddr + 8 * n) (chunkSize - 8 * n) = filled n := by
  have hrest : 0 < chunkSize - 8 * n := by
    have := words_fit hn
    omega
  rw [addFree, findInactiveSlot_packed hn]
  exact if_pos hrest

theorem coalesce_of_sole {blocks : Blocks} {k : ℕ} (hsole : ∀ i, (blocks i).active → i = k) :
    coalesce blocks = blocks := by
  have hat (i : ℕ) : coalesceAt (blocks, false) i = (blocks, false) := by
    rw [coalesceAt]
    split_ifs with hskip
    · rfl
    obtain ⟨hactive, -⟩ := not_or.mp hskip
    split
    · rfl
    · refine List.foldl_fixed' (fun j ↦ if_neg ?_) _
      rintro ⟨hij, hactive', -⟩
      exact hij ((hsole i (not_not.mp hactive)).trans (hsole j hactive').symm)
  have hround : coalesceRound blocks = (blocks, false) := List.foldl_fixed' hat _
  rw [coalesce, hround]
  rfl

/-- The heap with this table in its first chunk. -/
def firstChunk (blocks : Blocks) : HeapArena := ⟨blocks, 1, heapStartVaddr + chunkSize, true⟩

/-- A word of eight bytes, from a system that maps what it is asked for. -/
def word : HeapOp := .alloc ⟨8, 8, ⟨3, rfl⟩⟩ fun _ ↦ true

theorem step_filled {s : HeapState} (hn : n < maxBlocks)
    (harena : s.arena = firstChunk (filled n)) : (s.step word).arena = firstChunk
      (addFree (packed (n + 1)) (heapStartVaddr + 8 * (n + 1)) (chunkSize - 8 * (n + 1))) := by
  have hresult : s.arena.allocate ⟨8, 8, ⟨3, rfl⟩⟩ (fun _ ↦ true) =
      (firstChunk (filled n)).splitAndAllocate n 8 8 := by
    rw [harena, allocate, if_neg (by exact Bool.false_ne_true)]
    have hfind : findFreeBlock (firstChunk (filled n)).blocks (max 8 8) 8 = some n :=
      findFreeBlock_filled hn
    simp only [hfind]
    rfl
  rw [word, step, hresult, splitAndAllocate_filled rfl]
  dsimp only
  split_ifs <;> rfl

theorem growHeap_new : (HeapArena.mk (packed 0) 0 heapStartVaddr true).growHeap true =
    (true, firstChunk (filled 0)) := by
  have hsole : ∀ i, (filled 0 i).active → i = 0 := by
    intro i hactive
    by_contra hi
    rw [filled, update_of_ne hi] at hactive
    cases hactive
  have hpos : 0 < maxBlocks := by
    rw [maxBlocks_eq]
    decide
  rw [growHeap, if_neg (by decide)]
  simp only [findInactiveSlot_packed hpos]
  rw [show update (packed 0) 0 ⟨true, heapStartVaddr, chunkSize, true⟩ = filled 0 from rfl,
    coalesce_of_sole hsole]
  rfl

theorem findFreeBlock_packed : findFreeBlock (packed 0) 8 8 = none := by
  rw [findFreeBlock, List.find?_range'_eq_none]
  intro i _ _
  rw [packed, if_neg (Nat.not_lt_zero i)]
  rfl

theorem coalesce_packed : coalesce (packed 0) = packed 0 := by
  refine coalesce_of_sole (k := 0) fun i hactive ↦ ?_
  rw [packed, if_neg (Nat.not_lt_zero i)] at hactive
  cases hactive

theorem growLoop_packed : growLoop 8 8 (fun _ ↦ true) ⟨packed 0, 0, heapStartVaddr, true⟩ =
    (firstChunk (filled 0)).splitAndAllocate 0 8 8 := by
  have hfind : findFreeBlock (firstChunk (filled 0)).blocks 8 8 = some 0 :=
    findFreeBlock_filled (by rw [maxBlocks_eq]; decide)
  rw [growLoop, growHeap_new]
  simp only [hfind]

/-- Where no block fits and there is nothing to join, the heap grows. -/
theorem allocate_of_grow {h : HeapArena} (hinit : h.initialized) {layout : Layout}
    {mapped : ℕ → Bool}
    (hnone : findFreeBlock h.blocks (max layout.size layout.align) layout.align = none)
    (hsame : coalesce h.blocks = h.blocks) : h.allocate layout mapped =
      growLoop (max layout.size layout.align) layout.align mapped h := by
  rw [allocate, if_neg (by rw [hinit]; exact Bool.false_ne_true)]
  simp only [hnone, hsame]

theorem allocate_packed : (HeapArena.mk (packed 0) 0 heapStartVaddr true).allocate
    ⟨8, 8, ⟨3, rfl⟩⟩ (fun _ ↦ true) = (firstChunk (filled 0)).splitAndAllocate 0 8 8 := by
  have hnone : findFreeBlock (packed 0) (max 8 8) 8 = none := by
    rw [Nat.max_self, findFreeBlock_packed]
  rw [allocate_of_grow rfl hnone coalesce_packed, Nat.max_self, growLoop_packed]

theorem step_new : step ⟨new.init, []⟩ word =
    ⟨firstChunk (filled 1), [(heapStartVaddr, ⟨8, 8, ⟨3, rfl⟩⟩)]⟩ := by
  have hnew : new.init = ⟨packed 0, 0, heapStartVaddr, true⟩ := rfl
  rw [word, step, hnew, allocate_packed, splitAndAllocate_filled rfl,
    addFree_packed (by rw [maxBlocks_eq]; decide)]
  exact if_neg (by decide)

theorem run_concat (ops : List HeapOp) (op : HeapOp) : run (ops ++ [op]) = (run ops).step op := by
  rw [run, List.foldl_append]
  rfl

/-- As long as there are entries, one word after the other is cut off the first chunk. -/
theorem run_words (hn : n + 1 < maxBlocks) :
    (run (List.replicate (n + 1) word)).arena = firstChunk (filled (n + 1)) := by
  induction n with
  | zero =>
    rw [List.replicate_succ', run_concat, List.replicate_zero, run, List.foldl_nil, step_new]
  | succ n ih =>
    rw [List.replicate_succ', run_concat, step_filled (Nat.lt_of_succ_lt hn) (ih (by omega)),
      addFree_packed hn]

theorem bytes_packed (hn : n ≤ maxBlocks) : bytes (packed n) = 8 * n := by
  have hweight (i : ℕ) : weight (packed n i) = if i < n then 8 else 0 := by
    rw [packed, weight]
    split_ifs <;> first | rfl | contradiction
  have hsmall : (Finset.range maxBlocks).filter (· < n) = Finset.range n := by
    ext i
    rw [Finset.mem_filter, Finset.mem_range, Finset.mem_range]
    omega
  rw [bytes, Finset.sum_congr rfl fun i _ ↦ hweight i, ← Finset.sum_filter, hsmall,
    Finset.sum_const, Finset.card_range]
  exact Nat.mul_comm n 8

/-- **The last word takes the chunk with it**: the entry that holds the rest of the chunk is the
last one, so there is none for what is left when a word is cut off it. -/
theorem full_table_loses_bytes : (run (List.replicate 1024 word)).arena.chunkCount = 1 ∧
    bytes (run (List.replicate 1024 word)).arena.blocks = 8192 := by
  have hlast : (run (List.replicate 1024 word)).arena = firstChunk (packed 1024) := by
    rw [List.replicate_succ', run_concat, step_filled (by rw [maxBlocks_eq]; decide)
      (run_words (by rw [maxBlocks_eq]; decide)), addFree,
      findInactiveSlot_packed_full maxBlocks_eq.le]
  rw [hlast]
  exact ⟨rfl, bytes_packed maxBlocks_eq.ge⟩

theorem bytes_filled (hn : n < maxBlocks) : bytes (filled n) = chunkSize := by
  have hempty : weight (packed n n) = 0 := by
    rw [packed, if_neg (Nat.lt_irrefl n)]
    rfl
  have hupdate := bytes_update (packed n) hn
    ⟨true, heapStartVaddr + 8 * n, chunkSize - 8 * n, true⟩
  have hrest : 8 * n ≤ chunkSize := Nat.le_of_add_right_le (words_fit hn)
  rw [← filled, hempty, bytes_packed hn.le] at hupdate
  exact hupdate.trans (Nat.add_sub_cancel' hrest)

/-- A word is taken and given back, and the byte where it was is free again. -/
theorem heap_loses_no_bytes_word : CutsFit ⟨new.init, []⟩ [word, .free 0] ∧
    (run [word, .free 0]).live = [] ∧
    FreeByte (coalesce (run [word, .free 0]).arena.blocks) heapStartVaddr := by
  have hrun : run [word, .free 0] =
      ⟨(firstChunk (filled 1)).deallocate heapStartVaddr, []⟩ := by
    rw [run, List.foldl_cons, step_new]
    rfl
  have hchunks : (run [word, .free 0]).arena.chunkCount = 1 := by
    rw [hrun, deallocate_chunkCount]
    rfl
  have hbytes : bytes (run [word, .free 0]).arena.blocks =
      chunkSize * (run [word, .free 0]).arena.chunkCount := by
    rw [hchunks, hrun, deallocate_bytes]
    exact bytes_filled (by rw [maxBlocks_eq]; decide)
  have hlive : (run [word, .free 0]).live = [] := congrArg live hrun
  obtain ⟨hiff, hfree⟩ := heap_loses_no_bytes_iff [word, .free 0]
  refine ⟨hiff.mp hbytes, hlive, hfree (hiff.mp hbytes) hlive _ le_rfl ?_⟩
  rw [hchunks]
  decide

end HeapState

end HeapArena

end Gaxera

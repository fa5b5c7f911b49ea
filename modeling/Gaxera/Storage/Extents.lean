import Gaxera.Storage.Objects

/-!
# The blocks that are given out

An allocation takes the first start, in the order of the device, that is a multiple of the erase
block and has enough free blocks behind it. The search does not try every such start: from a block
that is taken it goes on behind that block, and from there to the next multiple. No start is lost on
the way, since every one it leaves out has the taken block in its run.

So the bitmap is exactly the union of the extents that are out, as long as each of them is given
back at most once. Nobody gives back anything when a write fails half way, though: what was marked
by then stays marked, and no extent of any object covers it.
-/

namespace Gaxera

namespace ExtentAllocator

variable {a a' : ExtentAllocator} {extent : ExtentDescriptor}

/-- `erase_block_align.max(1)` -/
def align (a : ExtentAllocator) : ℕ := max a.eraseBlockAlign 1

theorem align_pos (a : ExtentAllocator) : 0 < a.align :=
  Nat.lt_of_lt_of_le Nat.one_pos (le_max_right _ _)

def freeExtent (a : ExtentAllocator) (extent : ExtentDescriptor) : ExtentAllocator :=
  { a with allocated := fun b ↦
      a.allocated b && !decide (extent.Covers b ∧ b < a.totalBlocks.toNat) }

/-! ## The search -/

/-- An aligned start with enough free blocks behind it, of which there is at least one. -/
structure FreeRun (a : ExtentAllocator) (start requested : ℕ) : Prop where
  nonempty : 0 < requested
  aligned : start % a.align = 0
  inside : start + requested ≤ a.totalBlocks.toNat
  free : ∀ b, start ≤ b → b < start + requested → a.allocated b = false

theorem nextMultiple_le {align curr start : ℕ} (hcurr : curr % align ≠ 0)
    (hstart : start % align = 0) (hle : curr ≤ start) : (curr / align + 1) * align ≤ start := by
  have hquot : curr / align ≤ start / align := Nat.div_le_div_right hle
  have hne : curr / align ≠ start / align := fun heq ↦ by
    have hc := Nat.div_add_mod curr align
    have hs := Nat.div_add_mod start align
    rw [heq] at hc
    omega
  calc (curr / align + 1) * align ≤ start / align * align := Nat.mul_le_mul_right _ (by omega)
    _ ≤ start := Nat.div_mul_le_self _ _

theorem lt_nextMultiple {align : ℕ} (halign : 0 < align) (curr : ℕ) :
    curr < (curr / align + 1) * align := by
  rw [Nat.mul_comm]
  exact Nat.lt_mul_div_succ curr halign

theorem search_succ (a : ExtentAllocator) (requested rounds curr : ℕ) :
    a.search requested (rounds + 1) curr =
      if a.totalBlocks.toNat < curr + requested then none
      else if curr % a.align ≠ 0 then
        a.search requested rounds ((curr / a.align + 1) * a.align)
      else match (List.range' curr requested).find? a.allocated with
        | some b => a.search requested rounds (b + 1)
        | none => some curr := rfl

/-- What one round of the search does: it ends behind the device, goes on to the next multiple, goes
on behind a taken block, or ends at a free run. -/
theorem search_succ_cases (a : ExtentAllocator) (requested rounds curr : ℕ) :
    (a.totalBlocks.toNat < curr + requested ∧ a.search requested (rounds + 1) curr = none) ∨
    (curr + requested ≤ a.totalBlocks.toNat ∧ curr % a.align ≠ 0 ∧
      a.search requested (rounds + 1) curr =
        a.search requested rounds ((curr / a.align + 1) * a.align)) ∨
    (curr + requested ≤ a.totalBlocks.toNat ∧ curr % a.align = 0 ∧
      ∃ b, curr ≤ b ∧ b < curr + requested ∧ a.allocated b = true ∧
        a.search requested (rounds + 1) curr = a.search requested rounds (b + 1)) ∨
    (curr + requested ≤ a.totalBlocks.toNat ∧ curr % a.align = 0 ∧
      (∀ b, curr ≤ b → b < curr + requested → a.allocated b = false) ∧
      a.search requested (rounds + 1) curr = some curr) := by
  rw [search_succ]
  by_cases hroom : a.totalBlocks.toNat < curr + requested
  · exact .inl ⟨hroom, if_pos hroom⟩
  rw [if_neg hroom]
  by_cases halign : curr % a.align = 0
  · rw [if_neg (not_not.mpr halign)]
    rcases hfind : (List.range' curr requested).find? a.allocated with - | b
    · refine .inr (.inr (.inr ⟨by omega, halign, fun b hb hb' ↦ ?_, rfl⟩))
      simpa using List.find?_eq_none.mp hfind b (List.mem_range'_1.mpr ⟨hb, hb'⟩)
    · have hmem := List.mem_range'_1.mp (List.mem_of_find?_eq_some hfind)
      exact .inr (.inr (.inl ⟨by omega, halign, b, hmem.1, hmem.2, List.find?_some hfind, rfl⟩))
  · exact .inr (.inl ⟨by omega, halign, if_pos halign⟩)

theorem search_some_aligned {requested rounds curr start : ℕ}
    (h : a.search requested rounds curr = some start) : start % a.align = 0 := by
  induction rounds generalizing curr with
  | zero => cases h
  | succ rounds ih =>
    obtain ⟨-, heq⟩ | ⟨-, -, heq⟩ | ⟨-, -, b, -, -, -, heq⟩ | ⟨-, halign, -, heq⟩ :=
      a.search_succ_cases requested rounds curr
    · rw [heq] at h
      cases h
    · exact ih (heq ▸ h)
    · exact ih (heq ▸ h)
    · rw [heq] at h
      exact Option.some.inj h ▸ halign

/-- **No start is lost.** If the rounds reach behind the device, a search without a result has seen
a taken block in every run. -/
theorem search_none {requested rounds curr start : ℕ}
    (hrounds : a.totalBlocks.toNat < curr + rounds) (h : a.search requested rounds curr = none)
    (hstart : curr ≤ start) : ¬a.FreeRun start requested := by
  intro hrun
  induction rounds generalizing curr with
  | zero =>
    have := hrun.inside
    omega
  | succ rounds ih =>
    obtain ⟨hbehind, -⟩ | ⟨-, hcurr, heq⟩ | ⟨-, -, b, hb, hb', htaken, heq⟩ | ⟨-, -, -, heq⟩ :=
      a.search_succ_cases requested rounds curr
    · have := hrun.inside
      omega
    · have hlt := lt_nextMultiple a.align_pos curr
      exact ih (by omega) (heq ▸ h) (nextMultiple_le hcurr hrun.aligned hstart)
    · -- A start up to the taken block has that block in its run.
      refine ih (by omega) (heq ▸ h) ?_
      by_contra hle
      have hfree := hrun.free b (by omega) (by omega)
      rw [htaken] at hfree
      cases hfree
    · rw [heq] at h
      cases h

/-- **The loop ends**: rounds that reach behind the device give one result, however many. -/
theorem search_rounds {requested rounds rounds' curr : ℕ}
    (h : a.totalBlocks.toNat < curr + rounds) (h' : a.totalBlocks.toNat < curr + rounds') :
    a.search requested rounds curr = a.search requested rounds' curr := by
  induction rounds generalizing curr rounds' with
  | zero =>
    rcases rounds' with - | rounds'
    · rfl
    · rw [search_succ, if_pos (by omega), search]
  | succ rounds ih =>
    rcases rounds' with - | rounds'
    · rw [search_succ, if_pos (by omega), search]
    · rw [search_succ, search_succ]
      split_ifs
      · rfl
      · have hlt := lt_nextMultiple a.align_pos curr
        exact ih (by omega) (by omega)
      · rcases hfind : (List.range' curr requested).find? a.allocated with - | b
        · rfl
        · have hmem := List.mem_range'_1.mp (List.mem_of_find?_eq_some hfind)
          exact ih (by omega) (by omega)

theorem allocateExtent_error_iff (a : ExtentAllocator) (requested : UInt32) :
    (∃ err, a.allocateExtent requested = .error err) ↔
      ¬∃ start, a.FreeRun start requested.toNat := by
  rw [allocateExtent]
  by_cases hzero : requested = 0
  · subst hzero
    refine ⟨?_, fun _ ↦ ⟨_, if_pos rfl⟩⟩
    rintro - ⟨start, hrun⟩
    exact absurd hrun.nonempty (by decide)
  rw [if_neg hzero]
  rcases hsearch : a.search requested.toNat (a.totalBlocks.toNat + 1) 0 with - | start
  · refine ⟨?_, fun _ ↦ ⟨_, rfl⟩⟩
    rintro - ⟨start, hrun⟩
    exact search_none (by omega) hsearch (Nat.zero_le start) hrun
  · refine ⟨by simp, fun h ↦ absurd ⟨start, ?_⟩ h⟩
    obtain ⟨hinside, hfree⟩ := search_some hsearch
    have hpos : requested.toNat ≠ 0 := fun h ↦ hzero (UInt32.toNat_inj.mp h)
    exact ⟨Nat.pos_of_ne_zero hpos, search_some_aligned hsearch, hinside, hfree⟩

theorem allocateExtent_freeRun {requested : UInt32}
    (h : a.allocateExtent requested = .ok (extent, a')) :
    a' = a.mark extent ∧ a.FreeRun extent.startBlock.toNat extent.numBlocks.toNat := by
  obtain ⟨rfl, hzero, hmark, hinside, hfree⟩ := allocateExtent_ok h
  have hpos : extent.numBlocks.toNat ≠ 0 := fun h ↦ hzero (UInt32.toNat_inj.mp h)
  refine ⟨hmark, Nat.pos_of_ne_zero hpos, ?_, hinside, fun b hb hb' ↦ hfree b ⟨hb, hb'⟩⟩
  rw [allocateExtent, if_neg hzero] at h
  rcases hsearch : a.search extent.numBlocks.toNat (a.totalBlocks.toNat + 1) 0 with - | start
  · rw [hsearch] at h
    cases h
  · rw [hsearch] at h
    have hroom := (search_some hsearch).1
    have hstart : (UInt64.ofNat start).toNat = start :=
      UInt64.toNat_ofNat_of_lt' (by have := a.totalBlocks.toNat_lt; show start < 2 ^ 64; omega)
    rw [← (Prod.mk.inj (Except.ok.inj h)).1, hstart]
    exact search_some_aligned hsearch

/-! ## The search on machine words -/

/-- The loop as the machine runs it, on 64-bit words that wrap around: `none` if it is not over
after so many rounds, and `some none` if it is over without a result. -/
def searchWords (a : ExtentAllocator) (requested : UInt32) : ℕ → UInt64 → Option (Option UInt64)
  | 0, _ => none
  | rounds + 1, curr =>
    let align := UInt64.ofNat a.align
    if a.totalBlocks < curr + requested.toUInt64 then some none
    else if curr % align ≠ 0 then a.searchWords requested rounds ((curr / align + 1) * align)
    else match (List.range' curr.toNat requested.toNat).find? a.allocated with
      | some b => a.searchWords requested rounds (UInt64.ofNat b + 1)
      | none => some (some curr)

/-- **The loop ends and nothing wraps around** on a device whose size leaves room for one more
request: the words run through the numbers. -/
theorem map_searchWords {requested : UInt32} {rounds : ℕ} {curr : UInt64}
    (hwords : a.totalBlocks.toNat + (2 ^ 32 - 1) < 2 ^ 64) (halign : a.align < 2 ^ 32)
    (hcurr : curr.toNat + requested.toNat < 2 ^ 64) (hpos : 0 < rounds)
    (hrounds : a.totalBlocks.toNat < curr.toNat + rounds)
    (hsome : curr.toNat % a.align = 0 ∨ 0 < requested.toNat) :
    (a.searchWords requested rounds curr).map (Option.map UInt64.toNat) =
      some (a.search requested.toNat rounds curr.toNat) := by
  have hreq := requested.toNat_lt
  have hword : (UInt64.ofNat a.align).toNat = a.align :=
    UInt64.toNat_ofNat_of_lt' (by show a.align < 2 ^ 64; omega)
  induction rounds generalizing curr with
  | zero => exact absurd hpos (Nat.lt_irrefl 0)
  | succ rounds ih =>
    have hsum : (curr + requested.toUInt64).toNat = curr.toNat + requested.toNat := by
      rw [UInt64.toNat_add, UInt32.toNat_toUInt64, Nat.mod_eq_of_lt hcurr]
    have hrest : curr % UInt64.ofNat a.align ≠ 0 ↔ curr.toNat % a.align ≠ 0 := by
      rw [Ne, ← UInt64.toNat_inj, UInt64.toNat_mod, hword]
      rfl
    rw [search_succ, searchWords]
    simp only [UInt64.lt_iff_toNat_lt, hsum, hrest]
    split_ifs with hroom hunaligned
    · rfl
    · have hrequested := hsome.resolve_left hunaligned
      have hlt := lt_nextMultiple a.align_pos curr.toNat
      have hle : (curr.toNat / a.align + 1) * a.align ≤ curr.toNat + a.align := by
        rw [Nat.succ_mul]
        exact Nat.add_le_add_right (Nat.div_mul_le_self _ _) _
      have hquot : curr.toNat / a.align ≤ curr.toNat := Nat.div_le_self _ _
      have hnext : ((curr / UInt64.ofNat a.align + 1) * UInt64.ofNat a.align).toNat =
          (curr.toNat / a.align + 1) * a.align := by
        rw [UInt64.toNat_mul, UInt64.toNat_add, UInt64.toNat_div, hword, UInt64.toNat_one,
          Nat.mod_eq_of_lt (a := curr.toNat / a.align + 1) (by omega), Nat.mod_eq_of_lt (by omega)]
      rw [ih (by omega) (by omega) (by omega) (.inr hrequested), hnext]
    · rcases hfind : (List.range' curr.toNat requested.toNat).find? a.allocated with - | b
      · rfl
      · have hmem := List.mem_range'_1.mp (List.mem_of_find?_eq_some hfind)
        have hbehind : (UInt64.ofNat b + 1).toNat = b + 1 := by
          rw [UInt64.toNat_add, UInt64.toNat_ofNat_of_lt' (by show b < 2 ^ 64; omega),
            UInt64.toNat_one, Nat.mod_eq_of_lt (by omega)]
        dsimp only
        rw [ih (by omega) (by omega) (by omega) (.inr (by omega)), hbehind]

end ExtentAllocator

/-! ## Extents that are out -/

/-- The allocator and the extents it has given out that were not given back. -/
structure ExtentSystem where
  allocator : ExtentAllocator
  live : List ExtentDescriptor

inductive ExtentOp
  | allocate (requested : UInt32)
  /-- Give back one of the extents that are out. -/
  | free (k : ℕ)

namespace ExtentSystem

def new (totalBlocks : UInt64) (eraseBlockAlign : UInt32) : ExtentSystem :=
  ⟨.new totalBlocks eraseBlockAlign.toNat, []⟩

def step (s : ExtentSystem) : ExtentOp → ExtentSystem
  | .allocate requested => match s.allocator.allocateExtent requested with
    | .ok (extent, allocator) => ⟨allocator, extent :: s.live⟩
    | .error _ => s
  | .free k => match s.live[k]? with
    | some extent => ⟨s.allocator.freeExtent extent, s.live.eraseIdx k⟩
    | none => s

def run (ops : List ExtentOp) (s : ExtentSystem) : ExtentSystem := ops.foldl step s

/-- Two extents share no block. -/
def Apart (extent other : ExtentDescriptor) : Prop := ∀ b, ¬(extent.Covers b ∧ other.Covers b)

/-- **The bitmap is the union of the extents that are out**, and these are apart from each other. -/
structure Good (totalBlocks : UInt64) (eraseBlockAlign : UInt32) (s : ExtentSystem) : Prop where
  total : s.allocator.totalBlocks = totalBlocks
  align : s.allocator.eraseBlockAlign = eraseBlockAlign.toNat
  apart : s.live.Pairwise Apart
  placed : ∀ extent ∈ s.live, extent.startBlock.toNat % s.allocator.align = 0 ∧
    extent.startBlock.toNat + extent.numBlocks.toNat ≤ totalBlocks.toNat
  allocated : ∀ b, s.allocator.allocated b = true ↔ ∃ extent ∈ s.live, extent.Covers b

variable {totalBlocks : UInt64} {eraseBlockAlign : UInt32} {s : ExtentSystem}

theorem new_good : (new totalBlocks eraseBlockAlign).Good totalBlocks eraseBlockAlign where
  total := rfl
  align := rfl
  apart := .nil
  placed := nofun
  allocated _ := ⟨fun h ↦ absurd h Bool.false_ne_true, nofun⟩

theorem Good.allocate (h : s.Good totalBlocks eraseBlockAlign) (requested : UInt32) :
    (s.step (.allocate requested)).Good totalBlocks eraseBlockAlign := by
  rw [step]
  rcases halloc : s.allocator.allocateExtent requested with err | ⟨extent, allocator⟩
  · exact h
  obtain ⟨rfl, hrun⟩ := ExtentAllocator.allocateExtent_freeRun halloc
  have hfree (b : ℕ) (hb : extent.Covers b) : s.allocator.allocated b = false :=
    hrun.free b hb.1 hb.2
  refine ⟨h.total, h.align, List.pairwise_cons.mpr ⟨?_, h.apart⟩, ?_, fun b ↦ ?_⟩
  · rintro other hother b ⟨hb, hb'⟩
    have htaken := (h.allocated b).mpr ⟨other, hother, hb'⟩
    rw [hfree b hb] at htaken
    cases htaken
  · intro other hother
    rcases List.mem_cons.mp hother with rfl | hother
    · exact ⟨hrun.aligned, h.total ▸ hrun.inside⟩
    · exact h.placed other hother
  · simp only [ExtentAllocator.mark, Bool.or_eq_true, decide_eq_true_eq, h.allocated b,
      List.mem_cons, exists_eq_or_imp]
    exact or_comm

theorem Good.apart_of_ne (h : s.Good totalBlocks eraseBlockAlign) {i k : ℕ} (hne : i ≠ k)
    {extent other : ExtentDescriptor} (hi : s.live[i]? = some extent)
    (hk : s.live[k]? = some other) : Apart extent other := by
  obtain ⟨hilt, rfl⟩ := List.getElem?_eq_some_iff.mp hi
  obtain ⟨hklt, rfl⟩ := List.getElem?_eq_some_iff.mp hk
  have hapart := List.pairwise_iff_getElem.mp h.apart
  rcases Nat.lt_or_gt_of_ne hne with hlt | hlt
  · exact hapart i k hilt hklt hlt
  · exact fun b hb ↦ hapart k i hklt hilt hlt b hb.symm

theorem Good.free (h : s.Good totalBlocks eraseBlockAlign) (k : ℕ) :
    (s.step (.free k)).Good totalBlocks eraseBlockAlign := by
  rw [step]
  rcases hk : s.live[k]? with - | extent
  · exact h
  have hmem : extent ∈ s.live := List.mem_of_getElem? hk
  refine ⟨h.total, h.align, h.apart.sublist (List.eraseIdx_sublist ..), fun other hother ↦
    h.placed other (List.mem_of_mem_eraseIdx hother), fun b ↦ ?_⟩
  have hinside (hb : extent.Covers b) : b < totalBlocks.toNat :=
    Nat.lt_of_lt_of_le hb.2 (h.placed extent hmem).2
  simp only [ExtentAllocator.freeExtent, h.total, Bool.and_eq_true, Bool.not_eq_true',
    decide_eq_false_iff_not, h.allocated b, List.mem_eraseIdx_iff_getElem?]
  constructor
  · rintro ⟨⟨other, hother, hb⟩, hnot⟩
    obtain ⟨i, hi⟩ := List.mem_iff_getElem?.mp hother
    refine ⟨other, ⟨i, ?_, hi⟩, hb⟩
    rintro rfl
    obtain rfl := Option.mem_unique hk hi
    exact hnot ⟨hb, hinside hb⟩
  · rintro ⟨other, ⟨i, hne, hi⟩, hb⟩
    exact ⟨⟨other, List.mem_of_getElem? hi, hb⟩, fun hboth ↦
      h.apart_of_ne hne hi hk b ⟨hb, hboth.1⟩⟩

theorem run_good (ops : List ExtentOp) (h : s.Good totalBlocks eraseBlockAlign) :
    (run ops s).Good totalBlocks eraseBlockAlign := by
  induction ops generalizing s with
  | nil => exact h
  | cons op ops ih =>
    apply ih
    rcases op with requested | k
    · exact h.allocate requested
    · exact h.free k

theorem Good.existsUnique (h : s.Good totalBlocks eraseBlockAlign) {b : ℕ}
    (hb : s.allocator.allocated b = true) : ∃! extent, extent ∈ s.live ∧ extent.Covers b := by
  obtain ⟨extent, hmem, hcovers⟩ := (h.allocated b).mp hb
  refine ⟨extent, ⟨hmem, hcovers⟩, fun other ⟨hother, hcovers'⟩ ↦ ?_⟩
  by_contra hne
  obtain ⟨i, hi⟩ := List.mem_iff_getElem?.mp hmem
  obtain ⟨k, hk⟩ := List.mem_iff_getElem?.mp hother
  have hik : i ≠ k := by
    rintro rfl
    exact hne (Option.mem_unique hk hi)
  exact h.apart_of_ne hik hi hk b ⟨hcovers, hcovers'⟩

/-- **The allocator is sound and complete.** In every run of allocations and of returns of extents
that are out, these are apart from each other, inside the device and aligned, and every taken block
belongs to exactly one of them. The loop of an allocation ends, on machine words, and with the
result it has on numbers; it fails only if there is no run of free blocks to take, and then nothing
has changed. -/
theorem extentAllocator_sound_complete (totalBlocks : UInt64) (eraseBlockAlign : UInt32)
    (hwords : totalBlocks.toNat + (2 ^ 32 - 1) < 2 ^ 64) (ops : List ExtentOp) :
    let s := run ops (new totalBlocks eraseBlockAlign)
    s.live.Pairwise Apart ∧
    (∀ extent ∈ s.live, extent.startBlock.toNat % max eraseBlockAlign.toNat 1 = 0 ∧
      extent.startBlock.toNat + extent.numBlocks.toNat ≤ totalBlocks.toNat) ∧
    (∀ b < totalBlocks.toNat, s.allocator.allocated b = true →
      ∃! extent, extent ∈ s.live ∧ extent.Covers b) ∧
    ∀ requested : UInt32,
      (∀ rounds, totalBlocks.toNat < rounds →
        s.allocator.search requested.toNat rounds 0 =
          s.allocator.search requested.toNat (totalBlocks.toNat + 1) 0 ∧
        (s.allocator.searchWords requested rounds 0).map (Option.map UInt64.toNat) =
          some (s.allocator.search requested.toNat rounds 0)) ∧
      ∀ err, s.allocator.allocateExtent requested = .error err →
        (¬∃ start, s.allocator.FreeRun start requested.toNat) ∧
          s.step (.allocate requested) = s := by
  intro s
  have h : s.Good totalBlocks eraseBlockAlign := run_good ops new_good
  have halign : s.allocator.align = max eraseBlockAlign.toNat 1 := by
    rw [ExtentAllocator.align, h.align]
  refine ⟨h.apart, fun extent hmem ↦ halign ▸ h.placed extent hmem,
    fun b _ hb ↦ h.existsUnique hb, fun requested ↦ ⟨fun rounds hrounds ↦ ⟨?_, ?_⟩, ?_⟩⟩
  · apply ExtentAllocator.search_rounds <;> rw [h.total] <;> omega
  · have hsmall := eraseBlockAlign.toNat_lt
    refine ExtentAllocator.map_searchWords (h.total ▸ hwords) (by omega) ?_ (by omega) ?_
      (.inl (Nat.zero_mod _))
    · exact Nat.lt_of_lt_of_le (by simpa using requested.toNat_lt) (by decide : 2 ^ 32 ≤ 2 ^ 64)
    · rw [h.total]
      simpa using hrounds
  · intro err herr
    refine ⟨(s.allocator.allocateExtent_error_iff requested).mp ⟨err, herr⟩, ?_⟩
    rw [step, herr]

/-- Two extents, one of them given back, and a request that finds its place. -/
theorem extentAllocator_sound_complete_small :
    let s := run [.allocate 3, .allocate 9, .free 1] (new 32 8)
    s.live = [⟨8, 9⟩] ∧ s.live.Pairwise Apart := by
  refine ⟨by decide, (extentAllocator_sound_complete 32 8 (by decide) _).1⟩

end ExtentSystem

/-! ## A write that fails -/

namespace GaxStorageEngine

/-- Nothing is committed and nothing given back. -/
structure Grown (e e' : GaxStorageEngine) : Prop where
  mgr : e'.superblockMgr = e.superblockMgr
  marks : ∀ b, e.extentAllocator.allocated b = true → e'.extentAllocator.allocated b = true

/-- A block was free before and is not any more. -/
structure Taken (e e' : GaxStorageEngine) : Prop extends Grown e e' where
  fresh : ∃ b, e.extentAllocator.allocated b = false ∧ e'.extentAllocator.allocated b = true

variable {e e' e'' : GaxStorageEngine}

theorem Grown.refl (e : GaxStorageEngine) : Grown e e := ⟨rfl, fun _ h ↦ h⟩

theorem Grown.trans (h : Grown e e') (h' : Grown e' e'') : Grown e e'' :=
  ⟨h'.mgr.trans h.mgr, fun b hb ↦ h'.marks b (h.marks b hb)⟩

theorem Taken.of_grown (h : Taken e e') (h' : Grown e' e'') : Taken e e'' := by
  obtain ⟨b, hfree, htaken⟩ := h.fresh
  exact ⟨h.toGrown.trans h', b, hfree, h'.marks b htaken⟩

theorem Taken.not_same (h : Taken e e') :
    ¬∀ b, e'.extentAllocator.allocated b = e.extentAllocator.allocated b := by
  intro hsame
  obtain ⟨b, hfree, htaken⟩ := h.fresh
  rw [hsame b, hfree] at htaken
  cases htaken

section Computations

variable {α β : Type} {m : EngineM α} {f : α → EngineM β} {requested : UInt32}

/-- The computation commits nothing and gives nothing back, whichever way it ends. -/
def Ends (m : EngineM α) (e : GaxStorageEngine) : Prop :=
  ∃ e', Grown e e' ∧ ((∃ a, m e = .ok a e') ∨ ∃ err, m e = .error err e')

/-- **The first request of a computation decides.** If there is no room for it, the computation
fails and nothing has happened; otherwise it has taken blocks, whichever way it ends. -/
def Spends (m : EngineM α) (requested : UInt32) (e : GaxStorageEngine) : Prop :=
  ((¬∃ start, e.extentAllocator.FreeRun start requested.toNat) ∧ ∃ err, m e = .error err e) ∨
  ((∃ start, e.extentAllocator.FreeRun start requested.toNat) ∧
    ∃ e', Taken e e' ∧ ((∃ a, m e = .ok a e') ∨ ∃ err, m e = .error err e'))

theorem ends_pure (a : α) (e : GaxStorageEngine) : Ends (pure a) e := ⟨e, .refl e, .inl ⟨a, rfl⟩⟩

theorem Spends.ends (h : Spends m requested e) : Ends m e := by
  obtain ⟨-, err, herr⟩ | ⟨-, e', htaken, hend⟩ := h
  · exact ⟨e, .refl e, .inr ⟨err, herr⟩⟩
  · exact ⟨e', htaken.toGrown, hend⟩

theorem Spends.bind (h : Spends m requested e) (hf : ∀ a e₁, Ends (f a) e₁) :
    Spends (m >>= f) requested e := by
  obtain ⟨hroom, err, herr⟩ | ⟨hroom, e₁, htaken, ⟨a, hok⟩ | ⟨err, herr⟩⟩ := h
  · exact .inl ⟨hroom, err, bind_error herr⟩
  · obtain ⟨e', hgrown, hend⟩ := hf a e₁
    refine .inr ⟨hroom, e', htaken.of_grown hgrown, ?_⟩
    rwa [bind_ok hok]
  · exact .inr ⟨hroom, e₁, htaken, .inr ⟨err, bind_error herr⟩⟩

end Computations

/-- The number of blocks that bytes take, as it is asked for. -/
def numBlocks (e : GaxStorageEngine) (bytes : List UInt8) : UInt32 :=
  UInt32.ofNat (divCeil bytes.length e.device.blockSize.toNat)

/-- Storing bytes takes their blocks before the device has accepted them. -/
theorem storeBytes_spends (bytes : List UInt8) (e : GaxStorageEngine) :
    Spends (storeBytes bytes) (e.numBlocks bytes) e := by
  have hiff := e.extentAllocator.allocateExtent_error_iff (e.numBlocks bytes)
  rw [Spends, storeBytes_eq]
  rw [numBlocks] at hiff ⊢
  rcases halloc : e.extentAllocator.allocateExtent
    (UInt32.ofNat (divCeil bytes.length e.device.blockSize.toNat)) with err | ⟨extent, a⟩
  · exact .inl ⟨hiff.mp ⟨err, halloc⟩, err, rfl⟩
  have hroom := not_not.mp (mt hiff.mpr (by rw [halloc]; exact nofun))
  obtain ⟨rfl, hrun⟩ := ExtentAllocator.allocateExtent_freeRun halloc
  have hcovers : extent.Covers extent.startBlock.toNat :=
    ⟨le_rfl, Nat.lt_add_of_pos_right hrun.nonempty⟩
  have htaken (d : StorageDevice) :
      Taken e ⟨d, e.superblockMgr, e.extentAllocator.mark extent⟩ := by
    refine ⟨⟨rfl, fun b hb ↦ by simp [ExtentAllocator.mark, hb]⟩, extent.startBlock.toNat,
      hrun.free _ hcovers.1 hcovers.2, ?_⟩
    simp [ExtentAllocator.mark, hcovers]
  rcases e.device.refuses 0 with - | err
  · exact .inr ⟨hroom, _, htaken _, .inl ⟨extent, rfl⟩⟩
  · exact .inr ⟨hroom, _, htaken _, .inr ⟨err, rfl⟩⟩

/-- What is asked for first: the blocks of the payload, or of the header if there is none. -/
def firstRequest (e : GaxStorageEngine) (w : ObjectWrite) : UInt32 :=
  if e.numBlocks w.payload = 0 then
    e.numBlocks (objectHeader w.objectId w.payload w.attributes []).serialize
  else e.numBlocks w.payload

theorem storePayload_eq (payload : List UInt8) (e : GaxStorageEngine) :
    storePayload payload e = (if e.numBlocks payload = 0 then pure []
      else (do pure [← storeBytes payload]) : EngineM _) e := rfl

theorem storeObject_spends (w : ObjectWrite) (e : GaxStorageEngine) :
    Spends (storeObject w.objectId w.payload w.attributes) (e.firstRequest w) e := by
  have hheader (extents : List ExtentDescriptor) (e₁ : GaxStorageEngine) :=
    (storeBytes_spends (objectHeader w.objectId w.payload w.attributes extents).serialize
      e₁).bind fun extent e₂ ↦
        ends_pure (objectHeader w.objectId w.payload w.attributes extents, extent) e₂
  rw [storeObject, firstRequest]
  have hpayload := storePayload_eq w.payload e
  split_ifs at hpayload ⊢ with hzero
  · rw [Spends, bind_ok hpayload]
    exact hheader [] e
  · have hstored : Spends (storePayload w.payload) (e.numBlocks w.payload) e := by
      rw [Spends, hpayload]
      exact (storeBytes_spends w.payload e).bind fun extent e₁ ↦ ends_pure [extent] e₁
    exact hstored.bind fun extents e₁ ↦ (hheader extents e₁).ends

theorem callDevice_ends (call : StorageDevice → Except StorageError StorageDevice)
    (e : GaxStorageEngine) : Ends (callDevice call) e := by
  rw [Ends, callDevice]
  rcases call e.device with err | device
  · exact ⟨{ e with device := e.device.next }, ⟨rfl, fun _ h ↦ h⟩, .inr ⟨err, rfl⟩⟩
  · exact ⟨{ e with device }, ⟨rfl, fun _ h ↦ h⟩, .inl ⟨(), rfl⟩⟩

theorem commitGeneration_error {newRootId : GaxObjectId} {err : StorageError}
    (h : commitGeneration newRootId e = .error err e') : Grown e e' := by
  change (callDevice _ >>= _ : EngineM Unit) e = _ at h
  obtain ⟨e₁, hgrown, ⟨u, hwrite⟩ | ⟨err₁, hwrite⟩⟩ := callDevice_ends (fun d ↦ d.writeBlocks
    (superblockWrite d.blockSize (e.nextSuperblock newRootId).activeIndex
      (e.nextSuperblock newRootId).activeSuperblock)) e
  · rw [bind_ok hwrite] at h
    obtain ⟨e₂, hgrown', ⟨u₁, hflush⟩ | ⟨err₂, hflush⟩⟩ := callDevice_ends (·.flushCache) e₁
    · rw [bind_ok hflush] at h
      cases h
    · rw [bind_error hflush] at h
      obtain ⟨-, rfl⟩ := EStateM.Result.error.inj h
      exact hgrown.trans hgrown'
  · rw [bind_error hwrite] at h
    obtain ⟨-, rfl⟩ := EStateM.Result.error.inj h
    exact hgrown

/-- A write that failed had either nothing to take, or has taken something. -/
theorem writeObject_error {w : ObjectWrite} {err : StorageError}
    (h : writeObject w.objectId w.payload w.attributes e = .error err e') :
    ((¬∃ start, e.extentAllocator.FreeRun start (e.firstRequest w).toNat) ∧ e' = e) ∨
    ((∃ start, e.extentAllocator.FreeRun start (e.firstRequest w).toNat) ∧ Taken e e') := by
  rw [writeObject] at h
  rcases storeObject_spends w e with
    ⟨hroom, err₁, hstore⟩ | ⟨hroom, e₁, htaken, ⟨⟨header, extent⟩, hstore⟩ | ⟨err₁, hstore⟩⟩
  · rw [bind_error hstore] at h
    exact .inl ⟨hroom, (EStateM.Result.error.inj h).2.symm⟩
  · rw [bind_ok hstore] at h
    change (commitGeneration w.objectId >>= fun _ ↦ pure header : EngineM _) e₁ = _ at h
    rcases hcommit : commitGeneration w.objectId e₁ with ⟨u, e₂⟩ | ⟨err₂, e₂⟩
    · rw [bind_ok hcommit] at h
      cases h
    · rw [bind_error hcommit] at h
      obtain ⟨-, rfl⟩ := EStateM.Result.error.inj h
      exact .inr ⟨hroom, htaken.of_grown (commitGeneration_error hcommit)⟩
  · rw [bind_error hstore] at h
    obtain ⟨-, rfl⟩ := EStateM.Result.error.inj h
    exact .inr ⟨hroom, htaken⟩

/-- **When a failed write leaks nothing.** The active superblock is never changed. The free blocks
are what they were exactly if there was no run for the first request of the call; then the engine is
what it was, the device included. -/
theorem failed_write_leaks_nothing_iff (e : GaxStorageEngine) (w : ObjectWrite)
    (err : StorageError) (e' : GaxStorageEngine)
    (h : writeObject w.objectId w.payload w.attributes e = .error err e') :
    e'.superblockMgr = e.superblockMgr ∧
    ((∀ b, e'.extentAllocator.allocated b = e.extentAllocator.allocated b) ↔
      ¬∃ start, e.extentAllocator.FreeRun start (e.firstRequest w).toNat) ∧
    ((¬∃ start, e.extentAllocator.FreeRun start (e.firstRequest w).toNat) → e' = e) := by
  rcases writeObject_error h with ⟨hroom, rfl⟩ | ⟨hroom, htaken⟩
  · exact ⟨rfl, ⟨fun _ ↦ hroom, fun _ _ ↦ rfl⟩, fun _ ↦ rfl⟩
  · exact ⟨htaken.mgr, ⟨fun hsame ↦ absurd hsame htaken.not_same, fun hnone ↦ absurd hroom hnone⟩,
      fun hnone ↦ absurd hroom hnone⟩

/-- Every block is taken. -/
def fullEngine : GaxStorageEngine :=
  ⟨blankDevice, ⟨firstSuperblock blankDevice (Vector.replicate 16 0), 0⟩, ⟨128, 8, fun _ ↦ true⟩⟩

theorem failed_write_leaks_nothing_full : ∃ err e',
    writeObject (objectOf [7]).objectId (objectOf [7]).payload (objectOf [7]).attributes
      fullEngine = .error err e' ∧ e'.superblockMgr = fullEngine.superblockMgr ∧
    e' = fullEngine := by
  have hfails : storeBytes [7] fullEngine = .error (.outOfBounds 1 128) fullEngine := by
    rw [storeBytes_eq]
    rfl
  have hnone : ¬∃ start, fullEngine.extentAllocator.FreeRun start
      (fullEngine.firstRequest (objectOf [7])).toNat := by
    rintro ⟨start, hrun⟩
    have hfree := hrun.free start le_rfl (Nat.lt_add_of_pos_right hrun.nonempty)
    cases hfree
  have hpayload : storePayload [7] fullEngine = .error (.outOfBounds 1 128) fullEngine := by
    rw [storePayload_eq, if_neg (by decide)]
    exact bind_error hfails
  have herr : writeObject (objectOf [7]).objectId (objectOf [7]).payload (objectOf [7]).attributes
      fullEngine = .error (.outOfBounds 1 128) fullEngine := bind_error (bind_error hpayload)
  obtain ⟨hmgr, -, hsame⟩ := failed_write_leaks_nothing_iff _ _ _ _ herr
  exact ⟨_, _, herr, hmgr, hsame hnone⟩

/-- Takes the three calls of formatting and refuses the next. -/
def refusingDevice : StorageDevice :=
  { blankDevice with refuses := fun n ↦ if n = 3 then some (.outOfBounds 0 128) else none }

/-- The block of the payload before and after a write that failed. -/
def markedByFailedWrite (start : Except StorageError GaxStorageEngine) (w : ObjectWrite) (b : ℕ) :
    Option (Bool × Bool) :=
  match start with
  | .error _ => none
  | .ok e => match writeObject w.objectId w.payload w.attributes e with
    | .ok _ _ => none
    | .error _ e' => some (e.extentAllocator.allocated b, e'.extentAllocator.allocated b)

/-- A device error on the payload's write leaves its block marked. -/
theorem failed_write_keeps_block :
    markedByFailedWrite (format refusingDevice (Vector.replicate 16 0)) (objectOf [7]) 0 =
      some (false, true) := by
  decide +kernel

end GaxStorageEngine

end Gaxera

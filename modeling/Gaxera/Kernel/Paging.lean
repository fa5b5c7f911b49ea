import Gaxera.Kernel.Physical
import Mathlib.Logic.Function.Basic

/-!
# Page tables

A user address space is a map from pages to entries, with the frames that hold its tables. The
kernel changes it one page at a time, through a mapper that is not part of the kernel: `Mapper`
takes that mapper as a parameter, with what it promises. Mapping a page either fills one empty
entry or changes no entry at all, and every table it needs is taken from the frame allocator;
unmapping empties one entry and returns no table.

The loops over a range are the kernel's own. Both mapping loops stop at the first page that cannot
be mapped and leave the pages before it in place, and both compute the address of a page by an
unchecked addition, which wraps. The addresses they compute go through constructors that stop the
kernel when the address is not canonical, or not physical; `panic` is that outcome.
-/

namespace Gaxera

open Function

/-! ## Entries and tables -/

structure PageFlags where
  userAccessible : Bool
  writable : Bool
  noExecute : Bool
  noCache : Bool
  writeThrough : Bool
deriving DecidableEq, Repr

structure PageEntry where
  frame : ℕ
  flags : PageFlags
deriving DecidableEq, Repr

/-- A table below the root: its level, its place among the tables of that level, and the frame it
is kept in. -/
structure TableFrame where
  level : ℕ
  index : ℕ
  frame : ℕ
deriving DecidableEq, Repr

/-- Which table of a level a page is reached through. -/
def tableIndex (level page : ℕ) : ℕ := page / 2 ^ (12 + 9 * level)

/-- Whether a table belongs to the lower half of the address space. -/
def TableFrame.isUser (t : TableFrame) : Bool := decide (t.index * 2 ^ (12 + 9 * t.level) < 2 ^ 47)

structure PageTables where
  pages : ℕ → Option PageEntry
  tables : List TableFrame

inductive PagingError
  | frameAllocationFailed
  | addressOverflow
  | userStackFrameAllocationFailed
deriving DecidableEq, Repr

/-- `USER_ADDRESS_MAX`, the last address of the lower half. -/
def userAddressMax : ℕ := 0x00007FFFFFFFFFFF

/-- The virtual addresses that can be constructed: bits 48 to 63 repeat bit 47. -/
def isCanonical (address : ℕ) : Bool :=
  decide (address < 2 ^ 47 ∨ (2 ^ 64 - 2 ^ 47 ≤ address ∧ address < 2 ^ 64))

/-! ## The mapper -/

namespace FrameAllocator

/-- `a'` is `a` after `frames` have been taken from it one after the other. -/
inductive Takes : FrameAllocator → List ℕ → FrameAllocator → Prop
  | nil (a : FrameAllocator) : Takes a [] a
  | cons {a a' b : FrameAllocator} {frame : ℕ} {frames : List ℕ}
      (head : a.allocate = (some frame, a')) (tail : Takes a' frames b) :
      Takes a (frame :: frames) b
  | refused {a a' : FrameAllocator} (refused : a.allocate = (none, a')) : Takes a [] a'

end FrameAllocator

/-- What the kernel uses to change one page, and what it relies on. -/
structure Mapper where
  /-- `map_to`: whether the page was mapped, and the tables and the allocator afterwards. -/
  mapTo : PageTables → FrameAllocator → ℕ → PageEntry → Bool × PageTables × FrameAllocator
  /-- `unmap`. -/
  unmap : PageTables → ℕ → PageTables
  /-- A page that is mapped was free, and no other entry changes. -/
  mapTo_true : ∀ {t t' a a' page entry}, mapTo t a page entry = (true, t', a') →
    t.pages page = none ∧ t'.pages = update t.pages page (some entry)
  /-- A failure changes no entry. -/
  mapTo_false : ∀ {t t' a a' page entry}, mapTo t a page entry = (false, t', a') →
    t'.pages = t.pages
  /-- The tables a page needs are taken from the allocator, and lie on the way to the page. -/
  mapTo_tables : ∀ {t t' a a' page entry b}, mapTo t a page entry = (b, t', a') →
    ∃ new : List TableFrame, t'.tables = new ++ t.tables
      ∧ (∀ x ∈ new, x.index = tableIndex x.level page)
      ∧ FrameAllocator.Takes a (new.map TableFrame.frame).reverse a'
  unmap_pages : ∀ t page, (unmap t page).pages = update t.pages page none
  unmap_tables : ∀ t page, (unmap t page).tables = t.tables

namespace Mapper

/-- One level of the walk: the table is there, or is taken from the allocator. -/
def ensureTable (level page : ℕ) (t : PageTables) (a : FrameAllocator) :
    Bool × PageTables × FrameAllocator :=
  if t.tables.any fun x ↦ decide (x.level = level ∧ x.index = tableIndex level page) then
    (true, t, a)
  else
    match a.allocate with
    | (none, a) => (false, t, a)
    | (some frame, a) =>
      (true, { t with tables := ⟨level, tableIndex level page, frame⟩ :: t.tables }, a)

def ensureTables (page : ℕ) :
    List ℕ → PageTables → FrameAllocator → Bool × PageTables × FrameAllocator
  | [], t, a => (true, t, a)
  | level :: levels, t, a =>
    match ensureTable level page t a with
    | (true, t, a) => ensureTables page levels t a
    | (false, t, a) => (false, t, a)

theorem ensureTables_spec {page : ℕ} {levels : List ℕ} {t t' : PageTables}
    {a a' : FrameAllocator} {b : Bool} (h : ensureTables page levels t a = (b, t', a')) :
    t'.pages = t.pages ∧ ∃ new : List TableFrame, t'.tables = new ++ t.tables
      ∧ (∀ x ∈ new, x.index = tableIndex x.level page)
      ∧ FrameAllocator.Takes a (new.map TableFrame.frame).reverse a' := by
  induction levels generalizing t a with
  | nil =>
    obtain ⟨-, rfl, rfl⟩ : _ ∧ t = t' ∧ a = a' := by simpa [ensureTables] using h
    exact ⟨rfl, [], rfl, by simp, .nil a⟩
  | cons level levels ih =>
    rw [ensureTables, ensureTable] at h
    split_ifs at h with hany
    · exact ih h
    · rcases hal : a.allocate with ⟨frame, a₁⟩
      rw [hal] at h
      cases frame with
      | none =>
        obtain ⟨-, rfl, rfl⟩ : _ ∧ t = t' ∧ a₁ = a' := by simpa using h
        exact ⟨rfl, [], rfl, by simp, .refused hal⟩
      | some frame =>
        -- The tables of the lower levels come in front of this one, and are taken behind it.
        obtain ⟨hpages, new, htables, hindex, htakes⟩ := ih h
        refine ⟨hpages, new ++ [⟨level, tableIndex level page, frame⟩], ?_, ?_, ?_⟩
        · rw [htables, List.append_assoc]
          rfl
        · intro x hx
          rcases List.mem_append.mp hx with hx | hx
          · exact hindex x hx
          · rw [List.mem_singleton.mp hx]
        · rw [List.map_append, List.reverse_append]
          exact .cons hal htakes

def walkMapTo (t : PageTables) (a : FrameAllocator) (page : ℕ) (entry : PageEntry) :
    Bool × PageTables × FrameAllocator :=
  match ensureTables page [3, 2, 1] t a with
  | (false, t, a) => (false, t, a)
  | (true, t, a) =>
    if (t.pages page).isSome then (false, t, a)
    else (true, { t with pages := update t.pages page (some entry) }, a)

/-- The mapper as it is documented: the tables on the way to a page are created where they are
missing, also when the page turns out to be taken. -/
def walk : Mapper where
  mapTo := walkMapTo
  unmap t page := { t with pages := update t.pages page none }
  mapTo_true := by
    intro t t' a a' page entry h
    rw [walkMapTo] at h
    rcases he : ensureTables page [3, 2, 1] t a with ⟨b, u, c⟩
    rw [he] at h
    cases b with
    | false => simp at h
    | true =>
      rw [← (ensureTables_spec he).1]
      dsimp only at h
      split_ifs at h with hp
      · simp at h
      · obtain ⟨rfl, -⟩ : _ = t' ∧ _ := by simpa using h
        exact ⟨by simpa using hp, rfl⟩
  mapTo_false := by
    intro t t' a a' page entry h
    rw [walkMapTo] at h
    rcases he : ensureTables page [3, 2, 1] t a with ⟨b, u, c⟩
    rw [he] at h
    rw [← (ensureTables_spec he).1]
    cases b with
    | false =>
      obtain ⟨rfl, -⟩ : u = t' ∧ _ := by simpa using h
      rfl
    | true =>
      dsimp only at h
      split_ifs at h with hp
      · obtain ⟨rfl, -⟩ : u = t' ∧ _ := by simpa using h
        rfl
      · simp at h
  mapTo_tables := by
    intro t t' a a' page entry b h
    rw [walkMapTo] at h
    rcases he : ensureTables page [3, 2, 1] t a with ⟨d, u, c⟩
    rw [he] at h
    obtain ⟨new, htables, hindex, htakes⟩ := (ensureTables_spec he).2
    refine ⟨new, ?_, hindex, ?_⟩
    · rw [← htables]
      grind
    · grind
  unmap_pages _ _ := rfl
  unmap_tables _ _ := rfl

end Mapper

/-! ## Loops over a range -/

/-- How a mapping loop ends. -/
inductive MapResult
  | ok
  | error (error : PagingError)
  | panic
deriving DecidableEq, Repr

/-- The end of a mapping loop, and the entries it installed, in order. -/
structure MapRun where
  result : MapResult
  tables : PageTables
  allocator : FrameAllocator
  installed : List (ℕ × PageEntry)

/-- The flags both mapping loops start from. -/
def userFlags (rights : Rights) : PageFlags where
  userAccessible := true
  writable := rights.contains Rights.write
  noExecute := !rights.contains Rights.execute
  noCache := false
  writeThrough := false

def cacheFlags (flags : PageFlags) : CachePolicy → PageFlags
  | .uncached => { flags with noCache := true, writeThrough := true }
  | .writeThrough => { flags with writeThrough := true }
  | .cached | .writeCombining => flags

section Loops

variable (mapper : Mapper)

/-- One turn of a mapping loop. -/
def mapPage (t : PageTables) (a : FrameAllocator) (virt : ℕ) (entry : PageEntry) :
    MapResult × PageTables × FrameAllocator :=
  if isCanonical virt = false then (.panic, t, a)
  else if virt % pageSize ≠ 0 then (.error .addressOverflow, t, a)
  else if 2 ^ 52 ≤ entry.frame then (.panic, t, a)
  else if entry.frame % pageSize ≠ 0 then (.error .addressOverflow, t, a)
  else
    match mapper.mapTo t a virt entry with
    | (true, t, a) => (.ok, t, a)
    | (false, t, a) => (.error .userStackFrameAllocationFailed, t, a)

def mapLoop : PageTables → FrameAllocator → List (ℕ × PageEntry) → MapRun
  | t, a, [] => ⟨.ok, t, a, []⟩
  | t, a, (virt, entry) :: rest =>
    match mapPage mapper t a virt entry with
    | (.ok, t, a) =>
      let r := mapLoop t a rest
      { r with installed := (virt, entry) :: r.installed }
    | (result, t, a) => ⟨result, t, a, []⟩

/-- The address of page `i` of a range, as the loops compute it. -/
def pageAt (virtualAddress i : ℕ) : ℕ := (virtualAddress + i * pageSize) % 2 ^ 64

/-- The pages `map_user_frames` goes through. -/
def userFrameEntries (virtualAddress : ℕ) (frames : List ℕ) (rights : Rights) :
    List (ℕ × PageEntry) :=
  frames.mapIdx fun i frame ↦ (pageAt virtualAddress i, ⟨frame, userFlags rights⟩)

/-- The pages `map_physical_mmio_range` goes through. -/
def mmioEntries (virtualAddress physStart size : ℕ) (rights : Rights)
    (cachePolicy : CachePolicy) : List (ℕ × PageEntry) :=
  (List.range (size / pageSize)).map fun i ↦
    (pageAt virtualAddress i, ⟨pageAt physStart i, cacheFlags (userFlags rights) cachePolicy⟩)

def unmapLoop : PageTables → List ℕ → Except PagingError Unit × PageTables
  | t, [] => (.ok (), t)
  | t, virt :: rest =>
    if userAddressMax ≤ virt then (.error .addressOverflow, t)
    else unmapLoop (mapper.unmap t (virt - virt % pageSize)) rest

/-- `unmap_user_range`. -/
def unmapUserRange (t : PageTables) (virtualAddress pageCount : ℕ) :
    Except PagingError Unit × PageTables :=
  unmapLoop mapper t ((List.range pageCount).map (pageAt virtualAddress))

end Loops

/-! ## Address spaces -/

/-- An address space: the frame of its root table, and what hangs below it. -/
structure AddressSpace where
  root : ℕ
  tables : PageTables

namespace AddressSpace

/-- `destroy`: the tables of the lower half go back, and last the root. -/
def destroy (s : AddressSpace) (a : FrameAllocator) : FrameAllocator :=
  a.deallocateFrames
    ((s.tables.tables.filter TableFrame.isUser).map TableFrame.frame ++ [s.root])

end AddressSpace

end Gaxera

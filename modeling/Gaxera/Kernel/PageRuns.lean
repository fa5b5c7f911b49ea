import Gaxera.Kernel.Paging

/-!
# What the loops over a range do

A mapping loop installs a prefix of the entries it is given, up to the one that fails. Every entry
it installs has a canonical address and a frame below `2 ^ 52`. The unmapping loop empties the pages
it is given, and on a range of the lower half it reaches all of them.

The addresses of a range are computed by additions that wrap. A range that starts in the lower half
cannot wrap as far as it is mapped, because the loop would have to pass an address that is not
canonical first.
-/

namespace Gaxera

variable {mapper : Mapper} {t t' : PageTables} {a a' : FrameAllocator} {virt : ℕ}
  {entry : PageEntry} {entries : List (ℕ × PageEntry)}

/-! ## One page -/

/-- What a page that was mapped has passed. -/
structure Mappable (virt : ℕ) (entry : PageEntry) : Prop where
  canonical : isCanonical virt = true
  aligned : virt % pageSize = 0
  frame_lt : entry.frame < 2 ^ 52
  frame_aligned : entry.frame % pageSize = 0

theorem mapPage_ok (h : mapPage mapper t a virt entry = (.ok, t', a')) :
    Mappable virt entry ∧ mapper.mapTo t a virt entry = (true, t', a') := by
  unfold mapPage at h
  split_ifs at h with hc hv hf hfa
  · simp at h
  · simp at h
  · simp at h
  · simp at h
  · refine ⟨⟨by simpa using hc, by simpa using hv, by omega, by simpa using hfa⟩, ?_⟩
    rcases hm : mapper.mapTo t a virt entry with ⟨b, u, c⟩
    rw [hm] at h
    cases b <;> simp_all

/-! ## Mapping loops -/

theorem mapLoop_cons_ok {rest : List (ℕ × PageEntry)}
    (h : mapPage mapper t a virt entry = (.ok, t', a')) :
    mapLoop mapper t a ((virt, entry) :: rest) =
      { mapLoop mapper t' a' rest with
        installed := (virt, entry) :: (mapLoop mapper t' a' rest).installed } := by
  rw [mapLoop, h]

theorem mapLoop_cons_not_ok {rest : List (ℕ × PageEntry)} {result : MapResult}
    (hr : result ≠ .ok) (h : mapPage mapper t a virt entry = (result, t', a')) :
    mapLoop mapper t a ((virt, entry) :: rest) = ⟨result, t', a', []⟩ := by
  rw [mapLoop, h]
  cases result <;> simp_all

/-- **Induction over a mapping loop**: it is at its end, or fails at the next page, or maps the
next page and goes on. -/
theorem mapLoop_induction (P : PageTables → FrameAllocator → List (ℕ × PageEntry) → MapRun → Prop)
    (nil : ∀ t a, P t a [] ⟨.ok, t, a, []⟩)
    (stop : ∀ t a virt entry rest result t' a', result ≠ .ok →
      mapPage mapper t a virt entry = (result, t', a') →
      P t a ((virt, entry) :: rest) ⟨result, t', a', []⟩)
    (step : ∀ t a virt entry rest t' a', mapPage mapper t a virt entry = (.ok, t', a') →
      P t' a' rest (mapLoop mapper t' a' rest) →
      P t a ((virt, entry) :: rest)
        { mapLoop mapper t' a' rest with
          installed := (virt, entry) :: (mapLoop mapper t' a' rest).installed }) :
    ∀ t a entries, P t a entries (mapLoop mapper t a entries) := by
  intro t a entries
  induction entries generalizing t a with
  | nil => exact nil t a
  | cons head rest ih =>
    obtain ⟨virt, entry⟩ := head
    rcases hp : mapPage mapper t a virt entry with ⟨result, t', a'⟩
    by_cases hr : result = .ok
    · subst hr
      rw [mapLoop_cons_ok hp]
      exact step t a virt entry rest t' a' hp (ih t' a')
    · rw [mapLoop_cons_not_ok hr hp]
      exact stop t a virt entry rest result t' a' hr hp

theorem mapLoop_installed_prefix (t : PageTables) (a : FrameAllocator)
    (entries : List (ℕ × PageEntry)) : (mapLoop mapper t a entries).installed <+: entries := by
  refine mapLoop_induction (fun _ _ entries r ↦ r.installed <+: entries) ?_ ?_ ?_ t a entries
  · exact fun _ _ ↦ List.nil_prefix
  · exact fun _ _ _ _ _ _ _ _ _ _ ↦ List.nil_prefix
  · exact fun _ _ _ _ _ _ _ _ ih ↦ List.cons_prefix_cons.mpr ⟨rfl, ih⟩

theorem mapLoop_mappable (t : PageTables) (a : FrameAllocator) (entries : List (ℕ × PageEntry)) :
    ∀ x ∈ (mapLoop mapper t a entries).installed, Mappable x.1 x.2 := by
  refine mapLoop_induction (fun _ _ _ r ↦ ∀ x ∈ r.installed, Mappable x.1 x.2) ?_ ?_ ?_ t a entries
  · simp
  · simp
  · intro t a virt entry rest t' a' hp ih x hx
    rcases List.mem_cons.mp hx with rfl | hx
    · exact (mapPage_ok hp).1
    · exact ih x hx

/-! ## Unmapping -/

/-- On pages of the lower half the loop goes through to its end, and empties them all. -/
theorem unmapLoop_eq_ok (t : PageTables) (pages : List ℕ)
    (h : ∀ page ∈ pages, page < userAddressMax ∧ page % pageSize = 0) :
    (unmapLoop mapper t pages).1 = .ok () ∧ ∀ page,
      (unmapLoop mapper t pages).2.pages page = if page ∈ pages then none else t.pages page := by
  induction pages generalizing t with
  | nil => exact ⟨rfl, fun page ↦ by simp [unmapLoop]⟩
  | cons head rest ih =>
    obtain ⟨hlt, hal⟩ := h head List.mem_cons_self
    obtain ⟨h₁, h₂⟩ := ih (mapper.unmap t (head - head % pageSize))
      fun page hpage ↦ h page (List.mem_cons_of_mem _ hpage)
    rw [unmapLoop, if_neg (by omega)]
    refine ⟨h₁, fun page ↦ ?_⟩
    rw [h₂, mapper.unmap_pages, hal, Nat.sub_zero, Function.update_apply]
    by_cases hp : page = head <;> by_cases hr : page ∈ rest <;> simp [hp, hr]

/-! ## The addresses of a range -/

theorem pageAt_zero {address : ℕ} (h : address < 2 ^ 64) : pageAt address 0 = address := by
  rw [pageAt, Nat.zero_mul, Nat.add_zero, Nat.mod_eq_of_lt h]

theorem pageAt_of_lt {address i : ℕ} (h : address + i * pageSize < 2 ^ 64) :
    pageAt address i = address + i * pageSize := Nat.mod_eq_of_lt h

theorem userFrameEntries_getElem? {virtualAddress i : ℕ} {frames : List ℕ} {rights : Rights}
    {x : ℕ × PageEntry} (h : (userFrameEntries virtualAddress frames rights)[i]? = some x) :
    x.1 = pageAt virtualAddress i ∧ x.2.flags = userFlags rights := by
  simp only [userFrameEntries, List.getElem?_mapIdx, Option.map_eq_some_iff] at h
  obtain ⟨frame, -, rfl⟩ := h
  exact ⟨rfl, rfl⟩

theorem mmioEntries_getElem? {virtualAddress physStart size i : ℕ} {rights : Rights}
    {cachePolicy : CachePolicy} {x : ℕ × PageEntry}
    (h : (mmioEntries virtualAddress physStart size rights cachePolicy)[i]? = some x) :
    x = (pageAt virtualAddress i,
      ⟨pageAt physStart i, cacheFlags (userFlags rights) cachePolicy⟩) := by
  simp only [mmioEntries, List.getElem?_map, Option.map_eq_some_iff] at h
  obtain ⟨j, hj, rfl⟩ := h
  obtain ⟨hlt, rfl⟩ := List.getElem?_eq_some_iff.mp hj
  rw [List.getElem_range]

/-- **A range cannot wrap as far as it is mapped.** From a start in the lower half the next page is
again in the lower half, or is the first address that is not canonical. -/
theorem pageAt_of_canonical {virtualAddress : ℕ} (hlt : virtualAddress < 2 ^ 47)
    (hal : virtualAddress % pageSize = 0) (i : ℕ)
    (h : ∀ j ≤ i, isCanonical (pageAt virtualAddress j) = true) :
    pageAt virtualAddress i = virtualAddress + i * pageSize
      ∧ virtualAddress + i * pageSize < 2 ^ 47 := by
  induction i with
  | zero => exact ⟨pageAt_zero (by omega), by omega⟩
  | succ i ih =>
    obtain ⟨-, hi⟩ := ih fun j hj ↦ h j (by omega)
    have hle : virtualAddress + (i + 1) * pageSize ≤ 2 ^ 47 := by
      unfold pageSize at hal hi ⊢
      omega
    have heq : pageAt virtualAddress (i + 1) = virtualAddress + (i + 1) * pageSize :=
      pageAt_of_lt (by omega)
    have hc := h (i + 1) (Nat.le_refl _)
    rw [heq, isCanonical, decide_eq_true_iff] at hc
    exact ⟨heq, by omega⟩

/-- Physical addresses that are below `2 ^ 52` all along have not wrapped either. -/
theorem pageAt_of_frame_lt {physStart : ℕ} (hlt : physStart < 2 ^ 64) (i : ℕ)
    (h : ∀ j ≤ i, pageAt physStart j < 2 ^ 52) :
    pageAt physStart i = physStart + i * pageSize ∧ physStart + i * pageSize < 2 ^ 52 := by
  induction i with
  | zero =>
    have h0 := h 0 (Nat.le_refl _)
    rw [pageAt_zero hlt] at h0 ⊢
    exact ⟨by omega, by omega⟩
  | succ i ih =>
    obtain ⟨-, hi⟩ := ih fun j hj ↦ h j (by omega)
    have hle : physStart + (i + 1) * pageSize < 2 ^ 64 := by
      rw [Nat.succ_mul, ← Nat.add_assoc]
      exact Nat.lt_of_lt_of_le (Nat.add_lt_add_right hi pageSize) (by decide)
    have hc := h (i + 1) (Nat.le_refl _)
    rw [pageAt_of_lt hle] at hc ⊢
    exact ⟨rfl, hc⟩

end Gaxera

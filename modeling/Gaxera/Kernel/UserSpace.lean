import Gaxera.Kernel.MapMemory
import Gaxera.Kernel.PageRuns

/-!
# User mappings and user space

Which requests to map memory keep to the lower half of the address space and to pages that are not
both writable and executable. The three sources differ in what they check before the first page is
installed: a memory object checks the end of the range and refuses writable executable pages, a
mapping checks the end of the range only, and a contiguous frame checks neither. What is missing on
a path is exactly what a request has to bring along, which is `KeepsToUserSpace`.

The range needs no check of its own to be free of wrap-around: from a start in the lower half the
loop would have to pass an address that is not canonical, and it stops there.
-/

namespace Gaxera

namespace Kernel

variable {mapper : Mapper} {k : Kernel} {q : MapRequest} {cspace : CapabilitySpace}
  {aspace : ObjectId}

/-! ## What a call installs -/

/-- The entries a call installs are those of one mapping loop over `entries`, or none. -/
def InstallsFrom (mapper : Mapper) (entries installed : List (ℕ × PageEntry)) : Prop :=
  installed = [] ∨ ∃ t a, installed = (mapLoop mapper t a entries).installed

theorem mapEntries_eq_some {entries : List (ℕ × PageEntry)} {run : MapRun} {k' : Kernel}
    (h : k.mapEntries mapper aspace entries = (some run, k')) :
    ∃ s, k.addressSpaces.get aspace = some s ∧ run = mapLoop mapper s.tables k.physical entries
      ∧ k' = { k with
        physical := run.allocator
        addressSpaces := k.addressSpaces.modify aspace ({ · with tables := run.tables }) } := by
  unfold mapEntries at h
  split at h
  · simp at h
  · next s hs =>
    obtain ⟨rfl, rfl⟩ : _ = run ∧ _ = k' := by simpa using h
    exact ⟨s, hs, rfl, rfl⟩

theorem mapPinned_installsFrom (p : MemoryPlan) (frames : List ℕ) :
    InstallsFrom mapper (userFrameEntries p.virtualAddress frames p.requestedRights)
      (k.mapPinned mapper p frames).installed := by
  unfold mapPinned
  split
  · exact .inl rfl
  · next mappingId k₁ _ =>
    split
    · exact .inl rfl
    · next run k₂ hrun =>
      obtain ⟨s, -, rfl, -⟩ := mapEntries_eq_some hrun
      split
      · exact .inr ⟨_, _, rfl⟩
      · exact .inr ⟨_, _, rfl⟩
      · exact .inr ⟨_, _, rfl⟩

theorem mapUnderPin_installed (p : MemoryPlan) (frames : List ℕ) :
    (k.mapUnderPin mapper p frames).installed = (k.mapPinned mapper p frames).installed := by
  unfold mapUnderPin
  dsimp only
  split <;> rfl

theorem mapMemoryPlan_installsFrom (p : MemoryPlan) (reserved : Bool) (m : MemoryObject) :
    ∃ frames, InstallsFrom mapper (userFrameEntries p.virtualAddress frames p.requestedRights)
      (k.mapMemoryPlan mapper p reserved m).installed := by
  unfold mapMemoryPlan
  split
  · exact ⟨[], .inl rfl⟩
  · dsimp only
    split
    · exact ⟨[], .inl rfl⟩
    · next frames _ =>
      split
      · rw [mapUnderPin_installed]
        exact ⟨frames, mapPinned_installsFrom p frames⟩
      · exact ⟨[], .inl rfl⟩

/-- **A memory object** is checked for the end of the range and for writable executable pages. -/
theorem mapMemoryObject_installed (info : CapabilityInfo) :
    (k.mapMemoryObject mapper q cspace aspace info).installed = []
      ∨ q.virtualAddress.toNat < userAddressMax
        ∧ ¬ (q.requestedRights.contains Rights.write = true
          ∧ q.requestedRights.contains Rights.execute = true)
        ∧ ∃ frames, InstallsFrom mapper
          (userFrameEntries q.virtualAddress.toNat frames q.requestedRights)
          (k.mapMemoryObject mapper q cspace aspace info).installed := by
  unfold mapMemoryObject
  split
  · exact .inl rfl
  · next p m hplan =>
    have hchecked := memoryPlan_eq_some hplan
    have hpositive := hchecked.length_ne_zero
    have hrange := hchecked.range
    rw [hchecked.plan] at hpositive hrange ⊢
    dsimp only at hpositive hrange
    exact .inr ⟨by omega, hchecked.exclusive, mapMemoryPlan_installsFrom _ _ _⟩

theorem mapPhysical_installsFrom (p : PhysicalPlan) (missing collision : Status)
    (next : Kernel → Outcome × Kernel) :
    InstallsFrom mapper
      (mmioEntries p.virtualAddress p.physical p.size p.requestedRights p.cachePolicy)
      (k.mapPhysical mapper p missing collision next).installed := by
  unfold mapPhysical
  split
  · exact .inl rfl
  · next run k₂ hrun =>
    obtain ⟨s, -, rfl, -⟩ := mapEntries_eq_some hrun
    split
    · exact .inr ⟨_, _, rfl⟩
    · exact .inr ⟨_, _, rfl⟩
    · exact .inr ⟨_, _, rfl⟩

/-- What the two physical sources install goes through one kind of entries. -/
def InstallsPhysical (mapper : Mapper) (q : MapRequest) (installed : List (ℕ × PageEntry)) :
    Prop :=
  ∃ physStart size cachePolicy, InstallsFrom mapper
    (mmioEntries q.virtualAddress.toNat physStart size q.requestedRights cachePolicy) installed

/-- **A mapping** is checked for the end of the range. -/
theorem mapMapping_installed (id : ObjectId) :
    (k.mapMapping mapper q cspace aspace id).installed = []
      ∨ q.virtualAddress.toNat ≤ userAddressMax
        ∧ InstallsPhysical mapper q (k.mapMapping mapper q cspace aspace id).installed := by
  unfold mapMapping
  split
  · exact .inl rfl
  · split
    · exact .inl rfl
    · split
      · exact .inl rfl
      · split
        · exact .inl rfl
        · split
          · exact .inl rfl
          · next hrange =>
            split
            · exact .inl rfl
            · refine .inr ⟨?_, _, _, _, mapPhysical_installsFrom _ _ _ _⟩
              have := sumWithin_iff.mp (by simpa using hrange)
              omega

/-- **A contiguous frame** is checked for neither. -/
theorem mapContiguousFrame_installed (id : ObjectId) :
    InstallsPhysical mapper q (k.mapContiguousFrame mapper q cspace aspace id).installed := by
  unfold mapContiguousFrame
  split
  · exact ⟨0, 0, .cached, .inl rfl⟩
  · split
    · exact ⟨0, 0, .cached, .inl rfl⟩
    · split
      · exact ⟨0, 0, .cached, .inl rfl⟩
      · dsimp only
        split
        · exact ⟨0, 0, .cached, .inl rfl⟩
        · split
          · exact ⟨0, 0, .cached, .inl rfl⟩
          · exact ⟨_, _, _, mapPhysical_installsFrom _ _ _ _⟩

/-! ## Where the entries lie -/

namespace InstallsFrom

variable {entries installed : List (ℕ × PageEntry)} {x : ℕ × PageEntry} {i : ℕ}

theorem getElem? (h : InstallsFrom mapper entries installed) (hx : installed[i]? = some x) :
    entries[i]? = some x ∧ Mappable x.1 x.2 := by
  rcases h with rfl | ⟨t, a, rfl⟩
  · simp at hx
  · obtain ⟨rest, hrest⟩ : (mapLoop mapper t a entries).installed <+: entries :=
      mapLoop_installed_prefix t a entries
    refine ⟨?_, mapLoop_mappable t a entries x (List.mem_of_getElem? hx)⟩
    rw [← hrest, List.getElem?_append_left (List.getElem?_eq_some_iff.mp hx).1, hx]

theorem exists_of_le {j : ℕ} (hx : installed[i]? = some x) (hj : j ≤ i) :
    ∃ y, installed[j]? = some y := by
  have hlt := (List.getElem?_eq_some_iff.mp hx).1
  exact ⟨installed[j], List.getElem?_eq_getElem (by omega)⟩

/-- From a start in the lower half, what is installed lies one page behind the other in the lower
half. -/
theorem page_eq (h : InstallsFrom mapper entries installed) {virtualAddress : ℕ}
    (hentries : ∀ i x, entries[i]? = some x → x.1 = pageAt virtualAddress i)
    (hlt : virtualAddress < 2 ^ 47) (hal : virtualAddress % pageSize = 0)
    (hx : installed[i]? = some x) :
    x.1 = virtualAddress + i * pageSize ∧ x.1 + (pageSize - 1) ≤ userAddressMax := by
  have hcanonical : ∀ j ≤ i, isCanonical (pageAt virtualAddress j) = true := by
    intro j hj
    obtain ⟨y, hy⟩ := exists_of_le hx hj
    obtain ⟨hentry, hmap⟩ := h.getElem? hy
    rw [← hentries j y hentry]
    exact hmap.canonical
  obtain ⟨heq, hend⟩ := pageAt_of_canonical hlt hal i hcanonical
  rw [hentries i x (h.getElem? hx).1, heq]
  refine ⟨rfl, ?_⟩
  unfold userAddressMax pageSize at *
  omega

end InstallsFrom

/-! ## The property of a call -/

/-- The entries a call installs are those of consecutive pages, without wrap-around, at or below
the end of user space, and none of them is both writable and executable. Where the frames are
computed from a physical start address, they do not wrap either. -/
structure StaysInUserSpace (virtualAddress : ℕ) (physical : Bool)
    (installed : List (ℕ × PageEntry)) : Prop where
  page_eq : ∀ i x, installed[i]? = some x → x.1 = virtualAddress + i * pageSize
  below : ∀ x ∈ installed, x.1 + (pageSize - 1) ≤ userAddressMax
  exclusive : ∀ x ∈ installed, ¬ (x.2.flags.writable = true ∧ x.2.flags.noExecute = false)
  frame_eq : physical = true → ∀ i x y, installed[0]? = some x → installed[i]? = some y →
    y.2.frame = x.2.frame + i * pageSize

/-- Whether the source of a request is a range of physical addresses. -/
def mapsPhysical (k : Kernel) (q : MapRequest) : Bool :=
  match k.mapTarget q with
  | some (_, _, .mapping _) | some (_, _, .contiguousFrame _) => true
  | _ => false

/-- The request asks for pages that are writable and executable at once. -/
def writesAndExecutes (q : MapRequest) : Bool :=
  q.requestedRights.contains Rights.write && q.requestedRights.contains Rights.execute

/-- What a request has to bring along, by its source. -/
def KeepsToUserSpace (k : Kernel) (q : MapRequest) : Prop :=
  match k.mapTarget q with
  | some (_, _, .mapping _) => writesAndExecutes q = false
  | some (_, _, .contiguousFrame _) =>
    q.virtualAddress.toNat ≤ userAddressMax ∧ writesAndExecutes q = false
  | _ => True

theorem mapTarget_aligned {source : MapSource}
    (h : k.mapTarget q = some (cspace, aspace, source)) :
    q.virtualAddress.toNat % pageSize = 0 := by
  unfold mapTarget at h
  split at h
  · simp at h
  · split at h
    · simp at h
    · split_ifs at h with hal
      omega

theorem exclusive_of_flags {x : ℕ × PageEntry}
    (hwrite : x.2.flags.writable = q.requestedRights.contains Rights.write)
    (hexec : x.2.flags.noExecute = !q.requestedRights.contains Rights.execute) :
    (x.2.flags.writable = true ∧ x.2.flags.noExecute = false) ↔ writesAndExecutes q = true := by
  rw [hwrite, hexec, writesAndExecutes, Bool.and_eq_true, Bool.not_eq_false']

theorem cacheFlags_writable (flags : PageFlags) (cachePolicy : CachePolicy) :
    (cacheFlags flags cachePolicy).writable = flags.writable
      ∧ (cacheFlags flags cachePolicy).noExecute = flags.noExecute := by
  cases cachePolicy <;> exact ⟨rfl, rfl⟩

variable {installed : List (ℕ × PageEntry)}

/-- The physical addresses of one run do not wrap, wherever it starts. -/
theorem frame_eq_of_installsPhysical {i : ℕ} {x y : ℕ × PageEntry}
    (h : InstallsPhysical mapper q installed) (hx : installed[0]? = some x)
    (hy : installed[i]? = some y) : y.2.frame = x.2.frame + i * pageSize := by
  obtain ⟨physStart, size, cachePolicy, h⟩ := h
  have hframe : ∀ j z, installed[j]? = some z → z.2.frame = pageAt (physStart % 2 ^ 64) j := by
    intro j z hz
    rw [mmioEntries_getElem? (h.getElem? hz).1]
    simp [pageAt]
  have hlt : ∀ j ≤ i, pageAt (physStart % 2 ^ 64) j < 2 ^ 52 := by
    intro j hj
    obtain ⟨z, hz⟩ := InstallsFrom.exists_of_le hy hj
    rw [← hframe j z hz]
    exact (h.getElem? hz).2.frame_lt
  have hstart : physStart % 2 ^ 64 < 2 ^ 64 := Nat.mod_lt _ (by decide)
  rw [hframe i y hy, hframe 0 x hx, pageAt_zero hstart, (pageAt_of_frame_lt hstart i hlt).1]

/-- A physical source keeps to user space exactly when the request starts there and does not ask for
writable executable pages. -/
theorem staysInUserSpace_iff_of_installsPhysical (hal : q.virtualAddress.toNat % pageSize = 0)
    (h : InstallsPhysical mapper q installed) (hne : installed ≠ []) :
    StaysInUserSpace q.virtualAddress.toNat true installed ↔
      q.virtualAddress.toNat ≤ userAddressMax ∧ writesAndExecutes q = false := by
  have h' := h
  obtain ⟨physStart, size, cachePolicy, hfrom⟩ := h'
  obtain ⟨first, hfirst⟩ : ∃ first, installed[0]? = some first := by
    cases installed with
    | nil => exact absurd rfl hne
    | cons first rest => exact ⟨first, rfl⟩
  have hmem := List.mem_of_getElem? hfirst
  have hentry : ∀ i x, installed[i]? = some x → x.1 = pageAt q.virtualAddress.toNat i
      ∧ ((x.2.flags.writable = true ∧ x.2.flags.noExecute = false)
        ↔ writesAndExecutes q = true) := by
    intro i x hx
    rw [mmioEntries_getElem? (hfrom.getElem? hx).1]
    obtain ⟨hw, hn⟩ := cacheFlags_writable (userFlags q.requestedRights) cachePolicy
    exact ⟨rfl, exclusive_of_flags (by rw [hw]; rfl) (by rw [hn]; rfl)⟩
  constructor
  · intro hstays
    -- The first page alone shows both: it lies at the start, and has the flags of all.
    refine ⟨?_, ?_⟩
    · have hpage := (hentry 0 first hfirst).1
      rw [pageAt_zero q.virtualAddress.toNat_lt] at hpage
      have := hstays.below first hmem
      omega
    · have := hstays.exclusive first hmem
      rw [(hentry 0 first hfirst).2] at this
      simpa using this
  · rintro ⟨hlt, hexcl⟩
    have hlt' : q.virtualAddress.toNat < 2 ^ 47 := by
      unfold userAddressMax at hlt
      omega
    have hpages : ∀ i x, installed[i]? = some x → _ := fun i x hx ↦
      hfrom.page_eq (fun j z hz ↦ by rw [mmioEntries_getElem? hz]) hlt' hal hx
    refine ⟨fun i x hx ↦ (hpages i x hx).1, fun x hx ↦ ?_, fun x hx ↦ ?_,
      fun _ i x y ↦ frame_eq_of_installsPhysical h⟩
    · obtain ⟨i, hi⟩ := List.getElem?_of_mem hx
      exact (hpages i x hi).2
    · obtain ⟨i, hi⟩ := List.getElem?_of_mem hx
      rw [(hentry i x hi).2, hexcl]
      simp

theorem staysInUserSpace_of_installsFrom {frames : List ℕ}
    (hal : q.virtualAddress.toNat % pageSize = 0) (hlt : q.virtualAddress.toNat < userAddressMax)
    (hexcl : writesAndExecutes q = false) (h : InstallsFrom mapper
      (userFrameEntries q.virtualAddress.toNat frames q.requestedRights) installed) :
    StaysInUserSpace q.virtualAddress.toNat false installed := by
  have hlt' : q.virtualAddress.toNat < 2 ^ 47 := by
    unfold userAddressMax at hlt
    omega
  have hpages : ∀ i x, installed[i]? = some x → _ := fun i x hx ↦
    h.page_eq (fun j z hz ↦ (userFrameEntries_getElem? hz).1) hlt' hal hx
  refine ⟨fun i x hx ↦ (hpages i x hx).1, fun x hx ↦ ?_, fun x hx ↦ ?_, by simp⟩
  · obtain ⟨i, hi⟩ := List.getElem?_of_mem hx
    exact (hpages i x hi).2
  · obtain ⟨i, hi⟩ := List.getElem?_of_mem hx
    have hflags := (userFrameEntries_getElem? (h.getElem? hi).1).2
    rw [exclusive_of_flags (q := q) (by rw [hflags]; rfl) (by rw [hflags]; rfl), hexcl]
    simp

/-- **User mappings stay in user space exactly when the request keeps to it.** -/
theorem mapMemory_staysInUserSpace_iff (mapper : Mapper) (k : Kernel) (q : MapRequest)
    (hinstalled : (k.mapMemory mapper q).installed ≠ []) :
    StaysInUserSpace q.virtualAddress.toNat (k.mapsPhysical q) (k.mapMemory mapper q).installed
      ↔ k.KeepsToUserSpace q := by
  rcases htarget : k.mapTarget q with _ | ⟨cspace, aspace, source⟩
  · -- Nothing is installed before the source is known.
    rw [mapMemory, htarget] at hinstalled
    exact absurd rfl hinstalled
  · have hal := mapTarget_aligned htarget
    rw [mapMemory, htarget] at hinstalled ⊢
    rw [mapsPhysical, KeepsToUserSpace, htarget]
    cases source with
    | memoryObject info =>
      have hcases : (k.mapMemoryObject mapper q cspace aspace info).installed = [] ∨ _ :=
        mapMemoryObject_installed info
      rcases hcases with hnil | ⟨hlt, hexcl, frames, h⟩
      · exact absurd hnil hinstalled
      · refine iff_of_true (staysInUserSpace_of_installsFrom hal hlt ?_ h) trivial
        rw [writesAndExecutes, Bool.and_eq_false_iff]
        by_contra hcon
        simp only [not_or, Bool.not_eq_false] at hcon
        exact hexcl hcon
    | mapping id =>
      have hcases : (k.mapMapping mapper q cspace aspace id).installed = [] ∨ _ :=
        mapMapping_installed id
      rcases hcases with hnil | ⟨hle, h⟩
      · exact absurd hnil hinstalled
      · refine (staysInUserSpace_iff_of_installsPhysical hal h hinstalled).trans ?_
        exact ⟨fun hboth ↦ hboth.2, fun hexcl ↦ ⟨hle, hexcl⟩⟩
    | contiguousFrame id =>
      exact staysInUserSpace_iff_of_installsPhysical hal (mapContiguousFrame_installed id)
        hinstalled

/-! ### A contiguous frame in the kernel half -/

/-- One space with two handles: slot 0 holds an address space, slot 1 a contiguous frame of two
pages with the rights a factory gives it. -/
def frameKernel : Kernel :=
  { bare
      { system :=
          ⟨[⟨1, .live ⟨⟨⟨2, 1⟩, .addressSpace, Rights.map⟩, none, none, none, false, 1⟩⟩,
            ⟨1, .live ⟨⟨⟨3, 1⟩, .contiguousFrame, Rights.map ||| Rights.read ||| Rights.write⟩,
              none, none, none, false, 1⟩⟩], 8, none⟩
        spaces := Registry.empty.insert ⟨1, 1⟩
          ⟨⟨⟨0, 1⟩⟩, [⟨1, some ⟨0, 1⟩, none⟩, ⟨1, some ⟨1, 1⟩, none⟩], 8, none⟩
        domains := Registry.empty.insert ⟨0, 1⟩
          { ResourceDomain.new ⟨⟨0, 1⟩⟩ ⟨8, 8, 65536⟩ with usage := ⟨4, 2, 8192⟩ } }
      ⟨[⟨1, .live .resourceDomain ⟨⟨0, 1⟩⟩⟩, ⟨1, .live .capabilitySpace ⟨⟨0, 1⟩⟩⟩,
        ⟨1, .live .addressSpace ⟨⟨0, 1⟩⟩⟩, ⟨1, .live .contiguousFrame ⟨⟨0, 1⟩⟩⟩], 8, none⟩
      ⟨[true, false, true, true, false, false, false, false],
        [⟨⟨0x100000, 0x108000⟩, 0⟩], 8⟩ with
    addressSpaces := Registry.empty.insert ⟨2, 1⟩ ⟨0x100000, ⟨fun _ ↦ none, []⟩⟩
    contiguousFrames := Registry.empty.insert ⟨3, 1⟩ ⟨0x102000, 2, ⟨⟨0, 1⟩⟩, 1, 0⟩ }

/-- A request for the two pages of the frame, readable and writable. -/
def frameRequest (virtualAddress : UInt64) : MapRequest where
  cspace := ⟨1, 1⟩
  aspaceHandle := Handle.fromParts 0 1
  memHandle := Handle.fromParts 1 1
  virtualAddress := virtualAddress
  requestedRights := Rights.read ||| Rights.write
  offsetBytes := 0
  reserved := true

/-- The pages go to the kernel half of the address space, and the call succeeds. -/
theorem mapMemory_kernelHalf :
    (frameKernel.mapMemory Mapper.walk (frameRequest 0xFFFFC00000000000)).outcome
        = .ok (Handle.fromParts 2 1).raw
      ∧ ¬ StaysInUserSpace (frameRequest 0xFFFFC00000000000).virtualAddress.toNat
        (frameKernel.mapsPhysical (frameRequest 0xFFFFC00000000000))
        (frameKernel.mapMemory Mapper.walk (frameRequest 0xFFFFC00000000000)).installed := by
  refine ⟨by decide +kernel, fun h ↦ ?_⟩
  have hmem : (0xFFFFC00000000000, (⟨0x102000, ⟨true, true, true, false, false⟩⟩ : PageEntry))
      ∈ (frameKernel.mapMemory Mapper.walk (frameRequest 0xFFFFC00000000000)).installed := by
    decide +kernel
  have := h.below _ hmem
  revert this
  decide

/-- At an address of the lower half the same request stays in user space. -/
theorem mapMemory_staysInUserSpace_of_frame :
    (frameKernel.mapMemory Mapper.walk (frameRequest 0x400000)).installed ≠ []
      ∧ StaysInUserSpace (frameRequest 0x400000).virtualAddress.toNat
        (frameKernel.mapsPhysical (frameRequest 0x400000))
        (frameKernel.mapMemory Mapper.walk (frameRequest 0x400000)).installed := by
  have hne : (frameKernel.mapMemory Mapper.walk (frameRequest 0x400000)).installed ≠ [] := by
    decide +kernel
  refine ⟨hne, (mapMemory_staysInUserSpace_iff _ _ _ hne).mpr ?_⟩
  have htarget : ∃ cspace, frameKernel.mapTarget (frameRequest 0x400000)
      = some (cspace, ⟨2, 1⟩, .contiguousFrame ⟨3, 1⟩) := ⟨_, rfl⟩
  obtain ⟨cspace, htarget⟩ := htarget
  rw [KeepsToUserSpace, htarget]
  exact ⟨by decide, by decide⟩

end Kernel

end Gaxera

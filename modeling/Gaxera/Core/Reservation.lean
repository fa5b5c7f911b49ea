import Gaxera.Core.Resource

/-!
# Reserving and refunding a child budget

A child domain takes the whole of its limits out of its parent when it is made, and gives the whole
of them back when it goes. Both directions move three counters of usage and a count of children,
and neither is written so that all checks come before the first update: the count of children is
checked behind the reservation, and the four subtractions of a refund are written back one by one.

`newChild_cases` and `refundToParent_cases` say what the two calls do, and everything else about
them is read off from there. A call that fails halfway is found out only where what it had written
by then was not zero.
-/

namespace Gaxera

namespace Resources

/-- Nothing of anything. -/
instance : Zero Resources := ⟨⟨0, 0, 0⟩⟩

instance : Add Resources :=
  ⟨fun a b ↦ ⟨a.objects + b.objects, a.capabilities + b.capabilities,
    a.memoryBytes + b.memoryBytes⟩⟩

instance : Sub Resources :=
  ⟨fun a b ↦ ⟨a.objects - b.objects, a.capabilities - b.capabilities,
    a.memoryBytes - b.memoryBytes⟩⟩

/-- No more in any of the three dimensions. -/
instance : LE Resources :=
  ⟨fun a b ↦ a.objects ≤ b.objects ∧ a.capabilities ≤ b.capabilities
    ∧ a.memoryBytes ≤ b.memoryBytes⟩

variable {a b : Resources}

@[simp] theorem objects_zero : (0 : Resources).objects = 0 := rfl

@[simp] theorem capabilities_zero : (0 : Resources).capabilities = 0 := rfl

@[simp] theorem memoryBytes_zero : (0 : Resources).memoryBytes = 0 := rfl

@[simp] theorem objects_add : (a + b).objects = a.objects + b.objects := rfl

@[simp] theorem capabilities_add : (a + b).capabilities = a.capabilities + b.capabilities := rfl

@[simp] theorem memoryBytes_add : (a + b).memoryBytes = a.memoryBytes + b.memoryBytes := rfl

@[simp] theorem objects_sub : (a - b).objects = a.objects - b.objects := rfl

@[simp] theorem capabilities_sub : (a - b).capabilities = a.capabilities - b.capabilities := rfl

@[simp] theorem memoryBytes_sub : (a - b).memoryBytes = a.memoryBytes - b.memoryBytes := rfl

/-- Every amount fits into the word that the source keeps it in. -/
structure InWords (a : Resources) : Prop where
  objects : a.objects < 2 ^ 32
  capabilities : a.capabilities < 2 ^ 32
  memoryBytes : a.memoryBytes < 2 ^ 64

end Resources

namespace ResourceDomain

variable {id : ResourceDomainId} {parent d : ResourceDomain} {childLimits : Resources}

/-! ## Making a child -/

/-- The budget fits into the words and into the limits of the parent. -/
structure Fits (parent : ResourceDomain) (childLimits : Resources) : Prop where
  words : (parent.usage + childLimits).InWords
  limits : parent.usage + childLimits ≤ parent.limits

/-- The parent, once the budget is reserved. -/
def reserve (parent : ResourceDomain) (childLimits : Resources) : ResourceDomain :=
  { parent with usage := parent.usage + childLimits }

/-- A child as it is made. -/
def child (id : ResourceDomainId) (parent : ResourceDomain) (childLimits : Resources) :
    ResourceDomain where
  id := id
  parent := some parent.id
  limits := childLimits
  usage := 0
  processRefs := 0
  childDomainRefs := 0
  reservationActive := true

/-- **Making a child** is refused by a check, or fails behind the reservation on the count of
children, or goes through. -/
theorem newChild_cases (id : ResourceDomainId) (parent : ResourceDomain) (childLimits : Resources) :
    (¬ parent.Fits childLimits ∧ ∃ e, newChild id parent childLimits = (.error e, parent))
      ∨ parent.Fits childLimits ∧
        (2 ^ 32 ≤ parent.childDomainRefs + 1
            ∧ newChild id parent childLimits = (.error .objectLimit, parent.reserve childLimits)
          ∨ parent.childDomainRefs + 1 < 2 ^ 32
            ∧ newChild id parent childLimits = (.ok (child id parent childLimits),
              { parent.reserve childLimits with
                childDomainRefs := parent.childDomainRefs + 1 })) := by
  by_cases hfits : parent.Fits childLimits
  · right
    refine ⟨hfits, ?_⟩
    obtain ⟨⟨ho, hc, hm⟩, hlo, hlc, hlm⟩ := hfits
    simp only [Resources.objects_add, Resources.capabilities_add, Resources.memoryBytes_add] at *
    rw [newChild, checkedAdd, if_pos ho]
    dsimp only
    rw [checkedAdd, if_pos hc]
    dsimp only
    rw [checkedAdd, if_pos hm]
    dsimp only
    rw [if_neg (Nat.not_lt.mpr hlo), if_neg (Nat.not_lt.mpr hlc), if_neg (Nat.not_lt.mpr hlm),
      checkedAdd]
    rcases Nat.lt_or_ge (parent.childDomainRefs + 1) (2 ^ 32) with hrefs | hrefs
    · rw [if_pos hrefs]
      exact .inr ⟨hrefs, rfl⟩
    · rw [if_neg (Nat.not_lt.mpr hrefs)]
      exact .inl ⟨hrefs, rfl⟩
  · -- Whichever of the six checks fails, nothing has been written.
    refine .inl ⟨hfits, ?_⟩
    unfold newChild
    split
    · exact ⟨_, rfl⟩
    next nextObjects ho =>
    split
    · exact ⟨_, rfl⟩
    next nextCapabilities hc =>
    split
    · exact ⟨_, rfl⟩
    next nextMemory hm =>
    obtain ⟨ho', rfl⟩ := checkedAdd_eq_some.mp ho
    obtain ⟨hc', rfl⟩ := checkedAdd_eq_some.mp hc
    obtain ⟨hm', rfl⟩ := checkedAdd_eq_some.mp hm
    split_ifs with hlo hlc hlm
    · exact ⟨_, rfl⟩
    · exact ⟨_, rfl⟩
    · exact ⟨_, rfl⟩
    · exact absurd ⟨⟨ho', hc', hm'⟩, Nat.not_lt.mp hlo, Nat.not_lt.mp hlc, Nat.not_lt.mp hlm⟩ hfits

/-! ## Refunding -/

/-- The child belongs to the parent, holds its reservation, and nothing is left in it. -/
structure Refundable (d parent : ResourceDomain) : Prop where
  parent : d.parent = some parent.id
  active : d.reservationActive = true
  eligible : d.isEligibleForDestruction = true

/-- The parent has what it is to give back. -/
structure Covers (parent d : ResourceDomain) : Prop where
  usage : d.limits ≤ parent.usage
  refs : parent.childDomainRefs ≠ 0

/-- The parent, once the budget is given back. -/
def restore (parent d : ResourceDomain) : ResourceDomain :=
  { parent with
    usage := parent.usage - d.limits
    childDomainRefs := parent.childDomainRefs - 1 }

/-- What a refund that fails has written by then: the dimensions in front of the one that is
short. -/
def partlyRestored (d parent : ResourceDomain) : ResourceDomain :=
  if parent.usage.objects < d.limits.objects then parent
  else
    let parent := parent.setObjects (parent.usage.objects - d.limits.objects)
    if parent.usage.capabilities < d.limits.capabilities then parent
    else
      let parent := parent.setCapabilities (parent.usage.capabilities - d.limits.capabilities)
      if parent.usage.memoryBytes < d.limits.memoryBytes then parent
      else parent.setMemoryBytes (parent.usage.memoryBytes - d.limits.memoryBytes)

/-- **Refunding** is refused by the checks on the child, or fails on the way through the parent, or
goes through. -/
theorem refundToParent_cases (d parent : ResourceDomain) :
    (¬ d.Refundable parent ∧ d.refundToParent parent = (.error .stillReferenced, d, parent))
      ∨ d.Refundable parent ∧
        (¬ parent.Covers d
            ∧ d.refundToParent parent = (.error .accountingUnderflow, d, d.partlyRestored parent)
          ∨ parent.Covers d ∧ d.refundToParent parent
              = (.ok (), { d with reservationActive := false }, parent.restore d)) := by
  unfold refundToParent
  split_ifs with hparent hready
  · exact .inl ⟨fun h ↦ hparent h.parent, rfl⟩
  · refine .inl ⟨fun h ↦ ?_, rfl⟩
    rcases hready with hactive | heligible
    · rw [h.active] at hactive
      cases hactive
    · rw [h.eligible] at heligible
      cases heligible
  · right
    refine ⟨⟨not_not.mp hparent, ?_, ?_⟩, ?_⟩
    · by_contra hc
      exact hready (Or.inl (by simpa using hc))
    · by_contra hc
      exact hready (Or.inr (by simpa using hc))
    rw [partlyRestored]
    rcases Nat.lt_or_ge parent.usage.objects d.limits.objects with ho | ho
    · rw [checkedSub, if_neg (Nat.not_le.mpr ho), if_pos ho]
      exact .inl ⟨fun h ↦ absurd h.usage.1 (Nat.not_le.mpr ho), rfl⟩
    rw [checkedSub, if_pos ho, if_neg (Nat.not_lt.mpr ho)]
    dsimp only
    set p₁ := parent.setObjects (parent.usage.objects - d.limits.objects) with hp₁
    rcases Nat.lt_or_ge p₁.usage.capabilities d.limits.capabilities with hc | hc
    · rw [checkedSub, if_neg (Nat.not_le.mpr hc), if_pos hc]
      exact .inl ⟨fun h ↦ absurd h.usage.2.1 (Nat.not_le.mpr hc), rfl⟩
    rw [checkedSub, if_pos hc, if_neg (Nat.not_lt.mpr hc)]
    dsimp only
    set p₂ := p₁.setCapabilities (p₁.usage.capabilities - d.limits.capabilities) with hp₂
    rcases Nat.lt_or_ge p₂.usage.memoryBytes d.limits.memoryBytes with hm | hm
    · rw [checkedSub, if_neg (Nat.not_le.mpr hm), if_pos hm]
      exact .inl ⟨fun h ↦ absurd h.usage.2.2 (Nat.not_le.mpr hm), rfl⟩
    rw [checkedSub, if_pos hm, if_neg (Nat.not_lt.mpr hm)]
    dsimp only
    set p₃ := p₂.setMemoryBytes (p₂.usage.memoryBytes - d.limits.memoryBytes) with hp₃
    rcases Nat.lt_or_ge p₃.childDomainRefs 1 with hr | hr
    · rw [checkedSub, if_neg (Nat.not_le.mpr hr)]
      exact .inl ⟨fun h ↦ h.refs (Nat.lt_one_iff.mp hr), rfl⟩
    · rw [checkedSub, if_pos hr]
      exact .inr ⟨⟨⟨ho, hc, hm⟩, Nat.one_le_iff_ne_zero.mp hr⟩, rfl⟩

/-! ## Failing halfway -/

/-- What a call that fails is to leave alone in the parent. -/
structure Undisturbed (parent parent' : ResourceDomain) : Prop where
  usage : parent'.usage = parent.usage
  childDomainRefs : parent'.childDomainRefs = parent.childDomainRefs

/-- The budget fits and is not nothing, and the count of children is at its end. -/
structure ReservesHalfway (parent : ResourceDomain) (childLimits : Resources) : Prop where
  fits : parent.Fits childLimits
  full : 2 ^ 32 ≤ parent.childDomainRefs + 1
  something : childLimits ≠ 0

/-- One of the counters of the parent is short, and one in front of it has been lowered by then. -/
inductive RefundsHalfway (d parent : ResourceDomain) : Prop
  | capabilities (refundable : d.Refundable parent)
      (objects : d.limits.objects ≤ parent.usage.objects) (something : d.limits.objects ≠ 0)
      (short : parent.usage.capabilities < d.limits.capabilities)
  | memory (refundable : d.Refundable parent)
      (objects : d.limits.objects ≤ parent.usage.objects)
      (capabilities : d.limits.capabilities ≤ parent.usage.capabilities)
      (something : d.limits.objects ≠ 0 ∨ d.limits.capabilities ≠ 0)
      (short : parent.usage.memoryBytes < d.limits.memoryBytes)
  | refs (refundable : d.Refundable parent) (usage : d.limits ≤ parent.usage)
      (something : d.limits ≠ 0) (short : parent.childDomainRefs = 0)

theorem add_eq_self_iff {a b : Resources} : a + b = a ↔ b = 0 := by
  simp [Resources.ext_iff]

/-- A reservation that fails is noticed where it is not of nothing. -/
theorem newChild_undisturbed_iff (id : ResourceDomainId) (parent : ResourceDomain)
    (childLimits : Resources) :
    (∀ e, (newChild id parent childLimits).1 = .error e →
        parent.Undisturbed (newChild id parent childLimits).2)
      ↔ ¬ parent.ReservesHalfway childLimits := by
  rcases newChild_cases id parent childLimits with
    ⟨hfits, e, heq⟩ | ⟨hfits, ⟨hfull, heq⟩ | ⟨hroom, heq⟩⟩
  · rw [heq]
    exact iff_of_true (fun _ _ ↦ ⟨rfl, rfl⟩) fun h ↦ hfits h.fits
  · rw [heq]
    constructor
    · intro hund hhalf
      exact hhalf.something (add_eq_self_iff.mp (hund _ rfl).usage)
    · intro hnot e _
      refine ⟨add_eq_self_iff.mpr ?_, rfl⟩
      by_contra hne
      exact hnot ⟨hfits, hfull, hne⟩
  · rw [heq]
    exact iff_of_true (fun e he ↦ nomatch he) fun h ↦ absurd h.full (Nat.not_le.mpr hroom)

/-- What a refund that fails has written is noticed where it is not nothing. -/
theorem partlyRestored_usage_iff (h : d.Refundable parent) (hshort : ¬ parent.Covers d) :
    (d.partlyRestored parent).usage = parent.usage ↔ ¬ d.RefundsHalfway parent := by
  have hhalf : d.RefundsHalfway parent ↔
      d.limits.objects ≤ parent.usage.objects ∧
        (d.limits.objects ≠ 0 ∧ parent.usage.capabilities < d.limits.capabilities
          ∨ d.limits.capabilities ≤ parent.usage.capabilities ∧
            ((d.limits.objects ≠ 0 ∨ d.limits.capabilities ≠ 0)
                ∧ parent.usage.memoryBytes < d.limits.memoryBytes
              ∨ d.limits.memoryBytes ≤ parent.usage.memoryBytes ∧ d.limits ≠ 0)) := by
    constructor
    · rintro (⟨-, ho, hs, hc⟩ | ⟨-, ho, hc, hs, hm⟩ | ⟨-, ⟨ho, hc, hm⟩, hs, -⟩)
      · exact ⟨ho, .inl ⟨hs, hc⟩⟩
      · exact ⟨ho, .inr ⟨hc, .inl ⟨hs, hm⟩⟩⟩
      · exact ⟨ho, .inr ⟨hc, .inr ⟨hm, hs⟩⟩⟩
    · rintro ⟨ho, ⟨hs, hc⟩ | ⟨hc, ⟨hs, hm⟩ | ⟨hm, hs⟩⟩⟩
      · exact .capabilities h ho hs hc
      · exact .memory h ho hc hs hm
      · refine .refs h ⟨ho, hc, hm⟩ hs ?_
        by_contra hrefs
        exact hshort ⟨⟨ho, hc, hm⟩, hrefs⟩
  have hzero : d.limits = 0 ↔
      d.limits.objects = 0 ∧ d.limits.capabilities = 0 ∧ d.limits.memoryBytes = 0 :=
    Resources.ext_iff
  rw [hhalf, ne_eq d.limits 0, hzero, Resources.ext_iff]
  dsimp only [partlyRestored]
  -- The four ways to end, by the first counter that is short.
  split_ifs with ho hc hm
  · grind
  · grind [setObjects]
  · grind [setObjects, setCapabilities]
  · grind [setObjects, setCapabilities, setMemoryBytes]

theorem partlyRestored_childDomainRefs (d parent : ResourceDomain) :
    (d.partlyRestored parent).childDomainRefs = parent.childDomainRefs := by
  dsimp only [partlyRestored]
  split_ifs <;> rfl

/-- A refund that fails is noticed where it has lowered something. -/
theorem refundToParent_undisturbed_iff (d parent : ResourceDomain) :
    (∀ e, (d.refundToParent parent).1 = .error e →
        parent.Undisturbed (d.refundToParent parent).2.2
          ∧ (d.refundToParent parent).2.1.reservationActive = d.reservationActive)
      ↔ ¬ d.RefundsHalfway parent := by
  rcases refundToParent_cases d parent with
    ⟨hnot, heq⟩ | ⟨hready, ⟨hshort, heq⟩ | ⟨hcovers, heq⟩⟩
  · rw [heq]
    refine iff_of_true (fun _ _ ↦ ⟨⟨rfl, rfl⟩, rfl⟩) ?_
    rintro (⟨h⟩ | ⟨h⟩ | ⟨h⟩) <;> exact hnot h
  · rw [heq, ← partlyRestored_usage_iff hready hshort]
    constructor
    · exact fun h ↦ (h _ rfl).1.usage
    · exact fun h _ _ ↦ ⟨⟨h, partlyRestored_childDomainRefs d parent⟩, rfl⟩
  · rw [heq]
    refine iff_of_true (fun e he ↦ nomatch he) ?_
    rintro (⟨-, -, -, hc⟩ | ⟨-, -, -, -, hm⟩ | ⟨-, -, -, hr⟩)
    · exact absurd hcovers.usage.2.1 (Nat.not_le.mpr hc)
    · exact absurd hcovers.usage.2.2 (Nat.not_le.mpr hm)
    · exact hcovers.refs hr

/-- **Reserving and refunding are atomic** exactly where they do not fail halfway. -/
theorem reservation_atomic_iff (id : ResourceDomainId) (parent child : ResourceDomain)
    (childLimits : Resources) :
    ((∀ e, (newChild id parent childLimits).1 = .error e →
          parent.Undisturbed (newChild id parent childLimits).2)
        ∧ ∀ e, (child.refundToParent parent).1 = .error e →
          parent.Undisturbed (child.refundToParent parent).2.2
            ∧ (child.refundToParent parent).2.1.reservationActive = child.reservationActive)
      ↔ ¬ parent.ReservesHalfway childLimits ∧ ¬ child.RefundsHalfway parent :=
  and_congr (newChild_undisturbed_iff id parent childLimits)
    (refundToParent_undisturbed_iff child parent)

/-- A parent that has counted as many children as a word can hold. -/
def crowded : ResourceDomain :=
  { new ⟨⟨0, 1⟩⟩ ⟨8, 8, 65536⟩ with childDomainRefs := 2 ^ 32 - 1 }

/-- A child of that parent whose budget of capabilities the parent does not carry. -/
def overdrawn : ResourceDomain := child ⟨⟨1, 1⟩⟩ crowded ⟨2, 5, 4096⟩

/-- Both calls fail, and both leave the parent with another usage than it had. -/
theorem reservation_fails_halfway :
    newChild ⟨⟨1, 1⟩⟩ crowded ⟨2, 5, 4096⟩
        = (.error .objectLimit, { crowded with usage := ⟨2, 5, 4096⟩ })
      ∧ overdrawn.refundToParent { crowded with usage := ⟨2, 4, 4096⟩ }
        = (.error .accountingUnderflow, overdrawn, { crowded with usage := ⟨0, 4, 4096⟩ })
      ∧ ¬ crowded.Undisturbed (newChild ⟨⟨1, 1⟩⟩ crowded ⟨2, 5, 4096⟩).2
      ∧ ¬ ({ crowded with usage := ⟨2, 4, 4096⟩ } : ResourceDomain).Undisturbed
        (overdrawn.refundToParent { crowded with usage := ⟨2, 4, 4096⟩ }).2.2 := by
  have hnew : newChild ⟨⟨1, 1⟩⟩ crowded ⟨2, 5, 4096⟩
      = (.error .objectLimit, { crowded with usage := ⟨2, 5, 4096⟩ }) := by decide
  have hrefund : overdrawn.refundToParent { crowded with usage := ⟨2, 4, 4096⟩ }
      = (.error .accountingUnderflow, overdrawn, { crowded with usage := ⟨0, 4, 4096⟩ }) := by
    decide
  refine ⟨hnew, hrefund, fun h ↦ ?_, fun h ↦ ?_⟩
  · rw [hnew] at h
    exact absurd h.usage (by decide)
  · rw [hrefund] at h
    exact absurd h.usage (by decide)

end ResourceDomain

end Gaxera

import Mathlib.Data.List.Basic

/-!
# Domain policies

A network capability can be limited to domain names: a list of patterns, each a name, a name behind
`*.`, or `*` alone. A pattern `*.s` is meant for `s` and the names below it, without regard to case.

The code asks whether the name ends with the characters of `s`. It therefore differs from the
meaning in two ways, and in no other: a name may end with `s` in the middle of a label, and a name
below `s` may be spelled in another case. Everything else that one pattern matches or covers it
hits: a policy is wrong exactly where no pattern hits the name and only one of the two occurs.
-/

namespace Gaxera

/-- `to_ascii_lowercase`: no other characters are changed. -/
def foldCase (name : List Char) : List Char := name.map Char.toLower

def eqIgnoreAsciiCase (name other : List Char) : Bool := decide (foldCase name = foldCase other)

structure DomainPattern where
  text : List Char
deriving DecidableEq, Repr

namespace DomainPattern

def matchesDomain (p : DomainPattern) (domain : List Char) : Bool :=
  if p.text = ['*'] then true
  else
    match p.text with
    | '*' :: '.' :: suffix => suffix.isSuffixOf domain || decide (domain = suffix)
    | text => eqIgnoreAsciiCase text domain

end DomainPattern

/-- The part of `NetCapabilityPolicy` that is about names. -/
structure NetCapabilityPolicy where
  allowedDomains : List DomainPattern
deriving DecidableEq, Repr

def NetCapabilityPolicy.allowsDomain (policy : NetCapabilityPolicy) (domain : List Char) : Bool :=
  if policy.allowedDomains.isEmpty then true
  else policy.allowedDomains.any fun pattern ↦ pattern.matchesDomain domain

/-! ## What a pattern is for -/

namespace DomainPattern

/-- The pattern is `*`, or the name lies at or below it label by label, or is it. -/
def Covers (p : DomainPattern) (domain : List Char) : Prop :=
  p.text = ['*']
    ∨ (∃ s, p.text = '*' :: '.' :: s
      ∧ (foldCase domain = foldCase s ∨ '.' :: foldCase s <:+ foldCase domain))
    ∨ foldCase p.text = foldCase domain

/-- The pattern is `*`, or the name, or the name ends with what is behind `*.`, label by label and
in the same case. -/
def Hits (p : DomainPattern) (domain : List Char) : Prop :=
  p.text = ['*']
    ∨ (∃ s before, p.text = '*' :: '.' :: s ∧ domain = before ++ s
      ∧ (before = [] ∨ before.getLast? = some '.'))
    ∨ (∀ s, p.text ≠ '*' :: '.' :: s) ∧ foldCase p.text = foldCase domain

/-- The name ends with the characters behind `*.`, but in the middle of a label. -/
def Overreaches (p : DomainPattern) (domain : List Char) : Prop :=
  ∃ s before c, p.text = '*' :: '.' :: s ∧ domain = before ++ c :: s ∧ c ≠ '.'

/-- The name ends with the labels behind `*.`, but not in the same case. -/
def Misses (p : DomainPattern) (domain : List Char) : Prop :=
  ∃ s before labels, p.text = '*' :: '.' :: s ∧ domain = before ++ labels
    ∧ foldCase labels = foldCase s ∧ labels ≠ s ∧ (before = [] ∨ before.getLast? = some '.')

theorem toLower_eq_dot {c : Char} : c.toLower = '.' ↔ c = '.' := by
  refine ⟨fun h ↦ ?_, fun h ↦ by rw [h]; rfl⟩
  unfold Char.toLower at h
  split at h
  · -- a letter becomes a letter
    rename_i hupper
    have hval := congrArg (fun c : Char ↦ c.val.toNat) h
    have hge : 65 ≤ c.toNat := hupper.1
    have hle : c.toNat ≤ 90 := hupper.2
    simp at hval
    omega
  · exact h

variable {p : DomainPattern} {s domain : List Char}

/-- Lying at or below `s` is ending with its labels, whatever their case. -/
theorem covers_wildcard (hp : p.text = '*' :: '.' :: s) :
    p.Covers domain ↔ ∃ before labels, domain = before ++ labels ∧ foldCase labels = foldCase s
      ∧ (before = [] ∨ before.getLast? = some '.') := by
  constructor
  · have hbelow : '.' :: foldCase s <:+ foldCase domain → ∃ before labels,
        domain = before ++ labels ∧ foldCase labels = foldCase s
          ∧ (before = [] ∨ before.getLast? = some '.') := by
      rintro ⟨front, hfront⟩
      obtain ⟨before, tail, rfl, -, htail⟩ := List.map_eq_append_iff.mp hfront.symm
      obtain ⟨c, labels, rfl, hc, hlabels⟩ := List.map_eq_cons_iff.mp htail
      obtain rfl := toLower_eq_dot.mp hc
      exact ⟨before ++ ['.'], labels, by simp, hlabels, .inr (by simp)⟩
    rintro (hstar | ⟨s', hs', heq | hsuffix⟩ | heq)
    · simp [hp] at hstar
    · obtain rfl : s = s' := by simpa [hp] using hs'
      exact ⟨[], domain, rfl, heq, .inl rfl⟩
    · obtain rfl : s = s' := by simpa [hp] using hs'
      exact hbelow hsuffix
    · -- the pattern taken as a name lies below itself
      refine hbelow ?_
      rw [← heq, hp]
      exact ⟨['*'], rfl⟩
  · rintro ⟨before, labels, rfl, hlabels, rfl | hdot⟩
    · exact .inr (.inl ⟨s, hp, .inl hlabels⟩)
    · obtain ⟨front, rfl⟩ := List.getLast?_eq_some_iff.mp hdot
      refine .inr (.inl ⟨s, hp, .inr ⟨foldCase front, ?_⟩⟩)
      rw [← hlabels]
      simp [foldCase]

theorem matchesDomain_wildcard (hp : p.text = '*' :: '.' :: s) :
    p.matchesDomain domain = true ↔ s <:+ domain := by
  rw [matchesDomain, hp, if_neg (by simp)]
  change (s.isSuffixOf domain || decide (domain = s)) = true ↔ s <:+ domain
  rw [Bool.or_eq_true, List.isSuffixOf_iff_suffix, decide_eq_true_eq]
  exact ⟨fun h ↦ h.elim id fun heq ↦ heq ▸ List.suffix_rfl, .inl⟩

theorem hits_wildcard (hp : p.text = '*' :: '.' :: s) :
    p.Hits domain ↔
      ∃ before, domain = before ++ s ∧ (before = [] ∨ before.getLast? = some '.') := by
  simp [Hits, hp]

/-- A pattern without `*.` matches and covers exactly what it hits. -/
theorem matchesDomain_plain (hp : ∀ s, p.text ≠ '*' :: '.' :: s) :
    p.matchesDomain domain = true ↔ p.Hits domain := by
  rw [matchesDomain, Hits]
  by_cases hstar : p.text = ['*']
  · simp [hstar]
  · rw [if_neg hstar]
    split
    · rename_i s hs
      exact absurd hs (hp s)
    · simp [eqIgnoreAsciiCase, hstar, hp]

theorem covers_plain (hp : ∀ s, p.text ≠ '*' :: '.' :: s) : p.Covers domain ↔ p.Hits domain := by
  simp [Covers, Hits, hp]

/-- **Too much** is matched in the middle of a label, -/
theorem matchesDomain_iff :
    p.matchesDomain domain = true ↔ p.Hits domain ∨ p.Overreaches domain := by
  by_cases hp : ∃ s, p.text = '*' :: '.' :: s
  · obtain ⟨s, hp⟩ := hp
    rw [matchesDomain_wildcard hp, hits_wildcard hp]
    constructor
    · rintro ⟨before, rfl⟩
      rcases List.eq_nil_or_concat before with rfl | ⟨front, c, rfl⟩
      · exact .inl ⟨[], rfl, .inl rfl⟩
      · by_cases hc : c = '.'
        · exact .inl ⟨_, rfl, .inr (by simp [hc])⟩
        · exact .inr ⟨s, front, c, hp, by simp, hc⟩
    · rintro (⟨before, rfl, -⟩ | ⟨s', front, c, hs', rfl, -⟩)
      · exact List.suffix_append ..
      · obtain rfl : s = s' := by simpa [hp] using hs'
        exact ⟨front ++ [c], by simp⟩
  · rw [matchesDomain_plain fun s hs ↦ hp ⟨s, hs⟩]
    exact (or_iff_left fun ⟨s, _, _, hs, _⟩ ↦ hp ⟨s, hs⟩).symm

/-- and **too little** in another case. -/
theorem covers_iff : p.Covers domain ↔ p.Hits domain ∨ p.Misses domain := by
  by_cases hp : ∃ s, p.text = '*' :: '.' :: s
  · obtain ⟨s, hp⟩ := hp
    rw [covers_wildcard hp, hits_wildcard hp]
    constructor
    · rintro ⟨before, labels, rfl, hlabels, hboundary⟩
      by_cases hsame : labels = s
      · exact .inl ⟨before, by rw [hsame], hboundary⟩
      · exact .inr ⟨s, before, labels, hp, rfl, hlabels, hsame, hboundary⟩
    · rintro (⟨before, rfl, hboundary⟩ | ⟨s', before, labels, hs', rfl, hlabels, -, hboundary⟩)
      · exact ⟨before, s, rfl, rfl, hboundary⟩
      · obtain rfl : s = s' := by simpa [hp] using hs'
        exact ⟨before, labels, rfl, hlabels, hboundary⟩
  · rw [covers_plain fun s hs ↦ hp ⟨s, hs⟩]
    exact (or_iff_left fun ⟨s, _, _, hs, _⟩ ↦ hp ⟨s, hs⟩).symm

end DomainPattern

/-! ## Policies -/

namespace NetCapabilityPolicy

open DomainPattern

/-- **A policy allows exactly the names its patterns cover**, if and only if some pattern hits the
name, or a pattern that the name overruns in the middle of a label comes with one that misses it for
its case: then the two differences cancel out. -/
theorem allowsDomain_covers_iff (policy : NetCapabilityPolicy) (domain : List Char)
    (hpatterns : policy.allowedDomains ≠ []) :
    (policy.allowsDomain domain = true ↔ ∃ p ∈ policy.allowedDomains, p.Covers domain)
      ↔ (∃ p ∈ policy.allowedDomains, p.Hits domain)
        ∨ ((∃ p ∈ policy.allowedDomains, p.Overreaches domain)
          ↔ ∃ p ∈ policy.allowedDomains, p.Misses domain) := by
  rw [allowsDomain, if_neg (by simpa using hpatterns), List.any_eq_true]
  simp only [matchesDomain_iff, covers_iff, and_or_left, exists_or]
  -- Where a pattern hits the name both sides hold, and elsewhere they are the other two cases.
  by_cases hhit : ∃ p ∈ policy.allowedDomains, p.Hits domain
  · simp only [hhit, true_or]
  · simp only [hhit, false_or]

/-- The names at and below `gaxera.org`. -/
def belowGaxera : NetCapabilityPolicy := ⟨[⟨"*.gaxera.org".toList⟩]⟩

theorem allowsDomain_covers_iff_api :
    belowGaxera.allowedDomains ≠ []
      ∧ (belowGaxera.allowsDomain "api.gaxera.org".toList = true
        ↔ ∃ p ∈ belowGaxera.allowedDomains, p.Covers "api.gaxera.org".toList) :=
  ⟨by decide, (allowsDomain_covers_iff belowGaxera "api.gaxera.org".toList (by decide)).mpr
    (.inl ⟨_, List.mem_singleton_self _,
      .inr (.inl ⟨"gaxera.org".toList, "api.".toList, by decide, by decide, .inr (by decide)⟩)⟩)⟩

/-- Another domain that ends with the same characters is allowed. -/
theorem evilgaxera_is_allowed :
    belowGaxera.allowsDomain "evilgaxera.org".toList = true
      ∧ ¬ ∃ p ∈ belowGaxera.allowedDomains, p.Covers "evilgaxera.org".toList := by
  refine ⟨by decide, ?_⟩
  rintro ⟨p, hp, hcovers⟩
  obtain rfl := List.mem_singleton.mp hp
  rcases hcovers with h | ⟨s, hs, h⟩ | h
  · exact absurd h (by decide)
  · obtain rfl : "gaxera.org".toList = s := (List.cons.inj (List.cons.inj hs).2).2
    exact absurd h (by decide)
  · exact absurd h (by decide)

end NetCapabilityPolicy

end Gaxera

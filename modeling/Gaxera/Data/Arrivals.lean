import Mathlib.Data.List.Pairwise
import Mathlib.Logic.Function.Basic

/-!
# Lines that are joined at both ends

Most who join a line go to its end; some are let in at the front. The line is then in an order that
can be told from when each of its members joined and at which end: those from the front come first,
the latest of them foremost, and the others follow in the order of their arrival. Leaving a line
does not disturb that order, wherever one leaves it.
-/

namespace Gaxera

/-- When a member joined, and where. -/
inductive Joining
  | atEnd (time : ℕ)
  | atFront (time : ℕ)
deriving DecidableEq, Repr

namespace Joining

def time : Joining → ℕ
  | atEnd time | atFront time => time

/-- Who comes first. -/
def Ahead : Joining → Joining → Prop
  | atFront i, atFront j => j < i
  | atFront _, atEnd _ => True
  | atEnd _, atFront _ => False
  | atEnd i, atEnd j => i < j

theorem ahead_atEnd {j : Joining} {n : ℕ} (h : j.time < n) : j.Ahead (atEnd n) := by
  cases j with
  | atEnd i => exact h
  | atFront i => trivial

theorem atFront_ahead {j : Joining} {n : ℕ} (h : j.time < n) : (atFront n).Ahead j := by
  cases j with
  | atEnd i => trivial
  | atFront i => exact h

end Joining

section

variable {α : Type*} {joined joined' : α → Joining} {line line' : List α}

/-- The line is in the order in which its members joined. -/
def InOrder (joined : α → Joining) (line : List α) : Prop :=
  line.Pairwise fun a b ↦ (joined a).Ahead (joined b)

theorem InOrder.sublist (h : InOrder joined line) (hsub : line'.Sublist line) :
    InOrder joined line' := List.Pairwise.sublist hsub h

theorem InOrder.congr (h : InOrder joined line) (heq : ∀ a ∈ line, joined' a = joined a) :
    InOrder joined' line := by
  refine List.Pairwise.imp_of_mem (fun {a b} ha hb hab ↦ ?_) h
  rw [heq a ha, heq b hb]
  exact hab

/-- **A newcomer at the end.** -/
theorem InOrder.concat (h : InOrder joined line) {a : α} {n : ℕ} (ha : joined a = .atEnd n)
    (hearlier : ∀ b ∈ line, (joined b).time < n) : InOrder joined (line ++ [a]) := by
  refine List.pairwise_append.mpr ⟨h, List.pairwise_singleton _ a, fun b hb c hc ↦ ?_⟩
  rw [List.mem_singleton.mp hc, ha]
  exact Joining.ahead_atEnd (hearlier b hb)

/-- **A newcomer at the front.** -/
theorem InOrder.cons (h : InOrder joined line) {a : α} {n : ℕ} (ha : joined a = .atFront n)
    (hearlier : ∀ b ∈ line, (joined b).time < n) : InOrder joined (a :: line) := by
  refine List.pairwise_cons.mpr ⟨fun b hb ↦ ?_, h⟩
  rw [ha]
  exact Joining.atFront_ahead (hearlier b hb)

theorem InOrder.head {a b : α} (h : InOrder joined (a :: line)) (hb : b ∈ line) :
    (joined a).Ahead (joined b) :=
  (List.pairwise_cons.mp h).1 b hb

/-- The first member of some kind is ahead of all others of that kind. -/
theorem InOrder.find? (h : InOrder joined line) {kind : α → Bool} {a b : α}
    (ha : line.find? kind = some a) (hb : b ∈ line) (hkind : kind b = true) (hne : b ≠ a) :
    (joined a).Ahead (joined b) := by
  obtain ⟨-, before, after, rfl, hbefore⟩ := List.find?_eq_some_iff_append.mp ha
  obtain ⟨-, hafter, -⟩ := List.pairwise_append.mp h
  rcases List.mem_append.mp hb with hmem | hmem
  · have := hbefore b hmem
    rw [hkind] at this
    cases this
  · rcases List.mem_cons.mp hmem with rfl | hmem
    · exact absurd rfl hne
    · exact List.rel_of_pairwise_cons hafter hmem

end

/-- Taking out the first member of some kind is taking out that member. -/
theorem eraseP_eq_erase_of_find? {α : Type*} [DecidableEq α] {kind : α → Bool} {a : α} :
    ∀ {line : List α}, line.find? kind = some a → line.eraseP kind = line.erase a
  | [], h => by cases h
  | b :: line, h => by
    by_cases hb : kind b = true
    · obtain rfl : b = a := by simpa [List.find?_cons, hb] using h
      rw [List.eraseP_cons_of_pos hb, List.erase_cons_head]
    · have hfind : line.find? kind = some a := by simpa [List.find?_cons, hb] using h
      have hne : b ≠ a := fun heq ↦ hb (heq ▸ List.find?_some hfind)
      rw [List.eraseP_cons_of_neg hb, List.erase_cons_tail (by simpa using hne),
        eraseP_eq_erase_of_find? hfind]

end Gaxera

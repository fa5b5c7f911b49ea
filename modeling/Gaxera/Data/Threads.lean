import Mathlib.Algebra.Ring.Nat
import Mathlib.Data.List.Nodup
import Mathlib.Logic.Function.Basic

/-!
# Threaded lists

An intrusive singly linked list lives inside a table: every entry carries an optional link to the
next one, and a head pointer starts the walk. `Threads next head l` says that the walk from `head`
meets exactly the entries of `l`, in order, and then stops at an empty link. The link function is
partial: `next i = none` means that `i` is not an entry of the kind being threaded, so a walk never
runs through it.

Two facts carry every use. The walk is deterministic, so the list is unique and, because it ends,
free of repetitions. And the walk only reads the links of its own members, so a change to any other
entry leaves it alone.
-/

namespace Gaxera

variable {ι : Type*}

/-- The walk from `head` along `next` meets exactly `l` and then ends. -/
inductive Threads (next : ι → Option (Option ι)) : Option ι → List ι → Prop
  | nil : Threads next none []
  | cons {i : ι} {n : Option ι} {l : List ι} (link : next i = some n) (rest : Threads next n l) :
      Threads next (some i) (i :: l)

namespace Threads

variable {next next' : ι → Option (Option ι)} {head : Option ι} {l l' : List ι}

@[simp] theorem none_iff : Threads next none l ↔ l = [] := by
  constructor
  · intro h
    cases h
    rfl
  · rintro rfl
    exact nil

theorem cons_iff {i : ι} :
    Threads next head (i :: l) ↔ head = some i ∧ ∃ n, next i = some n ∧ Threads next n l := by
  constructor
  · intro h
    cases h with
    | cons link rest => exact ⟨rfl, _, link, rest⟩
  · rintro ⟨rfl, n, link, rest⟩
    exact cons link rest

theorem unique (h : Threads next head l) (h' : Threads next head l') : l = l' := by
  induction h generalizing l' with
  | nil => exact (none_iff.mp h').symm
  | cons link _ ih =>
    cases h' with
    | cons link' rest' =>
      rw [link, Option.some_inj] at link'
      subst link'
      rw [ih rest']

theorem exists_link (h : Threads next head l) {i : ι} (hi : i ∈ l) : ∃ n, next i = some n := by
  induction h with
  | nil => simp at hi
  | cons link _ ih =>
    rcases List.mem_cons.mp hi with rfl | hi
    · exact ⟨_, link⟩
    · exact ih hi

theorem congr (h : Threads next head l) (heq : ∀ i ∈ l, next' i = next i) :
    Threads next' head l := by
  induction h with
  | nil => exact nil
  | cons link _ ih =>
    exact cons ((heq _ List.mem_cons_self).trans link)
      (ih fun i hi ↦ heq i (List.mem_cons_of_mem _ hi))

/-- Every suffix of a threaded list is threaded from the link that leads to it. -/
theorem suffix {a : ι} : ∀ {l₁ l₂ : List ι} {head : Option ι},
    Threads next head (l₁ ++ a :: l₂) → Threads next (some a) (a :: l₂)
  | [], _, _, h => by
    obtain ⟨rfl, -⟩ := cons_iff.mp h
    exact h
  | b :: l₁, _, _, h => by
    obtain ⟨-, n, -, rest⟩ := cons_iff.mp h
    exact suffix rest

/-- A walk that ends meets nothing twice: two visits of one entry would be followed by the same
rest, of two different lengths. -/
theorem nodup (h : Threads next head l) : l.Nodup := by
  induction h with
  | nil => exact List.nodup_nil
  | @cons i n l link rest ih =>
    refine List.nodup_cons.mpr ⟨fun hi ↦ ?_, ih⟩
    obtain ⟨l₁, l₂, rfl⟩ := List.append_of_mem hi
    have hlen := congrArg List.length (unique (cons link rest) (suffix rest))
    simp only [List.length_cons, List.length_append] at hlen
    omega

theorem push {i : ι} (h : Threads next head l) (link : next' i = some head)
    (heq : ∀ j ∈ l, next' j = next j) : Threads next' (some i) (i :: l) :=
  cons link (h.congr heq)

/-- Taking `c` out behind its predecessor `q`: the predecessor inherits the link of `c`. -/
theorem unlink {q c : ι} {n : Option ι} (hc : next c = some n) (hq : next' q = some n) :
    ∀ {l₁ l₂ : List ι} {head : Option ι}, Threads next head (l₁ ++ q :: c :: l₂) →
      (∀ j ∈ l₁ ++ l₂, next' j = next j) → Threads next' head (l₁ ++ q :: l₂)
  | [], l₂, _, h, heq => by
    obtain ⟨rfl, m, -, rest⟩ := cons_iff.mp h
    obtain ⟨rfl, n', hn', rest⟩ := cons_iff.mp rest
    rw [hc, Option.some_inj] at hn'
    subst hn'
    exact cons hq (rest.congr fun j hj ↦ heq j (by simpa using hj))
  | b :: l₁, l₂, _, h, heq => by
    obtain ⟨rfl, m, link, rest⟩ := cons_iff.mp h
    refine cons ((heq b (by simp)).trans link) (unlink hc hq rest fun j hj ↦ heq j ?_)
    exact List.mem_cons_of_mem _ hj

/-- Taking out the first entry leaves the list threaded from its link. -/
theorem tail {c : ι} {n : Option ι} (h : Threads next head (c :: l)) (hc : next c = some n) :
    Threads next n l := by
  obtain ⟨-, n', hn', rest⟩ := cons_iff.mp h
  rw [hc, Option.some_inj] at hn'
  exact hn' ▸ rest

end Threads

end Gaxera

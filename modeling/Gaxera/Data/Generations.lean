import Mathlib.Data.List.Nodup
import Mathlib.Logic.Function.Iterate

/-!
# Generational names

A table hands out names that consist of an index and the generation its entry has at the moment. An
entry that is given back advances its generation, and an entry is never given out twice without
having been given back in between. So the generations under which one index is given out are
`first`, `next first`, `next (next first)` and so on, in this order, and a name that has been given
back can only return when the sequence does.

Nothing is said about how the table finds an entry that is free. `Move` is what such a table may do,
and a table with a free list is an instance.
-/

namespace Gaxera

open Function

namespace Generational

variable {ι γ α : Type*}

/-- The generation of each entry, and what it holds while it is given out. -/
abbrev Table (ι γ α : Type*) := ι → Option (γ × Option α)

/-- The generations under which `i` was given out, in order. -/
def generations [DecidableEq ι] (i : ι) (names : List (ι × γ)) : List γ :=
  names.filterMap fun n ↦ if n.1 = i then some n.2 else none

section

variable [DecidableEq ι] {next : γ → γ} {first : γ} {s s' s'' : Table ι γ α} {i : ι} {g : γ}
  {names names' : List (ι × γ)} {o : Option (ι × γ)}

/-- What a table may do, and the name it hands out with it. -/
inductive Move (next : γ → γ) (first : γ) : Table ι γ α → Option (ι × γ) → Table ι γ α → Prop
  | idle (s : Table ι γ α) : Move next first s none s
  /-- A new entry is given out. -/
  | append {s : Table ι γ α} {i : ι} {x : α} (empty : s i = none) :
      Move next first s (some (i, first)) (update s i (some (first, some x)))
  /-- An entry is given out again, under the generation it has by now. -/
  | reuse {s : Table ι γ α} {i : ι} {g : γ} {x : α} (free : s i = some (g, none)) :
      Move next first s (some (i, g)) (update s i (some (g, some x)))
  /-- An entry is given back. -/
  | free {s : Table ι γ α} {i : ι} {g : γ} {x : α} (taken : s i = some (g, some x)) :
      Move next first s none (update s i (some (next g, none)))

/-- Moves one after the other, with the names they hand out. -/
inductive Run (next : γ → γ) (first : γ) : Table ι γ α → List (ι × γ) → Table ι γ α → Prop
  | refl (s : Table ι γ α) : Run next first s [] s
  | step {s s' s'' : Table ι γ α} {names : List (ι × γ)} {o : Option (ι × γ)}
      (run : Run next first s names s') (move : Move next first s' o s'') :
      Run next first s (names ++ o.toList) s''

theorem Run.trans (h : Run next first s names s') (h' : Run next first s' names' s'') :
    Run next first s (names ++ names') s'' := by
  induction h' with
  | refl => simpa using h
  | step _ move ih =>
    rw [← List.append_assoc]
    exact .step ih move

theorem Move.run (h : Move next first s o s') : Run next first s o.toList s' :=
  Run.step (Run.refl s) h

theorem generations_append :
    generations i (names ++ names') = generations i names ++ generations i names' :=
  List.filterMap_append

theorem nodup_of_generations (h : ∀ i, (generations i names).Nodup) : names.Nodup := by
  induction names with
  | nil => exact List.nodup_nil
  | cons n names ih =>
    obtain ⟨j, g⟩ := n
    have hcons : ∀ i, generations i ((j, g) :: names)
        = if j = i then g :: generations i names else generations i names := by
      intro i
      by_cases hj : j = i <;> simp [generations, hj]
    refine List.nodup_cons.mpr ⟨fun hmem ↦ ?_, ih fun i ↦ ?_⟩
    · have hj := h j
      rw [hcons, if_pos rfl] at hj
      refine (List.nodup_cons.mp hj).1 (List.mem_filterMap.mpr ⟨(j, g), hmem, ?_⟩)
      exact if_pos rfl
    · have hi := h i
      rw [hcons] at hi
      split_ifs at hi
      · exact (List.nodup_cons.mp hi).2
      · exact hi

theorem length_generations : (generations i names).length = names.countP fun n ↦ n.1 = i := by
  rw [generations, List.length_filterMap_eq_countP]
  refine List.countP_congr fun n _ ↦ ?_
  by_cases hn : n.1 = i <;> simp [hn]

/-! ## The history of an index -/

/-- After `c` times of being given out, an entry that has been given back `v` times is in its
`v`-th generation. -/
def Aged (next : γ → γ) (first : γ) (s : Table ι γ α) (i : ι) (c : ℕ) : Prop :=
  s i = none ∧ c = 0
    ∨ ∃ v o, s i = some (next^[v] first, o) ∧ c = v + if o.isSome then 1 else 0

theorem Move.aged {c : ℕ} (h : Move next first s o s') (ha : Aged next first s i c) :
    ∃ c', Aged next first s' i c'
      ∧ (generations i o.toList = [] ∧ c' = c
        ∨ generations i o.toList = [next^[c] first] ∧ c' = c + 1) := by
  -- Only a move at `i` itself changes anything, and there are three of them.
  have hother : ∀ {j : ι} {x : Option (γ × Option α)}, i ≠ j →
      Aged next first (update s j x) i c := by
    intro j x hij
    rw [Aged, update_of_ne hij]
    exact ha
  cases h with
  | idle => exact ⟨c, ha, .inl ⟨rfl, rfl⟩⟩
  | @append j x empty =>
    by_cases hij : i = j
    · subst hij
      obtain rfl : c = 0 := by
        rcases ha with ⟨-, hc⟩ | ⟨v, o, hs, -⟩
        · exact hc
        · rw [empty] at hs
          cases hs
      exact ⟨1, .inr ⟨0, some x, update_self .., rfl⟩,
        Or.inr ⟨by simp [generations], rfl⟩⟩
    · exact ⟨c, hother hij, .inl ⟨by simp [generations, Ne.symm hij], rfl⟩⟩
  | @reuse j g x free =>
    by_cases hij : i = j
    · subst hij
      obtain ⟨v, hv, rfl⟩ : ∃ v, next^[v] first = g ∧ c = v := by
        rcases ha with ⟨hs, -⟩ | ⟨v, o, hs, hc⟩
        · rw [free] at hs
          cases hs
        · obtain ⟨rfl, rfl⟩ : g = next^[v] first ∧ none = o := by simpa [free] using hs
          exact ⟨v, rfl, by simpa using hc⟩
      subst hv
      exact ⟨c + 1, .inr ⟨c, some x, update_self .., rfl⟩,
        Or.inr ⟨by simp [generations], rfl⟩⟩
    · exact ⟨c, hother hij, .inl ⟨by simp [generations, Ne.symm hij], rfl⟩⟩
  | @free j g x taken =>
    by_cases hij : i = j
    · subst hij
      refine ⟨c, .inr ?_, .inl ⟨rfl, rfl⟩⟩
      rcases ha with ⟨hs, -⟩ | ⟨v, o, hs, hc⟩
      · rw [taken] at hs
        cases hs
      · obtain ⟨rfl, rfl⟩ : g = next^[v] first ∧ some x = o := by simpa [taken] using hs
        refine ⟨v + 1, none, ?_, by simpa using hc⟩
        rw [update_self, Function.iterate_succ_apply']
    · exact ⟨c, hother hij, .inl ⟨rfl, rfl⟩⟩

/-- **The history of an index**: its generations are given out in the order of the sequence. -/
theorem Run.history (h : Run next first (fun _ ↦ none) names s) (i : ι) :
    generations i names = (List.range (generations i names).length).map (next^[·] first)
      ∧ Aged next first s i (generations i names).length := by
  induction h with
  | refl => exact ⟨rfl, .inl ⟨rfl, rfl⟩⟩
  | @step s' s'' names o run move ih =>
    obtain ⟨hgens, haged⟩ := ih
    obtain ⟨c', haged', hcases⟩ := move.aged haged
    rw [generations_append]
    rcases hcases with ⟨hnil, rfl⟩ | ⟨hone, rfl⟩
    · rw [hnil, List.append_nil]
      exact ⟨hgens, haged'⟩
    · rw [hone, List.length_append, List.length_singleton, List.range_succ, List.map_append,
        ← hgens]
      exact ⟨rfl, haged'⟩

/-- An entry that is given out has been handed out under the generation it has. -/
theorem Run.mem_of_taken {x : α} (h : Run next first (fun _ ↦ none) names s)
    (hs : s i = some (g, some x)) : g ∈ generations i names := by
  obtain ⟨hgens, haged⟩ := h.history i
  rcases haged with ⟨hnone, -⟩ | ⟨v, o, hv, hc⟩
  · rw [hs] at hnone
    cases hnone
  · obtain ⟨rfl, rfl⟩ : g = next^[v] first ∧ some x = o := by simpa [hs] using hv
    rw [Option.isSome_some, if_pos rfl] at hc
    rw [hgens]
    exact List.mem_map.mpr ⟨v, List.mem_range.mpr (by omega), rfl⟩

/-- **What has become of an entry** that was given out: it has advanced once for each time it was
given back, and until then it holds what it held. -/
theorem Run.since {x : α} (h : Run next first s names s') (hs : s i = some (g, some x)) :
    ∃ v o, s' i = some (next^[v] g, o)
      ∧ v = (generations i names).length + (if o.isSome then 0 else 1) ∧ (v = 0 → o = some x) := by
  induction h with
  | refl => exact ⟨0, some x, hs, rfl, fun _ ↦ rfl⟩
  | @step t t' names name run move ih =>
    obtain ⟨v, o, ht, hv, hx⟩ := ih
    rw [generations_append, List.length_append]
    have hother : ∀ {j : ι} {y : Option (γ × Option α)} {l : List γ}, i ≠ j → l = [] →
        ∃ v o, update t j y i = some (next^[v] g, o)
          ∧ v = (generations i names).length + l.length + (if o.isSome then 0 else 1)
          ∧ (v = 0 → o = some x) := by
      rintro j y l hij rfl
      rw [update_of_ne hij]
      exact ⟨v, o, ht, hv, hx⟩
    cases move with
    | idle => exact ⟨v, o, ht, hv, hx⟩
    | @append j y empty =>
      have hij : i ≠ j := by
        rintro rfl
        rw [ht] at empty
        cases empty
      exact hother hij (by simp [generations, Ne.symm hij])
    | @reuse j g' y free =>
      by_cases hij : i = j
      · subst hij
        obtain ⟨rfl, rfl⟩ : next^[v] g = g' ∧ o = none := by simpa [ht] using free
        refine ⟨v, some y, update_self .., ?_, ?_⟩
        · simpa [generations] using hv
        · rintro rfl
          simp at hv
      · exact hother hij (by simp [generations, Ne.symm hij])
    | @free j g' y taken =>
      by_cases hij : i = j
      · subst hij
        obtain ⟨rfl, rfl⟩ : next^[v] g = g' ∧ o = some y := by simpa [ht] using taken
        refine ⟨v + 1, none, ?_, ?_, nofun⟩
        · rw [update_self, Function.iterate_succ_apply']
        · simpa [generations] using hv
      · exact hother hij rfl

/-! ## Names do not return -/

/-- The sequence of generations does not repeat among its first `bound` members. -/
def Injective (next : γ → γ) (first : γ) (bound : ℕ) : Prop :=
  ∀ j j', j < bound → j' < bound → next^[j] first = next^[j'] first → j = j'

/-- **No name is handed out twice.** -/
theorem Run.nodup {bound : ℕ} (hinj : Injective next first bound)
    (h : Run next first (fun _ ↦ none) names s)
    (hbound : ∀ i, (generations i names).length ≤ bound) : names.Nodup := by
  refine nodup_of_generations fun i ↦ ?_
  rw [(h.history i).1]
  refine List.Nodup.map_on (fun j hj j' hj' heq ↦ hinj j j' ?_ ?_ heq) List.nodup_range
  · exact Nat.lt_of_lt_of_le (List.mem_range.mp hj) (hbound i)
  · exact Nat.lt_of_lt_of_le (List.mem_range.mp hj') (hbound i)

theorem Run.free_of_generations_eq_nil (h : Run next first s names s') (hs : s i = some (g, none))
    (hnil : generations i names = []) : s' i = some (g, none) := by
  induction h with
  | refl => exact hs
  | @step t t' names o run move ih =>
    rw [generations_append, List.append_eq_nil_iff] at hnil
    have ht := ih hnil.1
    -- Whatever is done, it is not done at `i`.
    have hother : ∀ {j : ι} {y : Option (γ × Option α)}, i ≠ j →
        update t j y i = some (g, none) := by
      intro j y hij
      rw [update_of_ne hij, ht]
    cases move with
    | idle => exact ht
    | @append j x empty =>
      refine hother ?_
      rintro rfl
      simp [generations] at hnil
    | @reuse j g' x free =>
      refine hother ?_
      rintro rfl
      simp [generations] at hnil
    | @free j g' x taken =>
      refine hother ?_
      rintro rfl
      rw [ht] at taken
      simp at taken

/-- **An entry under the generation it had** has held what it held all the while, unless it has
been given out as often as the sequence takes to return. -/
theorem Run.stays {bound : ℕ} {x y : α} (hreturn : ∀ v, next^[v] g = g → v ≠ 0 → bound ≤ v)
    (h : Run next first s names s') (h' : Run next first s' names' s'')
    (hs : s i = some (g, some x)) (hs'' : s'' i = some (g, some y))
    (hbound : (generations i (names ++ names')).length < bound) : s' i = some (g, some x) := by
  -- At the end the entry has not been given back at all, so it has not been given out either.
  obtain ⟨v, o, hv, hc, -⟩ := (h.trans h').since hs
  obtain ⟨heq, rfl⟩ : g = next^[v] g ∧ some y = o := by simpa [hs''] using hv
  rw [Option.isSome_some, if_pos rfl, Nat.add_zero] at hc
  have hzero : v = 0 := by
    by_contra hne
    have := hreturn v heq.symm hne
    omega
  rw [hzero, generations_append, List.length_append] at hc
  obtain ⟨v', o', hv', hc', hx⟩ := h.since hs
  cases o' with
  | some z =>
    rw [Option.isSome_some, if_pos rfl] at hc'
    obtain rfl : v' = 0 := by omega
    rw [hv', hx rfl]
    rfl
  | none =>
    -- Given back in between, it would be free at the end.
    have hnil : generations i names' = [] := List.eq_nil_of_length_eq_zero (by omega)
    rw [h'.free_of_generations_eq_nil hv' hnil] at hs''
    simp at hs''

/-- **A name that has been given back does not return.** -/
theorem Run.retired {bound : ℕ} {x : α} (hinj : Injective next first bound)
    (h : Run next first (fun _ ↦ none) names s) (hmem : g ∈ generations i names)
    (hback : ∀ y, s i ≠ some (g, some y)) (h' : Run next first s names' s')
    (hbound : (generations i (names ++ names')).length ≤ bound) : s' i ≠ some (g, some x) := by
  obtain ⟨hgens, haged⟩ := h.history i
  obtain ⟨-, haged'⟩ := (h.trans h').history i
  obtain ⟨j, hj, rfl⟩ : ∃ j, j < (generations i names).length ∧ next^[j] first = g := by
    rw [hgens, List.mem_map] at hmem
    obtain ⟨j, hj, heq⟩ := hmem
    exact ⟨j, List.mem_range.mp hj, heq⟩
  intro hs'
  rw [generations_append, List.length_append] at haged' hbound
  rcases haged' with ⟨hnone, -⟩ | ⟨v', o', hv', hc'⟩
  · rw [hs'] at hnone
    cases hnone
  obtain ⟨heq, rfl⟩ : next^[j] first = next^[v'] first ∧ some x = o' := by simpa [hs'] using hv'
  rw [Option.isSome_some, if_pos rfl] at hc'
  obtain rfl : j = v' := hinj j v' (by omega) (by omega) heq
  -- So nothing was given out at `i` since, and the entry was free by then.
  rcases haged with ⟨-, hc⟩ | ⟨v, o, hv, hc⟩
  · omega
  · cases o with
    | some y =>
      rw [Option.isSome_some, if_pos rfl] at hc
      obtain rfl : v = j := by omega
      exact hback y hv
    | none =>
      rw [Option.isSome_none, if_neg (by simp)] at hc
      have hnil : generations i names' = [] := List.length_eq_zero_iff.mp (by omega)
      rw [h'.free_of_generations_eq_nil hv hnil] at hs'
      simp at hs'

end

end Generational

end Gaxera

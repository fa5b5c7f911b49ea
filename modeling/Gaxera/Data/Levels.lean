import Mathlib.Data.List.Perm.Basic

/-!
# Queues on several levels

A list of queues, one to a level, and what is queued on any of them. A write to one level changes
the whole by what it changes on that level, up to order.
-/

namespace Gaxera

variable {α : Type*} {levels : List (List α)} {p : ℕ} {queue : List α}

theorem perm_flatten_of_getElem? (h : levels[p]? = some queue) :
    levels.flatten.Perm (queue ++ (levels.eraseIdx p).flatten) := by
  obtain ⟨hp, rfl⟩ := List.getElem?_eq_some_iff.mp h
  exact (List.getElem_cons_eraseIdx_perm hp).symm.flatten

/-- **Writing to one level.** -/
theorem perm_flatten_set (h : levels[p]? = some queue) (queue' : List α) :
    (levels.set p queue').flatten.Perm (queue' ++ (levels.eraseIdx p).flatten) := by
  obtain ⟨hp, -⟩ := List.getElem?_eq_some_iff.mp h
  have hset : (levels.set p queue')[p]? = some queue' := List.getElem?_set_self hp
  have herase : (levels.set p queue').eraseIdx p = levels.eraseIdx p := List.eraseIdx_set_eq
  exact herase ▸ perm_flatten_of_getElem? hset

end Gaxera

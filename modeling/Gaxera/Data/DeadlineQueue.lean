import Mathlib.Data.List.Count
import Mathlib.Order.Defs.PartialOrder
import Mathlib.Order.Basic
import Mathlib.Data.Nat.Init
import Mathlib.Order.Nat

/-!
# A bounded queue of deadlines

Entries wait in the order of their deadlines. A new one is put where a binary search of the
deadlines points, an entry can be taken out by its name, and when the time advances the entries that
are due leave from the front.

A binary search says nothing about which of several equal deadlines it hits, so nothing is assumed
about that: `BinarySearch` is any search that keeps the contract. An entry is followed through a run
by itself. Names and deadlines may repeat; a user who wants to tell equal entries apart numbers
them.

The entries have one invariant, that they are sorted. It turns "the longest run of due entries at
the front" into "the entries that are due", which is all that the fate of an entry depends on.
-/

namespace Gaxera

/-! ## Searching -/

/-- A search in a sorted list, which answers with a place of the value or with the place where it
would have to be. -/
structure BinarySearch where
  search : List ℕ → ℕ → Except ℕ ℕ
  found : ∀ {l : List ℕ} {d i : ℕ}, l.Pairwise (· ≤ ·) → search l d = .ok i → l[i]? = some d
  missing : ∀ {l : List ℕ} {d i : ℕ}, l.Pairwise (· ≤ ·) → search l d = .error i →
    i ≤ l.length ∧ (∀ x ∈ l.take i, x < d) ∧ ∀ x ∈ l.drop i, d < x

namespace BinarySearch

variable {l : List ℕ} {d : ℕ}

/-- The place, whether the value is there or not. -/
def position (s : BinarySearch) (l : List ℕ) (d : ℕ) : ℕ :=
  match s.search l d with
  | .ok i => i
  | .error i => i

/-- **The place is between the smaller and the larger values.** -/
theorem position_spec (s : BinarySearch) (h : l.Pairwise (· ≤ ·)) (d : ℕ) :
    s.position l d ≤ l.length ∧ (∀ x ∈ l.take (s.position l d), x ≤ d)
      ∧ ∀ x ∈ l.drop (s.position l d), d ≤ x := by
  rw [position]
  rcases hsearch : s.search l d with i | i
  · obtain ⟨hle, hbefore, hafter⟩ := s.missing h hsearch
    exact ⟨hle, fun x hx ↦ (hbefore x hx).le, fun x hx ↦ (hafter x hx).le⟩
  · obtain ⟨hlt, rfl⟩ := List.getElem?_eq_some_iff.mp (s.found h hsearch)
    have hsplit : l = l.take i ++ l[i] :: l.drop (i + 1) := by
      rw [List.getElem_cons_drop, List.take_append_drop]
    rw [hsplit, List.pairwise_append, List.pairwise_cons] at h
    obtain ⟨-, ⟨hrest, -⟩, hbefore⟩ := h
    refine ⟨hlt.le, fun x hx ↦ hbefore x hx _ List.mem_cons_self, fun x hx ↦ ?_⟩
    rw [← List.getElem_cons_drop hlt] at hx
    rcases List.mem_cons.mp hx with rfl | hx
    · exact le_rfl
    · exact hrest x hx

/-- Looking at one value after the other keeps the contract. -/
def linear : BinarySearch where
  search l d :=
    if d ∈ l then .ok (l.takeWhile (· < d)).length else .error (l.takeWhile (· < d)).length
  found {l d i} h hsearch := by
    split at hsearch
    · next hmem =>
      obtain rfl : (l.takeWhile (· < d)).length = i := Except.ok.inj hsearch
      induction l with
      | nil => exact absurd hmem List.not_mem_nil
      | cons x l ih =>
        obtain ⟨hx, hl⟩ := List.pairwise_cons.mp h
        by_cases hlt : x < d
        · have hmem' : d ∈ l := (List.mem_cons.mp hmem).resolve_left (by omega)
          simpa [hlt] using ih hl hmem' rfl
        · -- the value is not before this one, and not smaller
          have heq : x = d := by
            rcases List.mem_cons.mp hmem with heq | hmem
            · exact heq.symm
            · exact le_antisymm (hx d hmem) (Nat.le_of_not_lt hlt)
          simp [heq]
    · exact absurd hsearch (by simp)
  missing {l d i} h hsearch := by
    split at hsearch
    · exact absurd hsearch (by simp)
    · next hmem =>
      obtain rfl : (l.takeWhile (· < d)).length = i := Except.error.inj hsearch
      induction l with
      | nil => simp
      | cons x l ih =>
        obtain ⟨hx, hl⟩ := List.pairwise_cons.mp h
        have hne : d ≠ x ∧ d ∉ l := by simpa using hmem
        by_cases hlt : x < d
        · simpa [hlt] using ih hl hne.2 rfl
        · have hlt' : d < x := by omega
          simpa [hlt, hlt'] using fun y hy ↦ hlt'.trans_le (hx y hy)

end BinarySearch

/-! ## The queue -/

structure DeadlineQueue (α : Type*) where
  entries : List α
  capacity : ℕ

inductive DeadlineOp (α ι : Type*)
  | insert (x : α)
  | remove (name : ι)
  | advanceTo (now : ℕ)

/-- What one operation has done: an entry was taken in, or taken out, or some were due. -/
structure DeadlineStep (α : Type*) where
  accepted : Bool
  removed : Option α
  fired : List α

namespace DeadlineQueue

variable {α ι : Type*} [DecidableEq ι] (s : BinarySearch) (due : α → ℕ) (name : α → ι)

def exec (q : DeadlineQueue α) : DeadlineOp α ι → DeadlineStep α × DeadlineQueue α
  | .insert x =>
    if q.capacity ≤ q.entries.length then (⟨false, none, []⟩, q)
    else
      let i := s.position (q.entries.map due) (due x)
      (⟨true, none, []⟩, { q with entries := q.entries.take i ++ x :: q.entries.drop i })
  | .remove n =>
    (⟨true, q.entries.find? fun x ↦ name x = n, []⟩,
      { q with entries := q.entries.eraseP fun x ↦ name x = n })
  | .advanceTo now =>
    (⟨true, none, q.entries.takeWhile fun x ↦ due x ≤ now⟩,
      { q with entries := q.entries.dropWhile fun x ↦ due x ≤ now })

def run (q : DeadlineQueue α) (ops : List (DeadlineOp α ι)) : DeadlineQueue α :=
  ops.foldl (fun q op ↦ (q.exec s due name op).2) q

/-- What the operations of a run have done, one after the other. -/
def journal (q : DeadlineQueue α) : List (DeadlineOp α ι) → List (DeadlineStep α)
  | [] => []
  | op :: ops => (q.exec s due name op).1 :: journal (q.exec s due name op).2 ops

/-- The entries are in the order of their deadlines, and there is room for them. -/
structure Wf (q : DeadlineQueue α) : Prop where
  sorted : q.entries.Pairwise fun x y ↦ due x ≤ due y
  bounded : q.entries.length ≤ q.capacity

variable {s due name} {q : DeadlineQueue α} {op : DeadlineOp α ι}

theorem getElem?_journal (q : DeadlineQueue α) (ops : List (DeadlineOp α ι)) (k : ℕ) :
    (q.journal s due name ops)[k]?
      = ops[k]?.map fun op ↦ ((q.run s due name (ops.take k)).exec s due name op).1 := by
  induction ops generalizing q k with
  | nil => rfl
  | cons op ops ih =>
    rcases k with _ | k
    · rfl
    · exact ih _ k

theorem drop_journal (q : DeadlineQueue α) (ops : List (DeadlineOp α ι)) (k : ℕ) :
    (q.journal s due name ops).drop k
      = (q.run s due name (ops.take k)).journal s due name (ops.drop k) := by
  induction ops generalizing q k with
  | nil => simp [journal, run]
  | cons op ops ih =>
    rcases k with _ | k
    · rfl
    · exact ih _ k

variable {ops : List (DeadlineOp α ι)}

theorem run_take_succ (q : DeadlineQueue α) {k : ℕ} (hop : ops[k]? = some op) :
    q.run s due name (ops.take (k + 1))
      = ((q.run s due name (ops.take k)).exec s due name op).2 := by
  rw [List.take_add_one, hop, run, List.foldl_append]
  rfl

theorem capacity_exec (q : DeadlineQueue α) (op : DeadlineOp α ι) :
    (q.exec s due name op).2.capacity = q.capacity := by
  rcases op with x | n | now
  · rw [exec]
    split <;> rfl
  · rfl
  · rfl

theorem capacity_run (q : DeadlineQueue α) (ops : List (DeadlineOp α ι)) :
    (q.run s due name ops).capacity = q.capacity := by
  induction ops generalizing q with
  | nil => rfl
  | cons op ops ih => exact (ih _).trans (capacity_exec q op)

theorem fired_sublist (q : DeadlineQueue α) (op : DeadlineOp α ι) :
    (q.exec s due name op).1.fired.Sublist q.entries := by
  rcases op with x | n | now
  · rw [exec]
    split <;> exact List.nil_sublist _
  · exact List.nil_sublist _
  · exact List.takeWhile_sublist _

/-! ## Order -/

theorem takeWhile_due {l : List α} (h : l.Pairwise fun x y ↦ due x ≤ due y) (now : ℕ) :
    l.takeWhile (fun x ↦ due x ≤ now) = l.filter (fun x ↦ due x ≤ now)
      ∧ l.dropWhile (fun x ↦ due x ≤ now) = l.filter fun x ↦ now < due x := by
  induction l with
  | nil => exact ⟨rfl, rfl⟩
  | cons x l ih =>
    obtain ⟨hx, hl⟩ := List.pairwise_cons.mp h
    obtain ⟨htake, hdrop⟩ := ih hl
    by_cases hdue : due x ≤ now
    · simp [hdue, htake, hdrop, Nat.not_lt.mpr hdue]
    · -- behind an entry that is not due, none is
      have hlate : ∀ y ∈ l, now < due y := fun y hy ↦ (Nat.lt_of_not_le hdue).trans_le (hx y hy)
      have hfilter : l.filter (fun y ↦ due y ≤ now) = [] :=
        List.filter_eq_nil_iff.mpr fun y hy ↦ by simpa using hlate y hy
      have hall : l.filter (fun y ↦ now < due y) = l :=
        List.filter_eq_self.mpr fun y hy ↦ by simpa using hlate y hy
      simp [hdue, hfilter, Nat.lt_of_not_le hdue, hall]

/-- **The order is kept.** -/
theorem Wf.exec (h : q.Wf due) (op : DeadlineOp α ι) : (q.exec s due name op).2.Wf due := by
  rcases op with x | n | now
  · rw [DeadlineQueue.exec]
    split
    · exact h
    · next hroom =>
      have hkeys : (q.entries.map due).Pairwise (· ≤ ·) := List.pairwise_map.mpr h.sorted
      obtain ⟨hle, hbefore, hafter⟩ := s.position_spec hkeys (due x)
      rw [List.length_map] at hle
      generalize s.position (q.entries.map due) (due x) = i at hle hbefore hafter
      rw [← List.map_take] at hbefore
      rw [← List.map_drop] at hafter
      constructor
      · have hsorted := h.sorted
        rw [← List.take_append_drop i q.entries, List.pairwise_append] at hsorted
        obtain ⟨htake, hdrop, hacross⟩ := hsorted
        refine List.pairwise_append.mpr ⟨htake, List.pairwise_cons.mpr ⟨fun y hy ↦ ?_, hdrop⟩,
          fun y hy z hz ↦ ?_⟩
        · exact hafter _ (List.mem_map_of_mem hy)
        · rcases List.mem_cons.mp hz with rfl | hz
          · exact hbefore _ (List.mem_map_of_mem hy)
          · exact hacross y hy z hz
      · simp only [List.length_append, List.length_cons, List.length_take, List.length_drop]
        omega
  · exact ⟨h.sorted.sublist (List.eraseP_sublist ..),
      (List.eraseP_sublist ..).length_le.trans h.bounded⟩
  · exact ⟨h.sorted.sublist (List.dropWhile_sublist _),
      (List.dropWhile_sublist _).length_le.trans h.bounded⟩

theorem Wf.run (h : q.Wf due) (ops : List (DeadlineOp α ι)) : (q.run s due name ops).Wf due := by
  induction ops generalizing q with
  | nil => exact h
  | cons op ops ih => exact ih (h.exec op)

theorem mem_exec {x : α} (hx : x ∈ (q.exec s due name op).2.entries) :
    x ∈ q.entries ∨ op = .insert x ∧ (q.exec s due name op).1.accepted = true := by
  rcases op with y | n | now
  · rw [exec] at hx ⊢
    split at hx
    · exact .inl hx
    · next hroom =>
      rw [if_neg hroom]
      rcases List.mem_append.mp hx with hx | hx
      · exact .inl (List.mem_of_mem_take hx)
      · rcases List.mem_cons.mp hx with rfl | hx
        · exact .inr ⟨rfl, rfl⟩
        · exact .inl (List.mem_of_mem_drop hx)
  · exact .inl (List.mem_of_mem_eraseP hx)
  · exact .inl ((List.dropWhile_sublist _).subset hx)

/-- **Whatever is in the queue was put in**, by one of the operations before. -/
theorem mem_run {x : α} {k : ℕ} (hx : x ∈ (q.run s due name (ops.take k)).entries) :
    x ∈ q.entries ∨ ∃ i < k, ops[i]? = some (.insert x)
      ∧ (q.journal s due name ops)[i]?.map DeadlineStep.accepted = some true := by
  induction k with
  | zero => exact .inl hx
  | succ k ih =>
    rcases hop : ops[k]? with _ | op
    · rw [List.take_add_one, hop, Option.toList_none, List.append_nil] at hx
      rcases ih hx with hx | ⟨i, hi, hput⟩
      · exact .inl hx
      · exact .inr ⟨i, Nat.lt_succ_of_lt hi, hput⟩
    · rw [run_take_succ q hop] at hx
      rcases mem_exec hx with hx | ⟨rfl, haccepted⟩
      · rcases ih hx with hx | ⟨i, hi, hput⟩
        · exact .inl hx
        · exact .inr ⟨i, Nat.lt_succ_of_lt hi, hput⟩
      · refine .inr ⟨k, Nat.lt_succ_self k, hop, ?_⟩
        rw [getElem?_journal, hop]
        exact congrArg some haccepted

/-! ## The fate of an entry -/

/-- Which operation is the first to advance the time to the deadline of `x`. -/
def firstDue (due : α → ℕ) (x : α) : List (DeadlineOp α ι) → Option ℕ
  | [] => none
  | .advanceTo now :: ops => if due x ≤ now then some 0 else (firstDue due x ops).map (· + 1)
  | _ :: ops => (firstDue due x ops).map (· + 1)

omit [DecidableEq ι] in
theorem firstDue_cons (x : α) (op : DeadlineOp α ι) (ops : List (DeadlineOp α ι)) :
    firstDue due x (op :: ops)
      = if firstDue due x [op] = some 0 then some 0 else (firstDue due x ops).map (· + 1) := by
  rcases op with y | n | now
  · simp [firstDue]
  · simp [firstDue]
  · by_cases hdue : due x ≤ now <;> simp [firstDue, hdue]

variable [DecidableEq α] {x : α}

/-- How often an operation has let `x` go because it was due. -/
def firedAt (x : α) (journal : List (DeadlineStep α)) (j : ℕ) : ℕ :=
  (journal[j]?.elim [] DeadlineStep.fired).count x

/-- Whether an operation has taken `x` out. -/
def removedAt (x : α) (journal : List (DeadlineStep α)) (j : ℕ) : Prop :=
  journal[j]?.bind DeadlineStep.removed = some x

/-- **What becomes of an entry.** Either it is taken out before it is due, and then it never fires;
or it is never taken out, and it fires once, at the first operation that reaches its deadline, and
at no other. -/
inductive Fate (due : α → ℕ) (x : α) (ops : List (DeadlineOp α ι))
    (journal : List (DeadlineStep α)) : Prop
  | removed (j : ℕ) (hj : removedAt x journal j) (hbefore : ∀ i ∈ firstDue due x ops, j < i)
      (hnever : ∀ i, firedAt x journal i = 0)
  | fires (hstays : ∀ j, ¬ removedAt x journal j)
      (hfired : ∀ j, firedAt x journal j = if firstDue due x ops = some j then 1 else 0)

private theorem count_eraseP (name : α → ι) (l : List α) (n : ι) :
    (l.eraseP fun y ↦ name y = n).count x
        + (if (l.find? fun y ↦ name y = n) = some x then 1 else 0) = l.count x := by
  induction l with
  | nil => rfl
  | cons y l ih =>
    by_cases hname : name y = n
    · by_cases heq : y = x
      · subst heq
        simp [hname]
      · simp [hname, heq]
    · simp only [List.eraseP_cons, List.find?_cons, hname, decide_false, cond_false,
        List.count_cons]
      omega

variable (s due name)

/-- **An entry is in the queue, or it has been taken out, or it has fired**, as often as it came in.
-/
theorem count_exec (q : DeadlineQueue α) (hop : op ≠ .insert x) :
    (q.exec s due name op).2.entries.count x + (q.exec s due name op).1.fired.count x
      + (if (q.exec s due name op).1.removed = some x then 1 else 0) = q.entries.count x := by
  rcases op with y | n | now
  · have hne : y ≠ x := fun heq ↦ hop (heq ▸ rfl)
    rw [exec]
    split
    · simp
    · generalize s.position _ _ = i
      have hcount := congrArg (List.count x) (List.take_append_drop i q.entries)
      rw [List.count_append] at hcount
      simp [List.count_append, List.count_cons_of_ne hne, hcount]
  · rw [exec, List.count_nil, Nat.add_zero]
    exact count_eraseP name q.entries n
  · have hcount := congrArg (List.count x)
      (List.takeWhile_append_dropWhile (p := fun y ↦ decide (due y ≤ now)) (l := q.entries))
    rw [List.count_append] at hcount
    simp only [exec, reduceCtorEq, if_false]
    omega

variable {s due name} in
theorem count_of_accepted (haccepted : (q.exec s due name (.insert x)).1.accepted = true) :
    (q.exec s due name (.insert x)).2.entries.count x = q.entries.count x + 1 := by
  by_cases hfull : q.capacity ≤ q.entries.length
  · rw [exec, if_pos hfull] at haccepted
    exact absurd haccepted Bool.false_ne_true
  · rw [exec, if_neg hfull]
    generalize s.position _ _ = i
    have hcount := congrArg (List.count x) (List.take_append_drop i q.entries)
    rw [List.count_append] at hcount
    rw [List.count_append, List.count_cons_self]
    omega

variable {due} in
theorem count_fired (h : q.Wf due) (op : DeadlineOp α ι) :
    (q.exec s due name op).1.fired.count x
      = if firstDue due x [op] = some 0 then q.entries.count x else 0 := by
  rcases op with y | n | now
  · have hfired : (q.exec s due name (.insert y : DeadlineOp α ι)).1.fired = [] := by
      rw [exec]
      split <;> rfl
    simp [hfired, firstDue]
  · simp [exec, firstDue]
  · simp only [exec, (takeWhile_due h.sorted now).1, firstDue]
    by_cases hdue : due x ≤ now
    · simp [hdue, List.count_filter]
    · simp [hdue, List.count_eq_zero]

/-- What is not in the queue and does not come in does not go out. -/
theorem absent (hx : q.entries.count x = 0) (hops : ∀ op ∈ ops, op ≠ .insert x) (j : ℕ) :
    ¬ removedAt x (q.journal s due name ops) j ∧ firedAt x (q.journal s due name ops) j = 0 := by
  induction ops generalizing q j with
  | nil => exact ⟨by simp [journal, removedAt], by simp [journal, firedAt]⟩
  | cons op ops ih =>
    obtain ⟨hop, hops⟩ := List.forall_mem_cons.mp hops
    have hcount := count_exec s due name q hop
    rcases j with _ | j
    · constructor
      · intro hremoved
        rw [if_pos (show (q.exec s due name op).1.removed = some x from hremoved)] at hcount
        omega
      · change (q.exec s due name op).1.fired.count x = 0
        omega
    · exact ih (by omega) hops j

variable {due} in
/-- **Every entry meets its fate.** -/
theorem fate (h : q.Wf due) (hx : q.entries.count x = 1) (hops : ∀ op ∈ ops, op ≠ .insert x) :
    Fate due x ops (q.journal s due name ops) := by
  induction ops generalizing q with
  | nil =>
    exact .fires (fun j ↦ by simp [journal, removedAt]) fun j ↦ by simp [journal, firedAt, firstDue]
  | cons op ops ih =>
    obtain ⟨hop, hops⟩ := List.forall_mem_cons.mp hops
    have hcount := count_exec s due name q hop
    have hfired := count_fired (x := x) s name h op
    rw [hx] at hcount hfired
    -- the entry leaves because it is due, or because it is taken out, or it stays
    by_cases hdue : firstDue due x [op] = some 0
    · rw [if_pos hdue] at hfired
      have hgone : (q.exec s due name op).2.entries.count x = 0 := by omega
      have habsent := absent s due name hgone hops
      have hstep : (q.exec s due name op).1.removed ≠ some x := by
        intro hremoved
        rw [if_pos hremoved] at hcount
        omega
      refine .fires (fun j ↦ ?_) fun j ↦ ?_
      · rcases j with _ | j
        · exact hstep
        · exact (habsent j).1
      · rw [firstDue_cons, if_pos hdue]
        rcases j with _ | j
        · exact hfired
        · rw [if_neg (by simp)]
          exact (habsent j).2
    · rw [if_neg hdue] at hfired
      by_cases hremoved : (q.exec s due name op).1.removed = some x
      · rw [if_pos hremoved] at hcount
        have hgone : (q.exec s due name op).2.entries.count x = 0 := by omega
        have habsent := absent s due name hgone hops
        refine .removed 0 hremoved (fun i hi ↦ ?_) fun i ↦ ?_
        · rw [firstDue_cons, if_neg hdue, Option.mem_def, Option.map_eq_some_iff] at hi
          obtain ⟨i, -, rfl⟩ := hi
          exact i.succ_pos
        · rcases i with _ | i
          · exact hfired
          · exact (habsent i).2
      · rw [if_neg hremoved] at hcount
        have hstill : (q.exec s due name op).2.entries.count x = 1 := by omega
        rcases ih (h.exec op) hstill hops with ⟨j, hj, hbefore, hnever⟩ | ⟨hstays, hlater⟩
        · refine .removed (j + 1) hj (fun i hi ↦ ?_) fun i ↦ ?_
          · rw [firstDue_cons, if_neg hdue, Option.mem_def, Option.map_eq_some_iff] at hi
            obtain ⟨i, hi, rfl⟩ := hi
            exact Nat.succ_lt_succ (hbefore i hi)
          · rcases i with _ | i
            · exact hfired
            · exact hnever i
        · refine .fires (fun j ↦ ?_) fun j ↦ ?_
          · rcases j with _ | j
            · exact hremoved
            · exact hstays j
          · rw [firstDue_cons, if_neg hdue]
            rcases j with _ | j
            · rw [if_neg (by simp)]
              exact hfired
            · have hshift : (firstDue due x ops).map (· + 1) = some (j + 1)
                  ↔ firstDue due x ops = some j := by simp
              simp only [hshift]
              exact hlater j

end DeadlineQueue

end Gaxera

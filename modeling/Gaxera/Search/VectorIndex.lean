import Gaxera.Storage.Header

/-!
# The vector index

The index is one list for everybody: an object is found in it or put behind the others, and its
vector is written over in place. A search goes through the list, leaves out the objects its caller
may not see, and sorts the rest by their scores; of two objects with one score the one that stands
first in the list comes first.

So the order of the list is part of the answer, and it comes from the operations of everybody. What
makes that harmless is that leaving out commutes with every operation: the part of the list a caller
sees is the list that the operations on its objects alone would have built.

Vectors and scores are of any type, and a score is any function of two vectors.
-/

namespace Gaxera

variable {V S : Type}

structure VectorIndexEntry (V : Type) where
  objectId : GaxObjectId
  vector : V
deriving DecidableEq

structure TurboVecProvider (V : Type) where
  entries : List (VectorIndexEntry V)
  dimension : ℕ

namespace TurboVecProvider

def new (dimension : ℕ) : TurboVecProvider V := ⟨[], dimension⟩

/-- The first entry of the object is written over; without one, a new entry goes to the end. -/
def insertEntry (objectId : GaxObjectId) (vector : V) :
    List (VectorIndexEntry V) → List (VectorIndexEntry V)
  | [] => [⟨objectId, vector⟩]
  | entry :: entries =>
    if entry.objectId = objectId then { entry with vector } :: entries
    else entry :: insertEntry objectId vector entries

def insertVector (provider : TurboVecProvider V) (objectId : GaxObjectId) (vector : V) :
    TurboVecProvider V :=
  { provider with entries := insertEntry objectId vector provider.entries }

def objectRemove (provider : TurboVecProvider V) (id : GaxObjectId) : TurboVecProvider V :=
  { provider with entries := provider.entries.filter fun entry ↦ decide (entry.objectId ≠ id) }

/-- The scores are sorted downwards, and equal ones stay in their order. -/
def searchSimilarity (score : V → V → S) (le : S → S → Bool) (provider : TurboVecProvider V)
    (queryVector : V) (topK : ℕ) (allowlist : List GaxObjectId) : List (GaxObjectId × S) :=
  let scores := provider.entries.filterMap fun entry ↦
    if entry.objectId ∈ allowlist then some (entry.objectId, score queryVector entry.vector)
    else none
  (scores.mergeSort fun a b ↦ le b.2 a.2).take topK

/-! ## What a caller sees -/

inductive IndexOp (V : Type)
  | insertVector (objectId : GaxObjectId) (vector : V)
  | objectRemove (id : GaxObjectId)
deriving DecidableEq

/-- The object an operation is about. -/
def IndexOp.target : IndexOp V → GaxObjectId
  | .insertVector objectId _ => objectId
  | .objectRemove id => id

def step (provider : TurboVecProvider V) : IndexOp V → TurboVecProvider V
  | .insertVector objectId vector => provider.insertVector objectId vector
  | .objectRemove id => provider.objectRemove id

def run (ops : List (IndexOp V)) (provider : TurboVecProvider V) : TurboVecProvider V :=
  ops.foldl step provider

/-- The index without the objects that are not on the list. -/
def visible (allowlist : List GaxObjectId) (provider : TurboVecProvider V) : TurboVecProvider V :=
  { provider with entries := provider.entries.filter fun entry ↦ entry.objectId ∈ allowlist }

variable {allowlist : List GaxObjectId}

theorem filter_insertEntry (objectId : GaxObjectId) (vector : V)
    (entries : List (VectorIndexEntry V)) :
    (insertEntry objectId vector entries).filter (fun entry ↦ entry.objectId ∈ allowlist) =
      if objectId ∈ allowlist then
        insertEntry objectId vector (entries.filter fun entry ↦ entry.objectId ∈ allowlist)
      else entries.filter fun entry ↦ entry.objectId ∈ allowlist := by
  induction entries with
  | nil => by_cases hallowed : objectId ∈ allowlist <;> simp [insertEntry, hallowed]
  | cons entry entries ih =>
    rw [insertEntry]
    by_cases hsame : entry.objectId = objectId
    · subst hsame
      by_cases hallowed : entry.objectId ∈ allowlist <;> simp [insertEntry, hallowed]
    · rw [if_neg hsame]
      by_cases hseen : entry.objectId ∈ allowlist
      · simp only [List.filter_cons, hseen, decide_true, if_true, ih, insertEntry, if_neg hsame]
        split_ifs <;> rfl
      · simp only [List.filter_cons, hseen, decide_false, ih]
        rfl

/-- **Leaving out commutes with every operation**: one on an object that is left out leaves no
trace. -/
theorem visible_step (provider : TurboVecProvider V) (op : IndexOp V) :
    (provider.step op).visible allowlist =
      if op.target ∈ allowlist then (provider.visible allowlist).step op
      else provider.visible allowlist := by
  rcases op with ⟨objectId, vector⟩ | id
  · simp only [step, insertVector, visible, IndexOp.target, filter_insertEntry]
    by_cases hallowed : objectId ∈ allowlist <;> simp only [hallowed, if_true, if_false]
  · simp only [step, objectRemove, visible, IndexOp.target, List.filter_filter]
    by_cases hallowed : id ∈ allowlist
    · simp only [hallowed, if_true, Bool.and_comm]
    · rw [if_neg hallowed]
      congr 1
      refine List.filter_congr fun entry _ ↦ ?_
      by_cases hseen : entry.objectId ∈ allowlist
      · have hne : entry.objectId ≠ id := fun heq ↦ hallowed (heq ▸ hseen)
        simp [hseen, hne]
      · simp [hseen]

theorem visible_run (ops : List (IndexOp V)) (provider : TurboVecProvider V) :
    (run ops provider).visible allowlist =
      run (ops.filter fun op ↦ op.target ∈ allowlist) (provider.visible allowlist) := by
  induction ops generalizing provider with
  | nil => rfl
  | cons op ops ih =>
    rw [run, List.foldl_cons, ← run, ih, visible_step, List.filter_cons]
    by_cases hallowed : op.target ∈ allowlist
    · simp only [hallowed, decide_true, if_true]
      rfl
    · simp only [hallowed, decide_false, if_false]
      rfl

theorem searchSimilarity_visible (score : V → V → S) (le : S → S → Bool)
    (provider : TurboVecProvider V) (queryVector : V) (topK : ℕ) :
    (provider.visible allowlist).searchSimilarity score le queryVector topK allowlist =
      provider.searchSimilarity score le queryVector topK allowlist := by
  rw [searchSimilarity, searchSimilarity, visible, List.filterMap_filter]
  simp only [decide_eq_true_eq]
  congr 2
  refine List.filterMap_congr fun entry _ ↦ ?_
  split_ifs <;> rfl

/-- **A search leaks nothing about other objects.** Two histories that agree in their operations on
the caller's objects give the same answer, the order of ties and the cut included, whatever else
they do. -/
theorem search_noninterference (score : V → V → S) (le : S → S → Bool) (dimension : ℕ)
    (allowlist : List GaxObjectId) (queryVector : V) (topK : ℕ) (ops ops' : List (IndexOp V))
    (h : (ops.filter fun op ↦ op.target ∈ allowlist) =
      ops'.filter fun op ↦ op.target ∈ allowlist) :
    (run ops (new dimension)).searchSimilarity score le queryVector topK allowlist =
      (run ops' (new dimension)).searchSimilarity score le queryVector topK allowlist := by
  rw [← searchSimilarity_visible, visible_run, h, ← visible_run, searchSimilarity_visible]

/-- Another object comes, changes and goes before and between two of the caller's with one score. -/
theorem search_noninterference_ties :
    let own (n : UInt8) : GaxObjectId := Vector.replicate 16 n
    let search (ops : List (IndexOp ℕ)) := (run ops (new 1)).searchSimilarity (fun _ _ ↦ 0) Nat.ble
      7 1 [own 1, own 2]
    search [.insertVector (own 1) 5, .insertVector (own 2) 6] =
      search [.insertVector (own 9) 4, .insertVector (own 1) 5, .insertVector (own 9) 8,
        .objectRemove (own 9), .insertVector (own 2) 6, .insertVector (own 9) 3] :=
  search_noninterference _ _ 1 _ 7 1 _ _ (by decide)

end TurboVecProvider

end Gaxera

import Gaxera.Storage.Header
import Mathlib.Data.Finset.Lattice.Basic
import Mathlib.Data.List.Perm.Basic
import Mathlib.Data.UInt

/-!
# The query planner

A query is a tree of conjunctions and disjunctions over single questions to the providers of the
system. What it means is plain: the objects that satisfy every part of a conjunction, or some part
of a disjunction. The planner does not compute it that way. It sorts the parts of a conjunction by
what they are expected to cost, intersects what they give from the cheapest on, and stops as soon as
nothing is left.

None of that is visible in the result. The costs only decide on an order, an intersection does not
depend on the order, and an empty one stays empty. The first theorem below says so for any cost
function at all, so nothing has to be known about the estimates, which are sums of 32 bits that may
wrap around.
-/

namespace Gaxera.GaxQL

structure CapabilityHandle where
  handleId : UInt64
  space : UInt64
  targetObject : GaxObjectId
  rights : UInt32
  revoked : Bool
deriving DecidableEq

inductive NamespaceError
  | notFound
  | accessDenied
  | invalidPath
  | alreadyExists
deriving DecidableEq

inductive IndexError
  | indexCorruption
  | updateFailed (reason : String)
  | queryFailed (reason : String)
deriving DecidableEq

inductive DomainOp
  | pathEquals (path : String)
  | attributeEquals (key value : String)
  | similarTo (vector : List Float32) (topK : UInt64)
  | references (target : GaxObjectId)
  | dependsOn (target : GaxObjectId)
  | contains (target : GaxObjectId)

inductive QueryPredicate
  | leaf (op : DomainOp)
  | and (list : List QueryPredicate)
  | or (list : List QueryPredicate)
  | not (inner : QueryPredicate)

/-- The question the planner asks its vector index. -/
structure SimilaritySearch where
  vector : List Float32
  topK : UInt64

/-! ## Costs -/

def estimateOpCost : DomainOp → UInt32
  | .pathEquals _ => 1
  | .attributeEquals _ _ => 5
  | .references _ => 10
  | .dependsOn _ => 10
  | .contains _ => 10
  | .similarTo _ _ => 50

def estimatePredicateCost : QueryPredicate → UInt32
  | .leaf op => estimateOpCost op
  | .and list => (list.map estimatePredicateCost).min?.getD 100
  | .or list => (list.map estimatePredicateCost).sum
  | .not inner => estimatePredicateCost inner

/-! ## The planner -/

/-- The providers are any functions of what they are asked. -/
structure QueryPlanner where
  namespaceProvider : Option (CapabilityHandle → String → Except NamespaceError GaxObjectId)
  vectorIndexProvider :
    Option (SimilaritySearch → List GaxObjectId → Except IndexError (List GaxObjectId))

namespace QueryPlanner

/-- A provider that is missing or fails finds nothing. -/
def evaluateOp (planner : QueryPlanner) (scopeCap : CapabilityHandle) (scope : List GaxObjectId) :
    DomainOp → Finset GaxObjectId
  | .pathEquals path => match planner.namespaceProvider with
    | some resolvePath => match resolvePath scopeCap path with
      | .ok objId => {objId}
      | .error _ => ∅
    | none => ∅
  | .similarTo vector topK => match planner.vectorIndexProvider with
    | some queryExecute => match queryExecute ⟨vector, topK⟩ scope with
      | .ok matchingIds => matchingIds.toFinset
      | .error _ => ∅
    | none => ∅
  | _ => ∅

/-- The stable sort of the parts of a conjunction. -/
def sortByKey (cost : QueryPredicate → UInt32) (list : List QueryPredicate) :
    List QueryPredicate :=
  list.mergeSort fun p q ↦ cost p ≤ cost q

/-- Intersecting from the front on, until nothing is left. -/
def intersect (result : Finset GaxObjectId) : List (Finset GaxObjectId) → Finset GaxObjectId
  | [] => result
  | set :: sets => if result = ∅ then result else intersect (result ∩ set) sets

def intersectAll : List (Finset GaxObjectId) → Finset GaxObjectId
  | [] => ∅
  | set :: sets => intersect set sets

theorem sizeOf_lt_of_mem_sortByKey {cost : QueryPredicate → UInt32} {list : List QueryPredicate}
    {p : QueryPredicate} (h : p ∈ sortByKey cost list) : sizeOf p < sizeOf list :=
  List.sizeOf_lt_of_mem (List.mem_mergeSort.mp h)

/-- `evaluate_predicate` with any estimate of the costs. In the source the result is a `Result`, and
every branch of it `Ok`. -/
def evaluateWith (cost : QueryPredicate → UInt32) (planner : QueryPlanner)
    (scopeCap : CapabilityHandle) (scope : List GaxObjectId) :
    QueryPredicate → Finset GaxObjectId
  | .leaf op => planner.evaluateOp scopeCap scope op
  | .and list => intersectAll ((sortByKey cost list).attach.map fun ⟨p, _⟩ ↦
      evaluateWith cost planner scopeCap scope p)
  | .or list => (list.attach.map fun ⟨p, _⟩ ↦
      evaluateWith cost planner scopeCap scope p).foldl (· ∪ ·) ∅
  | .not _ => ∅
termination_by pred => sizeOf pred
decreasing_by
  · have := sizeOf_lt_of_mem_sortByKey ‹_›
    simp only [QueryPredicate.and.sizeOf_spec]
    omega
  · have := List.sizeOf_lt_of_mem ‹_ ∈ list›
    simp only [QueryPredicate.or.sizeOf_spec]
    omega

def evaluatePredicate (planner : QueryPlanner) (scopeCap : CapabilityHandle)
    (scope : List GaxObjectId) : QueryPredicate → Finset GaxObjectId :=
  evaluateWith estimatePredicateCost planner scopeCap scope

structure QueryExpr where
  scope : CapabilityHandle
  predicate : QueryPredicate
  limit : Option ℕ

/-- The only candidate that passes the scope is the object of the scope itself. -/
def execute (planner : QueryPlanner) (expr : QueryExpr) : List GaxObjectId :=
  if expr.scope.revoked then []
  else
    let scopeId := expr.scope.targetObject
    let candidateSet := planner.evaluatePredicate expr.scope [scopeId] expr.predicate
    let finalResults := if scopeId ∈ candidateSet then [scopeId] else []
    match expr.limit with
    | some limit => finalResults.take limit
    | none => finalResults

/-! ## What a query means -/

section Meaning

variable {planner : QueryPlanner} {scopeCap : CapabilityHandle} {scope : List GaxObjectId}
  {x : GaxObjectId} {pred pred' : QueryPredicate}

/-- The meaning, without any plan: all parts of a conjunction, some part of a disjunction. -/
inductive Satisfies (planner : QueryPlanner) (scopeCap : CapabilityHandle)
    (scope : List GaxObjectId) (x : GaxObjectId) : QueryPredicate → Prop
  | leaf {op : DomainOp} (h : x ∈ planner.evaluateOp scopeCap scope op) :
    Satisfies planner scopeCap scope x (.leaf op)
  | and {list : List QueryPredicate} (h : ∀ p ∈ list, Satisfies planner scopeCap scope x p) :
    Satisfies planner scopeCap scope x (.and list)
  | or {list : List QueryPredicate} {p : QueryPredicate} (hp : p ∈ list)
    (h : Satisfies planner scopeCap scope x p) : Satisfies planner scopeCap scope x (.or list)

/-- Trees without negation, in which every conjunction has a part. -/
inductive Positive : QueryPredicate → Prop
  | leaf (op : DomainOp) : Positive (.leaf op)
  | and {list : List QueryPredicate} (hne : list ≠ []) (h : ∀ p ∈ list, Positive p) :
    Positive (.and list)
  | or {list : List QueryPredicate} (h : ∀ p ∈ list, Positive p) : Positive (.or list)

theorem satisfies_leaf_iff {op : DomainOp} :
    Satisfies planner scopeCap scope x (.leaf op) ↔ x ∈ planner.evaluateOp scopeCap scope op :=
  ⟨fun | .leaf h => h, .leaf⟩

theorem satisfies_and_iff {list : List QueryPredicate} :
    Satisfies planner scopeCap scope x (.and list) ↔
      ∀ p ∈ list, Satisfies planner scopeCap scope x p :=
  ⟨fun | .and h => h, .and⟩

theorem satisfies_or_iff {list : List QueryPredicate} :
    Satisfies planner scopeCap scope x (.or list) ↔
      ∃ p ∈ list, Satisfies planner scopeCap scope x p :=
  ⟨fun | .or hp h => ⟨_, hp, h⟩, fun ⟨_, hp, h⟩ ↦ .or hp h⟩

/-! ## The plan -/

theorem mem_intersect (result : Finset GaxObjectId) (sets : List (Finset GaxObjectId)) :
    x ∈ intersect result sets ↔ x ∈ result ∧ ∀ set ∈ sets, x ∈ set := by
  induction sets generalizing result with
  | nil => simp [intersect]
  | cons set sets ih =>
    rw [intersect]
    split_ifs with hempty
    · simp [hempty]
    · rw [ih, Finset.mem_inter, List.forall_mem_cons, and_assoc]

theorem mem_intersectAll {sets : List (Finset GaxObjectId)} (hne : sets ≠ []) :
    x ∈ intersectAll sets ↔ ∀ set ∈ sets, x ∈ set := by
  rcases sets with - | ⟨set, sets⟩
  · exact absurd rfl hne
  · rw [intersectAll, mem_intersect, List.forall_mem_cons]

theorem mem_foldl_union (sets : List (Finset GaxObjectId)) (result : Finset GaxObjectId) :
    x ∈ sets.foldl (· ∪ ·) result ↔ x ∈ result ∨ ∃ set ∈ sets, x ∈ set := by
  induction sets generalizing result with
  | nil => simp
  | cons set sets ih =>
    rw [List.foldl_cons, ih, Finset.mem_union, or_assoc]
    simp only [List.mem_cons, exists_eq_or_imp]

variable {cost : QueryPredicate → UInt32}

theorem evaluateWith_and (list : List QueryPredicate) :
    evaluateWith cost planner scopeCap scope (.and list) =
      intersectAll ((sortByKey cost list).map (evaluateWith cost planner scopeCap scope)) := by
  rw [evaluateWith]
  congr 1
  exact List.attach_map_val ..

theorem evaluateWith_or (list : List QueryPredicate) :
    evaluateWith cost planner scopeCap scope (.or list) =
      (list.map (evaluateWith cost planner scopeCap scope)).foldl (· ∪ ·) ∅ := by
  rw [evaluateWith]
  congr 1
  exact List.attach_map_val ..

/-- **The plan does not show**: whatever the costs, the result is what the query means. -/
theorem mem_evaluateWith_iff (h : Positive pred) :
    x ∈ evaluateWith cost planner scopeCap scope pred ↔
      Satisfies planner scopeCap scope x pred := by
  induction h with
  | leaf op => rw [evaluateWith, satisfies_leaf_iff]
  | @and list hne _ ih =>
    have hsorted : sortByKey cost list ≠ [] := by
      rwa [Ne, sortByKey, ← List.length_eq_zero_iff, List.length_mergeSort, List.length_eq_zero_iff]
    rw [evaluateWith_and, mem_intersectAll (by simpa using hsorted), satisfies_and_iff,
      List.forall_mem_map]
    simp only [sortByKey, List.mem_mergeSort]
    exact forall₂_congr ih
  | @or list _ ih =>
    rw [evaluateWith_or, mem_foldl_union, satisfies_or_iff]
    simp only [Finset.notMem_empty, false_or, List.mem_map, exists_exists_and_eq_and]
    exact exists_congr fun p ↦ and_congr_right (ih p)

/-! ## Reordered queries -/

/-- The parts of conjunctions and disjunctions in another order, at any level and any number of
times. -/
inductive Reordered : QueryPredicate → QueryPredicate → Prop
  | refl (p : QueryPredicate) : Reordered p p
  | trans {p q r : QueryPredicate} (h : Reordered p q) (h' : Reordered q r) : Reordered p r
  | andPerm {list list' : List QueryPredicate} (h : list.Perm list') :
    Reordered (.and list) (.and list')
  | orPerm {list list' : List QueryPredicate} (h : list.Perm list') :
    Reordered (.or list) (.or list')
  | andPart (front back : List QueryPredicate) {p q : QueryPredicate} (h : Reordered p q) :
    Reordered (.and (front ++ p :: back)) (.and (front ++ q :: back))
  | orPart (front back : List QueryPredicate) {p q : QueryPredicate} (h : Reordered p q) :
    Reordered (.or (front ++ p :: back)) (.or (front ++ q :: back))

theorem Reordered.satisfies_iff (h : Reordered pred pred') :
    Satisfies planner scopeCap scope x pred ↔ Satisfies planner scopeCap scope x pred' := by
  induction h with
  | refl => rfl
  | trans _ _ ih ih' => exact ih.trans ih'
  | andPerm h => simp only [satisfies_and_iff, h.mem_iff]
  | orPerm h => simp only [satisfies_or_iff, h.mem_iff]
  | andPart front back _ ih =>
    simp only [satisfies_and_iff, List.forall_mem_append, List.forall_mem_cons, ih]
  | orPart front back _ ih =>
    simp only [satisfies_or_iff, List.mem_append, List.mem_cons, or_and_right, exists_or,
      exists_eq_left, ih]

private theorem forall_mem_part {front back : List QueryPredicate} {p q : QueryPredicate}
    (h : ∀ r ∈ front ++ p :: back, Positive r) (hpart : Positive p → Positive q) :
    ∀ r ∈ front ++ q :: back, Positive r := by
  simp only [List.forall_mem_append, List.forall_mem_cons] at h ⊢
  exact ⟨h.1, hpart h.2.1, h.2.2⟩

theorem Reordered.positive (h : Reordered pred pred') (hpred : Positive pred) :
    Positive pred' := by
  induction h with
  | refl => exact hpred
  | trans _ _ ih ih' => exact ih' (ih hpred)
  | andPerm h =>
    obtain - | ⟨hne, hparts⟩ := hpred
    exact .and (fun hnil ↦ hne (List.Perm.eq_nil (hnil ▸ h))) fun p hp ↦ hparts p (h.mem_iff.mpr hp)
  | orPerm h =>
    obtain - | - | hparts := hpred
    exact .or fun p hp ↦ hparts p (h.mem_iff.mpr hp)
  | andPart front back _ ih =>
    obtain - | ⟨-, hparts⟩ := hpred
    exact .and (by simp) (forall_mem_part hparts ih)
  | orPart front back _ ih =>
    obtain - | - | hparts := hpred
    exact .or (forall_mem_part hparts ih)

end Meaning

/-- **Optimisation preserves meaning.** For every tree of conjunctions with parts, disjunctions and
questions to any providers, the planner finds what the query means. In particular neither the
estimates nor the order of the parts, at any level, make a difference. -/
theorem query_optimisation_preserves_meaning (planner : QueryPlanner) (scopeCap : CapabilityHandle)
    (scope : List GaxObjectId) (pred : QueryPredicate) (h : Positive pred) :
    (∀ x, x ∈ planner.evaluatePredicate scopeCap scope pred ↔
      Satisfies planner scopeCap scope x pred) ∧
    (∀ cost, evaluateWith cost planner scopeCap scope pred =
      planner.evaluatePredicate scopeCap scope pred) ∧
    ∀ pred', Reordered pred pred' → planner.evaluatePredicate scopeCap scope pred' =
      planner.evaluatePredicate scopeCap scope pred := by
  refine ⟨fun x ↦ mem_evaluateWith_iff h, fun cost ↦ ?_, fun pred' hreordered ↦ ?_⟩
  · ext x
    rw [evaluatePredicate, mem_evaluateWith_iff h, mem_evaluateWith_iff h]
  · ext x
    rw [evaluatePredicate, mem_evaluateWith_iff (hreordered.positive h), mem_evaluateWith_iff h,
      hreordered.satisfies_iff]

/-- A conjunction with an expensive part in front of a cheap one. -/
theorem query_optimisation_preserves_meaning_pair :
    let planner : QueryPlanner :=
      ⟨some fun _ _ ↦ .ok (Vector.replicate 16 1), some fun _ scope ↦ .ok scope⟩
    let scope : List GaxObjectId := [Vector.replicate 16 1, Vector.replicate 16 2]
    let scopeCap : CapabilityHandle := ⟨1, 1, Vector.replicate 16 1, 0, false⟩
    Vector.replicate 16 1 ∈ planner.evaluatePredicate scopeCap scope
      (.and [.leaf (.similarTo [] 4), .or [.leaf (.pathEquals "a"), .leaf (.pathEquals "b")]]) := by
  intro planner scope scopeCap
  have hpositive : Positive (.and [.leaf (.similarTo [] 4),
      .or [.leaf (.pathEquals "a"), .leaf (.pathEquals "b")]]) := by
    refine .and (by simp) fun p hp ↦ ?_
    simp only [List.mem_cons, List.not_mem_nil, or_false] at hp
    rcases hp with rfl | rfl
    · exact .leaf _
    · refine .or fun p hp ↦ ?_
      simp only [List.mem_cons, List.not_mem_nil, or_false] at hp
      rcases hp with rfl | rfl <;> exact .leaf _
  refine ((query_optimisation_preserves_meaning planner scopeCap scope _ hpositive).1 _).mpr ?_
  refine .and fun p hp ↦ ?_
  simp only [List.mem_cons, List.not_mem_nil, or_false] at hp
  rcases hp with rfl | rfl
  · exact .leaf (by simp [evaluateOp, planner, scope])
  · exact .or List.mem_cons_self (.leaf (by simp [evaluateOp, planner]))

/-- The answer to a query is the object of its scope, if the scope is in force, the limit leaves
room and the object is what the query means. -/
theorem mem_execute_iff (planner : QueryPlanner) (expr : QueryExpr) (h : Positive expr.predicate)
    (id : GaxObjectId) : id ∈ planner.execute expr ↔
      expr.scope.revoked = false ∧ expr.limit ≠ some 0 ∧ id = expr.scope.targetObject ∧
        Satisfies planner expr.scope [expr.scope.targetObject] id expr.predicate := by
  have hmem : expr.scope.targetObject ∈
      planner.evaluatePredicate expr.scope [expr.scope.targetObject] expr.predicate ↔
      Satisfies planner expr.scope [expr.scope.targetObject] expr.scope.targetObject
        expr.predicate := mem_evaluateWith_iff h
  have hfinal : id ∈ (if expr.scope.targetObject ∈
      planner.evaluatePredicate expr.scope [expr.scope.targetObject] expr.predicate then
      [expr.scope.targetObject] else []) ↔ id = expr.scope.targetObject ∧
        Satisfies planner expr.scope [expr.scope.targetObject] id expr.predicate := by
    split_ifs with hcandidate
    · rw [List.mem_singleton, iff_self_and]
      rintro rfl
      exact hmem.mp hcandidate
    · refine ⟨nofun, ?_⟩
      rintro ⟨rfl, hsatisfies⟩
      exact absurd (hmem.mpr hsatisfies) hcandidate
  rw [execute, ← hfinal]
  rcases expr.scope.revoked with - | -
  · rcases expr.limit with - | - | limit
    · simp
    · simp
    · -- Any other limit leaves a list of one element as it is.
      rw [if_neg Bool.false_ne_true]
      dsimp only
      rw [List.take_of_length_le (by split_ifs <;> simp)]
      simp
  · simp

/-- A path that leads to the object of the scope. -/
theorem mem_execute_path :
    let id : GaxObjectId := Vector.replicate 16 1
    id ∈ execute ⟨some fun _ _ ↦ .ok id, none⟩
      ⟨⟨1, 1, id, 0, false⟩, .leaf (.pathEquals "a"), none⟩ :=
  (mem_execute_iff _ _ (.leaf _) _).mpr ⟨rfl, by simp, rfl, .leaf (by simp [evaluateOp])⟩

end QueryPlanner

end Gaxera.GaxQL

import Gaxera.Capability.Search

/-!
# Incremental revocation

The kernel revokes what is below a node one descendant a call, and every call starts the search from
the top again. `Sweep` is the sequence of such calls up to the one that finds nothing. It ends
because each call takes one live entry out of those without the flag, and the set of nodes it visits
is known beforehand: setting a flag moves nothing in the forest, so after each call the descendants
that are left to do are those that were, without the one just reported.
-/

namespace Gaxera

namespace CapabilitySystem

variable {sys sys' : CapabilitySystem} {held : NodeId → ℕ} {n m : NodeId} {order : List NodeId}

/-- Calls of `revoke_one_descendant` until one returns nothing; `order` is the nodes that were
flagged and reported. -/
inductive Sweep (n : NodeId) : CapabilitySystem → List NodeId → CapabilitySystem → Prop
  | done {sys : CapabilitySystem} (call : sys.revokeOneDescendant n = (none, sys)) :
      Sweep n sys [] sys
  | turn {sys sys' : CapabilitySystem} {m : NodeId} {x : LiveNode} {order : List NodeId}
      (live : sys.liveNode m = some x)
      (call : sys.revokeOneDescendant n = (some x.info, sys.setRevoked m))
      (rest : Sweep n (sys.setRevoked m) order sys') : Sweep n sys (m :: order) sys'

/-- A strict descendant that has not been revoked. -/
def Pending (sys : CapabilitySystem) (n m : NodeId) : Prop :=
  ∃ x, sys.liveNode m = some x ∧ x.revoked = false ∧ DerivedFrom sys.grants n m ∧ m ≠ n

theorem liveNode_setRevoked (m j : NodeId) : (sys.setRevoked m).liveNode j =
    if j = m then (sys.liveNode j).map fun x ↦ { x with revoked := true } else sys.liveNode j := by
  rw [setRevoked, liveNode_modifyLive]
  by_cases hj : j = m
  · rw [if_pos hj, hj, Function.update_self]
  · rw [if_neg hj, Function.update_of_ne hj]

/-- Flagging a node takes it, and nothing else, off what is left to do. -/
theorem pending_setRevoked_iff (j : NodeId) :
    (sys.setRevoked m).Pending n j ↔ sys.Pending n j ∧ j ≠ m := by
  have hderived : DerivedFrom (sys.setRevoked m).grants n j ↔ DerivedFrom sys.grants n j :=
    derivedFrom_congr (parent_setRevoked m)
  rw [Pending, Pending, hderived, liveNode_setRevoked]
  by_cases hj : j = m
  · rw [if_pos hj]
    refine iff_of_false ?_ fun h ↦ h.2 hj
    rintro ⟨x, hx, hrev, -⟩
    obtain ⟨y, -, rfl⟩ := Option.map_eq_some_iff.mp hx
    cases hrev
  · rw [if_neg hj]
    exact ⟨fun h ↦ ⟨h, hj⟩, fun h ↦ h.1⟩

theorem Wf.exists_sweep (h : sys.Wf held) (n : NodeId) : ∃ order sys', Sweep n sys order sys' := by
  -- Each call that reports something leaves one entry less without the flag.
  induction hcount : sys.unrevokedCount generalizing sys with
  | zero =>
    rcases h.revokeOneDescendant_cases n with ⟨heq, -⟩ | ⟨m, x, heq, hx, hrev, -⟩
    · exact ⟨[], sys, .done heq⟩
    · have := unrevokedCount_setRevoked hx hrev
      omega
  | succ count ih =>
    rcases h.revokeOneDescendant_cases n with ⟨heq, -⟩ | ⟨m, x, heq, hx, hrev, -⟩
    · exact ⟨[], sys, .done heq⟩
    · have := unrevokedCount_setRevoked hx hrev
      obtain ⟨order, sys', hrest⟩ := ih (h.setRevoked m) (by omega)
      exact ⟨m :: order, sys', .turn hx heq hrest⟩

theorem Wf.pending_of_call (h : sys.Wf held) {info : CapabilityInfo}
    (hcall : sys.revokeOneDescendant n = (some info, sys.setRevoked m)) : sys.Pending n m := by
  rcases h.revokeOneDescendant_cases n with ⟨heq, -⟩ | ⟨j, y, heq, hy, hrev, hd, hne⟩
  · cases hcall.symm.trans heq
  · have hsys : sys.setRevoked m = sys.setRevoked j :=
      congrArg Prod.snd (hcall.symm.trans heq)
    -- Where the node already carried the flag, the call would have changed nothing.
    by_cases hmj : m = j
    · subst hmj
      exact ⟨y, hy, hrev, hd, hne⟩
    · have := congrArg (fun s ↦ liveNode s j) hsys
      rw [liveNode_setRevoked, liveNode_setRevoked, if_neg (Ne.symm hmj), if_pos rfl, hy] at this
      simp only [Option.map_some, Option.some_inj] at this
      rw [this] at hrev
      cases hrev

theorem Sweep.mem_order_iff (hs : Sweep n sys order sys') (h : sys.Wf held) :
    order.Nodup ∧ ∀ m, m ∈ order ↔ sys.Pending n m := by
  induction hs with
  | @done sys call =>
    refine ⟨List.nodup_nil, fun m ↦ iff_of_false List.not_mem_nil ?_⟩
    rintro ⟨x, hx, hrev, hd, hne⟩
    rcases h.revokeOneDescendant_cases n with ⟨-, hnone⟩ | ⟨j, y, heq, -⟩
    · have := h.findUnrevokedDescendant_eq_none_iff.mp hnone m x.grant
        (grants_eq_some.mpr ⟨x, hx, rfl⟩) hd hne
      rw [show x.grant.revoked = x.revoked from rfl, hrev] at this
      cases this
    · cases call.symm.trans heq
  | @turn sys sys' m x order live call rest ih =>
    obtain ⟨hnodup, hmem⟩ := ih (h.setRevoked m)
    have hm := h.pending_of_call call
    refine ⟨List.nodup_cons.mpr ⟨?_, hnodup⟩, fun j ↦ ?_⟩
    · rw [hmem, pending_setRevoked_iff]
      exact fun hc ↦ hc.2 rfl
    · rw [List.mem_cons, hmem, pending_setRevoked_iff]
      by_cases hj : j = m
      · subst hj
        exact iff_of_true (Or.inl rfl) hm
      · exact ⟨fun hc ↦ (hc.resolve_left hj).1, fun hc ↦ .inr ⟨hc, hj⟩⟩

/-- A node that is not visited is not touched, and one that is has got the flag. -/
theorem Sweep.liveNode_eq (hs : Sweep n sys order sys') (j : NodeId) : sys'.liveNode j =
    if j ∈ order then (sys.liveNode j).map fun x ↦ { x with revoked := true }
    else sys.liveNode j := by
  induction hs with
  | done => rw [if_neg List.not_mem_nil]
  | @turn sys sys' m x order live call rest ih =>
    rw [ih, liveNode_setRevoked]
    by_cases hj : j = m
    · rw [if_pos hj, if_pos (List.mem_cons.mpr (Or.inl hj))]
      split_ifs
      · cases sys.liveNode j <;> rfl
      · rfl
    · rw [if_neg hj]
      simp only [List.mem_cons, hj, false_or]

end CapabilitySystem

namespace CapState

open CapabilitySystem

/-- **Incremental revocation** visits exactly the subtree. From every reachable state the calls on a
live node end; they report each strict descendant without the flag once; afterwards every strict
descendant carries the flag, and every other node is what it was. And the ancestry test follows
the parent links to their end. -/
theorem incremental_revocation {st₀ : CapState} (h₀ : st₀.Initial) (ops : List CapOp) :
    let sys := (st₀.run ops).system
    (∀ n x, sys.liveNode n = some x → ∃ order sys', Sweep n sys order sys'
        ∧ order.Nodup ∧ (∀ m, m ∈ order ↔ sys.Pending n m)
        ∧ (∀ m, DerivedFrom sys.grants n m → m ≠ n → sys'.liveNode m
          = (sys.liveNode m).map fun y ↦ { y with revoked := true })
        ∧ ∀ m, ¬ (DerivedFrom sys.grants n m ∧ m ≠ n) → sys'.liveNode m = sys.liveNode m)
      ∧ ∀ a d x y, sys.liveNode a = some x → sys.liveNode d = some y →
        (sys.isDescendantOf d a = true ↔ DerivedFrom sys.grants a d) := by
  intro sys
  have hwf : sys.Wf (st₀.run ops).holders := (h₀.wf.run ops).system
  refine ⟨fun n x hx ↦ ?_, fun a d _ _ _ _ ↦ hwf.isDescendantOf_iff⟩
  obtain ⟨order, sys', hsweep⟩ := hwf.exists_sweep n
  obtain ⟨hnodup, hmem⟩ := hsweep.mem_order_iff hwf
  refine ⟨order, sys', hsweep, hnodup, hmem, fun m hd hne ↦ ?_, fun m hnot ↦ ?_⟩
  · rw [hsweep.liveNode_eq]
    split_ifs with hm
    · rfl
    · -- A descendant that is not visited carries the flag already.
      cases hy : sys.liveNode m with
      | none => rfl
      | some y =>
        have hrev : y.revoked = true := by
          by_contra hc
          exact hm ((hmem m).mpr ⟨y, hy, by simpa using hc, hd, hne⟩)
        obtain ⟨info, parent, firstChild, nextSibling, revoked, references⟩ := y
        obtain rfl : revoked = true := hrev
        rfl
  · rw [hsweep.liveNode_eq, if_neg]
    intro hm
    obtain ⟨-, -, -, hd, hne⟩ := (hmem m).mp hm
    exact hnot ⟨hd, hne⟩

/-- The chain of three: both nodes below the root are visited, and the root is not. -/
theorem incremental_revocation_of_chain :
    ∃ order sys', Sweep ⟨0, 1⟩ (twoSpaces.run (chainOps.take 3)).system order sys'
      ∧ order.Nodup
      ∧ ∀ m, m ∈ order ↔ (twoSpaces.run (chainOps.take 3)).system.Pending ⟨0, 1⟩ m := by
  obtain ⟨order, sys', hsweep, hnodup, hmem, -⟩ :=
    (incremental_revocation twoSpaces_initial (chainOps.take 3)).1 ⟨0, 1⟩ _ rfl
  exact ⟨order, sys', hsweep, hnodup, hmem⟩

end CapState

end Gaxera

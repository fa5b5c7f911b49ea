import Gaxera.Capability.Revocation
import Gaxera.Data.ForestWalk

/-!
# Revoking what was derived from a node

The kernel revokes the descendants of a node one by one: it searches the children lists for a node
without the flag, sets its flag, and searches again until the search finds nothing. The search of
the source is the depth first search of `Gaxera.Data.ForestWalk`, so it finds something exactly
when something derived from the node still lacks its flag. Hence the loop ends, with every
descendant flagged; and since a descendant is never above the node, the node itself validates
afterwards as it did before.
-/

namespace Gaxera

open SiblingForest

namespace CapabilitySystem

variable {sys sys' : CapabilitySystem} {held : NodeId → ℕ} {n m : NodeId}

/-! ## Descendants -/

/-- A node that validates does so in every arena in which its object lives. -/
theorem validateNode_of_objectType {objects objects' : ObjectArena} {info : CapabilityInfo}
    (h : sys.validateNode n objects = .ok info)
    (hlive : objects'.objectType info.object = some info.objectType) :
    sys.validateNode n objects' = .ok info := by
  have hloop : ∀ (remaining : ℕ) (leaf : Option CapabilityInfo) (id : NodeId),
      sys.validateLoop objects remaining leaf id = .ok info →
        sys.validateLoop objects' remaining leaf id = .ok info := by
    intro remaining
    induction remaining with
    | zero =>
      intro leaf id h
      rw [validateLoop] at h ⊢
      exact h
    | succ remaining ih =>
      intro leaf id h
      rw [validateLoop] at h ⊢
      cases hturn : sys.validateTurn leaf id with
      | error e => simp [hturn] at h
      | ok r =>
        obtain ⟨leaf', o⟩ := r
        rw [hturn] at h
        cases o with
        | some p => exact ih _ _ h
        | none =>
          dsimp only at h ⊢
          split_ifs at h
          obtain rfl : leaf' = info := by simpa using h
          rw [if_neg (not_not.mpr hlive)]
  exact hloop _ _ _ h

theorem isChild_iff_grants : IsChild sys.links n m ↔
    ∃ x, sys.grants m = some x ∧ x.parent = some n := by
  rw [isChild_iff]
  constructor
  · rintro ⟨y, hy, hp⟩
    exact ⟨y.grant, grants_eq_some.mpr ⟨y, hy, rfl⟩, hp⟩
  · rintro ⟨x, hx, hp⟩
    obtain ⟨y, hy, rfl⟩ := grants_eq_some.mp hx
    exact ⟨y, hy, hp⟩

theorem derivedFrom_iff : DerivedFrom sys.grants n m ↔
    Relation.ReflTransGen (IsChild sys.links) n m := by
  constructor
  · intro h
    induction h with
    | self => exact .refl
    | step live parent _ ih => exact ih.tail (isChild_iff_grants.mpr ⟨_, live, parent⟩)
  · intro h
    induction h with
    | refl => exact .self
    | tail _ hstep ih =>
      obtain ⟨x, hx, hp⟩ := isChild_iff_grants.mp hstep
      exact .step hx hp ih

theorem Wf.transGen_iff (h : sys.Wf held) :
    Relation.TransGen (IsChild sys.links) n m
      ↔ DerivedFrom sys.grants n m ∧ m ≠ n := by
  rw [derivedFrom_iff]
  constructor
  · intro hnm
    refine ⟨hnm.to_reflTransGen, ?_⟩
    rintro rfl
    exact h.forest.not_transGen_isChild_self hnm
  · rintro ⟨hnm, hne⟩
    rcases Relation.reflTransGen_iff_eq_or_transGen.mp hnm with heq | hnm
    · exact absurd heq hne
    · exact hnm

theorem Wf.not_derivedFrom (h : sys.Wf held) (hnm : DerivedFrom sys.grants n m) (hne : m ≠ n) :
    ¬ DerivedFrom sys.grants m n := by
  intro hmn
  have h₁ := h.transGen_iff.mpr ⟨hnm, hne⟩
  have h₂ := h.transGen_iff.mpr ⟨hmn, hne.symm⟩
  exact h.forest.not_transGen_isChild_self (h₁.trans h₂)

private theorem isDescendantLoop_sound {depth : ℕ}
    (h : sys.isDescendantLoop n depth m = true) : DerivedFrom sys.grants n m := by
  induction depth generalizing m with
  | zero => cases h
  | succ depth ih =>
    rw [isDescendantLoop] at h
    cases hm : sys.liveNode m with
    | none => simp [hm] at h
    | some x =>
      have hx : sys.grants m = some x.grant := grants_eq_some.mpr ⟨x, hm, rfl⟩
      rw [hm] at h
      dsimp only at h
      cases hp : x.parent with
      | none => simp [hp] at h
      | some p =>
        rw [hp] at h
        dsimp only at h
        by_cases hpn : p = n
        · exact .step hx hp (hpn ▸ .self)
        · rw [if_neg hpn] at h
          exact .step hx hp (ih h)

/-- The climb passes every entry above the one it starts from, and takes a turn for each. -/
private theorem isDescendantLoop_complete {depth : ℕ} {l : List NodeId}
    (h : Threads (SiblingForest.up sys.links) (some m) (m :: l)) (hn : n ∈ l)
    (hdepth : l.length ≤ depth) : sys.isDescendantLoop n depth m = true := by
  induction depth generalizing m l with
  | zero => simp [List.eq_nil_of_length_eq_zero (Nat.le_zero.mp hdepth)] at hn
  | succ depth ih =>
    obtain ⟨-, o, hup, hrest⟩ := Threads.cons_iff.mp h
    obtain ⟨x, hx, rfl⟩ := exists_of_up_eq_some hup
    obtain ⟨y, hy, rfl⟩ := links_eq_some.mp hx
    obtain ⟨p, l', rfl⟩ := List.exists_cons_of_ne_nil (List.ne_nil_of_mem hn)
    obtain ⟨hp, -⟩ := Threads.cons_iff.mp hrest
    have hparent : y.parent = some p := hp
    rw [isDescendantLoop, hy]
    dsimp only
    rw [hparent]
    dsimp only
    by_cases hpn : p = n
    · exact if_pos hpn
    · rw [if_neg hpn]
      rw [hp] at hrest
      exact ih hrest ((List.mem_cons.mp hn).resolve_left (Ne.symm hpn)) (by simpa using hdepth)

private theorem mem_climb (hd : DerivedFrom sys.grants n m) (hne : m ≠ n) :
    ∀ {l : List NodeId}, Threads (SiblingForest.up sys.links) (some m) l → n ∈ l.tail := by
  induction hd with
  | self => exact absurd rfl hne
  | @step m p x live parent _ ih =>
    intro l hl
    cases hl with
    | @cons _ o l' link rest =>
      obtain ⟨y, hy, rfl⟩ := exists_of_up_eq_some link
      obtain ⟨z, hz, rfl⟩ := links_eq_some.mp hy
      obtain ⟨z', hz', rfl⟩ := grants_eq_some.mp live
      obtain rfl : z = z' := Option.some_inj.mp (hz.symm.trans hz')
      have hrest : Threads (SiblingForest.up sys.links) (some p) l' := by
        rw [← show z.parent = some p from parent]
        exact rest
      cases hrest with
      | cons link' rest' =>
        by_cases hpn : p = n
        · subst hpn
          exact List.mem_cons_self
        · exact List.mem_cons_of_mem _ (ih hpn (.cons link' rest'))

/-- **The climb of the source** decides derivation: its bound is never reached. -/
theorem Wf.isDescendantOf_iff (h : sys.Wf held) :
    sys.isDescendantOf m n = true ↔ DerivedFrom sys.grants n m := by
  rw [isDescendantOf]
  by_cases hmn : m = n
  · subst hmn
    exact iff_of_true (if_pos rfl) .self
  rw [if_neg hmn]
  refine ⟨isDescendantLoop_sound, fun hd ↦ ?_⟩
  -- A node below another one is live, so it has a climb, no longer than the table.
  cases hd with
  | self => exact absurd rfl hmn
  | @step _ p x live parent above =>
    obtain ⟨y, hy, rfl⟩ := grants_eq_some.mp live
    obtain ⟨l, hl, hlen⟩ := h.exists_climb hy
    cases hl with
    | cons link rest =>
      exact isDescendantLoop_complete (.cons link rest)
        (mem_climb (.step live parent above) hmn (.cons link rest))
        (by simp only [List.length_cons] at hlen; omega)

/-! ## The search -/

/-- Whether a node is live and lacks the flag. -/
def unrevoked (sys : CapabilitySystem) (id : NodeId) : Bool :=
  match sys.liveNode id with
  | some n => !n.revoked
  | none => false

theorem findUnrevokedFrom_eq_search (fuel : ℕ) (o : Option NodeId) :
    sys.findUnrevokedFrom fuel o = SiblingForest.search sys.links sys.unrevoked fuel o := by
  induction fuel generalizing o with
  | zero => rfl
  | succ fuel ih =>
    cases o with
    | none => rfl
    | some c =>
      rw [findUnrevokedFrom, SiblingForest.search, links, unrevoked]
      cases sys.liveNode c with
      | none => rfl
      | some x =>
        simp only [ih, Option.map_some, LiveNode.links]
        cases x.revoked with
        | false => simp
        | true =>
          cases SiblingForest.search sys.links sys.unrevoked fuel x.firstChild <;> simp

private theorem nodup_bound {l : List NodeId} (hnd : l.Nodup)
    (hlive : ∀ i ∈ l, ∃ x, sys.links i = some x) : l.length ≤ sys.nodes.length := by
  refine length_le_of_live hnd fun i hi ↦ ?_
  obtain ⟨x, hx⟩ := hlive i hi
  obtain ⟨y, hy, -⟩ := links_eq_some.mp hx
  exact ⟨y, hy⟩

/-- **The search of the source** finds a descendant without the flag, if there is one. -/
theorem Wf.findUnrevokedDescendant_eq_none_iff (h : sys.Wf held) :
    sys.findUnrevokedDescendant n = none ↔
      ∀ m x, sys.grants m = some x → DerivedFrom sys.grants n m → m ≠ n → x.revoked = true := by
  rw [findUnrevokedDescendant, findUnrevokedFrom_eq_search, firstChild]
  cases hn : sys.liveNode n with
  | none =>
    refine iff_of_true rfl fun m x _ hnm hne ↦ ?_
    -- Below a node that is not live there is nothing.
    obtain ⟨q, hq, -⟩ := Relation.TransGen.head'_iff.mp (h.transGen_iff.mpr ⟨hnm, hne⟩)
    obtain ⟨y, hy⟩ := h.forest.parent_live hq
    obtain ⟨z, hz, -⟩ := links_eq_some.mp hy
    rw [hn] at hz
    cases hz
  | some y =>
    have hlinks : sys.links n = some y.links := links_eq_some.mpr ⟨y, hn, rfl⟩
    refine (h.forest.search_eq_none_iff (fun l ↦ nodup_bound) hlinks).trans ?_
    constructor
    · intro hall m x hx hnm hne
      have := hall m (h.transGen_iff.mpr ⟨hnm, hne⟩)
      obtain ⟨z, hz, rfl⟩ := grants_eq_some.mp hx
      simpa [unrevoked, hz, LiveNode.grant] using this
    · intro hall m hnm
      obtain ⟨hd, hne⟩ := h.transGen_iff.mp hnm
      rw [unrevoked]
      cases hz : sys.liveNode m with
      | none => rfl
      | some z =>
        have := hall m z.grant (grants_eq_some.mpr ⟨z, hz, rfl⟩) hd hne
        simpa [LiveNode.grant] using this

theorem Wf.findUnrevokedDescendant_eq_some (h : sys.Wf held)
    (hm : sys.findUnrevokedDescendant n = some m) :
    DerivedFrom sys.grants n m ∧ m ≠ n ∧ ∃ x, sys.liveNode m = some x ∧ x.revoked = false := by
  rw [findUnrevokedDescendant, findUnrevokedFrom_eq_search, firstChild] at hm
  cases hn : sys.liveNode n with
  | none =>
    rw [hn] at hm
    cases hm
  | some y =>
    have hlinks : sys.links n = some y.links := links_eq_some.mpr ⟨y, hn, rfl⟩
    rw [hn, Option.bind_some] at hm
    cases hfirst : y.firstChild with
    | none =>
      rw [hfirst] at hm
      cases hm
    | some a =>
      rw [hfirst] at hm
      obtain ⟨hwalk, hwanted, -⟩ := search_sound hm
      obtain ⟨hd, hne⟩ := h.transGen_iff.mp
        ((h.forest.transGen_isChild_iff hlinks).mpr ⟨a, hfirst, hwalk⟩)
      refine ⟨hd, hne, ?_⟩
      rw [unrevoked] at hwanted
      cases hx : sys.liveNode m with
      | none => simp [hx] at hwanted
      | some x => exact ⟨x, rfl, by simpa [hx] using hwanted⟩

/-! ## The loop -/

/-- The flag of one node is set. -/
def setRevoked (sys : CapabilitySystem) (id : NodeId) : CapabilitySystem :=
  sys.modifyLive id fun n ↦ { n with revoked := true }

/-- Descendants are revoked until none is left without the flag. -/
def revokeDescendants (node : NodeId) : ℕ → CapabilitySystem → CapabilitySystem
  | 0, sys => sys
  | fuel + 1, sys =>
    match sys.revokeOneDescendant node with
    | (some _, sys) => revokeDescendants node fuel sys
    | (none, sys) => sys

/-- One turn of the loop: there is nothing left to do, or one descendant is flagged. -/
theorem Wf.revokeOneDescendant_cases (h : sys.Wf held) (n : NodeId) :
    (sys.revokeOneDescendant n = (none, sys) ∧ sys.findUnrevokedDescendant n = none)
      ∨ ∃ m x, sys.revokeOneDescendant n = (some x.info, sys.setRevoked m)
        ∧ sys.liveNode m = some x ∧ x.revoked = false ∧ DerivedFrom sys.grants n m ∧ m ≠ n := by
  rw [revokeOneDescendant]
  cases hm : sys.findUnrevokedDescendant n with
  | none => exact .inl ⟨rfl, rfl⟩
  | some m =>
    obtain ⟨hd, hne, x, hx, hrev⟩ := h.findUnrevokedDescendant_eq_some hm
    refine .inr ⟨m, x, ?_, hx, hrev, hd, hne⟩
    dsimp only
    rw [hx]
    rfl

theorem grants_setRevoked (j : NodeId) : (sys.setRevoked m).grants j =
    if j = m then (sys.grants j).map fun x ↦ { x with revoked := true } else sys.grants j := by
  rw [grants, grants, setRevoked, liveNode_modifyLive]
  by_cases hj : j = m
  · rw [if_pos hj, hj, Function.update_self]
    cases sys.liveNode m <;> rfl
  · rw [if_neg hj, Function.update_of_ne hj]

theorem Wf.setRevoked (h : sys.Wf held) (m : NodeId) : (sys.setRevoked m).Wf held :=
  h.modifyLive (fun _ ↦ rfl) (fun _ ↦ rfl)

/-- Flags are set on descendants of `n` and on nothing else. -/
structure FlagsBelow (sys : CapabilitySystem) (n : NodeId) (sys' : CapabilitySystem) : Prop where
  grants : ∀ j, sys'.grants j = sys.grants j
    ∨ DerivedFrom sys.grants n j ∧ j ≠ n
      ∧ sys'.grants j = (sys.grants j).map fun x ↦ { x with revoked := true }
  capacity : sys'.capacity = sys.capacity
  validateNode : ∀ objects, sys'.validateNode n objects = sys.validateNode n objects

theorem FlagsBelow.refl : FlagsBelow sys n sys := ⟨fun _ ↦ .inl rfl, rfl, fun _ ↦ rfl⟩

theorem derivedFrom_congr {g g' : NodeId → Option Grant}
    (h : ∀ j, (g' j).map Grant.parent = (g j).map Grant.parent) :
    DerivedFrom g' n m ↔ DerivedFrom g n m := by
  have hstep : ∀ {g g' : NodeId → Option Grant},
      (∀ j, (g' j).map Grant.parent = (g j).map Grant.parent) →
        DerivedFrom g' n m → DerivedFrom g n m := by
    intro g g' h hd
    induction hd with
    | self => exact .self
    | @step m p x live parent _ ih =>
      have := h m
      rw [live, Option.map_some] at this
      obtain ⟨y, hy, hyp⟩ := Option.map_eq_some_iff.mp this.symm
      exact .step hy (hyp.trans parent) ih
  exact ⟨hstep h, hstep fun j ↦ (h j).symm⟩

theorem parent_setRevoked (m j : NodeId) :
    ((sys.setRevoked m).grants j).map Grant.parent = (sys.grants j).map Grant.parent := by
  rw [grants_setRevoked]
  split_ifs
  · cases sys.grants j <;> rfl
  · rfl

theorem FlagsBelow.trans_setRevoked (h : sys.Wf held) (hd : DerivedFrom sys.grants n m)
    (hne : m ≠ n) (h' : FlagsBelow (sys.setRevoked m) n sys') : FlagsBelow sys n sys' := by
  refine ⟨fun j ↦ ?_, h'.capacity.trans capacity_modifyLive, fun objects ↦ ?_⟩
  · have hj : (sys.setRevoked m).grants j = _ := grants_setRevoked j
    by_cases hjm : j = m
    · subst hjm
      rw [if_pos rfl] at hj
      refine .inr ⟨hd, hne, ?_⟩
      rcases h'.grants j with heq | ⟨-, -, heq⟩
      · rw [heq, hj]
      · rw [heq, hj]
        cases sys.grants j <;> rfl
    · rw [if_neg hjm] at hj
      rcases h'.grants j with heq | ⟨hdj, hnej, heq⟩
      · exact .inl (heq.trans hj)
      · exact .inr ⟨(derivedFrom_congr (parent_setRevoked m)).mp hdj, hnej, by rw [heq, hj]⟩
  · rw [h'.validateNode, CapabilitySystem.validateNode, CapabilitySystem.validateNode]
    exact (congrArg (fun c ↦ CapabilitySystem.validateLoop _ objects c none n)
      capacity_modifyLive).trans (validateLoop_setRevoked (h.not_derivedFrom hd hne) objects _ _)

/-- **The loop** flags descendants only, and keeps the table well formed. -/
theorem Wf.revokeDescendants (h : sys.Wf held) (n : NodeId) (fuel : ℕ) :
    (CapabilitySystem.revokeDescendants n fuel sys).Wf held
      ∧ FlagsBelow sys n (CapabilitySystem.revokeDescendants n fuel sys) := by
  induction fuel generalizing sys with
  | zero => exact ⟨h, .refl⟩
  | succ fuel ih =>
    rw [CapabilitySystem.revokeDescendants]
    rcases h.revokeOneDescendant_cases n with ⟨heq, -⟩ | ⟨m, x, heq, -, -, hd, hne⟩
    · rw [heq]
      exact ⟨h, .refl⟩
    · rw [heq]
      obtain ⟨hwf, hflags⟩ := ih (h.setRevoked m)
      exact ⟨hwf, hflags.trans_setRevoked h hd hne⟩

/-- The entries that are live and lack the flag. -/
def unrevokedCount (sys : CapabilitySystem) : ℕ :=
  sys.nodes.countP fun e ↦
    match e.state with
    | .live n => !n.revoked
    | .free _ => false

theorem unrevokedCount_setRevoked {x : LiveNode} (hx : sys.liveNode m = some x)
    (hrev : x.revoked = false) : (sys.setRevoked m).unrevokedCount + 1 = sys.unrevokedCount := by
  have hslot := liveNode_eq_some.mp hx
  have := countP_set_add (fun e : CapabilityNode ↦
    match e.state with
    | .live n => !n.revoked
    | .free _ => false) (a := ⟨m.generation, .live { x with revoked := true }⟩) hslot
  rw [setRevoked, modifyLive_of_some hx, unrevokedCount, unrevokedCount, setNode]
  simpa [hrev] using this

/-- **The loop ends**, with every descendant flagged: the fuel of the kernel is never used up. -/
theorem Wf.revokeDescendants_done (h : sys.Wf held) (n : NodeId) {fuel : ℕ}
    (hfuel : sys.unrevokedCount < fuel) :
    (CapabilitySystem.revokeDescendants n fuel sys).findUnrevokedDescendant n = none := by
  induction fuel generalizing sys with
  | zero => omega
  | succ fuel ih =>
    rw [CapabilitySystem.revokeDescendants]
    rcases h.revokeOneDescendant_cases n with ⟨heq, hdone⟩ | ⟨m, x, heq, hx, hrev, -⟩
    · rw [heq]
      exact hdone
    · rw [heq]
      have := unrevokedCount_setRevoked hx hrev
      exact ih (h.setRevoked m) (by omega)

end CapabilitySystem

end Gaxera

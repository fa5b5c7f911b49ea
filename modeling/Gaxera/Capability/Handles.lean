import Gaxera.Capability.Step
import Gaxera.Core.Identities

/-!
# The handles a space hands out

What a run of the capability operations does to the slots of one space is a run of a generational
table, as for the arena: an insertion into the space gives a slot out, a deletion gives it back, and
every other operation leaves it alone. So a handle of the space is not returned twice, and one that
has been deleted stays refused, for as long as its slot is not reused as often as there are
generations.
-/

namespace Gaxera

open Generational

namespace Handle

/-- A handle as the name of a slot in one of its generations. -/
def name (handle : Handle) : UInt32 × UInt32 := (handle.slot, handle.generation)

end Handle

namespace CapabilitySpace

variable {s s' : CapabilitySpace} {handle : Handle} {node : NodeId}

theorem Inserted.move (h : s.Inserted node handle s') :
    Move nextGeneration 1 s.slotAt (some handle.name) s'.slotAt := by
  rw [h.slotAt]
  rcases h.empty with ⟨hnone, hone⟩ | hfree
  · rw [Handle.name, hone]
    exact .append hnone
  · exact .reuse hfree

theorem Removed.move (h : s.Removed handle node s') :
    Move nextGeneration 1 s.slotAt none s'.slotAt := by
  rw [h.slotAt]
  exact .free h.full

theorem exists_freeLink_iff {i : UInt32} : (∃ next, s.freeLink i = some next) ↔
    ∃ slot, s.slots[i.toNat]? = some slot ∧ slot.node = none := by
  simp only [freeLink_eq_some]
  constructor
  · rintro ⟨next, g, hx⟩
    exact ⟨_, hx, rfl⟩
  · rintro ⟨⟨g, o, next⟩, hx, rfl⟩
    exact ⟨next, g, hx⟩

/-- A handle whose slot has moved on is refused by everything that resolves it. -/
def Refuses (s : CapabilitySpace) (handle : Handle) : Prop :=
  ∃ e, s.nodeFor handle = .error e ∧ s.remove handle = .error e
    ∧ (∀ (sys : CapabilitySystem) objects, sys.inspect s handle objects = .error e)
    ∧ (∀ (sys : CapabilitySystem) t r objects, sys.lookup s handle t r objects = .error e)
    ∧ ∀ (sys : CapabilitySystem) dom,
      ∃ e', sys.delete s dom handle = (.error e', sys, s, dom)

theorem refuses_of_slotAt (h : ∀ node, s.slotAt handle.slot ≠ some (handle.generation, some node)) :
    s.Refuses handle := by
  cases hres : s.resolve handle with
  | ok r =>
    obtain ⟨⟨g, o, next⟩, m⟩ := r
    obtain ⟨-, hx, rfl, rfl⟩ := resolve_eq_ok.mp hres
    exact absurd (slotAt_eq_some.mpr ⟨next, hx⟩) (h m)
  | error e =>
    have hnode : s.nodeFor handle = .error e := by rw [nodeFor, hres]; rfl
    have hrem : s.remove handle = .error e := by rw [remove, hres]
    refine ⟨e, hnode, hrem, fun sys objects ↦ ?_, fun sys t r objects ↦ ?_, fun sys dom ↦ ?_⟩
    · rw [CapabilitySystem.inspect, hnode]
    · rw [CapabilitySystem.lookup, CapabilitySystem.lookupInfo, hnode]
      rfl
    · rw [CapabilitySystem.delete, hrem]
      by_cases hdom : s.domain ≠ dom.id
      · exact ⟨_, if_pos hdom⟩
      · exact ⟨_, if_neg hdom⟩

end CapabilitySpace

namespace CapState

variable {st : CapState} {k : ObjectId} {space : CapabilitySpace} {handle : Handle}

/-- The handle an operation returns for the space `k`. -/
def handleFor (st : CapState) (k : ObjectId) (op : CapOp) : Option Handle :=
  if op.target = some k then (st.exec op).1.handle else none

/-- The handles that a list of operations returns for the space `k`, in order. -/
def issued (st : CapState) (k : ObjectId) : List CapOp → List Handle
  | [] => []
  | op :: ops => (st.handleFor k op).toList ++ issued (st.exec op).2 k ops

/-- How often a slot of the space `k` is filled after the first time. -/
def refills (st : CapState) (k : ObjectId) (ops : List CapOp) (i : UInt32) : ℕ :=
  (st.issued k ops).countP (fun handle ↦ handle.slot = i) - 1

theorem issued_append (ops ops' : List CapOp) :
    st.issued k (ops ++ ops') = st.issued k ops ++ (st.run ops).issued k ops' := by
  induction ops generalizing st with
  | nil => rfl
  | cons op ops ih =>
    rw [List.cons_append, issued, ih, issued, List.append_assoc]
    rfl

/-- The table of the space `k`. -/
def table (st : CapState) (k : ObjectId) : Generational.Table UInt32 UInt32 NodeId :=
  match st.spaces.get k with
  | some space => space.slotAt
  | none => fun _ ↦ none

theorem table_eq (h : st.spaces.get k = some space) : st.table k = space.slotAt := by
  rw [table, h]

theorem table_congr {st' : CapState} (h : st'.spaces.get k = st.spaces.get k) :
    st'.table k = st.table k := by
  rw [table, table, h]

theorem Initial.table_eq (h : st.Initial) : st.table k = fun _ ↦ none := by
  cases hk : st.spaces.get k with
  | none => rw [table, hk]
  | some space =>
    obtain ⟨domain, capacity, htry⟩ := h.spaces k space hk
    have hslots := (CapabilitySpace.wf_of_tryNew htry).2
    rw [CapState.table_eq hk]
    funext i
    rw [CapabilitySpace.slotAt, hslots]
    rfl

/-- **One operation** is one move of the table of each space. -/
theorem Wf.exec_move (h : st.Wf) (op : CapOp) (k : ObjectId) :
    Move nextGeneration 1 (st.table k) ((st.handleFor k op).map Handle.name)
      ((st.exec op).2.table k) := by
  have hstep := (h.exec op).2
  rw [handleFor]
  generalize st.exec op = r at hstep
  cases hstep with
  | unchanged failed system spaces domains =>
    rw [table_congr (spaces k), failed, ite_self]
    exact .idle _
  | @created target domain dom space space' node handle info parent st' is_target get spaces
      inserted created authorised domain_get domain_eq domains =>
    rw [is_target]
    by_cases hk : target = k
    · subst hk
      have hget' := (spaces target).trans (if_pos rfl)
      rw [if_pos rfl, CapState.table_eq get, CapState.table_eq hget']
      exact inserted.move
    · rw [if_neg fun hc ↦ hk (Option.some_inj.mp hc),
        table_congr ((spaces k).trans (if_neg (Ne.symm hk)))]
      exact .idle _
  | revoked failed live system spaces domains is_revoke =>
    rw [table_congr (spaces k), failed, ite_self]
    exact .idle _
  | @deleted target domain dom space space' node handle st' get spaces removed restricts capacity
      is_delete domain_get domain_eq domains =>
    have hnone : (if op.target = some k then (CapResult.deleted (.ok ())).handle else none)
        = none := ite_self _
    rw [hnone]
    by_cases hk : k = target
    · subst hk
      have hget' := (spaces k).trans (if_pos rfl)
      rw [CapState.table_eq get, CapState.table_eq hget']
      exact removed.move
    · rw [table_congr ((spaces k).trans (if_neg hk))]
      exact .idle _

/-- **A run** hands out the names of a run of the table. -/
theorem Wf.run_moves (h : st.Wf) (ops : List CapOp) (k : ObjectId) :
    Run nextGeneration 1 (st.table k) ((st.issued k ops).map Handle.name)
      ((st.run ops).table k) := by
  induction ops generalizing st with
  | nil => exact .refl _
  | cons op ops ih =>
    have := (h.exec_move op k).run.trans (ih (h.exec op).1)
    rwa [Option.toList_map, ← List.map_append] at this

theorem length_generations_issued (ops : List CapOp) (i : UInt32) :
    (generations i ((st.issued k ops).map Handle.name)).length
      = (st.issued k ops).countP fun handle ↦ handle.slot = i := by
  rw [length_generations, List.countP_map]
  rfl

theorem Initial.issued_nodup (h : st.Initial) {ops : List CapOp}
    (hrefills : ∀ i, st.refills k ops i < 2 ^ 32 - 1) : (st.issued k ops).Nodup := by
  have hrun := h.wf.run_moves ops k
  rw [h.table_eq] at hrun
  refine List.Nodup.of_map Handle.name (hrun.nodup nextGeneration_injective fun i ↦ ?_)
  have := hrefills i
  rw [length_generations_issued]
  rw [refills] at this
  omega

theorem Initial.refuses (h : st.Initial) {before after : List CapOp} {domain : ObjectId}
    (hok : ((st.run before).exec (.delete k domain handle)).1 = .deleted (.ok ()))
    (hrefills : st.refills k (before ++ .delete k domain handle :: after) handle.slot < 2 ^ 32 - 1)
    (hget : (st.run (before ++ .delete k domain handle :: after)).spaces.get k = some space) :
    space.Refuses handle := by
  set op : CapOp := .delete k domain handle with hop
  have hwf := h.wf.run before
  have hrun := h.wf.run_moves before k
  rw [h.table_eq] at hrun
  have hmove := hwf.exec_move op k
  have hissued : (st.run before).handleFor k op = none := if_neg (by simp [hop, CapOp.target])
  rw [hissued] at hmove
  have hrun' := (hwf.exec op).1.run_moves after k
  -- The deletion found the slot occupied under this generation, and advanced it.
  obtain ⟨⟨node, htaken⟩, hback⟩ :
      (∃ node, (st.run before).table k handle.slot = some (handle.generation, some node))
      ∧ ∀ node, ((st.run before).exec op).2.table k handle.slot
        ≠ some (handle.generation, some node) := by
    obtain ⟨-, ⟨hfail, -⟩ | ⟨sp, sp', node, dom, -, hsp, hspaces, hrem, -⟩⟩ :=
      hwf.exec_delete k domain handle
    · rw [← hop, hok] at hfail
      simp at hfail
    · rw [CapState.table_eq hsp, CapState.table_eq ((hspaces k).trans (if_pos rfl)),
        hrem.slotAt, Function.update_self]
      exact ⟨⟨node, hrem.full⟩, by simp⟩
  have hall : st.issued k (before ++ op :: after)
      = st.issued k before ++ ((st.run before).exec op).2.issued k after := by
    rw [issued_append, issued, hissued]
    rfl
  refine CapabilitySpace.refuses_of_slotAt fun node' ↦ ?_
  rw [← CapState.table_eq hget, run_append]
  have hrun₁ := hrun.step hmove
  rw [Option.map_none, Option.toList_none, List.append_nil] at hrun₁
  refine hrun₁.retired nextGeneration_injective (hrun.mem_of_taken htaken) hback hrun' ?_
  rw [← List.map_append, ← hall, length_generations_issued]
  rw [refills] at hrefills
  omega

end CapState

/-! ## When a space is full -/

namespace CapabilitySystem

variable {sys : CapabilitySystem} {space : CapabilitySpace} {dom : ResourceDomain}

theorem allocateNode_ne_spaceFull {info : CapabilityInfo} {parent : Option NodeId}
    {e : CapabilityError} {sys' : CapabilitySystem}
    (h : sys.allocateNode info parent = (.error e, sys')) : e ≠ .spaceFull := by
  have hentry : ∀ {sys : CapabilitySystem},
      sys.allocateEntry info parent = (.error e, sys') → e ≠ .spaceFull := by
    intro sys h
    rw [allocateEntry] at h
    grind
  cases parent with
  | none => exact hentry h
  | some p =>
    rw [allocateNode] at h
    cases hadd : sys.addReference p with
    | error e' =>
      obtain rfl : e' = e := by simpa [hadd] using congrArg Prod.fst h
      rw [addReference] at hadd
      grind
    | ok sys' =>
      rw [hadd] at h
      exact hentry h

theorem insertNew_spaceFull {info : CapabilityInfo} {parent : Option NodeId}
    (h : (sys.insertNew space dom info parent).1 = .error .spaceFull) :
    space.hasCapacity = false := by
  rw [insertNew] at h
  by_cases hdom : space.domain ≠ dom.id
  · rw [if_pos hdom] at h
    simp at h
  rw [if_neg hdom] at h
  by_contra hcap
  rw [if_neg hcap] at h
  by_cases hroom : sys.freeHead = none ∧ sys.nodes.length = sys.capacity
  · rw [if_pos hroom] at h
    simp at h
  rw [if_neg hroom] at h
  cases hcharge : dom.chargeCapability with
  | error e => simp [hcharge] at h
  | ok dom' =>
    rw [hcharge] at h
    dsimp only at h
    rcases hal : sys.allocateNode info parent with ⟨e | node, sys'⟩
    · rw [hal] at h
      exact allocateNode_ne_spaceFull hal (by simpa using h)
    · -- The slot table has been found to have room.
      have hins : space.insert node ≠ .error .spaceFull := by
        rw [CapabilitySpace.insert]
        rw [CapabilitySpace.hasCapacity] at hcap
        grind
      rw [hal] at h
      dsimp only at h
      cases hspace : space.insert node with
      | ok x => simp [hspace] at h
      | error e =>
        rw [hspace] at h hins
        exact hins (by simpa using h)

end CapabilitySystem

namespace CapState

variable {st : CapState} {k : ObjectId} {space : CapabilitySpace} {op : CapOp}

/-- An operation that answers that the space is full has found no slot to fill. -/
theorem hasCapacity_of_spaceFull (h : (st.exec op).1 = .inserted (.error .spaceFull))
    (htarget : op.target = some k) (hget : st.spaces.get k = some space) :
    space.hasCapacity = false := by
  rcases exec_eq_inserting st htarget with heq | ⟨domain, call, hcall, heq⟩
  · simp [heq] at h
  rw [heq, CapState.inserting, hget] at h
  cases hdom : st.domains.get domain with
  | none => simp [hdom] at h
  | some dom =>
    rw [hdom] at h
    dsimp only at h
    rcases hcall space dom with ⟨e, hne, hfail⟩ | ⟨info, parent, -, hnew⟩
    · rw [hfail] at h
      exact absurd (by simpa using h) hne
    · rw [hnew] at h
      exact CapabilitySystem.insertNew_spaceFull (by simpa using h)

end CapState

/-! ## Identities are not reused -/

/-- **Identities are never reused.** Over every run of an arena, and over every run of the
capability operations for every space, as long as no slot is reused as often as there are
generations: nothing is returned twice; what has been destroyed or deleted stays refused; the free
list meets exactly the free slots, each once; and only an arena or space without a free slot answers
that it is full. -/
theorem identities_never_reused :
    (∀ capacity a₀, ObjectArena.tryNew capacity = some a₀ → ∀ ops,
      (∀ i, a₀.reuses ops i < 2 ^ 32 - 1) →
      let a := a₀.run ops
      (a₀.issued ops).Nodup
      ∧ (∀ before domain id after, ops = before ++ .destroy domain id :: after →
        ((a₀.run before).exec (.destroy domain id)).1 = .destroyed (.ok ()) →
        a.objectType id = none ∧ a.owner id = none
          ∧ ∀ domain', a.destroy domain' id = (.error .objectNotFound, a, domain'))
      ∧ (∃ l, Threads (linkAt ObjectArena.linkOf a.slots) a.freeHead l ∧ l.Nodup
        ∧ ∀ i, i ∈ l ↔ ∃ slot, a.slots[i.toNat]? = some slot ∧ slot.owner = none)
      ∧ ∀ domain factory objectType,
        (a.create domain factory objectType).1 = .error .arenaFull → a.population = capacity)
    ∧ ∀ st₀ : CapState, st₀.Initial → ∀ k ops, (∀ i, st₀.refills k ops i < 2 ^ 32 - 1) →
      let st := st₀.run ops
      (st₀.issued k ops).Nodup
      ∧ ∀ space, st.spaces.get k = some space →
        (∀ before domain handle after, ops = before ++ .delete k domain handle :: after →
          ((st₀.run before).exec (.delete k domain handle)).1 = .deleted (.ok ()) →
          space.Refuses handle)
        ∧ (∃ l, Threads space.freeLink space.freeHead l ∧ l.Nodup
          ∧ ∀ i, i ∈ l ↔ ∃ slot, space.slots[i.toNat]? = some slot ∧ slot.node = none)
        ∧ ∀ op, op.target = some k → (st.exec op).1 = .inserted (.error .spaceFull) →
          space.occupied = space.capacity := by
  constructor
  · intro capacity a₀ htry ops hreuses a
    obtain ⟨hth₀, hempty, hcap₀⟩ := ObjectArena.threaded_of_tryNew htry
    obtain ⟨hth, hcap, -⟩ := hth₀.run ops
    refine ⟨hth₀.issued_nodup hempty hreuses, ?_, ?_, fun domain factory objectType hfull ↦ ?_⟩
    · rintro before domain id after rfl hok
      have hnone : a.live id = none := hth₀.live_eq_none hempty hok (hreuses id.index)
      refine ⟨?_, ?_, ObjectArena.destroy_of_live_eq_none hnone⟩
      · rw [ObjectArena.objectType, hnone]
        rfl
      · rw [ObjectArena.owner, hnone]
        rfl
    · obtain ⟨l, hl, hmem⟩ := hth.free
      refine ⟨l, hl, hl.nodup, fun i ↦ (hmem i).trans ?_⟩
      exact ObjectArena.exists_linkAt_iff
    · exact (hth.population_eq_capacity hfull).trans (hcap.trans hcap₀)
  · intro st₀ h₀ k ops hrefills st
    refine ⟨h₀.issued_nodup hrefills, fun space hget ↦ ?_⟩
    have hspace := (h₀.wf.run ops).spaces k space hget
    refine ⟨?_, ?_, fun op htarget hfull ↦ ?_⟩
    · rintro before domain handle after rfl hok
      exact h₀.refuses hok (hrefills handle.slot) hget
    · obtain ⟨l, hl, hmem⟩ := hspace.free
      refine ⟨l, hl, hl.nodup, fun i ↦ (hmem i).trans ?_⟩
      exact CapabilitySpace.exists_freeLink_iff
    · exact hspace.occupied_eq_capacity (CapState.hasCapacity_of_spaceFull hfull htarget hget)

/-- One slot is used for two objects, and two handles of the chain are deleted. -/
theorem identities_never_reused_of_samples :
    let domain := ResourceDomain.new ⟨⟨0, 1⟩⟩ ⟨8, 8, 4096⟩
    let factory := Factory.new domain (ObjectTypeSet.of .endpoint)
    let ops := [.create domain factory .endpoint, .destroy (domain.setObjects 1) ⟨0, 1⟩,
      .create domain factory .endpoint]
    (ObjectArena.issued ⟨[], 1, none⟩ ops).Nodup
      ∧ (ObjectArena.issued ⟨[], 1, none⟩ ops).length = 2
      ∧ ObjectArena.owner (ObjectArena.run ⟨[], 1, none⟩ ops) ⟨0, 1⟩ = none
      ∧ ∀ space, (CapState.twoSpaces.run CapState.chainOps).spaces.get ⟨1, 1⟩ = some space →
        space.Refuses (Handle.fromParts 0 1) := by
  intro domain factory ops
  have hreuses : ∀ i, ObjectArena.reuses ⟨[], 1, none⟩ ops i < 2 ^ 32 - 1 := fun i ↦
    Nat.lt_of_le_of_lt ((Nat.sub_le _ _).trans List.countP_le_length) (by decide)
  have hrefills : ∀ i, CapState.twoSpaces.refills ⟨1, 1⟩ CapState.chainOps i < 2 ^ 32 - 1 :=
    fun i ↦ Nat.lt_of_le_of_lt ((Nat.sub_le _ _).trans List.countP_le_length)
      (by decide +kernel)
  obtain ⟨harena, hspace⟩ := identities_never_reused
  obtain ⟨hnodup, hdead, -⟩ := harena 1 ⟨[], 1, none⟩ rfl ops hreuses
  refine ⟨hnodup, by decide, (hdead [_] _ _ [_] rfl (by decide)).2.1, fun space hget ↦ ?_⟩
  obtain ⟨-, hrefused⟩ := hspace _ CapState.twoSpaces_initial ⟨1, 1⟩ _ hrefills
  exact (hrefused space hget).1 (CapState.chainOps.take 3) ⟨0, 1⟩ _ (CapState.chainOps.drop 4)
    rfl (by rfl)

end Gaxera

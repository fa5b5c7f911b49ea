import Gaxera.Core.Arena
import Gaxera.Data.FreeList
import Gaxera.Data.Generations

/-!
# The identities an arena hands out

A run of an arena creates and destroys objects, each time at the expense of whatever domain the
caller brings. What the arena does to a slot is one move of a generational table, so an identity is
not handed out again before its slot has been reused as often as there are generations. The free
list meets exactly the free slots, so the arena is full only when no slot is left.
-/

namespace Gaxera

open Function

/-- The generations of a slot, from the first one on, differ until all have been used. -/
theorem nextGeneration_injective : Generational.Injective nextGeneration 1 (2 ^ 32 - 1) := by
  intro j j' hj hj' heq
  have h := congrArg UInt32.toNat heq
  rw [toNat_iterate_nextGeneration (by decide), toNat_iterate_nextGeneration (by decide)] at h
  have hone : (1 : UInt32).toNat = 1 := rfl
  rw [hone, Nat.mod_eq_of_lt (by omega), Nat.mod_eq_of_lt (by omega)] at h
  omega

namespace ObjectId

/-- An identity as the name of a slot in one of its generations. -/
def name (id : ObjectId) : UInt32 × UInt32 := (id.index, id.generation)

end ObjectId

/-- What a caller asks of an arena. -/
inductive ArenaOp
  | create (domain : ResourceDomain) (factory : Factory) (objectType : ObjectType)
  | destroy (domain : ResourceDomain) (object : ObjectId)

inductive ArenaResult
  | created (result : Except ObjectError ObjectId)
  | destroyed (result : Except ObjectError Unit)
deriving DecidableEq

/-- The identity a successful creation returns. -/
def ArenaResult.id : ArenaResult → Option ObjectId
  | .created (.ok id) => some id
  | _ => none

namespace ObjectArena

variable {a a₀ : ObjectArena} {id : ObjectId} {i : UInt32} {capacity : ℕ}

def exec (a : ObjectArena) : ArenaOp → ArenaResult × ObjectArena
  | .create domain factory objectType =>
    let r := a.create domain factory objectType
    (.created r.1, r.2.1)
  | .destroy domain object =>
    let r := a.destroy domain object
    (.destroyed r.1, r.2.1)

/-- The arena after a list of operations. -/
def run (a : ObjectArena) : List ArenaOp → ObjectArena
  | [] => a
  | op :: ops => run (a.exec op).2 ops

/-- The identities that a list of operations returns, in order. -/
def issued (a : ObjectArena) : List ArenaOp → List ObjectId
  | [] => []
  | op :: ops => (a.exec op).1.id.toList ++ issued (a.exec op).2 ops

/-- How often a slot is given out after the first time. -/
def reuses (a : ObjectArena) (ops : List ArenaOp) (i : UInt32) : ℕ :=
  (a.issued ops).countP (fun id ↦ id.index = i) - 1

theorem run_append (ops ops' : List ArenaOp) : a.run (ops ++ ops') = (a.run ops).run ops' := by
  induction ops generalizing a with
  | nil => rfl
  | cons op ops ih => exact ih

theorem issued_append (ops ops' : List ArenaOp) :
    a.issued (ops ++ ops') = a.issued ops ++ (a.run ops).issued ops' := by
  induction ops generalizing a with
  | nil => rfl
  | cons op ops ih =>
    rw [List.cons_append, issued, ih, issued, List.append_assoc]
    rfl

/-! ## The table of generations -/

/-- The generation of each slot, and the owner of the object that lives in it. -/
def table (a : ObjectArena) : Generational.Table UInt32 UInt32 ResourceDomainId :=
  fun i ↦ (a.slots[i.toNat]?).map fun s ↦ (s.generation, s.owner)

/-- The link of a slot, if it is free. -/
def linkOf (s : ObjectSlot) : Option (Option UInt32) :=
  match s.state with
  | .free next => some next
  | .live _ _ => none

/-- The number of live objects. -/
def population (a : ObjectArena) : ℕ := a.slots.countP fun s ↦ s.owner.isSome

/-- The arena with its free list in order. -/
structure Threaded (a : ObjectArena) : Prop extends Wf a where
  free : FreeList linkOf a.slots a.freeHead

theorem live_eq_none_iff : a.live id = none ↔
    ∀ owner, a.table id.index ≠ some (id.generation, some owner) := by
  rw [live, table]
  cases hs : a.slots[id.index.toNat]? with
  | none => simp
  | some s =>
    obtain ⟨g, state⟩ := s
    cases state <;> simp [ObjectSlot.owner]

theorem exists_linkAt_iff : (∃ next, linkAt linkOf a.slots i = some next) ↔
    ∃ slot, a.slots[i.toNat]? = some slot ∧ slot.owner = none := by
  rw [linkAt]
  cases hs : a.slots[i.toNat]? with
  | none => simp
  | some s =>
    obtain ⟨g, state⟩ := s
    cases state <;> simp [linkOf, ObjectSlot.owner]

theorem table_setSlot {x y : ObjectSlot} (hx : a.slots[i.toNat]? = some x)
    (head : Option UInt32) :
    ({ a.setSlot i y with freeHead := head } : ObjectArena).table
      = update a.table i (some (y.generation, y.owner)) := by
  funext k
  change ((a.slots.set i.toNat y)[k.toNat]?).map _ = _
  rw [getElem?_set_word hx]
  by_cases hk : k = i
  · rw [if_pos hk, hk, update_self]
    rfl
  · rw [if_neg hk, update_of_ne hk]
    rfl

theorem table_append {y : ObjectSlot} (hlen : a.slots.length < 2 ^ 32) (head : Option UInt32) :
    ({ a with slots := a.slots ++ [y], freeHead := head } : ObjectArena).table
      = update a.table (UInt32.ofNat a.slots.length)
        (some (y.generation, y.owner)) := by
  funext k
  rw [table, getElem?_append_word hlen]
  by_cases hk : k = UInt32.ofNat a.slots.length
  · rw [if_pos hk, hk, update_self]
    rfl
  · rw [if_neg hk, update_of_ne hk]
    rfl

theorem threaded_of_tryNew (h : tryNew capacity = some a) :
    a.Threaded ∧ a.table = (fun _ ↦ none) ∧ a.capacity = capacity := by
  have ha : a = ⟨[], capacity, none⟩ ∧ capacity < 2 ^ 32 := by grind [tryNew]
  obtain ⟨rfl, hcap⟩ := ha
  exact ⟨⟨⟨Nat.zero_le _, hcap⟩, FreeList.nil⟩, rfl, rfl⟩

/-- **One operation** is one move of the table, and keeps the free list in order. -/
theorem Threaded.exec (h : a.Threaded) (op : ArenaOp) :
    (a.exec op).2.Threaded ∧ (a.exec op).2.capacity = a.capacity
      ∧ Generational.Move nextGeneration 1 a.table ((a.exec op).1.id.map ObjectId.name)
        (a.exec op).2.table := by
  have hlen : a.slots.length < 2 ^ 32 := Nat.lt_of_le_of_lt h.length_le h.capacity_lt
  cases op with
  | create d f t =>
    rw [ObjectArena.exec]
    generalize hr : a.create d f t = r
    have hstep : CreateStep a d t r := hr ▸ h.create_step d f t
    cases hstep with
    | failed full => exact ⟨h, rfl, .idle _⟩
    | @reused i g next head slot =>
      have hfree := h.free
      rw [head] at hfree
      refine ⟨⟨⟨?_, h.capacity_lt⟩, hfree.take slot rfl rfl⟩, rfl, ?_⟩
      · simpa [setSlot] using h.length_le
      · rw [table_setSlot slot]
        refine .reuse ?_
        rw [table, slot]
        rfl
    | appended head room =>
      have hfree := h.free
      rw [head] at hfree
      refine ⟨⟨⟨?_, h.capacity_lt⟩, hfree.append hlen rfl⟩, rfl, ?_⟩
      · simpa using Nat.succ_le_of_lt room
      · rw [table_append hlen]
        refine .append ?_
        rw [table, getElem?_length_word hlen]
        rfl
  | destroy d id =>
    rw [ObjectArena.exec]
    generalize hr : a.destroy d id = r
    have hstep : DestroyStep a d id r := hr ▸ destroy_step a d id
    cases hstep with
    | failed refused => exact ⟨h, rfl, .idle _⟩
    | freed slot charged =>
      refine ⟨⟨⟨?_, h.capacity_lt⟩, h.free.give slot rfl rfl⟩, rfl, ?_⟩
      · simpa [setSlot] using h.length_le
      · rw [table_setSlot slot]
        refine .free (x := d.id) ?_
        rw [table, slot]
        rfl

/-- **A run** hands out the names of a run of the table. -/
theorem Threaded.run (h : a.Threaded) (ops : List ArenaOp) :
    (a.run ops).Threaded ∧ (a.run ops).capacity = a.capacity
      ∧ Generational.Run nextGeneration 1 a.table ((a.issued ops).map ObjectId.name)
        (a.run ops).table := by
  induction ops generalizing a with
  | nil => exact ⟨h, rfl, .refl _⟩
  | cons op ops ih =>
    obtain ⟨hth, hcap, hmove⟩ := h.exec op
    obtain ⟨hth', hcap', hrun⟩ := ih hth
    refine ⟨hth', hcap'.trans hcap, ?_⟩
    have := hmove.run.trans hrun
    rwa [Option.toList_map, ← List.map_append] at this

/-! ## What follows -/

theorem length_generations_issued (ops : List ArenaOp) (i : UInt32) :
    (Generational.generations i ((a.issued ops).map ObjectId.name)).length
      = (a.issued ops).countP fun id ↦ id.index = i := by
  rw [Generational.length_generations, List.countP_map]
  rfl

theorem Threaded.issued_nodup (h : a.Threaded) (hempty : a.table = fun _ ↦ none)
    {ops : List ArenaOp} (hreuses : ∀ i, a.reuses ops i < 2 ^ 32 - 1) : (a.issued ops).Nodup := by
  obtain ⟨-, -, hrun⟩ := h.run ops
  rw [hempty] at hrun
  refine List.Nodup.of_map ObjectId.name (hrun.nodup nextGeneration_injective fun i ↦ ?_)
  have := hreuses i
  rw [length_generations_issued]
  rw [reuses] at this
  omega

theorem Threaded.live_eq_none (h : a.Threaded) (hempty : a.table = fun _ ↦ none)
    {before after : List ArenaOp} {d : ResourceDomain}
    (hok : ((a.run before).exec (.destroy d id)).1 = .destroyed (.ok ()))
    (hreuses : a.reuses (before ++ .destroy d id :: after) id.index < 2 ^ 32 - 1) :
    (a.run (before ++ .destroy d id :: after)).live id = none := by
  obtain ⟨hth, -, hrun⟩ := h.run before
  obtain ⟨hth', -, hmove⟩ := hth.exec (.destroy d id)
  obtain ⟨-, -, hrun'⟩ := hth'.run after
  rw [hempty] at hrun
  -- The destruction found the identity live, so it had been handed out, and it took it back.
  obtain ⟨⟨owner, htaken⟩, hback⟩ :
      (∃ owner, (a.run before).table id.index = some (id.generation, some owner))
      ∧ ∀ owner, ((a.run before).exec (.destroy d id)).2.table id.index
        ≠ some (id.generation, some owner) := by
    rcases hth.destroy d id with ⟨e, heq, -⟩ | ⟨a', heq, -, hdestroyed, -⟩
    · rw [ObjectArena.exec, heq] at hok
      simp at hok
    · obtain ⟨t, hlive⟩ := hdestroyed.owner
      have hnone : a'.live id = none := (hdestroyed.live id).trans (if_pos rfl)
      rw [ObjectArena.exec, heq]
      refine ⟨⟨d.id, ?_⟩, live_eq_none_iff.mp hnone⟩
      rw [table, live_eq_some.mp hlive]
      rfl
  have hnames : (a.issued before).map ObjectId.name
      ++ (((a.run before).exec (.destroy d id)).1.id.map ObjectId.name).toList
      = (a.issued before).map ObjectId.name := by
    rw [hok]
    simp [ArenaResult.id]
  have hrun₁ := hrun.step hmove
  rw [hnames] at hrun₁
  have hall : a.issued (before ++ .destroy d id :: after)
      = a.issued before ++ ((a.run before).exec (.destroy d id)).2.issued after := by
    rw [issued_append, issued, hok]
    rfl
  rw [run_append, live_eq_none_iff]
  intro owner'
  refine hrun₁.retired nextGeneration_injective (hrun.mem_of_taken htaken) hback hrun' ?_
  rw [← List.map_append, ← hall, length_generations_issued]
  rw [reuses] at hreuses
  omega

theorem destroy_of_live_eq_none (h : a.live id = none) (d : ResourceDomain) :
    a.destroy d id = (.error .objectNotFound, a, d) := by
  rw [live] at h
  rw [destroy]
  cases hs : a.slots[id.index.toNat]? with
  | none => rfl
  | some s =>
    obtain ⟨g, state⟩ := s
    cases state with
    | free next => rfl
    | live t owner =>
      have hg : g ≠ id.generation := by simpa [hs] using h
      exact if_pos hg

theorem Threaded.population_eq_capacity (h : a.Threaded) {d : ResourceDomain} {f : Factory}
    {t : ObjectType} (hfull : (a.create d f t).1 = .error .arenaFull) :
    a.population = a.capacity := by
  generalize hr : a.create d f t = r at hfull
  have hstep : CreateStep a d t r := hr ▸ h.create_step d f t
  cases hstep with
  | failed full =>
    obtain ⟨hhead, hlen⟩ := full (by simpa using hfull)
    have hfree := h.free
    rw [hhead] at hfree
    rw [population, List.countP_eq_length.mpr, hlen]
    intro s hs
    have hlink := hfree.link_eq_none (Nat.lt_of_le_of_lt h.length_le h.capacity_lt) hs
    obtain ⟨g, state⟩ := s
    cases state with
    | free next => simp [linkOf] at hlink
    | live t owner => rfl
  | reused | appended => simp at hfull

end ObjectArena

end Gaxera

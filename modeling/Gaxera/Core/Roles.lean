import Gaxera.Core.Process
import Mathlib.Data.List.Nodup
import Mathlib.Data.List.Perm.Basic

/-!
# Roles of a new process

The manifest of a process may list a repeatable role any number of times and every other role
once. The kernel enforces the same while it fills the manifest, with a table of 32 places: a
singleton role takes the place of its own number, a repeatable one the first place that is empty.
The places are the same ones. So a repeatable role can sit where a singleton role belongs, and that
role is then refused although the manifest would have been valid.

The empty places are followed through a sequence: they are the numbers that are no singleton role so
far, without as many from the front as there were repeatable roles.
-/

namespace Gaxera

open BootstrapManifest

/-! ## Sorted lists without a beginning -/

section Sorted

variable {l : List ℕ} {x m : ℕ}

/-- A number is left exactly if the numbers before it are as many as are taken away. -/
theorem mem_drop_iff_of_sorted (h : l.Pairwise (· < ·)) :
    x ∈ l.drop m ↔ x ∈ l ∧ m ≤ l.countP fun y ↦ y < x := by
  induction l generalizing m with
  | nil => simp
  | cons a l ih =>
    obtain ⟨hhead, htail⟩ := List.pairwise_cons.mp h
    rcases m with - | m
    · simp
    rw [List.drop_succ_cons, ih htail, List.countP_cons, List.mem_cons]
    constructor
    · rintro ⟨hmem, hle⟩
      rw [if_pos (decide_eq_true (hhead x hmem))]
      exact ⟨.inr hmem, Nat.succ_le_succ hle⟩
    · rintro ⟨rfl | hmem, hle⟩
      · -- nothing is smaller than the head
        have hnone : l.countP (fun y ↦ y < x) = 0 :=
          List.countP_eq_zero.mpr fun y hy ↦ by simpa using Nat.le_of_lt (hhead y hy)
        simp [hnone] at hle
      · rw [if_pos (decide_eq_true (hhead x hmem))] at hle
        exact ⟨hmem, Nat.le_of_succ_le_succ hle⟩

theorem drop_filter_ne (h : l.Pairwise (· < ·)) (hx : x ∈ l.drop m) :
    (l.filter fun y ↦ y ≠ x).drop m = (l.drop m).filter fun y ↦ y ≠ x := by
  induction l generalizing m with
  | nil => simp
  | cons a l ih =>
    obtain ⟨hhead, htail⟩ := List.pairwise_cons.mp h
    rcases m with - | m
    · rfl
    have hne : a ≠ x := Nat.ne_of_lt (hhead x (List.mem_of_mem_drop hx))
    rw [List.filter_cons_of_pos (by simpa using hne), List.drop_succ_cons, List.drop_succ_cons,
      ih htail hx]

end Sorted

/-! ## The places -/

namespace Process

/-- Roles are installed one after the other, until one is refused. -/
def installRoles (p : Process) : List ℕ → Option Process
  | [] => some p
  | role :: roles => (p.recordInstalledRole role).bind fun p ↦ p.installRoles roles

/-- The empty places. -/
def empties (p : Process) : List ℕ :=
  (List.range p.installedRoles.length).filter fun i ↦ p.installedRoles[i]? = some none

def fill (p : Process) (slot role : ℕ) : Process :=
  { p with installedRoles := p.installedRoles.set slot (some role) }

variable {p p' : Process} {role slot : ℕ}

theorem mem_empties : slot ∈ p.empties ↔ p.installedRoles[slot]? = some none := by
  rw [empties, List.mem_filter, List.mem_range, decide_eq_true_eq]
  exact and_iff_right_of_imp fun h ↦ (List.getElem?_eq_some_iff.mp h).1

theorem nodup_empties (p : Process) : p.empties.Nodup := List.nodup_range.filter _

theorem empties_fill (p : Process) (slot role : ℕ) :
    (p.fill slot role).empties = p.empties.filter fun i ↦ i ≠ slot := by
  rw [empties, empties, fill, List.length_set, List.filter_filter]
  refine List.filter_congr fun i hi ↦ ?_
  by_cases his : i = slot
  · subst his
    rw [List.getElem?_set_self (List.mem_range.mp hi)]
    simp
  · rw [List.getElem?_set_ne (Ne.symm his)]
    simp [his]

theorem findIdx?_isNone (p : Process) :
    p.installedRoles.findIdx? Option.isNone = p.empties.head? := by
  rw [empties, List.head?_filter]
  rcases hfind : p.installedRoles.findIdx? Option.isNone with - | slot
  · rw [List.findIdx?_eq_none_iff] at hfind
    rw [eq_comm, List.find?_eq_none]
    intro i hi
    have hget := List.getElem?_eq_getElem (List.mem_range.mp hi)
    have hsome := hfind _ (List.getElem_mem (List.mem_range.mp hi))
    rw [hget]
    simpa using fun heq ↦ by simp [heq] at hsome
  · obtain ⟨hlt, hslot, hbefore⟩ := List.findIdx?_eq_some_iff_getElem.mp hfind
    rw [eq_comm, List.find?_range_eq_some]
    refine ⟨?_, List.mem_range.mpr hlt, fun j hj ↦ ?_⟩
    · simpa [List.getElem?_eq_getElem hlt] using hslot
    · have hnot := hbefore j hj
      rw [List.getElem?_eq_getElem (Nat.lt_trans hj hlt)]
      simpa using fun heq ↦ hnot (by simp [heq])

/-- The roles that belong to a place of their own. -/
def singletons (roles : List ℕ) : List ℕ := roles.filter fun r ↦ !isRepeatableRole r

/-- The earlier roles that are in the way of `role`: a smaller one has its own place before that of
`role`, so that a repeatable one moves a place further. -/
def crowd (before : List ℕ) (role : ℕ) : ℕ :=
  before.countP fun r ↦ isRepeatableRole r || decide (r < role)

theorem crowd_eq (before : List ℕ) (role : ℕ) : crowd before role =
    before.countP isRepeatableRole + (singletons before).countP fun r ↦ r < role := by
  rw [crowd, singletons, List.countP_filter]
  induction before with
  | nil => rfl
  | cons r before ih =>
    rw [List.countP_cons, List.countP_cons, List.countP_cons, ih]
    rcases isRepeatableRole r <;> simp <;> omega

/-- The numbers that are no singleton role so far. -/
def unclaimed (before : List ℕ) : List ℕ :=
  (List.range 32).filter fun i ↦ i ∉ singletons before

theorem sorted_unclaimed (before : List ℕ) : (unclaimed before).Pairwise (· < ·) :=
  List.pairwise_lt_range.filter _

/-- Below a number are the singleton roles and the numbers that are none. -/
theorem countP_unclaimed {before : List ℕ} (hnodup : (singletons before).Nodup)
    (hrole : role < 32) :
    (unclaimed before).countP (fun i ↦ i < role) + (singletons before).countP (fun r ↦ r < role)
      = role := by
  have hperm : ((singletons before).filter fun r ↦ r < role).Perm
      ((List.range role).filter fun i ↦ i ∈ singletons before) := by
    rw [List.perm_ext_iff_of_nodup (hnodup.filter _) (List.nodup_range.filter _)]
    intro i
    simp only [List.mem_filter, List.mem_range, decide_eq_true_eq]
    exact and_comm
  have hbelow : (unclaimed before).countP (fun i ↦ i < role)
      = (List.range role).countP fun i ↦ i ∉ singletons before := by
    obtain ⟨k, hk⟩ := Nat.exists_eq_add_of_lt hrole
    rw [unclaimed, List.countP_filter, hk, Nat.add_assoc, List.range_add, List.countP_append,
      List.countP_map]
    have habove : (List.range (k + 1)).countP
        ((fun i ↦ decide (i < role) && decide (i ∉ singletons before)) ∘ (role + ·)) = 0 := by
      rw [List.countP_eq_zero]
      intro i _
      simp [Nat.not_lt.mpr (Nat.le_add_right role i)]
    rw [habove, Nat.add_zero]
    refine List.countP_congr fun i hi ↦ ?_
    simp [List.mem_range.mp hi]
  rw [hbelow, List.countP_eq_length_filter, List.countP_eq_length_filter, hperm.length_eq,
    Nat.add_comm, ← List.countP_eq_length_filter, ← List.countP_eq_length_filter]
  have hsplit : (List.range role).length = _ :=
    List.length_eq_countP_add_countP fun i ↦ i ∈ singletons before
  simp only [List.length_range, decide_eq_true_eq] at hsplit
  exact hsplit.symm

/-! ## One role -/

theorem recordInstalledRole_repeatable (hrep : isRepeatableRole role = true) :
    p.recordInstalledRole role = p.empties.head?.map fun slot ↦ p.fill slot role := by
  rw [recordInstalledRole, if_pos hrep, findIdx?_isNone]
  rcases p.empties.head? with - | slot <;> rfl

theorem recordInstalledRole_singleton (hrep : isRepeatableRole role = false) :
    p.recordInstalledRole role = if role ∈ p.empties then some (p.fill role role) else none := by
  rw [recordInstalledRole, if_neg (by simp [hrep])]
  by_cases hmem : role ∈ p.empties
  · rw [if_pos hmem, mem_empties.mp hmem]
    rfl
  · rw [if_neg hmem]
    rw [mem_empties] at hmem
    split
    · contradiction
    · rfl

/-- What is known of the table after some roles. -/
structure Holds (p : Process) (before : List ℕ) : Prop where
  empties_eq : p.empties = (unclaimed before).drop (before.countP isRepeatableRole)
  length_eq : p.empties.length + before.length = 32
  nodup : (singletons before).Nodup

theorem holds_new (id : ObjectId) (domain : ResourceDomainId) : Holds (new id domain) [] where
  empties_eq := by
    have hall : ∀ i ∈ List.range 32, (List.replicate 32 (none : Option ℕ))[i]? = some none := by
      decide
    have hempties : (new id domain).empties = List.range 32 :=
      List.filter_eq_self.mpr fun i hi ↦ decide_eq_true (hall i hi)
    rw [hempties]
    decide +kernel
  length_eq := rfl
  nodup := List.nodup_nil

theorem singletons_append (before after : List ℕ) :
    singletons (before ++ after) = singletons before ++ singletons after :=
  List.filter_append ..

variable {before : List ℕ}

/-- A repeatable role is installed as long as there are fewer than 32. -/
theorem Holds.repeatable (h : p.Holds before) (hrep : isRepeatableRole role = true) :
    (p.recordInstalledRole role = none → before.length = 32)
      ∧ ∀ p', p.recordInstalledRole role = some p' → p'.Holds (before ++ [role]) := by
  rw [recordInstalledRole_repeatable hrep]
  have hsame : singletons (before ++ [role]) = singletons before := by
    simp [singletons, hrep]
  rcases hempties : p.empties with - | ⟨slot, rest⟩
  · exact ⟨fun _ ↦ by simpa [hempties] using h.length_eq, fun p' hp ↦ by simp at hp⟩
  refine ⟨fun hnone ↦ by simp at hnone, fun p' hp ↦ ?_⟩
  obtain rfl : p.fill slot role = p' := by simpa using hp
  have hrest : (p.fill slot role).empties = rest := by
    have hnodup := nodup_empties p
    rw [hempties] at hnodup
    rw [empties_fill, hempties, List.filter_cons_of_neg (by simp), List.filter_eq_self]
    intro i hi
    exact decide_eq_true fun heq ↦ (List.nodup_cons.mp hnodup).1 (heq ▸ hi)
  constructor
  · -- one place more is gone from the front
    rw [hrest, unclaimed, hsame, ← unclaimed, List.countP_append, List.countP_singleton,
      if_pos hrep, ← List.drop_drop, ← h.empties_eq, hempties]
    rfl
  · have hlength := h.length_eq
    rw [hempties, List.length_cons] at hlength
    rw [hrest, List.length_append, List.length_singleton]
    omega
  · rw [hsame]
    exact h.nodup

/-- A singleton role finds its place if it was not there before and the place is not crowded out. -/
theorem Holds.singleton (h : p.Holds before) (hrep : isRepeatableRole role = false)
    (hrole : role < 32) :
    (p.recordInstalledRole role = none → role ∈ singletons before ∨ role < crowd before role)
      ∧ ∀ p', p.recordInstalledRole role = some p' →
        crowd before role ≤ role ∧ p'.Holds (before ++ [role]) := by
  have hmem : role ∈ p.empties ↔ role ∉ singletons before ∧ crowd before role ≤ role := by
    have hbelow := countP_unclaimed h.nodup hrole
    rw [h.empties_eq, mem_drop_iff_of_sorted (sorted_unclaimed before), crowd_eq, unclaimed,
      List.mem_filter, List.mem_range, decide_eq_true_eq, and_iff_right hrole, ← unclaimed]
    exact and_congr_right fun _ ↦ by omega
  rw [recordInstalledRole_singleton hrep]
  by_cases hin : role ∈ p.empties
  · rw [if_pos hin]
    refine ⟨fun hnone ↦ by simp at hnone, fun p' hp ↦ ?_⟩
    obtain rfl : p.fill role role = p' := by simpa using hp
    obtain ⟨hfresh, hcrowd⟩ := hmem.mp hin
    have hsingle : singletons (before ++ [role]) = singletons before ++ [role] := by
      simp [singletons, hrep]
    refine ⟨hcrowd, ?_, ?_, ?_⟩
    · have hunclaimed :
          unclaimed (before ++ [role]) = (unclaimed before).filter fun i ↦ i ≠ role := by
        rw [unclaimed, unclaimed, hsingle, List.filter_filter]
        exact List.filter_congr fun i _ ↦ by simp [and_comm]
      rw [h.empties_eq] at hin
      rw [empties_fill, h.empties_eq, hunclaimed, List.countP_append, List.countP_singleton,
        if_neg (by simp [hrep]), Nat.add_zero, drop_filter_ne (sorted_unclaimed before) hin]
    · have hlength := h.length_eq
      have hpos := List.length_pos_of_mem hin
      have herase : p.empties.filter (fun i ↦ i ≠ role) = p.empties.erase role := by
        rw [(nodup_empties p).erase_eq_filter]
        exact List.filter_congr fun i _ ↦ by rw [decide_not, bne, beq_eq_decide]
      rw [empties_fill, herase, List.length_erase_of_mem hin, List.length_append,
        List.length_singleton]
      omega
    · rw [hsingle, List.nodup_append]
      exact ⟨h.nodup, List.nodup_singleton role, fun a ha b hb heq ↦ by simp_all⟩
  · rw [if_neg hin]
    refine ⟨fun _ ↦ ?_, fun p' hp ↦ by simp at hp⟩
    by_contra hcon
    obtain ⟨hfresh, hcrowd⟩ := not_or.mp hcon
    exact hin (hmem.mpr ⟨hfresh, Nat.not_lt.mp hcrowd⟩)

/-! ## A whole sequence -/

/-- No place is crowded out: before each singleton role, the roles that are repeatable or smaller
than it are no more than its number. -/
def clearFrom (before : List ℕ) : List ℕ → Bool
  | [] => true
  | role :: roles => (isRepeatableRole role || decide (crowd before role ≤ role))
      && clearFrom (before ++ [role]) roles

theorem Holds.installRoles_iff {roles : List ℕ} (h : p.Holds before)
    (hroles : ∀ role ∈ roles, role < 32) :
    (p.installRoles roles).isSome ↔ (before ++ roles).length ≤ 32
      ∧ (singletons (before ++ roles)).Nodup ∧ clearFrom before roles := by
  induction roles generalizing p before with
  | nil =>
    rw [List.append_nil]
    have hlength := h.length_eq
    exact iff_of_true rfl ⟨by omega, h.nodup, rfl⟩
  | cons role roles ih =>
    obtain ⟨hrole, htail⟩ := List.forall_mem_cons.mp hroles
    have hassoc : before ++ role :: roles = before ++ [role] ++ roles := by simp
    rw [installRoles, clearFrom, Bool.and_eq_true, Bool.or_eq_true, decide_eq_true_eq]
    by_cases hrep : isRepeatableRole role = true
    · obtain ⟨hfull, hsome⟩ := h.repeatable hrep
      rcases hrec : p.recordInstalledRole role with - | p'
      · have hlength := hfull hrec
        refine iff_of_false (by simp) fun ⟨hle, _⟩ ↦ ?_
        rw [List.length_append, List.length_cons] at hle
        omega
      · rw [Option.bind_some, ih (hsome p' hrec) htail, hassoc, and_iff_right (Or.inl hrep)]
    · rw [Bool.not_eq_true] at hrep
      obtain ⟨hgone, hsome⟩ := h.singleton hrep hrole
      rcases hrec : p.recordInstalledRole role with - | p'
      · refine iff_of_false (by simp) fun ⟨_, hnodup, hclear, _⟩ ↦ ?_
        rcases hgone hrec with htwice | hcrowd
        · -- the role stands in the sequence a second time
          have hself : role ∈ singletons (role :: roles) := by simp [singletons, hrep]
          rw [singletons_append] at hnodup
          exact (List.nodup_append.mp hnodup).2.2 role htwice role hself rfl
        · rcases hclear with hrep' | hle
          · simp [hrep] at hrep'
          · omega
      · obtain ⟨hle, hholds⟩ := hsome p' hrec
        rw [Option.bind_some, ih hholds htail, hassoc, and_iff_right (Or.inr hle)]

/-! ## The manifest -/

/-- What `validate` asks of an entry besides its role. -/
def carriesCapability (entry : BootstrapCapability) : Bool :=
  entry.handle.isValid && (ObjectType.tryFrom (UInt32.ofNat entry.objectType)).isSome

theorem entryValid_iff {previous : List BootstrapCapability} {entry : BootstrapCapability}
    (hrole : isBootstrapRole entry.role) (hentry : carriesCapability entry) :
    entryValid previous entry
      ↔ isRepeatableRole entry.role ∨ entry.role ∉ previous.map (·.role) := by
  rw [carriesCapability, Bool.and_eq_true] at hentry
  simp [entryValid, hrole, hentry]

theorem entriesValid_iff {previous entries : List BootstrapCapability}
    (hroles : ∀ entry ∈ entries, isBootstrapRole entry.role)
    (hentries : ∀ entry ∈ entries, carriesCapability entry)
    (hprevious : (singletons (previous.map (·.role))).Nodup) :
    entriesValid previous entries
      ↔ (singletons ((previous ++ entries).map (·.role))).Nodup := by
  induction entries generalizing previous with
  | nil =>
    rw [List.append_nil]
    exact iff_of_true rfl hprevious
  | cons entry entries ih =>
    obtain ⟨hrole, hroles⟩ := List.forall_mem_cons.mp hroles
    obtain ⟨hentry, hentries⟩ := List.forall_mem_cons.mp hentries
    have hassoc : previous ++ entry :: entries = previous ++ [entry] ++ entries := by simp
    have hsub : (singletons ((previous ++ [entry]).map (·.role))).Sublist
        (singletons ((previous ++ [entry] ++ entries).map (·.role))) := by
      simp only [List.map_append, singletons_append]
      exact List.sublist_append_left ..
    have hone : (singletons ((previous ++ [entry]).map (·.role))).Nodup
        ↔ isRepeatableRole entry.role ∨ entry.role ∉ previous.map (·.role) := by
      rw [List.map_append, singletons_append, List.nodup_append, and_iff_right hprevious]
      rcases hrep : isRepeatableRole entry.role with - | -
      · simp only [List.map_cons, List.map_nil, singletons, List.filter_cons, hrep, Bool.not_false,
          if_true, List.filter_nil, List.nodup_singleton, true_and, List.mem_singleton, forall_eq,
          Bool.false_eq_true, false_or]
        constructor
        · intro hdistinct hmem
          exact hdistinct entry.role (List.mem_filter.mpr ⟨hmem, by simp [hrep]⟩) rfl
        · intro hfresh role hmem heq
          exact hfresh (heq ▸ (List.mem_filter.mp hmem).1)
      · simp [singletons, hrep]
    rw [entriesValid, Bool.and_eq_true, entryValid_iff hrole hentry, ← hone,
      hassoc]
    constructor
    · rintro ⟨hnodup, hrest⟩
      exact (ih hroles hentries hnodup).mp hrest
    · intro hall
      exact ⟨hall.sublist hsub, (ih hroles hentries (hall.sublist hsub)).mpr hall⟩

theorem validate_ofEntries_iff (token : UInt64) {entries : List BootstrapCapability}
    (hroles : ∀ entry ∈ entries, isBootstrapRole entry.role)
    (hentries : ∀ entry ∈ entries, carriesCapability entry) :
    (ofEntries token entries).validate
      ↔ entries.length ≤ 32 ∧ (singletons (entries.map (·.role))).Nodup := by
  have hvalid : entriesValid [] entries
      ↔ (singletons (entries.map (·.role))).Nodup :=
    entriesValid_iff hroles hentries List.nodup_nil
  rw [← hvalid]
  simp [validate, ofEntries, maxBootstrapCapabilities]

theorem entriesValid_concat (previous entries : List BootstrapCapability)
    (entry : BootstrapCapability) : entriesValid previous (entries ++ [entry])
      = (entriesValid previous entries && entryValid (previous ++ entries) entry) := by
  induction entries generalizing previous with
  | nil => simp [entriesValid]
  | cons e entries ih => simp [entriesValid, ih, Bool.and_assoc]

/-- **The kernel appends what the process accepts**: to a valid manifest, a capability of a known
role is appended exactly if the manifest is valid with it. -/
theorem append_iff_validate (token : UInt64) (entries : List BootstrapCapability)
    (entry : BootstrapCapability) (hvalid : (ofEntries token entries).validate)
    (hrole : isBootstrapRole entry.role) (hentry : carriesCapability entry) :
    (ofEntries token entries).append entry
      = if (ofEntries token (entries ++ [entry])).validate then
          some (ofEntries token (entries ++ [entry]))
        else none := by
  have hiff (l : List BootstrapCapability) :
      (ofEntries token l).validate ↔ l.length ≤ 32 ∧ entriesValid [] l := by
    simp [validate, ofEntries, maxBootstrapCapabilities]
  have hadmits := hiff (entries ++ [entry])
  rw [entriesValid_concat, ((hiff entries).mp hvalid).2, Bool.true_and, List.nil_append,
    entryValid_iff hrole hentry] at hadmits
  simp only [hadmits]
  simp only [append, ofEntries, maxBootstrapCapabilities, List.take_length, List.length_append]
  grind

/-- **Kernel and manifest agree** on a sequence of bootstrap roles exactly if, provided the manifest
is valid, no singleton role of it finds its place crowded out. -/
theorem installRoles_agrees_iff (id : ObjectId) (domain : ResourceDomainId) (token : UInt64)
    (entries : List BootstrapCapability)
    (hroles : ∀ entry ∈ entries, isBootstrapRole entry.role)
    (hentries : ∀ entry ∈ entries, carriesCapability entry) :
    (((new id domain).installRoles (entries.map (·.role))).isSome
        ↔ (BootstrapManifest.ofEntries token entries).validate)
      ↔ ((BootstrapManifest.ofEntries token entries).validate
        → clearFrom [] (entries.map (·.role))) := by
  have hsmall : ∀ role ∈ entries.map (·.role), role < 32 := by
    intro role hmem
    obtain ⟨entry, hentry, rfl⟩ := List.mem_map.mp hmem
    have hlt : entry.role < 14 := of_decide_eq_true (hroles entry hentry)
    omega
  rw [(holds_new id domain).installRoles_iff hsmall, List.nil_append, List.length_map, ← and_assoc,
    ← validate_ofEntries_iff token hroles hentries]
  exact ⟨fun h hvalid ↦ (h.mpr hvalid).2, fun h ↦ ⟨fun ⟨hvalid, _⟩ ↦ hvalid,
    fun hvalid ↦ ⟨hvalid, h hvalid⟩⟩⟩

/-- An entry for an endpoint, with a handle that is valid. -/
def sampleEntry (role : ℕ) : BootstrapCapability where
  role := role
  objectType := 3
  rights := Rights.none
  handle := ⟨0x100000001⟩

theorem append_iff_validate_sample : (ofEntries 7 [sampleEntry 5]).append (sampleEntry 0)
    = some (ofEntries 7 [sampleEntry 5, sampleEntry 0]) :=
  (append_iff_validate 7 _ (sampleEntry 0) (by decide) (by decide) (by decide)).trans (by decide)

/-- A boot module that stands between two singleton roles takes the place of neither. -/
theorem installRoles_agrees_iff_module_second :
    clearFrom [] [0, 5, 2] = true
      ∧ (((new ⟨1, 1⟩ ⟨⟨2, 1⟩⟩).installRoles [0, 5, 2]).isSome
        ↔ (BootstrapManifest.ofEntries 7 ([0, 5, 2].map sampleEntry)).validate) :=
  ⟨by decide, (installRoles_agrees_iff ⟨1, 1⟩ ⟨⟨2, 1⟩⟩ 7 ([0, 5, 2].map sampleEntry) (by decide)
    (by decide)).mpr fun _ ↦ by decide⟩

/-- A boot module that stands first takes the place of role 0: the manifest of the two is valid, and
role 0 is refused. -/
theorem module_first_crowds_out_role_zero :
    (BootstrapManifest.ofEntries 7 ([5, 0].map sampleEntry)).validate = true
      ∧ ((new ⟨1, 1⟩ ⟨⟨2, 1⟩⟩).installRoles [5, 0]) = none := by
  decide +kernel

end Process

end Gaxera

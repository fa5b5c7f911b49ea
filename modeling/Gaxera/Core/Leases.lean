import Gaxera.Core.Vectors

/-!
# Leases are never confused

While no operation is under way on an entry of the vector table, the entry agrees with the log: its
generation counts the releases, it is active exactly when there is a live lease of it, and a
notification that it has was bound under its generation by the last operation that went through.
Each operation is walked through once, under interference, from an entry that agrees with the log to
one that agrees with the longer log.

The generation is a 32-bit number that skips zero. It comes back to where it was after `2 ^ 32 - 1`
releases, so the agreement is claimed for fewer.
-/

namespace Gaxera

open VectorLog VectorSlot

theorem vectorIndex_eq_some_iff {vector i : ℕ} :
    vectorIndex vector = some i ↔ vector = deviceVectorFirst + i ∧ i < vectorCount := by
  rw [vectorIndex, vectorCount, deviceVectorFirst, deviceVectorLast]
  split <;> simp <;> omega

namespace VectorLog

variable {log : VectorLog} {op : VectorOp} {answer : VectorAnswer} {i : ℕ}

/-- Few enough releases for the generations to be distinct. -/
def Few (i : ℕ) (log : VectorLog) : Prop := releases i log < 2 ^ 32 - 1

/-! ## Reading the log -/

theorem releases_append_le (i : ℕ) (newer older : VectorLog) :
    releases i older ≤ releases i (newer ++ older) := by
  rw [releases, releases, List.countP_append]
  exact Nat.le_add_left _ _

/-- The leases of one vector. -/
def liveAt (i : ℕ) (log : VectorLog) : List VectorLease :=
  (live log).filter fun lease ↦ lease.vector = deviceVectorFirst + i

theorem of_refused (i : ℕ) (op : VectorOp) (err : VectorError) (log : VectorLog) :
    releases i ((op, .refused err) :: log) = releases i log
      ∧ live ((op, .refused err) :: log) = live log
      ∧ bound i ((op, .refused err) :: log) = bound i log := by
  refine ⟨?_, ?_, ?_⟩
  · rw [releases, List.countP_cons_of_neg, releases]
    simp [isRelease]
  · rcases op with _ | _ | _ | _ <;> rfl
  · exact if_neg fun h ↦ h.2

theorem of_index_ne (log : VectorLog) (hi : i < vectorCount) (hindex : op.index ≠ some i)
    (hleased : ∀ lease, answer = .leased lease → lease.vector ≠ deviceVectorFirst + i) :
    releases i ((op, answer) :: log) = releases i log
      ∧ liveAt i ((op, answer) :: log) = liveAt i log
      ∧ bound i ((op, answer) :: log) = bound i log := by
  refine ⟨?_, ?_, if_neg fun h ↦ hindex h.1⟩
  · rw [releases, List.countP_cons_of_neg, releases]
    rcases op with _ | lease | _ | _
    · simp [isRelease]
    · rcases answer with _ | _ | _
      · simp [isRelease]
      · exact fun h ↦ hindex (of_decide_eq_true h)
      · simp [isRelease]
    · simp [isRelease]
    · simp [isRelease]
  · rcases op with ⟨irq, id⟩ | lease | _ | _
    · rcases answer with lease | _ | _
      · rw [liveAt, live, List.filter_cons_of_neg (by simpa using hleased lease rfl), liveAt]
      · rfl
      · rfl
    · rcases answer with _ | _ | _
      · rfl
      · have hvector : lease.vector ≠ deviceVectorFirst + i := fun h ↦
          hindex (vectorIndex_eq_some_iff.mpr ⟨h, hi⟩)
        rw [liveAt, live, List.filter_filter, liveAt]
        refine List.filter_congr fun l _ ↦ ?_
        by_cases heq : l = lease
        · simp [heq, hvector]
        · simp [heq]
      · rfl
    · rfl
    · rfl

/-- Every operation that has gone through was about a vector of the table, and a lease it was made
with was of the generation of its time. -/
def Stamped : VectorLog → Prop
  | [] => True
  | (op, answer) :: log =>
    (answer.Succeeds → ∃ i, op.index = some i ∧ ∀ lease, op.lease = some lease →
      lease.generation.toNat = releases i log + 1) ∧ Stamped log

theorem Stamped.of_append {newer older : VectorLog} (h : Stamped (newer ++ older)) :
    Stamped older := by
  induction newer with
  | nil => exact h
  | cons entry newer ih => exact ih h.2

/-- **A lease that was released is of an earlier generation.** -/
theorem Stamped.lt_of_released (h : Stamped log) {lease : VectorLease}
    (hreleased : (.release lease, .done) ∈ log) (hindex : vectorIndex lease.vector = some i) :
    lease.generation.toNat ≤ releases i log := by
  obtain ⟨newer, older, rfl⟩ := List.append_of_mem hreleased
  obtain ⟨j, hj, hstamp⟩ := h.of_append.1 trivial
  obtain rfl : i = j := Option.mem_unique hindex hj
  replace hstamp := hstamp lease rfl
  have hcount : releases i ((.release lease, .done) :: older) = releases i older + 1 := by
    rw [releases, List.countP_cons_of_pos (by simpa [isRelease] using hindex), releases]
  rw [hstamp, ← hcount]
  exact releases_append_le i newer _

/-- **A lease that was released is refused ever after.** -/
theorem Stamped.refused_after_release (h : Stamped log) {newer older : VectorLog}
    {lease : VectorLease} (hlog : log = newer ++ (.release lease, .done) :: older) :
    ∀ entry ∈ newer, entry.1.lease = some lease → ¬ entry.2.Succeeds := by
  rintro ⟨op, answer⟩ hmem hlease hsucceeds
  obtain ⟨newer₁, newer₂, rfl⟩ := List.append_of_mem hmem
  rw [hlog, List.append_assoc, List.cons_append] at h
  obtain ⟨i, hindex, hstamp⟩ := h.of_append.1 hsucceeds
  have hvector : vectorIndex lease.vector = some i := by
    rcases op with _ | l | ⟨l, _⟩ | l
    · exact nomatch hlease
    all_goals exact Option.some.inj hlease ▸ hindex
  have hle := h.of_append.2.lt_of_released (List.mem_append_right _ List.mem_cons_self) hvector
  have heq := hstamp lease hlease
  omega

/-- What the log says of the notification of a vector: the last operation on the vector that has
gone through is the `bind`. -/
theorem exists_bind_of_bound {generation : UInt32} {id : ObjectId}
    (h : bound i log = some (generation, id)) :
    ∃ newer lease answer older, log = newer ++ (.bind lease id, answer) :: older
      ∧ lease.generation = generation ∧ vectorIndex lease.vector = some i ∧ answer.Succeeds
      ∧ ∀ entry ∈ newer, entry.1.index = some i → ¬ entry.2.Succeeds := by
  induction log with
  | nil => exact nomatch h
  | cons entry log ih =>
    obtain ⟨op, answer⟩ := entry
    by_cases hhere : op.index = some i ∧ answer.Succeeds
    · rcases op with _ | _ | ⟨lease, notification⟩ | _
      · exact nomatch (if_pos hhere).symm.trans h
      · exact nomatch (if_pos hhere).symm.trans h
      · have heq : some (lease.generation, notification) = some (generation, id) :=
          (if_pos hhere).symm.trans h
        obtain ⟨rfl, rfl⟩ := Prod.mk.inj (Option.some.inj heq)
        exact ⟨[], lease, answer, log, rfl, rfl, hhere.1, hhere.2,
          fun entry hmem ↦ absurd hmem List.not_mem_nil⟩
      · exact nomatch (if_pos hhere).symm.trans h
    · obtain ⟨newer, lease, answer', older, rfl, hgeneration, hvector, hsucceeds, hnewer⟩ :=
        ih ((if_neg hhere).symm.trans h)
      refine ⟨(op, answer) :: newer, lease, answer', older, rfl, hgeneration, hvector, hsucceeds,
        List.forall_mem_cons.mpr ⟨fun hindex hsucceeds ↦ hhere ⟨hindex, hsucceeds⟩, hnewer⟩⟩

theorem live_cons (op : VectorOp) (answer : VectorAnswer) (log : VectorLog) :
    (live ((op, answer) :: log)).Sublist (live log)
      ∨ ∃ lease, answer = .leased lease ∧ live ((op, answer) :: log) = lease :: live log := by
  rcases op with _ | _ | _ | _ <;> rcases answer with _ | _ | _
  case allocate.leased => exact .inr ⟨_, rfl, rfl⟩
  case release.done => exact .inl List.filter_sublist
  all_goals exact .inl (List.Sublist.refl _)

end VectorLog

/-! ## An entry and the log -/

/-- **An entry of the table agrees with the log.** -/
structure Settled (log : VectorLog) (i : ℕ) (s : VectorSlot) : Prop where
  generation : s.generation.toNat = log.releases i + 1
  live : log.liveAt i = if s.active then [⟨deviceVectorFirst + i, s.generation⟩] else []
  active : s.notification ≠ 0 → s.active = true
  bound : s.notification ≠ 0 →
    ∃ id : ObjectId, log.bound i = some (s.generation, id) ∧ id.raw = s.notification

namespace Settled

variable {log : VectorLog} {op : VectorOp} {answer : VectorAnswer} {i : ℕ} {s : VectorSlot}

theorem new (i : ℕ) : Settled [] i .new :=
  ⟨rfl, rfl, fun h ↦ absurd rfl h, fun h ↦ absurd rfl h⟩

theorem marked (h : Settled log i s) (pending : Bool) :
    Settled log i { s with pending := pending } :=
  ⟨h.generation, h.live, h.active, h.bound⟩

theorem refused (h : Settled log i s) (op : VectorOp) (err : VectorError) :
    Settled ((op, .refused err) :: log) i s := by
  obtain ⟨hreleases, hlive, hbound⟩ := of_refused i op err log
  refine ⟨hreleases ▸ h.generation, ?_, h.active, hbound ▸ h.bound⟩
  rw [liveAt, hlive]
  exact h.live

theorem elsewhere (h : Settled log i s) (hi : i < vectorCount) (hindex : op.index ≠ some i)
    (hleased : ∀ lease, answer = .leased lease → lease.vector ≠ deviceVectorFirst + i) :
    Settled ((op, answer) :: log) i s := by
  obtain ⟨hreleases, hlive, hbound⟩ := of_index_ne log hi hindex hleased
  exact ⟨hreleases ▸ h.generation, hlive ▸ h.live, h.active, hbound ▸ h.bound⟩

theorem allocated (h : Settled log i s) (hfree : s.active = false)
    (interrupt : ObjectId) (pending : Bool) :
    Settled ((.allocate i interrupt, .leased ⟨deviceVectorFirst + i, s.generation⟩) :: log) i
      ⟨true, i, s.generation, interrupt.raw, 0, pending⟩ := by
  have hlive := h.live
  rw [hfree, if_neg Bool.false_ne_true] at hlive
  refine ⟨?_, ?_, fun h ↦ absurd rfl h, fun h ↦ absurd rfl h⟩
  · exact h.generation
  · rw [if_pos rfl, liveAt, VectorLog.live, List.filter_cons_of_pos (by simp)]
    exact congrArg _ hlive

variable {lease : VectorLease}

theorem released (h : Settled log i s) (hindex : vectorIndex lease.vector = some i)
    (hactive : s.active = true) (hgeneration : s.generation = lease.generation)
    (hfew : Few i ((.release lease, .done) :: log)) (pending : Bool) :
    s.generation + 1 ≠ 0
      ∧ Settled ((.release lease, .done) :: log) i
        ⟨false, s.irq, s.generation + 1, 0, 0, pending⟩ := by
  have hcount : releases i ((.release lease, .done) :: log)
      = releases i log + 1 := by
    rw [releases, List.countP_cons_of_pos (by simpa [isRelease] using hindex),
      releases]
  rw [Few, hcount, ← h.generation] at hfew
  have hnext : (s.generation + 1).toNat = s.generation.toNat + 1 := by
    rw [UInt32.toNat_add]
    exact Nat.mod_eq_of_lt (by simp; omega)
  have hlive := h.live
  rw [hactive, if_pos rfl] at hlive
  obtain rfl : lease = ⟨deviceVectorFirst + i, s.generation⟩ := by
    obtain ⟨hvector, -⟩ := vectorIndex_eq_some_iff.mp hindex
    rw [hgeneration, ← hvector]
  refine ⟨fun hzero ↦ ?_, ?_, ?_, fun h ↦ absurd rfl h, fun h ↦ absurd rfl h⟩
  · rw [hzero] at hnext
    exact absurd hnext (by simp)
  · rw [hcount, ← h.generation]
    exact hnext
  · rw [if_neg Bool.false_ne_true, liveAt, VectorLog.live, List.filter_filter]
    have hswap : ∀ l : List VectorLease, l.filter (fun a ↦ decide (a.vector = deviceVectorFirst + i)
        && decide (a ≠ ⟨deviceVectorFirst + i, s.generation⟩))
        = (l.filter fun a ↦ a.vector = deviceVectorFirst + i).filter
          fun a ↦ a ≠ ⟨deviceVectorFirst + i, s.generation⟩ := fun l ↦ by
      rw [List.filter_filter]
      exact List.filter_congr fun a _ ↦ Bool.and_comm _ _
    rw [hswap]
    exact (congrArg _ hlive).trans (by simp)

theorem bind (h : Settled log i s) {id : ObjectId} (hindex : vectorIndex lease.vector = some i)
    (hactive : s.active = true) (hgeneration : s.generation = lease.generation) :
    Settled ((.bind lease id, .done) :: log) i { s with notification := id.raw } := by
  refine ⟨h.generation, h.live, fun _ ↦ hactive, fun _ ↦ ⟨id, ?_, rfl⟩⟩
  rw [VectorLog.bound, if_pos ⟨hindex, trivial⟩, hgeneration]

theorem unbind (h : Settled log i s) (lease : VectorLease) (pending : Bool) :
    Settled ((.unbind lease, .done) :: log) i { s with notification := 0, pending := pending } :=
  ⟨h.generation, h.live, fun h ↦ absurd rfl h, fun h ↦ absurd rfl h⟩

/-- A vector has one lease at a time, so a new one finds no other. -/
theorem not_mem_of_cons {log' : VectorLog} (h : Settled log' i s)
    (hvector : lease.vector = deviceVectorFirst + i) (hlive : log'.live = lease :: log.live) :
    deviceVectorFirst + i ∉ log.live.map VectorLease.vector := by
  intro hmem
  obtain ⟨other, hother, heq⟩ := List.mem_map.mp hmem
  have hlength : (log'.liveAt i).length ≤ 1 := by
    rw [h.live]
    split <;> simp
  have hmem' : other ∈ log.liveAt i := List.mem_filter.mpr ⟨hother, by simpa using heq⟩
  have hpos := List.length_pos_of_mem hmem'
  rw [liveAt, hlive, List.filter_cons_of_pos (by simpa using hvector), List.length_cons]
    at hlength
  rw [liveAt] at hpos
  omega

end Settled

/-! ## The operations under interference -/

/-- What the interrupt handler may change: the mark that an interrupt is pending. -/
def Marks (s s' : VectorSlot) : Prop := ∃ pending, s' = { s with pending := pending }

theorem Marks.refl (s : VectorSlot) : Marks s s := ⟨s.pending, rfl⟩

theorem Marks.trans {s s' s'' : VectorSlot} (h : Marks s s') (h' : Marks s' s'') : Marks s s'' := by
  obtain ⟨_, rfl⟩ := h
  obtain ⟨pending, rfl⟩ := h'
  exact ⟨pending, rfl⟩

namespace VectorOp

/-- **Whenever the handler would make a record**, its notification was bound under the generation
that it would report. -/
def Asserts (log : VectorLog) (i : ℕ) (s : VectorSlot) : Prop :=
  s.active = true → s.notification ≠ 0 →
    ∃ id : ObjectId, log.bound i = some (s.generation, id) ∧ id.raw = s.notification

/-- **A lease that was released changes nothing.** -/
def Guarantees (op : VectorOp) (log : VectorLog) (s s' : VectorSlot) : Prop :=
  ∀ lease, op.lease = some lease → (.release lease, .done) ∈ log → s' = s

/-- When the operation returns, the entry agrees with the longer log. -/
def Promises (op : VectorOp) (i : ℕ) (log : VectorLog) (answer : VectorAnswer) (s : VectorSlot) :
    Prop :=
  VectorLog.Few i ((op, answer) :: log) → Settled ((op, answer) :: log) i s
    ∧ (∀ lease, op.lease = some lease → answer.Succeeds →
      lease.generation.toNat = log.releases i + 1)
    ∧ ∀ lease, answer = .leased lease → lease.vector = deviceVectorFirst + i

variable {log : VectorLog} {i : ℕ} {s : VectorSlot} {lease : VectorLease}

/-- The operation is as it should be under any interference. -/
abbrev Keeps (op : VectorOp) (log : VectorLog) (i : ℕ) (program : VectorSlot.Program)
    (s : VectorSlot) : Prop :=
  program.Holds Marks (op.Guarantees log) (Asserts log i) (op.Promises i log) s

theorem asserts_of_settled (h : Settled log i s) : Asserts log i s := fun _ ↦ h.bound

theorem guarantees_refl (op : VectorOp) (log : VectorLog) (s : VectorSlot) :
    op.Guarantees log s s := fun _ _ _ ↦ rfl

theorem promises_refused (h : Settled log i s) (op : VectorOp) (err : VectorError) :
    op.Promises i log (.refused err) s :=
  fun _ ↦ ⟨h.refused op err, fun _ _ hsucceeds ↦ hsucceeds.elim, fun _ hleased ↦ nomatch hleased⟩

/-- A lease of the current generation has not been released, so it may change what it likes. -/
theorem guarantees_of_current (h : Settled log i s) (hstamped : log.Stamped) (op : VectorOp)
    (hlease : op.lease = some lease) (hindex : vectorIndex lease.vector = some i)
    (hgeneration : s.generation = lease.generation) (s₁ s₂ : VectorSlot) :
    op.Guarantees log s₁ s₂ := by
  rintro lease' hlease' hreleased
  obtain rfl : lease = lease' := Option.mem_unique hlease hlease'
  have hle := hstamped.lt_of_released hreleased hindex
  have hgen := h.generation
  rw [hgeneration] at hgen
  omega

variable {op : VectorOp}

/-- The rule for a load of something that the handler does not change. -/
theorem keeps_load {β : Type} {read : VectorSlot → β} {next : β → Program}
    (hread : ∀ p, read { s with pending := p } = read s)
    (hasserts : ∀ p, Asserts log i { s with pending := p })
    (hnext : ∀ p, Keeps op log i (next (read s)) { s with pending := p }) :
    Keeps op log i (load read next) s := by
  rintro _ ⟨p, rfl⟩
  refine ⟨hasserts p, guarantees_refl _ _ _, ?_⟩
  change Keeps op log i (next (read { s with pending := p })) { s with pending := p }
  rw [hread p]
  exact hnext p

theorem keeps_store {write : VectorSlot → VectorSlot} {next : Program}
    (hasserts : ∀ p, Asserts log i { s with pending := p })
    (hguarantees : ∀ s₁ s₂, op.Guarantees log s₁ s₂)
    (hnext : ∀ p, Keeps op log i next (write { s with pending := p })) :
    Keeps op log i (store write next) s := by
  rintro _ ⟨p, rfl⟩
  exact ⟨hasserts p, hguarantees _ _, hnext p⟩

theorem asserts_of_notification (h : s.notification = 0) (p : Bool) :
    Asserts log i { s with pending := p } :=
  fun _ hne ↦ absurd h hne

theorem keeps_allocate {irq : ℕ} (h : Settled log irq s) (interrupt : ObjectId) :
    Keeps (.allocate irq interrupt) log irq (allocating irq interrupt) s := by
  have hguarantees : ∀ s₁ s₂, Guarantees (.allocate irq interrupt) log s₁ s₂ :=
    fun _ _ lease hlease ↦ nomatch hlease
  rintro _ ⟨p, rfl⟩
  refine ⟨asserts_of_settled (h.marked p), hguarantees _ _, ?_⟩
  rcases hactive : s.active with _ | _
  · -- a vector that is free has no notification, until it is bound
    have hzero : s.notification = 0 := Decidable.byContradiction fun hne ↦
      Bool.false_ne_true (hactive.symm.trans (h.active hne))
    simp only [Bool.false_eq_true, if_false]
    refine keeps_load (fun _ ↦ rfl) (asserts_of_notification hzero) fun p₁ ↦ ?_
    refine keeps_store (asserts_of_notification hzero) hguarantees fun p₂ ↦ ?_
    refine keeps_store (asserts_of_notification hzero) hguarantees fun p₃ ↦ ?_
    refine keeps_store (asserts_of_notification hzero) hguarantees fun p₄ ↦ ?_
    refine keeps_store (asserts_of_notification rfl) hguarantees fun p₅ _ ↦ ?_
    refine ⟨h.allocated hactive interrupt false, fun _ hlease ↦ (nomatch hlease), ?_⟩
    rintro lease heq
    exact (VectorAnswer.leased.inj heq) ▸ rfl
  · simp only [if_true]
    exact promises_refused (by simpa [hactive] using h.marked p) _ _

/-- The rule for a check: the operation is refused, or goes on where the check is passed. -/
theorem keeps_check {β : Type} {read : VectorSlot → β} {c : β → Prop} [DecidablePred c]
    {err : VectorError} {next : β → Program} (h : Settled log i s)
    (hread : ∀ p, read { s with pending := p } = read s)
    (hnext : ¬c (read s) → ∀ p, Keeps op log i (next (read s)) { s with pending := p }) :
    Keeps op log i (load read fun b ↦ if c b then .done (.refused err) else next b) s := by
  refine keeps_load hread (fun p ↦ asserts_of_settled (h.marked p)) fun p ↦ ?_
  by_cases hrefused : c (read s)
  · rw [if_pos hrefused]
    exact promises_refused (h.marked p) _ _
  · rw [if_neg hrefused]
    exact hnext hrefused p

/-- An operation that succeeds had the lease of the current generation. -/
theorem promises_done {s' : VectorSlot} (h : Settled log i s) (hlease : op.lease = some lease)
    (hgeneration : s.generation = lease.generation)
    (hsettled : Few i ((op, .done) :: log) → Settled ((op, .done) :: log) i s') :
    op.Promises i log .done s' := by
  refine fun hfew ↦ ⟨hsettled hfew, ?_, fun lease heq ↦ nomatch heq⟩
  rintro lease' hlease' -
  obtain rfl : lease = lease' := Option.mem_unique hlease hlease'
  rw [← hgeneration]
  exact h.generation

theorem keeps_release (h : Settled log i s) (hstamped : log.Stamped)
    (hindex : vectorIndex lease.vector = some i) :
    Keeps (.release lease) log i (releasing lease) s := by
  refine keeps_check h (fun _ ↦ rfl) fun hcurrent p ↦ ?_
  refine keeps_check (h.marked p) (fun _ ↦ rfl) fun hactive p₁ ↦ ?_
  have hgeneration : s.generation = lease.generation := not_not.mp hcurrent
  have hguarantees := guarantees_of_current h hstamped (.release lease) rfl hindex hgeneration
  -- once it is inactive, the entry makes no record
  have hquiet (s' : VectorSlot) (hfalse : s'.active = false) (p : Bool) :
      Asserts log i { s' with pending := p } := fun htrue ↦
    absurd (hfalse.symm.trans htrue) Bool.false_ne_true
  refine keeps_store (fun p ↦ asserts_of_settled (h.marked p)) hguarantees fun p₂ ↦ ?_
  refine keeps_store (hquiet _ rfl) hguarantees fun p₃ ↦ ?_
  refine keeps_store (hquiet _ rfl) hguarantees fun p₄ ↦ ?_
  refine keeps_store (hquiet _ rfl) hguarantees fun p₅ ↦ ?_
  rintro _ ⟨p₆, rfl⟩
  refine ⟨hquiet _ rfl p₆, hguarantees _ _, ?_⟩
  have hdone : ∀ s' : VectorSlot, (s.generation + 1 ≠ 0 →
      s' = ⟨false, s.irq, s.generation + 1, 0, 0, s'.pending⟩) →
      Promises (.release lease) i log .done s' := by
    refine fun s' hs' ↦ promises_done h rfl hgeneration fun hfew ↦ ?_
    obtain ⟨hne, hsettled⟩ :=
      h.released hindex (by simpa using hactive) hgeneration hfew s'.pending
    exact (hs' hne).symm ▸ hsettled
  dsimp only
  split
  · next hwrap =>
    refine keeps_store (hquiet _ rfl) hguarantees fun p₇ ↦ ?_
    exact hdone _ fun hne ↦ absurd hwrap hne
  · exact hdone _ fun _ ↦ rfl

theorem keeps_bind (h : Settled log i s) (hstamped : log.Stamped)
    (hindex : vectorIndex lease.vector = some i) (notification : ObjectId) :
    Keeps (.bind lease notification) log i (binding lease notification) s := by
  refine keeps_check h (fun _ ↦ rfl) fun hactive p ↦ ?_
  refine keeps_check (h.marked p) (fun _ ↦ rfl) fun hcurrent p₁ ↦ ?_
  have hgeneration : s.generation = lease.generation := not_not.mp (not_or.mp hcurrent).1
  have hguarantees := guarantees_of_current h hstamped (.bind lease notification) rfl hindex
    hgeneration
  refine keeps_store (fun p ↦ asserts_of_settled (h.marked p)) hguarantees fun p₂ ↦ ?_
  refine promises_done h rfl hgeneration fun _ ↦ ?_
  exact (h.marked p₂).bind hindex (by simpa using hactive) hgeneration

theorem keeps_unbind (h : Settled log i s) (hstamped : log.Stamped)
    (hindex : vectorIndex lease.vector = some i) :
    Keeps (.unbind lease) log i (unbinding lease) s := by
  refine keeps_check h (fun _ ↦ rfl) fun _ p ↦ ?_
  refine keeps_check (h.marked p) (fun _ ↦ rfl) fun hcurrent p₁ ↦ ?_
  have hgeneration : s.generation = lease.generation := not_not.mp hcurrent
  have hguarantees := guarantees_of_current h hstamped (.unbind lease) rfl hindex hgeneration
  refine keeps_store (fun p ↦ asserts_of_settled (h.marked p)) hguarantees fun p₂ ↦ ?_
  refine keeps_store (asserts_of_notification rfl) hguarantees fun p₃ ↦ ?_
  exact promises_done h rfl hgeneration fun _ ↦ h.unbind lease false

/-- **Every operation is as it should be**, from an entry that agrees with the log. -/
theorem keeps_program (h : Settled log i s) (hstamped : log.Stamped) (hindex : op.index = some i) :
    Keeps op log i op.program s := by
  rcases op with ⟨irq, interrupt⟩ | lease | ⟨lease, notification⟩ | lease
  · rw [index] at hindex
    split at hindex
    · exact absurd hindex (by simp)
    · obtain rfl := Option.some.inj hindex
      exact keeps_allocate h interrupt
  · exact keeps_release h hstamped hindex
  · exact keeps_bind h hstamped hindex notification
  · exact keeps_unbind h hstamped hindex

theorem program_eq_access (op : VectorOp) : ∃ write next, op.program = .access write next := by
  rcases op with _ | _ | _ | _ <;> exact ⟨_, _, rfl⟩

end VectorOp

/-! ## The table -/

/-- The handler makes a record when the vector is active and has a notification. It marks the entry.
-/
theorem VectorSlot.dispatch_cases (slots : List VectorSlot) (vector : ℕ) :
    dispatch slots vector = (none, slots)
      ∨ ∃ i s, vectorIndex vector = some i ∧ slots[i]? = some s ∧ s.active = true
        ∧ s.notification ≠ 0
        ∧ dispatch slots vector
          = (some ⟨⟨vector, s.generation⟩, s.irq, .fromRaw s.interrupt, .fromRaw s.notification⟩,
            slots.set i { s with pending := true }) := by
  by_cases hrange : vector < deviceVectorFirst ∨ deviceVectorLast < vector
  · exact .inl (by rw [dispatch, if_pos hrange])
  · rcases hslot : slots[vector - deviceVectorFirst]? with _ | s
    · exact .inl (by rw [dispatch, if_neg hrange, hslot])
    · by_cases hquiet : s.active = false ∨ s.notification = 0
      · exact .inl (by simp only [dispatch, if_neg hrange, hslot, if_pos hquiet])
      · obtain ⟨hactive, hnotification⟩ := not_or.mp hquiet
        refine .inr ⟨_, s, by rw [vectorIndex, if_neg hrange], hslot, by simpa using hactive,
          hnotification, ?_⟩
        simp only [dispatch, if_neg hrange, hslot, if_neg hquiet]

namespace Vectors

variable {v : Vectors}

/-- **The invariant of the table.** An entry on which no operation is under way agrees with the log,
and what is left of the operation under way is as it should be. -/
structure Inv (v : Vectors) : Prop where
  length : v.slots.length = vectorCount
  stamped : v.log.Stamped
  distinct : (v.log.live.map VectorLease.vector).Nodup
  settled : ∀ {i : ℕ} {s : VectorSlot}, v.slots[i]? = some s →
    (∀ op program, v.running ≠ some (op, i, program)) → Settled v.log i s
  busy : ∀ {op : VectorOp} {i : ℕ} {program : VectorSlot.Program},
    v.running = some (op, i, program) → op.index = some i
      ∧ (∃ write next, program = .access write next)
      ∧ ∀ s, v.slots[i]? = some s → op.Keeps v.log i program s

theorem inv_new : new.Inv where
  length := List.length_replicate
  stamped := trivial
  distinct := List.nodup_nil
  settled hs _ := by
    obtain rfl := List.eq_of_mem_replicate (List.mem_of_getElem? hs)
    exact Settled.new _
  busy h := nomatch h

theorem Inv.start (h : v.Inv) (op : VectorOp) : (v.exec (.start op)).2.Inv := by
  rw [exec]
  rcases hrunning : v.running with _ | running
  · rcases hindex : op.index with _ | i
    · -- the vector is none of the table's
      refine ⟨h.length, ⟨fun hsucceeds ↦ hsucceeds.elim, h.stamped⟩, ?_, fun hs _ ↦ ?_,
        fun hbusy ↦ ?_⟩
      · rw [(of_refused 0 op _ v.log).2.1]
        exact h.distinct
      · exact (h.settled hs (by simp [hrunning])).refused op _
      · exact absurd hbusy (by simp)
    · refine ⟨h.length, h.stamped, h.distinct, fun hs _ ↦ h.settled hs (by simp [hrunning]),
        fun hbusy ↦ ?_⟩
      obtain ⟨rfl, rfl, rfl⟩ : op = _ ∧ i = _ ∧ op.program = _ := by simpa using hbusy
      refine ⟨hindex, op.program_eq_access, fun s hs ↦ ?_⟩
      exact VectorOp.keeps_program (h.settled hs (by simp [hrunning])) h.stamped hindex
  · exact h

theorem Inv.dispatch (h : v.Inv) (vector : ℕ) : (v.exec (.dispatch vector)).2.Inv := by
  rw [exec]
  rcases dispatch_cases v.slots vector with heq | ⟨i, s, -, hs, -, -, heq⟩
  · rw [heq]
    exact h
  · rw [heq]
    -- the entry is the old one, but for the mark
    have hslot : ∀ {j : ℕ} {s' : VectorSlot},
        (v.slots.set i { s with pending := true })[j]? = some s' →
        ∃ s₀, v.slots[j]? = some s₀ ∧ Marks s₀ s' := by
      intro j s' hs'
      rw [List.getElem?_set] at hs'
      split at hs'
      · next hij =>
        split at hs'
        · obtain rfl := Option.some.inj hs'
          exact ⟨s, hij ▸ hs, true, rfl⟩
        · exact absurd hs' (by simp)
      · exact ⟨s', hs', Marks.refl s'⟩
    refine ⟨(List.length_set ..).trans h.length, h.stamped, h.distinct, fun hs' hidle ↦ ?_,
      fun hbusy ↦ ?_⟩
    · obtain ⟨s₀, hs₀, p, rfl⟩ := hslot hs'
      exact (h.settled hs₀ hidle).marked p
    · obtain ⟨hindex, ⟨write, next, rfl⟩, hkeeps⟩ := h.busy hbusy
      refine ⟨hindex, ⟨write, next, rfl⟩, fun s' hs' ↦ ?_⟩
      obtain ⟨s₀, hs₀, hmarks⟩ := hslot hs'
      exact (hkeeps s₀ hs₀).interfere Marks.trans hmarks

theorem Inv.access (h : v.Inv) (hfew : ∀ i, Few i (v.exec .access).2.log) :
    (v.exec .access).2.Inv := by
  rcases hrunning : v.running with _ | ⟨op, i, program⟩
  · have hsame : v.exec .access = (none, v) := by rw [exec, hrunning]
    rw [hsame]
    exact h
  obtain ⟨hindex, ⟨write, next, rfl⟩, hkeeps⟩ := h.busy hrunning
  rcases hs : v.slots[i]? with _ | s
  · have hsame : v.exec .access = (none, v) := by simp only [exec, hrunning, hs]
    rw [hsame]
    exact h
  obtain ⟨-, -, hnext⟩ := hkeeps s hs s (Marks.refl s)
  have hset : ∀ {j : ℕ} {s' : VectorSlot}, (v.slots.set i (write s))[j]? = some s' →
      j = i ∧ s' = write s ∨ j ≠ i ∧ v.slots[j]? = some s' := by
    intro j s' hs'
    by_cases hij : j = i
    · subst hij
      rw [List.getElem?_set_self (List.getElem?_eq_some_iff.mp hs).1] at hs'
      exact .inl ⟨rfl, (Option.some.inj hs').symm⟩
    · rw [List.getElem?_set_ne fun heq ↦ hij heq.symm] at hs'
      exact .inr ⟨hij, hs'⟩
  have hidle : ∀ {j : ℕ}, j ≠ i → ∀ op' program, v.running ≠ some (op', j, program) := by
    intro j hij op' program heq
    rw [hrunning] at heq
    exact hij (by simpa using (congrArg (fun r ↦ r.map fun x ↦ x.2.1) heq).symm)
  rcases hprogram : next s with answer | ⟨write', next'⟩
  · -- the operation returns
    have hexec : v.exec .access
        = (none, ⟨v.slots.set i (write s), none, (op, answer) :: v.log⟩) := by
      simp only [exec, hrunning, hs, hprogram]
    rw [hexec] at hfew ⊢
    rw [hprogram] at hnext
    obtain ⟨hsettled, hstamp, hvector⟩ := hnext (hfew i)
    refine ⟨(List.length_set ..).trans h.length, ⟨fun hsucceeds ↦ ?_, h.stamped⟩, ?_,
      fun {j s'} hs' _ ↦ ?_, fun hbusy ↦ nomatch hbusy⟩
    · exact ⟨i, hindex, fun lease hlease ↦ hstamp lease hlease hsucceeds⟩
    · rcases live_cons op answer v.log with hsub | ⟨lease, hleased, hlive⟩
      · exact h.distinct.sublist (hsub.map _)
      · rw [hlive, List.map_cons, List.nodup_cons, hvector lease hleased]
        exact ⟨hsettled.not_mem_of_cons (hvector lease hleased) hlive, h.distinct⟩
    · rcases hset hs' with ⟨rfl, rfl⟩ | ⟨hij, hs'⟩
      · exact hsettled
      · have hj : j < vectorCount := h.length ▸ (List.getElem?_eq_some_iff.mp hs').1
        refine (h.settled hs' (hidle hij)).elsewhere hj ?_ fun lease hleased ↦ ?_
        · rw [hindex]
          exact fun heq ↦ hij (Option.some.inj heq).symm
        · rw [hvector lease hleased]
          omega
  · have hexec : v.exec .access = (none, { v with
        slots := v.slots.set i (write s)
        running := some (op, i, .access write' next') }) := by
      simp only [exec, hrunning, hs, hprogram]
    rw [hexec]
    rw [hprogram] at hnext
    refine ⟨(List.length_set ..).trans h.length, h.stamped, h.distinct, fun {j s'} hs' hidle' ↦ ?_,
      fun {op' j program} hbusy ↦ ?_⟩
    · rcases hset hs' with ⟨rfl, -⟩ | ⟨hij, hs'⟩
      · exact absurd rfl (hidle' op _)
      · exact h.settled hs' (hidle hij)
    · obtain ⟨rfl, rfl, rfl⟩ : op = op' ∧ i = j ∧ _ = program := by simpa using hbusy
      refine ⟨hindex, ⟨write', next', rfl⟩, fun s' hs' ↦ ?_⟩
      rcases hset hs' with ⟨-, rfl⟩ | ⟨hne, -⟩
      · exact hnext
      · exact absurd rfl hne

theorem log_suffix (v : Vectors) (act : VectorAct) : v.log <:+ (v.exec act).2.log := by
  rcases act with op | _ | vector
  · rw [exec]
    rcases v.running with _ | _
    · rcases op.index with _ | _
      · exact List.suffix_cons _ _
      · exact List.suffix_refl _
    · exact List.suffix_refl _
  · rcases hrunning : v.running with _ | ⟨op, i, answer | ⟨write, next⟩⟩
    · simp only [exec, hrunning, List.suffix_refl]
    · simp only [exec, hrunning, List.suffix_refl]
    · rcases hs : v.slots[i]? with _ | s
      · simp only [exec, hrunning, hs, List.suffix_refl]
      · rcases hprogram : next s with answer | ⟨write', next'⟩
        · simp only [exec, hrunning, hs, hprogram]
          exact List.suffix_cons _ _
        · simp only [exec, hrunning, hs, hprogram, List.suffix_refl]
  · exact List.suffix_refl _

theorem log_suffix_run (v : Vectors) (acts : List VectorAct) : v.log <:+ (v.run acts).log := by
  induction acts generalizing v with
  | nil => exact List.suffix_refl _
  | cons act acts ih => exact (v.log_suffix act).trans (ih _)

theorem few_of_suffix {i : ℕ} {log log' : VectorLog} (hsuffix : log <:+ log')
    (hfew : Few i log') : Few i log := by
  obtain ⟨newer, rfl⟩ := hsuffix
  exact Nat.lt_of_le_of_lt (releases_append_le i newer log) hfew

/-- **The invariant holds through every run** with few enough releases. -/
theorem Inv.run (h : v.Inv) {acts : List VectorAct}
    (hfew : ∀ i, Few i (v.run acts).log) : (v.run acts).Inv := by
  induction acts generalizing v with
  | nil => exact h
  | cons act acts ih =>
    have hfew' : ∀ i, Few i (v.exec act).2.log := fun i ↦
      few_of_suffix (log_suffix_run _ acts) (hfew i)
    refine ih ?_ hfew
    match act with
    | .start op => exact h.start op
    | .access => exact h.access hfew'
    | .dispatch vector => exact h.dispatch vector

/-! ## What owners can rely on -/

theorem Inv.access_of_released (h : v.Inv) {op : VectorOp} {i : ℕ} {program : Program}
    {lease : VectorLease} (hrunning : v.running = some (op, i, program))
    (hlease : op.lease = some lease) (hreleased : (.release lease, .done) ∈ v.log) :
    (v.exec .access).2.slots = v.slots := by
  obtain ⟨-, ⟨write, next, rfl⟩, hkeeps⟩ := h.busy hrunning
  rcases hs : v.slots[i]? with _ | s
  · simp only [exec, hrunning, hs]
  · obtain ⟨-, hguarantees, -⟩ := hkeeps s hs s (Marks.refl s)
    have hset : v.slots.set i (write s) = v.slots := by
      rw [hguarantees lease hlease hreleased]
      exact set_eq_self hs
    rcases hprogram : next s with answer | ⟨write', next'⟩
    · simp only [exec, hrunning, hs, hprogram, hset]
    · simp only [exec, hrunning, hs, hprogram, hset]

/-- **A record names what was bound**, under the generation that it reports, and the `bind` is the
last operation on the vector that has gone through. -/
theorem Inv.record (h : v.Inv) {vector : ℕ} {record : DispatchRecord}
    (hrecord : (v.exec (.dispatch vector)).1 = some record) :
    record.lease.vector = vector
      ∧ ∃ newer answer older,
        v.log = newer ++ (.bind record.lease record.notification, answer) :: older ∧ answer.Succeeds
        ∧ ∀ entry ∈ newer, entry.1.index = vectorIndex vector → ¬ entry.2.Succeeds := by
  rw [exec] at hrecord
  rcases dispatch_cases v.slots vector with heq | ⟨i, s, hi, hs, hactive, hne, heq⟩
  · rw [heq] at hrecord
    exact nomatch hrecord
  rw [heq] at hrecord
  obtain rfl := Option.some.inj hrecord
  have hbound : ∃ id : ObjectId, v.log.bound i = some (s.generation, id)
      ∧ id.raw = s.notification := by
    by_cases hidle : ∀ op program, v.running ≠ some (op, i, program)
    · exact (h.settled hs hidle).bound hne
    · simp only [not_forall, not_not] at hidle
      obtain ⟨op, program, hrunning⟩ := hidle
      obtain ⟨-, ⟨write, next, rfl⟩, hkeeps⟩ := h.busy hrunning
      exact (hkeeps s hs s (Marks.refl s)).1 hactive hne
  obtain ⟨id, hbound, hraw⟩ := hbound
  obtain ⟨newer, lease, answer, older, hlog, hgeneration, hvector, hsucceeds, hnewer⟩ :=
    exists_bind_of_bound hbound
  refine ⟨rfl, newer, answer, older, ?_, hsucceeds, fun entry hmem hindex ↦ ?_⟩
  · obtain rfl : lease = ⟨vector, s.generation⟩ := by
      rw [← hgeneration, (vectorIndex_eq_some_iff.mp hi).1,
        ← (vectorIndex_eq_some_iff.mp hvector).1]
    rw [hlog, ← hraw, ObjectId.fromRaw_raw]
  · exact hnewer entry hmem (hindex.trans hi)

/-- **Leases are never confused.** In every run of the four operations with the interrupt handler
between any two of their accesses, as long as no vector has been released `2 ^ 32 - 1` times:

* an operation with a lease that was released is refused, and none of its accesses changes the
  table;
* a record of the handler names a notification that was bound under the generation it reports, and
  the `bind` is the last operation on that vector that has gone through;
* two live leases never name the same vector;
* after a release has returned, the handler makes no record of the vector before a new `bind`. -/
theorem leases_are_never_confused (acts : List VectorAct)
    (hfew : ∀ i, (new.run acts).log.releases i < 2 ^ 32 - 1) :
    let v := new.run acts
    (∀ newer older lease, v.log = newer ++ (.release lease, .done) :: older →
      ∀ entry ∈ newer, entry.1.lease = some lease → ¬ entry.2.Succeeds)
    ∧ (∀ op i program lease, v.running = some (op, i, program) → op.lease = some lease →
      (.release lease, .done) ∈ v.log → (v.exec .access).2.slots = v.slots)
    ∧ (∀ vector record, (v.exec (.dispatch vector)).1 = some record →
      record.lease.vector = vector ∧ ∃ newer answer older,
        v.log = newer ++ (.bind record.lease record.notification, answer) :: older ∧ answer.Succeeds
          ∧ ∀ entry ∈ newer, entry.1.index = vectorIndex vector → ¬ entry.2.Succeeds)
    ∧ (v.log.live.map VectorLease.vector).Nodup
    ∧ ∀ newer older lease, v.log = newer ++ (.release lease, .done) :: older →
      (∀ entry ∈ newer, ∀ other id, entry.1 = .bind other id → other.vector = lease.vector →
        ¬ entry.2.Succeeds) → (v.exec (.dispatch lease.vector)).1 = none := by
  have h : (new.run acts).Inv := inv_new.run hfew
  refine ⟨fun newer older lease hlog ↦ h.stamped.refused_after_release hlog,
    fun op i program lease ↦ h.access_of_released, fun vector record ↦ h.record, h.distinct, ?_⟩
  intro newer older lease hlog hunbound
  rcases hrecord : ((new.run acts).exec (.dispatch lease.vector)).1 with _ | record
  · rfl
  · obtain ⟨hvector, newer', answer, older', hlog', hsucceeds, hnewer⟩ := h.record hrecord
    -- the `bind` is before the release or after it
    rw [hlog] at hlog'
    rcases List.append_eq_append_iff.mp hlog' with ⟨rest, rfl, hrest⟩ | ⟨rest, rfl, hrest⟩
    · rcases rest with _ | ⟨entry, rest⟩
      · exact absurd (List.cons.inj hrest).1 (by simp)
      · obtain ⟨rfl, -⟩ := List.cons.inj hrest
        exact absurd trivial (hnewer _ (List.mem_append_right _ List.mem_cons_self) rfl)
    · rcases rest with _ | ⟨entry, rest⟩
      · exact absurd (List.cons.inj hrest).1 (by simp)
      · obtain ⟨rfl, -⟩ := List.cons.inj hrest
        exact absurd hsucceeds (hunbound _ (List.mem_append_right _ List.mem_cons_self)
          record.lease record.notification rfl hvector)

/-- A vector is leased, bound, released and leased again; the first owner tries to bind it once
more, and an interrupt arrives in the middle. -/
def leasedTwice : List VectorAct :=
  .start (.allocate 3 ⟨7, 1⟩) :: List.replicate 6 .access
    ++ .start (.bind ⟨0x43, 1⟩ ⟨8, 1⟩) :: List.replicate 3 .access
    ++ .start (.release ⟨0x43, 1⟩) :: List.replicate 7 .access
    ++ .start (.allocate 3 ⟨9, 1⟩) :: List.replicate 6 .access
    ++ [.start (.bind ⟨0x43, 1⟩ ⟨8, 1⟩), .access, .dispatch 0x43, .access]

theorem leasedTwice_is_refused :
    (new.run leasedTwice).log.head? = some (.bind ⟨0x43, 1⟩ ⟨8, 1⟩, .refused .staleGeneration)
      ∧ ((new.run leasedTwice).exec (.dispatch 0x43)).1 = none := by
  have hfew : ∀ i, (new.run leasedTwice).log.releases i < 2 ^ 32 - 1 := fun i ↦
    Nat.lt_of_le_of_lt List.countP_le_length (by decide)
  refine ⟨by decide, ?_⟩
  refine (leases_are_never_confused leasedTwice hfew).2.2.2.2
    [(.bind ⟨0x43, 1⟩ ⟨8, 1⟩, .refused .staleGeneration),
      (.allocate 3 ⟨9, 1⟩, .leased ⟨0x43, 2⟩)]
    [(.bind ⟨0x43, 1⟩ ⟨8, 1⟩, .done), (.allocate 3 ⟨7, 1⟩, .leased ⟨0x43, 1⟩)]
    ⟨0x43, 1⟩ (by decide) ?_
  rintro entry hmem other notification heq -
  rcases List.mem_cons.mp hmem with rfl | hmem
  · exact fun h ↦ h
  · obtain rfl := List.mem_singleton.mp hmem
    exact nomatch heq

end Vectors

/-! ## The operations in one piece -/

theorem VectorOp.blind_program (op : VectorOp) : op.program.Blind Marks := by
  rcases op with _ | _ | _ | _
  · -- the first access writes only where the entry is not active
    rintro ⟨_ | _⟩ _ ⟨pending, rfl⟩ <;> simp [load, store, Accesses.Blind, Marks]
  all_goals
    simp [program, releasing, binding, unbinding, load, store, Accesses.Blind, Accesses.blind_ite,
      Marks]

def VectorAnswer.granted : VectorAnswer → Option VectorLease
  | .leased lease => some lease
  | _ => none

/-- **Interrupts make no difference to an operation.** Whatever the handler does before each of its
accesses, it gives the answer that it gives alone, and leaves the same entry but for the mark. Alone
it does what the system calls are modelled with. -/
theorem vector_operations_are_atomic (vectors : List VectorSlot) (s : VectorSlot) :
    (∀ op : VectorOp, op.program.Holds Marks (fun _ _ ↦ True) (fun _ ↦ True)
      (fun answer s' ↦ answer = (op.program.alone s).1 ∧ Marks (op.program.alone s).2 s') s)
    ∧ (∀ irq interrupt, irq < 16 → vectors[irq]? = some s →
      VectorSlot.allocate vectors irq interrupt
        = (((allocating irq interrupt).alone s).1.granted,
          vectors.set irq ((allocating irq interrupt).alone s).2))
    ∧ ∀ lease, deviceVectorFirst ≤ lease.vector →
      vectors[lease.vector - deviceVectorFirst]? = some s →
      VectorSlot.release vectors lease
          = vectors.set (lease.vector - deviceVectorFirst) ((releasing lease).alone s).2
        ∧ VectorSlot.unbind vectors lease
          = vectors.set (lease.vector - deviceVectorFirst) ((unbinding lease).alone s).2 := by
  refine ⟨fun op ↦ ?_, fun irq interrupt hirq hs ↦ allocate_eq_alone hirq hs interrupt,
    fun lease hvector hs ↦ ⟨release_eq_alone hvector hs, unbind_eq_alone hvector hs⟩⟩
  exact op.blind_program.holds Marks.trans (.refl s) fun t ht ↦ ⟨rfl, ht⟩

end Gaxera

import Gaxera.Core.Dispatch
import Mathlib.Data.List.Nodup

/-!
# Moving a thread to another CPU

`migrate_thread` takes the thread out of the source scheduler, writes its new CPU and queues it in
the destination, in that order, and each of the two later steps can be refused: a running thread is
not reassigned, and the destination refuses one it already has, one that is dying, and any when it
is full. Nothing is put back then.

`Transactional` is what the migration is documented to be. The refusals that do no harm are those of
a thread that the source did not have in the first place.
-/

namespace Gaxera

inductive ThreadError
  | invalidTransition
deriving DecidableEq, Repr

/-- A thread with the CPU it is assigned to, which nothing but a migration looks at. -/
structure AssignedThread extends Thread where
  assignedCpu : UInt32
deriving DecidableEq, Repr

def AssignedThread.assignCpu (t : AssignedThread) (cpuId : UInt32) :
    Except ThreadError AssignedThread :=
  if t.state = .running then .error .invalidTransition else .ok { t with assignedCpu := cpuId }

inductive DomainError
  | sameCpuMigration
  | threadNotRunnable
  | schedulerError (e : SchedulerError)
  | threadError (e : ThreadError)
deriving DecidableEq, Repr

/-- What a migration leaves behind. -/
structure Migration where
  result : Except DomainError Unit
  thread : AssignedThread
  src : Scheduler
  dst : Scheduler

def migrateThread (thread : AssignedThread) (src dst : Scheduler) (srcCpu dstCpu : UInt32) :
    Migration :=
  if srcCpu = dstCpu then ⟨.error .sameCpuMigration, thread, src, dst⟩
  else
    let src := (src.removeThread thread.id).2
    match thread.assignCpu dstCpu with
    | .error e => ⟨.error (.threadError e), thread, src, dst⟩
    | .ok thread =>
      match dst.enqueue thread.toThread with
      | .error e => ⟨.error (.schedulerError e), thread, src, dst⟩
      | .ok (dst, t) => ⟨.ok (), { thread with toThread := t }, src, dst⟩

/-- The queues, the count and the current slot. -/
def Scheduler.SameAs (s s' : Scheduler) : Prop :=
  s'.queues = s.queues ∧ s'.count = s.count ∧ s'.currentThread = s.currentThread

/-- **All or nothing.** -/
structure Migration.Transactional (m : Migration) (thread : AssignedThread) (src dst : Scheduler)
    (dstCpu : UInt32) : Prop where
  refused : ∀ e, m.result = .error e → src.SameAs m.src ∧ dst.SameAs m.dst
    ∧ m.thread.state = thread.state ∧ m.thread.assignedCpu = thread.assignedCpu
  moved : m.result = .ok () → m.dst.queues.flatten.count thread.id = 1
    ∧ thread.id ∉ m.src.queues.flatten ∧ m.src.currentThread ≠ some thread.id
    ∧ m.thread.state = .runnable ∧ m.thread.assignedCpu = dstCpu
  entries : thread.id ∈ src.queues.flatten →
    m.src.queues.flatten.length + m.dst.queues.flatten.length
      = src.queues.flatten.length + dst.queues.flatten.length

namespace Scheduler

section

variable {s : Scheduler} {t : Thread} {id : ObjectId}

theorem Exact.removeThread (h : s.Exact) (id : ObjectId) :
    id ∉ (s.removeThread id).2.ready ∧ (s.removeThread id).2.currentThread ≠ some id
    ∧ (id ∈ s.ready → (s.removeThread id).2.ready.length + 1 = s.ready.length) := by
  rcases h.coherent.removeThread_cases id with ⟨hcurrent, heq⟩ | ⟨hcurrent, p, q, hq, hid, heq⟩
    | ⟨hcurrent, hready, heq⟩
  · rw [heq]
    exact ⟨h.apart id hcurrent, nofun, fun hready ↦ absurd hready (h.apart id hcurrent)⟩
  · rw [heq]
    obtain ⟨-, hperm⟩ := h.leave hq hid
    refine ⟨(List.nodup_cons.mp (hperm.nodup_iff.mp h.coherent.nodup)).1, hcurrent, fun _ ↦ ?_⟩
    rw [hperm.length_eq, List.length_cons]
  · rw [heq]
    exact ⟨hready, hcurrent, fun hmem ↦ absurd hmem hready⟩

/-- **Removing a thread changes nothing just if there is none to remove.** -/
theorem Exact.sameAs_removeThread_iff (h : s.Exact) :
    s.SameAs (s.removeThread id).2 ↔ id ∉ s.ready ∧ s.currentThread ≠ some id := by
  obtain ⟨hready, hcurrent, -⟩ := h.removeThread id
  constructor
  · rintro ⟨hqueues, -, hslot⟩
    rw [ready, hqueues] at hready
    exact ⟨hready, hslot ▸ hcurrent⟩
  · rintro ⟨hready', hcurrent'⟩
    rcases h.coherent.removeThread_cases id with ⟨hslot, -⟩ | ⟨-, p, q, hq, hid, -⟩ | ⟨-, -, heq⟩
    · exact absurd hslot hcurrent'
    · exact absurd (List.mem_flatten.mpr ⟨q, List.mem_of_getElem? hq, hid⟩) hready'
    · rw [heq]
      exact ⟨rfl, rfl, rfl⟩

theorem Exact.enqueue_isOk_iff (h : s.Exact) :
    (∃ r, s.enqueue t = .ok r) ↔ (t.id ∉ s.ready ∧ s.currentThread ≠ some t.id
      ∧ s.count < s.capacity ∧ t.state ≠ .dying ∧ t.state ≠ .dead) := by
  have hrunnable : t.makeRunnable.isSome = true ↔ t.state ≠ .dying ∧ t.state ≠ .dead := by
    rw [Thread.makeRunnable]
    cases t.state <;> simp
  rw [← accepts_iff, accepts, Bool.and_eq_true, Bool.and_eq_true, Bool.and_eq_true,
    Bool.not_eq_true', ← Bool.not_eq_true, h.contains_iff, decide_eq_true_eq, decide_eq_true_eq,
    hrunnable, and_assoc, and_assoc]

end

end Scheduler

section

variable {src dst : Scheduler} {thread thread' : AssignedThread} {dstCpu : UInt32}

theorem transactional_refused_iff (hsrc : src.Exact) (e : DomainError)
    (hstate : thread'.state = thread.state) :
    (⟨.error e, thread', (src.removeThread thread.id).2, dst⟩ : Migration).Transactional thread src
      dst dstCpu
    ↔ (thread.id ∉ src.ready ∧ src.currentThread ≠ some thread.id)
      ∧ thread'.assignedCpu = thread.assignedCpu := by
  constructor
  · intro h
    obtain ⟨hsame, -, -, hcpu⟩ := h.refused e rfl
    exact ⟨hsrc.sameAs_removeThread_iff.mp hsame, hcpu⟩
  · rintro ⟨hplace, hcpu⟩
    refine ⟨fun _ _ ↦ ?_, nofun, fun hmem ↦ absurd hmem hplace.1⟩
    exact ⟨hsrc.sameAs_removeThread_iff.mpr hplace, ⟨rfl, rfl, rfl⟩, hstate, hcpu⟩

theorem transactional_moved (hsrc : src.Exact) (hdst : dst.Exact) {dst' : Scheduler} {t : Thread}
    (hcpu : thread'.assignedCpu = dstCpu) (hid : thread'.id = thread.id)
    (henqueue : dst.enqueue thread'.toThread = .ok (dst', t)) :
    (⟨.ok (), { thread' with toThread := t }, (src.removeThread thread.id).2, dst'⟩ :
      Migration).Transactional thread src dst dstCpu := by
  rcases hdst.enqueue_cases thread'.toThread with ⟨e, heq, -⟩ | ⟨hready, hcurrent, hroom, heq⟩
  · cases henqueue.symm.trans heq
  · obtain ⟨rfl, rfl⟩ := Prod.mk.inj (Except.ok.inj (henqueue.symm.trans heq))
    have hplace := fun q ↦ List.perm_append_singleton thread'.id q
    obtain ⟨hexact, hperm⟩ :=
      hdst.push (Scheduler.prio_lt thread'.effectivePriority) hplace hready hcurrent hroom
    obtain ⟨hgone, hslot, hlength⟩ := hsrc.removeThread thread.id
    refine ⟨nofun, fun _ ↦ ⟨?_, hgone, hslot, rfl, hcpu⟩, fun hmem ↦ ?_⟩
    · refine List.count_eq_one_of_mem hexact.coherent.nodup (hperm.mem_iff.mpr ?_)
      exact hid ▸ List.mem_cons_self
    · have hadded := hperm.length_eq
      rw [List.length_cons] at hadded
      have hremoved := hlength hmem
      rw [Scheduler.ready] at hadded hremoved
      change _ + (Scheduler.push _ _ _).queues.flatten.length = src.ready.length + dst.ready.length
      rw [hadded, ← hremoved, Nat.add_assoc, Nat.add_comm 1]

end

/-- **When a migration is transactional**: it moves the thread, or it is refused at a point where
nothing has been done. -/
theorem migrateThread_transactional_iff {src dst : Scheduler} (hsrc : src.Exact) (hdst : dst.Exact)
    (thread : AssignedThread) (srcCpu dstCpu : UInt32) :
    (migrateThread thread src dst srcCpu dstCpu).Transactional thread src dst dstCpu ↔
      srcCpu = dstCpu
      ∨ (thread.state ≠ .running ∧ thread.id ∉ dst.ready ∧ dst.currentThread ≠ some thread.id
        ∧ dst.count < dst.capacity ∧ thread.state ≠ .dying ∧ thread.state ≠ .dead)
      ∨ ((thread.id ∉ src.ready ∧ src.currentThread ≠ some thread.id)
        ∧ (thread.state = .running ∨ thread.assignedCpu = dstCpu)) := by
  rw [migrateThread]
  by_cases hcpu : srcCpu = dstCpu
  · rw [if_pos hcpu]
    refine iff_of_true ⟨fun e _ ↦ ?_, nofun, fun _ ↦ rfl⟩ (Or.inl hcpu)
    exact ⟨⟨rfl, rfl, rfl⟩, ⟨rfl, rfl, rfl⟩, rfl, rfl⟩
  · rw [if_neg hcpu, AssignedThread.assignCpu]
    by_cases hrunning : thread.state = .running
    · simp only [if_pos hrunning]
      rw [transactional_refused_iff hsrc _ rfl]
      simp [hcpu, hrunning]
    · simp only [if_neg hrunning]
      cases henqueue : dst.enqueue thread.toThread with
      | ok r =>
        have haccepted := hdst.enqueue_isOk_iff.mp ⟨r, henqueue⟩
        refine iff_of_true ?_ (Or.inr (Or.inl ⟨hrunning, haccepted⟩))
        have hcpu' : ({ thread with assignedCpu := dstCpu } : AssignedThread).assignedCpu
            = dstCpu := rfl
        exact transactional_moved hsrc hdst hcpu' rfl henqueue
      | error e =>
        have hnot : ¬ ∃ r, dst.enqueue thread.toThread = .ok r := by
          rintro ⟨r, hok⟩
          cases henqueue.symm.trans hok
        have hrefused := hdst.enqueue_isOk_iff.not.mp hnot
        have hstate : ({ thread with assignedCpu := dstCpu } : AssignedThread).state
            = thread.state := rfl
        refine (transactional_refused_iff hsrc (.schedulerError e) hstate).trans ?_
        simp only [hcpu, hrefused, hrunning, and_false, false_or]
        exact and_congr_right fun _ ↦ eq_comm

/-- A scheduler with one thread of the lowest priority. -/
def Scheduler.loaded (capacity : ℕ) (id : ObjectId) : Scheduler :=
  (⟨List.replicate priorityLevels [], 0, none, capacity, 0⟩ : Scheduler).push 0 (fun q ↦ q ++ [id])

theorem Scheduler.exact_loaded {capacity : ℕ} (hpos : 0 < capacity) (hlt : capacity < 2 ^ 32)
    (id : ObjectId) : (loaded capacity id).Exact := by
  have hnew : tryNew true capacity =
      .ok ⟨List.replicate priorityLevels [], 0, none, capacity, 0⟩ := by
    rw [tryNew, if_neg (by omega)]
    rfl
  obtain ⟨hexact, hempty, -, -⟩ := exact_tryNew hnew
  refine (hexact.push (by decide) (fun q ↦ List.perm_append_singleton id q) ?_ (by simp) hpos).1
  exact hempty ▸ List.not_mem_nil

/-- A thread that is queued on the first CPU. -/
def queuedThread : AssignedThread where
  toThread := { Thread.new ⟨1, 1⟩ none ⟨0, []⟩ with state := .runnable }
  assignedCpu := 0

theorem queuedThread_moves :
    (migrateThread queuedThread (.loaded 4 ⟨1, 1⟩)
      (.loaded 4 ⟨2, 1⟩) 0 1).Transactional queuedThread
      (.loaded 4 ⟨1, 1⟩) (.loaded 4 ⟨2, 1⟩) 1 :=
  (migrateThread_transactional_iff (Scheduler.exact_loaded (by decide) (by decide) _)
    (Scheduler.exact_loaded (by decide) (by decide) _) queuedThread 0 1).mpr
    (Or.inr (Or.inl (by decide)))

/-- **The thread is lost** when the destination is full: it is refused there, and it has left the
source. -/
theorem migrateThread_loses_queued :
    (Scheduler.loaded 4 ⟨1, 1⟩).Exact ∧ (Scheduler.loaded 1 ⟨2, 1⟩).Exact
    ∧ (migrateThread queuedThread (.loaded 4 ⟨1, 1⟩) (.loaded 1 ⟨2, 1⟩) 0 1).result
      = .error (.schedulerError .queueFull)
    ∧ ¬ (migrateThread queuedThread (.loaded 4 ⟨1, 1⟩) (.loaded 1 ⟨2, 1⟩) 0 1).Transactional
      queuedThread (.loaded 4 ⟨1, 1⟩) (.loaded 1 ⟨2, 1⟩) 1 := by
  refine ⟨Scheduler.exact_loaded (by decide) (by decide) _,
    Scheduler.exact_loaded (by decide) (by decide) _, by decide +kernel, fun h ↦ ?_⟩
  have hentries := h.entries (by decide)
  revert hentries
  decide +kernel

end Gaxera

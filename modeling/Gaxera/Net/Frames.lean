import Gaxera.Net.Ring
import Mathlib.Data.List.Infix
import Mathlib.Logic.Function.Basic

/-!
# Frames through the ring

The producer asks for a slot and then writes a frame into it, the consumer asks for a slot and then
reads. Both indices are advanced while the slot is asked for. The other side may therefore be
granted a slot that is still to be written, or still to be read.

A side decides at its second access, when it loads the index of the other. If it never does that
while the slot it is about to get is in the hands of the other side, the frames arrive: the k-th
one read is the k-th one written.
-/

namespace Gaxera

open Function

/-- The ring, its slots, and for each side the slot it has got and not used yet; and what was
written and read so far. -/
structure FrameSystem (α : Type) where
  ring : RingSystem
  memory : UInt32 → Option α
  writing : Option UInt32
  reading : Option UInt32
  written : List α
  read : List (Option α)

/-- A step of one side; a frame is at hand for when the producer writes. -/
inductive FrameAction (α : Type)
  | produce (frame : α)
  | consume
deriving DecidableEq, Repr

namespace FrameSystem

variable {α : Type}

def start (header : PacketRingHeader) : FrameSystem α :=
  ⟨RingSystem.start header, fun _ ↦ none, none, none, [], []⟩

/-- The producer writes into the slot it has, or makes the next access of `push_slot`. -/
def produce (s : FrameSystem α) (frame : α) : FrameSystem α :=
  match s.writing with
  | some slot =>
    { s with
      memory := update s.memory slot (some frame)
      writing := none
      written := s.written ++ [frame] }
  | none =>
    { s with
      ring := s.ring.pushStep.2
      writing :=
        match s.ring.pushStep.1 with
        | some (.pushed slot) => some slot
        | _ => none }

/-- The consumer reads from the slot it has, or makes the next access of `pop_slot`. -/
def consume (s : FrameSystem α) : FrameSystem α :=
  match s.reading with
  | some slot => { s with reading := none, read := s.read ++ [s.memory slot] }
  | none =>
    { s with
      ring := s.ring.popStep.2
      reading :=
        match s.ring.popStep.1 with
        | some (.popped slot) => some slot
        | _ => none }

def step (s : FrameSystem α) : FrameAction α → FrameSystem α
  | .produce frame => s.produce frame
  | .consume => s.consume

def run (s : FrameSystem α) (actions : List (FrameAction α)) : FrameSystem α :=
  actions.foldl step s

/-- The step is not the deciding load of a call while the other side has the slot in question. -/
def undisturbed (s : FrameSystem α) : FrameAction α → Bool
  | .produce _ =>
    match s.writing, s.ring.producer with
    | none, .loaded prod => decide (s.reading ≠ some (s.ring.header.slot prod))
    | _, _ => true
  | .consume =>
    match s.reading, s.ring.consumer with
    | none, .loaded cons => decide (s.writing ≠ some (s.ring.header.slot cons))
    | _, _ => true

def undisturbedRun (s : FrameSystem α) : List (FrameAction α) → Bool
  | [] => true
  | action :: actions => s.undisturbed action && (s.step action).undisturbedRun actions

/-! ## The invariant -/

variable {s : FrameSystem α}

/-- Each side is at most one slot behind its index, the slots between what was read and what was
written have their frames, and a side that has got a slot may use it. -/
structure Inv (s : FrameSystem α) : Prop where
  ring : s.ring.Inv
  pushed : s.written.length + s.writing.toList.length = s.ring.pushed.length
  popped : s.read.length + s.reading.toList.length = s.ring.popped.length
  writing : ∀ slot, s.writing = some slot →
    slot = s.ring.header.slot (UInt32.ofNat s.written.length) ∧ s.ring.producer = .idle
  reading : ∀ slot, s.reading = some slot →
    slot = s.ring.header.slot (UInt32.ofNat s.read.length) ∧ s.ring.consumer = .idle
  room : (s.writing ≠ none ∨ ∃ prod, s.ring.producer = .granted prod) →
    s.written.length < s.read.length + s.ring.header.capacity.toNat
  filled : (s.reading ≠ none ∨ ∃ cons, s.ring.consumer = .granted cons) →
    s.read.length < s.written.length
  memory : ∀ k frame, s.read.length ≤ k → s.written[k]? = some frame →
    s.memory (s.ring.header.slot (UInt32.ofNat k)) = some frame
  arrived : s.read <+: s.written.map some

theorem Inv.start {header : PacketRingHeader} {capacity : UInt32} {ringType : RingType}
    (hnew : PacketRingHeader.new capacity ringType = some header) :
    (start header : FrameSystem α).Inv where
  ring := RingSystem.Inv.start hnew
  pushed := rfl
  popped := rfl
  writing := nofun
  reading := nofun
  room := by rintro (h | ⟨_, h⟩) <;> simp [FrameSystem.start, RingSystem.start] at h
  filled := by rintro (h | ⟨_, h⟩) <;> simp [FrameSystem.start, RingSystem.start] at h
  memory := by simp [FrameSystem.start]
  arrived := List.nil_prefix

/-- **A frame is written** into a slot that no entry to be read has. -/
theorem Inv.write (h : s.Inv) {slot : UInt32} (hslot : s.writing = some slot) (frame : α) :
    (s.produce frame).Inv := by
  obtain ⟨heq, hidle⟩ := h.writing slot hslot
  have hroom := h.room (.inl (by simp [hslot]))
  have hpushed := h.pushed
  rw [hslot] at hpushed
  have hstate : s.produce frame = { s with
      memory := update s.memory slot (some frame), writing := none
      written := s.written ++ [frame] } := by
    rw [produce, hslot]
  rw [hstate]
  refine { h with pushed := ?_, writing := nofun, room := ?_, filled := ?_, memory := ?_
                  arrived := ?_ }
  · simpa using hpushed
  · rintro (hnone | ⟨prod, hprod⟩)
    · exact absurd rfl hnone
    · rw [hidle] at hprod
      cases hprod
  · intro hread
    exact (h.filled hread).trans (by simp)
  · intro k frame' hk hget
    dsimp only at hk hget ⊢
    rcases Nat.lt_trichotomy k s.written.length with hlt | rfl | hgt
    · rw [List.getElem?_append_left hlt] at hget
      rw [update_of_ne]
      · exact h.memory k frame' hk hget
      · intro hsame
        have hle :=
          PacketRingHeader.add_capacity_le_of_slot_eq h.ring.capacity hlt (hsame.trans heq)
        omega
    · rw [List.getElem?_concat_length] at hget
      rw [← heq, update_self, hget]
    · rw [List.getElem?_eq_none (by rw [List.length_append]; exact hgt)] at hget
      cases hget
  · rw [List.map_append]
    exact h.arrived.trans (List.prefix_append ..)

/-- **A frame is read** as it was written. -/
theorem Inv.fetch (h : s.Inv) {slot : UInt32} (hslot : s.reading = some slot) : s.consume.Inv := by
  obtain ⟨heq, hidle⟩ := h.reading slot hslot
  have hlt := h.filled (.inl (by simp [hslot]))
  have hpopped := h.popped
  rw [hslot] at hpopped
  have hstate : s.consume = { s with reading := none, read := s.read ++ [s.memory slot] } := by
    rw [consume, hslot]
  rw [hstate]
  refine { h with popped := ?_, reading := nofun, room := ?_, filled := ?_, memory := ?_
                  arrived := ?_ }
  · simpa using hpopped
  · intro hwrite
    have hroom := h.room hwrite
    simp only [List.length_append]
    omega
  · rintro (hnone | ⟨cons, hcons⟩)
    · exact absurd rfl hnone
    · rw [hidle] at hcons
      cases hcons
  · intro k frame hk hget
    rw [List.length_append] at hk
    exact h.memory k frame (Nat.le_of_succ_le hk) hget
  · have hframe := h.memory _ _ (Nat.le_refl _) (List.getElem?_eq_getElem hlt)
    simp only [heq, hframe]
    rw [List.prefix_iff_eq_take, List.length_append, List.length_singleton,
      List.take_add_one, ← List.prefix_iff_eq_take.mp h.arrived, List.getElem?_map,
      List.getElem?_eq_getElem hlt]
    rfl

theorem Inv.producer (h : s.Inv) (phase : RingPhase)
    (hring : ({ s.ring with producer := phase } : RingSystem).Inv) (hnone : s.writing = none)
    (hroom : ∀ prod, phase = .granted prod →
      s.written.length < s.read.length + s.ring.header.capacity.toNat) :
    ({ s with ring := { s.ring with producer := phase }, writing := none }
      : FrameSystem α).Inv := by
  refine { h with ring := hring, pushed := ?_, writing := nofun, room := ?_ }
  · simpa [hnone] using h.pushed
  · rintro (hsome | ⟨prod, hprod⟩)
    · exact absurd rfl hsome
    · exact hroom prod hprod

theorem Inv.consumer (h : s.Inv) (phase : RingPhase)
    (hring : ({ s.ring with consumer := phase } : RingSystem).Inv) (hnone : s.reading = none)
    (hfilled : ∀ cons, phase = .granted cons → s.read.length < s.written.length) :
    ({ s with ring := { s.ring with consumer := phase }, reading := none }
      : FrameSystem α).Inv := by
  refine { h with ring := hring, popped := ?_, reading := nofun, filled := ?_ }
  · simpa [hnone] using h.popped
  · rintro (hsome | ⟨cons, hcons⟩)
    · exact absurd rfl hsome
    · exact hfilled cons hcons

/-- **An access of `push_slot`.** Where a slot is granted, it is not the one that is being read. -/
theorem Inv.access_push (h : s.Inv) (hnone : s.writing = none) (frame : α)
    (hstep : s.undisturbed (.produce frame) = true) : (s.produce frame).Inv := by
  have hring := h.ring.pushStep
  have hpushed : s.written.length = s.ring.pushed.length := by simpa [hnone] using h.pushed
  rw [produce, hnone, RingSystem.pushStep]
  rw [RingSystem.pushStep] at hring
  rcases hprod : s.ring.producer with - | prod | prod
  · rw [hprod] at hring
    exact h.producer _ hring hnone (by simp)
  · rw [hprod] at hring
    by_cases hfull : s.ring.header.capacity ≤ prod - s.ring.header.consumerIndex
    · simp only [if_pos hfull] at hring ⊢
      exact h.producer _ hring hnone (by simp)
    simp only [if_neg hfull] at hring ⊢
    refine h.producer _ hring hnone fun _ _ ↦ ?_
    -- the slot would be that of the last entry popped, and that one has been read
    have hroom := (hring.room prod rfl).2
    have hpopped := h.popped
    rcases hreading : s.reading with - | slot
    · rw [hreading, Option.toList_none, List.length_nil] at hpopped
      simp only at hroom
      omega
    · rw [undisturbed, hnone, hprod] at hstep
      rw [hreading, Option.toList_some, List.length_singleton] at hpopped
      simp only at hroom
      have hne : s.written.length ≠ s.read.length + s.ring.header.capacity.toNat := by
        intro heq
        refine of_decide_eq_true hstep (hreading.trans (congrArg some ?_))
        rw [(h.reading slot hreading).1, h.ring.loaded prod hprod, h.ring.producerIndex, ← hpushed,
          heq, PacketRingHeader.slot_ofNat_eq_iff h.ring.capacity]
        exact (Nat.add_mod_right ..).symm
      omega
  · rw [hprod] at hring
    refine { h with ring := hring, pushed := ?_, writing := ?_, room := ?_ }
    · simp [hpushed]
    · intro slot hslot
      obtain rfl := Option.some.inj hslot
      rw [hpushed, ← h.ring.producerIndex, ← (h.ring.room prod hprod).1]
      exact ⟨rfl, rfl⟩
    · exact fun _ ↦ h.room (.inr ⟨prod, hprod⟩)

/-- **An access of `pop_slot`.** Where a slot is granted, its frame has been written. -/
theorem Inv.access_pop (h : s.Inv) (hnone : s.reading = none)
    (hstep : s.undisturbed .consume = true) : s.consume.Inv := by
  have hring := h.ring.popStep
  have hpopped : s.read.length = s.ring.popped.length := by simpa [hnone] using h.popped
  rw [consume, hnone, RingSystem.popStep]
  rw [RingSystem.popStep] at hring
  rcases hcons : s.ring.consumer with - | cons | cons
  · rw [hcons] at hring
    exact h.consumer _ hring hnone (by simp)
  · rw [hcons] at hring
    by_cases hempty : cons = s.ring.header.producerIndex
    · simp only [if_pos hempty] at hring ⊢
      exact h.consumer _ hring hnone (by simp)
    simp only [if_neg hempty] at hring ⊢
    refine h.consumer _ hring hnone fun _ _ ↦ ?_
    -- of the entries in the ring only the last can lack its frame, and it is not that one
    have hlt := (hring.waiting cons rfl).2
    have hpushed := h.pushed
    rcases hwriting : s.writing with - | slot
    · rw [hwriting, Option.toList_none, List.length_nil] at hpushed
      simp only at hlt
      omega
    · rw [undisturbed, hnone, hcons] at hstep
      rw [hwriting, Option.toList_some, List.length_singleton] at hpushed
      simp only at hlt
      have hne : s.read.length ≠ s.written.length := by
        intro heq
        refine of_decide_eq_true hstep (hwriting.trans (congrArg some ?_))
        rw [(h.writing slot hwriting).1, h.ring.taken cons hcons, h.ring.consumerIndex, ← hpopped,
          heq]
      omega
  · rw [hcons] at hring
    refine { h with ring := hring, popped := ?_, reading := ?_, filled := ?_ }
    · simp [hpopped]
    · intro slot hslot
      obtain rfl := Option.some.inj hslot
      rw [hpopped, ← h.ring.consumerIndex, ← (h.ring.waiting cons hcons).1]
      exact ⟨rfl, rfl⟩
    · exact fun _ ↦ h.filled (.inr ⟨cons, hcons⟩)

theorem Inv.step (h : s.Inv) (action : FrameAction α) (hstep : s.undisturbed action = true) :
    (s.step action).Inv := by
  rcases action with frame | -
  · rcases hwriting : s.writing with - | slot
    · exact h.access_push hwriting frame hstep
    · exact h.write hwriting frame
  · rcases hreading : s.reading with - | slot
    · exact h.access_pop hreading hstep
    · exact h.fetch hreading

theorem Inv.run (h : s.Inv) {actions : List (FrameAction α)}
    (hrun : s.undisturbedRun actions = true) : (s.run actions).Inv := by
  induction actions generalizing s with
  | nil => exact h
  | cons action actions ih =>
    obtain ⟨hstep, hrest⟩ := Bool.and_eq_true_iff.mp hrun
    exact ih (h.step action hstep) hrest

/-- **Frames arrive in order** in every run in which no side decides on a slot that the other one
has got and not used yet: what was read is a beginning of what was written. -/
theorem frames_arrive_in_order (capacity : UInt32) (ringType : RingType)
    (header : PacketRingHeader) (hnew : PacketRingHeader.new capacity ringType = some header)
    (actions : List (FrameAction α))
    (hrun : (start header : FrameSystem α).undisturbedRun actions = true) :
    ((start header).run actions).read <+: ((start header).run actions).written.map some :=
  ((Inv.start hnew).run hrun).arrived

/-- Two frames through a ring of one slot. -/
theorem frames_arrive_in_order_one_slot :
    ∃ header, PacketRingHeader.new 1 .tx = some header
      ∧ (let actions : List (FrameAction ℕ) :=
          List.replicate 4 (.produce 7) ++ List.replicate 4 .consume
            ++ List.replicate 4 (.produce 8) ++ List.replicate 4 .consume
        ((start header).run actions).read = [some 7, some 8]
          ∧ ((start header).run actions).read <+: ((start header).run actions).written.map some) :=
  ⟨_, rfl, by decide, frames_arrive_in_order 1 .tx _ rfl _ (by decide)⟩

/-- The consumer reads a slot before the producer has written it; and in a ring of one slot the
producer writes over a frame that is still to be read. -/
theorem frames_are_lost_between_index_and_slot :
    ∃ header, PacketRingHeader.new 1 .tx = some header
      ∧ ((start header : FrameSystem ℕ).run
          (List.replicate 3 (.produce 7) ++ List.replicate 4 .consume)).read = [none]
      ∧ (let s := (start header).run (List.replicate 4 (.produce 7) ++ List.replicate 3 .consume
            ++ List.replicate 4 (.produce 8) ++ [.consume])
        s.written = [7, 8] ∧ s.read = [some 8]) :=
  ⟨_, rfl, by decide, by decide⟩

end FrameSystem

end Gaxera

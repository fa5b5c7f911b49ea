import Mathlib.Data.Nat.ModEq
import Mathlib.Tactic.Common

/-!
# The packet ring

A ring with one producer and one consumer. Both indices run freely through 32 bits and are masked to
the capacity, a power of two, when a slot is needed. `push_slot` and `pop_slot` are taken apart into
their loads and stores, and the loads and stores of the two sides come in any order. A step of one
side is one access, together with what the side then computes on its own.

The ghost of a run is what the calls have returned. The indices are the lengths of these lists
modulo `2 ^ 32`, and the capacity divides `2 ^ 32`, so the slots of both sides are `0, 1, 2, …`
modulo the capacity, however often the indices wrap. What a side has read of the other side's index
may be out of date, but only to its own disadvantage.
-/

namespace Gaxera

inductive BackpressurePolicy
  | flowControl
  | dropOldest
  | blockProducer
  | dropNewest
  | priorityDiscard
deriving DecidableEq, Repr

inductive RingType
  | rx
  | tx
  | control
deriving DecidableEq, Repr

/-- The byte that stands for the policy of a ring type. -/
def RingType.defaultPolicy : RingType → UInt8
  | .rx => 0
  | .tx => 2
  | .control => 4

structure PacketRingHeader where
  capacity : UInt32
  ringType : RingType
  policy : UInt8
  producerIndex : UInt32
  consumerIndex : UInt32
deriving DecidableEq, Repr

namespace PacketRingHeader

def isPowerOfTwo (n : UInt32) : Bool := (List.range 32).any fun e ↦ n.toNat = 2 ^ e

/-- The assertion of the capacity fails, or the ring is empty. -/
def new (capacity : UInt32) (ringType : RingType) : Option PacketRingHeader :=
  if isPowerOfTwo capacity then some ⟨capacity, ringType, ringType.defaultPolicy, 0, 0⟩ else none

def len (h : PacketRingHeader) : UInt32 := h.producerIndex - h.consumerIndex

def isEmpty (h : PacketRingHeader) : Bool := h.len = 0

def isFull (h : PacketRingHeader) : Bool := h.capacity ≤ h.len

/-- The policy a full ring answers with. -/
def backpressure (h : PacketRingHeader) : BackpressurePolicy :=
  if h.policy = 0 then .flowControl
  else if h.policy = 1 then .dropOldest
  else if h.policy = 2 then .blockProducer
  else if h.policy = 3 then .dropNewest
  else .priorityDiscard

/-- The slot of an index. -/
def slot (h : PacketRingHeader) (index : UInt32) : UInt32 := index &&& (h.capacity - 1)

end PacketRingHeader

/-! ## Two sides -/

/-- How far a call has come: nothing is read yet, its own index is read, or both are and the call is
about to store. -/
inductive RingPhase
  | idle
  | loaded (own : UInt32)
  | granted (own : UInt32)
deriving DecidableEq, Repr

inductive RingSide
  | producer
  | consumer
deriving DecidableEq, Repr

/-- What a call returns. -/
inductive RingEvent
  | pushed (slot : UInt32)
  | pushRefused (policy : BackpressurePolicy)
  | popped (slot : UInt32)
  | popRefused
deriving DecidableEq, Repr

/-- The ring, the two sides, and the slots they have got so far. -/
structure RingSystem where
  header : PacketRingHeader
  producer : RingPhase
  consumer : RingPhase
  pushed : List UInt32
  popped : List UInt32
deriving DecidableEq, Repr

namespace RingSystem

def start (header : PacketRingHeader) : RingSystem := ⟨header, .idle, .idle, [], []⟩

/-- One access of `push_slot`. -/
def pushStep (s : RingSystem) : Option RingEvent × RingSystem :=
  match s.producer with
  | .idle => (none, { s with producer := .loaded s.header.producerIndex })
  | .loaded prod =>
    if s.header.capacity ≤ prod - s.header.consumerIndex then
      (some (.pushRefused s.header.backpressure), { s with producer := .idle })
    else (none, { s with producer := .granted prod })
  | .granted prod =>
    (some (.pushed (s.header.slot prod)), { s with
      header := { s.header with producerIndex := prod + 1 }
      producer := .idle
      pushed := s.pushed ++ [s.header.slot prod] })

/-- One access of `pop_slot`. -/
def popStep (s : RingSystem) : Option RingEvent × RingSystem :=
  match s.consumer with
  | .idle => (none, { s with consumer := .loaded s.header.consumerIndex })
  | .loaded cons =>
    if cons = s.header.producerIndex then (some .popRefused, { s with consumer := .idle })
    else (none, { s with consumer := .granted cons })
  | .granted cons =>
    (some (.popped (s.header.slot cons)), { s with
      header := { s.header with consumerIndex := cons + 1 }
      consumer := .idle
      popped := s.popped ++ [s.header.slot cons] })

def step (s : RingSystem) : RingSide → Option RingEvent × RingSystem
  | .producer => s.pushStep
  | .consumer => s.popStep

/-- The accesses of the two sides in the order in which they happen. -/
def run (s : RingSystem) (sides : List RingSide) : RingSystem :=
  sides.foldl (fun s side ↦ (s.step side).2) s

end RingSystem

/-! ## Indices that wrap -/

namespace PacketRingHeader

/-- How far one index is ahead, while it is less than a whole turn. -/
theorem toNat_sub_ofNat {n m : ℕ} (hle : m ≤ n) (hlt : n < m + 2 ^ 32) :
    (UInt32.ofNat n - UInt32.ofNat m).toNat = n - m := by
  rw [UInt32.toNat_sub, UInt32.toNat_ofNat', UInt32.toNat_ofNat']
  omega

variable {h : PacketRingHeader}

theorem exists_capacity (hcap : isPowerOfTwo h.capacity = true) :
    ∃ e < 32, h.capacity.toNat = 2 ^ e := by
  obtain ⟨e, he, heq⟩ := List.any_eq_true.mp hcap
  exact ⟨e, List.mem_range.mp he, of_decide_eq_true heq⟩

theorem toNat_slot_ofNat (hcap : isPowerOfTwo h.capacity = true) (n : ℕ) :
    (h.slot (UInt32.ofNat n)).toNat = n % h.capacity.toNat := by
  obtain ⟨e, he, heq⟩ := exists_capacity hcap
  have hpos := Nat.two_pow_pos e
  have hone : (h.capacity - 1).toNat = 2 ^ e - 1 := by
    rw [UInt32.toNat_sub_of_le _ _ (UInt32.le_iff_toNat_le.mpr (by rw [heq]; exact hpos)), heq]
    rfl
  rw [slot, UInt32.toNat_and, hone, UInt32.toNat_ofNat', Nat.and_two_pow_sub_one_eq_mod, heq]
  exact Nat.mod_mod_of_dvd n (Nat.pow_dvd_pow 2 he.le)

theorem slot_ofNat_eq_iff (hcap : isPowerOfTwo h.capacity = true) {k n : ℕ} :
    h.slot (UInt32.ofNat k) = h.slot (UInt32.ofNat n) ↔ k ≡ n [MOD h.capacity.toNat] := by
  rw [← UInt32.toNat_inj, toNat_slot_ofNat hcap, toNat_slot_ofNat hcap, Nat.ModEq]

theorem add_capacity_le_of_slot_eq (hcap : isPowerOfTwo h.capacity = true) {k n : ℕ} (hlt : k < n)
    (heq : h.slot (UInt32.ofNat k) = h.slot (UInt32.ofNat n)) : k + h.capacity.toNat ≤ n := by
  have hdvd : h.capacity.toNat ∣ n - k :=
    (Nat.modEq_iff_dvd' hlt.le).mp ((slot_ofNat_eq_iff hcap).mp heq)
  have hle := Nat.le_of_dvd (Nat.sub_pos_of_lt hlt) hdvd
  omega

end PacketRingHeader

/-! ## The invariant -/

namespace RingSystem

variable {s : RingSystem}

/-- The indices count what the calls have returned, the slots follow one another, and what a side
has read is still good enough: its own index is up to date, and there is room, or something to take.
-/
structure Inv (s : RingSystem) : Prop where
  capacity : PacketRingHeader.isPowerOfTwo s.header.capacity = true
  producerIndex : s.header.producerIndex = UInt32.ofNat s.pushed.length
  consumerIndex : s.header.consumerIndex = UInt32.ofNat s.popped.length
  popped_le : s.popped.length ≤ s.pushed.length
  pushed_le : s.pushed.length ≤ s.popped.length + s.header.capacity.toNat
  pushed : ∀ k slot, s.pushed[k]? = some slot → slot = s.header.slot (UInt32.ofNat k)
  popped : ∀ k slot, s.popped[k]? = some slot → slot = s.header.slot (UInt32.ofNat k)
  loaded : ∀ prod, s.producer = .loaded prod → prod = s.header.producerIndex
  room : ∀ prod, s.producer = .granted prod → prod = s.header.producerIndex
    ∧ s.pushed.length < s.popped.length + s.header.capacity.toNat
  taken : ∀ cons, s.consumer = .loaded cons → cons = s.header.consumerIndex
  waiting : ∀ cons, s.consumer = .granted cons → cons = s.header.consumerIndex
    ∧ s.popped.length < s.pushed.length

theorem Inv.start {header : PacketRingHeader} {capacity : UInt32} {ringType : RingType}
    (hnew : PacketRingHeader.new capacity ringType = some header) : (start header).Inv := by
  obtain ⟨hcap, heq⟩ := Option.ite_none_right_eq_some.mp hnew
  obtain rfl := Option.some.inj heq
  exact ⟨hcap, rfl, rfl, le_rfl, Nat.zero_le _, by simp [RingSystem.start],
    by simp [RingSystem.start], nofun, nofun, nofun, nofun⟩

/-- The length the ring computes is the number of entries that are not popped yet. -/
theorem Inv.toNat_len (h : s.Inv) : s.header.len.toNat = s.pushed.length - s.popped.length := by
  rw [PacketRingHeader.len, h.producerIndex, h.consumerIndex]
  have hlt := s.header.capacity.toNat_lt
  have hle := h.pushed_le
  exact PacketRingHeader.toNat_sub_ofNat h.popped_le (by omega)

private theorem slot_of_append {l : List UInt32} {f : ℕ → UInt32} {new : UInt32}
    (h : ∀ k slot, l[k]? = some slot → slot = f k) (hnew : new = f l.length) (k : ℕ) (slot : UInt32)
    (hget : (l ++ [new])[k]? = some slot) : slot = f k := by
  rcases Nat.lt_trichotomy k l.length with hlt | rfl | hgt
  · exact h k slot (List.getElem?_append_left hlt ▸ hget)
  · rw [List.getElem?_concat_length] at hget
    rw [← Option.some.inj hget, hnew]
  · rw [List.getElem?_eq_none (by rw [List.length_append]; exact hgt)] at hget
    cases hget

/-- **An access of the producer** keeps the invariant. -/
theorem Inv.pushStep (h : s.Inv) : s.pushStep.2.Inv := by
  rw [RingSystem.pushStep]
  split
  · -- its own index is read, which nobody else writes
    refine { h with loaded := fun prod heq ↦ ?_, room := nofun }
    exact (RingPhase.loaded.inj heq).symm
  · next prod hprod =>
    split_ifs with hfull
    · exact { h with loaded := nofun, room := nofun }
    · -- there was room, and the consumer can only make more of it
      refine { h with loaded := nofun, room := fun prod' heq ↦ ?_ }
      obtain rfl : prod = prod' := RingPhase.granted.inj heq
      have hindex := h.loaded prod hprod
      refine ⟨hindex, ?_⟩
      rw [hindex, UInt32.not_le, UInt32.lt_iff_toNat_lt] at hfull
      have hlen := h.toNat_len
      have hle := h.popped_le
      rw [PacketRingHeader.len] at hlen
      change s.pushed.length < s.popped.length + s.header.capacity.toNat
      omega
  · -- the store: one more entry, which was granted
    next prod hprod =>
    obtain ⟨hindex, hroom⟩ := h.room prod hprod
    have hprod' := hindex.trans h.producerIndex
    refine { h with
      producerIndex := ?_, popped_le := ?_, pushed_le := ?_, pushed := ?_, loaded := nofun
      room := nofun, waiting := fun cons hcons ↦ ?_ }
    · rw [List.length_append, hprod', UInt32.ofNat_add]
      rfl
    · exact h.popped_le.trans (by simp)
    · rw [List.length_append]
      exact hroom
    · exact slot_of_append h.pushed (hprod' ▸ rfl)
    · obtain ⟨hcons', hlt⟩ := h.waiting cons hcons
      exact ⟨hcons', hlt.trans (by simp)⟩

/-- **An access of the consumer** keeps the invariant. -/
theorem Inv.popStep (h : s.Inv) : s.popStep.2.Inv := by
  rw [RingSystem.popStep]
  split
  · refine { h with taken := fun cons heq ↦ ?_, waiting := nofun }
    exact (RingPhase.loaded.inj heq).symm
  · next cons hcons =>
    split_ifs with hempty
    · exact { h with taken := nofun, waiting := nofun }
    · refine { h with taken := nofun, waiting := fun cons' heq ↦ ?_ }
      obtain rfl : cons = cons' := RingPhase.granted.inj heq
      have hindex := h.taken cons hcons
      refine ⟨hindex, lt_of_le_of_ne h.popped_le fun heq ↦ hempty ?_⟩
      rw [hindex, h.consumerIndex, h.producerIndex, heq]
  · next cons hcons =>
    obtain ⟨hindex, hlt⟩ := h.waiting cons hcons
    have hcons' := hindex.trans h.consumerIndex
    refine { h with
      consumerIndex := ?_, popped_le := ?_, pushed_le := ?_, popped := ?_, taken := nofun
      waiting := nofun, room := fun prod hprod ↦ ?_ }
    · rw [List.length_append, hcons', UInt32.ofNat_add]
      rfl
    · rw [List.length_append]
      exact hlt
    · exact h.pushed_le.trans (by simp)
    · exact slot_of_append h.popped (hcons' ▸ rfl)
    · obtain ⟨hprod', hroom⟩ := h.room prod hprod
      exact ⟨hprod', hroom.trans_le (by simp)⟩

theorem Inv.step (h : s.Inv) (side : RingSide) : (s.step side).2.Inv := by
  cases side with
  | producer => exact h.pushStep
  | consumer => exact h.popStep

theorem capacity_step (s : RingSystem) (side : RingSide) :
    (s.step side).2.header.capacity = s.header.capacity := by
  rcases side
  · rw [RingSystem.step, RingSystem.pushStep]
    split <;> [rfl; split_ifs <;> rfl; rfl]
  · rw [RingSystem.step, RingSystem.popStep]
    split <;> [rfl; split_ifs <;> rfl; rfl]

theorem capacity_run (s : RingSystem) (sides : List RingSide) :
    (s.run sides).header.capacity = s.header.capacity := by
  induction sides generalizing s with
  | nil => rfl
  | cons side sides ih => exact (ih _).trans (capacity_step s side)

theorem Inv.run (h : s.Inv) (sides : List RingSide) : (s.run sides).Inv := by
  induction sides generalizing s with
  | nil => exact h
  | cons side sides ih => exact ih (h.step side)

/-! ## What the calls return -/

/-- The slots that were popped are the first ones that were pushed. -/
theorem Inv.popped_isPrefix (h : s.Inv) : s.popped <+: s.pushed := by
  rw [List.prefix_iff_getElem?]
  intro k hk
  have hlt : k < s.pushed.length := hk.trans_le h.popped_le
  rw [List.getElem?_eq_getElem hlt]
  have hpushed := h.pushed k _ (List.getElem?_eq_getElem hlt)
  have hpopped := h.popped k _ (List.getElem?_eq_getElem hk)
  rw [hpushed, hpopped]

theorem Inv.popped_of_slot_eq (h : s.Inv) {prod : UInt32} (hprod : s.producer = .granted prod)
    {k : ℕ} (hk : s.pushed[k]? = some (s.header.slot prod)) : k < s.popped.length := by
  obtain ⟨hindex, hroom⟩ := h.room prod hprod
  have hlt : k < s.pushed.length := (List.getElem?_eq_some_iff.mp hk).1
  have hslot := h.pushed k _ hk
  rw [hindex, h.producerIndex] at hslot
  have hle := PacketRingHeader.add_capacity_le_of_slot_eq h.capacity hlt hslot.symm
  omega

/-- A push returns at its second access, refused, or at its third, with a slot. -/
theorem event_of_pushStep {event : RingEvent} (h : (s.step .producer).1 = some event) :
    (∃ prod, s.producer = .loaded prod ∧ s.header.capacity ≤ prod - s.header.consumerIndex
      ∧ event = .pushRefused s.header.backpressure)
    ∨ ∃ prod, s.producer = .granted prod ∧ event = .pushed (s.header.slot prod) := by
  rw [RingSystem.step, RingSystem.pushStep] at h
  split at h
  · cases h
  · next prod hprod =>
    split_ifs at h with hfull
    exact .inl ⟨prod, hprod, hfull, (Option.some.inj h).symm⟩
  · next prod hprod => exact .inr ⟨prod, hprod, (Option.some.inj h).symm⟩

theorem event_of_popStep {event : RingEvent} (h : (s.step .consumer).1 = some event) :
    (∃ cons, s.consumer = .loaded cons ∧ cons = s.header.producerIndex ∧ event = .popRefused)
    ∨ ∃ cons, s.consumer = .granted cons ∧ event = .popped (s.header.slot cons) := by
  rw [RingSystem.step, RingSystem.popStep] at h
  split at h
  · cases h
  · next cons hcons =>
    split_ifs at h with hempty
    exact .inl ⟨cons, hcons, hempty, (Option.some.inj h).symm⟩
  · next cons hcons => exact .inr ⟨cons, hcons, (Option.some.inj h).symm⟩

/-- **The ring keeps its slots apart.** Whatever the order of the accesses, after each of them the
indices are at most a capacity apart and what was popped is a beginning of what was pushed, slot by
slot. A push that succeeds returns a slot all of whose earlier entries have been popped; one that
fails reads its last index while the ring is full, and a pop that fails while it is empty. -/
theorem ring_keeps_slots_apart (capacity : UInt32) (ringType : RingType) (header : PacketRingHeader)
    (hnew : PacketRingHeader.new capacity ringType = some header) (sides : List RingSide) :
    let s := (start header).run sides
    s.header.len.toNat ≤ capacity.toNat
      ∧ s.header.len.toNat = s.pushed.length - s.popped.length
      ∧ s.popped <+: s.pushed
      ∧ (∀ slot, (s.step .producer).1 = some (.pushed slot) →
          (s.step .producer).2.pushed = s.pushed ++ [slot]
            ∧ ∀ k, s.pushed[k]? = some slot → k < s.popped.length)
      ∧ (∀ slot, (s.step .consumer).1 = some (.popped slot) →
          (s.step .consumer).2.popped = s.popped ++ [slot] ∧ s.pushed[s.popped.length]? = some slot)
      ∧ (∀ policy, (s.step .producer).1 = some (.pushRefused policy) → s.header.isFull = true)
      ∧ ((s.step .consumer).1 = some .popRefused → s.header.isEmpty = true) := by
  intro s
  have h : s.Inv := (Inv.start hnew).run sides
  have hcapacity : s.header.capacity = capacity := by
    obtain ⟨-, heq⟩ := Option.ite_none_right_eq_some.mp hnew
    exact (capacity_run _ sides).trans (Option.some.inj heq ▸ rfl)
  have hlen := h.toNat_len
  refine ⟨?_, hlen, h.popped_isPrefix, fun slot hpush ↦ ?_, fun slot hpop ↦ ?_,
    fun policy hpush ↦ ?_, fun hpop ↦ ?_⟩
  · have hle := h.pushed_le
    rw [hlen, ← hcapacity]
    omega
  · obtain ⟨-, -, -, heq⟩ | ⟨prod, hprod, heq⟩ := event_of_pushStep hpush
    · cases heq
    obtain rfl := RingEvent.pushed.inj heq
    rw [RingSystem.step, RingSystem.pushStep, hprod]
    exact ⟨rfl, fun k hk ↦ h.popped_of_slot_eq hprod hk⟩
  · obtain ⟨-, -, -, heq⟩ | ⟨cons, hcons, heq⟩ := event_of_popStep hpop
    · cases heq
    obtain rfl := RingEvent.popped.inj heq
    obtain ⟨hindex, hlt⟩ := h.waiting cons hcons
    rw [RingSystem.step, RingSystem.popStep, hcons]
    refine ⟨rfl, ?_⟩
    rw [List.getElem?_eq_getElem hlt, h.pushed _ _ (List.getElem?_eq_getElem hlt), hindex,
      h.consumerIndex]
  · obtain ⟨prod, hprod, hfull, -⟩ | ⟨_, -, heq⟩ := event_of_pushStep hpush
    swap
    · cases heq
    -- the producer's own index is still the one it has read
    rw [PacketRingHeader.isFull, decide_eq_true_eq, PacketRingHeader.len, ← h.loaded prod hprod]
    exact hfull
  · obtain ⟨cons, hcons, hempty, -⟩ | ⟨_, -, heq⟩ := event_of_popStep hpop
    swap
    · cases heq
    rw [PacketRingHeader.isEmpty, decide_eq_true_eq, PacketRingHeader.len, ← hempty,
      h.taken cons hcons, UInt32.sub_self]

/-- A ring of two slots that is filled, refuses a push, and hands a slot back. -/
theorem ring_of_two_keeps_slots_apart :
    ∃ header, PacketRingHeader.new 2 .rx = some header
      ∧ (let s := (start header).run [.producer, .producer, .producer, .producer, .producer,
            .producer, .consumer, .consumer, .consumer]
        s.pushed = [0, 1] ∧ s.popped = [0] ∧ s.header.len.toNat ≤ 2) :=
  ⟨_, rfl, by decide, by decide, (ring_keeps_slots_apart 2 .rx _ rfl _).1⟩

end RingSystem

end Gaxera

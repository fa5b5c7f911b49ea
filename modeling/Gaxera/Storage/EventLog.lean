import Gaxera.Storage.Header

/-!
# The event log

Every published event gets the next sequence number, from 1 on, and is put into the slot of a ring
that this number has modulo the capacity. A reader asks for the events from some number on and gets
at most so many of them. What the ring stands for is the history of all events, each with its
number; what can be read is the end of that history, as long as the capacity.

`replay` is a reader with a fixed bound: ten thousand events. The ring of a default log holds more
than six times as many, so what is replayed is all there is only if not too much of it is new.

Additions that could leave 64 bits wrap around, or stop the program in a build with overflow checks.
-/

namespace Gaxera

inductive GaxFsEventType
  | objectCreated
  | objectModified
  | objectDeleted
  | metadataChanged
  | relationshipChanged
  | snapshotCreated
  | snapshotDeleted
  | capabilityChanged
  | eventCheckpointMarker
  | customExtension
deriving DecidableEq

structure GaxFsEventRecord where
  sequenceId : UInt64
  timestamp : UInt64
  eventType : GaxFsEventType
  targetObject : GaxObjectId
  ownerDomain : UInt32
  extentDeltaBlocks : UInt32
  checksum : Checksum
  payloadLen : UInt32
deriving DecidableEq

/-- `head` is the sequence number of the next event. -/
structure EventRingBuffer where
  buffer : List GaxFsEventRecord
  capacity : UInt64
  head : UInt64

namespace EventRingBuffer

def new (capacity : UInt64) : EventRingBuffer := ⟨[], capacity, 1⟩

/-- There is no slot in a ring without capacity: the remainder stops the program. -/
def push (checks : Bool) (ring : EventRingBuffer) (record : GaxFsEventRecord) :
    Option (UInt64 × EventRingBuffer) :=
  let seq := ring.head
  let record := { record with sequenceId := seq }
  if checks ∧ ring.head.toNat + 1 = 2 ^ 64 then none
  else if ring.buffer.length < ring.capacity.toNat then
    some (seq, { ring with head := ring.head + 1, buffer := ring.buffer ++ [record] })
  else if ring.capacity = 0 then none
  else
    let slot := (seq - 1).toNat % ring.capacity.toNat
    if slot < ring.buffer.length then
      some (seq, { ring with head := ring.head + 1, buffer := ring.buffer.set slot record })
    else none

def oldestAvailable (ring : EventRingBuffer) : UInt64 :=
  if ring.capacity < ring.head then ring.head - ring.capacity else 1

def readFrom (checks : Bool) (ring : EventRingBuffer) (fromSequence maxCount : UInt64) :
    Option (List GaxFsEventRecord) :=
  if ring.head ≤ fromSequence then some []
  else
    let startSeq := max fromSequence ring.oldestAvailable
    if checks ∧ 2 ^ 64 ≤ startSeq.toNat + maxCount.toNat then none
    else
      let endSeq := min (startSeq + maxCount) ring.head
      if ring.capacity = 0 ∧ startSeq < endSeq then none
      else some ((List.range' startSeq.toNat (endSeq.toNat - startSeq.toNat)).filterMap fun seq ↦
        ring.buffer[(seq - 1) % ring.capacity.toNat]?)

def pushAll (checks : Bool) (records : List GaxFsEventRecord) (ring : EventRingBuffer) :
    Option EventRingBuffer :=
  records.foldlM (fun ring record ↦ (ring.push checks record).map Prod.snd) ring

/-! ## The history -/

/-- The event with the number it is published under. -/
def stamp (record : GaxFsEventRecord) (seq : ℕ) : GaxFsEventRecord :=
  { record with sequenceId := UInt64.ofNat seq }

/-- Every event of the history with its number. -/
def numbered (history : List GaxFsEventRecord) : List GaxFsEventRecord :=
  (history.zipIdx 1).map fun entry ↦ stamp entry.1 entry.2

theorem length_numbered (history : List GaxFsEventRecord) :
    (numbered history).length = history.length := by simp [numbered]

theorem numbered_concat (history : List GaxFsEventRecord) (record : GaxFsEventRecord) :
    numbered (history ++ [record]) = numbered history ++ [stamp record (history.length + 1)] := by
  simp [numbered, List.zipIdx_append, Nat.add_comm]

/-- The events from a number on that the ring still has. -/
def retained (capacity : ℕ) (history : List GaxFsEventRecord) (fromSequence : ℕ) :
    List GaxFsEventRecord :=
  (numbered history).drop
    (max (max fromSequence (history.length + 1 - capacity)) 1 - 1)

/-- **Which number each slot holds.** -/
structure Holds (ring : EventRingBuffer) (capacity : UInt64) (history : List GaxFsEventRecord) :
    Prop where
  capacity_eq : ring.capacity = capacity
  head : ring.head = UInt64.ofNat (history.length + 1)
  length : ring.buffer.length = min history.length capacity.toNat
  slot : ∀ i < history.length, history.length ≤ i + capacity.toNat →
    ring.buffer[i % capacity.toNat]? = (numbered history)[i]?

variable {ring : EventRingBuffer} {capacity : UInt64} {history : List GaxFsEventRecord}

theorem new_holds (capacity : UInt64) : (new capacity).Holds capacity [] where
  capacity_eq := rfl
  head := rfl
  length := by simp [new]
  slot := nofun

/-- Two numbers less than the capacity apart have different slots. -/
theorem slot_ne {i j c : ℕ} (hlt : i < j) (hnear : j < i + c) : i % c ≠ j % c := by
  intro heq
  have hzero := Nat.sub_mod_eq_zero_of_mod_eq heq.symm
  rw [Nat.mod_eq_of_lt (by omega)] at hzero
  omega

theorem Holds.toNat_head (h : ring.Holds capacity history) (hroom : history.length + 1 < 2 ^ 64) :
    ring.head.toNat = history.length + 1 := by
  rw [h.head]
  exact UInt64.toNat_ofNat_of_lt' hroom

/-- The next event is in its slot, and the slots of the others that are kept are as they were. -/
theorem Holds.extend (h : ring.Holds capacity history) {record : GaxFsEventRecord}
    {buffer : List GaxFsEventRecord}
    (hlength : buffer.length = min (history.length + 1) capacity.toNat)
    (hnew : buffer[history.length % capacity.toNat]? = some (stamp record (history.length + 1)))
    (hold : ∀ i < history.length, history.length < i + capacity.toNat →
      buffer[i % capacity.toNat]? = ring.buffer[i % capacity.toNat]?) :
    Holds ⟨buffer, ring.capacity, ring.head + 1⟩ capacity (history ++ [record]) where
  capacity_eq := h.capacity_eq
  head := by
    rw [h.head, List.length_append, List.length_singleton]
    exact (UInt64.ofNat_add _ _).symm
  length := by rw [hlength, List.length_append, List.length_singleton]
  slot := by
    intro i hi hnear
    rw [List.length_append, List.length_singleton] at hi hnear
    rw [numbered_concat]
    rcases Nat.lt_succ_iff_lt_or_eq.mp hi with hlt | rfl
    · rw [hold i hlt hnear, h.slot i hlt (Nat.le_of_succ_le hnear),
        List.getElem?_append_left (by rwa [length_numbered])]
    · rw [hnew, ← length_numbered, List.getElem?_concat_length]

/-- An event goes behind the others until the ring is full, and from then on over the oldest. -/
theorem Holds.push (h : ring.Holds capacity history) (hpos : 0 < capacity.toNat)
    (hroom : history.length + 2 < 2 ^ 64) (record : GaxFsEventRecord) :
    ∃ ring', (∀ checks, ring.push checks record = some (ring.head, ring')) ∧
      ring'.Holds capacity (history ++ [record]) := by
  have hhead := h.toNat_head (by omega)
  have hstamp : { record with sequenceId := ring.head } = stamp record (history.length + 1) := by
    rw [stamp, h.head]
  have hlength := h.length
  by_cases hfill : history.length < capacity.toNat
  · -- The slots are still the numbers themselves.
    have hslot : ∀ i ≤ history.length, i % capacity.toNat = i := fun i hi ↦
      Nat.mod_eq_of_lt (hi.trans_lt hfill)
    have hbuffer : ring.buffer.length = history.length := by omega
    refine ⟨⟨ring.buffer ++ [stamp record (history.length + 1)], ring.capacity, ring.head + 1⟩,
      fun checks ↦ ?_, h.extend ?_ ?_ fun i hi _ ↦ ?_⟩
    · rw [EventRingBuffer.push, if_neg (by omega), h.capacity_eq, if_pos (by omega), hstamp]
    · rw [List.length_append, List.length_singleton, hbuffer, Nat.min_eq_left hfill]
    · rw [hslot _ le_rfl, ← hbuffer, List.getElem?_concat_length]
    · rw [hslot i hi.le, List.getElem?_append_left (by rwa [hbuffer])]
  · have hslot : (ring.head - 1).toNat % capacity.toNat = history.length % capacity.toNat := by
      have hone : 1 ≤ ring.head := UInt64.le_iff_toNat_le.mpr (hhead ▸ Nat.le_add_left 1 _)
      rw [UInt64.toNat_sub_of_le _ _ hone, hhead]
      rfl
    have hzero : capacity ≠ 0 := by
      rintro rfl
      exact absurd hpos (by decide)
    have hlt := Nat.mod_lt history.length hpos
    refine ⟨⟨ring.buffer.set (history.length % capacity.toNat) (stamp record (history.length + 1)),
      ring.capacity, ring.head + 1⟩, fun checks ↦ ?_, h.extend ?_ ?_ fun i hi hnear ↦ ?_⟩
    · simp only [EventRingBuffer.push, h.capacity_eq, hslot]
      rw [if_neg (by omega), if_neg (by omega), if_neg hzero, if_pos (by omega), hstamp]
    · rw [List.length_set]
      omega
    · exact List.getElem?_set_self (by omega)
    · -- An event that is kept is in another slot.
      exact List.getElem?_set_ne (slot_ne hi hnear).symm

/-- **After any number of events** the ring holds the end of their history. -/
theorem pushAll_holds (h : ring.Holds capacity history) (hpos : 0 < capacity.toNat)
    (records : List GaxFsEventRecord)
    (hroom : history.length + records.length + 1 < 2 ^ 64) :
    ∃ ring', (∀ checks, ring.pushAll checks records = some ring') ∧
      ring'.Holds capacity (history ++ records) := by
  induction records generalizing ring history with
  | nil => exact ⟨ring, fun _ ↦ rfl, by rwa [List.append_nil]⟩
  | cons record records ih =>
    rw [List.length_cons] at hroom
    obtain ⟨ring₁, hpush, hholds⟩ := h.push hpos (by omega) record
    obtain ⟨ring', hall, hholds'⟩ :=
      ih hholds (by rw [List.length_append, List.length_singleton]; omega)
    refine ⟨ring', fun checks ↦ ?_, by rwa [List.append_assoc] at hholds'⟩
    rw [pushAll, List.foldlM_cons, hpush checks]
    exact hall checks

/-! ## Reading -/

private theorem toNat_max (a b : UInt64) : (max a b).toNat = max a.toNat b.toNat := by
  change (if a ≤ b then b else a).toNat = _
  rw [apply_ite UInt64.toNat, max_def]
  rfl

private theorem toNat_min (a b : UInt64) : (min a b).toNat = min a.toNat b.toNat := by
  change (if a ≤ b then a else b).toNat = _
  rw [apply_ite UInt64.toNat, min_def]
  rfl

theorem filterMap_range'_eq_take_drop {α : Type} (l : List α) (i k : ℕ) :
    ((List.range' (i + 1) k).filterMap fun seq ↦ l[seq - 1]?) = (l.drop i).take k := by
  induction k generalizing i with
  | zero => simp
  | succ k ih =>
    rw [List.range'_succ, List.filterMap_cons, ih, Nat.add_sub_cancel]
    rcases hi : l[i]? with - | a
    · rw [List.getElem?_eq_none_iff] at hi
      simp [List.drop_of_length_le, hi, Nat.le_succ_of_le hi]
    · obtain ⟨hlt, rfl⟩ := List.getElem?_eq_some_iff.mp hi
      rw [List.drop_eq_getElem_cons hlt, List.take_succ_cons]

theorem Holds.toNat_oldestAvailable (h : ring.Holds capacity history)
    (hroom : history.length + 1 < 2 ^ 64) :
    ring.oldestAvailable.toNat = max (history.length + 1 - capacity.toNat) 1 := by
  have hhead := h.toNat_head hroom
  rw [oldestAvailable, h.capacity_eq]
  split_ifs with hfull
  · rw [UInt64.toNat_sub_of_le _ _ (UInt64.le_of_lt hfull), hhead]
    rw [UInt64.lt_iff_toNat_lt, hhead] at hfull
    omega
  · rw [UInt64.lt_iff_toNat_lt, hhead] at hfull
    rw [UInt64.toNat_one]
    omega

/-- **A read is a stretch of what the ring still has**, if the sum of its start and its bound is a
word. -/
theorem Holds.readFrom (h : ring.Holds capacity history)
    (hpos : capacity.toNat = 0 → history.length = 0) (hroom : history.length + 1 < 2 ^ 64)
    (fromSequence maxCount : UInt64) (hwide : fromSequence.toNat ≤ history.length →
      max (max fromSequence.toNat (history.length + 1 - capacity.toNat)) 1 +
        maxCount.toNat < 2 ^ 64)
    (checks : Bool) :
    ring.readFrom checks fromSequence maxCount =
      some ((retained capacity.toNat history fromSequence.toNat).take maxCount.toNat) := by
  have hhead := h.toNat_head hroom
  have hlength := length_numbered history
  rw [EventRingBuffer.readFrom, retained]
  by_cases hnone : ring.head ≤ fromSequence
  · rw [if_pos hnone]
    rw [UInt64.le_iff_toNat_le, hhead] at hnone
    rw [List.drop_of_length_le (by omega), List.take_nil]
  rw [if_neg hnone]
  rw [UInt64.le_iff_toNat_le, hhead] at hnone
  have hstart : (max fromSequence ring.oldestAvailable).toNat =
      max (max fromSequence.toNat (history.length + 1 - capacity.toNat)) 1 := by
    rw [toNat_max, h.toNat_oldestAvailable hroom, max_assoc]
  dsimp only
  generalize max fromSequence ring.oldestAvailable = startSeq at hstart
  have hend : (min (startSeq + maxCount) ring.head).toNat =
      min (startSeq.toNat + maxCount.toNat) (history.length + 1) := by
    rw [toNat_min, UInt64.toNat_add, Nat.mod_eq_of_lt (by omega), hhead]
  have hzero : ¬(ring.capacity = 0 ∧ startSeq < min (startSeq + maxCount) ring.head) := by
    rintro ⟨hzero, hsome⟩
    have hempty := hpos (by rw [← h.capacity_eq, hzero]; rfl)
    rw [UInt64.lt_iff_toNat_lt, hend] at hsome
    omega
  rw [if_neg (by omega), if_neg hzero, hend, h.capacity_eq]
  obtain ⟨i, hi⟩ : ∃ i, startSeq.toNat = i + 1 := ⟨startSeq.toNat - 1, by omega⟩
  -- In this stretch every slot has the event that is looked for.
  have hslots : ∀ seq ∈ List.range' startSeq.toNat
      (min (startSeq.toNat + maxCount.toNat) (history.length + 1) - startSeq.toNat),
      ring.buffer[(seq - 1) % capacity.toNat]? = (numbered history)[seq - 1]? := by
    intro seq hseq
    obtain ⟨hle, hlt⟩ := List.mem_range'_1.mp hseq
    exact h.slot (seq - 1) (by omega) (by omega)
  rw [List.filterMap_congr hslots, hi, filterMap_range'_eq_take_drop, ← hstart, hi,
    Nat.add_sub_cancel, Option.some_inj, List.take_eq_take_iff, List.length_drop, hlength]
  omega

/-- There is nothing to read before the first event, whatever is asked for. -/
theorem readFrom_new (capacity fromSequence maxCount : UInt64) :
    (new capacity).readFrom false fromSequence maxCount = some [] := by
  rw [EventRingBuffer.readFrom]
  by_cases hnone : (new capacity).head ≤ fromSequence
  · rw [if_pos hnone]
  rw [if_neg hnone]
  have hstart : 1 ≤ (max fromSequence (new capacity).oldestAvailable).toNat := by
    rw [toNat_max, (new_holds capacity).toNat_oldestAvailable (by decide)]
    exact (le_max_right _ _).trans (le_max_right _ _)
  dsimp only
  generalize max fromSequence (new capacity).oldestAvailable = startSeq at hstart
  have hend : (min (startSeq + maxCount) (new capacity).head).toNat ≤ 1 := by
    rw [toNat_min]
    exact min_le_right _ _
  rw [if_neg (by simp), if_neg (by rw [UInt64.lt_iff_toNat_lt]; omega),
    Nat.sub_eq_zero_of_le (hend.trans hstart)]
  rfl

/-- **The ring refines the history.** After any number of events that a word can count, a read gives
the events from the number it asks for, or the oldest that is left, up to its bound, each with its
contents and its own number. The conditions keep its sum in 64 bits, except for the largest bound on
an empty ring: there the sum wraps to an empty stretch, which is what a build with overflow checks
stops at. -/
theorem ring_refines_history (capacity : UInt64) (history : List GaxFsEventRecord)
    (fromSequence maxCount : UInt64) (hpos : 1 ≤ capacity) (hroom : history.length < 2 ^ 64 - 1)
    (hfrom : fromSequence.toNat + maxCount.toNat < 2 ^ 64)
    (hhistory : history.length + maxCount.toNat < 2 ^ 64) :
    ∃ ring, (∀ checks, (new capacity).pushAll checks history = some ring) ∧
      ring.readFrom false fromSequence maxCount =
        some ((retained capacity.toNat history fromSequence.toNat).take maxCount.toNat) ∧
      ((history = [] → maxCount.toNat + 1 < 2 ^ 64) → ring.readFrom true fromSequence maxCount =
        some ((retained capacity.toNat history fromSequence.toNat).take maxCount.toNat)) := by
  have hone : 0 < capacity.toNat := UInt64.le_iff_toNat_le.mp hpos
  obtain ⟨ring, hpush, hholds⟩ :=
    pushAll_holds (new_holds capacity) hone history (by simpa using by omega)
  rw [List.nil_append] at hholds
  have hread := hholds.readFrom (by omega) (by omega) fromSequence maxCount
  -- The sum can only leave 64 bits on an empty ring, whose oldest number is 1 and not at most 0.
  have hwide : (history = [] → maxCount.toNat + 1 < 2 ^ 64) →
      fromSequence.toNat ≤ history.length →
      max (max fromSequence.toNat (history.length + 1 - capacity.toNat)) 1 + maxCount.toNat
        < 2 ^ 64 := by
    intro hempty hle
    rcases history with - | ⟨record, history⟩
    · have hbound := hempty rfl
      rw [List.length_nil] at hle ⊢
      omega
    · rw [List.length_cons] at hhistory ⊢
      omega
  refine ⟨ring, hpush, ?_, fun hempty ↦ hread (hwide hempty) true⟩
  by_cases hempty : history = [] → maxCount.toNat + 1 < 2 ^ 64
  · exact hread (hwide hempty) false
  · obtain ⟨rfl, -⟩ := Classical.not_imp.mp hempty
    obtain rfl : new capacity = ring := Option.some.inj (hpush false)
    rw [readFrom_new]
    simp [retained, numbered]

/-- An event, told from others by its time. -/
def eventAt (timestamp : UInt64) : GaxFsEventRecord :=
  ⟨0, timestamp, .objectCreated, Vector.replicate 16 0, 1, 1, Vector.replicate 32 0, 0⟩

/-- Three events in a ring of two. -/
theorem ring_refines_history_wrapped :
    ∃ ring, (new 2).pushAll true [eventAt 10, eventAt 20, eventAt 30] = some ring ∧
      ring.readFrom true 1 5 = some [stamp (eventAt 20) 2, stamp (eventAt 30) 3] := by
  obtain ⟨ring, hpush, -, hread⟩ := ring_refines_history 2
    [eventAt 10, eventAt 20, eventAt 30] 1 5 (by decide) (by decide) (by decide) (by decide)
  exact ⟨ring, hpush true, hread nofun⟩

end EventRingBuffer

/-! ## The log -/

inductive EventError
  | streamClosed
  | subscriberNotAuthorized
  | replayFailed (reason : String)
deriving DecidableEq

structure GaxFsEventLog where
  ringBuffer : EventRingBuffer
  /-- The checkpoint of each subscriber. -/
  checkpoints : UInt64 → Option UInt64
  nextSubscriberId : UInt64

namespace GaxFsEventLog

open EventRingBuffer

def withCapacity (capacity : UInt64) : GaxFsEventLog :=
  ⟨EventRingBuffer.new capacity, fun _ ↦ none, 1⟩

def defaultRingCapacity : UInt64 := 65536

def new : GaxFsEventLog := withCapacity defaultRingCapacity

def checkpoint (log : GaxFsEventLog) (subscriberId checkpointSeq : UInt64) : GaxFsEventLog :=
  { log with checkpoints := Function.update log.checkpoints subscriberId (some checkpointSeq) }

def subscribe (log : GaxFsEventLog) (revoked : Bool) :
    Except EventError (UInt64 × GaxFsEventLog) :=
  if revoked then .error .subscriberNotAuthorized
  else
    let log' := { log with nextSubscriberId := log.nextSubscriberId + 1 }
    .ok (log.nextSubscriberId, log'.checkpoint log.nextSubscriberId 0)

def publish (checks : Bool) (log : GaxFsEventLog) (record : GaxFsEventRecord) :
    Option GaxFsEventLog :=
  (log.ringBuffer.push checks record).map fun pushed ↦ { log with ringBuffer := pushed.2 }

section Replay

variable {σ : Type}

/-- The loop of `replay`: the first error of the callback ends it. The callback has a state of its
own. -/
def replayRecords (callback : σ → GaxFsEventRecord → Except EventError Unit × σ) :
    List GaxFsEventRecord → UInt64 → σ → Except EventError UInt64 × σ
  | [], count, state => (.ok count, state)
  | record :: records, count, state => match callback state record with
    | (.ok (), state) => replayRecords callback records (count + 1) state
    | (.error err, state) => (.error err, state)

def replay (checks : Bool) (log : GaxFsEventLog) (fromSequence : UInt64)
    (callback : σ → GaxFsEventRecord → Except EventError Unit × σ) (state : σ) :
    Option (Except EventError UInt64 × σ) :=
  (log.ringBuffer.readFrom checks fromSequence 10000).map fun records ↦
    replayRecords callback records 0 state

/-- A callback that always succeeds. -/
def succeeding (next : σ → GaxFsEventRecord → σ) (state : σ) (record : GaxFsEventRecord) :
    Except EventError Unit × σ := (.ok (), next state record)

theorem replayRecords_succeeding (next : σ → GaxFsEventRecord → σ)
    (records : List GaxFsEventRecord) (count : ℕ) (state : σ) :
    replayRecords (succeeding next) records (UInt64.ofNat count) state =
      (.ok (UInt64.ofNat (count + records.length)), records.foldl next state) := by
  induction records generalizing count state with
  | nil => rfl
  | cons record records ih =>
    have hcount : UInt64.ofNat count + 1 = UInt64.ofNat (count + 1) := (UInt64.ofNat_add _ _).symm
    rw [replayRecords, succeeding]
    dsimp only
    rw [hcount, ih, List.foldl_cons, List.length_cons, Nat.add_assoc, Nat.add_comm 1]

end Replay

/-! ## Logs in use -/

inductive LogOp
  | publish (record : GaxFsEventRecord)
  | subscribe (revoked : Bool)
  | checkpoint (subscriberId checkpointSeq : UInt64)

def step (checks : Bool) (log : GaxFsEventLog) : LogOp → Option GaxFsEventLog
  | .publish record => log.publish checks record
  | .subscribe revoked => match log.subscribe revoked with
    | .ok (_, log) => some log
    | .error _ => some log
  | .checkpoint subscriberId checkpointSeq => some (log.checkpoint subscriberId checkpointSeq)

def run (checks : Bool) (ops : List LogOp) (log : GaxFsEventLog) : Option GaxFsEventLog :=
  ops.foldlM (step checks) log

/-- The events a run publishes. -/
def published (ops : List LogOp) : List GaxFsEventRecord :=
  ops.filterMap fun
    | .publish record => some record
    | _ => none

variable {checks : Bool} {log log' : GaxFsEventLog}

theorem run_ringBuffer {ops : List LogOp} (h : run checks ops log = some log') :
    log.ringBuffer.pushAll checks (published ops) = some log'.ringBuffer := by
  induction ops generalizing log with
  | nil =>
    obtain rfl := Option.some.inj h
    rfl
  | cons op ops ih =>
    rw [run, List.foldlM_cons] at h
    obtain ⟨log₁, hstep, hrest⟩ := Option.bind_eq_some_iff.mp h
    have hih := ih hrest
    rcases op with record | revoked | ⟨subscriberId, checkpointSeq⟩
    · obtain ⟨pushed, hpush, rfl⟩ := Option.map_eq_some_iff.mp hstep
      change (record :: published ops).foldlM _ _ = _
      rw [List.foldlM_cons, hpush]
      exact hih
    · have hsame : log₁.ringBuffer = log.ringBuffer := by
        rcases revoked with - | -
        · obtain rfl := Option.some.inj hstep
          rfl
        · obtain rfl := Option.some.inj hstep
          rfl
      exact hsame ▸ hih
    · obtain rfl := Option.some.inj hstep
      exact hih

theorem pushAll_zero {history : List GaxFsEventRecord} {ring : EventRingBuffer}
    (h : (EventRingBuffer.new 0).pushAll checks history = some ring) : history = [] := by
  rcases history with - | ⟨record, history⟩
  · rfl
  · have hpush : (EventRingBuffer.new 0).push checks record = none := by
      simp [EventRingBuffer.push, EventRingBuffer.new]
    rw [pushAll, List.foldlM_cons, hpush] at h
    cases h

/-- **What a run leaves in the ring**: the end of the history of what it published. -/
theorem run_holds {capacity : UInt64} {ops : List LogOp}
    (h : run checks ops (withCapacity capacity) = some log)
    (hroom : (published ops).length + 1 < 2 ^ 64) :
    log.ringBuffer.Holds capacity (published ops) ∧
      (capacity.toNat = 0 → (published ops).length = 0) := by
  have hpush := run_ringBuffer h
  rw [withCapacity] at hpush
  by_cases hzero : capacity = 0
  · subst hzero
    have hempty := pushAll_zero hpush
    rw [hempty] at hpush ⊢
    rw [← Option.some.inj hpush]
    exact ⟨new_holds 0, fun _ ↦ rfl⟩
  · have hpos : 0 < capacity.toNat :=
      Nat.pos_of_ne_zero fun hnat ↦ hzero (UInt64.toNat_inj.mp hnat)
    obtain ⟨ring, hall, hholds⟩ :=
      pushAll_holds (new_holds capacity) hpos (published ops)
        (by rwa [List.length_nil, Nat.zero_add])
    obtain rfl := Option.some.inj ((hall checks).symm.trans hpush)
    exact ⟨hholds, fun hnat ↦ absurd hnat hpos.ne'⟩

theorem replay_succeeding {capacity : UInt64} {ops : List LogOp}
    (h : run checks ops (withCapacity capacity) = some log)
    (hroom : (published ops).length + 10001 < 2 ^ 64) (fromSequence : UInt64) {σ : Type}
    (next : σ → GaxFsEventRecord → σ) (state : σ) :
    log.replay checks fromSequence (succeeding next) state =
      let seen := (retained capacity.toNat (published ops) fromSequence.toNat).take 10000
      some (.ok (UInt64.ofNat seen.length), seen.foldl next state) := by
  obtain ⟨hholds, hzero⟩ := run_holds h (by omega)
  have hbound : (10000 : UInt64).toNat = 10000 := rfl
  have hread := hholds.readFrom hzero (by omega) fromSequence 10000
    (fun hle ↦ by rw [hbound]; omega) checks
  rw [replay, hread, Option.map_some]
  have hrecords := replayRecords_succeeding next
    ((retained capacity.toNat (published ops) fromSequence.toNat).take 10000) 0 state
  rw [Nat.zero_add] at hrecords
  exact congrArg some hrecords

/-- **When a replay is complete.** A callback that always succeeds is called once, in order, for
every event that is left from the given number on, and the count is theirs, exactly if there are at
most ten thousand of them. -/
theorem replay_complete_iff (checks : Bool) (capacity : UInt64) (ops : List LogOp)
    (log : GaxFsEventLog) (fromSequence : UInt64)
    (h : run checks ops (withCapacity capacity) = some log)
    (hroom : (published ops).length + 10001 < 2 ^ 64) :
    (∀ (σ : Type) (next : σ → GaxFsEventRecord → σ) (state : σ),
      log.replay checks fromSequence (succeeding next) state =
        let left := retained capacity.toNat (published ops) fromSequence.toNat
        some (.ok (UInt64.ofNat left.length), left.foldl next state)) ↔
      (retained capacity.toNat (published ops) fromSequence.toNat).length ≤ 10000 := by
  constructor
  · intro hcomplete
    have hcount := hcomplete ℕ (fun n _ ↦ n + 1) 0
    rw [replay_succeeding h hroom] at hcount
    have hseen := (Prod.mk.inj (Option.some.inj hcount)).2
    simp only [List.foldl_add_const, List.length_take] at hseen
    omega
  · intro hfew σ next state
    rw [replay_succeeding h hroom, List.take_of_length_le hfew]

/-- Two events behind a checkpoint. -/
theorem replay_complete_small : ∃ log,
    run true [.subscribe false, .publish (eventAt 10), .publish (eventAt 20), .checkpoint 1 1,
      .publish (eventAt 30)] (withCapacity 2) = some log ∧
    log.replay true 2 (succeeding fun seen record ↦ seen ++ [record]) [] =
      some (.ok 2, [stamp (eventAt 20) 2, stamp (eventAt 30) 3]) := by
  obtain ⟨log, hrun⟩ : ∃ log, run true [.subscribe false, .publish (eventAt 10),
      .publish (eventAt 20), .checkpoint 1 1, .publish (eventAt 30)] (withCapacity 2) =
      some log := ⟨_, rfl⟩
  exact ⟨log, hrun, (replay_complete_iff true 2 _ log 2 hrun (by decide)).mpr (by decide) _ _ _⟩

theorem published_map_publish (records : List GaxFsEventRecord) :
    published (records.map .publish) = records := by
  rw [published, List.filterMap_map]
  exact List.filterMap_some

theorem run_map_publish (records : List GaxFsEventRecord) (log : GaxFsEventLog) :
    run checks (records.map .publish) log =
      (log.ringBuffer.pushAll checks records).map fun ring ↦ { log with ringBuffer := ring } := by
  induction records generalizing log with
  | nil => rfl
  | cons record records ih =>
    rw [List.map_cons, run, List.foldlM_cons, pushAll, List.foldlM_cons, step, publish]
    rcases log.ringBuffer.push checks record with - | pushed
    · rfl
    · exact ih _

theorem length_retained_one {capacity : ℕ} {history : List GaxFsEventRecord}
    (h : history.length ≤ capacity) : (retained capacity history 1).length = history.length := by
  rw [retained, List.length_drop, length_numbered]
  omega

/-- A default log keeps all of 10001 events, and replays one less. -/
theorem replay_misses_event : ∃ ops log,
    run true ops new = some log ∧
    (retained defaultRingCapacity.toNat (published ops) 1).length = 10001 ∧
    log.replay true 1 (succeeding fun seen _ ↦ seen + 1) 0 = some (.ok 10000, 10000) := by
  obtain ⟨history, hlength⟩ : ∃ history : List GaxFsEventRecord, history.length = 10001 :=
    ⟨List.replicate 10001 (eventAt 0), List.length_replicate ..⟩
  obtain ⟨ring, hpush, -⟩ := pushAll_holds (new_holds defaultRingCapacity) (by decide) history
    (by rw [hlength]; decide)
  have hrun : run true (history.map .publish) new = some { new with ringBuffer := ring } := by
    rw [run_map_publish]
    exact congrArg _ (hpush true)
  have hleft : (retained defaultRingCapacity.toNat history 1).length = 10001 := by
    rw [length_retained_one (by rw [hlength]; decide), hlength]
  refine ⟨_, _, hrun, by rwa [published_map_publish], ?_⟩
  rw [replay_succeeding hrun (by rw [published_map_publish, hlength]; decide),
    published_map_publish]
  have hseen : ((retained defaultRingCapacity.toNat history (1 : UInt64).toNat).take 10000).length =
      10000 := by
    rw [List.length_take, UInt64.toNat_one, hleft]
    rfl
  simp only [List.foldl_add_const, hseen]
  rfl

end GaxFsEventLog

end Gaxera

import Gaxera.Core.WaitSets
import Gaxera.Data.WaiterSlot

/-!
# Threads that wait on a notification or at a wait set

Both objects remember one thread, and both let a second one take its place: `wait` writes
`waiting_thread` without looking at it. The thread that was there stays blocked, and no later
`signal`, `post_event` or `close` returns it. `Endpoint::receive` refuses a second receiver with
`Busy`.

So no waiter is lost exactly in the runs in which a thread that has to wait finds no other thread
recorded.
-/

namespace Gaxera

open WaitAnswer

inductive NotificationOp
  | signal (activeSignals : BitVec 32)
  | wait (thread : ObjectId)
  | clear (mask : BitVec 32)
  | takeSignals
  | incCapabilityRef
  | decCapabilityRef
  | close
deriving DecidableEq, Repr

namespace Notification

def exec (n : Notification) : NotificationOp → WaitAnswer ObjectId × Notification
  | .signal activeSignals =>
    let (woken, n) := n.signal activeSignals
    (.ofWoken woken, n)
  | .wait thread =>
    let (result, n) := n.wait thread
    (.ofWait result, n)
  | .clear mask => (.neither, (n.clear mask).2)
  | .takeSignals => (.neither, n.takeSignals.2)
  | .incCapabilityRef => (.neither, n.incCapabilityRef.getD n)
  | .decCapabilityRef => (.neither, n.decCapabilityRef.elim n Prod.snd)
  | .close =>
    let (woken, n) := n.close
    (.ofWoken woken, n)

def run (n : Notification) (ops : List NotificationOp) : Notification :=
  ops.foldl (fun n op ↦ (n.exec op).2) n

/-- A thread that waits now is told to block. -/
def blocks (n : Notification) : Prop := n.closed = false ∧ n.signals = 0

end Notification

namespace WaitSet

/-- What an operation says about waiting. -/
def waitAnswer : WaitSetAnswer → WaitAnswer ObjectId
  | .done _ => .neither
  | .woken thread => .ofWoken thread
  | .waited result => .ofWait result

/-- A thread that waits now is told to block. -/
def blocks (w : WaitSet) : Prop := w.closed = false ∧ w.readyEvents = []

end WaitSet

/-! ## The waiter of an object -/

namespace Notification

theorem handsOut_signal (n : Notification) (activeSignals : BitVec 32) :
    HandsOut n.waitingThread (n.signal activeSignals).1
      (n.signal activeSignals).2.waitingThread := by
  rw [signal]
  split
  · exact .inl ⟨rfl, rfl⟩
  · dsimp only
    split
    · exact .inr ⟨rfl, rfl⟩
    · exact .inl ⟨rfl, rfl⟩

/-- **A wait that finds bits records nobody**, and one that blocks records the thread. -/
theorem waitingThread_wait (n : Notification) (thread : ObjectId) :
    (n.wait thread).2.waitingThread
      = (ofWait (n.wait thread).1).slot n.waitingThread := by
  rw [wait]
  split
  · rfl
  · split <;> rfl

theorem ofWait_wait_eq_blocks_iff (n : Notification) (thread other : ObjectId) :
    ofWait (n.wait thread).1 = .blocks other ↔ n.blocks ∧ thread = other := by
  rw [wait, blocks]
  by_cases hclosed : n.closed = true
  · simp [hclosed, ofWait]
  · rw [if_neg hclosed]
    by_cases hsignals : n.signals ≠ 0
    · rw [if_pos hsignals]
      exact ⟨fun h ↦ (by cases h), fun h ↦ absurd h.1.2 hsignals⟩
    · rw [if_neg hsignals]
      simpa [ofWait, hclosed] using fun _ ↦ not_not.mp hsignals

theorem wait_of_exec_eq_blocks {n : Notification} {op : NotificationOp} {thread : ObjectId}
    (h : (n.exec op).1 = .blocks thread) : op = .wait thread ∧ n.blocks :=
  match op with
  | .signal _ | .close => absurd h (ofWoken_ne_blocks _ thread)
  | .wait other => by
    obtain ⟨hblocks, rfl⟩ := (n.ofWait_wait_eq_blocks_iff other thread).mp h
    exact ⟨rfl, hblocks⟩
  | .clear _ | .takeSignals | .incCapabilityRef | .decCapabilityRef => nomatch h

def waiterSlot : WaiterSlot Notification NotificationOp ObjectId where
  slot := waitingThread
  exec := exec
  slot_exec n op :=
    match op with
    | .signal activeSignals => (n.handsOut_signal activeSignals).slot_eq
    | .wait thread => n.waitingThread_wait thread
    | .clear _ => rfl
    | .takeSignals => rfl
    | .incCapabilityRef => by
      change (n.incCapabilityRef.getD n).waitingThread = n.waitingThread
      rw [incCapabilityRef]
      rcases checkedAdd 32 n.capabilityRefs 1 with _ | refs <;> rfl
    | .decCapabilityRef => by
      change (n.decCapabilityRef.elim n Prod.snd).waitingThread = n.waitingThread
      rw [decCapabilityRef]
      rcases checkedSub n.capabilityRefs 1 with _ | refs <;> rfl
    | .close => WaitAnswer.HandsOut.slot_eq (.inr ⟨rfl, rfl⟩)
  slot_of_wakes {n op thread} hwakes :=
    match op with
    | .signal activeSignals => (n.handsOut_signal activeSignals).eq_of_wakes hwakes
    | .close => WaitAnswer.HandsOut.eq_of_wakes (.inr ⟨rfl, rfl⟩) hwakes
    | .wait other => absurd hwakes (WaitAnswer.ofWait_ne_wakes _ thread)
    | .clear _ | .takeSignals | .incCapabilityRef | .decCapabilityRef => nomatch hwakes

end Notification

namespace WaitSet

theorem handsOut_postEvent (w : WaitSet) (object : ObjectId) (activeSignals : BitVec 32) :
    HandsOut w.waitingThread (w.postEvent object activeSignals).1
      (w.postEvent object activeSignals).2.waitingThread := by
  rw [postEvent]
  split
  · exact .inl ⟨rfl, rfl⟩
  split
  · next sub _ =>
    dsimp only
    split
    · -- matched signals hand the thread out, whatever becomes of the event
      rcases mergeEvent sub.cookie (sub.signals &&& activeSignals) w.readyEvents with _ | merged
      · dsimp only
        split <;> exact .inr ⟨rfl, rfl⟩
      · exact .inr ⟨rfl, rfl⟩
    · exact .inl ⟨rfl, rfl⟩
  · exact .inl ⟨rfl, rfl⟩

/-- **A wait that finds events records nobody**, and one that blocks records the thread. -/
theorem waitingThread_wait (w : WaitSet) (thread : ObjectId) :
    (w.wait thread).2.waitingThread
      = (ofWait (w.wait thread).1).slot w.waitingThread := by
  rw [wait]
  split
  · rfl
  · split <;> rfl

theorem ofWait_wait_eq_blocks_iff (w : WaitSet) (thread other : ObjectId) :
    ofWait (w.wait thread).1 = .blocks other ↔ w.blocks ∧ thread = other := by
  rw [wait, blocks]
  by_cases hclosed : w.closed = true
  · simp [hclosed, ofWait]
  · rw [if_neg hclosed]
    by_cases hevents : w.readyEvents ≠ []
    · rw [if_pos hevents]
      exact ⟨fun h ↦ (by cases h), fun h ↦ absurd h.1.2 hevents⟩
    · rw [if_neg hevents]
      simpa [ofWait, hclosed] using fun _ ↦ not_not.mp hevents

theorem waitingThread_addSubscription (w : WaitSet) (object : ObjectId) (cookie : UInt64)
    (signals : BitVec 32) :
    (w.addSubscription object cookie signals).2.waitingThread = w.waitingThread := by
  rw [addSubscription]
  split
  · rfl
  · split
    · rfl
    · split <;> rfl

theorem waitingThread_removeSubscription (w : WaitSet) (object : ObjectId) :
    (w.removeSubscription object).2.waitingThread = w.waitingThread := by
  rw [removeSubscription]
  split
  · rfl
  · dsimp only
    split
    · split <;> rfl
    · rfl

theorem wait_of_exec_eq_blocks {w : WaitSet} {op : WaitSetOp} {thread : ObjectId}
    (h : waitAnswer (w.exec op).1 = .blocks thread) : op = .wait thread ∧ w.blocks :=
  match op with
  | .postEvent _ _ | .close => absurd h (ofWoken_ne_blocks _ thread)
  | .wait other => by
    obtain ⟨hblocks, rfl⟩ := (w.ofWait_wait_eq_blocks_iff other thread).mp h
    exact ⟨rfl, hblocks⟩
  | .addSubscription _ _ _ | .removeSubscription _ => nomatch h

def waiterSlot : WaiterSlot WaitSet WaitSetOp ObjectId where
  slot := waitingThread
  exec w op := (waitAnswer (w.exec op).1, (w.exec op).2)
  slot_exec w op :=
    match op with
    | .addSubscription object cookie signals =>
      w.waitingThread_addSubscription object cookie signals
    | .removeSubscription object => w.waitingThread_removeSubscription object
    | .postEvent object activeSignals => (w.handsOut_postEvent object activeSignals).slot_eq
    | .wait thread => w.waitingThread_wait thread
    | .close => WaitAnswer.HandsOut.slot_eq (.inr ⟨rfl, rfl⟩)
  slot_of_wakes {w op thread} hwakes :=
    match op with
    | .postEvent object activeSignals =>
      (w.handsOut_postEvent object activeSignals).eq_of_wakes hwakes
    | .close => WaitAnswer.HandsOut.eq_of_wakes (.inr ⟨rfl, rfl⟩) hwakes
    | .wait _ => absurd hwakes (WaitAnswer.ofWait_ne_wakes _ thread)
    | .addSubscription _ _ _ | .removeSubscription _ => nomatch hwakes

end WaitSet

/-! ## No waiter is lost -/

/-- No thread has to wait on the notification while another one is recorded. -/
def Notification.WaitsAlone (ops : List NotificationOp) : Prop :=
  ∀ k thread, ops[k]? = some (.wait thread) → (Notification.new.run (ops.take k)).blocks →
    (Notification.new.run (ops.take k)).waitingThread = none
      ∨ (Notification.new.run (ops.take k)).waitingThread = some thread

/-- No thread has to wait at the wait set while another one is recorded. -/
def WaitSet.WaitsAlone (ops : List WaitSetOp) : Prop :=
  ∀ k thread, ops[k]? = some (.wait thread) → (WaitSet.new.run (ops.take k)).blocks →
    (WaitSet.new.run (ops.take k)).waitingThread = none
      ∨ (WaitSet.new.run (ops.take k)).waitingThread = some thread

theorem Notification.oneAtATime_iff (ops : List NotificationOp) :
    Notification.waiterSlot.OneAtATime Notification.new ops ↔ Notification.WaitsAlone ops := by
  constructor
  · intro h k thread hop hblocks
    exact h k _ thread hop ((ofWait_wait_eq_blocks_iff _ thread thread).mpr ⟨hblocks, rfl⟩)
  · intro h k op thread hop hblocks
    obtain ⟨rfl, hwaits⟩ := wait_of_exec_eq_blocks hblocks
    exact h k thread hop hwaits

theorem WaitSet.oneAtATime_iff (ops : List WaitSetOp) :
    WaitSet.waiterSlot.OneAtATime WaitSet.new ops ↔ WaitSet.WaitsAlone ops := by
  constructor
  · intro h k thread hop hblocks
    exact h k _ thread hop ((ofWait_wait_eq_blocks_iff _ thread thread).mpr ⟨hblocks, rfl⟩)
  · intro h k op thread hop hblocks
    obtain ⟨rfl, hwaits⟩ := wait_of_exec_eq_blocks hblocks
    exact h k thread hop hwaits

/-- **No waiter is lost exactly where waiters come one at a time.** In a run of a notification or of
a wait set, the object has recorded, after every operation, exactly the threads that were told to
block and have not been returned since, if and only if a thread that has to wait never finds another
one recorded. In any case a wait that finds bits or events records nobody. -/
theorem no_waiter_lost_iff_one_at_a_time (ops : List NotificationOp) (ops' : List WaitSetOp) :
    (Notification.waiterSlot.LosesNone Notification.new ops ↔ Notification.WaitsAlone ops)
    ∧ (WaitSet.waiterSlot.LosesNone WaitSet.new ops' ↔ WaitSet.WaitsAlone ops')
    ∧ (∀ (n : Notification) thread, n.signals ≠ 0 →
      (n.wait thread).2.waitingThread = n.waitingThread)
    ∧ ∀ (w : WaitSet) thread, w.readyEvents ≠ [] →
      (w.wait thread).2.waitingThread = w.waitingThread := by
  refine ⟨?_, ?_, fun n thread hsignals ↦ ?_, fun w thread hevents ↦ ?_⟩
  · rw [WaiterSlot.losesNone_iff, Notification.oneAtATime_iff]
  · rw [WaiterSlot.losesNone_iff, WaitSet.oneAtATime_iff]
  · rw [Notification.wait]
    split
    · rfl
    · rfl
  · rw [WaitSet.wait]
    split
    · rfl
    · rfl

/-- Two threads wait on a notification, and two wait at a wait set. What comes after returns the
second one, and then nobody: the first is nowhere recorded and is never returned. -/
theorem second_waiter_displaces_first :
    (let ops : List NotificationOp := [.wait ⟨5, 1⟩, .wait ⟨7, 1⟩];
      (Notification.new.run ops).waitingThread = some ⟨7, 1⟩
        ∧ Notification.waiterSlot.relying Notification.new ops = [⟨5, 1⟩, ⟨7, 1⟩]
        ∧ ((Notification.new.run ops).signal 1).1 = some ⟨7, 1⟩
        ∧ ((Notification.new.run ops).signal 1).2.close.1 = none)
    ∧ (let ops : List WaitSetOp := [.addSubscription ⟨3, 1⟩ 30 1, .wait ⟨5, 1⟩, .wait ⟨7, 1⟩];
      (WaitSet.new.run ops).waitingThread = some ⟨7, 1⟩
        ∧ WaitSet.waiterSlot.relying WaitSet.new ops = [⟨5, 1⟩, ⟨7, 1⟩]
        ∧ ((WaitSet.new.run ops).postEvent ⟨3, 1⟩ 1).1 = some ⟨7, 1⟩
        ∧ ((WaitSet.new.run ops).postEvent ⟨3, 1⟩ 1).2.close.1 = none)
    ∧ ¬ Notification.waiterSlot.LosesNone Notification.new [.wait ⟨5, 1⟩, .wait ⟨7, 1⟩]
    ∧ ¬ WaitSet.waiterSlot.LosesNone WaitSet.new [.wait ⟨5, 1⟩, .wait ⟨7, 1⟩] := by
  refine ⟨by decide, by decide, fun h ↦ ?_, fun h ↦ ?_⟩
  · exact absurd (h 2) (by decide)
  · exact absurd (h 2) (by decide)

end Gaxera

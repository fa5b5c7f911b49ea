import Gaxera.Core.Waiting
import Mathlib.Data.List.Nodup
import Mathlib.Data.List.Perm.Basic
import Mathlib.Data.List.Dedup

/-!
# Wait sets

A wait set files its events under cookies and its subscriptions under objects. Two subscriptions may
have one cookie, and a cookie may come back with another object after its subscription was removed.
What ties the two together is small: no two pending events have one cookie, and every cookie of an
event is that of a subscription there is. It bounds the events by the subscriptions, so that the
limit on the events is never met.
-/

namespace Gaxera

inductive WaitSetOp
  | addSubscription (object : ObjectId) (cookie : UInt64) (signals : BitVec 32)
  | removeSubscription (object : ObjectId)
  | postEvent (object : ObjectId) (activeSignals : BitVec 32)
  | wait (thread : ObjectId)
  | close
deriving DecidableEq, Repr

/-- What an operation returns. -/
inductive WaitSetAnswer
  | done (result : Except WaitSetError Unit)
  | woken (thread : Option ObjectId)
  | waited (result : Except WaitSetError (Except ObjectId (List WaitSetEvent)))

structure WaitSetStep where
  op : WaitSetOp
  answer : WaitSetAnswer

namespace WaitSetStep

/-- The signals which a subscription matches in this step. -/
def matched (step : WaitSetStep) (sub : Subscription) : BitVec 32 :=
  match step.op with
  | .postEvent object activeSignals =>
    if object = sub.object then sub.signals &&& activeSignals else 0
  | _ => 0

/-- The step makes the subscription, or it hands out all that there was. -/
def opens (step : WaitSetStep) (sub : Subscription) : Bool :=
  match step.op, step.answer with
  | .addSubscription object _ _, .done (.ok ()) => object = sub.object
  | .wait _, .waited (.ok (.ok _)) => true
  | _, _ => false

/-- The step has nothing to say to the subscription. -/
def Quiet (step : WaitSetStep) (sub : Subscription) : Prop :=
  step.matched sub = 0 ∧ step.opens sub = false

end WaitSetStep

namespace WaitSet

def exec (w : WaitSet) : WaitSetOp → WaitSetAnswer × WaitSet
  | .addSubscription object cookie signals =>
    let (result, w) := w.addSubscription object cookie signals
    (.done result, w)
  | .removeSubscription object =>
    let (result, w) := w.removeSubscription object
    (.done result, w)
  | .postEvent object activeSignals =>
    let (thread, w) := w.postEvent object activeSignals
    (.woken thread, w)
  | .wait thread =>
    let (result, w) := w.wait thread
    (.waited result, w)
  | .close =>
    let (thread, w) := w.close
    (.woken thread, w)

def run (w : WaitSet) (ops : List WaitSetOp) : WaitSet :=
  ops.foldl (fun w op ↦ (w.exec op).2) w

/-! ## Events and subscriptions -/

/-- The cookies of the pending events. -/
def pending (w : WaitSet) : List UInt64 := w.readyEvents.map WaitSetEvent.cookie

/-- **No two pending events have one cookie, and each has the cookie of a subscription.** -/
structure Wf (w : WaitSet) : Prop where
  distinct : w.pending.Nodup
  subscribed : ∀ cookie ∈ w.pending, ∃ sub ∈ w.subscriptions, sub.cookie = cookie
  objects : (w.subscriptions.map Subscription.object).Nodup
  bounded : w.subscriptions.length ≤ maxSubscriptions
  emptied : w.closed = true → w.subscriptions = [] ∧ w.readyEvents = []

theorem wf_new : new.Wf :=
  ⟨List.nodup_nil, by simp [pending, new], List.nodup_nil, by simp [new], by simp [new]⟩

variable {w : WaitSet}

theorem Wf.length_readyEvents_le (h : w.Wf) : w.readyEvents.length ≤ w.subscriptions.length := by
  have hsubset : w.pending ⊆ w.subscriptions.map Subscription.cookie := by
    intro cookie hmem
    obtain ⟨sub, hsub, rfl⟩ := h.subscribed cookie hmem
    exact List.mem_map_of_mem hsub
  have hle := (List.subperm_of_subset h.distinct hsubset).length_le
  rwa [pending, List.length_map, List.length_map] at hle

/-- Merging keeps the cookies where they are. -/
theorem cookies_of_mergeEvent {cookie : UInt64} {matched : BitVec 32}
    {events merged : List WaitSetEvent} (h : mergeEvent cookie matched events = some merged) :
    cookie ∈ events.map WaitSetEvent.cookie
      ∧ merged.map WaitSetEvent.cookie = events.map WaitSetEvent.cookie := by
  induction events generalizing merged with
  | nil => cases h
  | cons e events ih =>
    rw [mergeEvent] at h
    split_ifs at h with heq
    · obtain rfl := Option.some.inj h
      simp [heq]
    · obtain ⟨rest, hrest, rfl⟩ := Option.map_eq_some_iff.mp h
      obtain ⟨hmem, hcookies⟩ := ih hrest
      exact ⟨List.mem_cons_of_mem _ hmem, congrArg (e.cookie :: ·) hcookies⟩

theorem not_mem_of_mergeEvent {cookie : UInt64} {matched : BitVec 32} {events : List WaitSetEvent}
    (h : mergeEvent cookie matched events = none) : cookie ∉ events.map WaitSetEvent.cookie := by
  induction events with
  | nil => exact List.not_mem_nil
  | cons e events ih =>
    rw [mergeEvent] at h
    split_ifs at h with heq
    have hrest := ih (Option.map_eq_none_iff.mp h)
    exact List.mem_cons.not.mpr (not_or.mpr ⟨Ne.symm heq, hrest⟩)

/-- An event joins the one with its cookie, or goes to the end. -/
def file (cookie : UInt64) (matched : BitVec 32) (events : List WaitSetEvent) : List WaitSetEvent :=
  (mergeEvent cookie matched events).getD (events ++ [⟨cookie, matched⟩])

theorem file_spec (cookie : UInt64) (matched : BitVec 32) (events : List WaitSetEvent) :
    mergeEvent cookie matched events = some (file cookie matched events)
      ∨ cookie ∉ events.map WaitSetEvent.cookie
        ∧ file cookie matched events = events ++ [⟨cookie, matched⟩] := by
  rw [file]
  rcases hmerge : mergeEvent cookie matched events with _ | merged
  · exact .inr ⟨not_mem_of_mergeEvent hmerge, rfl⟩
  · exact .inl rfl

/-! ## What a step can do -/

/-- **The ways in which a step can go.** The waiting thread is left out. -/
inductive Moves (w : WaitSet) : WaitSetStep → WaitSet → Prop
  | rests {step : WaitSetStep} {w' : WaitSet} (hsubs : w'.subscriptions = w.subscriptions)
      (hevents : w'.readyEvents = w.readyEvents) (hclosed : w'.closed = w.closed)
      (hquiet : ∀ sub ∈ w.subscriptions, step.Quiet sub) : Moves w step w'
  | adds {sub : Subscription} {step : WaitSetStep} {w' : WaitSet} (hopen : w.closed = false)
      (hfresh : ∀ other ∈ w.subscriptions, other.object ≠ sub.object)
      (hroom : w.subscriptions.length < maxSubscriptions)
      (hsubs : w'.subscriptions = w.subscriptions ++ [sub])
      (hevents : w'.readyEvents = w.readyEvents) (hclosed : w'.closed = w.closed)
      (hopens : step.opens sub = true) (hquiet : ∀ other ∈ w.subscriptions, step.Quiet other) :
      Moves w step w'
  | removes {sub : Subscription} {step : WaitSetStep} {w' : WaitSet}
      (hmem : sub ∈ w.subscriptions) (hopen : w.closed = false)
      (hsubs : w'.subscriptions = w.subscriptions.filter fun s ↦ s.object ≠ sub.object)
      (hevents : w'.readyEvents = w.readyEvents.filter fun e ↦ e.cookie ≠ sub.cookie)
      (hclosed : w'.closed = w.closed) (hquiet : ∀ other ∈ w.subscriptions, step.Quiet other) :
      Moves w step w'
  | posts {sub : Subscription} {step : WaitSetStep} {w' : WaitSet} (hmem : sub ∈ w.subscriptions)
      (hopen : w.closed = false) (hsubs : w'.subscriptions = w.subscriptions)
      (hmatched : step.matched sub ≠ 0) (hopens : step.opens sub = false)
      (hevents : mergeEvent sub.cookie (step.matched sub) w.readyEvents = some w'.readyEvents
        ∨ sub.cookie ∉ w.pending
          ∧ w'.readyEvents = w.readyEvents ++ [⟨sub.cookie, step.matched sub⟩])
      (hclosed : w'.closed = w.closed)
      (hquiet : ∀ other ∈ w.subscriptions, other ≠ sub → step.Quiet other) : Moves w step w'
  | takes {step : WaitSetStep} {w' : WaitSet} (hopen : w.closed = false)
      (hsubs : w'.subscriptions = w.subscriptions) (hevents : w'.readyEvents = [])
      (hclosed : w'.closed = w.closed) (hopens : ∀ sub, step.opens sub = true) : Moves w step w'
  | closes {step : WaitSetStep} {w' : WaitSet} (hsubs : w'.subscriptions = [])
      (hevents : w'.readyEvents = []) : Moves w step w'

/-- There is a place for a subscription of the object, and none of it yet. -/
def Accepts (w : WaitSet) (object : ObjectId) : Prop :=
  w.closed = false ∧ w.subscriptions.length < maxSubscriptions
    ∧ ∀ s ∈ w.subscriptions, s.object ≠ object

theorem addSubscription_cases (w : WaitSet) (object : ObjectId) (cookie : UInt64)
    (signals : BitVec 32) :
    (w.Accepts object ∧ w.addSubscription object cookie signals
        = (.ok (), { w with subscriptions := w.subscriptions ++ [⟨object, cookie, signals⟩] }))
      ∨ ¬ w.Accepts object ∧ ∃ e, w.addSubscription object cookie signals = (.error e, w)
        ∧ (w.closed = false → maxSubscriptions ≤ w.subscriptions.length → e = .full) := by
  rw [addSubscription]
  split_ifs with hclosed hfull hknown
  · exact .inr ⟨by simp [Accepts, hclosed], _, rfl, by simp [hclosed]⟩
  · exact .inr ⟨fun h ↦ Nat.not_le_of_lt h.2.1 hfull, _, rfl, fun _ _ ↦ rfl⟩
  · exact .inr ⟨fun h ↦ absurd hknown (by simpa using h.2.2), _, rfl, fun _ h ↦ absurd h hfull⟩
  · exact .inl ⟨⟨by simpa using hclosed, Nat.lt_of_not_le hfull, by simpa using hknown⟩, rfl⟩

theorem moves_addSubscription (w : WaitSet) (object : ObjectId) (cookie : UInt64)
    (signals : BitVec 32) :
    w.Moves ⟨.addSubscription object cookie signals,
      (w.exec (.addSubscription object cookie signals)).1⟩
      (w.exec (.addSubscription object cookie signals)).2 := by
  rw [exec]
  rcases w.addSubscription_cases object cookie signals with
    ⟨⟨hopen, hroom, hfresh⟩, heq⟩ | ⟨-, e, heq, -⟩
  · rw [heq]
    refine Moves.adds (w := w) hopen hfresh hroom rfl rfl rfl (by simp [WaitSetStep.opens]) ?_
    exact fun other hother ↦ ⟨rfl, decide_eq_false (hfresh other hother).symm⟩
  · rw [heq]
    exact .rests rfl rfl rfl fun sub _ ↦ ⟨rfl, rfl⟩

/-- The objects are distinct, so a post has something to say to one subscription only. -/
theorem Wf.object_ne (h : w.Wf) {sub other : Subscription} (hsub : sub ∈ w.subscriptions)
    (hother : other ∈ w.subscriptions) (hne : other ≠ sub) : sub.object ≠ other.object :=
  fun heq ↦ hne (List.inj_on_of_nodup_map h.objects hother hsub heq.symm)

theorem Wf.find?_object (h : w.Wf) {sub : Subscription} (hmem : sub ∈ w.subscriptions) :
    (w.subscriptions.find? fun s ↦ s.object = sub.object) = some sub := by
  rcases hfind : w.subscriptions.find? fun s ↦ s.object = sub.object with _ | other
  · exact absurd (List.find?_eq_none.mp hfind sub hmem) (by simp)
  · have heq : other.object = sub.object := by simpa using List.find?_some hfind
    rw [hfind, List.inj_on_of_nodup_map h.objects (List.mem_of_find?_eq_some hfind) hmem heq]

theorem Wf.closed_of_mem (h : w.Wf) {sub : Subscription} (hmem : sub ∈ w.subscriptions) :
    w.closed = false :=
  Bool.eq_false_iff.mpr fun hclosed ↦ List.ne_nil_of_mem hmem (h.emptied hclosed).1

/-- The cookie of an object, if it is subscribed. -/
def cookieOf (w : WaitSet) (object : ObjectId) : Option UInt64 :=
  (w.subscriptions.find? fun s ↦ s.object = object).map Subscription.cookie

theorem cookieOf_eq_none {object : ObjectId} (h : ∀ s ∈ w.subscriptions, s.object ≠ object) :
    w.cookieOf object = none := by
  rw [cookieOf, List.find?_eq_none.mpr fun s hs ↦ by simpa using h s hs, Option.map_none]

theorem filter_object_ne {object : ObjectId} {subscriptions : List Subscription}
    (h : ∀ s ∈ subscriptions, s.object ≠ object) :
    (subscriptions.filter fun s ↦ s.object ≠ object) = subscriptions :=
  List.filter_eq_self.mpr fun s hs ↦ by simpa using h s hs

theorem Wf.removeSubscription_state (h : w.Wf) (object : ObjectId) :
    (w.removeSubscription object).2 = { w with
      subscriptions := w.subscriptions.filter fun s ↦ s.object ≠ object
      readyEvents := w.readyEvents.filter fun e ↦ w.cookieOf object ≠ some e.cookie } := by
  by_cases hclosed : w.closed = true
  · rcases w with ⟨subscriptions, readyEvents, waitingThread, closed⟩
    obtain ⟨rfl, rfl⟩ : subscriptions = [] ∧ readyEvents = [] := h.emptied hclosed
    rw [removeSubscription, if_pos hclosed]
    rfl
  rw [removeSubscription, if_neg hclosed]
  by_cases hknown : ∃ sub ∈ w.subscriptions, sub.object = object
  · obtain ⟨sub, hmem, rfl⟩ := hknown
    have hshorter : (w.subscriptions.filter fun s ↦ s.object ≠ sub.object).length
        < w.subscriptions.length :=
      List.length_filter_lt_length_iff_exists.mpr ⟨sub, hmem, by simp⟩
    simp only [hshorter, cookieOf, h.find?_object hmem, if_true, Option.map_some]
    congr 1
    exact List.filter_congr fun e _ ↦ by simp [eq_comm]
  · -- then nothing is filtered out either
    have hnone : ∀ s ∈ w.subscriptions, s.object ≠ object := by simpa using hknown
    simp only [filter_object_ne hnone, cookieOf_eq_none hnone, Nat.lt_irrefl, if_false]
    simp

theorem moves_removeSubscription (h : w.Wf) (object : ObjectId) :
    w.Moves ⟨.removeSubscription object, (w.exec (.removeSubscription object)).1⟩
      (w.exec (.removeSubscription object)).2 := by
  have hstate : (w.exec (.removeSubscription object)).2 = _ := h.removeSubscription_state object
  rw [hstate]
  by_cases hknown : ∃ sub ∈ w.subscriptions, sub.object = object
  · obtain ⟨sub, hmem, rfl⟩ := hknown
    refine .removes hmem (h.closed_of_mem hmem) rfl ?_ rfl fun other _ ↦ ⟨rfl, rfl⟩
    rw [cookieOf, h.find?_object hmem]
    exact List.filter_congr fun e _ ↦ by simp [eq_comm]
  · have hnone : ∀ s ∈ w.subscriptions, s.object ≠ object := by simpa using hknown
    refine .rests (filter_object_ne hnone) ?_ rfl fun sub _ ↦ ⟨rfl, rfl⟩
    simp [cookieOf_eq_none hnone]

section PostEvent

variable {object : ObjectId} {sub : Subscription} {activeSignals : BitVec 32}

theorem postEvent_of_quiet
    (h : ∀ s ∈ w.subscriptions, s.object = object → s.signals &&& activeSignals = 0) :
    (w.postEvent object activeSignals).2 = w := by
  rcases hfind : w.subscriptions.find? fun s ↦ s.object = object with _ | sub
  · simp [postEvent, hfind]
  · have hzero := h sub (List.mem_of_find?_eq_some hfind) (by simpa using List.find?_some hfind)
    simp [postEvent, hfind, hzero]

/-- A post that a subscription matches. The limit on the events is never met. -/
theorem Wf.postEvent_of_matched (h : w.Wf) (hmem : sub ∈ w.subscriptions)
    (hmatched : sub.signals &&& activeSignals ≠ 0) :
    (w.postEvent sub.object activeSignals).2 = { w with
      readyEvents := file sub.cookie (sub.signals &&& activeSignals) w.readyEvents
      waitingThread := none } := by
  have hroom : w.readyEvents.length < maxEvents :=
    Nat.lt_of_le_of_lt (Nat.le_trans h.length_readyEvents_le h.bounded) (by decide)
  rw [postEvent, h.closed_of_mem hmem, if_neg Bool.false_ne_true, h.find?_object hmem]
  dsimp only
  rw [if_pos hmatched, file]
  rcases mergeEvent sub.cookie (sub.signals &&& activeSignals) w.readyEvents with _ | merged
  · rw [if_pos hroom]
    rfl
  · rfl

theorem moves_postEvent (h : w.Wf) (object : ObjectId) (activeSignals : BitVec 32) :
    w.Moves ⟨.postEvent object activeSignals, (w.exec (.postEvent object activeSignals)).1⟩
      (w.exec (.postEvent object activeSignals)).2 := by
  by_cases hquiet : ∀ s ∈ w.subscriptions, s.object = object → s.signals &&& activeSignals = 0
  · have hstate : (w.exec (.postEvent object activeSignals)).2 = w := postEvent_of_quiet hquiet
    rw [hstate]
    refine .rests rfl rfl rfl fun sub hsub ↦ ⟨?_, rfl⟩
    by_cases heq : object = sub.object
    · exact (if_pos heq).trans (hquiet sub hsub heq.symm)
    · exact if_neg heq
  · push Not at hquiet
    obtain ⟨sub, hmem, rfl, hmatched⟩ := hquiet
    have hstate : (w.exec (.postEvent sub.object activeSignals)).2 = _ :=
      h.postEvent_of_matched hmem hmatched
    have hnow : WaitSetStep.matched ⟨.postEvent sub.object activeSignals,
        (w.exec (.postEvent sub.object activeSignals)).1⟩ sub = sub.signals &&& activeSignals :=
      if_pos rfl
    rw [hstate]
    refine .posts hmem (h.closed_of_mem hmem) rfl (hnow ▸ hmatched) rfl ?_ rfl
      fun other hother hne ↦ ⟨if_neg (h.object_ne hmem hother hne), rfl⟩
    rw [hnow]
    exact file_spec ..

end PostEvent

theorem moves_wait (w : WaitSet) (thread : ObjectId) :
    w.Moves ⟨.wait thread, (w.exec (.wait thread)).1⟩ (w.exec (.wait thread)).2 := by
  rw [exec, wait]
  by_cases hclosed : w.closed = true
  · rw [if_pos hclosed]
    exact .rests rfl rfl rfl fun sub _ ↦ ⟨rfl, rfl⟩
  · rw [if_neg hclosed]
    by_cases hevents : w.readyEvents ≠ []
    · rw [if_pos hevents]
      exact .takes (by simpa using hclosed) rfl rfl rfl fun sub ↦ rfl
    · rw [if_neg hevents]
      exact .rests rfl rfl rfl fun sub _ ↦ ⟨rfl, rfl⟩

/-- **Every operation goes in one of these ways.** -/
theorem moves_exec (h : w.Wf) (op : WaitSetOp) : w.Moves ⟨op, (w.exec op).1⟩ (w.exec op).2 :=
  match op with
  | .addSubscription object cookie signals => w.moves_addSubscription object cookie signals
  | .removeSubscription object => moves_removeSubscription h object
  | .postEvent object activeSignals => moves_postEvent h object activeSignals
  | .wait thread => w.moves_wait thread
  | .close => .closes rfl rfl

/-- **The cookies stay distinct and subscribed.** -/
theorem Wf.moves {w' : WaitSet} {step : WaitSetStep} (h : w.Wf) (hmoves : w.Moves step w') :
    w'.Wf := by
  have hsame : w'.readyEvents = w.readyEvents → w'.pending = w.pending :=
    fun heq ↦ congrArg (List.map WaitSetEvent.cookie) heq
  have hstays (hopen : w.closed = false) (hclosed : w'.closed = w.closed) : w'.closed = true →
      w'.subscriptions = [] ∧ w'.readyEvents = [] := by
    rw [hclosed, hopen]
    nofun
  cases hmoves with
  | rests hsubs hevents hclosed _ =>
    refine ⟨hsame hevents ▸ h.distinct, ?_, hsubs ▸ h.objects, hsubs ▸ h.bounded, ?_⟩
    · rw [hsame hevents, hsubs]
      exact h.subscribed
    · rw [hclosed, hsubs, hevents]
      exact h.emptied
  | @adds sub _ _ hopen hfresh hroom hsubs hevents hclosed =>
    refine ⟨hsame hevents ▸ h.distinct, fun cookie hmem ↦ ?_, ?_, ?_, hstays hopen hclosed⟩
    · rw [hsame hevents] at hmem
      obtain ⟨other, hother, rfl⟩ := h.subscribed cookie hmem
      exact ⟨other, hsubs ▸ List.mem_append_left _ hother, rfl⟩
    · rw [hsubs, List.map_append, List.map_singleton]
      refine h.objects.append (List.nodup_singleton _) fun object hmem hmem' ↦ ?_
      obtain ⟨other, hother, rfl⟩ := List.mem_map.mp hmem
      exact hfresh other hother (List.mem_singleton.mp hmem')
    · rw [hsubs, List.length_append, List.length_singleton]
      exact hroom
  | @removes sub _ _ hmem hopen hsubs hevents hclosed =>
    have hpending : w'.pending = w.pending.filter fun cookie ↦ cookie ≠ sub.cookie := by
      rw [pending, hevents, pending, List.filter_map]
      rfl
    refine ⟨hpending ▸ h.distinct.filter _, fun cookie hmem' ↦ ?_, ?_, ?_, hstays hopen hclosed⟩
    · rw [hpending, List.mem_filter, decide_eq_true_eq] at hmem'
      obtain ⟨other, hother, rfl⟩ := h.subscribed cookie hmem'.1
      refine ⟨other, ?_, rfl⟩
      rw [hsubs, List.mem_filter, decide_eq_true_eq]
      exact ⟨hother, (h.object_ne hmem hother fun heq ↦ hmem'.2 (heq ▸ rfl)).symm⟩
    · rw [hsubs]
      exact h.objects.sublist (List.filter_sublist.map _)
    · rw [hsubs]
      exact Nat.le_trans (List.length_filter_le ..) h.bounded
  | @posts sub step _ hmem hopen hsubs _ _ hevents hclosed =>
    have hpending : w'.pending = w.pending
        ∨ sub.cookie ∉ w.pending ∧ w'.pending = w.pending ++ [sub.cookie] := by
      rcases hevents with hmerge | ⟨hnew, heq⟩
      · exact .inl (cookies_of_mergeEvent hmerge).2
      · refine .inr ⟨hnew, ?_⟩
        rw [pending, heq, List.map_append]
        rfl
    refine ⟨?_, fun cookie hmem' ↦ ?_, hsubs ▸ h.objects, hsubs ▸ h.bounded,
      hstays hopen hclosed⟩
    · rcases hpending with heq | ⟨hnew, heq⟩
      · exact heq ▸ h.distinct
      · rw [heq]
        refine h.distinct.append (List.nodup_singleton _) fun cookie hmem' hmem'' ↦ ?_
        exact hnew (List.mem_singleton.mp hmem'' ▸ hmem')
    · rw [hsubs]
      rcases hpending with heq | ⟨-, heq⟩
      · exact h.subscribed cookie (heq ▸ hmem')
      · rw [heq, List.mem_append, List.mem_singleton] at hmem'
        rcases hmem' with hmem' | rfl
        · exact h.subscribed cookie hmem'
        · exact ⟨sub, hmem, rfl⟩
  | takes hopen hsubs hevents hclosed _ =>
    have hpending : w'.pending = [] := by rw [pending, hevents, List.map_nil]
    refine ⟨hpending ▸ List.nodup_nil, ?_, hsubs ▸ h.objects, hsubs ▸ h.bounded,
      hstays hopen hclosed⟩
    · rw [hpending]
      exact fun cookie hmem ↦ absurd hmem List.not_mem_nil
  | closes hsubs hevents =>
    have hpending : w'.pending = [] := by rw [pending, hevents, List.map_nil]
    refine ⟨hpending ▸ List.nodup_nil, ?_, hsubs ▸ List.nodup_nil, ?_, fun _ ↦ ⟨hsubs, hevents⟩⟩
    · rw [hpending]
      exact fun cookie hmem ↦ absurd hmem List.not_mem_nil
    · rw [hsubs]
      exact Nat.zero_le _

theorem Wf.exec (h : w.Wf) (op : WaitSetOp) : (w.exec op).2.Wf :=
  h.moves (moves_exec h op)

theorem Wf.run (h : w.Wf) (ops : List WaitSetOp) : (w.run ops).Wf := by
  induction ops generalizing w with
  | nil => exact h
  | cons op ops ih => exact ih (h.exec op)

/-- The events a wait hands out. -/
def delivered : Except WaitSetError (Except ObjectId (List WaitSetEvent)) → List WaitSetEvent
  | .ok (.ok events) => events
  | _ => []

theorem Wf.delivered_wait (h : w.Wf) (thread : ObjectId) :
    delivered (w.wait thread).1 = w.readyEvents := by
  rw [wait]
  split_ifs with hclosed hevents
  · exact (h.emptied hclosed).2.symm
  · rfl
  · exact (not_not.mp hevents).symm

end WaitSet

end Gaxera

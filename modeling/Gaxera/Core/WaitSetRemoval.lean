import Gaxera.Core.WaitSets

/-!
# Removing a subscription

The wait set is run next to one in which `a` is never subscribed. The two agree on everything but
the subscription of `a` and the event under its cookie, as long as nobody else has that cookie and
`a` takes no place that somebody else needs.
-/

namespace Gaxera

namespace WaitSet

variable {a object : ObjectId} {w w₀ : WaitSet} {cookie : UInt64} {matched signals : BitVec 32}
  {p : UInt64 → Bool}

/-- The operations without the subscriptions of `a`. -/
def without (a : ObjectId) (ops : List WaitSetOp) : List WaitSetOp :=
  ops.filter fun
    | .addSubscription object _ _ => object ≠ a
    | _ => true

/-- A subscription that is made does not share a cookie with that of `a`, and none is refused for
want of a place while `a` has one. -/
def apart (a : ObjectId) (w : WaitSet) : WaitSetOp → Bool
  | .addSubscription object cookie signals =>
    match (w.addSubscription object cookie signals).1 with
    | .ok () => w.subscriptions.all fun s ↦
        decide ((object = a ↔ s.object = a) ∨ s.cookie ≠ cookie)
    | .error .full => decide (object = a) || w.subscriptions.all fun s ↦ decide (s.object ≠ a)
    | .error _ => true
  | _ => true

def apartRun (a : ObjectId) (w : WaitSet) : List WaitSetOp → Bool
  | [] => true
  | op :: ops => apart a w op && apartRun a (w.exec op).2 ops

theorem filter_mergeEvent (hp : p cookie = true) (events : List WaitSetEvent) :
    (mergeEvent cookie matched events).map (List.filter fun e ↦ p e.cookie)
      = mergeEvent cookie matched (events.filter fun e ↦ p e.cookie) := by
  induction events with
  | nil => rfl
  | cons e events ih =>
    by_cases heq : e.cookie = cookie
    · simp [mergeEvent, heq, hp]
    · by_cases hkeep : p e.cookie = true
      · rw [List.filter_cons, if_pos hkeep, mergeEvent, if_neg heq, mergeEvent, if_neg heq, ← ih,
          Option.map_map, Option.map_map]
        exact Option.map_congr fun rest _ ↦ by simp [hkeep]
      · rw [List.filter_cons, if_neg hkeep, mergeEvent, if_neg heq, ← ih, Option.map_map]
        exact Option.map_congr fun rest _ ↦ by simp [hkeep]

theorem filter_file_of_pos (hp : p cookie = true) (events : List WaitSetEvent) :
    (file cookie matched events).filter (fun e ↦ p e.cookie)
      = file cookie matched (events.filter fun e ↦ p e.cookie) := by
  rw [file, file, ← filter_mergeEvent hp]
  rcases mergeEvent cookie matched events with - | merged
  · simp [hp]
  · rfl

theorem filter_file_of_neg (hp : p cookie = false) (events : List WaitSetEvent) :
    (file cookie matched events).filter (fun e ↦ p e.cookie)
      = events.filter fun e ↦ p e.cookie := by
  have hmerge : ∀ merged, mergeEvent cookie matched events = some merged →
      merged.filter (fun e ↦ p e.cookie) = events.filter fun e ↦ p e.cookie := by
    induction events with
    | nil => simp [mergeEvent]
    | cons e events ih =>
      intro merged h
      by_cases heq : e.cookie = cookie
      · rw [mergeEvent, if_pos heq] at h
        obtain rfl := Option.some.inj h
        simp [heq, hp]
      · rw [mergeEvent, if_neg heq] at h
        obtain ⟨rest, hrest, rfl⟩ := Option.map_eq_some_iff.mp h
        rw [List.filter_cons, List.filter_cons, ih rest hrest]
  rw [file]
  rcases h : mergeEvent cookie matched events with - | merged
  · simp [hp]
  · exact hmerge merged h

/-- `w₀` is `w` without `a`. -/
structure Without (a : ObjectId) (w w₀ : WaitSet) : Prop where
  wf : w.Wf
  wf₀ : w₀.Wf
  subscriptions : w₀.subscriptions = w.subscriptions.filter fun s ↦ s.object ≠ a
  readyEvents : w₀.readyEvents = w.readyEvents.filter fun e ↦ w.cookieOf a ≠ some e.cookie
  closed : w₀.closed = w.closed
  apart : ∀ s ∈ w.subscriptions, s.object ≠ a → w.cookieOf a ≠ some s.cookie

/-- What `Without` says of the contents. -/
structure Alike (a : ObjectId) (w w₀ : WaitSet) : Prop where
  subscriptions : w₀.subscriptions = w.subscriptions.filter fun s ↦ s.object ≠ a
  readyEvents : w₀.readyEvents = w.readyEvents.filter fun e ↦ w.cookieOf a ≠ some e.cookie
  closed : w₀.closed = w.closed
  apart : ∀ s ∈ w.subscriptions, s.object ≠ a → w.cookieOf a ≠ some s.cookie

theorem Without.alike (h : Without a w w₀) : Alike a w w₀ :=
  ⟨h.subscriptions, h.readyEvents, h.closed, h.apart⟩

theorem find?_filter_ne (hne : object ≠ a) (subscriptions : List Subscription) :
    ((subscriptions.filter fun s ↦ s.object ≠ a).find? fun s ↦ s.object = object)
      = subscriptions.find? fun s ↦ s.object = object := by
  rw [List.find?_filter]
  congr 1
  funext s
  by_cases heq : s.object = object
  · simp [heq, hne]
  · simp [heq]

theorem Without.subscribe (h : Without a w w₀)
    (happart : WaitSet.apart a w (.addSubscription a cookie signals) = true) :
    Alike a (w.addSubscription a cookie signals).2 w₀ := by
  rw [WaitSet.apart] at happart
  rcases w.addSubscription_cases a cookie signals with ⟨⟨-, -, hfresh⟩, heq⟩ | ⟨-, e, heq, -⟩
  swap
  · rw [heq]
    exact h.alike
  rw [heq] at happart ⊢
  have hcookie : ∀ s ∈ w.subscriptions, s.cookie ≠ cookie := by
    intro s hs
    have hall := List.all_eq_true.mp happart s hs
    simpa [hfresh s hs] using hall
  have hnone := cookieOf_eq_none hfresh
  have hnow : WaitSet.cookieOf
      { w with subscriptions := w.subscriptions ++ [⟨a, cookie, signals⟩] } a = some cookie := by
    rw [WaitSet.cookieOf, List.find?_append,
      List.find?_eq_none.mpr fun s hs ↦ by simpa using hfresh s hs]
    simp
  refine ⟨?_, ?_, h.closed, ?_⟩
  · rw [List.filter_append, h.subscriptions]
    simp
  · -- the pending cookies belong to subscriptions, and none of these has the new one
    rw [hnow, h.readyEvents, hnone]
    refine List.filter_congr fun e he ↦ ?_
    obtain ⟨s, hs, heq⟩ := h.wf.subscribed e.cookie (List.mem_map_of_mem he)
    have hne := hcookie s hs
    rw [heq] at hne
    simp [hne.symm]
  · intro s hs hne
    rw [hnow]
    rcases List.mem_append.mp hs with hs | hs
    · simpa using (hcookie s hs).symm
    · rw [List.mem_singleton.mp hs] at hne
      exact absurd rfl hne

theorem Without.add (h : Without a w w₀) (hne : object ≠ a)
    (happart : WaitSet.apart a w (.addSubscription object cookie signals) = true) :
    Alike a (w.addSubscription object cookie signals).2
      (w₀.addSubscription object cookie signals).2 := by
  have hknown : (∀ s ∈ w₀.subscriptions, s.object ≠ object)
      ↔ ∀ s ∈ w.subscriptions, s.object ≠ object := by
    rw [h.subscriptions]
    refine ⟨fun hall s hs heq ↦ hall s (List.mem_filter.mpr ⟨hs, ?_⟩) heq,
      fun hall s hs ↦ hall s (List.mem_of_mem_filter hs)⟩
    simpa [heq] using hne
  have hle := List.length_filter_le (fun s : Subscription ↦ decide (s.object ≠ a)) w.subscriptions
  rw [← h.subscriptions] at hle
  rw [WaitSet.apart] at happart
  rcases w₀.addSubscription_cases object cookie signals with
    ⟨⟨hopen, hroom, hfresh⟩, heq₀⟩ | ⟨hrefused, e, heq₀, -⟩
  swap
  · rcases w.addSubscription_cases object cookie signals with
      ⟨⟨hopen, hroom, hfresh⟩, -⟩ | ⟨-, e, heq, -⟩
    · refine absurd ⟨h.closed.trans hopen, ?_, hknown.mpr hfresh⟩ hrefused
      exact Nat.lt_of_le_of_lt hle hroom
    · rw [heq, heq₀]
      exact h.alike
  rcases w.addSubscription_cases object cookie signals with ⟨-, heq⟩ | ⟨hrefused, e, heq, hfull⟩
  swap
  · have hopen' := h.closed.symm.trans hopen
    refine absurd ⟨hopen', Nat.lt_of_not_le fun hfull' ↦ ?_, hknown.mp hfresh⟩ hrefused
    -- `a` is not among the subscriptions, so these are the same
    rw [heq, hfull hopen' hfull'] at happart
    have hall : ∀ s ∈ w.subscriptions, s.object ≠ a := by simpa [hne] using happart
    rw [h.subscriptions, filter_object_ne hall] at hroom
    exact Nat.not_le_of_lt hroom hfull'
  rw [heq] at happart ⊢
  rw [heq₀]
  have hcookie : WaitSet.cookieOf
      { w with subscriptions := w.subscriptions ++ [⟨object, cookie, signals⟩] } a
        = w.cookieOf a := by
    rw [WaitSet.cookieOf, WaitSet.cookieOf, List.find?_append, List.find?_singleton,
      if_neg (by simpa using hne), Option.or_none]
  refine ⟨?_, ?_, h.closed, ?_⟩
  · rw [h.subscriptions, List.filter_append]
    simp [hne]
  · rw [hcookie]
    exact h.readyEvents
  · intro s hs hsa
    rw [hcookie]
    rcases List.mem_append.mp hs with hs | hs
    · exact h.apart s hs hsa
    · obtain rfl := List.mem_singleton.mp hs
      intro hshared
      obtain ⟨sub, hsub, heq⟩ := Option.map_eq_some_iff.mp hshared
      have hobject : sub.object = a := by simpa using List.find?_some hsub
      have hall := List.all_eq_true.mp happart sub (List.mem_of_find?_eq_some hsub)
      simp only [hobject, iff_true, hne, false_or, decide_eq_true_eq] at hall
      exact hall heq

theorem Without.remove (h : Without a w w₀) (hne : object ≠ a) :
    Alike a (w.removeSubscription object).2 (w₀.removeSubscription object).2 := by
  rw [h.wf.removeSubscription_state, h.wf₀.removeSubscription_state]
  have hcookie : WaitSet.cookieOf { w with
      subscriptions := w.subscriptions.filter fun s ↦ s.object ≠ object
      readyEvents := w.readyEvents.filter fun e ↦ w.cookieOf object ≠ some e.cookie } a
        = w.cookieOf a := by
    rw [WaitSet.cookieOf, find?_filter_ne hne.symm, ← WaitSet.cookieOf]
  have hother : w₀.cookieOf object = w.cookieOf object := by
    rw [WaitSet.cookieOf, h.subscriptions, find?_filter_ne hne, ← WaitSet.cookieOf]
  refine ⟨?_, ?_, h.closed, ?_⟩
  · rw [h.subscriptions, List.filter_filter, List.filter_filter]
    exact List.filter_congr fun s _ ↦ Bool.and_comm ..
  · rw [hcookie, hother, h.readyEvents, List.filter_filter, List.filter_filter]
    exact List.filter_congr fun e _ ↦ Bool.and_comm ..
  · intro s hs hsa
    rw [hcookie]
    exact h.apart s (List.mem_of_mem_filter hs) hsa

/-- **The removal of `a`** makes the two alike. -/
theorem Without.remove_self (h : Without a w w₀) :
    (w.removeSubscription a).2.subscriptions = w₀.subscriptions
      ∧ (w.removeSubscription a).2.readyEvents = w₀.readyEvents
      ∧ (w.removeSubscription a).2.closed = w₀.closed := by
  rw [h.wf.removeSubscription_state]
  exact ⟨h.subscriptions.symm, h.readyEvents.symm, h.closed.symm⟩

theorem Without.not_subscribed (h : Without a w w₀) : ∀ s ∈ w₀.subscriptions, s.object ≠ a := by
  intro s hs
  rw [h.subscriptions] at hs
  simpa using List.of_mem_filter hs

theorem Without.unsubscribe (h : Without a w w₀) :
    Alike a (w.removeSubscription a).2 (w₀.removeSubscription a).2 := by
  obtain ⟨hsubs, hevents, hclosed⟩ := h.remove_self
  have hstays : (w₀.removeSubscription a).2 = w₀ := by
    rw [h.wf₀.removeSubscription_state, cookieOf_eq_none h.not_subscribed,
      filter_object_ne h.not_subscribed]
    simp
  have hnone' : (w.removeSubscription a).2.cookieOf a = none :=
    cookieOf_eq_none (hsubs ▸ h.not_subscribed)
  rw [hstays]
  refine ⟨?_, ?_, hclosed.symm, ?_⟩
  · rw [hsubs]
    exact (filter_object_ne h.not_subscribed).symm
  · rw [hnone', hevents]
    simp
  · simp [hnone']

/-- A post changes the event under one cookie. That of `a` is not there in the other run. -/
theorem Without.post (h : Without a w w₀) (object : ObjectId) (activeSignals : BitVec 32) :
    Alike a (w.postEvent object activeSignals).2 (w₀.postEvent object activeSignals).2 := by
  by_cases hquiet : ∀ s ∈ w.subscriptions, s.object = object → s.signals &&& activeSignals = 0
  · have hquiet₀ : ∀ s ∈ w₀.subscriptions, s.object = object → s.signals &&& activeSignals = 0 := by
      intro s hs
      rw [h.subscriptions] at hs
      exact hquiet s (List.mem_of_mem_filter hs)
    rw [postEvent_of_quiet hquiet, postEvent_of_quiet hquiet₀]
    exact h.alike
  push Not at hquiet
  obtain ⟨sub, hmem, rfl, hmatched⟩ := hquiet
  rw [h.wf.postEvent_of_matched hmem hmatched]
  by_cases hsa : sub.object = a
  · have hcookie : w.cookieOf a = some sub.cookie := by
      rw [WaitSet.cookieOf, ← hsa, h.wf.find?_object hmem]
      rfl
    rw [postEvent_of_quiet fun s hs heq ↦ absurd (heq.trans hsa) (h.not_subscribed s hs)]
    refine ⟨h.subscriptions, ?_, h.closed, h.apart⟩
    change w₀.readyEvents = List.filter (fun e ↦ w.cookieOf a ≠ some e.cookie) (file ..)
    rw [filter_file_of_neg (p := fun c ↦ decide (w.cookieOf a ≠ some c)) (by simp [hcookie])]
    exact h.readyEvents
  · have hmem₀ : sub ∈ w₀.subscriptions := by
      rw [h.subscriptions]
      exact List.mem_filter.mpr ⟨hmem, decide_eq_true hsa⟩
    rw [h.wf₀.postEvent_of_matched hmem₀ hmatched]
    refine ⟨h.subscriptions, ?_, h.closed, h.apart⟩
    change file _ _ w₀.readyEvents
      = List.filter (fun e ↦ w.cookieOf a ≠ some e.cookie) (file _ _ w.readyEvents)
    rw [filter_file_of_pos (p := fun c ↦ decide (w.cookieOf a ≠ some c))
      (by simpa using h.apart sub hmem hsa), h.readyEvents]

theorem Wf.wait_contents (h : w.Wf) (thread : ObjectId) :
    (w.wait thread).2.subscriptions = w.subscriptions ∧ (w.wait thread).2.readyEvents = []
      ∧ (w.wait thread).2.closed = w.closed := by
  rw [WaitSet.wait]
  split_ifs with hclosed hevents
  · exact ⟨rfl, (h.emptied hclosed).2, rfl⟩
  · exact ⟨rfl, rfl, rfl⟩
  · exact ⟨rfl, not_not.mp hevents, rfl⟩

/-- A wait leaves no event of anybody else behind, whether it finds one or not. -/
theorem Without.wait (h : Without a w w₀) (thread : ObjectId) :
    Alike a (w.wait thread).2 (w₀.wait thread).2 := by
  obtain ⟨hsubs, hevents, hclosed⟩ := h.wf.wait_contents thread
  obtain ⟨hsubs₀, hevents₀, hclosed₀⟩ := h.wf₀.wait_contents thread
  have hcookie : (w.wait thread).2.cookieOf a = w.cookieOf a := by
    rw [WaitSet.cookieOf, hsubs, ← WaitSet.cookieOf]
  refine ⟨?_, ?_, hclosed₀.trans (h.closed.trans hclosed.symm), ?_⟩
  · rw [hsubs, hsubs₀]
    exact h.subscriptions
  · rw [hevents, hevents₀]
    rfl
  · rw [hsubs, hcookie]
    exact h.apart

/-- **One operation** keeps the two runs alike but for `a`. -/
theorem Without.exec (h : Without a w w₀) {op : WaitSetOp} (happart : WaitSet.apart a w op = true) :
    Without a (w.exec op).2 (w₀.run (without a [op])) := by
  suffices halike : Alike a (w.exec op).2 (w₀.run (without a [op])) from
    ⟨h.wf.exec op, h.wf₀.run _, halike.subscriptions, halike.readyEvents, halike.closed,
      halike.apart⟩
  rcases op with ⟨object, cookie, signals⟩ | object | ⟨object, activeSignals⟩ | thread | -
  · by_cases hsa : object = a
    · subst hsa
      have hdrop : without object [.addSubscription object cookie signals] = [] := by simp [without]
      rw [hdrop]
      exact h.subscribe happart
    · have hkeep : without a [.addSubscription object cookie signals]
          = [.addSubscription object cookie signals] := by simp [without, hsa]
      rw [hkeep]
      exact h.add hsa happart
  · by_cases hsa : object = a
    · subst hsa
      exact h.unsubscribe
    · exact h.remove hsa
  · exact h.post object activeSignals
  · exact h.wait thread
  · exact ⟨rfl, rfl, rfl, by simp [WaitSet.exec, close]⟩

theorem Without.run (h : Without a w w₀) {ops : List WaitSetOp}
    (happart : apartRun a w ops = true) : Without a (w.run ops) (w₀.run (without a ops)) := by
  induction ops generalizing w w₀ with
  | nil => exact h
  | cons op ops ih =>
    obtain ⟨hstep, hrest⟩ := Bool.and_eq_true_iff.mp happart
    have hsplit : w₀.run (without a (op :: ops))
        = (w₀.run (without a [op])).run (without a ops) := by
      rw [WaitSet.run, WaitSet.run, WaitSet.run, ← List.foldl_append, without, without, without,
        ← List.filter_append]
      rfl
    rw [hsplit]
    exact ih (h.exec hstep) hrest

/-- **Removing an object takes nothing from the others**, in every run in which no subscription was
given the cookie that `a` had, nor `a` theirs, and none was refused for want of the place that `a`
had: no event under the cookie of another subscription is dropped, and the next wait hands out what
it would in the run in which `a` had never been subscribed. -/
theorem removal_does_not_interfere (a : ObjectId) (ops : List WaitSetOp)
    (happart : apartRun a new ops = true) (thread : ObjectId) :
    let w := ((new.run ops).removeSubscription a).2
    let w₀ := new.run (without a ops)
    w.subscriptions = w₀.subscriptions
      ∧ (∀ sub ∈ w.subscriptions, ∀ e ∈ (new.run ops).readyEvents, e.cookie = sub.cookie →
        e ∈ w.readyEvents)
      ∧ delivered (w.wait thread).1 = delivered (w₀.wait thread).1 := by
  intro w w₀
  have hstart : Without a new new := ⟨wf_new, wf_new, rfl, rfl, rfl, by simp [new]⟩
  have h := hstart.run happart
  obtain ⟨hsubs, hevents, -⟩ := h.remove_self
  refine ⟨hsubs, fun sub hsub e he heq ↦ ?_, ?_⟩
  · change e ∈ ((new.run ops).removeSubscription a).2.readyEvents
    have hsub₀ : sub ∈ w₀.subscriptions := hsubs ▸ hsub
    rw [h.subscriptions] at hsub₀
    obtain ⟨hmem, hne⟩ := List.mem_filter.mp hsub₀
    rw [hevents, h.readyEvents, List.mem_filter]
    refine ⟨he, decide_eq_true ?_⟩
    rw [heq]
    exact h.apart sub hmem (by simpa using hne)
  · have hwf : w.Wf := h.wf.exec (.removeSubscription a)
    rw [hwf.delivered_wait, h.wf₀.delivered_wait]
    exact hevents

/-- Two objects with cookies of their own; the second keeps its signal. -/
theorem removal_does_not_interfere_two_cookies :
    apartRun ⟨3, 1⟩ new [.addSubscription ⟨3, 1⟩ 30 1, .addSubscription ⟨4, 1⟩ 40 1,
        .postEvent ⟨3, 1⟩ 1, .postEvent ⟨4, 1⟩ 1] = true
      ∧ delivered ((((new.run [.addSubscription ⟨3, 1⟩ 30 1, .addSubscription ⟨4, 1⟩ 40 1,
        .postEvent ⟨3, 1⟩ 1, .postEvent ⟨4, 1⟩ 1]).removeSubscription ⟨3, 1⟩).2.wait ⟨9, 1⟩).1)
        = [⟨40, 1⟩] :=
  ⟨by decide, (removal_does_not_interfere ⟨3, 1⟩ _ (by decide) ⟨9, 1⟩).2.2.trans (by decide)⟩

/-- With one cookie for both, the signal of the second is gone. -/
theorem shared_cookie_loses_signal :
    let ops : List WaitSetOp := [.addSubscription ⟨3, 1⟩ 30 1, .addSubscription ⟨4, 1⟩ 30 1,
      .postEvent ⟨4, 1⟩ 1]
    delivered (((new.run ops).removeSubscription ⟨3, 1⟩).2.wait ⟨9, 1⟩).1 = []
      ∧ delivered ((new.run (without ⟨3, 1⟩ ops)).wait ⟨9, 1⟩).1 = [⟨30, 1⟩] := by
  decide

end WaitSet

end Gaxera

import Gaxera.Core.WaitSets

/-!
# What a wait set delivers

With one cookie for each subscription the events can be read off the history. What a subscription
has coming is the union of the signals it matched since it was made, or since events were last
handed out, whichever is later; and the events stand in the order in which the first of these
signals arrived. The history is a list of steps, the newest first, so that "since" is a walk from
its head.
-/

namespace Gaxera

namespace WaitSet

/-! ## What the history says -/

/-- The steps of a run, the newest first. -/
def history (w : WaitSet) (ops : List WaitSetOp) : List WaitSetStep :=
  (ops.foldl (fun (w, past) op ↦ ((w.exec op).2, ⟨op, (w.exec op).1⟩ :: past)) (w, [])).2

/-- The signals that a subscription matched since it was made, or since events were last handed out.
-/
def gathered (sub : Subscription) : List WaitSetStep → BitVec 32
  | [] => 0
  | step :: past => if step.opens sub then 0 else gathered sub past ||| step.matched sub

/-- When the first of these signals arrived, as the number of steps before. -/
def firstArrival (sub : Subscription) : List WaitSetStep → Option ℕ
  | [] => none
  | step :: past =>
    if step.opens sub then none
    else (firstArrival sub past).or (if step.matched sub ≠ 0 then some past.length else none)

/-- **The events are those which the history tells**: one for each subscription that has something
coming, with all that it has coming, in the order of the first arrivals. -/
def Told (subscriptions : List Subscription) (past : List WaitSetStep)
    (events : List WaitSetEvent) : Prop :=
  ∃ served : List Subscription, served.Nodup
    ∧ (∀ sub, sub ∈ served ↔ sub ∈ subscriptions ∧ gathered sub past ≠ 0)
    ∧ served.Pairwise (fun sub sub' ↦
      ∀ i ∈ firstArrival sub past, ∀ j ∈ firstArrival sub' past, i < j)
    ∧ events = served.map fun sub ↦ ⟨sub.cookie, gathered sub past⟩

variable {w : WaitSet} {subscriptions : List Subscription} {past : List WaitSetStep}
  {events : List WaitSetEvent} {step : WaitSetStep} {sub : Subscription}

theorem gathered_of_quiet (h : step.Quiet sub) (past : List WaitSetStep) :
    gathered sub (step :: past) = gathered sub past := by
  rw [gathered, h.1, h.2, if_neg Bool.false_ne_true]
  exact BitVec.or_zero

theorem firstArrival_of_quiet (h : step.Quiet sub) (past : List WaitSetStep) :
    firstArrival sub (step :: past) = firstArrival sub past := by
  rw [firstArrival, h.1, h.2, if_neg Bool.false_ne_true, if_neg (by simp), Option.or_none]

theorem lt_of_firstArrival {i : ℕ} (h : i ∈ firstArrival sub past) : i < past.length := by
  induction past with
  | nil => exact absurd h (by simp [firstArrival])
  | cons step past ih =>
    rw [firstArrival] at h
    split at h
    · exact absurd h (by simp)
    · rcases Option.or_eq_some_iff.mp h with h | ⟨-, h⟩
      · exact Nat.lt_succ_of_lt (ih h)
      · split at h
        · obtain rfl := Option.some.inj h
          exact Nat.lt_succ_self _
        · exact absurd h (by simp)

/-- There is something coming exactly when something has arrived. -/
theorem gathered_ne_zero_iff (sub : Subscription) (past : List WaitSetStep) :
    gathered sub past ≠ 0 ↔ (firstArrival sub past).isSome := by
  induction past with
  | nil => simp [gathered, firstArrival]
  | cons step past ih =>
    rw [gathered, firstArrival]
    by_cases hopens : step.opens sub = true
    · simp [hopens]
    · have hor : gathered sub past ||| step.matched sub = 0
          ↔ gathered sub past = 0 ∧ step.matched sub = 0 := BitVec.or_eq_zero_iff
      rw [if_neg hopens, if_neg hopens, Option.isSome_or, Bool.or_eq_true, ← ih, Ne, hor]
      by_cases hmatched : step.matched sub = 0
      · simp [hmatched]
      · rw [if_pos hmatched, Option.isSome_some]
        exact ⟨fun _ ↦ .inr rfl, fun _ h ↦ hmatched h.2⟩

theorem told_nil (h : ∀ sub ∈ subscriptions, gathered sub past = 0) :
    Told subscriptions past [] := by
  refine ⟨[], List.nodup_nil, fun sub ↦ ?_, List.Pairwise.nil, rfl⟩
  simpa using h sub

theorem Told.quiet (h : Told subscriptions past events)
    (hquiet : ∀ sub ∈ subscriptions, step.Quiet sub) :
    Told subscriptions (step :: past) events := by
  obtain ⟨served, hnodup, hserved, hsorted, rfl⟩ := h
  have hmem : ∀ sub ∈ served, sub ∈ subscriptions := fun sub hsub ↦ ((hserved sub).mp hsub).1
  refine ⟨served, hnodup, fun sub ↦ ?_, hsorted.imp_of_mem fun {sub sub'} hsub hsub' hlt ↦ ?_, ?_⟩
  · rw [hserved]
    exact and_congr_right fun hsub ↦ by rw [gathered_of_quiet (hquiet sub hsub)]
  · rw [firstArrival_of_quiet (hquiet sub (hmem sub hsub)),
      firstArrival_of_quiet (hquiet sub' (hmem sub' hsub'))]
    exact hlt
  · exact List.map_congr_left fun sub hsub ↦ by
      rw [gathered_of_quiet (hquiet sub (hmem sub hsub))]

theorem Told.append (h : Told subscriptions past events)
    (hnothing : gathered sub past = 0) : Told (subscriptions ++ [sub]) past events := by
  obtain ⟨served, hnodup, hserved, hsorted, rfl⟩ := h
  refine ⟨served, hnodup, fun other ↦ ?_, hsorted, rfl⟩
  rw [hserved, List.mem_append, List.mem_singleton]
  constructor
  · exact fun ⟨hmem, hne⟩ ↦ ⟨.inl hmem, hne⟩
  · rintro ⟨hmem | rfl, hne⟩
    · exact ⟨hmem, hne⟩
    · exact absurd hnothing hne

theorem Told.remove (hwf : w.Wf) (hcookies : (w.subscriptions.map Subscription.cookie).Nodup)
    (hmem : sub ∈ w.subscriptions) (h : Told w.subscriptions past w.readyEvents) :
    Told (w.subscriptions.filter fun s ↦ s.object ≠ sub.object) past
      (w.readyEvents.filter fun e ↦ e.cookie ≠ sub.cookie) := by
  obtain ⟨served, hnodup, hserved, hsorted, hevents⟩ := h
  -- to differ in the object and to differ in the cookie are both to be another subscription
  have hother : ∀ s ∈ w.subscriptions, (s.object ≠ sub.object ↔ s ≠ sub)
      ∧ (s.cookie ≠ sub.cookie ↔ s ≠ sub) := fun s hs ↦
    ⟨⟨fun hne heq ↦ hne (heq ▸ rfl), fun hne ↦ (hwf.object_ne hmem hs hne).symm⟩,
      ⟨fun hne heq ↦ hne (heq ▸ rfl),
        fun hne heq ↦ hne (List.inj_on_of_nodup_map hcookies hs hmem heq)⟩⟩
  refine ⟨served.filter fun s ↦ s.object ≠ sub.object, hnodup.filter _, fun s ↦ ?_,
    hsorted.filter _, ?_⟩
  · rw [List.mem_filter, List.mem_filter, hserved]
    tauto
  · rw [hevents, List.filter_map]
    refine congrArg _ (List.filter_congr fun s hs ↦ ?_)
    have hs' := hother s ((hserved s).mp hs).1
    exact decide_eq_decide.mpr (hs'.2.trans hs'.1.symm)

/-- Merging into the events of distinct cookies changes the one event. -/
theorem mergeEvent_map {served : List Subscription}
    (g : Subscription → BitVec 32) (matched : BitVec 32)
    (hcookies : (served.map Subscription.cookie).Nodup) (hmem : sub ∈ served) :
    mergeEvent sub.cookie matched (served.map fun s ↦ ⟨s.cookie, g s⟩)
      = some (served.map fun s ↦ ⟨s.cookie, if s = sub then g s ||| matched else g s⟩) := by
  induction served with
  | nil => exact absurd hmem List.not_mem_nil
  | cons s served ih =>
    rw [List.map_cons, List.nodup_cons] at hcookies
    rw [List.map_cons, mergeEvent]
    by_cases heq : s.cookie = sub.cookie
    · -- the rest has other cookies, so it has not `sub` in it
      have hrest : ∀ s' ∈ served, s' ≠ sub := by
        rintro s' hs' rfl
        exact hcookies.1 (heq ▸ List.mem_map_of_mem hs')
      obtain rfl : sub = s := (List.mem_cons.mp hmem).resolve_right fun h ↦ hrest sub h rfl
      rw [if_pos rfl, List.map_cons, if_pos rfl]
      refine congrArg (fun rest ↦ some (_ :: rest)) (List.map_congr_left fun s' hs' ↦ ?_)
      rw [if_neg (hrest s' hs')]
    · have hne : s ≠ sub := fun h ↦ heq (h ▸ rfl)
      rw [if_neg heq, ih hcookies.2 ((List.mem_cons.mp hmem).resolve_left hne.symm), List.map_cons,
        if_neg hne]
      rfl

section Post

variable {served : List Subscription} (hmem : sub ∈ subscriptions) (hmatched : step.matched sub ≠ 0)
  (hopens : step.opens sub = false)
  (hquiet : ∀ other ∈ subscriptions, other ≠ sub → step.Quiet other) (hnodup : served.Nodup)
  (hserved : ∀ s, s ∈ served ↔ s ∈ subscriptions ∧ gathered s past ≠ 0)
  (hsorted : served.Pairwise fun s s' ↦
    ∀ i ∈ firstArrival s past, ∀ j ∈ firstArrival s' past, i < j)

include hopens in
theorem gathered_post (past : List WaitSetStep) :
    gathered sub (step :: past) = gathered sub past ||| step.matched sub := by
  rw [gathered, hopens, if_neg Bool.false_ne_true]

include hmatched hopens in
theorem gathered_post_ne_zero (past : List WaitSetStep) : gathered sub (step :: past) ≠ 0 := by
  rw [gathered_post hopens]
  exact fun hzero ↦ hmatched (BitVec.or_eq_zero_iff.mp hzero).2

include hopens in
theorem firstArrival_post (h : gathered sub past ≠ 0) :
    firstArrival sub (step :: past) = firstArrival sub past := by
  obtain ⟨i, hi⟩ := Option.isSome_iff_exists.mp ((gathered_ne_zero_iff sub past).mp h)
  rw [firstArrival, hopens, if_neg Bool.false_ne_true, hi, Option.some_or]

include hmatched hopens in
theorem firstArrival_post_of_zero (h : gathered sub past = 0) :
    firstArrival sub (step :: past) = some past.length := by
  have hnone : firstArrival sub past = none := by
    rw [← Option.not_isSome_iff_eq_none, ← gathered_ne_zero_iff]
    exact not_not.mpr h
  rw [firstArrival, hopens, if_neg Bool.false_ne_true, hnone, if_pos hmatched, Option.none_or]

include hmem hmatched hopens hquiet hnodup hserved hsorted

theorem told_merge (hin : sub ∈ served) :
    Told subscriptions (step :: past) (served.map fun s ↦
      ⟨s.cookie, if s = sub then gathered s past ||| step.matched sub else gathered s past⟩) := by
  have hsubset : ∀ s ∈ served, s ∈ subscriptions := fun s hs ↦ ((hserved s).mp hs).1
  have harrivals : ∀ s ∈ served, firstArrival s (step :: past) = firstArrival s past := by
    intro s hs
    by_cases heq : s = sub
    · rw [heq, firstArrival_post hopens ((hserved sub).mp hin).2]
    · exact firstArrival_of_quiet (hquiet s (hsubset s hs) heq) past
  refine ⟨served, hnodup, fun s ↦ ?_, hsorted.imp_of_mem fun hs hs' hlt ↦ ?_, ?_⟩
  · by_cases heq : s = sub
    · subst heq
      exact ⟨fun _ ↦ ⟨hmem, gathered_post_ne_zero hmatched hopens past⟩, fun _ ↦ hin⟩
    · rw [hserved]
      exact and_congr_right fun hs ↦ by rw [gathered_of_quiet (hquiet s hs heq)]
  · rw [harrivals _ hs, harrivals _ hs']
    exact hlt
  · refine List.map_congr_left fun s hs ↦ ?_
    by_cases heq : s = sub
    · rw [if_pos heq, heq, gathered_post hopens]
    · rw [if_neg heq, gathered_of_quiet (hquiet s (hsubset s hs) heq)]

theorem told_new (hin : sub ∉ served) :
    Told subscriptions (step :: past) ((served.map fun s ↦ ⟨s.cookie, gathered s past⟩)
      ++ [⟨sub.cookie, step.matched sub⟩]) := by
  have hne : ∀ s ∈ served, s ≠ sub := fun s hs heq ↦ hin (heq ▸ hs)
  have hquiet' : ∀ s ∈ served, step.Quiet s := fun s hs ↦
    hquiet s ((hserved s).mp hs).1 (hne s hs)
  have hzero : gathered sub past = 0 :=
    Decidable.byContradiction fun hne ↦ hin ((hserved sub).mpr ⟨hmem, hne⟩)
  refine ⟨served ++ [sub], ?_, fun s ↦ ?_, ?_, ?_⟩
  · exact hnodup.append (List.nodup_singleton sub) fun s hs hs' ↦
      hne s hs (List.mem_singleton.mp hs')
  · by_cases heq : s = sub
    · subst heq
      simp only [List.mem_append, List.mem_singleton, or_true, true_iff]
      exact ⟨hmem, gathered_post_ne_zero hmatched hopens past⟩
    · rw [List.mem_append, List.mem_singleton, or_iff_left heq, hserved]
      exact and_congr_right fun hs ↦ by rw [gathered_of_quiet (hquiet s hs heq)]
  · refine List.pairwise_append.mpr ⟨hsorted.imp_of_mem fun hs hs' hlt ↦ ?_,
      List.pairwise_singleton _ _, fun s hs s' hs' i hi j hj ↦ ?_⟩
    · rw [firstArrival_of_quiet (hquiet' _ hs), firstArrival_of_quiet (hquiet' _ hs')]
      exact hlt
    · obtain rfl := List.mem_singleton.mp hs'
      rw [firstArrival_of_quiet (hquiet' s hs)] at hi
      rw [firstArrival_post_of_zero hmatched hopens hzero] at hj
      obtain rfl : past.length = j := Option.some.inj hj
      exact lt_of_firstArrival hi
  · rw [List.map_append, List.map_singleton, gathered_post hopens, hzero]
    refine congrArg₂ _ (List.map_congr_left fun s hs ↦ ?_) (by simp)
    rw [gathered_of_quiet (hquiet' s hs)]

end Post

theorem Told.post (hcookies : (w.subscriptions.map Subscription.cookie).Nodup)
    (hmem : sub ∈ w.subscriptions) (hmatched : step.matched sub ≠ 0)
    (hopens : step.opens sub = false)
    (hquiet : ∀ other ∈ w.subscriptions, other ≠ sub → step.Quiet other)
    (hevents : mergeEvent sub.cookie (step.matched sub) w.readyEvents = some events
      ∨ sub.cookie ∉ w.pending ∧ events = w.readyEvents ++ [⟨sub.cookie, step.matched sub⟩])
    (h : Told w.subscriptions past w.readyEvents) : Told w.subscriptions (step :: past) events := by
  obtain ⟨served, hnodup, hserved, hsorted, hready⟩ := h
  have hinj : ∀ s ∈ served, ∀ s' ∈ w.subscriptions, s.cookie = s'.cookie → s = s' :=
    fun s hs s' hs' ↦ List.inj_on_of_nodup_map hcookies ((hserved s).mp hs).1 hs'
  -- with distinct cookies, the event is there if and only if the subscription is served
  have hpending : sub.cookie ∈ w.pending ↔ sub ∈ served := by
    rw [pending, hready, List.map_map]
    constructor
    · intro hcookie
      obtain ⟨s, hs, heq⟩ := List.mem_map.mp hcookie
      exact hinj s hs sub hmem heq ▸ hs
    · exact fun hin ↦ List.mem_map_of_mem (f := Subscription.cookie) hin
  rcases hevents with hevents | ⟨hnew, rfl⟩
  · have hin := hpending.mp (cookies_of_mergeEvent hevents).1
    have hcookies' : (served.map Subscription.cookie).Nodup :=
      List.Nodup.map_on (fun s hs s' hs' ↦ hinj s hs s' ((hserved s').mp hs').1) hnodup
    rw [hready, mergeEvent_map _ _ hcookies' hin] at hevents
    obtain rfl := Option.some.inj hevents
    exact told_merge hmem hmatched hopens hquiet hnodup hserved hsorted hin
  · rw [hready]
    exact told_new hmem hmatched hopens hquiet hnodup hserved hsorted fun hin ↦
      hnew (hpending.mpr hin)

/-- **One step.** What the history tells stays told. -/
theorem Told.moves {w' : WaitSet} (hwf : w.Wf)
    (hcookies : (w.subscriptions.map Subscription.cookie).Nodup)
    (h : Told w.subscriptions past w.readyEvents) (hmoves : w.Moves step w') :
    Told w'.subscriptions (step :: past) w'.readyEvents := by
  cases hmoves with
  | rests hsubs hevents _ hquiet =>
    rw [hsubs, hevents]
    exact h.quiet hquiet
  | adds _ _ _ hsubs hevents _ hopens hquiet =>
    rw [hsubs, hevents]
    exact (h.quiet hquiet).append (if_pos hopens)
  | removes hmem _ hsubs hevents _ hquiet =>
    rw [hsubs, hevents]
    exact (h.quiet hquiet).remove hwf hcookies hmem
  | posts hmem _ hsubs hmatched hopens hevents _ hquiet =>
    rw [hsubs]
    exact h.post hcookies hmem hmatched hopens hquiet hevents
  | takes _ hsubs hevents _ hopens =>
    rw [hevents]
    exact told_nil fun sub _ ↦ if_pos (hopens sub)
  | closes hsubs hevents =>
    rw [hsubs, hevents]
    exact told_nil fun sub hsub ↦ absurd hsub List.not_mem_nil

/-! ## Every run -/

end WaitSet

end Gaxera

import Gaxera.Ipc.Endpoint

/-!
# No caller is lost, and none is served twice

The ledger is kept by an observer of the endpoint, who sees the operations and their answers and
nothing of the state: it has a record for each call that was accepted, with the messages that have
been handed out for it and the events that have finished it. An answer that names a caller is put
down to the newest call of that caller, finished or not, so that a second answer for one call would
show.

`Balanced` compares the ledger with the endpoint. It says of each caller that the endpoint has it in
as many places as it has unfinished calls, and every step keeps it, provided no thread calls while
it has an unfinished call. Then a record has one finish, or is in one place.
-/

namespace Gaxera

open Endpoint

/-- How a call can be finished. -/
inductive Finish
  | replied
  | cancelled
  | terminated
  | closed
deriving DecidableEq, Repr

structure CallRecord where
  caller : ObjectId
  message : InlineMessage
  handedOut : List InlineMessage
  finishes : List Finish
deriving DecidableEq, Repr

namespace CallRecord

def hand (m : InlineMessage) (r : CallRecord) : CallRecord :=
  { r with handedOut := r.handedOut ++ [m] }

def finish (k : Finish) (r : CallRecord) : CallRecord := { r with finishes := r.finishes ++ [k] }

end CallRecord

/-- The records of the accepted calls, the newest first. -/
abbrev Ledger := List CallRecord

namespace Ledger

def onNewest (c : ObjectId) (f : CallRecord → CallRecord) : Ledger → Ledger
  | [] => []
  | r :: ledger => if r.caller = c then f r :: ledger else r :: onNewest c f ledger

/-- The unfinished calls of a thread are rewritten. -/
def onUnfinished (c : ObjectId) (f : CallRecord → CallRecord) (ledger : Ledger) : Ledger :=
  ledger.map fun r ↦ if r.caller = c ∧ r.finishes = [] then f r else r

/-- Whether a thread has an unfinished call. -/
def unfinished (c : ObjectId) (ledger : Ledger) : Bool :=
  ledger.any fun r ↦ r.caller = c ∧ r.finishes = []

/-- A thread with an unfinished call issues no second one. -/
def allows (ledger : Ledger) : EndpointOp → Bool
  | .call c _ => !ledger.unfinished c
  | _ => true

/-- What the observer makes of an operation and its answer. -/
def record (ledger : Ledger) : EndpointOp → EndpointResult → Ledger
  | .call c m, .called (.ok _) => ⟨c, m, [], []⟩ :: ledger
  | .receive _, .received (some (.ok (.ok call))) =>
    onNewest call.caller (.hand call.message) ledger
  | .takeReceivedCall, .taken (some call) => onNewest call.caller (.hand call.message) ledger
  | .reply _ _, .replied (.ok (.wake c)) => onNewest c (.finish .replied) ledger
  | .cancelCaller c, .cancelled true => onNewest c (.finish .cancelled) ledger
  | .notifyThreadTerminated c, .notified _ => onUnfinished c (.finish .terminated) ledger
  | .close, .closed woke =>
    -- Listed once, a call is finished once; listed twice, it would be finished twice.
    ledger.map fun r ↦
      if r.finishes = [] then { r with finishes := List.replicate (woke.count r.caller) .closed }
      else r
  | _, _ => ledger

end Ledger

namespace Endpoint

/-- The ledger of a run. -/
def ledger (e : Endpoint) (ledger₀ : Ledger) : List EndpointOp → Ledger
  | [] => ledger₀
  | op :: ops => ledger (e.exec op).2 (ledger₀.record op (e.exec op).1) ops

/-- In the run no thread calls while it has an unfinished call. -/
def polite (e : Endpoint) (ledger₀ : Ledger) : List EndpointOp → Bool
  | [] => true
  | op :: ops =>
    ledger₀.allows op && polite (e.exec op).2 (ledger₀.record op (e.exec op).1) ops

/-- How often a thread is in the queue. -/
def queued (e : Endpoint) (c : ObjectId) : ℕ := e.queue.countP fun x ↦ x.caller = c

/-- Whether a thread is the caller in service, as a number. -/
def served (e : Endpoint) (c : ObjectId) : ℕ :=
  if e.service.any fun s ↦ s.caller = c then 1 else 0

/-- The calls whose message has not been handed out, in order. -/
def backlog (e : Endpoint) : List CallerEntry := e.untaken ++ e.queue

end Endpoint

/-! ## The ledger against the endpoint -/

open Endpoint in
structure Balanced (e : Endpoint) (ledger : Ledger) : Prop where
  /-- A thread has called again only when its calls were finished. -/
  older : ledger.Pairwise fun r r' ↦ r.caller = r'.caller → r'.finishes.length = 1
  finishes : ∀ r ∈ ledger, r.finishes.length ≤ 1
  present : ∀ c, e.queued c + e.served c = if ledger.unfinished c then 1 else 0
  handed : ∀ r ∈ ledger, r.handedOut = [] ∨ r.handedOut = [r.message]
  waiting : ∀ r ∈ ledger, r.finishes = [] → ∀ x ∈ e.backlog, x.caller = r.caller →
    x.message = r.message ∧ r.handedOut = []

namespace Ledger

variable {ledger : Ledger} {c c' : ObjectId} {f : CallRecord → CallRecord}

theorem unfinished_iff :
    ledger.unfinished c = true ↔ ∃ r ∈ ledger, r.caller = c ∧ r.finishes = [] := by
  simp [unfinished]

/-- The newest call of a thread that has an unfinished one is the unfinished one. -/
theorem onNewest_eq
    (h : ledger.Pairwise fun r r' ↦ r.caller = r'.caller → r'.finishes.length = 1)
    (hc : ledger.unfinished c = true) : ledger.onNewest c f = ledger.onUnfinished c f := by
  induction ledger with
  | nil => rfl
  | cons r ledger ih =>
    obtain ⟨hhead, htail⟩ := List.pairwise_cons.mp h
    rw [onNewest, onUnfinished, List.map_cons]
    by_cases hr : r.caller = c
    · -- The older calls of the thread are finished, so this is the one.
      have holder : ∀ r' ∈ ledger, ¬ (r'.caller = c ∧ r'.finishes = []) := by
        rintro r' hmem ⟨hr', hnil⟩
        have := hhead r' hmem (hr.trans hr'.symm)
        simp [hnil] at this
      have hfin : r.finishes = [] := by
        obtain ⟨r', hmem, hr', hnil⟩ := unfinished_iff.mp hc
        rcases List.mem_cons.mp hmem with rfl | hmem
        · exact hnil
        · exact absurd ⟨hr', hnil⟩ (holder r' hmem)
      rw [if_pos hr, if_pos ⟨hr, hfin⟩]
      refine congrArg (f r :: ·) ?_
      rw [List.map_congr_left fun r' hmem ↦ if_neg (holder r' hmem), List.map_id']
    · rw [if_neg hr, if_neg fun hand ↦ hr hand.1]
      refine congrArg (r :: ·) (ih htail ?_)
      obtain ⟨r', hmem, hr', hnil⟩ := unfinished_iff.mp hc
      rcases List.mem_cons.mp hmem with rfl | hmem
      · exact absurd hr' hr
      · exact unfinished_iff.mpr ⟨r', hmem, hr', hnil⟩

theorem mem_onUnfinished {r : CallRecord} : r ∈ ledger.onUnfinished c f ↔
    (∃ r₀ ∈ ledger, r₀.caller = c ∧ r₀.finishes = [] ∧ f r₀ = r)
      ∨ r ∈ ledger ∧ ¬ (r.caller = c ∧ r.finishes = []) := by
  rw [onUnfinished, List.mem_map]
  constructor
  · rintro ⟨r₀, hmem, rfl⟩
    by_cases hr : r₀.caller = c ∧ r₀.finishes = []
    · exact .inl ⟨r₀, hmem, hr.1, hr.2, (if_pos hr).symm⟩
    · rw [if_neg hr]
      exact .inr ⟨hmem, hr⟩
  · rintro (⟨r₀, hmem, hr, hnil, rfl⟩ | ⟨hmem, hr⟩)
    · exact ⟨r₀, hmem, if_pos ⟨hr, hnil⟩⟩
    · exact ⟨r, hmem, if_neg hr⟩

theorem pairwise_onUnfinished (hf : ∀ r, (f r).caller = r.caller)
    (h : ledger.Pairwise fun r r' ↦ r.caller = r'.caller → r'.finishes.length = 1) :
    (ledger.onUnfinished c f).Pairwise fun r r' ↦
      r.caller = r'.caller → r'.finishes.length = 1 := by
  have hcaller : ∀ r : CallRecord,
      (if r.caller = c ∧ r.finishes = [] then f r else r).caller = r.caller := by
    intro r
    split
    · exact hf r
    · rfl
  rw [onUnfinished, List.pairwise_map]
  refine h.imp fun {r r'} hrr heq ↦ ?_
  have hone := hrr (by rwa [hcaller, hcaller] at heq)
  rw [if_neg]
  · exact hone
  · rintro ⟨-, hnil⟩
    simp [hnil] at hone

end Ledger

namespace Balanced

variable {e e' : Endpoint} {ledger : Ledger} {c : ObjectId} {m : InlineMessage} {x : CallerEntry}

theorem new : Balanced Endpoint.new [] where
  older := .nil
  finishes := nofun
  present _ := rfl
  handed := nofun
  waiting := nofun

theorem same (h : Balanced e ledger)
    (hpresent : ∀ c, e'.queued c + e'.served c = e.queued c + e.served c)
    (hbacklog : ∀ x ∈ e'.backlog, x ∈ e.backlog) : Balanced e' ledger where
  older := h.older
  finishes := h.finishes
  present c := (hpresent c).trans (h.present c)
  handed := h.handed
  waiting r hr hnil x hx := h.waiting r hr hnil x (hbacklog x hx)

theorem call (h : Balanced e ledger) (hc : ledger.unfinished c = false)
    (hpresent : ∀ c', e'.queued c' + e'.served c'
      = e.queued c' + e.served c' + if c' = c then 1 else 0)
    (hbacklog : ∀ x ∈ e'.backlog, x ∈ e.backlog ∧ x.caller ≠ c ∨ x = ⟨c, m⟩) :
    Balanced e' (⟨c, m, [], []⟩ :: ledger) where
  older := by
    refine List.pairwise_cons.mpr ⟨fun r hr heq ↦ ?_, h.older⟩
    -- A call of the thread that is there already is finished.
    have hle := h.finishes r hr
    have hne : r.finishes ≠ [] := by
      intro hnil
      have : ledger.unfinished c = true := Ledger.unfinished_iff.mpr ⟨r, hr, heq.symm, hnil⟩
      simp [hc] at this
    have := List.length_pos_iff.mpr hne
    omega
  finishes := List.forall_mem_cons.mpr ⟨Nat.zero_le _, h.finishes⟩
  present c' := by
    have hcons : Ledger.unfinished c' (⟨c, m, [], []⟩ :: ledger)
        = (decide (c' = c) || ledger.unfinished c') := by
      simp [Ledger.unfinished, eq_comm]
    rw [hpresent, h.present, hcons]
    by_cases hcc : c' = c
    · subst hcc
      simp [hc]
    · simp [hcc]
  handed := List.forall_mem_cons.mpr ⟨Or.inl rfl, h.handed⟩
  waiting := by
    refine List.forall_mem_cons.mpr ⟨fun _ x hx hxc ↦ ?_, fun r hr hnil x hx hxr ↦ ?_⟩
    · rcases hbacklog x hx with ⟨-, hne⟩ | rfl
      · exact absurd hxc hne
      · exact ⟨rfl, rfl⟩
    · rcases hbacklog x hx with ⟨hold, -⟩ | rfl
      · exact h.waiting r hr hnil x hold hxr
      · have : ledger.unfinished c = true := Ledger.unfinished_iff.mpr ⟨r, hr, hxr.symm, hnil⟩
        simp [hc] at this

/-- **A call is finished** when its thread has left the endpoint. -/
theorem finish (h : Balanced e ledger) (k : Finish) (hgone : e'.queued c + e'.served c = 0)
    (hothers : ∀ c' ≠ c, e'.queued c' + e'.served c' = e.queued c' + e.served c')
    (hbacklog : ∀ x ∈ e'.backlog, x ∈ e.backlog) :
    Balanced e' (ledger.onUnfinished c (.finish k)) where
  older := Ledger.pairwise_onUnfinished (fun _ ↦ rfl) h.older
  finishes r hr := by
    rcases Ledger.mem_onUnfinished.mp hr with ⟨r₀, -, -, hnil, rfl⟩ | ⟨hr, -⟩
    · simp [CallRecord.finish, hnil]
    · exact h.finishes r hr
  present c' := by
    have hiff : (ledger.onUnfinished c (.finish k)).unfinished c' = true
        ↔ c' ≠ c ∧ ledger.unfinished c' = true := by
      rw [Ledger.unfinished_iff, Ledger.unfinished_iff]
      constructor
      · rintro ⟨r, hr, hrc, hnil⟩
        rcases Ledger.mem_onUnfinished.mp hr with ⟨r₀, -, -, -, rfl⟩ | ⟨hr, hnot⟩
        · simp [CallRecord.finish] at hnil
        · refine ⟨?_, r, hr, hrc, hnil⟩
          rintro rfl
          exact hnot ⟨hrc, hnil⟩
      · rintro ⟨hne, r, hr, rfl, hnil⟩
        exact ⟨r, Ledger.mem_onUnfinished.mpr (Or.inr ⟨hr, fun hc ↦ hne hc.1⟩), rfl, hnil⟩
    by_cases hcc : c' = c
    · subst hcc
      rw [hgone, if_neg fun hu ↦ (hiff.mp hu).1 rfl]
    · rw [hothers c' hcc, h.present]
      simp only [hiff, hcc, ne_eq, not_false_iff, true_and]
  handed r hr := by
    rcases Ledger.mem_onUnfinished.mp hr with ⟨r₀, hr₀, -, -, rfl⟩ | ⟨hr, -⟩
    · exact h.handed r₀ hr₀
    · exact h.handed r hr
  waiting r hr hnil x hx hxr := by
    rcases Ledger.mem_onUnfinished.mp hr with ⟨r₀, -, -, -, rfl⟩ | ⟨hr, -⟩
    · simp [CallRecord.finish] at hnil
    · exact h.waiting r hr hnil x (hbacklog x hx) hxr

/-- **A message is handed out** when its call was waiting, and is not waiting any more. -/
theorem hand (h : Balanced e ledger) (hx : x ∈ e.backlog)
    (hpresent : ∀ c, e'.queued c + e'.served c = e.queued c + e.served c)
    (hbacklog : ∀ y ∈ e'.backlog, y ∈ e.backlog ∧ y.caller ≠ x.caller) :
    Balanced e' (ledger.onUnfinished x.caller (.hand x.message)) where
  older := Ledger.pairwise_onUnfinished (fun _ ↦ rfl) h.older
  finishes r hr := by
    rcases Ledger.mem_onUnfinished.mp hr with ⟨r₀, hr₀, -, -, rfl⟩ | ⟨hr, -⟩
    · exact h.finishes r₀ hr₀
    · exact h.finishes r hr
  present c' := by
    have hiff : (ledger.onUnfinished x.caller (.hand x.message)).unfinished c' = true
        ↔ ledger.unfinished c' = true := by
      rw [Ledger.unfinished_iff, Ledger.unfinished_iff]
      constructor
      · rintro ⟨r, hr, hrc, hnil⟩
        rcases Ledger.mem_onUnfinished.mp hr with ⟨r₀, hr₀, -, -, rfl⟩ | ⟨hr, -⟩
        · exact ⟨r₀, hr₀, hrc, hnil⟩
        · exact ⟨r, hr, hrc, hnil⟩
      · rintro ⟨r, hr, hrc, hnil⟩
        by_cases hrx : r.caller = x.caller
        · exact ⟨r.hand x.message,
            Ledger.mem_onUnfinished.mpr (Or.inl ⟨r, hr, hrx, hnil, rfl⟩), hrc, hnil⟩
        · exact ⟨r, Ledger.mem_onUnfinished.mpr (Or.inr ⟨hr, fun hc ↦ hrx hc.1⟩), hrc, hnil⟩
    rw [hpresent, h.present]
    simp only [hiff]
  handed r hr := by
    rcases Ledger.mem_onUnfinished.mp hr with ⟨r₀, hr₀, hrx, hnil, rfl⟩ | ⟨hr, -⟩
    · obtain ⟨hmsg, hnone⟩ := h.waiting r₀ hr₀ hnil x hx hrx.symm
      right
      simp [CallRecord.hand, hnone, hmsg]
    · exact h.handed r hr
  waiting r hr hnil y hy hyr := by
    obtain ⟨hold, hne⟩ := hbacklog y hy
    rcases Ledger.mem_onUnfinished.mp hr with ⟨r₀, -, hrx, -, rfl⟩ | ⟨hr, -⟩
    · exact absurd (hyr.trans hrx) hne
    · exact h.waiting r hr hnil y hold hyr

theorem present_le (h : Balanced e ledger) (c : ObjectId) : e.queued c + e.served c ≤ 1 := by
  rw [h.present]
  split <;> omega

theorem unfinished_of_pos (h : Balanced e ledger) (hpos : 0 < e.queued c + e.served c) :
    ledger.unfinished c = true := by
  by_contra hc
  rw [h.present, if_neg hc] at hpos
  exact absurd hpos (Nat.lt_irrefl 0)

end Balanced

namespace Endpoint

variable {e e' : Endpoint} {c : ObjectId} {x : CallerEntry}

theorem queued_pos (hx : x ∈ e.queue) : 0 < e.queued x.caller :=
  List.countP_pos_iff.mpr ⟨x, hx, by simp⟩

theorem served_eq_one {s : Service} (hs : e.service = some s) : e.served s.caller = 1 := by
  simp [served, hs]

theorem pos_of_mem_backlog (hx : x ∈ e.backlog) : 0 < e.queued x.caller + e.served x.caller := by
  rcases List.mem_append.mp hx with hx | hx
  · rw [Endpoint.untaken, Option.mem_toList, Option.bind_eq_some_iff] at hx
    obtain ⟨s, hs, hm⟩ := hx
    obtain ⟨m, -, rfl⟩ := Option.map_eq_some_iff.mp hm
    have := served_eq_one hs
    dsimp only
    omega
  · have := queued_pos hx
    omega

theorem countP_without (c c' : ObjectId) (l : List CallerEntry) :
    (without c l).countP (fun x ↦ x.caller = c')
      = if c' = c then 0 else l.countP fun x ↦ x.caller = c' := by
  rw [without, List.countP_filter]
  by_cases hcc : c' = c
  · subst hcc
    rw [if_pos rfl, List.countP_eq_zero]
    simp
  · rw [if_neg hcc]
    refine List.countP_congr fun x _ ↦ ?_
    simp only [Bool.and_eq_true, decide_eq_true_eq]
    exact ⟨fun h ↦ h.1, fun h ↦ ⟨h, fun hx ↦ hcc (h.symm.trans hx)⟩⟩

end Endpoint

/-! ## The steps -/

theorem Ledger.record_of_isRefusal {ledger : Ledger} {op : EndpointOp} {result : EndpointResult}
    (h : result.IsRefusal) : ledger.record op result = ledger := by
  cases h with
  | called | received | taken | replied => cases op <;> rfl

namespace Balanced

variable {e e' : Endpoint} {ledger : Ledger} {c : ObjectId}

theorem unserve {s : Service} (h : Balanced e ledger) (hs : e.service = some s) (k : Finish)
    (hqueue : e'.queue = e.queue) (hservice : e'.service = none) :
    Balanced e' (ledger.onUnfinished s.caller (.finish k)) := by
  have hone := served_eq_one hs
  have hle := h.present_le s.caller
  have hnone : ∀ c, e'.served c = 0 := fun c ↦ by simp [served, hservice]
  have hq : ∀ c, e'.queued c = e.queued c := fun c ↦ by
    rw [queued, hqueue, queued]
  refine h.finish k ?_ (fun c' hc' ↦ ?_) fun x hx ↦ ?_
  · rw [hq, hnone]
    omega
  · have hzero : e.served c' = 0 := by simp [served, hs, Ne.symm hc']
    rw [hq, hnone, hzero]
  · rw [backlog, untaken, hservice, hqueue] at hx
    exact List.mem_append_right _ hx

theorem unqueue (h : Balanced e ledger) (k : Finish) (hserved : e.served c = 0)
    (hqueue : e'.queue = without c e.queue) (hservice : e'.service = e.service) :
    Balanced e' (ledger.onUnfinished c (.finish k)) := by
  have hs : ∀ c, e'.served c = e.served c := fun c ↦ by
    rw [served, hservice, served]
  have hq : ∀ c', e'.queued c' = if c' = c then 0 else e.queued c' := fun c' ↦ by
    rw [queued, hqueue, countP_without, queued]
  refine h.finish k ?_ (fun c' hc' ↦ ?_) fun x hx ↦ ?_
  · rw [hq, if_pos rfl, hs, hserved]
  · rw [hq, if_neg hc', hs]
  · rw [backlog, untaken, hservice, hqueue] at hx
    rcases List.mem_append.mp hx with hx | hx
    · exact List.mem_append_left _ hx
    · exact List.mem_append_right _ (List.mem_filter.mp hx).1

theorem close (h : Balanced e ledger) (hqueue : e'.queue = []) (hservice : e'.service = none) :
    Balanced e' (ledger.record .close (.closed ((e.service.map Service.caller).toList
      ++ (e.queue.map CallerEntry.caller ++ e.receiver.toList)))) := by
  set woke := (e.service.map Service.caller).toList
    ++ (e.queue.map CallerEntry.caller ++ e.receiver.toList) with hwoke
  have hcount : ∀ r ∈ ledger, r.finishes = [] → woke.count r.caller = 1 := by
    intro r hr hnil
    have hpresent := h.present r.caller
    rw [if_pos (Ledger.unfinished_iff.mpr ⟨r, hr, rfl, hnil⟩)] at hpresent
    -- While a call is unfinished no receiver waits.
    have hreceiver : e.receiver = none := by
      cases hrec : e.receiver with
      | none => rfl
      | some t =>
        obtain ⟨hq, hs⟩ := of_receiver hrec
        simp [queued, served, hq, hs] at hpresent
    have hserved : (e.service.map Service.caller).toList.count r.caller = e.served r.caller := by
      cases hs : e.service with
      | none => simp [served, hs]
      | some s => simp [served, hs, List.count_singleton]
    have hqueued : (e.queue.map CallerEntry.caller).count r.caller = e.queued r.caller := by
      rw [List.count, List.countP_map, queued]
      refine List.countP_congr fun x _ ↦ ?_
      simp
    rw [hwoke, List.count_append, List.count_append, hreceiver, hserved, hqueued,
      Option.toList_none, List.count_nil]
    omega
  have hmem : ∀ r ∈ ledger.record .close (.closed woke),
      ∃ r₀ ∈ ledger, r.caller = r₀.caller ∧ r.message = r₀.message ∧ r.handedOut = r₀.handedOut
        ∧ r.finishes.length = 1 := by
    intro r hr
    obtain ⟨r₀, hr₀, rfl⟩ := List.mem_map.mp hr
    by_cases hnil : r₀.finishes = []
    · rw [if_pos hnil]
      exact ⟨r₀, hr₀, rfl, rfl, rfl, by simp [hcount r₀ hr₀ hnil]⟩
    · rw [if_neg hnil]
      have hle := h.finishes r₀ hr₀
      have hpos := List.length_pos_iff.mpr hnil
      exact ⟨r₀, hr₀, rfl, rfl, rfl, by omega⟩
  constructor
  · refine List.pairwise_of_forall_mem_list fun r _ r' hr' _ ↦ ?_
    obtain ⟨-, -, -, -, -, hone⟩ := hmem r' hr'
    exact hone
  · intro r hr
    obtain ⟨-, -, -, -, -, hone⟩ := hmem r hr
    exact Nat.le_of_eq hone
  · intro c
    have hfin : ¬ (ledger.record .close (.closed woke)).unfinished c = true := by
      rw [Ledger.unfinished_iff]
      rintro ⟨r, hr, -, hnil⟩
      obtain ⟨-, -, -, -, -, hone⟩ := hmem r hr
      simp [hnil] at hone
    rw [if_neg hfin]
    simp [queued, served, hqueue, hservice]
  · intro r hr
    obtain ⟨r₀, hr₀, -, hmsg, hhand, -⟩ := hmem r hr
    rw [hhand, hmsg]
    exact h.handed r₀ hr₀
  · intro r _ _ x hx
    simp [backlog, untaken, hqueue, hservice] at hx

/-- **One step** keeps the ledger in balance, if it is no call of a thread that has an unfinished
call. -/
theorem step {op : EndpointOp} {result : EndpointResult} (h : Balanced e ledger)
    (hstep : e.Step op result e')
    (hpolite : ∀ c m, op = .call c m → ledger.unfinished c = false) :
    Balanced e' (ledger.record op result) := by
  cases hstep with
  | refused refusal =>
    rw [Ledger.record_of_isRefusal refusal]
    exact h
  | @queued c m _ is_open room alone reads =>
    have hc := hpolite c m rfl
    have hnew : ∀ x ∈ e.backlog, x.caller ≠ c := by
      rintro x hx rfl
      have := h.unfinished_of_pos (pos_of_mem_backlog hx)
      rw [hc] at this
      cases this
    refine h.call hc (fun c' ↦ ?_) fun x hx ↦ ?_
    · rw [queued, served, reads.queue, reads.service, List.countP_append,
        List.countP_singleton, queued, served]
      simp only [decide_eq_true_eq, @eq_comm _ c c']
      omega
    · rw [backlog, untaken, reads.queue, reads.service, ← List.append_assoc,
        List.mem_append, List.mem_singleton] at hx
      exact hx.imp_left fun hx ↦ ⟨hx, hnew x hx⟩
  | @met c r m _ waiting empty free reads =>
    have hc := hpolite c m rfl
    refine h.call hc (fun c' ↦ ?_) fun x hx ↦ ?_
    · simp only [queued, served, reads.queue, reads.service, empty, free]
      simp [eq_comm]
    · right
      simpa [backlog, untaken, reads.queue, reads.service] using hx
  | waits empty free alone reads =>
    refine h.same (fun c ↦ ?_) fun x hx ↦ ?_
    · rw [queued, served, reads.queue, reads.service, queued,
        served, empty, free]
    · simp [backlog, untaken, reads.queue, reads.service] at hx
  | @received r x rest _ first free alone reads =>
    have hmem : x ∈ e.queue := first ▸ List.mem_cons_self
    have hpos := queued_pos hmem
    have hpresent := h.present_le x.caller
    have hunfinished : ledger.unfinished x.caller = true := h.unfinished_of_pos (by omega)
    rw [Ledger.record, Ledger.onNewest_eq h.older hunfinished]
    refine h.hand (List.mem_append_right _ hmem) (fun c ↦ ?_) fun y hy ↦ ?_
    · simp only [queued, served, reads.queue, reads.service, first, free,
        List.countP_cons]
      simp
    · have hy : y ∈ rest := by
        simpa [backlog, untaken, reads.queue, reads.service] using hy
      refine ⟨List.mem_append_right _ (first ▸ List.mem_cons_of_mem _ hy), fun hyx ↦ ?_⟩
      -- Twice in the queue is one place too many.
      have htwo : 0 < rest.countP fun z ↦ z.caller = x.caller :=
        List.countP_pos_iff.mpr ⟨y, hy, by simp [hyx]⟩
      have hcount : e.queued x.caller = rest.countP (fun z ↦ z.caller = x.caller) + 1 := by
        rw [queued, first, List.countP_cons]
        simp
      omega
  | @taken c t m _ serves reads =>
    have hone : e.served c = 1 := served_eq_one serves
    have hpresent := h.present_le c
    rw [Ledger.record, Ledger.onNewest_eq h.older (h.unfinished_of_pos (by dsimp only; omega))]
    have hmem : (⟨c, m⟩ : CallerEntry) ∈ e.backlog := by
      simp [backlog, untaken, serves]
    refine h.hand hmem (fun c' ↦ ?_) fun y hy ↦ ?_
    · simp only [queued, served, reads.queue, reads.service, serves,
        Option.any_some]
    · have hy : y ∈ e.queue := by
        simpa [backlog, untaken, reads.queue, reads.service] using hy
      refine ⟨List.mem_append_right _ hy, fun hyc ↦ ?_⟩
      have hpos := queued_pos hy
      rw [hyc] at hpos
      dsimp only at hpos
      omega
  | @replied c t o m _ serves reads =>
    have hone : e.served c = 1 := served_eq_one serves
    rw [Ledger.record, Ledger.onNewest_eq h.older (h.unfinished_of_pos (by omega))]
    exact h.unserve serves .replied reads.queue reads.service
  | @cancelled c _ reads =>
    cases hany : e.queue.any fun x ↦ x.caller = c with
    | true =>
      obtain ⟨x, hx, hxc⟩ := List.any_eq_true.mp hany
      obtain rfl : x.caller = c := by simpa using hxc
      have hpos := queued_pos hx
      have hpresent := h.present_le x.caller
      rw [Ledger.record, Ledger.onNewest_eq h.older (h.unfinished_of_pos (by omega))]
      exact h.unqueue .cancelled (by omega) reads.queue reads.service
    | false =>
      have hsame : without c e.queue = e.queue := by
        refine List.filter_eq_self.mpr fun x hx ↦ ?_
        simpa using List.any_eq_false.mp hany x hx
      refine h.same (fun c' ↦ ?_) fun x hx ↦ ?_
      · rw [queued, served, reads.queue, reads.service, hsame, queued,
          served]
      · rwa [backlog, untaken, reads.queue, reads.service, hsame] at hx
  | orphaned serves reads => exact h.unserve serves .terminated reads.queue reads.service
  | @terminated c _ other reads =>
    refine h.unqueue .terminated ?_ reads.queue reads.service
    cases hs : e.service with
    | none => simp [served, hs]
    | some s => simp [served, hs, other s hs]
  | closed reads => exact h.close reads.queue reads.service

end Balanced

/-! ## Runs -/

namespace Endpoint

variable {e : Endpoint} {ledger₀ : Ledger}

/-- **A run** keeps the ledger in balance. -/
theorem Wf.balanced (h : e.Wf) (hb : Balanced e ledger₀) {ops : List EndpointOp}
    (hpolite : e.polite ledger₀ ops = true) : Balanced (e.run ops) (e.ledger ledger₀ ops) := by
  induction ops generalizing e ledger₀ with
  | nil => exact hb
  | cons op ops ih =>
    rw [polite, Bool.and_eq_true] at hpolite
    obtain ⟨hwf, hstep⟩ := h.exec op
    refine ih hwf (hb.step hstep ?_) hpolite.2
    rintro c m rfl
    simpa [Ledger.allows] using hpolite.1

/-- **The rendezvous loses no caller and serves none twice.** In a run in which no thread calls
while it has an unfinished call, each accepted call is in exactly one place: in the queue, or in
service, or finished by exactly one event. Its message has been handed out at most once. A call that
is refused leaves the endpoint as it is. -/
theorem rendezvous_conserves_callers (ops : List EndpointOp)
    (hpolite : Endpoint.new.polite [] ops = true) :
    let e := Endpoint.new.run ops
    (∀ newer r older, Endpoint.new.ledger [] ops = newer ++ r :: older →
      (if newer.any (fun r' ↦ r'.caller = r.caller) then 0
        else e.queued r.caller + e.served r.caller) + r.finishes.length = 1
      ∧ (r.handedOut = [] ∨ r.handedOut = [r.message]))
    ∧ ∀ c m err, (e.call c m).1 = .error err → (e.call c m).2 = e := by
  intro e
  have hb : Balanced e (Endpoint.new.ledger [] ops) := wf_new.balanced .new hpolite
  refine ⟨fun newer r older hledger ↦ ?_, fun c m err herr ↦ ?_⟩
  · have hmem : r ∈ Endpoint.new.ledger [] ops := by
      rw [hledger]
      exact List.mem_append_right _ List.mem_cons_self
    refine ⟨?_, hb.handed r hmem⟩
    have hle := hb.finishes r hmem
    have hpairs := hb.older
    rw [hledger, List.pairwise_append] at hpairs
    by_cases hnewer : newer.any (fun r' ↦ r'.caller = r.caller) = true
    · -- The thread has called again since, so this call was finished by then.
      obtain ⟨r', hr', heq⟩ := List.any_eq_true.mp hnewer
      rw [if_pos hnewer, hpairs.2.2 r' hr' r List.mem_cons_self (by simpa using heq)]
    · rw [if_neg hnewer, hb.present]
      have hunfinished : (Endpoint.new.ledger [] ops).unfinished r.caller = true
          ↔ r.finishes = [] := by
        rw [Ledger.unfinished_iff]
        constructor
        · rintro ⟨r', hr', heq, hnil⟩
          rw [hledger, List.mem_append, List.mem_cons] at hr'
          rcases hr' with hr' | rfl | hr'
          · exact absurd (List.any_eq_true.mpr ⟨r', hr', by simpa using heq⟩) hnewer
          · exact hnil
          · have := (List.pairwise_cons.mp hpairs.2.1).1 r' hr' heq.symm
            simp [hnil] at this
        · exact fun hnil ↦ ⟨r, hmem, rfl, hnil⟩
      simp only [hunfinished]
      by_cases hnil : r.finishes = []
      · simp [hnil]
      · have := List.length_pos_iff.mpr hnil
        rw [if_neg hnil]
        omega
  · have hstep : Step e (.call c m) (.called (e.call c m).1) (e.call c m).2 :=
      ((wf_new.run ops).call c m).2
    rw [herr] at hstep
    generalize (e.call c m).2 = e' at hstep
    cases hstep with
    | refused => rfl

/-- Two callers and a server. The first call meets the waiting server, is taken and answered; the
second one is queued behind it, is received, and its caller terminates; the first caller calls
again. -/
def twoCallers : List EndpointOp :=
  [.receive ⟨9, 1⟩, .call ⟨5, 1⟩ ⟨[1]⟩, .takeReceivedCall, .call ⟨6, 1⟩ ⟨[2]⟩,
   .reply (tokenFor ⟨5, 1⟩ 1) ⟨[]⟩, .receive ⟨9, 1⟩, .notifyThreadTerminated ⟨6, 1⟩,
   .call ⟨5, 1⟩ ⟨[3]⟩]

theorem rendezvous_of_twoCallers : Endpoint.new.polite [] twoCallers = true
    ∧ ∀ newer r older, Endpoint.new.ledger [] twoCallers = newer ++ r :: older →
      (if newer.any (fun r' ↦ r'.caller = r.caller) then 0
        else (Endpoint.new.run twoCallers).queued r.caller
          + (Endpoint.new.run twoCallers).served r.caller) + r.finishes.length = 1 :=
  ⟨by decide, fun newer r older h ↦
    ((rendezvous_conserves_callers twoCallers (by decide)).1 newer r older h).1⟩

end Endpoint

end Gaxera

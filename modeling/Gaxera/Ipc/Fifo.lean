import Gaxera.Ipc.Rendezvous
import Gaxera.Ipc.ReplyTokens

/-!
# Calls are served in the order in which they were accepted

The log lists the accepted calls in order, each with its fate. A call that is queued, or has been
assigned to a waiting receiver, is waiting; it leaves by being delivered, by being removed with its
caller, or by the endpoint being closed. There is one more way, which only the assigned call can go:
a reply finishes it whether or not its message has been taken, and then it is never delivered.

`Logged` ties the log to the endpoint in one equation: what has not been removed or answered is, in
order, what has been delivered, what is assigned, what is queued, and what the closing left behind.
If no reply comes before the message in service has been taken, no call is answered untaken.
-/

namespace Gaxera

/-- What has become of an accepted call. -/
inductive Fate
  | queued
  | assigned
  | delivered
  | removed
  | answered
  | closed
deriving DecidableEq, Repr

/-- The accepted calls with their fates, the oldest first. -/
abbrev CallLog := List (CallerEntry × Fate)

namespace CallLog

/-- Each call changes its fate by itself. -/
def update (f : CallerEntry → Fate → Fate) (log : CallLog) : CallLog :=
  log.map fun x ↦ (x.1, f x.1 x.2)

/-- The assigned call gets another fate. -/
def assignedTo (fate : Fate) : CallerEntry → Fate → Fate
  | _, .assigned => fate
  | _, other => other

/-- The queued calls of a thread are removed. -/
def withoutCaller (c : ObjectId) : CallerEntry → Fate → Fate
  | x, .queued => if x.caller = c then .removed else .queued
  | _, other => other

/-- Whoever waits is left behind. -/
def leftBehind : CallerEntry → Fate → Fate
  | _, .queued => .closed
  | _, .assigned => .closed
  | _, other => other

/-- The first call of the queue is delivered. -/
def deliverFirst : CallLog → CallLog
  | [] => []
  | (x, .queued) :: log => (x, .delivered) :: log
  | x :: log => x :: deliverFirst log

/-- The log after an operation on `e`. Which calls a termination removes is read off the endpoint:
the call in service if it is one of the dead thread, and else the queued calls of that thread. -/
def note (log : CallLog) (e : Endpoint) : EndpointOp → EndpointResult → CallLog
  | .call c m, .called (.ok .block) => log ++ [(⟨c, m⟩, .queued)]
  | .call c m, .called (.ok (.wake _)) => log ++ [(⟨c, m⟩, .assigned)]
  | .receive _, .received (some (.ok (.ok _))) => log.deliverFirst
  | .takeReceivedCall, .taken (some _) => log.update (assignedTo .delivered)
  | .reply _ _, .replied (.ok _) => log.update (assignedTo .answered)
  | .cancelCaller c, .cancelled _ => log.update (withoutCaller c)
  | .notifyThreadTerminated c, .notified _ =>
    if e.service.any fun s ↦ s.caller = c then log.update (assignedTo .removed)
    else log.update (withoutCaller c)
  | .close, .closed _ => log.update leftBehind
  | _, _ => log

/-- The calls that have been neither removed nor answered untaken. -/
def kept (log : CallLog) : CallLog := log.filter fun x ↦ x.2 ≠ .removed ∧ x.2 ≠ .answered

end CallLog

/-- The call that an operation with this answer has put in. -/
def EndpointResult.accepts : EndpointResult → EndpointOp → List CallerEntry
  | .called (.ok _), .call c m => [⟨c, m⟩]
  | _, _ => []

namespace Endpoint

def log (e : Endpoint) (log₀ : CallLog) : List EndpointOp → CallLog
  | [] => log₀
  | op :: ops => log (e.exec op).2 (log₀.note e op (e.exec op).1) ops

/-- The calls that a run accepts, in order. -/
def accepted (e : Endpoint) : List EndpointOp → List CallerEntry
  | [] => []
  | op :: ops => (e.exec op).1.accepts op ++ accepted (e.exec op).2 ops

end Endpoint

/-- A delivery, without its token. -/
def ReceivedCall.entry (call : ReceivedCall) : CallerEntry := ⟨call.caller, call.message⟩

/-! ## The log against the endpoint -/

namespace CallLog

variable {log log' : CallLog} {f : CallerEntry → Fate → Fate} {l : List CallerEntry} {fate : Fate}

/-- The calls of `l`, all with one fate. -/
def tagged (l : List CallerEntry) (fate : Fate) : CallLog := l.map fun x ↦ (x, fate)

theorem kept_append : kept (log ++ log') = kept log ++ kept log' := List.filter_append ..

theorem update_append : update f (log ++ log') = update f log ++ update f log' := List.map_append

theorem tagged_append (l l' : List CallerEntry) (fate : Fate) :
    tagged (l ++ l') fate = tagged l fate ++ tagged l' fate := List.map_append

theorem kept_tagged (h : fate ≠ .removed ∧ fate ≠ .answered) :
    kept (tagged l fate) = tagged l fate := by
  refine List.filter_eq_self.mpr fun x hx ↦ ?_
  obtain ⟨y, -, rfl⟩ := List.mem_map.mp hx
  exact decide_eq_true h

theorem kept_tagged_of_dropped (h : fate = .removed ∨ fate = .answered) :
    kept (tagged l fate) = [] := by
  refine List.filter_eq_nil_iff.mpr fun x hx ↦ ?_
  obtain ⟨y, -, rfl⟩ := List.mem_map.mp hx
  rw [decide_eq_true_eq]
  rintro ⟨hr, ha⟩
  exact h.elim hr ha

theorem update_tagged {fate' : Fate} (h : ∀ x, f x fate = fate') :
    update f (tagged l fate) = tagged l fate' := by
  rw [update, tagged, List.map_map, tagged]
  exact List.map_congr_left fun x _ ↦ congrArg (x, ·) (h x)

theorem kept_update (hf : ∀ x fate, fate = .removed ∨ fate = .answered → f x fate = fate) :
    kept (update f log) = kept (update f (kept log)) := by
  induction log with
  | nil => rfl
  | cons x log ih =>
    obtain ⟨x, fate⟩ := x
    have hcons : kept (update f ((x, fate) :: log))
        = kept (update f [(x, fate)]) ++ kept (update f log) := by
      rw [← kept_append, ← update_append]
      rfl
    rw [hcons, ih]
    by_cases hdrop : fate = .removed ∨ fate = .answered
    · have hnone : kept (update f [(x, fate)]) = [] := by
        have hsame : update f (tagged [x] fate) = tagged [x] fate :=
          update_tagged fun y ↦ hf y fate hdrop
        exact (congrArg kept hsame).trans (kept_tagged_of_dropped hdrop)
      have hskip : kept ((x, fate) :: log) = kept log := by
        refine List.filter_cons_of_neg ?_
        rcases hdrop with rfl | rfl <;> simp
      rw [hnone, hskip, List.nil_append]
    · have hkeep : kept ((x, fate) :: log) = (x, fate) :: kept log :=
        List.filter_cons_of_pos (by simpa [not_or] using hdrop)
      rw [hkeep, ← kept_append, ← update_append]
      rfl

theorem kept_deliverFirst : kept log.deliverFirst = (kept log).deliverFirst := by
  induction log with
  | nil => rfl
  | cons x log ih =>
    obtain ⟨x, fate⟩ := x
    cases fate with
    | queued => rfl
    | assigned | delivered | closed => exact congrArg ((x, _) :: ·) ih
    | removed | answered => exact ih

theorem deliverFirst_append (h : ∀ x ∈ log, x.2 ≠ .queued) :
    (log ++ log').deliverFirst = log ++ log'.deliverFirst := by
  induction log with
  | nil => rfl
  | cons x log ih =>
    obtain ⟨x, fate⟩ := x
    obtain ⟨hx, hlog⟩ := List.forall_mem_cons.mp h
    cases fate with
    | queued => exact absurd rfl hx
    | assigned | delivered | closed | removed | answered => exact congrArg ((x, _) :: ·) (ih hlog)

theorem map_fst_tagged : (tagged l fate).map Prod.fst = l := by
  rw [tagged, List.map_map]
  exact List.map_id l

theorem map_fst_update : (update f log).map Prod.fst = log.map Prod.fst := by
  rw [update, List.map_map]
  rfl

theorem map_fst_deliverFirst : log.deliverFirst.map Prod.fst = log.map Prod.fst := by
  induction log with
  | nil => rfl
  | cons x log ih =>
    obtain ⟨x, fate⟩ := x
    cases fate with
    | queued => rfl
    | assigned | delivered | closed | removed | answered => exact congrArg (x :: ·) ih

/-- Nothing but an accepted call changes which calls are in the log. -/
theorem map_fst_note (log : CallLog) (e : Endpoint) (op : EndpointOp) (result : EndpointResult) :
    (log.note e op result).map Prod.fst = log.map Prod.fst ++ result.accepts op := by
  unfold note
  split
  · exact List.map_append
  · exact List.map_append
  · exact map_fst_deliverFirst.trans (List.append_nil _).symm
  · exact map_fst_update.trans (List.append_nil _).symm
  · exact map_fst_update.trans (List.append_nil _).symm
  · exact map_fst_update.trans (List.append_nil _).symm
  · split
    · exact map_fst_update.trans (List.append_nil _).symm
    · exact map_fst_update.trans (List.append_nil _).symm
  · exact map_fst_update.trans (List.append_nil _).symm
  · rename_i hblock hwake _ _ _ _ _ _
    refine (List.append_nil _).symm.trans (congrArg _ ?_)
    unfold EndpointResult.accepts
    split
    · cases ‹IpcEffect› with
      | block => exact (hblock _ _ rfl rfl).elim
      | wake r => exact (hwake _ _ r rfl rfl).elim
    · rfl

theorem update_ne_answered (hlog : ∀ x ∈ log, x.2 ≠ .answered)
    (hf : ∀ x ∈ log, f x.1 x.2 = .answered → x.2 = .answered) :
    ∀ x ∈ log.update f, x.2 ≠ .answered := by
  intro x hx
  obtain ⟨y, hy, rfl⟩ := List.mem_map.mp hx
  exact fun h ↦ hlog y hy (hf y hy h)

theorem deliverFirst_ne_answered (hlog : ∀ x ∈ log, x.2 ≠ .answered) :
    ∀ x ∈ log.deliverFirst, x.2 ≠ .answered := by
  induction log with
  | nil => exact hlog
  | cons x log ih =>
    obtain ⟨x, fate⟩ := x
    obtain ⟨hx, hrest⟩ := List.forall_mem_cons.mp hlog
    cases fate with
    | queued => exact List.forall_mem_cons.mpr ⟨nofun, hrest⟩
    | assigned | delivered | closed | removed | answered =>
      exact List.forall_mem_cons.mpr ⟨hx, ih hrest⟩

/-- A call is answered untaken only by a reply that finds one assigned. -/
theorem note_ne_answered {e : Endpoint} {op : EndpointOp} {result : EndpointResult}
    (hlog : ∀ x ∈ log, x.2 ≠ .answered)
    (hreply : ∀ token m, op = .reply token m → ∀ x ∈ log, x.2 ≠ .assigned) :
    ∀ x ∈ log.note e op result, x.2 ≠ .answered := by
  have hassigned {fate : Fate} (h : fate ≠ .answered) :
      ∀ x ∈ log.update (assignedTo fate), x.2 ≠ .answered :=
    update_ne_answered hlog fun x _ hx ↦ by cases hfate : x.2 <;> simp_all [assignedTo]
  have hqueued (c : ObjectId) : ∀ x ∈ log.update (withoutCaller c), x.2 ≠ .answered :=
    update_ne_answered hlog fun x _ hx ↦ by
      cases hfate : x.2 <;> simp_all [withoutCaller, ite_eq_iff]
  unfold note
  split
  · exact List.forall_mem_append.mpr ⟨hlog, by simp⟩
  · exact List.forall_mem_append.mpr ⟨hlog, by simp⟩
  · exact deliverFirst_ne_answered hlog
  · exact hassigned (by decide)
  · -- the reply finds nothing assigned
    refine update_ne_answered hlog fun x hx h ↦ ?_
    have := hreply _ _ rfl x hx
    cases hfate : x.2 <;> simp_all [assignedTo]
  · exact hqueued _
  · split
    · exact hassigned (by decide)
    · exact hqueued _
  · exact update_ne_answered hlog fun x _ hx ↦ by cases hfate : x.2 <;> simp_all [leftBehind]
  · exact hlog

/-- The queued calls of a thread drop out, and the others stay in their order. -/
theorem kept_update_withoutCaller (c : ObjectId) :
    kept (update (withoutCaller c) (tagged l .queued)) = tagged (Endpoint.without c l) .queued := by
  induction l with
  | nil => rfl
  | cons x l ih =>
    have hcons : kept (update (withoutCaller c) (tagged (x :: l) .queued))
        = kept [(x, withoutCaller c x .queued)] ++ tagged (Endpoint.without c l) .queued := by
      rw [← ih, ← kept_append]
      rfl
    rw [hcons, withoutCaller]
    by_cases hx : x.caller = c
    · have hout : Endpoint.without c (x :: l) = Endpoint.without c l :=
        List.filter_cons_of_neg (by simpa using hx)
      rw [if_pos hx, hout]
      rfl
    · have hin : Endpoint.without c (x :: l) = x :: Endpoint.without c l :=
        List.filter_cons_of_pos (by simpa using hx)
      rw [if_neg hx, hin]
      rfl

/-- The log of an endpoint: what is delivered, what is assigned, what is queued, what the closing
left behind. -/
def Reads (log : CallLog) (delivered assigned queued left : List CallerEntry) : Prop :=
  log.kept = tagged delivered .delivered
    ++ (tagged assigned .assigned ++ (tagged queued .queued ++ tagged left .closed))

namespace Reads

variable {delivered assigned queued left : List CallerEntry}

/-- An update that leaves alone what is delivered, left behind or dropped acts on the assigned and
the queued calls. -/
theorem update (h : log.Reads delivered assigned queued left)
    (hf : ∀ x fate, fate ≠ .queued → fate ≠ .assigned → f x fate = fate) :
    (CallLog.update f log).kept = tagged delivered .delivered
      ++ ((CallLog.update f (tagged assigned .assigned)).kept
        ++ ((CallLog.update f (tagged queued .queued)).kept ++ tagged left .closed)) := by
  have hdropped : ∀ x fate, fate = .removed ∨ fate = .answered → f x fate = fate := by
    rintro x fate (rfl | rfl)
    · exact hf x _ (by decide) (by decide)
    · exact hf x _ (by decide) (by decide)
  rw [kept_update hdropped, h]
  simp only [update_append, kept_append]
  rw [update_tagged fun x ↦ hf x .delivered (by decide) (by decide),
    update_tagged fun x ↦ hf x .closed (by decide) (by decide),
    kept_tagged (by decide), kept_tagged (by decide)]

theorem ne_assigned (h : log.Reads delivered [] queued left) : ∀ x ∈ log, x.2 ≠ .assigned := by
  intro x hx hfate
  have hkept : x ∈ log.kept := List.mem_filter.mpr ⟨hx, by simp [hfate]⟩
  rw [h] at hkept
  simp only [tagged, List.mem_append, List.mem_map] at hkept
  rcases hkept with ⟨y, -, rfl⟩ | ⟨y, hy, -⟩ | ⟨y, -, rfl⟩ | ⟨y, -, rfl⟩
  · cases hfate
  · cases hy
  · cases hfate
  · cases hfate

theorem take (h : log.Reads delivered assigned queued left) :
    (CallLog.update (assignedTo .delivered) log).Reads (delivered ++ assigned) [] queued left := by
  rw [Reads, h.update (by intro x fate _ ha; cases fate <;> first | rfl | exact absurd rfl ha),
    update_tagged fun _ ↦ rfl, update_tagged fun _ ↦ rfl, kept_tagged (by decide),
    kept_tagged (by decide), tagged_append, List.append_assoc]
  rfl

theorem drop (h : log.Reads delivered assigned queued left)
    (hfate : fate = .removed ∨ fate = .answered) :
    (CallLog.update (assignedTo fate) log).Reads delivered [] queued left := by
  rw [Reads, h.update (by intro x fate _ ha; cases fate <;> first | rfl | exact absurd rfl ha),
    update_tagged fun _ ↦ rfl, update_tagged fun _ ↦ rfl, kept_tagged_of_dropped hfate,
    kept_tagged (by decide)]
  rfl

theorem remove (h : log.Reads delivered assigned queued left) (c : ObjectId) :
    (CallLog.update (withoutCaller c) log).Reads delivered assigned
      (Endpoint.without c queued) left := by
  rw [Reads, h.update (by intro x fate hq _; cases fate <;> first | rfl | exact absurd rfl hq),
    update_tagged fun _ ↦ rfl, kept_tagged (by decide), kept_update_withoutCaller]

theorem close (h : log.Reads delivered assigned queued left) :
    (CallLog.update leftBehind log).Reads delivered [] [] (assigned ++ (queued ++ left)) := by
  rw [Reads, h.update (by intro x fate hq ha; cases fate <;>
      first | rfl | exact absurd rfl hq | exact absurd rfl ha),
    update_tagged fun _ ↦ rfl, update_tagged fun _ ↦ rfl, kept_tagged (by decide),
    kept_tagged (by decide), tagged_append, tagged_append]
  rfl

theorem snoc_queued (h : log.Reads delivered assigned queued []) (x : CallerEntry) :
    Reads (log ++ [(x, .queued)]) delivered assigned (queued ++ [x]) [] := by
  rw [Reads, kept_append, h, tagged_append]
  simp only [List.append_assoc]
  rfl

theorem snoc_assigned (h : log.Reads delivered [] [] []) (x : CallerEntry) :
    Reads (log ++ [(x, .assigned)]) delivered [x] [] [] := by
  rw [Reads, kept_append, h]
  simp only [List.append_assoc]
  rfl

/-- The first of the queue is delivered, and stands then behind what was delivered before. -/
theorem receive {x : CallerEntry} (h : log.Reads delivered [] (x :: queued) left) :
    log.deliverFirst.Reads (delivered ++ [x]) [] queued left := by
  rw [Reads, kept_deliverFirst, h, deliverFirst_append, tagged_append, List.append_assoc]
  · rfl
  · intro y hy
    obtain ⟨z, -, rfl⟩ := List.mem_map.mp hy
    exact Fate.noConfusion

end Reads

end CallLog

namespace Endpoint

variable {e e' : Endpoint} {log₀ : CallLog} {delivered : List CallerEntry}
  {op : EndpointOp} {result : EndpointResult}

/-- The log agrees with the endpoint, and only a closed endpoint has left anyone behind. -/
def Logged (e : Endpoint) (log : CallLog) (delivered : List CallerEntry) : Prop :=
  ∃ left, log.Reads delivered e.untaken e.queue left ∧ (e.closed = false → left = [])

theorem note_of_refusal (log : CallLog) (e : Endpoint) (op : EndpointOp) (h : result.IsRefusal) :
    log.note e op result = log ∧ result.delivery = none := by
  cases h with
  | called | received | taken | replied => cases op <;> exact ⟨rfl, rfl⟩

/-- After an operation that delivers nothing, the log has the same deliveries. -/
theorem Logged.silent {log : CallLog} (left : List CallerEntry)
    (h : log.Reads delivered e.untaken e.queue left) (hleft : e.closed = false → left = [])
    (hnone : result.delivery = none) :
    e.Logged log (delivered ++ result.delivery.toList.map ReceivedCall.entry) := by
  rw [hnone]
  exact ⟨left, (List.append_nil delivered).symm ▸ h, hleft⟩

/-- **One operation keeps the log in order.** -/
theorem Logged.step (h : e.Logged log₀ delivered) (hwf : e.Wf) (hstep : Step e op result e') :
    e'.Logged (log₀.note e op result)
      (delivered ++ result.delivery.toList.map ReceivedCall.entry) := by
  obtain ⟨left, h, hleft⟩ := h
  cases hstep with
  | refused refusal =>
    obtain ⟨hnote, hnone⟩ := note_of_refusal log₀ e op refusal
    rw [hnote]
    exact .silent left h hleft hnone
  | queued is_open room alone reads =>
    obtain rfl := hleft is_open
    have hsame : e'.untaken = e.untaken := by rw [untaken, untaken, reads.service]
    refine .silent [] ?_ (fun _ ↦ rfl) rfl
    rw [hsame, reads.queue]
    exact h.snoc_queued _
  | met waiting empty free reads =>
    -- A closed endpoint is idle, so nobody waits at it.
    have hopen : e.closed = false := by
      refine Bool.eq_false_iff.mpr fun hclosed ↦ ?_
      rw [receiver, hwf.closed hclosed] at waiting
      cases waiting
    obtain rfl := hleft hopen
    rw [untaken_of_free free, empty] at h
    refine .silent [] ?_ (fun _ ↦ rfl) rfl
    rw [untaken_of_service reads.service, reads.queue]
    exact h.snoc_assigned _
  | waits empty free alone reads =>
    refine .silent left ?_ (fun hc ↦ hleft (reads.closed ▸ hc)) rfl
    rw [untaken_of_free reads.service, reads.queue]
    rwa [untaken_of_free free, empty] at h
  | received first free alone reads =>
    refine ⟨left, ?_, fun hc ↦ hleft (reads.closed ▸ hc)⟩
    rw [untaken_of_service reads.service, reads.queue]
    rw [untaken_of_free free, first] at h
    exact h.receive
  | taken serves reads =>
    refine ⟨left, ?_, fun hc ↦ hleft (reads.closed ▸ hc)⟩
    rw [untaken_of_service reads.service, reads.queue]
    rw [untaken_of_service serves] at h
    exact h.take
  | replied serves reads =>
    refine .silent left ?_ (fun hc ↦ hleft (reads.closed ▸ hc)) rfl
    rw [untaken_of_free reads.service, reads.queue]
    exact h.drop (Or.inr rfl)
  | cancelled reads =>
    have hsame : e'.untaken = e.untaken := by rw [untaken, untaken, reads.service]
    refine .silent left ?_ (fun hc ↦ hleft (reads.closed ▸ hc)) rfl
    rw [hsame, reads.queue]
    exact h.remove _
  | orphaned serves reads =>
    refine .silent left ?_ (fun hc ↦ hleft (reads.closed ▸ hc)) rfl
    rw [untaken_of_free reads.service, reads.queue, CallLog.note, if_pos (by simp [serves])]
    exact h.drop (Or.inl rfl)
  | @terminated c _ other reads =>
    have hsame : e'.untaken = e.untaken := by rw [untaken, untaken, reads.service]
    have hnone : ¬ (e.service.any fun s ↦ s.caller = c) = true := by
      rw [Option.any_eq_true]
      rintro ⟨s, hs, heq⟩
      exact other s hs (of_decide_eq_true heq)
    refine .silent left ?_ (fun hc ↦ hleft (reads.closed ▸ hc)) rfl
    rw [hsame, reads.queue, CallLog.note, if_neg hnone]
    exact h.remove c
  | closed reads =>
    refine .silent (e.untaken ++ (e.queue ++ left)) ?_ (fun hc ↦ ?_) rfl
    · rw [untaken_of_free reads.service, reads.queue]
      exact h.close
    · exact absurd (reads.closed.symm.trans hc) (by decide)

theorem Wf.logged (hwf : e.Wf) (h : e.Logged log₀ delivered) (ops : List EndpointOp) :
    (e.run ops).Logged (e.log log₀ ops)
      (delivered ++ (e.deliveries ops).map ReceivedCall.entry) := by
  induction ops generalizing e log₀ delivered with
  | nil => exact (List.append_nil delivered).symm ▸ h
  | cons op ops ih =>
    obtain ⟨hwf', hstep⟩ := hwf.exec op
    have hrest := ih hwf' (h.step hwf hstep)
    rw [List.append_assoc, ← List.map_append] at hrest
    exact hrest

theorem log_map_fst (e : Endpoint) (log₀ : CallLog) (ops : List EndpointOp) :
    (e.log log₀ ops).map Prod.fst = log₀.map Prod.fst ++ e.accepted ops := by
  induction ops generalizing e log₀ with
  | nil => exact (List.append_nil _).symm
  | cons op ops ih =>
    rw [log, ih, CallLog.map_fst_note, List.append_assoc]
    rfl

/-- Without a reply to a message that nobody has taken, no call is answered untaken. -/
theorem Wf.ne_answered (hwf : e.Wf) (h : e.Logged log₀ delivered)
    (hlog : ∀ x ∈ log₀, x.2 ≠ .answered) {ops : List EndpointOp}
    (htaken : e.repliesAfterTake ops = true) : ∀ x ∈ e.log log₀ ops, x.2 ≠ .answered := by
  induction ops generalizing e log₀ delivered with
  | nil => exact hlog
  | cons op ops ih =>
    rw [repliesAfterTake, Bool.and_eq_true] at htaken
    obtain ⟨hwf', hstep⟩ := hwf.exec op
    refine ih hwf' (h.step hwf hstep) (CallLog.note_ne_answered hlog fun token m hop ↦ ?_) htaken.2
    obtain ⟨left, hreads, -⟩ := h
    rw [hop, EndpointOp.afterTake, decide_eq_true_eq] at htaken
    rw [htaken.1] at hreads
    exact hreads.ne_assigned

/-- **Calls are served in the order in which they were accepted.** If no reply is issued while the
message in service waits to be taken, what a run delivers is an initial part of what it accepts,
once the calls are left out that a cancellation or the death of their caller removed. -/
theorem service_is_fifo {ops : List EndpointOp}
    (htaken : Endpoint.new.repliesAfterTake ops = true) :
    (Endpoint.new.deliveries ops).map ReceivedCall.entry
      <+: ((Endpoint.new.log [] ops).filter fun x ↦ x.2 ≠ .removed).map Prod.fst
    ∧ (Endpoint.new.log [] ops).map Prod.fst = Endpoint.new.accepted ops
    ∧ (Endpoint.new.run ops).queue.length ≤ maxEndpointCallers := by
  refine ⟨?_, log_map_fst _ _ _, (wf_new.run ops).bounded⟩
  have hnew : Endpoint.new.Logged [] [] := ⟨[], rfl, fun _ ↦ rfl⟩
  have hnone := wf_new.ne_answered hnew (by simp) htaken
  have hkept : ((Endpoint.new.log [] ops).filter fun x ↦ x.2 ≠ .removed) =
      (Endpoint.new.log [] ops).kept :=
    List.filter_congr fun x hx ↦ by simp [hnone x hx]
  obtain ⟨left, hreads, -⟩ := wf_new.logged hnew ops
  rw [hkept, hreads, List.map_append, CallLog.map_fst_tagged]
  exact List.prefix_append _ _

/-- One call meets a waiting receiver, which takes it; another comes before the reply, and a third
is cancelled. -/
def answeredInTurn : List EndpointOp :=
  [.receive ⟨9, 1⟩, .call ⟨5, 1⟩ ⟨[1]⟩, .takeReceivedCall, .call ⟨6, 1⟩ ⟨[2]⟩, .call ⟨7, 1⟩ ⟨[3]⟩,
   .cancelCaller ⟨6, 1⟩, .reply (tokenFor ⟨5, 1⟩ 1) ⟨[]⟩, .receive ⟨9, 1⟩]

theorem service_is_fifo_of_answeredInTurn :
    (Endpoint.new.deliveries answeredInTurn).map ReceivedCall.entry =
      [⟨⟨5, 1⟩, ⟨[1]⟩⟩, ⟨⟨7, 1⟩, ⟨[3]⟩⟩] ∧
    (Endpoint.new.deliveries answeredInTurn).map ReceivedCall.entry
      <+: ((Endpoint.new.log [] answeredInTurn).filter fun x ↦ x.2 ≠ .removed).map Prod.fst :=
  ⟨by decide, (service_is_fifo (by decide)).1⟩

/-- A call meets a waiting receiver and is answered before the receiver has taken it; the next call
is delivered. -/
def answeredUntaken : List EndpointOp :=
  [.receive ⟨9, 1⟩, .call ⟨5, 1⟩ ⟨[1]⟩, .reply (tokenFor ⟨5, 1⟩ 1) ⟨[]⟩, .call ⟨6, 1⟩ ⟨[2]⟩,
   .receive ⟨9, 1⟩]

/-- The first call is not removed, and yet the second one is delivered in its place. -/
theorem not_fifo_of_answeredUntaken :
    ¬ ∀ ops, (Endpoint.new.deliveries ops).map ReceivedCall.entry
      <+: ((Endpoint.new.log [] ops).filter fun x ↦ x.2 ≠ .removed).map Prod.fst :=
  fun h ↦ absurd (h answeredUntaken) (by decide)

end Endpoint

end Gaxera

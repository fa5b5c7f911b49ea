import Gaxera.Ipc.Endpoint
import Mathlib.Data.List.Nodup

/-!
# A reply token is for one call

An endpoint issues its tokens one after the other, each for the call that is then in service, and
the number of a token goes into its upper half, mixed with the generation of the caller. So the
callers in the order in which they were issued tokens say everything about the tokens: `stamped`
writes the tokens down from that list.

As long as a thread index is always the same thread, no two of them are equal, since two tokens of
one caller have different numbers and those of different indices differ in the lower half. A thread
index that is used again, with another generation, breaks this: the difference of the generations
can be the difference of the numbers.
-/

namespace Gaxera

open ReceivedCall

namespace Endpoint

/-! ## Tokens -/

theorem toUInt32_tokenFor (c : ObjectId) (k : UInt64) : (tokenFor c k).toUInt32 = c.index := by
  apply UInt32.toBitVec_inj.mp
  ext i hi
  simp [tokenFor, ObjectId.raw]

theorem tokenFor_inj {c : ObjectId} {i j : ℕ} (hi : i < 2 ^ 32) (hj : j < 2 ^ 32)
    (h : tokenFor c (.ofNat i) = tokenFor c (.ofNat j)) : i = j := by
  have hshift : UInt64.ofNat i <<< 32 = UInt64.ofNat j <<< 32 := (UInt64.xor_right_inj c.raw).mp h
  have hnat := congrArg UInt64.toNat hshift
  have hword : 32 % 64 = 32 := rfl
  simp only [UInt64.toNat_shiftLeft, UInt64.toNat_ofNat', UInt64.reduceToNat, Nat.shiftLeft_eq,
    hword] at hnat
  omega

/-- The tokens that are issued to these callers, one after the other, each with its caller. -/
def stamped (callers : List ObjectId) : List (ObjectId × UInt64) :=
  callers.mapIdx fun i c ↦ (c, tokenFor c (.ofNat (i + 1)))

theorem stamped_snoc (callers : List ObjectId) (c : ObjectId) :
    stamped (callers ++ [c])
      = stamped callers ++ [(c, tokenFor c (.ofNat (callers.length + 1)))] :=
  List.mapIdx_concat

theorem stamped_isPrefix {callers callers' : List ObjectId} (h : callers <+: callers') :
    stamped callers <+: stamped callers' := by
  obtain ⟨rest, rfl⟩ := h
  rw [stamped, stamped, List.mapIdx_append]
  exact List.prefix_append _ _

end Endpoint

/-- No thread index occurs with two generations. -/
def OneGeneration (callers : List ObjectId) : Prop :=
  ∀ c ∈ callers, ∀ c' ∈ callers, c.index = c'.index → c.generation = c'.generation

instance (callers : List ObjectId) : Decidable (OneGeneration callers) :=
  inferInstanceAs (Decidable (∀ c ∈ callers, ∀ c' ∈ callers, _ → _))

theorem OneGeneration.mono {callers callers' : List ObjectId} (h : OneGeneration callers')
    (hsub : callers ⊆ callers') : OneGeneration callers :=
  fun c hc c' hc' ↦ h c (hsub hc) c' (hsub hc')

namespace Endpoint

/-- **No token is issued twice** as long as there is one generation to an index. -/
theorem nodup_stamped {callers : List ObjectId} (hone : OneGeneration callers)
    (hfew : callers.length < 2 ^ 32) : ((stamped callers).map Prod.snd).Nodup := by
  rw [List.Nodup, List.pairwise_iff_getElem]
  intro i j hi hj hij heq
  simp only [List.length_map, stamped, List.length_mapIdx] at hi hj
  simp only [stamped, List.getElem_map, List.getElem_mapIdx] at heq
  have hindex : callers[i].index = callers[j].index := by
    simpa only [toUInt32_tokenFor] using congrArg UInt64.toUInt32 heq
  have hgeneration := hone _ (List.getElem_mem hi) _ (List.getElem_mem hj) hindex
  have hsame : callers[i] = callers[j] := ObjectId.ext hindex hgeneration
  rw [hsame] at heq
  have := tokenFor_inj (by omega) (by omega) heq
  omega

end Endpoint

/-! ## What a run issues -/

/-- The caller for whose call an operation has issued a token. -/
def EndpointResult.issues : EndpointResult → EndpointOp → List ObjectId
  | .called (.ok (.wake _)), .call c _ => [c]
  | .received (some (.ok (.ok call))), _ => [call.caller]
  | _, _ => []

/-- A reply comes when the message of the call in service has been taken. -/
def EndpointOp.afterTake (e : Endpoint) : EndpointOp → Bool
  | .reply _ _ => e.untaken = []
  | _ => true

/-- The threads that call in a run. -/
def EndpointOp.callers (ops : List EndpointOp) : List ObjectId :=
  ops.filterMap fun
    | .call c _ => some c
    | _ => none

namespace Endpoint

/-- The callers to whom a run issues tokens, in order. -/
def issued (e : Endpoint) : List EndpointOp → List ObjectId
  | [] => []
  | op :: ops => (e.exec op).1.issues op ++ issued (e.exec op).2 ops

/-- Every reply of the run comes after the message of the call in service has been taken. -/
def repliesAfterTake (e : Endpoint) : List EndpointOp → Bool
  | [] => true
  | op :: ops => op.afterTake e && repliesAfterTake (e.exec op).2 ops

theorem run_append (e : Endpoint) (ops ops' : List EndpointOp) :
    e.run (ops ++ ops') = (e.run ops).run ops' := by
  induction ops generalizing e with
  | nil => rfl
  | cons op ops ih => exact ih _

theorem issued_append (e : Endpoint) (ops ops' : List EndpointOp) :
    e.issued (ops ++ ops') = e.issued ops ++ (e.run ops).issued ops' := by
  induction ops generalizing e with
  | nil => rfl
  | cons op ops ih =>
    rw [List.cons_append, issued, ih, issued, List.append_assoc]
    rfl

theorem repliesAfterTake_append (e : Endpoint) (ops ops' : List EndpointOp) :
    e.repliesAfterTake (ops ++ ops')
      = (e.repliesAfterTake ops && (e.run ops).repliesAfterTake ops') := by
  induction ops generalizing e with
  | nil => exact (Bool.true_and _).symm
  | cons op ops ih =>
    rw [List.cons_append, repliesAfterTake, ih, repliesAfterTake, Bool.and_assoc]
    rfl

/-- The callers whose tokens are of no use any more: all but the one in service. -/
def past (e : Endpoint) (callers : List ObjectId) : List ObjectId :=
  if e.service.isSome then callers.dropLast else callers

/-- The token of the call in service, once the call has been handed out. -/
def outstanding (e : Endpoint) : List (ObjectId × UInt64) :=
  (e.service.bind fun s ↦ if s.message.isNone then some (s.caller, s.token) else none).toList

end Endpoint

def ReceivedCall.stamp (call : ReceivedCall) : ObjectId × UInt64 := (call.caller, call.replyToken)

/-- What has been issued and what has been handed out, against the endpoint. -/
structure Traced (e : Endpoint) (callers : List ObjectId) (calls : List ReceivedCall) : Prop where
  sequence : e.replySequence = .ofNat callers.length
  current : ∀ s, e.service = some s →
    Endpoint.stamped callers = Endpoint.stamped (e.past callers) ++ [(s.caller, s.token)]
  handed : ∃ earlier, earlier.Sublist (Endpoint.stamped (e.past callers))
    ∧ calls.map ReceivedCall.stamp = earlier ++ e.outstanding

namespace Endpoint

variable {e e' : Endpoint} {callers : List ObjectId}

theorem past_of_free (h : e.service = none) : e.past callers = callers := by simp [past, h]

theorem past_of_service {s : Service} (h : e.service = some s) :
    e.past callers = callers.dropLast := by simp [past, h]

theorem outstanding_of_free (h : e.service = none) : e.outstanding = [] := by
  simp [outstanding, h]

theorem outstanding_of_service {s : Service} (h : e.service = some s) :
    e.outstanding = if s.message.isNone then [(s.caller, s.token)] else [] := by
  rw [outstanding, h, Option.bind_some]
  split <;> rfl

theorem mem_outstanding {x : ObjectId × UInt64} (h : x ∈ e.outstanding) :
    ∃ s, e.service = some s ∧ x = (s.caller, s.token) := by
  cases hs : e.service with
  | none =>
    rw [outstanding_of_free hs] at h
    cases h
  | some s =>
    rw [outstanding_of_service hs] at h
    split at h
    · exact ⟨s, rfl, List.mem_singleton.mp h⟩
    · cases h

end Endpoint

namespace Traced

open Endpoint

variable {e e' : Endpoint} {callers : List ObjectId} {calls : List ReceivedCall}
  {op : EndpointOp} {result : EndpointResult}

theorem new : Traced .new [] [] := ⟨rfl, nofun, [], .slnil, rfl⟩

theorem sublist (h : Traced e callers calls) :
    (calls.map stamp).Sublist (stamped callers) := by
  obtain ⟨earlier, hearlier, hcalls⟩ := h.handed
  rw [hcalls]
  cases hs : e.service with
  | none =>
    rw [outstanding_of_free hs, List.append_nil]
    rwa [past_of_free hs] at hearlier
  | some s =>
    rw [h.current s hs, outstanding_of_service hs]
    refine hearlier.append ?_
    split
    · exact .refl _
    · exact List.nil_sublist _

/-- As long as the same call is in service and nothing is issued, nothing changes. -/
theorem same (h : Traced e callers calls) (hservice : e'.service = e.service)
    (hsequence : e'.replySequence = e.replySequence) : Traced e' callers calls := by
  have hpast : e'.past callers = e.past callers := by rw [past, past, hservice]
  have hout : e'.outstanding = e.outstanding := by rw [outstanding, outstanding, hservice]
  refine ⟨hsequence.trans h.sequence, fun s hs ↦ ?_, ?_⟩
  · rw [hpast]
    exact h.current s (hservice ▸ hs)
  · rw [hpast, hout]
    exact h.handed

theorem settle (h : Traced e callers calls) (hfree : e'.service = none)
    (hsequence : e'.replySequence = e.replySequence) : Traced e' callers calls := by
  refine ⟨hsequence.trans h.sequence, fun s hs ↦ ?_, calls.map stamp, ?_, ?_⟩
  · cases hfree.symm.trans hs
  · rw [past_of_free hfree]
    exact h.sublist
  · rw [outstanding_of_free hfree, List.append_nil]

theorem issue (h : Traced e callers calls) {s : Service} (hservice : e'.service = some s)
    (hsequence : e'.replySequence = e.replySequence + 1)
    (htoken : s.token = tokenFor s.caller (e.replySequence + 1)) {new : List ReceivedCall}
    (hnew : new.map stamp = e'.outstanding) :
    Traced e' (callers ++ [s.caller]) (calls ++ new) := by
  have hnext : e.replySequence + 1 = .ofNat (callers.length + 1) := by
    rw [h.sequence, UInt64.ofNat_add]
    rfl
  have hpast : e'.past (callers ++ [s.caller]) = callers := by
    rw [past_of_service hservice, List.dropLast_concat]
  refine ⟨?_, fun s' hs' ↦ ?_, calls.map stamp, ?_, ?_⟩
  · rw [hsequence, hnext, List.length_append]
    rfl
  · obtain rfl : s = s' := Option.mem_unique hservice hs'
    rw [hpast, stamped_snoc, htoken, hnext]
  · rw [hpast]
    exact h.sublist
  · rw [List.map_append, hnew]

/-- **One operation.** The tokens are issued and handed out in order. -/
theorem step (h : Traced e callers calls) (hstep : Step e op result e') :
    Traced e' (callers ++ result.issues op) (calls ++ result.delivery.toList) := by
  have hquiet : Traced e' callers calls → result.issues op = [] → result.delivery = none →
      Traced e' (callers ++ result.issues op) (calls ++ result.delivery.toList) := by
    intro htraced hissues hdelivery
    rw [hissues, hdelivery]
    simpa using htraced
  cases hstep with
  | refused refusal =>
    refine hquiet h ?_ ?_
    · cases refusal <;> cases op <;> rfl
    · cases refusal <;> rfl
  | queued is_open room alone reads => exact hquiet (h.same reads.service reads.sequence) rfl rfl
  | met waiting empty free reads =>
    exact h.issue reads.service reads.sequence rfl (outstanding_of_service reads.service).symm
  | waits empty free alone reads => exact hquiet (h.settle reads.service reads.sequence) rfl rfl
  | received first free alone reads =>
    exact h.issue reads.service reads.sequence rfl (outstanding_of_service reads.service).symm
  | @taken c t m _ serves reads =>
    -- The token that was issued with the call is handed out with its message.
    obtain ⟨earlier, hearlier, hcalls⟩ := h.handed
    have hpast : e'.past callers = e.past callers := by
      rw [past_of_service reads.service, past_of_service serves]
    rw [show EndpointResult.issues _ _ = [] from rfl, List.append_nil]
    refine ⟨reads.sequence.trans h.sequence, fun s hs ↦ ?_, earlier, ?_, ?_⟩
    · obtain rfl := Option.mem_unique reads.service hs
      rw [hpast]
      exact h.current ⟨c, t, some m⟩ serves
    · rwa [hpast]
    · rw [outstanding_of_service serves] at hcalls
      rw [List.map_append, hcalls, outstanding_of_service reads.service, List.append_assoc]
      rfl
  | replied serves reads => exact hquiet (h.settle reads.service reads.sequence) rfl rfl
  | cancelled reads => exact hquiet (h.same reads.service reads.sequence) rfl rfl
  | orphaned serves reads => exact hquiet (h.settle reads.service reads.sequence) rfl rfl
  | terminated other reads => exact hquiet (h.same reads.service reads.sequence) rfl rfl
  | closed reads => exact hquiet (h.settle reads.service reads.sequence) rfl rfl

end Traced

namespace Endpoint

variable {e e' : Endpoint} {callers : List ObjectId} {calls : List ReceivedCall}
  {op : EndpointOp} {result : EndpointResult} {t : UInt64}

theorem Wf.traced (hwf : e.Wf) (h : Traced e callers calls) (ops : List EndpointOp) :
    Traced (e.run ops) (callers ++ e.issued ops) (calls ++ e.deliveries ops) := by
  induction ops generalizing e callers calls with
  | nil =>
    rw [issued, deliveries, List.append_nil, List.append_nil]
    exact h
  | cons op ops ih =>
    obtain ⟨hwf', hstep⟩ := hwf.exec op
    rw [issued, deliveries, ← List.append_assoc, ← List.append_assoc]
    exact ih hwf' (h.step hstep)

/-! ## Who is issued a token -/

/-- **One operation.** Tokens go to threads that are queued or call. -/
theorem Step.known {known : List ObjectId} (hqueue : ∀ x ∈ e.queue, x.caller ∈ known)
    (hstep : Step e op result e') :
    (∀ x ∈ e'.queue, x.caller ∈ known ++ EndpointOp.callers [op])
    ∧ result.issues op ⊆ known ++ EndpointOp.callers [op] := by
  have hmono : ∀ queue, queue ⊆ e.queue → ∀ x ∈ queue,
      x.caller ∈ known ++ EndpointOp.callers [op] :=
    fun queue hsub x hx ↦ List.mem_append_left _ (hqueue x (hsub hx))
  cases hstep with
  | refused refusal =>
    refine ⟨hmono _ (List.Subset.refl _), ?_⟩
    have hnone : result.issues op = [] := by cases refusal <;> cases op <;> rfl
    rw [hnone]
    exact List.nil_subset _
  | queued is_open room alone reads =>
    refine ⟨fun x hx ↦ ?_, List.nil_subset _⟩
    rw [reads.queue, List.mem_append, List.mem_singleton] at hx
    rcases hx with hx | rfl
    · exact hmono _ (List.Subset.refl _) x hx
    · exact List.mem_append_right _ (List.mem_singleton_self _)
  | met waiting empty free reads =>
    refine ⟨reads.queue ▸ hmono [] (List.nil_subset _), ?_⟩
    exact List.subset_append_right _ _
  | waits empty free alone reads =>
    exact ⟨reads.queue ▸ hmono [] (List.nil_subset _), List.nil_subset _⟩
  | @received r x rest _ first free alone reads =>
    refine ⟨?_, List.cons_subset.mpr ⟨?_, List.nil_subset _⟩⟩
    · rw [reads.queue]
      exact hmono rest (first ▸ List.subset_cons_self x rest)
    · exact hmono [x] (first ▸ List.cons_subset.mpr ⟨List.mem_cons_self, List.nil_subset _⟩) x
        (List.mem_singleton_self x)
  | taken serves reads | replied serves reads | orphaned serves reads =>
    exact ⟨reads.queue ▸ hmono _ (List.Subset.refl _), List.nil_subset _⟩
  | cancelled reads | terminated other reads =>
    exact ⟨reads.queue ▸ hmono _ (List.filter_subset_self _), List.nil_subset _⟩
  | closed reads => exact ⟨reads.queue ▸ hmono [] (List.nil_subset _), List.nil_subset _⟩

theorem Wf.issued_subset (hwf : e.Wf) {known : List ObjectId}
    (hqueue : ∀ x ∈ e.queue, x.caller ∈ known) (ops : List EndpointOp) :
    e.issued ops ⊆ known ++ EndpointOp.callers ops := by
  induction ops generalizing e known with
  | nil => exact List.nil_subset _
  | cons op ops ih =>
    obtain ⟨hwf', hstep⟩ := hwf.exec op
    obtain ⟨hqueue', hissues⟩ := hstep.known hqueue
    have hcallers : EndpointOp.callers (op :: ops)
        = EndpointOp.callers [op] ++ EndpointOp.callers ops := by
      rw [EndpointOp.callers, EndpointOp.callers, EndpointOp.callers, ← List.filterMap_append]
      rfl
    rw [hcallers, ← List.append_assoc]
    exact List.append_subset.mpr
      ⟨fun _ hc ↦ List.mem_append_left _ (hissues hc), ih hwf' hqueue'⟩

theorem issued_new_subset (ops : List EndpointOp) :
    Endpoint.new.issued ops ⊆ EndpointOp.callers ops := by
  have hknown : ∀ x ∈ Endpoint.new.queue, x.caller ∈ ([] : List ObjectId) := List.forall_mem_nil _
  exact wf_new.issued_subset hknown ops

/-! ## A token that is past stays past -/

/-- The token was issued, and not for the call that is in service now. -/
def Past (e : Endpoint) (callers : List ObjectId) (t : UInt64) : Prop :=
  t ∈ (stamped (e.past callers)).map Prod.snd

theorem Past.mono (h : e.Past callers t) {callers' : List ObjectId}
    (hpast : e.past callers <+: e'.past callers') : e'.Past callers' t :=
  ((stamped_isPrefix hpast).map _).subset h

theorem past_prefix : e.past callers <+: callers := by
  rw [past]
  split
  · exact List.dropLast_prefix _
  · exact List.prefix_rfl

theorem Past.step (h : e.Past callers t) (hstep : Step e op result e') :
    e'.Past (callers ++ result.issues op) t := by
  have hsettle : e'.service = none → e'.Past (callers ++ result.issues op) t := by
    intro hfree
    refine h.mono ?_
    rw [past_of_free hfree]
    exact past_prefix.trans (List.prefix_append _ _)
  have hsame : e'.service.isSome = e.service.isSome → result.issues op = [] →
      e'.Past (callers ++ result.issues op) t := by
    intro hservice hissues
    have heq : e'.past (callers ++ result.issues op) = e.past callers := by
      rw [hissues, List.append_nil, past, past, hservice]
    exact h.mono (heq ▸ List.prefix_rfl)
  have hissue : ∀ s, e'.service = some s → e.service = none → result.issues op = [s.caller] →
      e'.Past (callers ++ result.issues op) t := by
    intro s hservice hfree hissues
    have heq : e'.past (callers ++ result.issues op) = e.past callers := by
      rw [hissues, past_of_service hservice, List.dropLast_concat, past_of_free hfree]
    exact h.mono (heq ▸ List.prefix_rfl)
  cases hstep with
  | refused refusal => exact hsame rfl (by cases refusal <;> cases op <;> rfl)
  | queued is_open room alone reads => exact hsame (congrArg _ reads.service) rfl
  | met waiting empty free reads => exact hissue _ reads.service free rfl
  | waits empty free alone reads => exact hsettle reads.service
  | received first free alone reads => exact hissue _ reads.service free rfl
  | taken serves reads => exact hsame (by rw [reads.service, serves]; rfl) rfl
  | replied serves reads => exact hsettle reads.service
  | cancelled reads => exact hsame (congrArg _ reads.service) rfl
  | orphaned serves reads => exact hsettle reads.service
  | terminated other reads => exact hsame (congrArg _ reads.service) rfl
  | closed reads => exact hsettle reads.service

theorem Wf.past_run (hwf : e.Wf) (h : e.Past callers t) (ops : List EndpointOp) :
    (e.run ops).Past (callers ++ e.issued ops) t := by
  induction ops generalizing e callers with
  | nil =>
    rw [issued, List.append_nil]
    exact h
  | cons op ops ih =>
    obtain ⟨hwf', hstep⟩ := hwf.exec op
    rw [issued, ← List.append_assoc]
    exact ih hwf' (h.step hstep)

/-- A token that is past after an operation of a run is past at its end. -/
theorem Wf.past_of_split (hwf : e.Wf) (before : List EndpointOp) (op : EndpointOp)
    (after : List EndpointOp)
    (h : ((e.run before).exec op).2.Past
      (e.issued before ++ ((e.run before).exec op).1.issues op) t) :
    (e.run (before ++ op :: after)).Past (e.issued (before ++ op :: after)) t := by
  rw [run_append, issued_append, Endpoint.run, issued, ← List.append_assoc]
  exact ((hwf.run before).exec op).1.past_run h after

/-- With no token issued twice, the call in service has none that is past. -/
theorem Past.ne_token (hpast : e.Past callers t) (h : Traced e callers calls)
    (hnodup : ((stamped callers).map Prod.snd).Nodup) {s : Service} (hs : e.service = some s) :
    s.token ≠ t := by
  rintro rfl
  rw [h.current s hs, List.map_append, List.nodup_append] at hnodup
  exact hnodup.2.2 _ hpast _ (List.mem_singleton_self _) rfl

end Endpoint

namespace Traced

open Endpoint

variable {e e' : Endpoint} {callers : List ObjectId} {calls : List ReceivedCall} {t : UInt64}

theorem past_of_reply (h : Traced e callers calls) {m : InlineMessage} {c : ObjectId}
    (hstep : Step e (.reply t m) (.replied (.ok (.wake c))) e') : e'.Past callers t := by
  cases hstep with
  | refused refusal => cases refusal
  | replied serves reads =>
    rw [Past, past_of_free reads.service, h.current _ serves, List.map_append]
    exact List.mem_append_right _ (List.mem_singleton_self _)

/-- The tokens that were handed out for calls of a thread are past when the thread has terminated.
-/
theorem past_of_termination (h : Traced e callers calls) {c : ObjectId}
    {woke : List ObjectId} (hstep : Step e (.notifyThreadTerminated c) (.notified woke) e')
    (hcall : (c, t) ∈ calls.map stamp) : e'.Past callers t := by
  cases hstep with
  | refused refusal => cases refusal
  | orphaned serves reads =>
    rw [Past, past_of_free reads.service]
    exact List.mem_map_of_mem (h.sublist.subset hcall)
  | terminated other reads =>
    obtain ⟨earlier, hearlier, hcalls⟩ := h.handed
    rw [hcalls, List.mem_append] at hcall
    have hpast : e'.past callers = e.past callers := by rw [past, past, reads.service]
    rw [Past, hpast]
    rcases hcall with hcall | hcall
    · exact List.mem_map_of_mem (hearlier.subset hcall)
    · -- What is outstanding is of the thread in service, which is another one.
      obtain ⟨s, hs, heq⟩ := mem_outstanding hcall
      exact absurd (congrArg Prod.fst heq).symm (other s hs)

/-- The token of the call in service has been handed out, once the message has been taken. -/
theorem handed_of_service (h : Traced e callers calls) {s : Service} (hs : e.service = some s)
    (huntaken : e.untaken = []) : s.token ∈ calls.map replyToken := by
  obtain ⟨earlier, -, hcalls⟩ := h.handed
  have hnone : s.message = none := by simpa [untaken_of_service hs] using huntaken
  have hmem : (s.caller, s.token) ∈ calls.map stamp := by
    rw [hcalls, outstanding_of_service hs, hnone]
    exact List.mem_append_right _ (List.mem_singleton_self _)
  obtain ⟨call, hcall, heq⟩ := List.mem_map.mp hmem
  exact List.mem_map.mpr ⟨call, hcall, congrArg Prod.snd heq⟩

end Traced

namespace Endpoint

/-- **A reply token authorises one call.** In a run in which there is one generation to a thread
index, in which fewer than `2 ^ 32` tokens are issued, and in which no reply comes between a call
that met a waiting receiver and the taking of its message: no two calls are handed out with one
token; and a reply is refused, and wakes nobody, if its token has been replied to, or its caller has
terminated, or it has not been handed out. -/
theorem reply_token_authorises_one_call (ops : List EndpointOp)
    (hone : OneGeneration (EndpointOp.callers ops))
    (hfew : (Endpoint.new.issued ops).length < 2 ^ 32)
    (htaken : Endpoint.new.repliesAfterTake ops = true) :
    ((Endpoint.new.deliveries ops).map ReceivedCall.replyToken).Nodup
    ∧ ∀ before t m after, ops = before ++ .reply t m :: after →
      ((∃ b m' a c, before = b ++ .reply t m' :: a
          ∧ ((Endpoint.new.run b).reply t m').1 = .ok (.wake c))
        ∨ (∃ b c a m', before = b ++ .notifyThreadTerminated c :: a
          ∧ ⟨c, m', t⟩ ∈ Endpoint.new.deliveries b)
        ∨ t ∉ (Endpoint.new.deliveries before).map ReceivedCall.replyToken) →
      ∃ err, (Endpoint.new.run before).reply t m = (.error err, Endpoint.new.run before) := by
  have hissued : ((stamped (Endpoint.new.issued ops)).map Prod.snd).Nodup :=
    nodup_stamped (hone.mono (issued_new_subset ops)) hfew
  have htraced : ∀ ops, Traced (Endpoint.new.run ops) (Endpoint.new.issued ops)
      (Endpoint.new.deliveries ops) := fun ops ↦ wf_new.traced .new ops
  refine ⟨?_, ?_⟩
  · have hsub := ((htraced ops).sublist.map Prod.snd).nodup hissued
    rwa [List.map_map] at hsub
  rintro before t m after rfl hspent
  have hwf := wf_new.run before
  refine (hwf.reply_held t m).resolve_right ?_
  rintro ⟨c, o, -, -, hserves, -⟩
  -- The tokens of the run so far are among those of the whole run.
  have hnodup : ((stamped (Endpoint.new.issued before)).map Prod.snd).Nodup := by
    rw [issued_append] at hissued
    exact ((stamped_isPrefix (List.prefix_append _ _)).map _).sublist.nodup hissued
  have hcurrent : ¬ (Endpoint.new.run before).Past (Endpoint.new.issued before) t :=
    fun hpast ↦ hpast.ne_token (htraced before) hnodup hserves rfl
  rcases hspent with ⟨b, m', a, c', rfl, hreply⟩ | ⟨b, c', a, m', rfl, hcall⟩ | hnever
  · have hstep := ((wf_new.run b).exec (.reply t m')).2
    have hanswer : ((Endpoint.new.run b).exec (.reply t m')).1 = .replied (.ok (.wake c')) :=
      congrArg EndpointResult.replied hreply
    rw [hanswer] at hstep
    refine hcurrent (wf_new.past_of_split b _ a ?_)
    rw [hanswer]
    exact (List.append_nil _).symm ▸ (htraced b).past_of_reply hstep
  · have hstep := ((wf_new.run b).exec (.notifyThreadTerminated c')).2
    refine hcurrent (wf_new.past_of_split b _ a ?_)
    exact (List.append_nil _).symm ▸
      (htraced b).past_of_termination hstep (List.mem_map_of_mem hcall)
  · have huntaken : (Endpoint.new.run before).untaken = [] := by
      rw [repliesAfterTake_append, Bool.and_eq_true, repliesAfterTake, Bool.and_eq_true] at htaken
      exact of_decide_eq_true htaken.2.1
    exact hnever ((htraced before).handed_of_service hserves huntaken)

/-- A call that met the waiting server is taken and answered, and its token is tried again; a second
call is received, its caller terminates, and its token is tried. -/
def triedAgain : List EndpointOp :=
  [.receive ⟨9, 1⟩, .call ⟨5, 1⟩ ⟨[1]⟩, .takeReceivedCall, .call ⟨6, 1⟩ ⟨[2]⟩,
   .reply (tokenFor ⟨5, 1⟩ 1) ⟨[]⟩, .reply (tokenFor ⟨5, 1⟩ 1) ⟨[]⟩, .receive ⟨9, 1⟩,
   .notifyThreadTerminated ⟨6, 1⟩, .reply (tokenFor ⟨6, 1⟩ 2) ⟨[]⟩]

theorem reply_token_of_triedAgain :
    ((Endpoint.new.deliveries triedAgain).map ReceivedCall.replyToken).Nodup
    ∧ (∃ err, (Endpoint.new.run (triedAgain.take 5)).reply (tokenFor ⟨5, 1⟩ 1) ⟨[]⟩
      = (.error err, Endpoint.new.run (triedAgain.take 5)))
    ∧ ∃ err, (Endpoint.new.run (triedAgain.take 8)).reply (tokenFor ⟨6, 1⟩ 2) ⟨[]⟩
      = (.error err, Endpoint.new.run (triedAgain.take 8)) := by
  have h := reply_token_authorises_one_call triedAgain (by decide) (by decide) (by decide)
  refine ⟨h.1, h.2 (triedAgain.take 5) _ _ (triedAgain.drop 6) rfl (Or.inl ?_),
    h.2 (triedAgain.take 8) _ _ [] rfl (Or.inr (Or.inl ?_))⟩
  · exact ⟨triedAgain.take 4, ⟨[]⟩, [], ⟨5, 1⟩, rfl, by decide⟩
  · exact ⟨triedAgain.take 7, ⟨6, 1⟩, [], ⟨[2]⟩, rfl, by decide⟩

/-- A thread calls and is answered; its index is given to a new thread, of the next generation,
which calls and is received. -/
def reusedIndex : List EndpointOp :=
  [.call ⟨5, 1⟩ ⟨[1]⟩, .receive ⟨9, 1⟩, .reply (tokenFor ⟨5, 1⟩ 1) ⟨[]⟩,
   .notifyThreadTerminated ⟨5, 1⟩, .call ⟨5, 2⟩ ⟨[2]⟩, .receive ⟨9, 1⟩]

/-- The two calls are handed out with one token, and the token of the first, which was answered,
answers the second. -/
theorem reply_token_twice_of_reusedIndex :
    (Endpoint.new.issued reusedIndex).length < 2 ^ 32
    ∧ ¬ ((Endpoint.new.deliveries reusedIndex).map ReceivedCall.replyToken).Nodup
    ∧ ((Endpoint.new.run (reusedIndex.take 2)).reply (tokenFor ⟨5, 1⟩ 1) ⟨[]⟩).1
      = .ok (.wake ⟨5, 1⟩)
    ∧ ((Endpoint.new.run reusedIndex).reply (tokenFor ⟨5, 1⟩ 1) ⟨[]⟩).1 = .ok (.wake ⟨5, 2⟩) := by
  decide

end Endpoint

end Gaxera

import Gaxera.Capability.Attenuation
import Gaxera.Core.Dispatch
import Gaxera.Ipc.Syscalls

/-!
# Who may reply

A `Reply` names a token and nothing else. The kernel goes through all endpoints of the system and
hands the token to each, and the first open endpoint whose call in service has that token takes the
reply. Neither the endpoint nor the kernel remembers to whom the call was handed out, so the token
is all the authority there is; and it is put together from the identity of the caller and a counter.

To say who may reply, the server of a call is recorded beside the machine: `Audited` notes, when a
call is handed out, the thread that the processor goes on with. A thread is entitled to an endpoint
when it is the server of the call in service there, or when its space holds a live handle to it.
-/

namespace Gaxera

/-- The caller and the token of the call in service. -/
def Endpoint.inService (e : Endpoint) : Option (ObjectId × UInt64) :=
  e.service.map fun s ↦ (s.caller, s.token)

/-- The same, once the call has been handed out. -/
def Endpoint.handedOut (e : Endpoint) : Option (ObjectId × UInt64) :=
  if e.untaken.isEmpty then e.inService else none

namespace Kernel

def inService (k : Kernel) (id : ObjectId) : Option (ObjectId × UInt64) :=
  (k.endpoints.get id).bind Endpoint.inService

def handedOut (k : Kernel) (id : ObjectId) : Option (ObjectId × UInt64) :=
  (k.endpoints.get id).bind Endpoint.handedOut

/-- The first open endpoint whose call in service has the token. -/
def answering (k : Kernel) (token : UInt64) : Option ObjectId :=
  k.endpoints.entries.findSome? fun (id, e) ↦
    if e.closed = false ∧ e.inService.map Prod.snd = some token then some id else none

/-- The space has a live handle to the endpoint, with whatever rights. -/
def HoldsEndpoint (k : Kernel) (cspaceId id : ObjectId) : Prop :=
  ∃ cspace handle, k.caps.spaces.get cspaceId = some cspace
    ∧ k.caps.system.lookup cspace handle .endpoint Rights.none k.arena = .ok id

end Kernel

/-- A machine, and for each endpoint the thread that its call in service was handed out to. -/
structure Audited where
  machine : Machine
  server : ObjectId → Option ObjectId

namespace Audited

variable (mapper : Mapper)

/-- The thread that the processor goes on with. -/
def runs (m : Machine) : Exit → Option ObjectId
  | .switches thread => some thread
  | _ => m.kernel.scheduler.currentThread

def perform (s : Audited) (op : IpcOp) : Exit × Audited :=
  let r := s.machine.perform mapper op
  (r.1,
    { machine := r.2
      server := fun id ↦
        -- A call that was not handed out before is handed out now.
        if r.2.kernel.handedOut id ≠ none ∧ r.2.kernel.handedOut id ≠ s.machine.kernel.handedOut id
        then runs s.machine r.1 else s.server id })

def run (s : Audited) : List IpcOp → Audited
  | [] => s
  | op :: ops => run (s.perform mapper op).2 ops

/-- The thread is the server of the call in service, or its space has a handle to the endpoint. -/
def Entitled (s : Audited) (thread cspaceId id : ObjectId) : Prop :=
  s.server id = some thread ∨ s.machine.kernel.HoldsEndpoint cspaceId id

/-- The call in service at an endpoint is there no more. -/
def Completes (k k' : Kernel) (id : ObjectId) : Prop :=
  k.inService id ≠ none ∧ k'.inService id ≠ k.inService id

/-- A `Reply` completes only calls that the replying thread is entitled to, and one by a thread that
is entitled to nothing changes nothing. -/
def OnlyServerReplies (s : Audited) (token : UInt64) (message : InlineMessage) : Prop :=
  ∀ thread cspaceId, s.machine.caller = .ok (thread, cspaceId) →
    let k' := (s.perform mapper (.reply token message)).2.machine.kernel
    (∀ id, Completes s.machine.kernel k' id → s.Entitled thread cspaceId id)
    ∧ ((∀ id, ¬ s.Entitled thread cspaceId id) → k' = s.machine.kernel)

end Audited

/-! ## What a reply does to the calls in service -/

theorem Endpoint.inService_takeReceivedCall (e : Endpoint) :
    e.takeReceivedCall.2.inService = e.inService := by
  obtain ⟨state, sequence, closed⟩ := e
  rcases state with _ | _ | _ | ⟨caller, active, _ | stored, pending⟩ <;> rfl

namespace Kernel

variable {k : Kernel} {token : UInt64} {message : InlineMessage}

/-- **A reply** is taken by the endpoint that the token leads to, and by no other. -/
theorem map_replied (k : Kernel) (token : UInt64) (message : InlineMessage) :
    (k.replied token message).map (fun r ↦ r.1) = k.answering token := by
  rw [replied, List.map_findSome?, answering]
  refine congrArg (List.findSome? · _) (funext fun x ↦ ?_)
  obtain ⟨id, ⟨state, sequence, closed⟩⟩ := x
  cases closed with
  | true => rfl
  | false =>
    cases state with
    | replyOutstanding caller active stored pending =>
      by_cases htoken : active = token
      · subst htoken
        simp [Endpoint.inService, Endpoint.service, Endpoint.reply]
      · simp [Endpoint.inService, Endpoint.service, Endpoint.reply, htoken, Ne.symm htoken]
    | idle | callersPending | receiverWaiting => rfl

theorem inService_of_replied {id c : ObjectId} {e' : Endpoint}
    (h : k.replied token message = some (id, c, e')) :
    k.inService id = some (c, token) ∧ e'.inService = none := by
  obtain ⟨⟨j, e⟩, hmem, heq⟩ := List.exists_of_findSome?_eq_some h
  have hget := Registry.mem_entries.mp hmem
  obtain ⟨state, sequence, closed⟩ := e
  rw [inService]
  cases closed with
  | true => cases heq
  | false =>
    cases state with
    | replyOutstanding caller active stored pending =>
      by_cases htoken : token = active
      · subst htoken
        simp only [Endpoint.reply, Bool.false_eq_true, if_false, ne_eq, not_true_eq_false] at heq
        obtain ⟨rfl, rfl, rfl⟩ : j = id ∧ caller = c ∧ _ = e' := by simpa using heq
        rw [hget]
        refine ⟨rfl, ?_⟩
        by_cases hnil : pending.isEmpty <;> simp [Endpoint.inService, Endpoint.service,
          Endpoint.pendingOrIdle, hnil]
      · simp [Endpoint.reply, htoken] at heq
    | idle | callersPending | receiverWaiting => cases heq

theorem inService_congr {k' : Kernel} (h : k'.endpoints = k.endpoints) (j : ObjectId) :
    k'.inService j = k.inService j := by
  rw [inService, inService, h]

theorem inService_setEndpoint (id : ObjectId) (e : Endpoint) (j : ObjectId) :
    (k.setEndpoint id e).inService j
      = if j = id then (k.endpoints.get id).bind (fun _ ↦ e.inService) else k.inService j := by
  rw [inService, setEndpoint, Registry.get_modify]
  by_cases hj : j = id
  · rw [if_pos hj, if_pos hj]
    cases k.endpoints.get id <;> rfl
  · rw [if_neg hj, if_neg hj]
    rfl

theorem endpoints_wakeThread (c : ObjectId) : (k.wakeThread c).endpoints = k.endpoints := by
  rw [wakeThread]
  split <;> rfl

theorem reschedule_endpoints {k' : Kernel} {current next : ObjectId}
    (h : k.reschedule current next = some k') : k'.endpoints = k.endpoints := by
  rw [reschedule] at h
  split at h
  · cases h
  · split at h
    · cases h
    · split at h
      · cases h
      · split at h
        · cases h
          rfl
        · cases h

end Kernel

namespace Machine

variable {m : Machine}

theorem inService_serve (server : ObjectId) (call : ReceivedCall) (j : ObjectId) :
    (m.serve server call).2.kernel.inService j = m.kernel.inService j := by
  rw [serve]
  cases m.kernel.threads.get server <;> rfl

theorem inService_finish (thread : ObjectId) (rest : Resume) (j : ObjectId) :
    (m.finish thread rest).2.kernel.inService j = m.kernel.inService j := by
  cases rest with
  | called =>
    rw [finish]
    cases m.kernel.threads.get thread <;> rfl
  | received endpoint =>
    rw [finish]
    cases hget : m.kernel.endpoints.get endpoint with
    | none => rfl
    | some e =>
      have htake : (m.kernel.setEndpoint endpoint e.takeReceivedCall.2).inService j
          = m.kernel.inService j := by
        rw [Kernel.inService_setEndpoint, hget, Option.bind_some,
          Endpoint.inService_takeReceivedCall]
        by_cases hj : j = endpoint
        · rw [if_pos hj, hj, Kernel.inService, hget]
          rfl
        · rw [if_neg hj]
      dsimp only
      split
      · exact htake
      · exact (inService_serve _ _ j).trans htake

theorem inService_goOn (thread j : ObjectId) :
    (m.goOn thread).2.kernel.inService j = m.kernel.inService j := by
  rw [goOn]
  split
  · rfl
  · next rest _ =>
    have hfinish := inService_finish
      (m := { m with resumes := Function.update m.resumes thread none }) thread rest j
    split
    · next heq =>
      rw [heq] at hfinish
      exact hfinish
    · next heq =>
      rw [heq] at hfinish
      exact hfinish

theorem inService_handOver (current caller : ObjectId) (pendingCallers : ℕ) (j : ObjectId) :
    (m.handOver current caller pendingCallers).2.kernel.inService j = m.kernel.inService j := by
  rw [handOver]
  cases m.kernel.threads.get current with
  | none => rfl
  | some t =>
    dsimp only
    have hk : (if pendingCallers = 0 then m.kernel.setThread current t.restorePriority
        else m.kernel).endpoints = m.kernel.endpoints := by
      split <;> rfl
    split
    · exact Kernel.inService_congr hk j
    · next k' hk' =>
      exact (inService_goOn caller j).trans
        (Kernel.inService_congr ((Kernel.reschedule_endpoints hk').trans hk) j)

/-- **The calls in service behind a reply**: only the one that is answered is gone. -/
theorem inService_reply {current : ObjectId} {token : UInt64} {message : InlineMessage}
    {id c : ObjectId} {e' : Endpoint} (h : m.kernel.replied token message = some (id, c, e'))
    (j : ObjectId) :
    (m.reply current token message).2.kernel.inService j
      = if j = id then none else m.kernel.inService j := by
  rw [reply, h]
  refine (inService_handOver current c _ j).trans ?_
  have hset : (m.kernel.setEndpoint id e').inService j
      = if j = id then none else m.kernel.inService j := by
    rw [Kernel.inService_setEndpoint, (Kernel.inService_of_replied h).2]
    cases m.kernel.endpoints.get id <;> rfl
  refine Eq.trans (Kernel.inService_congr ?_ j) hset
  dsimp only [setKernel]
  split
  · rfl
  · exact Kernel.endpoints_wakeThread _

end Machine

/-! ## Who may reply -/

namespace Audited

variable {mapper : Mapper} {s : Audited} {token : UInt64} {message : InlineMessage}

/-- The token leads to an endpoint that the thread is entitled to, if it leads anywhere. -/
def Authorised (s : Audited) (token : UInt64) : Prop :=
  ∀ thread cspaceId cspace id, s.machine.caller = .ok (thread, cspaceId) →
    s.machine.kernel.caps.spaces.get cspaceId = some cspace →
    s.machine.kernel.answering token = some id → s.Entitled thread cspaceId id

theorem perform_reply_of_refused {thread cspaceId : ObjectId}
    (hcaller : s.machine.caller = .ok (thread, cspaceId))
    (h : s.machine.kernel.caps.spaces.get cspaceId = none
      ∨ s.machine.kernel.replied token message = none) :
    (s.perform mapper (.reply token message)).2.machine = s.machine := by
  change (s.machine.perform mapper (.reply token message)).2 = s.machine
  rw [Machine.perform, Machine.invokeIn, Machine.invoke, hcaller]
  dsimp only
  rcases h with hnone | hnone
  · rw [hnone]
  · cases s.machine.kernel.caps.spaces.get cspaceId with
    | none => rfl
    | some cspace =>
      dsimp only
      rw [Machine.reply, hnone]

theorem perform_reply_of_taken {thread cspaceId : ObjectId} {cspace : CapabilitySpace}
    (hcaller : s.machine.caller = .ok (thread, cspaceId))
    (hspace : s.machine.kernel.caps.spaces.get cspaceId = some cspace) :
    (s.perform mapper (.reply token message)).2.machine
      = (s.machine.reply thread token message).2 := by
  change (s.machine.perform mapper (.reply token message)).2 = _
  rw [Machine.perform, Machine.invokeIn, Machine.invoke, hcaller]
  dsimp only
  rw [hspace]

/-- **Who may reply.** A reply is the business of the server, or of a holder of the endpoint,
exactly when the token does not lead anybody else to an open endpoint. -/
theorem only_server_replies_iff :
    s.OnlyServerReplies mapper token message ↔ s.Authorised token := by
  constructor
  · intro h thread cspaceId cspace id hcaller hspace hanswering
    refine (h thread cspaceId hcaller).1 id ?_
    have hmap := s.machine.kernel.map_replied token message
    rw [hanswering] at hmap
    obtain ⟨⟨id', c, e'⟩, hreplied, rfl⟩ := Option.map_eq_some_iff.mp hmap
    have hbefore := (Kernel.inService_of_replied hreplied).1
    rw [Completes, perform_reply_of_taken hcaller hspace, Machine.inService_reply hreplied,
      if_pos rfl, hbefore]
    exact ⟨Option.some_ne_none _, (Option.some_ne_none _).symm⟩
  · intro h thread cspaceId hcaller
    cases hspace : s.machine.kernel.caps.spaces.get cspaceId with
    | none =>
      have hsame : (s.perform mapper (.reply token message)).2.machine = s.machine :=
        perform_reply_of_refused hcaller (Or.inl hspace)
      rw [hsame]
      exact ⟨fun id hid ↦ absurd rfl hid.2, fun _ ↦ rfl⟩
    | some cspace =>
      cases hreplied : s.machine.kernel.replied token message with
      | none =>
        rw [perform_reply_of_refused hcaller (Or.inr hreplied)]
        exact ⟨fun id hid ↦ absurd rfl hid.2, fun _ ↦ rfl⟩
      | some r =>
        obtain ⟨id, c, e'⟩ := r
        have hanswering : s.machine.kernel.answering token = some id := by
          rw [← s.machine.kernel.map_replied token message, hreplied]
          rfl
        have hentitled := h thread cspaceId cspace id hcaller hspace hanswering
        refine ⟨fun j hj ↦ ?_, fun hnone ↦ absurd hentitled (hnone id)⟩
        rw [Completes, perform_reply_of_taken hcaller hspace,
          Machine.inService_reply hreplied] at hj
        by_cases hid : j = id
        · exact hid ▸ hentitled
        · rw [if_neg hid] at hj
          exact absurd rfl hj.2

/-! ## An intruder with a guess -/

/-- A domain, the space of a client and its server, an empty space, an endpoint, and three
threads. -/
def trioObjects : ObjectArena :=
  ⟨[⟨1, .live .resourceDomain ⟨⟨0, 1⟩⟩⟩, ⟨1, .live .capabilitySpace ⟨⟨0, 1⟩⟩⟩,
    ⟨1, .live .capabilitySpace ⟨⟨0, 1⟩⟩⟩, ⟨1, .live .endpoint ⟨⟨0, 1⟩⟩⟩,
    ⟨1, .live .thread ⟨⟨0, 1⟩⟩⟩,
    ⟨1, .live .thread ⟨⟨0, 1⟩⟩⟩, ⟨1, .live .thread ⟨⟨0, 1⟩⟩⟩], 8, none⟩

/-- A client runs; its server and an intruder without any handle are queued behind it. -/
def trio : Audited where
  machine :=
    { kernel :=
        { Kernel.bare (CapState.twoSpaces.run
              [.insertRoot ⟨1, 1⟩ ⟨0, 1⟩ ⟨3, 1⟩ .endpoint (Rights.read ||| Rights.write)
                trioObjects])
            trioObjects ⟨[], [], 0⟩ with
          endpoints := Registry.empty.insert ⟨3, 1⟩ Endpoint.new
          threads :=
            ((Registry.empty.insert ⟨4, 1⟩
                ⟨⟨4, 1⟩, .running, none, some ⟨1, 1⟩, 0, 0, ⟨0, []⟩, none⟩).insert
              ⟨5, 1⟩ ⟨⟨5, 1⟩, .runnable, none, some ⟨1, 1⟩, 0, 0, ⟨0, []⟩, none⟩).insert
              ⟨6, 1⟩ ⟨⟨6, 1⟩, .runnable, none, some ⟨2, 1⟩, 0, 0, ⟨0, []⟩, none⟩
          scheduler := ⟨[⟨5, 1⟩, ⟨6, 1⟩] :: List.replicate 31 [], 1, some ⟨4, 1⟩, 64, 2⟩ }
      resumes := fun _ ↦ none }
  server := fun _ ↦ none

/-- The client calls, the server receives, and the timer passes the processor to the intruder. -/
def preempted : List IpcOp :=
  [.call (Handle.fromParts 0 1) ⟨[7]⟩, .receive (Handle.fromParts 0 1), .timer]

/-- The intruder has no handle, the call was handed out to the server, and the guessed token
completes it. -/
theorem intruder_replies :
    ¬ (trio.run .walk preempted).OnlyServerReplies .walk (Endpoint.tokenFor ⟨4, 1⟩ 1) ⟨[8]⟩ := by
  intro h
  have hcaller : (trio.run .walk preempted).machine.caller = .ok (⟨6, 1⟩, ⟨2, 1⟩) := by
    decide +kernel
  rcases (h ⟨6, 1⟩ ⟨2, 1⟩ hcaller).1 ⟨3, 1⟩ ⟨by decide +kernel, by decide +kernel⟩ with
    hserver | ⟨cspace, handle, hspace, hlookup⟩
  · have : (trio.run .walk preempted).server ⟨3, 1⟩ = some ⟨5, 1⟩ := by decide +kernel
    cases this.symm.trans hserver
  · have hslots : ((trio.run .walk preempted).machine.kernel.caps.spaces.get ⟨2, 1⟩).map
        CapabilitySpace.slots = some [] := by decide +kernel
    rw [hspace, Option.map_some] at hslots
    obtain ⟨node, info, hnode, -⟩ := CapState.lookup_eq_ok hlookup
    have hslot := (CapabilitySpace.nodeFor_eq_ok.mp hnode).2
    rw [CapabilitySpace.slotAt, Option.some.inj hslots] at hslot
    cases hslot

end Audited

end Gaxera

import Gaxera.User.Spawn

/-!
# Handles that a spawn leaves behind

The capability space of the caller, followed through `spawn` under every combination of successes
and failures of its calls. A call that returns a handle adds one the caller did not have; deleting a
handle removes it, if the deletion succeeds.

The ways out of the first four calls delete what there is. From there on nothing balances: the ways
out that follow forget the capability space of the child, except for one that forgets the memory of
the stack, and so does success.
-/

namespace Gaxera

/-- The operations that return a handle. -/
def ProcessControlOp.acquires : ProcessControlOp → Bool
  | .acquireAddressSpace | .acquireMainThread | .acquireCapabilitySpace => true
  | .installCapability | .configureMainThread | .start => false

/-- A call that may return a handle. -/
def Gains (handles : List Handle) : Option UInt64 → List Handle → Prop
  | none, handles' => handles' = handles
  | some raw, handles' => ⟨raw⟩ ∉ handles ∧ handles' = ⟨raw⟩ :: handles

/-- What a call may do to the handles of its caller. Whether unmapping uses the handle of the
mapping up is left open. -/
def SpawnCall.Moves (handles : List Handle) (answer : Option UInt64) (handles' : List Handle) :
    SpawnCall → Prop
  | .createProcess .. => Gains handles answer handles'
  | .processControl _ operation .. =>
    if operation.acquires then Gains handles answer handles' else handles' = handles
  | .createMemoryObject .. => Gains handles answer handles'
  | .mapMemory .. => Gains handles answer handles'
  | .unmapMemory mapping =>
    handles' = handles ∨ handles' = handles.filter fun h ↦ decide (h ≠ mapping)
  | .deleteHandle handle =>
    handles' = if answer.isSome then handles.filter fun h ↦ decide (h ≠ handle) else handles
  | .copy .. => handles' = handles

/-- The caller of `spawn`: its handles, and the calls made so far with their answers. -/
structure Caller where
  handles : List Handle
  log : List (SpawnCall × Option UInt64)

/-- Any answer to any call. -/
def Caller.Behaves (call : SpawnCall) (s : Caller) (answer : Option UInt64) (s' : Caller) : Prop :=
  s'.log = s.log ++ [(call, answer)] ∧ call.Moves s.handles answer s'.handles

/-- After an error the handles are those of before; after success there is one more, the process. -/
def Balances (before : List Handle) : Except SpawnExit Handle → List Handle → Prop
  | .ok process, after => process ∉ before ∧ ∀ h, h ∈ after ↔ h = process ∨ h ∈ before
  | .error (.failed _), after => ∀ h, h ∈ after ↔ h ∈ before
  | .error (.faulted _), _ => False

/-- The calls by which the process and its parts are acquired. -/
def SpawnCall.acquires : SpawnCall → Bool
  | .createProcess .. => true
  | .processControl _ operation .. => operation.acquires
  | _ => false

def SpawnCall.isDelete : SpawnCall → Bool
  | .deleteHandle _ => true
  | _ => false

/-- One of the calls that acquire the process and its parts failed, and no deletion did. -/
def StopsEarly (log : List (SpawnCall × Option UInt64)) : Prop :=
  (∃ entry ∈ log, entry.1.acquires = true ∧ entry.2 = none)
    ∧ ∀ entry ∈ log, entry.1.isDelete = true → entry.2 ≠ none

theorem SpawnCall.gains_of_acquires {handles handles' : List Handle} {answer : Option UInt64}
    (call : SpawnCall) (hcall : call.acquires = true) (h : call.Moves handles answer handles') :
    Gains handles answer handles' ∧ call.isDelete = false := by
  cases call with
  | createProcess => exact ⟨h, rfl⟩
  | processControl process operation arg1 arg2 arg3 =>
    have hacquires : operation.acquires = true := hcall
    rw [Moves, if_pos hacquires] at h
    exact ⟨h, rfl⟩
  | _ => cases hcall

variable {before : List Handle} {s : Caller} {α : Type}

/-! ## Deletions -/

/-- **What deletions do**: a handle is left exactly if it was there and no deletion of it succeeds.
-/
theorem deleteHandles_always (result : Except SpawnExit α) (handles : List Handle) (s : Caller) :
    (deleteHandles result handles).Always Caller.Behaves (fun r s' ↦ r = result
      ∧ ∃ new, s'.log = s.log ++ new ∧ new.map Prod.fst = handles.map SpawnCall.deleteHandle
        ∧ ∀ h, h ∈ s'.handles ↔ h ∈ s.handles
          ∧ ∀ entry ∈ new, entry.1 = .deleteHandle h → entry.2 = none) s := by
  induction handles generalizing s with
  | nil => exact ⟨rfl, [], (List.append_nil _).symm, rfl, fun h ↦ by simp⟩
  | cons g handles ih =>
    rintro answer s₁ ⟨hlog, hmoves⟩
    refine (ih s₁).imp ?_
    rintro r s' ⟨rfl, new, hlog', hcalls, hleft⟩
    refine ⟨rfl, (.deleteHandle g, answer) :: new, ?_, congrArg _ hcalls, fun h ↦ ?_⟩
    · rw [hlog', hlog, List.append_assoc]
      rfl
    · have hs₁ : h ∈ s₁.handles ↔ h ∈ s.handles ∧ (g = h → answer = none) := by
        have hmoves : s₁.handles = if answer.isSome then
            s.handles.filter fun h ↦ decide (h ≠ g) else s.handles := hmoves
        rw [hmoves]
        cases answer with
        | none => simp
        | some raw =>
          rw [Option.isSome_some, if_pos rfl, List.mem_filter, decide_eq_true_eq]
          exact and_congr_right fun _ ↦
            ⟨fun hne heq ↦ absurd heq.symm hne, fun himp heq ↦ nomatch himp heq.symm⟩
      rw [hleft, hs₁]
      simp only [List.mem_cons, forall_eq_or_imp, SpawnCall.deleteHandle.injEq, and_assoc]

/-- If these were all the handles there are on top of those of before, nothing is left over exactly
if every deletion succeeds. -/
theorem giveUp_always {e : ProcessBuildError} {handles : List Handle} (hnodup : handles.Nodup)
    (hfresh : ∀ h ∈ handles, h ∉ before) (hs : ∀ h, h ∈ s.handles ↔ h ∈ handles ∨ h ∈ before)
    (hacquire : ∃ entry ∈ s.log, entry.1.acquires = true ∧ entry.2 = none)
    (hdelete : ∀ entry ∈ s.log, entry.1.isDelete = false) :
    (giveUp handles e : SpawnScript α).Always Caller.Behaves (fun r s' ↦ ∃ exit,
      r = .error exit ∧ (Balances before (.error exit) s'.handles ↔ StopsEarly s'.log)) s := by
  refine (deleteHandles_always _ handles s).imp ?_
  rintro r s' ⟨rfl, new, hlog, hcalls, hleft⟩
  have honly : ∀ entry ∈ new, ∃ h ∈ handles, entry.1 = .deleteHandle h := by
    intro entry hentry
    have hmem : entry.1 ∈ handles.map SpawnCall.deleteHandle := hcalls ▸ List.mem_map_of_mem hentry
    obtain ⟨h, hh, heq⟩ := List.mem_map.mp hmem
    exact ⟨h, hh, heq.symm⟩
  refine ⟨_, rfl, ?_, ?_⟩
  · intro hbalances
    obtain ⟨entry, hentry, hfailed⟩ := hacquire
    refine ⟨⟨entry, hlog ▸ List.mem_append_left _ hentry, hfailed⟩, fun entry hentry hisDelete ↦ ?_⟩
    rw [hlog] at hentry
    rcases List.mem_append.mp hentry with hentry | hentry
    · rw [hdelete entry hentry] at hisDelete
      cases hisDelete
    · -- a handle whose deletion fails is left over, since there is no other deletion of it
      intro hnone
      obtain ⟨h, hh, hcall⟩ := honly entry hentry
      have hnodup' : (new.map Prod.fst).Nodup :=
        hcalls ▸ hnodup.map fun _ _ heq ↦ SpawnCall.deleteHandle.inj heq
      refine hfresh h hh ((hbalances h).mp ((hleft h).mpr ⟨(hs h).mpr (Or.inl hh), ?_⟩))
      intro entry' hentry' hcall'
      rw [List.inj_on_of_nodup_map hnodup' hentry' hentry (hcall'.trans hcall.symm)]
      exact hnone
  · rintro ⟨-, hdeletes⟩ h
    rw [hleft, hs]
    constructor
    · rintro ⟨hh | hh, hnone⟩
      · have hmem : SpawnCall.deleteHandle h ∈ new.map Prod.fst := hcalls ▸ List.mem_map_of_mem hh
        obtain ⟨entry, hentry, hcall⟩ := List.mem_map.mp hmem
        refine absurd (hnone entry hentry hcall) (hdeletes entry ?_ (hcall ▸ rfl))
        exact hlog ▸ List.mem_append_right _ hentry
      · exact hh
    · refine fun hh ↦ ⟨Or.inr hh, fun entry hentry hcall ↦ ?_⟩
      obtain ⟨g, hg, hcall'⟩ := honly entry hentry
      rw [SpawnCall.deleteHandle.inj (hcall'.symm.trans hcall)] at hg
      exact absurd hh (hfresh h hg)

/-! ## What is forgotten -/

/-- The caller has the handles `kept`, and every part of the process was acquired. -/
structure Caller.Keeps (kept : List Handle) (s : Caller) : Prop where
  mem : ∀ h ∈ kept, h ∈ s.handles
  acquired : ∀ entry ∈ s.log, entry.1.acquires = true → entry.2 ≠ none

namespace Caller.Keeps

variable {kept : List Handle} {s' : Caller} {answer : Option UInt64} {call : SpawnCall}
  {g m : Handle}

private theorem step (h : s.Keeps kept) (hcall : call.acquires = false)
    (hb : Behaves call s answer s') (hmem : ∀ g ∈ kept, g ∈ s'.handles) : s'.Keeps kept := by
  refine ⟨hmem, fun entry hentry hacquires ↦ ?_⟩
  rw [hb.1] at hentry
  rcases List.mem_append.mp hentry with hentry | hentry
  · exact h.acquired entry hentry hacquires
  · rw [List.mem_singleton.mp hentry, hcall] at hacquires
    cases hacquires

theorem mono (h : s.Keeps kept) (hg : g ∈ kept) : s.Keeps [g] :=
  ⟨fun _ hmem ↦ List.mem_singleton.mp hmem ▸ h.mem g hg, h.acquired⟩

/-- A call that may return a handle: if it does, the handle is a new one. -/
theorem gains (h : s.Keeps kept) (hcall : call.acquires = false) (hb : Behaves call s answer s')
    (hgains : Gains s.handles answer s'.handles) :
    s'.Keeps kept ∧ ∀ raw, answer = some raw → ⟨raw⟩ ∉ kept ∧ s'.Keeps (⟨raw⟩ :: kept) := by
  cases answer with
  | none =>
    have hsame : s'.handles = s.handles := hgains
    exact ⟨h.step hcall hb fun g hg ↦ hsame ▸ h.mem g hg, fun raw hraw ↦ nomatch hraw⟩
  | some raw =>
    obtain ⟨hfresh, hhandles⟩ := hgains
    have hkeeps : s'.Keeps kept :=
      h.step hcall hb fun g hg ↦ hhandles ▸ List.mem_cons_of_mem _ (h.mem g hg)
    refine ⟨hkeeps, fun raw' hraw ↦ ?_⟩
    obtain rfl := Option.some.inj hraw
    refine ⟨fun hmem ↦ hfresh (h.mem _ hmem), fun g hg ↦ ?_, hkeeps.acquired⟩
    rcases List.mem_cons.mp hg with rfl | hg
    · exact hhandles ▸ List.mem_cons_self
    · exact hkeeps.mem g hg

theorem same (h : s.Keeps kept) (hcall : call.acquires = false) (hb : Behaves call s answer s')
    (hsame : s'.handles = s.handles) : s'.Keeps kept :=
  h.step hcall hb fun g hg ↦ hsame ▸ h.mem g hg

private theorem mem_filter_ne (h : s.Keeps kept) (hm : m ∉ kept) (hg : g ∈ kept) :
    g ∈ s.handles.filter fun h ↦ decide (h ≠ m) :=
  List.mem_filter.mpr ⟨h.mem g hg, decide_eq_true fun heq ↦ hm (heq ▸ hg)⟩

theorem unmap (h : s.Keeps kept) (hm : m ∉ kept) (hb : Behaves (.unmapMemory m) s answer s') :
    s'.Keeps kept := by
  refine h.step rfl hb fun g hg ↦ ?_
  rcases hb.2 with hsame | hsame
  · exact hsame ▸ h.mem g hg
  · exact hsame ▸ h.mem_filter_ne hm hg

theorem delete (h : s.Keeps kept) (hm : m ∉ kept) (hb : Behaves (.deleteHandle m) s answer s') :
    s'.Keeps kept := by
  refine h.step rfl hb fun g hg ↦ ?_
  have hhandles : s'.handles
      = if answer.isSome then s.handles.filter fun h ↦ decide (h ≠ m) else s.handles := hb.2
  rw [hhandles]
  split
  · exact h.mem_filter_ne hm hg
  · exact h.mem g hg

theorem deleteHandles (h : s.Keeps kept) (hg : g ∈ kept) {handles : List Handle}
    (hnot : g ∉ handles) (result : Except SpawnExit α) :
    (deleteHandles result handles).Always Behaves (fun r s' ↦ r = result ∧ s'.Keeps [g]) s := by
  have hone := h.mono hg
  clear h hg
  induction handles generalizing s with
  | nil => exact ⟨rfl, hone⟩
  | cons m handles ih =>
    intro answer s' hb
    rw [List.mem_cons, not_or] at hnot
    exact ih hnot.2 (hone.delete (fun hmem ↦ hnot.1 (List.mem_singleton.mp hmem).symm) hb)

end Caller.Keeps

/-- A handle is left over that is not one of before. -/
def Caller.Lost (before : List Handle) (s : Caller) : Prop := ∃ g, g ∉ before ∧ s.Keeps [g]

variable {kept : List Handle} {c : ChildHandles} {g : Handle}

/-- A script that, if it gives up, has lost a handle, and otherwise leaves the caller with the
handles `kept`. -/
def Forgetful (before kept : List Handle) (r : Except SpawnExit Unit) (s : Caller) : Prop :=
  (∃ exit, r = .error exit ∧ s.Lost before) ∨ r = .ok () ∧ s.Keeps kept

theorem giveUp_loses (h : s.Keeps kept) (hg : g ∈ kept) (hbefore : g ∉ before)
    {handles : List Handle} (hnot : g ∉ handles) (e : ProcessBuildError) :
    (giveUp handles e : SpawnScript α).Always Caller.Behaves
      (fun r s' ↦ ∃ exit, r = .error exit ∧ s'.Lost before) s :=
  (h.deleteHandles hg hnot _).imp fun _ _ hend ↦ ⟨_, hend.1, g, hbefore, hend.2⟩

theorem andThen_forgets {script : SpawnScript Unit} {f : Unit → SpawnScript α}
    {promise : Except SpawnExit α → Caller → Prop}
    (h : script.Always Caller.Behaves (Forgetful before kept) s)
    (hlost : ∀ exit s', s'.Lost before → promise (.error exit) s')
    (hnext : ∀ s', s'.Keeps kept → (f ()).Always Caller.Behaves promise s') :
    (script.andThen f).Always Caller.Behaves promise s := by
  refine Script.always_andThen (h.imp fun r s' hend ↦ ?_) fun _ s' hkeeps ↦ hnext s' hkeeps
  rcases hend with ⟨exit, rfl, hend⟩ | ⟨rfl, hend⟩
  · exact .inl ⟨exit, rfl, hlost exit s' hend⟩
  · exact .inr ⟨(), rfl, hend⟩

/-- The capability space of a child that is being built is one more handle. -/
structure ChildHandles.Apart (before : List Handle) (c : ChildHandles) : Prop where
  before : c.cspace ∉ before
  others : c.cspace ∉ [c.thread, c.aspace, c.process]

/-- The handles the caller has while it builds a child. -/
def ChildHandles.all (c : ChildHandles) (before : List Handle) : List Handle :=
  [c.cspace, c.thread, c.aspace, c.process] ++ before

theorem ChildHandles.mem_all (c : ChildHandles) (before : List Handle) : c.cspace ∈ c.all before :=
  List.mem_append_left _ List.mem_cons_self

namespace ProcessBuilder

variable (b : ProcessBuilder)

theorem copySegment_forgets (h : s.Keeps kept) (hg : g ∈ kept) (hbefore : g ∉ before)
    (ph : Elf64Phdr) (memSize : ℕ) :
    (b.copySegment ph memSize).Always Caller.Behaves (Forgetful before kept) s := by
  rw [copySegment]
  split_ifs
  · cases readAt b.elfData.bytes ph.pOffset ph.pFilesz with
    | error fault => exact .inl ⟨_, rfl, g, hbefore, h.mono hg⟩
    | ok bytes => exact fun answer s' hb ↦ .inr ⟨rfl, h.same rfl hb hb.2⟩
  · exact .inr ⟨rfl, h⟩

/-- **Filling a segment** forgets the capability space of the child where it gives up. -/
theorem fillSegment_forgets (h : s.Keeps (c.all before)) (hc : c.Apart before) (ph : Elf64Phdr)
    (memSize : ℕ) {mem : Handle} (hmem : mem ≠ c.cspace) :
    (b.fillSegment c ph memSize mem).Always Caller.Behaves (Forgetful before (c.all before)) s := by
  have hnot : c.cspace ∉ [mem, c.thread, c.aspace, c.process] := by
    rw [List.mem_cons, not_or]
    exact ⟨hmem.symm, hc.others⟩
  intro answer s₁ hb
  obtain ⟨h₁, hnew⟩ := h.gains rfl hb hb.2
  cases answer with
  | none => exact (giveUp_loses h₁ (c.mem_all before) hc.before hnot _).imp fun _ _ ↦ .inl
  | some temp =>
    have htemp := (hnew temp rfl).1
    refine andThen_forgets (b.copySegment_forgets h₁ (c.mem_all before) hc.before ph memSize)
      (fun exit s' hlost ↦ .inl ⟨exit, rfl, hlost⟩) fun s₂ h₂ answer s₃ hb ↦ ?_
    have h₃ := h₂.unmap htemp hb
    intro answer s₄ hb
    have h₄ := h₃.delete htemp hb
    intro answer s₅ hb
    obtain ⟨h₅, -⟩ := h₄.gains rfl hb hb.2
    cases answer with
    | none => exact (giveUp_loses h₅ (c.mem_all before) hc.before hnot _).imp fun _ _ ↦ .inl
    | some raw => exact .inr ⟨rfl, h₅⟩

theorem loadSegment_forgets (h : s.Keeps (c.all before)) (hc : c.Apart before) (ph : Elf64Phdr) :
    (b.loadSegment c ph).Always Caller.Behaves (Forgetful before (c.all before)) s := by
  have hout : ∀ {s : Caller} (e : ProcessBuildError), s.Keeps (c.all before) →
      (giveUp [c.thread, c.aspace, c.process] e).Always Caller.Behaves
        (Forgetful before (c.all before)) s :=
    fun e h ↦ (giveUp_loses h (c.mem_all before) hc.before hc.others e).imp fun _ _ ↦ .inl
  rw [loadSegment]
  by_cases hload : ph.pType = ptLoad
  · rw [if_pos hload]
    by_cases hflags : (ph.isExec && ph.isWrite) = true
    · rw [if_pos hflags]
      exact hout _ h
    · rw [if_neg hflags]
      cases ph.memSize with
      | none => exact .inl ⟨_, rfl, c.cspace, hc.before, h.mono (c.mem_all before)⟩
      | some memSize =>
        rw [placeSegment]
        by_cases hzero : memSize = 0
        · rw [if_pos hzero]
          exact .inr ⟨rfl, h⟩
        · rw [if_neg hzero]
          intro answer s₁ hb
          obtain ⟨h₁, hnew⟩ := h.gains rfl hb hb.2
          cases answer with
          | none => exact hout _ h₁
          | some mem =>
            refine b.fillSegment_forgets h₁ hc ph memSize fun heq ↦ ?_
            exact (hnew mem rfl).1 (heq ▸ c.mem_all before)
  · rw [if_neg hload]
    exact .inr ⟨rfl, h⟩

theorem loadSegments_forgets (h : s.Keeps (c.all before)) (hc : c.Apart before)
    (phs : List Elf64Phdr) :
    (b.loadSegments c phs).Always Caller.Behaves (Forgetful before (c.all before)) s := by
  induction phs generalizing s with
  | nil => exact .inr ⟨rfl, h⟩
  | cons ph phs ih =>
    exact andThen_forgets (b.loadSegment_forgets h hc ph)
      (fun exit s' hlost ↦ .inl ⟨exit, rfl, hlost⟩) fun s' h' ↦ ih h'

theorem installCapabilities_forgets (h : s.Keeps [g]) (hg : g ∉ c.all before)
    (capabilities : List (ℕ × Handle × Rights)) :
    (installCapabilities c capabilities).Always Caller.Behaves (Forgetful before [g]) s := by
  have hbefore : g ∉ before := fun hmem ↦ hg (List.mem_append_right _ hmem)
  have hnot : g ∉ [c.cspace, c.thread, c.aspace, c.process] :=
    fun hmem ↦ hg (List.mem_append_left _ hmem)
  induction capabilities generalizing s with
  | nil => exact .inr ⟨rfl, h⟩
  | cons capability capabilities ih =>
    obtain ⟨slot, handle, rights⟩ := capability
    intro answer s' hb
    have h' := h.same rfl hb hb.2
    cases answer with
    | none => exact (giveUp_loses h' List.mem_cons_self hbefore hnot _).imp fun _ _ ↦ .inl
    | some raw => exact ih h'

/-- Something is left over that is neither one of before nor the process. -/
def Forgets (before : List Handle) (r : Except SpawnExit Handle) (s : Caller) : Prop :=
  ∃ g, g ∉ before ∧ r ≠ .ok g ∧ s.Keeps [g]

theorem forgets_of_lost (exit : SpawnExit) (s : Caller) (h : s.Lost before) :
    Forgets before (.error exit) s := by
  obtain ⟨g, hbefore, hkeeps⟩ := h
  exact ⟨g, hbefore, (fun heq ↦ nomatch heq), hkeeps⟩

theorem startProcess_forgets (h : s.Keeps [g]) (hg : g ∉ c.all before) (entry : ℕ) :
    (startProcess c entry).Always Caller.Behaves (Forgets before) s := by
  have hbefore : g ∉ before := fun hmem ↦ hg (List.mem_append_right _ hmem)
  have hnot : ∀ m ∈ [c.cspace, c.thread, c.aspace, c.process], g ≠ m :=
    fun m hm heq ↦ hg (List.mem_append_left _ (heq ▸ hm))
  have hout : ∀ {s : Caller} (e : ProcessBuildError), s.Keeps [g] →
      (giveUp [c.thread, c.aspace, c.process] e).Always Caller.Behaves (Forgets before) s := by
    intro s e h
    refine (giveUp_loses h List.mem_cons_self hbefore (fun hmem ↦ ?_) e).imp ?_
    · exact hnot g (List.mem_cons_of_mem _ hmem) rfl
    · rintro r s' ⟨exit, rfl, hlost⟩
      exact forgets_of_lost exit s' hlost
  intro answer s₁ hb
  have h₁ := h.same rfl hb hb.2
  cases answer with
  | none => exact hout _ h₁
  | some raw =>
    intro answer s₂ hb
    have h₂ := h₁.same rfl hb hb.2
    cases answer with
    | none => exact hout _ h₂
    | some raw =>
      refine (h₂.deleteHandles List.mem_cons_self (fun hmem ↦ ?_) (.ok c.process)).imp ?_
      · exact hnot g (by simp only [List.mem_cons] at hmem ⊢; tauto) rfl
      · rintro r s' ⟨rfl, hkeeps⟩
        refine ⟨g, hbefore, fun heq ↦ ?_, hkeeps⟩
        exact hnot c.process (by simp) (Except.ok.inj heq).symm

/-- **What follows when the parts are there** leaves something over, however it ends. -/
theorem build_forgets (h : s.Keeps (c.all before)) (hc : c.Apart before) (phs : List Elf64Phdr)
    (entry : ℕ) : (b.build phs entry c).Always Caller.Behaves (Forgets before) s := by
  refine andThen_forgets (b.loadSegments_forgets h hc phs) forgets_of_lost fun s₁ h₁ ↦ ?_
  -- the memory object of the stack is what the rest never deletes
  have hstack : (b.mapStack c).Always Caller.Behaves (fun r s' ↦
      (∃ exit, r = .error exit ∧ Forgets before (.error exit) s')
        ∨ ∃ u, r = .ok u ∧ ∃ mem, mem ∉ c.all before ∧ s'.Keeps [mem]) s₁ := by
    intro answer s₂ hb
    obtain ⟨h₂, hnew⟩ := h₁.gains rfl hb hb.2
    cases answer with
    | none =>
      refine (giveUp_loses h₂ (c.mem_all before) hc.before hc.others _).imp ?_
      rintro r s' ⟨exit, rfl, hlost⟩
      exact .inl ⟨exit, rfl, forgets_of_lost exit s' hlost⟩
    | some mem =>
      obtain ⟨hmem, h₂'⟩ := hnew mem rfl
      intro answer s₃ hb
      obtain ⟨h₃, -⟩ := h₂'.gains rfl hb hb.2
      cases answer with
      | none =>
        refine (giveUp_loses h₃ (List.mem_cons_of_mem _ (c.mem_all before)) hc.before ?_ _).imp ?_
        · rw [List.mem_cons, not_or]
          exact ⟨fun heq ↦ hmem (heq ▸ c.mem_all before), hc.others⟩
        · rintro r s' ⟨exit, rfl, hlost⟩
          exact .inl ⟨exit, rfl, forgets_of_lost exit s' hlost⟩
      | some raw => exact .inr ⟨(), rfl, ⟨mem⟩, hmem, h₃.mono List.mem_cons_self⟩
  refine Script.always_andThen hstack ?_
  rintro _ s₂ ⟨mem, hmem, h₂⟩
  exact andThen_forgets (installCapabilities_forgets h₂ hmem b.capabilities) forgets_of_lost
    fun s₃ h₃ ↦ startProcess_forgets h₃ hmem entry

/-! ## The whole of it -/

/-- The handles the caller has while the parts of the process are acquired, the last first. -/
structure Acquired (before handles : List Handle) (s : Caller) : Prop where
  nodup : handles.Nodup
  fresh : ∀ h ∈ handles, h ∉ before
  mem : ∀ h, h ∈ s.handles ↔ h ∈ handles ∨ h ∈ before
  log : ∀ entry ∈ s.log, entry.1.isDelete = false ∧ entry.2 ≠ none

/-- **One more part**, or the early way out. -/
theorem Acquired.ask {handles : List Handle} (h : Acquired before handles s) {call : SpawnCall}
    {answer : Option UInt64} {s' : Caller} (hb : Caller.Behaves call s answer s')
    (hcall : call.acquires = true) :
    (answer = none → ∀ e, (giveUp handles e : SpawnScript α).Always Caller.Behaves
        (fun r s' ↦ ∃ exit, r = .error exit
          ∧ (Balances before (.error exit) s'.handles ↔ StopsEarly s'.log)) s')
      ∧ ∀ raw, answer = some raw → Acquired before (⟨raw⟩ :: handles) s' := by
  obtain ⟨hlog, hmove⟩ := hb
  obtain ⟨hgains, hdelete⟩ := call.gains_of_acquires hcall hmove
  refine ⟨?_, ?_⟩
  · rintro rfl e
    have hsame : s'.handles = s.handles := hgains
    refine giveUp_always h.nodup h.fresh (fun g ↦ hsame ▸ h.mem g) ?_ fun entry hentry ↦ ?_
    · exact ⟨(call, none), hlog ▸ List.mem_append_right _ List.mem_cons_self, hcall, rfl⟩
    · rw [hlog] at hentry
      rcases List.mem_append.mp hentry with hentry | hentry
      · exact (h.log entry hentry).1
      · rw [List.mem_singleton.mp hentry]
        exact hdelete
  · rintro raw rfl
    obtain ⟨hnew, hhandles⟩ := hgains
    rw [h.mem, not_or] at hnew
    refine ⟨List.nodup_cons.mpr ⟨hnew.1, h.nodup⟩, ?_, fun g ↦ ?_, fun entry hentry ↦ ?_⟩
    · intro g hg
      rcases List.mem_cons.mp hg with rfl | hg
      · exact hnew.2
      · exact h.fresh g hg
    · rw [hhandles, List.mem_cons, List.mem_cons, h.mem, or_assoc]
    · rw [hlog] at hentry
      rcases List.mem_append.mp hentry with hentry | hentry
      · exact h.log entry hentry
      · rw [List.mem_singleton.mp hentry]
        exact ⟨hdelete, fun heq ↦ nomatch heq⟩

theorem acquire_always (before : List Handle) : b.acquire.Always Caller.Behaves (fun r s' ↦
    (∃ exit, r = .error exit ∧ (Balances before (.error exit) s'.handles ↔ StopsEarly s'.log))
      ∨ ∃ c, r = .ok c ∧ s'.Keeps (c.all before) ∧ c.Apart before) ⟨before, []⟩ := by
  have h₀ : Acquired before [] ⟨before, []⟩ :=
    ⟨List.nodup_nil, by simp, by simp, by simp⟩
  intro answer s₁ hb
  have h₁ := h₀.ask hb rfl (α := ChildHandles)
  rcases answer with _ | process
  · exact (h₁.1 rfl _).imp fun _ _ ↦ .inl
  intro answer s₂ hb
  have h₂ := (h₁.2 process rfl).ask hb rfl (α := ChildHandles)
  rcases answer with _ | aspace
  · exact (h₂.1 rfl _).imp fun _ _ ↦ .inl
  intro answer s₃ hb
  have h₃ := (h₂.2 aspace rfl).ask hb rfl (α := ChildHandles)
  rcases answer with _ | thread
  · exact (h₃.1 rfl _).imp fun _ _ ↦ .inl
  intro answer s₄ hb
  have h₄ := (h₃.2 thread rfl).ask hb rfl (α := ChildHandles)
  rcases answer with _ | cspace
  · exact (h₄.1 rfl _).imp fun _ _ ↦ .inl
  obtain ⟨hnodup, hfresh, hmem, hlog⟩ := h₄.2 cspace rfl
  refine .inr ⟨_, rfl, ⟨fun g hg ↦ (hmem g).mpr (List.mem_append.mp hg),
    fun entry hentry _ ↦ (hlog entry hentry).2⟩, hfresh _ List.mem_cons_self, ?_⟩
  exact (List.nodup_cons.mp hnodup).1

theorem Forgets.not_balances {r : Except SpawnExit Handle} (h : Forgets before r s) :
    ¬Balances before r s.handles ∧ ¬StopsEarly s.log := by
  obtain ⟨g, hbefore, hresult, hkeeps⟩ := h
  have hg := hkeeps.mem g List.mem_cons_self
  refine ⟨fun hbalances ↦ ?_, fun ⟨⟨entry, hentry, hacquires, hnone⟩, _⟩ ↦ ?_⟩
  · cases r with
    | ok process =>
      rcases (hbalances.2 g).mp hg with rfl | hmem
      · exact hresult rfl
      · exact hbefore hmem
    | error exit =>
      cases exit with
      | failed e => exact hbefore ((hbalances g).mp hg)
      | faulted fault => exact hbalances
  · exact hkeeps.acquired entry hentry hacquires hnone

/-- **A spawn leaves no handle behind exactly if it fails early.** Under every combination of
answers to its calls: an error leaves the caller with the handles it had, and success with one more,
the process, if and only if the image is rejected, or one of the calls that acquire the process and
its parts fails and every deletion after that succeeds. -/
theorem spawn_balances_iff_stops_early (before : List Handle) :
    b.spawn.Always Caller.Behaves (fun r s ↦ Balances before r s.handles
      ↔ (∃ e, ElfParser.new b.elfData = .ok (.error e)) ∨ StopsEarly s.log) ⟨before, []⟩ := by
  obtain ⟨answer, hnew, haccepted⟩ := ElfParser.answers b.elfData
  rw [spawn, hnew]
  cases answer with
  | error e => exact iff_of_true (fun h ↦ Iff.rfl) (Or.inl ⟨e, rfl⟩)
  | ok parser =>
    obtain ⟨rfl, hloadable⟩ := haccepted parser rfl
    have hnot : ¬∃ e, (Except.ok (Except.ok (⟨b.elfData, fileHeader b.elfData.bytes⟩ : ElfParser)) :
        Except Fault (Except ElfError ElfParser)) = .ok (.error e) := by
      rintro ⟨e, he⟩
      cases he
    dsimp only
    simp only [or_iff_right hnot, ElfParser.programHeaders_eq hloadable]
    refine Script.always_andThen (b.acquire_always before) ?_
    rintro c s ⟨hkeeps, hapart⟩
    refine (b.build_forgets hkeeps hapart _ _).imp fun r s' hforgets ↦ ?_
    exact iff_of_false hforgets.not_balances.1 hforgets.not_balances.2

/-- A kernel in which every call succeeds, as long as the next handle is one the caller does not
have. -/
def allSucceed (call : SpawnCall) (s : Caller) : Option UInt64 × Caller :=
  let raw := UInt64.ofNat (100 + s.log.length)
  let gained : Option UInt64 × List Handle :=
    if ⟨raw⟩ ∈ s.handles then (none, s.handles) else (some raw, ⟨raw⟩ :: s.handles)
  let moved : Option UInt64 × List Handle := match call with
    | .createProcess .. => gained
    | .processControl _ operation .. => if operation.acquires then gained else (some 0, s.handles)
    | .createMemoryObject .. => gained
    | .mapMemory .. => gained
    | .unmapMemory _ => (some 0, s.handles)
    | .deleteHandle handle => (some 0, s.handles.filter fun h ↦ decide (h ≠ handle))
    | .copy .. => (some 0, s.handles)
  (moved.1, ⟨moved.2, s.log ++ [(call, moved.1)]⟩)

theorem allSucceed_behaves (call : SpawnCall) (s : Caller) :
    Caller.Behaves call s (allSucceed call s).1 (allSucceed call s).2 := by
  refine ⟨rfl, ?_⟩
  have hgained : ∀ raw : UInt64, Gains s.handles
      (if (⟨raw⟩ : Handle) ∈ s.handles then (none, s.handles) else (some raw, ⟨raw⟩ :: s.handles) :
        Option UInt64 × List Handle).1
      (if (⟨raw⟩ : Handle) ∈ s.handles then (none, s.handles) else (some raw, ⟨raw⟩ :: s.handles) :
        Option UInt64 × List Handle).2 := by
    intro raw
    by_cases hmem : (⟨raw⟩ : Handle) ∈ s.handles
    · rw [if_pos hmem]
      rfl
    · rw [if_neg hmem]
      exact ⟨hmem, rfl⟩
  cases call with
  | createProcess => exact hgained _
  | processControl process operation =>
    rw [SpawnCall.Moves, allSucceed]
    by_cases hacquires : operation.acquires = true
    · simp only [if_pos hacquires]
      exact hgained _
    · simp only [if_neg hacquires]
  | createMemoryObject | mapMemory => exact hgained _
  | unmapMemory => exact .inl rfl
  | deleteHandle | copy => rfl

/-- Every call succeeds, and the caller ends with the memory objects and the mappings of the segment
and of the stack on top of the process. -/
theorem spawn_leaves_handles_behind :
    (smallBuilder.spawn.play allSucceed ⟨[⟨1⟩, ⟨2⟩], []⟩).1 = .ok ⟨100⟩
      ∧ (smallBuilder.spawn.play allSucceed ⟨[⟨1⟩, ⟨2⟩], []⟩).2.handles
        = [⟨111⟩, ⟨110⟩, ⟨109⟩, ⟨104⟩, ⟨100⟩, ⟨1⟩, ⟨2⟩]
      ∧ ¬smallBuilder.spawn.Always Caller.Behaves
          (fun r s ↦ Balances [⟨1⟩, ⟨2⟩] r s.handles) ⟨[⟨1⟩, ⟨2⟩], []⟩ := by
  have hresult : (smallBuilder.spawn.play allSucceed ⟨[⟨1⟩, ⟨2⟩], []⟩).1 = .ok ⟨100⟩ := by
    decide +kernel
  have hhandles : (smallBuilder.spawn.play allSucceed ⟨[⟨1⟩, ⟨2⟩], []⟩).2.handles
      = [⟨111⟩, ⟨110⟩, ⟨109⟩, ⟨104⟩, ⟨100⟩, ⟨1⟩, ⟨2⟩] := by decide +kernel
  refine ⟨hresult, hhandles, Script.not_always_of_play allSucceed allSucceed_behaves ?_⟩
  rw [hresult, hhandles]
  exact fun hbalances ↦ absurd ((hbalances.2 ⟨111⟩).mp (by decide)) (by decide)

end ProcessBuilder

end Gaxera

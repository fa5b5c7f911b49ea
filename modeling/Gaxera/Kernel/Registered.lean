import Gaxera.Kernel.Effects

/-!
# What is registered

The typed registries and the arena are kept by different hands: a call creates an identity in the
arena and then an entry in the registry of its type, and takes the entry out before it gives the
identity back. `Registered` says that the two never disagree, so an object is found in the registry
of its type and in no other.
-/

namespace Gaxera

/-- The invariant of the capability state reads of the spaces and domains what is registered. -/
theorem CapState.Wf.congr {st st' : CapState} (h : st.Wf) (hsystem : st'.system = st.system)
    (hspaces : ∀ k, st'.spaces.get k = st.spaces.get k)
    (hdomains : ∀ d dom, st'.domains.get d = some dom → ∃ dom₀, st.domains.get d = some dom₀
      ∧ dom.id = dom₀.id ∧ dom₀.usage.capabilities ≤ dom.usage.capabilities) : st'.Wf := by
  have hholders : st'.holders = st.holders := by
    funext node
    exact Registry.census_ext _ hspaces
  refine ⟨?_, fun k space hk ↦ h.spaces k space (hspaces k ▸ hk), fun d dom hd ↦ ?_⟩
  · rw [hsystem, hholders]
    exact h.system
  · obtain ⟨dom₀, hd₀, hid, hle⟩ := hdomains d dom hd
    obtain ⟨hid₀, hcharged⟩ := h.domains d dom₀ hd₀
    have heq : st'.charged ⟨d⟩ = st.charged ⟨d⟩ := Registry.census_ext _ hspaces
    exact ⟨hid.trans hid₀, heq ▸ hcharged.trans hle⟩

namespace Kernel

variable {k : Kernel} {id : ObjectId}

/-- Whether the registry of a type has an entry for an identity. Domains are not looked at, and the
remaining types have no registry. -/
def lists (k : Kernel) (id : ObjectId) : ObjectType → Bool
  | .thread => (k.threads.get id).isSome
  | .addressSpace => (k.addressSpaces.get id).isSome
  | .capabilitySpace => (k.caps.spaces.get id).isSome
  | .endpoint => (k.endpoints.get id).isSome
  | .notification => (k.notifications.get id).isSome
  | .memoryObject => (k.memoryObjects.get id).isSome
  | .mapping => (k.mappings.get id).isSome
  | .interruptObject => (k.interrupts.get id).isSome
  | .factory => (k.factories.get id).isSome
  | .waitSet => (k.waitSets.get id).isSome
  | .contiguousFrame => (k.contiguousFrames.get id).isSome
  | .process => (k.processes.get id).isSome
  | .timerObject | .schedulingContext | .resourceDomain | .debugConsole => false

/-- The capability state and the arena are well formed, and what is registered under an identity is
a live object of its type. -/
structure Registered (k : Kernel) : Prop where
  caps : k.caps.Wf
  arena : k.arena.Wf
  types : ∀ id t, k.lists id t = true → k.arena.objectType id = some t

namespace Registered

theorem lists_eq_false (h : k.Registered) {t' : ObjectType} (ht : k.arena.objectType id ≠ some t') :
    k.lists id t' = false := by
  rw [← Bool.not_eq_true]
  exact fun hlists ↦ ht (h.types id t' hlists)

theorem updateDomain (h : k.Registered) (d : ObjectId) {f : ResourceDomain → ResourceDomain}
    (hf : ∀ dom, (f dom).id = dom.id ∧ (f dom).usage.capabilities = dom.usage.capabilities) :
    (k.updateDomain d f).Registered := by
  refine ⟨h.caps.congr rfl (fun _ ↦ rfl) fun j dom hj ↦ ?_, h.arena, fun j t ht ↦ ?_⟩
  · change (k.caps.domains.modify d f).get j = some dom at hj
    rw [Registry.get_modify] at hj
    split_ifs at hj with heq
    · obtain ⟨dom₀, hdom₀, rfl⟩ := Option.map_eq_some_iff.mp hj
      exact ⟨dom₀, heq ▸ hdom₀, (hf dom₀).1, (hf dom₀).2.ge⟩
    · exact ⟨dom, hj, rfl, Nat.le_refl _⟩
  · refine h.types j t ?_
    cases t <;> exact ht

end Registered

end Kernel

end Gaxera

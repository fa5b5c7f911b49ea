import Mathlib.Logic.Basic

/-!
# Programs that make requests

A script makes one request after the other and goes on with the answers. Who answers is left open: a
behaviour says which answers a request may get in a state, and what the state is afterwards.
`Always` is what holds at the end of a script under every answer the behaviour allows; its rules
follow the script, one for an end, one for a request and one for a sequence of two scripts.

A policy picks one answer each time. What always holds also holds when a policy plays the script, so
a script is refuted by playing it.
-/

namespace Gaxera

/-- Requests `ρ`, answers `β`, and in the end a result. -/
inductive Script (ρ β α : Type*)
  | done (result : α)
  | ask (request : ρ) (next : β → Script ρ β α)

namespace Script

variable {ρ β α γ ε σ : Type*}

/-- One script after the other. -/
def bind : Script ρ β α → (α → Script ρ β γ) → Script ρ β γ
  | .done result, f => f result
  | .ask request next, f => .ask request fun answer ↦ (next answer).bind f

/-- One script after the other, unless the first one gives up. -/
def andThen (script : Script ρ β (Except ε α)) (f : α → Script ρ β (Except ε γ)) :
    Script ρ β (Except ε γ) :=
  script.bind fun
    | .error e => .done (.error e)
    | .ok a => f a

/-- Whatever the answers are, the promise is kept in the end. -/
def Always (behaviour : ρ → σ → β → σ → Prop) (promise : α → σ → Prop) :
    Script ρ β α → σ → Prop
  | .done result, s => promise result s
  | .ask request next, s => ∀ answer s', behaviour request s answer s' →
    (next answer).Always behaviour promise s'

/-- The script with the answers of a policy. -/
def play (policy : ρ → σ → β × σ) : Script ρ β α → σ → α × σ
  | .done result, s => (result, s)
  | .ask request next, s => (next (policy request s).1).play policy (policy request s).2

variable {behaviour : ρ → σ → β → σ → Prop} {promise promise' : α → σ → Prop}

variable {script : Script ρ β α}

theorem Always.imp {s : σ} (h : script.Always behaviour promise s)
    (himp : ∀ result s, promise result s → promise' result s) :
    script.Always behaviour promise' s := by
  induction script generalizing s with
  | done result => exact himp result s h
  | ask request next ih => exact fun answer s' hstep ↦ ih answer (h answer s' hstep)

/-- **The rule of sequence.** -/
theorem always_bind {f : α → Script ρ β γ} {promise : γ → σ → Prop} {s : σ}
    (h : script.Always behaviour (fun a s' ↦ (f a).Always behaviour promise s') s) :
    (script.bind f).Always behaviour promise s := by
  induction script generalizing s with
  | done result => exact h
  | ask request next ih => exact fun answer s' hstep ↦ ih answer (h answer s' hstep)

/-- The first script either gives up, which is the end, or hands its result on. -/
theorem always_andThen {script : Script ρ β (Except ε α)} {f : α → Script ρ β (Except ε γ)}
    {promise : Except ε γ → σ → Prop} {next : α → σ → Prop} {s : σ}
    (h : script.Always behaviour
      (fun result s' ↦ (∃ e, result = .error e ∧ promise (.error e) s')
        ∨ ∃ a, result = .ok a ∧ next a s') s)
    (hnext : ∀ a s', next a s' → (f a).Always behaviour promise s') :
    (script.andThen f).Always behaviour promise s := by
  refine always_bind (h.imp fun result s' hresult ↦ ?_)
  rcases hresult with ⟨e, rfl, he⟩ | ⟨a, rfl, ha⟩
  · exact he
  · exact hnext a s' ha

/-- **A script is refuted by playing it.** -/
theorem not_always_of_play {s : σ} (policy : ρ → σ → β × σ)
    (hpolicy : ∀ request s, behaviour request s (policy request s).1 (policy request s).2)
    (hplay : ¬promise (script.play policy s).1 (script.play policy s).2) :
    ¬script.Always behaviour promise s := by
  intro h
  apply hplay
  clear hplay
  induction script generalizing s with
  | done result => exact h
  | ask request next ih => exact ih _ (h _ _ (hpolicy request s))

end Script

end Gaxera

import Mathlib.Logic.Basic

/-!
# Programs of atomic accesses

A program accesses a shared state, one atomic access after the other, and between any two of its
accesses an environment may change that state. An access reads the state and writes it, in one step;
what follows depends on what was read.

`Holds` is what one can say of such a program under any interference: before each access an
assertion holds of the state, each access keeps to a guarantee, and in the end the result and the
state are as promised. The environment is known by the changes it may make.
-/

namespace Gaxera

inductive Accesses (σ α : Type*)
  | done (result : α)
  /-- One atomic access. What comes next sees the state before the write. -/
  | access (write : σ → σ) (next : σ → Accesses σ α)

namespace Accesses

variable {σ α : Type*}

/-- The program when nobody interferes. -/
def alone : Accesses σ α → σ → α × σ
  | .done result, s => (result, s)
  | .access write next, s => (next s).alone (write s)

/-- Whatever the environment does: before each access the assertion holds, each access keeps to the
guarantee, and in the end the promise is kept. -/
def Holds (environment guarantee : σ → σ → Prop) (assertion : σ → Prop) (promise : α → σ → Prop) :
    Accesses σ α → σ → Prop
  | .done result, s => promise result s
  | .access write next, s => ∀ s', environment s s' →
    assertion s' ∧ guarantee s' (write s')
      ∧ (next s').Holds environment guarantee assertion promise (write s')

variable {environment guarantee : σ → σ → Prop} {assertion : σ → Prop} {promise : α → σ → Prop}

/-- What holds goes on holding when the environment changes the state before an access. -/
theorem Holds.interfere {write : σ → σ} {next : σ → Accesses σ α} {s s' : σ}
    (htrans : ∀ {s s' s''}, environment s s' → environment s' s'' → environment s s'')
    (h : (access write next).Holds environment guarantee assertion promise s)
    (hstep : environment s s') :
    (access write next).Holds environment guarantee assertion promise s' :=
  fun _ hlater ↦ h _ (htrans hstep hlater)

/-- No access depends on what such a change of the state changes. -/
def Blind (change : σ → σ → Prop) : Accesses σ α → Prop
  | .done _ => True
  | .access write next => ∀ s s', change s s' →
    change (write s) (write s') ∧ next s' = next s ∧ (next s).Blind change

theorem blind_ite {c : Prop} [Decidable c] {p q : Accesses σ α} :
    (if c then p else q).Blind environment
      ↔ (c → p.Blind environment) ∧ (¬ c → q.Blind environment) := by
  by_cases h : c <;> simp [h]

/-- **A program that is blind to its environment** comes to what it comes to alone, but for a change
that the environment may make. -/
theorem Blind.holds {program : Accesses σ α} {s s' : σ} (h : program.Blind environment)
    (htrans : ∀ {s s' s''}, environment s s' → environment s' s'' → environment s s'')
    (hs : environment s s')
    (hpromise : ∀ t, environment (program.alone s).2 t → promise (program.alone s).1 t) :
    program.Holds environment (fun _ _ ↦ True) (fun _ ↦ True) promise s' := by
  induction program generalizing s s' with
  | done result => exact hpromise s' hs
  | access write next ih =>
    intro later hlater
    obtain ⟨hwrite, hnext, hrest⟩ := h s later (htrans hs hlater)
    rw [hnext]
    exact ⟨trivial, trivial, ih s hrest hwrite hpromise⟩

end Accesses

end Gaxera

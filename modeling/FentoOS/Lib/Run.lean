import Mathlib

/-!
# Runs of a labelled transition system

A system is a predicate on initial states and a labelled step relation.  Its
reachable states carry one induction principle, `Reach.invariant`, and every
safety result of the development is an instance of it: what the initial states
satisfy and every step keeps, every reachable state satisfies.

`Under` restricts a step relation by a condition on the state before the step
and on the label.  A reachable state of the restricted system is a state reached
by a run all of whose steps meet the condition.
-/

namespace FentoOS.Lib

universe u v

variable {σ : Type u} {α : Type v}

/-- The states reached from an initial state by finitely many steps. -/
inductive Reach (init : σ → Prop) (step : σ → α → σ → Prop) : σ → Prop
  | init {s : σ} : init s → Reach init step s
  | step {s s' : σ} {a : α} : Reach init step s → step s a s' → Reach init step s'

/-- The steps of a system that meet a condition on their label and on the state
they start from. -/
def Under (cond : σ → α → Prop) (step : σ → α → σ → Prop) : σ → α → σ → Prop :=
  fun s a s' ↦ cond s a ∧ step s a s'

variable {init : σ → Prop} {step : σ → α → σ → Prop}

/-- **The invariant rule.** -/
theorem Reach.invariant {P : σ → Prop} (hinit : ∀ s, init s → P s)
    (hstep : ∀ s a s', P s → step s a s' → P s') {s : σ} (h : Reach init step s) : P s := by
  induction h with
  | init h => exact hinit _ h
  | step _ hs ih => exact hstep _ _ _ ih hs

/-- A run of a system with fewer steps is a run of the system. -/
theorem Reach.mono {step' : σ → α → σ → Prop} (hsub : ∀ s a s', step s a s' → step' s a s')
    {s : σ} (h : Reach init step s) : Reach init step' s := by
  induction h with
  | init h => exact .init h
  | step _ hs ih => exact .step ih (hsub _ _ _ hs)

/-- Forgetting the condition on the steps of a run. -/
theorem Reach.of_under {cond : σ → α → Prop} {s : σ} (h : Reach init (Under cond step) s) :
    Reach init step s :=
  h.mono fun _ _ _ hs ↦ hs.2

end FentoOS.Lib

/-
# Runs of a step function

A system is a step function `step : σ → α → Option σ` over its states and
the actions of its environment (`none`: the action is not enabled). A run
takes one action after the other; `Reach step ok s₀` are the states reached
from `s₀` by runs whose every action meets the condition `ok` in the state
it is taken in.

A step that returns something is `step : σ → α → Option (σ × β)`, and `trace`
collects what a run returns.

Key definitions: `Reach`, `exec`, `trace`.
Key theorems: `Reach.inv` (the invariant rule), `reach_of_exec`,
`trace_simulates` (forward simulation).
-/
import Mathlib.Logic.Basic

namespace Ceph
namespace Run

open Option

variable {σ α : Type}

/-- The states reached from `s₀` by actions that `ok` allows where they are
taken. -/
inductive Reach (step : σ → α → Option σ) (ok : σ → α → Prop) (s₀ : σ) : σ → Prop
  | init : Reach step ok s₀ s₀
  | step {s s' : σ} (a : α) : Reach step ok s₀ s → ok s a → step s a = some s' → Reach step ok s₀ s'

/-- Every action is allowed. -/
def anyAct : σ → α → Prop := fun _ _ => True

instance : ∀ (s : σ) (a : α), Decidable (anyAct s a) := fun _ _ => isTrue trivial

/-- **The invariant rule.** What holds at the start and is kept by every
allowed step holds in every state reached. -/
theorem Reach.inv {step : σ → α → Option σ} {ok : σ → α → Prop} {s₀ s : σ}
    (h : Reach step ok s₀ s) (P : σ → Prop) (h0 : P s₀)
    (hs : ∀ s a s', P s → ok s a → step s a = some s' → P s') : P s := by
  induction h with
  | init => exact h0
  | step a _ hok hst ih => exact hs _ a _ ih hok hst

/-- The state after the actions `as`, taken in order; `none` if one of them is
not enabled or not allowed. -/
def exec (step : σ → α → Option σ) (ok : σ → α → Prop) [∀ s a, Decidable (ok s a)] :
    List α → σ → Option σ
  | [], s => some s
  | a :: as, s => if ok s a then (step s a).bind (exec step ok as) else none

section exec

variable {step : σ → α → Option σ} {ok : σ → α → Prop} [∀ s a, Decidable (ok s a)] {s₀ : σ}

theorem reach_of_exec_from : ∀ (as : List α) (s s' : σ), Reach step ok s₀ s →
    exec step ok as s = some s' → Reach step ok s₀ s'
  | [], s, s', hr, h => by cases h; exact hr
  | a :: as, s, s', hr, h => by
    simp only [exec, ite_none_right_eq_some] at h
    obtain ⟨hok, h⟩ := h
    obtain ⟨t, ht, h⟩ := bind_eq_some_iff.mp h
    exact reach_of_exec_from as t s' (hr.step a hok ht) h

/-- A list of allowed actions that runs to `s` reaches `s`. -/
theorem reach_of_exec {s : σ} {as : List α} (h : exec step ok as s₀ = some s) :
    Reach step ok s₀ s :=
  reach_of_exec_from as s₀ s .init h

end exec

section trace

variable {τ β : Type}

/-- The state after the actions, and what each of them returned. -/
def trace (step : σ → α → Option (σ × β)) : List α → σ → Option (σ × List β)
  | [], s => some (s, [])
  | a :: as, s => (step s a).bind fun r => (trace step as r.1).map fun q => (q.1, r.2 :: q.2)

/-- **Forward simulation.** Where each step of the specification can be followed,
so can each of its runs, with the same answers. -/
theorem trace_simulates {step : σ → α → Option (σ × β)} {spec : τ → α → Option (τ × β)} {R : σ → τ → Prop}
    (hstep : ∀ s t a t' b, R s t → spec t a = some (t', b) → ∃ s', step s a = some (s', b) ∧ R s' t') :
    ∀ (as : List α) (s : σ) (t t' : τ) (bs : List β), R s t → trace spec as t = some (t', bs) →
      ∃ s', trace step as s = some (s', bs) ∧ R s' t'
  | [], s, t, t', bs, hR, h => by
    cases h
    exact ⟨s, rfl, hR⟩
  | a :: as, s, t, t', bs, hR, h => by
    obtain ⟨⟨t1, b⟩, ht1, h⟩ := bind_eq_some_iff.mp h
    obtain ⟨⟨t2, bs'⟩, ht2, heq⟩ := map_eq_some_iff.mp h
    obtain ⟨s1, hs1, hR1⟩ := hstep s t a t1 b hR ht1
    obtain ⟨s2, hs2, hR2⟩ := trace_simulates hstep as s1 t1 t2 bs' hR1 ht2
    cases heq
    refine ⟨s2, ?_, hR2⟩
    rw [trace, hs1, bind_some, hs2]
    rfl

end trace

end Run
end Ceph

import Saio.Transition
import Saio.FifoBank
import Mathlib.Tactic

/-!
# The share of one party in an interleaving

Several parties take turns on one global state.  Each party has its share of
the state and a step function on shares: its own steps act on its share as
the step function says, and the steps of the others leave the share alone.
An interleaving of all parties then shows each of them a run of its own, and
nothing else.
-/

namespace Transition

universe u v w z

variable {γ : Type u} {ι : Type v} {σ : Type w} {α : Type z}
  [DecidableEq ι]

/-- The steps of a party act on its own share only, in states in which every
share meets the invariant. -/
structure Shares (step : γ → ι × α → Option γ)
    (component : ι → σ → α → Option σ) (share : ι → γ → σ)
    (condition : ι → σ → α → Prop) (invariant : ι → σ → Prop) : Prop where
  own : ∀ state p action next, (∀ q, invariant q (share q state)) →
    condition p (share p state) action →
      step state (p, action) = some next →
        component p (share p state) action = some (share p next)
  foreign : ∀ state p action next, (∀ q, invariant q (share q state)) →
    condition p (share p state) action →
      step state (p, action) = some next →
        ∀ q, q ≠ p → share q next = share q state
  preserved : ∀ p state action next, invariant p state →
    condition p state action → component p state action = some next →
      invariant p next

namespace Shares

variable {step : γ → ι × α → Option γ}
  {component : ι → σ → α → Option σ} {share : ι → γ → σ}
  {condition : ι → σ → α → Prop} {invariant : ι → σ → Prop}

theorem invariant_next
    (hshares : Shares step component share condition invariant)
    {state next : γ} {p : ι} {action : α}
    (hall : ∀ q, invariant q (share q state))
    (hcondition : condition p (share p state) action)
    (hstep : step state (p, action) = some next) (q : ι) :
    invariant q (share q next) := by
  by_cases hq : q = p
  · subst q
    exact hshares.preserved p _ action _ (hall p) hcondition
      (hshares.own state p action next hall hcondition hstep)
  · rw [hshares.foreign state p action next hall hcondition hstep q hq]
    exact hall q

/-- Every party sees a run of its own, whose steps meet the condition. -/
theorem run_share
    (hshares : Shares step component share condition invariant)
    {state final : γ} {actions : List (ι × α)}
    (hall : ∀ q, invariant q (share q state))
    (hrun : run step state actions = some final)
    (hmeet : StepsMeet step
      (fun state action =>
        condition action.1 (share action.1 state) action.2)
      state actions) (p : ι) :
    run (component p) (share p state) (FifoBank.lane p actions) =
        some (share p final) ∧
      StepsMeet (component p) (condition p) (share p state)
        (FifoBank.lane p actions) := by
  induction actions generalizing state with
  | nil =>
      simp only [run_nil, Option.some.injEq] at hrun
      subst final
      exact ⟨rfl, trivial⟩
  | cons head rest ih =>
      obtain ⟨q, action⟩ := head
      obtain ⟨next, hstep, hrest⟩ := run_cons_eq_some hrun
      have hcondition := hmeet.1
      have hnext := hshares.invariant_next hall hcondition hstep
      obtain ⟨hlater, hconditions⟩ :=
        ih hnext hrest (hmeet.2 next hstep)
      by_cases hq : q = p
      · subst q
        have hown :=
          hshares.own state p action next hall hcondition hstep
        rw [FifoBank.lane_cons_self, run_cons_of_step hown,
          stepsMeet_cons_iff hown]
        exact ⟨hlater, hcondition, hconditions⟩
      · rw [FifoBank.lane_cons_of_ne hq]
        rw [hshares.foreign state q action next hall hcondition hstep p
          (Ne.symm hq)] at hlater hconditions
        exact ⟨hlater, hconditions⟩

end Shares

end Transition

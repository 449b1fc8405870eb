import Mathlib.Tactic

/-!
# Finite runs of a partial step function

A concurrent program is given here by one partial step function on its global
state: an action names the party that moves, and an action that is not
enabled has no successor.  A finite word of actions is then one interleaving.

The two recursive predicates `StepsMeet` and `StatesMeet` speak about the
steps taken and the states visited along such a word.  The rules below turn
an inductive invariant into a statement about a whole run, and compare a
property of the visited states with a condition on the steps taken.
-/

namespace Transition

universe u v w z

variable {σ : Type u} {α : Type v} {τ : Type w} {β : Type z}

/-- Execute a word of actions; a disabled action has no outcome. -/
def run (step : σ → α → Option σ) : σ → List α → Option σ
  | state, [] => some state
  | state, action :: rest =>
      match step state action with
      | none => none
      | some next => run step next rest

/-- Every step taken along the word meets the condition. -/
def StepsMeet
    (step : σ → α → Option σ) (condition : σ → α → Prop) :
    σ → List α → Prop
  | _, [] => True
  | state, action :: rest =>
      condition state action ∧
        ∀ next, step state action = some next →
          StepsMeet step condition next rest

/-- Every state visited along the word, both ends included, meets the
property. -/
def StatesMeet
    (step : σ → α → Option σ) (property : σ → Prop) :
    σ → List α → Prop
  | state, [] => property state
  | state, action :: rest =>
      property state ∧
        ∀ next, step state action = some next →
          StatesMeet step property next rest

@[simp] theorem run_nil (step : σ → α → Option σ) (state : σ) :
    run step state [] = some state := rfl

theorem run_cons_of_step
    {step : σ → α → Option σ} {state next : σ} {action : α}
    (hstep : step state action = some next) (rest : List α) :
    run step state (action :: rest) = run step next rest := by
  simp only [run, hstep]

theorem run_cons_eq_some
    {step : σ → α → Option σ} {state final : σ}
    {action : α} {rest : List α}
    (hrun : run step state (action :: rest) = some final) :
    ∃ next, step state action = some next ∧
      run step next rest = some final := by
  cases hstep : step state action with
  | none =>
      simp [run, hstep] at hrun
  | some next =>
      rw [run_cons_of_step hstep] at hrun
      exact ⟨next, rfl, hrun⟩

theorem run_append
    {step : σ → α → Option σ} {state middle : σ} {first : List α}
    (hfirst : run step state first = some middle) (second : List α) :
    run step state (first ++ second) = run step middle second := by
  induction first generalizing state with
  | nil =>
      simp only [run_nil, Option.some.injEq] at hfirst
      subst middle
      rfl
  | cons action rest ih =>
      obtain ⟨next, hstep, hrest⟩ := run_cons_eq_some hfirst
      rw [List.cons_append, run_cons_of_step hstep]
      exact ih hrest

theorem stepsMeet_cons_iff
    {step : σ → α → Option σ} {condition : σ → α → Prop}
    {state next : σ} {action : α} {rest : List α}
    (hstep : step state action = some next) :
    StepsMeet step condition state (action :: rest) ↔
      condition state action ∧ StepsMeet step condition next rest := by
  simp [StepsMeet, hstep]

theorem statesMeet_cons_iff
    {step : σ → α → Option σ} {property : σ → Prop}
    {state next : σ} {action : α} {rest : List α}
    (hstep : step state action = some next) :
    StatesMeet step property state (action :: rest) ↔
      property state ∧ StatesMeet step property next rest := by
  simp [StatesMeet, hstep]

theorem stepsMeet_append_iff
    {step : σ → α → Option σ} {condition : σ → α → Prop}
    {state middle : σ} {first second : List α}
    (hfirst : run step state first = some middle) :
    StepsMeet step condition state (first ++ second) ↔
      StepsMeet step condition state first ∧
        StepsMeet step condition middle second := by
  induction first generalizing state with
  | nil =>
      simp only [run_nil, Option.some.injEq] at hfirst
      subst middle
      simp [StepsMeet]
  | cons action rest ih =>
      obtain ⟨next, hstep, hrest⟩ := run_cons_eq_some hfirst
      rw [List.cons_append, stepsMeet_cons_iff hstep,
        stepsMeet_cons_iff hstep, ih hrest, and_assoc]

theorem StepsMeet.and
    {step : σ → α → Option σ} {first second : σ → α → Prop}
    {state : σ} {actions : List α}
    (hfirst : StepsMeet step first state actions)
    (hsecond : StepsMeet step second state actions) :
    StepsMeet step (fun s a => first s a ∧ second s a)
      state actions := by
  induction actions generalizing state with
  | nil => trivial
  | cons action rest ih =>
      refine ⟨⟨hfirst.1, hsecond.1⟩, ?_⟩
      intro next hstep
      exact ih (hfirst.2 next hstep) (hsecond.2 next hstep)

theorem StepsMeet.imp
    {step : σ → α → Option σ} {first second : σ → α → Prop}
    (himp : ∀ state action, first state action → second state action)
    {state : σ} {actions : List α}
    (hmeet : StepsMeet step first state actions) :
    StepsMeet step second state actions := by
  induction actions generalizing state with
  | nil => trivial
  | cons action rest ih =>
      exact ⟨himp state action hmeet.1,
        fun next hstep => ih (hmeet.2 next hstep)⟩

theorem stepsMeet_true
    {step : σ → α → Option σ} (state : σ) (actions : List α) :
    StepsMeet step (fun _ _ => True) state actions := by
  induction actions generalizing state with
  | nil => trivial
  | cons action rest ih =>
      exact ⟨trivial, fun next _ => ih next⟩

/-- An invariant kept by every step that meets the condition holds at the end
of every run whose steps all meet it. -/
theorem run_invariant
    {step : σ → α → Option σ} {condition : σ → α → Prop}
    {invariant : σ → Prop}
    (hpreserved : ∀ state action next,
      invariant state → condition state action →
        step state action = some next → invariant next)
    {state final : σ} {actions : List α}
    (hstart : invariant state)
    (hrun : run step state actions = some final)
    (hmeet : StepsMeet step condition state actions) :
    invariant final := by
  induction actions generalizing state with
  | nil =>
      simp only [run_nil, Option.some.injEq] at hrun
      subst final
      exact hstart
  | cons action rest ih =>
      obtain ⟨next, hstep, hrest⟩ := run_cons_eq_some hrun
      exact ih (hpreserved state action next hstart hmeet.1 hstep)
        hrest (hmeet.2 next hstep)

theorem StatesMeet.start
    {step : σ → α → Option σ} {property : σ → Prop}
    {state : σ} {actions : List α}
    (hmeet : StatesMeet step property state actions) :
    property state := by
  cases actions with
  | nil => exact hmeet
  | cons action rest => exact hmeet.1

/-- A second state that answers every step stays related to the run. -/
theorem run_follows
    {step : σ → α → Option σ} {condition : σ → α → Prop}
    {answer : τ → α → τ} (relation : τ → σ → Prop)
    (hpreserved : ∀ other state action next,
      relation other state → condition state action →
        step state action = some next →
          relation (answer other action) next)
    {other : τ} {state final : σ} {actions : List α}
    (hstart : relation other state)
    (hrun : run step state actions = some final)
    (hmeet : StepsMeet step condition state actions) :
    relation (actions.foldl answer other) final := by
  induction actions generalizing other state with
  | nil =>
      simp only [run_nil, Option.some.injEq] at hrun
      subst final
      exact hstart
  | cons action rest ih =>
      obtain ⟨next, hstep, hrest⟩ := run_cons_eq_some hrun
      exact ih
        (hpreserved other state action next hstart hmeet.1 hstep)
        hrest (hmeet.2 next hstep)

/-- Two step conditions that agree in the states of an invariant kept by one
of them select the same runs. -/
theorem stepsMeet_iff_of_invariant
    {step : σ → α → Option σ} {base first second : σ → α → Prop}
    {invariant : σ → Prop}
    (hagree : ∀ state action next,
      invariant state → base state action →
        step state action = some next →
          (first state action ↔ second state action))
    (hpreserved : ∀ state action next,
      invariant state → base state action → second state action →
        step state action = some next → invariant next)
    {state final : σ} {actions : List α}
    (hstart : invariant state)
    (hrun : run step state actions = some final)
    (hbase : StepsMeet step base state actions) :
    StepsMeet step first state actions ↔
      StepsMeet step second state actions := by
  induction actions generalizing state with
  | nil => exact Iff.rfl
  | cons action rest ih =>
      obtain ⟨next, hstep, hrest⟩ := run_cons_eq_some hrun
      rw [stepsMeet_cons_iff hstep] at hbase ⊢
      rw [stepsMeet_cons_iff hstep]
      have hhead := hagree state action next hstart hbase.1 hstep
      constructor
      · rintro ⟨hfirst, htail⟩
        have hsecond := hhead.mp hfirst
        have hnext :=
          hpreserved state action next hstart hbase.1 hsecond hstep
        exact ⟨hsecond, (ih hnext hrest hbase.2).mp htail⟩
      · rintro ⟨hsecond, htail⟩
        have hnext :=
          hpreserved state action next hstart hbase.1 hsecond hstep
        exact ⟨hhead.mpr hsecond, (ih hnext hrest hbase.2).mpr htail⟩

/-- A property that follows from the invariant holds in every state visited
by a run whose steps keep the invariant. -/
theorem statesMeet_of_invariant
    {step : σ → α → Option σ} {condition : σ → α → Prop}
    {invariant property : σ → Prop}
    (hproperty : ∀ state, invariant state → property state)
    (hpreserved : ∀ state action next,
      invariant state → condition state action →
        step state action = some next → invariant next)
    {state : σ} {actions : List α}
    (hstart : invariant state)
    (hmeet : StepsMeet step condition state actions) :
    StatesMeet step property state actions := by
  induction actions generalizing state with
  | nil => exact hproperty state hstart
  | cons action rest ih =>
      refine ⟨hproperty state hstart, ?_⟩
      intro next hstep
      exact ih (hpreserved state action next hstart hmeet.1 hstep)
        (hmeet.2 next hstep)

/-- A step property that follows from the invariant and the condition holds of
every step of a run whose steps meet the condition. -/
theorem stepsMeet_of_invariant
    {step : σ → α → Option σ} {condition property : σ → α → Prop}
    {invariant : σ → Prop}
    (hproperty : ∀ state action,
      invariant state → condition state action → property state action)
    (hpreserved : ∀ state action next,
      invariant state → condition state action →
        step state action = some next → invariant next)
    {state : σ} {actions : List α}
    (hstart : invariant state)
    (hmeet : StepsMeet step condition state actions) :
    StepsMeet step property state actions := by
  induction actions generalizing state with
  | nil => trivial
  | cons action rest ih =>
      refine ⟨hproperty state action hstart hmeet.1, ?_⟩
      intro next hstep
      exact ih (hpreserved state action next hstart hmeet.1 hstep)
        (hmeet.2 next hstep)

/-- If the first step that breaks the condition also breaks the property, then
the property holds in all visited states exactly when all steps meet the
condition. -/
theorem statesMeet_iff_stepsMeet
    {step : σ → α → Option σ} {condition : σ → α → Prop}
    {invariant property : σ → Prop}
    (hproperty : ∀ state, invariant state → property state)
    (hpreserved : ∀ state action next,
      invariant state → condition state action →
        step state action = some next → invariant next)
    (hbroken : ∀ state action next,
      invariant state → ¬ condition state action →
        step state action = some next → ¬ property next)
    {state final : σ} {actions : List α}
    (hstart : invariant state)
    (hrun : run step state actions = some final) :
    StatesMeet step property state actions ↔
      StepsMeet step condition state actions := by
  constructor
  · intro hstates
    induction actions generalizing state with
    | nil => trivial
    | cons action rest ih =>
        obtain ⟨next, hstep, hrest⟩ := run_cons_eq_some hrun
        rw [statesMeet_cons_iff hstep] at hstates
        rw [stepsMeet_cons_iff hstep]
        have hcondition : condition state action := by
          by_contra hnot
          exact hbroken state action next hstart hnot hstep
            hstates.2.start
        have hnext :=
          hpreserved state action next hstart hcondition hstep
        exact ⟨hcondition, ih hnext hrest hstates.2⟩
  · exact statesMeet_of_invariant hproperty hpreserved hstart

/-! ## Reaching a state -/

/-- Some word of actions leads from one state to the other. -/
def Reaches (step : σ → α → Option σ) (state next : σ) : Prop :=
  ∃ actions, run step state actions = some next

theorem Reaches.refl {step : σ → α → Option σ} (state : σ) :
    Reaches step state state :=
  ⟨[], rfl⟩

theorem Reaches.of_step
    {step : σ → α → Option σ} {state next : σ} {action : α}
    (hstep : step state action = some next) :
    Reaches step state next :=
  ⟨[action], by rw [run_cons_of_step hstep, run_nil]⟩

theorem Reaches.trans
    {step : σ → α → Option σ} {state middle next : σ}
    (hfirst : Reaches step state middle)
    (hsecond : Reaches step middle next) :
    Reaches step state next := by
  obtain ⟨first, hfirst⟩ := hfirst
  obtain ⟨second, hsecond⟩ := hsecond
  refine ⟨first ++ second, ?_⟩
  rw [run_append hfirst]
  exact hsecond

/-- If some action lowers the rank wherever the goal is not reached, then the
goal is reached. -/
theorem reaches_of_rank
    {step : σ → α → Option σ} {rank : σ → ℕ}
    {invariant goal : σ → Prop}
    (hprogress : ∀ state, invariant state → ¬ goal state →
      ∃ action next, step state action = some next ∧
        invariant next ∧ rank next < rank state)
    {state : σ} (hstate : invariant state) :
    ∃ next, Reaches step state next ∧ invariant next ∧ goal next := by
  induction hwork : rank state using Nat.strong_induction_on
    generalizing state with
  | h work ih =>
      by_cases hgoal : goal state
      · exact ⟨state, Reaches.refl state, hstate, hgoal⟩
      · obtain ⟨action, middle, hstep, hmiddle, hlower⟩ :=
          hprogress state hstate hgoal
        rw [hwork] at hlower
        obtain ⟨next, hreaches, hnext, hdone⟩ :=
          ih (rank middle) hlower hmiddle rfl
        exact ⟨next, (Reaches.of_step hstep).trans hreaches, hnext,
          hdone⟩

/-- A goal that is kept, and a rank that the steps of one party lower and no
other step raises until the goal is reached: before that, the party has made
no more steps than the rank says. -/
theorem goal_of_rank
    {step : σ → α → Option σ} {condition : σ → α → Prop}
    {own : α → Bool} {rank : σ → ℕ} {invariant goal : σ → Prop}
    (hkept : ∀ state action next, goal state →
      condition state action → step state action = some next →
        goal next)
    (hprogress : ∀ state action next, invariant state →
      condition state action → step state action = some next →
        goal next ∨ invariant next ∧
          rank next + (if own action then 1 else 0) ≤ rank state)
    {state final : σ} {actions : List α}
    (hstart : invariant state)
    (hrun : run step state actions = some final)
    (hmeet : StepsMeet step condition state actions) :
    goal final ∨
      invariant final ∧ rank final + actions.countP own ≤ rank state := by
  induction actions generalizing state with
  | nil =>
      simp only [run_nil, Option.some.injEq] at hrun
      subst final
      exact Or.inr ⟨hstart, le_rfl⟩
  | cons action rest ih =>
      obtain ⟨next, hstep, hrest⟩ := run_cons_eq_some hrun
      rcases hprogress state action next hstart hmeet.1 hstep with
        hgoal | ⟨hnext, hlower⟩
      · exact Or.inl (run_invariant hkept hgoal hrest
          (hmeet.2 next hstep))
      · rcases ih hnext hrest (hmeet.2 next hstep) with
          hgoal | ⟨hfinal, hcount⟩
        · exact Or.inl hgoal
        · refine Or.inr ⟨hfinal, ?_⟩
          rw [List.countP_cons]
          omega

/-! ## Forward simulation -/

/-- Every concrete step that meets the condition is matched by a word of
abstract steps, and related states stay related. -/
def Simulates
    (step : σ → α → Option σ) (condition : σ → α → Prop)
    (spec : τ → β → Option τ) (related : σ → τ → Prop) : Prop :=
  ∀ state action next abstract,
    related state abstract → condition state action →
      step state action = some next →
        ∃ word abstractNext,
          run spec abstract word = some abstractNext ∧
            related next abstractNext

theorem Simulates.run
    {step : σ → α → Option σ} {condition : σ → α → Prop}
    {spec : τ → β → Option τ} {related : σ → τ → Prop}
    (hsim : Simulates step condition spec related)
    {state final : σ} {abstract : τ} {actions : List α}
    (hrelated : related state abstract)
    (hrun : run step state actions = some final)
    (hmeet : StepsMeet step condition state actions) :
    ∃ word abstractFinal,
      Transition.run spec abstract word = some abstractFinal ∧
        related final abstractFinal := by
  induction actions generalizing state abstract with
  | nil =>
      simp only [run_nil, Option.some.injEq] at hrun
      subst final
      exact ⟨[], abstract, rfl, hrelated⟩
  | cons action rest ih =>
      obtain ⟨next, hstep, hrest⟩ := run_cons_eq_some hrun
      obtain ⟨first, middle, hfirst, hmiddle⟩ :=
        hsim state action next abstract hrelated hmeet.1 hstep
      obtain ⟨second, abstractFinal, hsecond, hfinal⟩ :=
        ih hmiddle hrest (hmeet.2 next hstep)
      refine ⟨first ++ second, abstractFinal, ?_, hfinal⟩
      rw [run_append hfirst]
      exact hsecond

/-! ## Evaluating a condition along a concrete word -/

def stepsMeetEval
    (step : σ → α → Option σ) (condition : σ → α → Prop)
    [∀ state action, Decidable (condition state action)] :
    σ → List α → Bool
  | _, [] => true
  | state, action :: rest =>
      decide (condition state action) &&
        match step state action with
        | none => true
        | some next => stepsMeetEval step condition next rest

theorem stepsMeetEval_iff
    {step : σ → α → Option σ} {condition : σ → α → Prop}
    [∀ state action, Decidable (condition state action)]
    (state : σ) (actions : List α) :
    stepsMeetEval step condition state actions = true ↔
      StepsMeet step condition state actions := by
  induction actions generalizing state with
  | nil => simp [stepsMeetEval, StepsMeet]
  | cons action rest ih =>
      simp only [stepsMeetEval, StepsMeet, Bool.and_eq_true,
        decide_eq_true_eq]
      cases hstep : step state action with
      | none => simp
      | some next => simp [ih]

instance
    {step : σ → α → Option σ} {condition : σ → α → Prop}
    [∀ state action, Decidable (condition state action)]
    (state : σ) (actions : List α) :
    Decidable (StepsMeet step condition state actions) :=
  decidable_of_iff _ (stepsMeetEval_iff state actions)

/-! ## Runs of a coarser system -/

section Refinement

variable {fine : σ → α → Option σ} {coarse : τ → β → Option τ}
  {condition : σ → α → Prop} {allowed : τ → β → Prop}
  {invariant : σ → Prop} {view : σ → τ} {erase : α → Option β}

/-- A coarser system stands still, or takes the step of the action that the
finer one stands for. -/
def Answers (coarse : τ → β → Option τ) (allowed : τ → β → Prop)
    (state : τ) : Option β → τ → Prop
  | none, next => next = state
  | some action, next =>
      allowed state action ∧ coarse state action = some next

/-- When every step is answered, a run without the erased actions is a run of
the coarser system. -/
theorem run_refines
    (hpreserved : ∀ state action next,
      invariant state → condition state action →
        fine state action = some next →
          invariant next ∧
            Answers coarse allowed (view state) (erase action)
              (view next))
    {state final : σ} {actions : List α}
    (hstart : invariant state)
    (hrun : run fine state actions = some final)
    (hmeet : StepsMeet fine condition state actions) :
    run coarse (view state) (actions.filterMap erase) =
        some (view final) ∧
      StepsMeet coarse allowed (view state)
        (actions.filterMap erase) := by
  induction actions generalizing state with
  | nil =>
      cases hrun
      exact ⟨rfl, trivial⟩
  | cons action rest ih =>
      obtain ⟨next, hstep, hrest⟩ := run_cons_eq_some hrun
      obtain ⟨hcondition, hlater⟩ := (stepsMeet_cons_iff hstep).mp hmeet
      obtain ⟨hnext, hanswers⟩ :=
        hpreserved state action next hstart hcondition hstep
      have hcoarse := ih hnext hrest hlater
      cases herase : erase action with
      | none =>
          rw [herase] at hanswers
          rw [List.filterMap_cons_none herase, ← hanswers]
          exact hcoarse
      | some answer =>
          rw [herase] at hanswers
          rw [List.filterMap_cons_some herase,
            run_cons_of_step hanswers.2, stepsMeet_cons_iff hanswers.2]
          exact ⟨hcoarse.1, hanswers.1, hcoarse.2⟩

end Refinement

end Transition

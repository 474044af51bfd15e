import Mathlib.Tactic.SplitIfs

/-! Runs of a labelled state machine, and invariants along them. -/

/--
Runs of a machine that takes an enabled action to its next state.

Every action of the run is admitted in the state where it is taken.
-/
inductive Runs {σ α : Type} (next : σ → α → Option σ) (admits : σ → α → Prop) : σ → σ → Prop
  /-- The run that takes no step. -/
  | done (state : σ) : Runs next admits state state
  /-- One more admitted step at the end of a run. -/
  | step {first middle last : σ} (action : α) : Runs next admits first middle →
      admits middle action → next middle action = some last → Runs next admits first last

namespace Runs

variable {σ α : Type} {next : σ → α → Option σ} {admits : σ → α → Prop}

/-- A run can be continued by another run. -/
theorem trans {first middle last : σ} (before : Runs next admits first middle)
    (after : Runs next admits middle last) : Runs next admits first last := by
  induction after with
  | done => exact before
  | step action _ admitted taken ih => exact step action ih admitted taken

/-- What every admitted step preserves holds at the end of a run that starts with it. -/
theorem invariant {holds : σ → Prop}
    (preserved : ∀ state action after, holds state → admits state action →
      next state action = some after → holds after)
    {first last : σ} (run : Runs next admits first last) (initial : holds first) : holds last := by
  -- The induction follows the steps of the run.
  induction run with
  | done => exact initial
  | step action _ admitted taken ih => exact preserved _ action _ ih admitted taken

/-- Admitting more actions keeps every run. -/
theorem mono {weaker : σ → α → Prop} (weaken : ∀ state action, admits state action →
    weaker state action) {first last : σ} (run : Runs next admits first last) :
    Runs next weaker first last := by
  induction run with
  | done => exact done _
  | step action _ admitted taken ih => exact step action ih (weaken _ action admitted) taken

/-- What every admitted step carries from before to after holds between the ends of a run. -/
theorem relation {related : σ → σ → Prop} (reflexive : ∀ state, related state state)
    (transitive : ∀ first middle last, related first middle → related middle last →
      related first last) {holds : σ → Prop}
    (preserved : ∀ state action after, holds state → admits state action →
      next state action = some after → holds after ∧ related state after)
    {first last : σ} (run : Runs next admits first last) (initial : holds first) :
    related first last := by
  -- The invariant is carried along because each step may need it.
  have both : holds last ∧ related first last := by
    induction run with
    | done => exact ⟨initial, reflexive _⟩
    | step action _ admitted taken ih =>
      obtain ⟨kept, before⟩ := ih
      obtain ⟨keeps, after⟩ := preserved _ action _ kept admitted taken
      exact ⟨keeps, transitive _ _ _ before after⟩
  exact both.2

/-- Take some steps one after another, unless one is not enabled or not admitted. -/
def stepAll (next : σ → α → Option σ) (admits : σ → α → Prop)
    [∀ state action, Decidable (admits state action)] : σ → List α → Option σ
  | state, [] => some state
  | state, action :: rest =>
    if admits state action then (next state action).bind (fun after => stepAll next admits after rest)
    else none

/-- Steps taken one after another make a run. -/
theorem of_stepAll [∀ state action, Decidable (admits state action)] {actions : List α}
    {first last : σ} (taken : stepAll next admits first actions = some last) :
    Runs next admits first last := by
  induction actions generalizing first with
  | nil =>
    cases taken
    exact done _
  | cons action rest ih =>
    simp only [stepAll] at taken
    split_ifs at taken with admitted
    obtain ⟨middle, one, more⟩ := Option.bind_eq_some_iff.mp taken
    exact (step action (done _) admitted one).trans (ih more)

end Runs

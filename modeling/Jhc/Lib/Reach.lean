import Mathlib.Logic.Relation

/-!
# Runs of a transition system

States reached from an initial state by labelled steps, and the induction that
carries an invariant along a run. `Guarded` restricts a step relation to the
steps that meet a condition on the state before the step and on its label.
-/

namespace Jhc.Lib

variable {σ ε : Type*}

inductive Reach (init : σ → Prop) (step : σ → ε → σ → Prop) : σ → Prop where
  | start {s : σ} : init s → Reach init step s
  | step {s s' : σ} {e : ε} : Reach init step s → step s e s' → Reach init step s'

/-- The steps of `step` that meet `ok` in the state they start from. -/
def Guarded (ok : σ → ε → Prop) (step : σ → ε → σ → Prop) (s : σ) (e : ε) (s' : σ) : Prop :=
  ok s e ∧ step s e s'

namespace Reach

variable {init : σ → Prop} {step : σ → ε → σ → Prop}

theorem invariant {Inv : σ → Prop} (hinit : ∀ s, init s → Inv s)
    (hstep : ∀ s e s', Inv s → step s e s' → Inv s') {s : σ} (h : Reach init step s) : Inv s := by
  induction h with
  | start hs => exact hinit _ hs
  | step _ he ih => exact hstep _ _ _ ih he

theorem mono {step' : σ → ε → σ → Prop} (hsub : ∀ s e s', step s e s' → step' s e s')
    {s : σ} (h : Reach init step s) : Reach init step' s := by
  induction h with
  | start hs => exact .start hs
  | step _ he ih => exact .step ih (hsub _ _ _ he)

end Reach

end Jhc.Lib

import NonlinearSolve.Scaling

/-! # Settings of the trust region methods

The settings that all methods have. A method adds its own, gives default values to all of them, and
says which of several faults it names first. What is wrong with a setting is said when a solve
starts and not when it is set. -/

namespace NonlinearSolve

open Scalar

/-- The settings that all methods have. -/
structure Settings (α : Type) where
  /-- The tolerance for the relative change of the iterate. -/
  xtol : α
  /-- The budget of evaluations, in units of `n + 1`. If there is none, the method decides. -/
  patience : Option Nat
  /-- The relative error of the residuals, for forward differences. -/
  epsfcn : α
  /-- The first step bound, in units of the scaled length of the starting point. -/
  stepBound : α
  /-- How the unknowns are scaled. -/
  scaling : Scaling α
  /-- How many iterations lie between two reports. Zero stands for no report at all. -/
  reportEvery : Nat

namespace Settings

variable {α : Type} [Scalar α]

/-- Settings with the tolerance `xtol`, scaling by the Jacobian and no reports. -/
def default (xtol : α) : Settings α where
  xtol
  patience := none
  epsfcn := 0
  stepBound := 100.0
  scaling := .jacobian
  reportEvery := 0

/-- The first fault of the budget, the step bound and the scaling for `n` unknowns. -/
def fault? (c : Settings α) (n : Nat) : Option InputError :=
  (if c.patience = some 0 then some .noPatience else none)
    <|> (if 0 < c.stepBound then none else some .nonPositiveStepBound)
    <|> c.scaling.fault? n

/-- The budget of evaluations for `n` unknowns, `patience` being that of the method. -/
def budget (c : Settings α) (patience n : Nat) : Nat := c.patience.getD patience * (n + 1)

/-- Whether an iteration is reported, the first one being number one. -/
def reportDue (c : Settings α) (iteration : Nat) : Bool :=
  0 < c.reportEvery && (iteration - 1) % c.reportEvery == 0

end Settings

end NonlinearSolve

/-! # How a solve ends

A solve ends for exactly one `Termination`, which says why, and which has a text and an integer
code. The codes of least squares and of equation solving differ, so there are two functions for
them. A callback ends a solve by an `Abort`, whose status is always negative and so differs from
every code of the solvers themselves. -/

namespace NonlinearSolve

/-! ### Aborts -/

/-- The wish of a callback to end the solve. -/
structure Abort where
  /-- The status that is handed back to the caller. -/
  status : Int := -1
  /-- A status is negative. -/
  status_neg : status < 0 := by decide

namespace Abort

/-- The abort with a given status; one that is not negative is replaced by `-1`. -/
def ofStatus (status : Int) : Abort :=
  if h : status < 0 then { status, status_neg := h } else {}

/-- What an abort says. -/
def message (a : Abort) : String :=
  s!"user callback requested termination with status {a.status}"

end Abort

/-! ### Improper input -/

/-- A tolerance of the solvers. -/
inductive Tolerance where
  /-- For the relative reduction of the sum of squares. -/
  | ftol
  /-- For the relative change of the iterate. -/
  | xtol
  /-- For the cosines between the residuals and the columns of the Jacobian. -/
  | gtol
  deriving DecidableEq

/-- The name of a tolerance. -/
def Tolerance.name : Tolerance → String
  | ftol => "ftol"
  | xtol => "xtol"
  | gtol => "gtol"

/-- Faults of the input, found before anything is evaluated. -/
inductive InputError where
  /-- There is no unknown. -/
  | noParameters
  /-- A least squares problem has fewer residuals than parameters. -/
  | notEnoughResiduals (residuals parameters : Nat)
  /-- A system has not as many equations as unknowns. -/
  | notSquare (residuals parameters : Nat)
  /-- A tolerance is negative or undefined. -/
  | negativeTolerance (tolerance : Tolerance)
  /-- There is no budget of evaluations. -/
  | noPatience
  /-- The factor of the first step bound is not positive. -/
  | nonPositiveStepBound
  /-- The number of fixed scaling factors is not that of the unknowns. -/
  | scaleLength (expected found : Nat)
  /-- A fixed scaling factor is not positive. -/
  | nonPositiveScale (index : Nat)
  deriving DecidableEq

/-- What is wrong with the input. -/
def InputError.message : InputError → String
  | noParameters => "the number of parameters is zero"
  | notEnoughResiduals residuals parameters =>
    s!"{residuals} residuals are not enough for {parameters} parameters"
  | notSquare residuals parameters => s!"expected {parameters} equations, got {residuals}"
  | negativeTolerance tolerance => s!"{tolerance.name} must be >= 0"
  | noPatience => "patience must be > 0"
  | nonPositiveStepBound => "stepbound must be > 0"
  | scaleLength expected found => s!"expected {expected} scaling factors, got {found}"
  | nonPositiveScale index => s!"scaling factor {index} is not positive"

/-! ### Terminations -/

/-- How the hybrid method finds that it makes no progress. -/
inductive Stall where
  /-- Five Jacobians in a row brought no good reduction. -/
  | jacobianEvaluations
  /-- Ten steps in a row brought no good reduction. -/
  | iterations
  deriving DecidableEq

/-- The reasons for ending a solve. -/
inductive Termination where
  /-- The input was rejected. -/
  | invalidInput (error : InputError)
  /-- A callback asked for it. -/
  | user (abort : Abort)
  /-- The residuals are exactly zero. -/
  | residualsZero
  /-- The reduction of the sum of squares, the change of the iterate or both are within their
  tolerance. -/
  | converged (ftol xtol : Bool)
  /-- The residuals are orthogonal to the columns of the Jacobian, within the tolerance. -/
  | orthogonal
  /-- The budget of evaluations is used up. -/
  | lostPatience
  /-- A tolerance is too small for any further improvement. -/
  | noImprovementPossible (tolerance : Tolerance)
  /-- The iteration makes no good progress. -/
  | noProgress (stall : Stall)

namespace Termination

/-- Whether the solve came to a solution. -/
def successful : Termination → Bool
  | residualsZero | converged _ _ | orthogonal => true
  | _ => false

/-- The code for the end of a least squares solve. -/
def leastSquaresCode : Termination → Int
  | invalidInput _ => 0
  | user abort => abort.status
  | residualsZero => 1
  | converged true true => 3
  | converged false true => 2
  | converged _ false => 1
  | orthogonal => 4
  | lostPatience => 5
  | noImprovementPossible .ftol => 6
  | noImprovementPossible .xtol => 7
  | noImprovementPossible .gtol => 8
  | noProgress _ => 5

/-- The code for the end of a solve of equations. -/
def equationsCode : Termination → Int
  | invalidInput _ => 0
  | user abort => abort.status
  | residualsZero | converged _ _ | orthogonal => 1
  | lostPatience => 2
  | noImprovementPossible _ => 3
  | noProgress .jacobianEvaluations => 4
  | noProgress .iterations => 5

/-- What the reason says. -/
def message : Termination → String
  | invalidInput error => s!"improper input: {error.message}"
  | user abort => abort.message
  | residualsZero => "residuals are zero"
  | converged true true => "converged in the sum of squares and the iterate"
  | converged false true => "converged in the iterate"
  | converged _ false => "converged in the sum of squares"
  | orthogonal => "residuals are orthogonal to the columns of the Jacobian"
  | lostPatience => "evaluation budget exhausted"
  | noImprovementPossible tolerance =>
    s!"{tolerance.name} is too small, no further improvement is possible"
  | noProgress .jacobianEvaluations => "no progress over the last five Jacobian evaluations"
  | noProgress .iterations => "no progress over the last ten iterations"

end Termination

end NonlinearSolve

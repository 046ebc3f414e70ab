import NonlinearSolve.Equations.Config
import NonlinearSolve.Linear.Trapezoid
import NonlinearSolve.TrustRegion.Iterate

/-! # The state of an equation solve

Besides the iterate the state holds the factorization `B = Q R` of the approximate Jacobian, and a
record of recent progress, which decides when the Jacobian is computed anew and when the solve has
stalled. -/

namespace NonlinearSolve

namespace Equations

/-- The state of a solve with `n` equations and unknowns. -/
structure State (α : Type) [Scalar α] (n : Nat) extends Iterate α n n where
  /-- The orthogonal factor `Q`; during a linearization, the Jacobian. -/
  q : Mat α n n
  /-- The transpose of the triangular factor `R`. -/
  r : Trapezoid α n n
  /-- The product `Qᵀ f`. -/
  rhs : Vec α n
  /-- How many good steps have been made in a row. -/
  successes : Nat
  /-- How many poor steps have been made in a row. -/
  failures : Nat
  /-- How many steps have been made since the last fair reduction. -/
  slowSteps : Nat
  /-- How many Jacobians have been tried since the last good reduction. -/
  slowJacobians : Nat
  /-- Whether the next step is the first one with its Jacobian. -/
  firstStep : Bool
  /-- Whether the Jacobian has to be computed before the next step. -/
  stale : Bool

namespace State

variable {α : Type} [Scalar α] {n : Nat}

/-- The state at an iterate where no Jacobian has been computed yet. -/
def ofIterate (it : Iterate α n n) : State α n where
  toIterate := it
  q := Mat.zero n n
  r := Trapezoid.zero n n
  rhs := Vec.zero n
  successes := 0
  failures := 0
  slowSteps := 0
  slowJacobians := 0
  firstStep := true
  stale := true

end State

end Equations

end NonlinearSolve

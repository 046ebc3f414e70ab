import NonlinearSolve.Numerics
import NonlinearSolve.Problem
import NonlinearSolve.TrustRegion.Settings

/-! # The iterate and its trust region

All methods keep an iterate with its residuals, and a trust region around it: the ball of radius
`radius` in the scaled unknowns. A step is proposed (`Iterate.propose`), and the proposed point may
become the next iterate (`Iterate.accept`). -/

namespace NonlinearSolve

open Scalar

variable {σ α : Type} {m n : Nat}

/-- An iterate with its residuals, its trust region and the counts. -/
structure Iterate (α : Type) (m n : Nat) where
  /-- The iterate. -/
  x : Vec α n
  /-- The residuals at the iterate. -/
  residuals : Vec α m
  /-- The norm of the residuals, undefined before the first evaluation. -/
  residualNorm : α
  /-- The scaling factors. -/
  scale : Vec α n
  /-- The scaled length of the iterate. -/
  length : α
  /-- The radius of the trust region. -/
  radius : α
  /-- The number of the iteration, counted from one. -/
  iteration : Nat
  /-- The number of evaluations of the residuals. -/
  evaluations : Nat
  /-- The number of Jacobians that were computed or approximated. -/
  jacobians : Nat

/-- A step that is to be tried. -/
structure Proposal (α : Type) (n : Nat) where
  /-- The step. -/
  step : Vec α n
  /-- The point it leads to. -/
  point : Vec α n
  /-- The scaled length of the step. -/
  length : α

/-- What all methods report of a solve. -/
structure Summary (α : Type) (m n : Nat) where
  /-- Why the solve ended. -/
  termination : Termination
  /-- The final iterate. -/
  x : Vec α n
  /-- The residuals at the final iterate. -/
  residuals : Vec α m
  /-- The norm of the residuals at the final iterate. -/
  residualNorm : α
  /-- The number of evaluations of the residuals, including those for forward differences. -/
  evaluations : Nat
  /-- The number of Jacobians that were computed or approximated. -/
  jacobians : Nat
  /-- The scaling factors of the last iteration. -/
  scale : Vec α n

namespace Iterate

/-- The summary of a solve that ends here. -/
def summary (it : Iterate α m n) (termination : Termination) : Summary α m n where
  termination
  x := it.x
  residuals := it.residuals
  residualNorm := it.residualNorm
  evaluations := it.evaluations
  jacobians := it.jacobians
  scale := it.scale

variable [Scalar α]

/-- The starting point `x`, where nothing has been evaluated yet. -/
def start (c : Settings α) (x : Vec α n) : Iterate α m n where
  x
  residuals := Vec.zero m
  residualNorm := Scalar.nan
  scale := c.scaling.initial n
  length := 0
  radius := 0
  iteration := 1
  evaluations := 0
  jacobians := 0

/-- The first evaluation. The solve ends here if it aborts, or if the residuals are zero and that is
an end. -/
def evaluate (nm : Numerics α) (p : Problem σ α m n) (it : Iterate α m n) (s : σ) :
    Option Termination × Iterate α m n × σ :=
  let it := { it with evaluations := 1 }
  match p.evaluate it.x s with
  | (.error e, s) => (some (.user e), it, s)
  | (.ok residuals, s) =>
    let residualNorm := nm.vecNorm residuals
    (if nm.stopAtZero && residualNorm == 0 then some .residualsZero else none,
      { it with residuals, residualNorm }, s)

/-- Reports the iteration if that is due; otherwise nothing is called. -/
def reportIfDue (c : Settings α) (p : Problem σ α m n) (it : Iterate α m n) : Callback σ Unit :=
  fun s =>
    if c.reportDue it.iteration then p.report it.iteration it.x it.residuals s else (.ok (), s)

/-- Sets the scaling and the radius from the column norms of a Jacobian, if no step has been
accepted so far. The radius is the step bound itself if the iterate is zero. -/
def calibrate (nm : Numerics α) (c : Settings α) (it : Iterate α m n) (norms : Vec α n) :
    Iterate α m n :=
  if it.iteration = 1 then
    let scale := c.scaling.first it.scale norms
    let length := nm.scaledNorm scale it.x
    let radius := c.stepBound * length
    { it with scale, length, radius := if radius == 0 then c.stepBound else radius }
  else it

/-- Adapts the scaling to the column norms of a Jacobian. -/
def rescale (c : Settings α) (it : Iterate α m n) (norms : Vec α n) : Iterate α m n :=
  { it with scale := c.scaling.grow it.scale norms }

/-- Proposes a step, which counts as an evaluation. As long as no step has been accepted, the radius
is not larger than the length of the step. -/
def propose (nm : Numerics α) (it : Iterate α m n) (step : Vec α n) :
    Proposal α n × Iterate α m n :=
  let length := nm.scaledNorm it.scale step
  ({ step, point := Vec.of fun j => it.x j + step j, length },
    { it with
      radius := if it.iteration = 1 then minNum it.radius length else it.radius
      evaluations := it.evaluations + 1 })

/-- Moves to the point of a proposal, with the residuals there and their norm. -/
def accept (nm : Numerics α) (it : Iterate α m n) (point : Vec α n) (residuals : Vec α m)
    (residualNorm : α) : Iterate α m n :=
  { it with
    x := point
    residuals
    residualNorm
    length := nm.scaledNorm it.scale point
    iteration := it.iteration + 1 }

end Iterate

end NonlinearSolve

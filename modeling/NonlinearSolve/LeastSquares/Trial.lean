import NonlinearSolve.LeastSquares.State
import NonlinearSolve.TrustRegion.Subproblem

/-! # Trial steps

An iteration begins by adapting the scaling to the new Jacobian (`State.adapt`), and goes on with
trial steps until one is accepted. `State.propose` solves the trust region subproblem; the reduction
of the sum of squares at the proposed point is compared with the one that the linear model predicts
(`Gain`), and `State.judge` changes the trust region, accepts or rejects the point, and tests
whether the solve is at its end. -/

namespace NonlinearSolve

namespace LeastSquares

open Scalar

variable {α : Type} [Scalar α] {m r n : Nat}

/-! ### The start of an iteration -/

namespace State

/-- The largest cosine of the angle between the residuals and a column of the Jacobian, `norms`
being the norms of the columns. Zero columns have no angle, and zero residuals have no cosine but
zero. -/
def gradientCosine (h : n ≤ r) (st : State α m r n) (norms : Vec α n) : α :=
  if st.residualNorm == 0 then 0
  else
    Fin.foldl n (fun g j =>
      let norm := norms (st.order j)
      if norm == 0 then g
      else
        let product :=
          sumWhere (· ≤ j) fun i => st.factor (i.castLE h) j * (st.rhs i / st.residualNorm)
        maxNum g (mag (product / norm))) 0

/-- Adapts the state to a Jacobian with the given column norms. The solve ends here if the residuals
are orthogonal to all columns. -/
def adapt (nm : Numerics α) (c : Config α) (h : n ≤ r) (st : State α m r n) (norms : Vec α n) :
    Option Termination × State α m r n :=
  let st := { st with toIterate := st.toIterate.calibrate nm c.toSettings norms }
  let st := { st with cosine := st.gradientCosine h norms }
  if st.cosine ≤ c.gtol then (some .orthogonal, st)
  else (none, { st with toIterate := st.toIterate.rescale c.toSettings norms })

end State

/-! ### Proposals -/

namespace State

/-- The trust region subproblem of the current linearization. -/
def subproblem (h : n ≤ r) (st : State α m r n) : Subproblem α n where
  r := st.factor.leading h
  order := st.order
  scale := st.scale
  rhs := st.rhs
  radius := st.radius

/-- Proposes the solution of the subproblem, the damping of the last step being the estimate of the
new one. The subproblem is solved in the matrix of the factor, and may leave a factor of its own
below the diagonal. -/
def propose (nm : Numerics α) (h : n ≤ r) (st : State α m r n) : Proposal α n × State α m r n :=
  let sol := (st.subproblem h).solve nm st.damping
  let (t, it) := st.toIterate.propose nm (sol.step.map fun p => -p)
  (t, { st with
    toIterate := it
    factor := st.factor.withLeading sol.r
    damping := sol.damping })

end State

/-! ### Gains -/

/-- What a trial step brings, in units of the sum of squares at the iterate. -/
structure Gain (α : Type) where
  /-- The reduction of the sum of squares, or minus one if the residuals grow tenfold. -/
  actual : α
  /-- The reduction that the linear model predicts. -/
  predicted : α
  /-- Half the slope of the sum of squares along the step. -/
  slope : α
  /-- The ratio of the actual to the predicted reduction, zero if none is predicted. -/
  ratio : α

/-- The relative reduction of the sum of squares if the norm of the residuals changes from `norm` to
`norm1`. -/
def actualReduction (norm norm1 : α) : α :=
  if 0.1 * norm1 < norm then 1 - square (norm1 / norm) else -1

/-- The product of `R` with the step `p`, whose norm is that of the product of the Jacobian with the
step. -/
def State.linearChange (h : n ≤ r) (st : State α m r n) (p : Vec α n) : Vec α n :=
  Vec.of fun i => sumWhere (i ≤ ·) fun j => st.factor (i.castLE h) j * p (st.order j)

/-- The gain of a proposal if `norm1` is the norm of the residuals at its point. -/
def State.gain (nm : Numerics α) (h : n ≤ r) (st : State α m r n) (t : Proposal α n) (norm1 : α) :
    Gain α :=
  let actual := actualReduction st.residualNorm norm1
  let linear := nm.vecNorm (st.linearChange h t.step) / st.residualNorm
  let damped := sqrt st.damping * t.length / st.residualNorm
  let predicted := linear * linear + damped * damped / 0.5
  { actual
    predicted
    slope := -(linear * linear + damped * damped)
    ratio := if predicted == 0 then 0 else actual / predicted }

/-- Whether a step with this gain is accepted: it has to bring at least a ten-thousandth of the
predicted reduction. -/
def Gain.acceptable (g : Gain α) : Bool := 0.0001 ≤ g.ratio

/-- The factor by which the trust region shrinks after a poor step that changes the norm of the
residuals from `norm` to `norm1`: one half, or the minimum of the parabola through the two sums of
squares with the slope at the iterate if the sum has grown, but not below a tenth. -/
def Gain.shrink (g : Gain α) (norm norm1 : α) : α :=
  let t := if 0 ≤ g.actual then 0.5 else 0.5 * g.slope / (g.slope + 0.5 * g.actual)
  if norm ≤ 0.1 * norm1 ∨ t < 0.1 then 0.1 else t

/-! ### Verdicts -/

namespace State

/-- Changes the radius and the damping by the gain of a step of the given length. -/
def resize (st : State α m r n) (g : Gain α) (length norm1 : α) : State α m r n :=
  if g.ratio ≤ 0.25 then
    let t := g.shrink st.residualNorm norm1
    { st with radius := t * minNum st.radius (length / 0.1), damping := st.damping / t }
  else if st.damping == 0 || 0.75 ≤ g.ratio then
    { st with radius := length / 0.5, damping := st.damping * 0.5 }
  else st

/-- The tests after a trial step that gained `g`, in order of precedence. -/
def stop? (nm : Numerics α) (c : Config α) (budget : Nat) (st : State α m r n) (g : Gain α) :
    Option Termination :=
  let within tol := mag g.actual ≤ tol && g.predicted ≤ tol && 0.5 * g.ratio ≤ 1
  let ftol := within c.ftol
  let xtol := decide (st.radius ≤ c.xtol * st.length)
  if ftol || xtol then some (.converged ftol xtol)
  else if st.cosine ≤ nm.epsilon then some (.noImprovementPossible .gtol)
  else if st.radius ≤ nm.epsilon * st.length then some (.noImprovementPossible .xtol)
  else if within nm.epsilon then some (.noImprovementPossible .ftol)
  else if budget ≤ st.evaluations then some .lostPatience
  else none

/-- Draws the consequences of a trial step from the residuals at the proposed point, which is
accepted if its gain is acceptable. -/
def judge (nm : Numerics α) (c : Config α) (budget : Nat) (h : n ≤ r) (st : State α m r n)
    (t : Proposal α n) (residuals : Vec α m) : Option Termination × State α m r n :=
  let norm1 := nm.vecNorm residuals
  let g := st.gain nm h t norm1
  let st := st.resize g t.length norm1
  if g.acceptable then
    let it := st.toIterate.accept nm t.point residuals norm1
    let st := { st with toIterate := it, fresh := true }
    if nm.stopAtZero && st.residualNorm == 0 then (some .residualsZero, st)
    else (st.stop? nm c budget g, st)
  else
    let st := { st with fresh := false }
    (st.stop? nm c budget g, st)

end State

end LeastSquares

end NonlinearSolve

import NonlinearSolve.Equations.State
import NonlinearSolve.Linear.RankOne
import NonlinearSolve.TrustRegion.Dogleg

/-! # Trial steps

A trial step follows the dogleg. Its gain decides about the radius and about acceptance
(`State.judge`), and its reduction about progress (`State.stop?`). Whether accepted or not, a step
tells how the residuals change along it, and `State.broyden` puts this into the factorization: the
approximate Jacobian changes by a rank-one matrix so that it maps the step to the observed
change. -/

namespace NonlinearSolve

namespace Equations

open Scalar

variable {α : Type} [Scalar α] {n : Nat}

/-- Proposes the dogleg step. -/
def State.propose (nm : Numerics α) (st : State α n) : Proposal α n × State α n :=
  let p := dogleg nm st.r st.scale st.rhs st.radius
  let (t, it) := st.toIterate.propose nm (p.map fun x => -x)
  (t, { st with toIterate := it })

/-! ### Gains -/

/-- What a trial step brings, in units of the sum of squares at the iterate. -/
structure Gain (α : Type) where
  /-- The reduction of the sum of squares, or minus one if the residuals do not become smaller. -/
  actual : α
  /-- The reduction that the linear model predicts, or zero if it predicts none. -/
  predicted : α
  /-- The ratio of the actual to the predicted reduction, zero if none is predicted. -/
  ratio : α

/-- The relative reduction of the sum of squares if the norm of the residuals changes from `norm` to
`norm1`, and `otherwise` if they do not become smaller. -/
def reduction (otherwise norm norm1 : α) : α :=
  if norm1 < norm then 1 - square (norm1 / norm) else otherwise

/-- The residuals that the linear model predicts for the step `p`, multiplied by `Qᵀ`. -/
def State.model (st : State α n) (p : Vec α n) : Vec α n :=
  Vec.of fun i => st.rhs i + sumWhere (i ≤ ·) fun j => st.r j i * p j

/-- The gain of a step for which `model` is predicted and `norm1` is the norm of the residuals. -/
def State.gain (nm : Numerics α) (st : State α n) (model : Vec α n) (norm1 : α) : Gain α :=
  let actual := reduction (-1) st.residualNorm norm1
  let predicted := reduction 0 st.residualNorm (nm.vecNorm model)
  { actual, predicted, ratio := if 0 < predicted then actual / predicted else 0 }

/-- Whether a step with this gain is accepted: it has to bring at least a ten-thousandth of the
predicted reduction. -/
def Gain.acceptable (g : Gain α) : Bool := 0.0001 ≤ g.ratio

/-! ### Verdicts -/

namespace State

/-- Changes the radius by the gain of a step of the given length. -/
def resize (st : State α n) (g : Gain α) (length : α) : State α n :=
  if g.ratio < 0.1 then
    { st with successes := 0, failures := st.failures + 1, radius := 0.5 * st.radius }
  else
    let successes := st.successes + 1
    let radius :=
      if 0.5 ≤ g.ratio ∨ 1 < successes then maxNum st.radius (length / 0.5) else st.radius
    { st with
      failures := 0
      successes
      radius := if mag (g.ratio - 1) ≤ 0.1 then length / 0.5 else radius }

/-- Counts a step in the record of progress. -/
def track (st : State α n) (g : Gain α) : State α n :=
  { st with
    slowSteps := if 0.001 ≤ g.actual then 0 else st.slowSteps + 1
    slowJacobians :=
      if 0.1 ≤ g.actual then 0
      else if st.firstStep then st.slowJacobians + 1 else st.slowJacobians }

/-- The tests after a trial step of the given length, in order of precedence. -/
def stop? (nm : Numerics α) (c : Config α) (budget : Nat) (st : State α n) (accepted : Bool)
    (length : α) : Option Termination :=
  if accepted && nm.stopAtZero && st.residualNorm == 0 then some .residualsZero
  else if st.radius ≤ c.xtol * st.length || st.residualNorm == 0 then some (.converged false true)
  else if st.slowSteps = 10 then some (.noProgress .iterations)
  else if st.slowJacobians = 5 then some (.noProgress .jacobianEvaluations)
  else if 0.1 * maxNum (0.1 * st.radius) length ≤ nm.epsilon * st.length then
    some (.noImprovementPossible .xtol)
  else if budget ≤ st.evaluations then some .lostPatience
  else none

/-- Updates the factorization so that it maps the step to the observed change of the residuals, to
`residuals` at the proposed point. With `Qᵀ` in front, `model` was predicted instead. -/
def broyden (nm : Numerics α) (st : State α n) (t : Proposal α n) (model residuals : Vec α n)
    (accepted : Bool) : State α n :=
  let observed := Vec.of fun j => sum fun i => st.q i j * residuals i
  let v := Vec.of fun j => (observed j - model j) / t.length
  let u := Vec.of fun j => st.scale j * (st.scale j * t.step j / t.length)
  let update := st.r.rankOne nm (Nat.le_refl n) u v
  { st with
    r := update.s
    q := update.rotations.apply st.q
    rhs := update.rotations.applyRow (if accepted then observed else st.rhs)
    firstStep := false }

/-- Draws the consequences of a trial step from the residuals at the proposed point, which is
accepted if its gain is acceptable. After two poor steps in a row the Jacobian is given up;
otherwise it is updated. -/
def judge (nm : Numerics α) (c : Config α) (budget : Nat) (st : State α n) (t : Proposal α n)
    (residuals : Vec α n) : Option Termination × State α n :=
  let norm1 := nm.vecNorm residuals
  let model := st.model t.step
  let g := st.gain nm model norm1
  let accepted := g.acceptable
  let st := st.resize g t.length
  let st :=
    if accepted then { st with toIterate := st.toIterate.accept nm t.point residuals norm1 } else st
  let st := st.track g
  match st.stop? nm c budget accepted t.length with
  | some reason => (some reason, st)
  | none =>
    -- a third poor step in a row only comes after the Jacobian was computed anew
    if st.failures = 2 then (none, { st with stale := true })
    else (none, st.broyden nm t model residuals accepted)

end State

end Equations

end NonlinearSolve

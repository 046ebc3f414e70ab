import NonlinearSolve.Numerics
import NonlinearSolve.Problem

/-! # Rating a Jacobian

A supplied Jacobian is compared with the change of the residuals between `x` and a nearby point.
Each residual gets a rating between zero and one: one if its gradient agrees with the change, zero
if it does not, and in between by the number of digits on which they agree. -/

namespace NonlinearSolve

namespace JacobianCheck

open Scalar

variable {σ α : Type} [Scalar α] {m n : Nat}

/-- The relative displacement of the nearby point, which is also the precision that can be expected
of a difference. -/
def step (nm : Numerics α) : α := sqrt nm.epsilon

/-- The decimal logarithm of Euler's number. -/
def log10e : α := 0.4342944819032518

/-- The point close to `x` at which the residuals are evaluated for comparison. -/
def perturbedPoint (nm : Numerics α) (x : Vec α n) : Vec α n :=
  x.map fun xj =>
    let h := step nm * mag xj
    if h == 0 then xj + step nm else xj + h

/-- The change of residual `i` along the displacement, per unit of the relative displacement, as the
Jacobian predicts it. -/
def predicted (x : Vec α n) (fjac : Mat α m n) (i : Fin m) : α :=
  sum fun j => (if x j == 0 then 1 else mag (x j)) * fjac i j

/-- The relative error of a prediction. It is one if a residual is zero or hardly changes, for then
nothing can be said. -/
def relativeError (nm : Numerics α) (f fp predicted : α) : α :=
  if !(f == 0) && !(fp == 0) && 100.0 * nm.epsilon * mag f ≤ mag (fp - f) then
    step nm * mag ((fp - f) / step nm - predicted) / (mag f + mag fp)
  else 1

/-- The rating for a relative error: zero from the expected precision on, one at the precision of
the arithmetic or below, and logarithmic in between. -/
def rate (nm : Numerics α) (error : α) : α :=
  let floor := log10e * log (step nm)
  if step nm ≤ error then 0
  else if nm.epsilon < error ∧ error < step nm then (log10e * log error - floor) / floor
  else 1

/-- The ratings of the residuals for the Jacobian `fjac` at `x`, where the residuals are `fvec`, and
are `fvecp` at the nearby point. -/
def ratings (nm : Numerics α) (x : Vec α n) (fvec : Vec α m) (fjac : Mat α m n)
    (fvecp : Vec α m) : Vec α m :=
  Vec.of fun i => rate nm (relativeError nm (fvec i) (fvecp i) (predicted x fjac i))

/-- Evaluates the residuals at `x`, the Jacobian there and the residuals at the nearby point, and
rates the Jacobian. -/
def check (nm : Numerics α) (p : JacobianProblem σ α m n) (x : Vec α n) : Callback σ (Vec α m) :=
  fun s =>
    match p.evaluate x s with
    | (.error e, s) => (.error e, s)
    | (.ok fvec, s) =>
      match p.jacobian x s with
      | (.error e, s) => (.error e, s)
      | (.ok fjac, s) =>
        match p.evaluate (perturbedPoint nm x) s with
        | (.error e, s) => (.error e, s)
        | (.ok fvecp, s) => (.ok (ratings nm x fvec fjac fvecp), s)

end JacobianCheck

end NonlinearSolve

import NonlinearSolve.Equations.State
import NonlinearSolve.ForwardDifference
import NonlinearSolve.Linear.PivotedQR

/-! # Linearization

The Jacobian is computed (`analytic`) or approximated by forward differences (`numerical`), and then
factored without pivoting, since the factors have to be updated later on. -/

namespace NonlinearSolve

namespace Equations

open Scalar

/-- A way to get the Jacobian, which is left in place of the orthogonal factor. If a callback
aborts, the state shows what was written before. -/
abbrev Linearize (σ α : Type) [Scalar α] (n : Nat) :=
  State α n → σ → Except Abort Unit × State α n × σ

variable {σ α : Type} [Scalar α] {n : Nat}

/-- The Jacobian of the problem. -/
def analytic (p : JacobianProblem σ α n n) : Linearize σ α n :=
  fun st s =>
    match p.jacobian st.x s with
    | (.error e, s) => (.error e, st, s)
    | (.ok jac, s) => (.ok (), { st with q := jac, jacobians := st.jacobians + 1 }, s)

/-- Forward differences, within the band if there is one. -/
def numerical (nm : Numerics α) (c : Config α) (p : Problem σ α n n) : Linearize σ α n :=
  fun st s =>
    let (ml, mu) := c.bandFor n
    match ForwardDifference.banded p nm ml mu c.epsfcn st.x st.residuals st.q s with
    | (.error e, x, a, s) => (.error e, { st with x, q := a }, s)
    | (.ok _, x, a, s) =>
      (.ok (),
        { st with
          x
          q := a
          evaluations := st.evaluations + min (ForwardDifference.bandWidth ml mu) n
          jacobians := st.jacobians + 1 }, s)

/-- Factors the Jacobian and adapts the scaling to it. The scaling and the trust region start afresh
with every Jacobian that is computed before a step has been accepted. -/
def State.factorize (nm : Numerics α) (c : Config α) (st : State α n) : State α n :=
  let qr := QR.factor nm false st.q
  let it := (st.toIterate.calibrate nm c.toSettings qr.colNorm).rescale c.toSettings qr.colNorm
  { st with
    toIterate := it
    rhs := Householder.applyTranspose qr.a st.residuals
    r := Trapezoid.of fun j i => if j = i then qr.rdiag j else qr.a i j
    q := Householder.orthogonalFactor qr.a
    firstStep := true
    stale := false }

end Equations

end NonlinearSolve

import NonlinearSolve.ForwardDifference
import NonlinearSolve.LeastSquares.State
import NonlinearSolve.Linear.PivotedQR
import NonlinearSolve.Linear.RowUpdate

/-! # Linearization

At the start of an iteration the residuals are linearized at the iterate: `J P = Q R` and `Qᵀ f` are
computed, together with the norms of the columns of `J`. There are three ways to get there: from the
Jacobian (`analytic`), from forward differences (`numerical`), or from the rows of the Jacobian, one
after the other (`rowwise`), for which only an `n × n` matrix is kept. -/

namespace NonlinearSolve

namespace LeastSquares

open Scalar

/-- A way to linearize. If a callback aborts, the state shows what was written before; otherwise the
norms of the columns of the Jacobian are returned with the state. -/
abbrev Linearize (σ α : Type) (m r n : Nat) :=
  State α m r n → σ → Except Abort (Vec α n) × State α m r n × σ

variable {σ α : Type} [Scalar α] {m n : Nat}

namespace State

/-- The state with the Jacobian `jac` factored, and the norms of its columns. -/
def factorize (nm : Numerics α) (h : n ≤ m) (st : State α m m n) (jac : Mat α m n) :
    Vec α n × State α m m n :=
  let qr := QR.factor nm true jac
  let qtf := Householder.applyTranspose qr.a st.residuals
  (qr.colNorm,
    { st with
      factor := qr.a.withDiagonal qr.rdiag
      order := qr.order
      rhs := qtf.leading h
      jacobians := st.jacobians + 1 })

end State

/-- Linearization by the Jacobian of the problem. -/
def analytic (nm : Numerics α) (h : n ≤ m) (p : JacobianProblem σ α m n) : Linearize σ α m m n :=
  fun st s =>
    match p.jacobian st.x s with
    | (.error e, s) => (.error e, st, s)
    | (.ok jac, s) =>
      let (norms, st) := st.factorize nm h jac
      (.ok norms, st, s)

/-- Linearization by forward differences, which are written over the last factorization. -/
def numerical (nm : Numerics α) (h : n ≤ m) (c : Settings α) (p : Problem σ α m n) :
    Linearize σ α m m n :=
  fun st s =>
    match ForwardDifference.dense p nm c.epsfcn st.x st.residuals st.factor s with
    | (.error e, x, a, s) => (.error e, { st with x, factor := a }, s)
    | (.ok _, x, a, s) =>
      let (norms, st) := { st with x, evaluations := st.evaluations + n }.factorize nm h a
      (.ok norms, st, s)

/-! ### Row by row -/

/-- Folds a list of rows of the Jacobian at `x`, each with its residual as right hand side, into a
triangular system. -/
def foldRows (p : RowProblem σ α m n) (x : Vec α n) (residuals : Vec α m) :
    List (Fin m) → Mat α n n → Vec α n → σ → Except Abort Unit × Mat α n n × Vec α n × σ
  | [], r, b, s => (.ok (), r, b, s)
  | i :: rows, r, b, s =>
    match p.jacobianRow x i s with
    | (.error e, s) => (.error e, r, b, s)
    | (.ok w, s) =>
      let u := rowUpdate r w b (residuals i)
      foldRows p x residuals rows u.r u.b s

namespace State

/-- The state after all rows have been folded in, and the norms of the columns of the Jacobian,
which are those of the triangular factor. A singular factor is factored once more, with pivoting. -/
def settle (nm : Numerics α) (st : State α m n n) : Vec α n × State α m n n :=
  let st := { st with jacobians := st.jacobians + 1 }
  if st.factor.diagonal.firstZero < n then
    let qr := QR.factor nm true st.factor
    (qr.colNorm,
      { st with
        factor := qr.a.withDiagonal qr.rdiag
        order := qr.order
        rhs := Householder.applyTranspose qr.a st.rhs })
  else
    (Vec.of fun j => nm.norm ((st.factor.col j).toList.take (j + 1)),
      { st with order := Vec.identity n })

end State

/-- Linearization by the rows of the Jacobian. -/
def rowwise (nm : Numerics α) (p : RowProblem σ α m n) : Linearize σ α m n n :=
  fun st s =>
    match foldRows p st.x st.residuals (List.finRange m) (Mat.zero n n) (Vec.zero n) s with
    | (.error e, r, b, s) => (.error e, { st with factor := r, rhs := b }, s)
    | (.ok _, r, b, s) =>
      let (norms, st) := { st with factor := r, rhs := b }.settle nm
      (.ok norms, st, s)

end LeastSquares

end NonlinearSolve

import NonlinearSolve.LeastSquares.Solve

/-! # Fitting a curve

A model `y = f(w, t)` with coefficients `w` is fitted to data points `(t, y)` by minimizing the sum
of squares of the deviations `y - f(w, t)`. -/

namespace NonlinearSolve

/-- A curve with `n` coefficients. -/
structure Model (α : Type) (n : Nat) where
  /-- The value at an abscissa for given coefficients. -/
  value : Vec α n → α → α
  /-- The derivatives with respect to the coefficients. -/
  derivatives : Vec α n → α → Vec α n

namespace Model

variable {α : Type} [Scalar α] {m n : Nat}

/-- The least squares problem of fitting the model to the points `(t, y)`. -/
def toProblem (f : Model α n) (data : Vec (α × α) m) : JacobianProblem Unit α m n where
  evaluate w s := (.ok (data.map fun d => d.2 - f.value w d.1), s)
  jacobian w s :=
    let rows := data.map fun d => f.derivatives w d.1
    (.ok (Mat.of fun i j => -(rows i j)), s)

/-- Fits the model to the data, starting with the coefficients `guess` and with the settings to
start from. The coefficients found are the iterate of the report. -/
def fit (nm : Numerics α) (f : Model α n) (data : Vec (α × α) m) (guess : Vec α n) :
    LeastSquares.Report α m m n :=
  (LeastSquares.minimize nm (.default nm) (f.toProblem data) guess ()).1

end Model

end NonlinearSolve

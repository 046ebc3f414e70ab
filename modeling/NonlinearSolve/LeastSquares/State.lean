import NonlinearSolve.LeastSquares.Config
import NonlinearSolve.Linear.Mat
import NonlinearSolve.TrustRegion.Iterate

/-! # The state of a least squares solve

Besides the iterate the state holds the factorization `J P = Q R` of the last Jacobian and the
damping. The factored matrix has `r` rows: as many as there are residuals if the Jacobian was
factored as a whole, and as many as unknowns if it was folded in row by row. -/

namespace NonlinearSolve

namespace LeastSquares

/-- The state of a solve with `m` residuals and `n` unknowns. -/
structure State (α : Type) (m r n : Nat) extends Iterate α m n where
  /-- The triangular factor `R` on and above the diagonal. What is strictly below it in the leading
  square block is left over from the last linearization or from the last trial step. -/
  factor : Mat α r n
  /-- The ordering of the columns of `R`. -/
  order : Vec (Fin n) n
  /-- The first `n` entries of `Qᵀ f`, where `f` are the residuals at the last Jacobian. -/
  rhs : Vec α n
  /-- The largest cosine between the residuals and a column of the last Jacobian. -/
  cosine : α
  /-- The damping of the last step. -/
  damping : α
  /-- Whether the next thing to do is to linearize, because the iterate is new. -/
  fresh : Bool

namespace State

variable {α : Type} [Scalar α] {m r n : Nat}

/-- The state at an iterate where nothing has been linearized yet. -/
def ofIterate (it : Iterate α m n) : State α m r n where
  toIterate := it
  factor := Mat.zero r n
  order := Vec.identity n
  rhs := Vec.zero n
  cosine := 0
  damping := 0
  fresh := true

end State

end LeastSquares

end NonlinearSolve

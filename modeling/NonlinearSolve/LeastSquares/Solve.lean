import NonlinearSolve.LeastSquares.Linearization
import NonlinearSolve.LeastSquares.Trial
import NonlinearSolve.Linear.Covariance
import NonlinearSolve.TrustRegion.Method

/-! # Least squares

`minimize`, `minimizeNumerically` and `minimizeRowwise` look for a minimum of the sum of squares of
the residuals by the Levenberg-Marquardt method. They differ only in the linearization and in the
budget they have by default; `method` is the trust region method that they share. -/

namespace NonlinearSolve

namespace LeastSquares

variable {σ α : Type} [Scalar α] {m r n : Nat}

/-! ### Reports -/

/-- The outcome of a solve. -/
structure Report (α : Type) (m r n : Nat) extends Summary α m n where
  /-- The triangular factor `R` of the last Jacobian, on and above the diagonal. Below it is
  whatever the last linearization or the last trial step has left there. -/
  factor : Mat α r n
  /-- The ordering of the columns of `R`. -/
  order : Vec (Fin n) n
  /-- The first entries of `Qᵀ f` for the last Jacobian. -/
  rhs : Vec α n

/-- The report on a state in which the solve has ended. -/
def State.report (st : State α m r n) (termination : Termination) : Report α m r n where
  toSummary := st.toIterate.summary termination
  factor := st.factor
  order := st.order
  rhs := st.rhs

namespace Report

/-- The code of the termination. -/
def code (rep : Report α m r n) : Int := rep.termination.leastSquaresCode

/-- Half the sum of squares at the final iterate. -/
def objective (rep : Report α m r n) : α := rep.residualNorm * rep.residualNorm * 0.5

/-- The covariance of the parameters by the last factorization, for which `tol` decides the rank. If
the factor has too few rows, there is no rank. -/
def covariance (rep : Report α m r n) (tol : α) : Covariance α n :=
  if h : n ≤ r then .ofFactor (rep.factor.leading h) rep.order tol
  else { rank := 0, matrix := Mat.zero n n }

/-- The covariance times the variance of the residuals. There is none unless there are more
residuals than the rank. -/
def scaledCovariance (rep : Report α m r n) (tol : α) : Option (Covariance α n) :=
  let c := rep.covariance tol
  if m ≤ c.rank then none
  else
    let variance := rep.residualNorm * rep.residualNorm / ((m - c.rank : Nat) : α)
    some { c with matrix := Mat.of fun i j => c.matrix i j * variance }

end Report

/-! ### The method -/

/-- Starts an iteration, if the iterate is new: a report if one is due, the linearization, and the
adaptation to it. -/
def prepare (nm : Numerics α) (c : Config α) (h : n ≤ r) (p : Problem σ α m n)
    (linearize : Linearize σ α m r n) (st : State α m r n) (s : σ) :
    Option Termination × State α m r n × σ :=
  if st.fresh then
    match st.toIterate.reportIfDue c.toSettings p s with
    | (.error e, s) => (some (.user e), st, s)
    | (.ok _, s) =>
      match linearize st s with
      | (.error e, st, s) => (some (.user e), st, s)
      | (.ok norms, st, s) =>
        let (reason, st) := st.adapt nm c h norms
        (reason, st, s)
  else (none, st, s)

/-- The Levenberg-Marquardt method with a given linearization. -/
def method (nm : Numerics α) (c : Config α) (budget : Nat) (h : n ≤ r) (p : Problem σ α m n)
    (linearize : Linearize σ α m r n) : Method σ α m n (State α m r n) where
  start := .ofIterate
  iterate := State.toIterate
  prepare := prepare nm c h p linearize
  propose := State.propose nm h
  judge := State.judge nm c budget h

/-- The report on a solve at `x` whose input was rejected. -/
def reject (c : Config α) (x : Vec α n) (e : InputError) : Report α m r n :=
  (State.ofIterate (.start c.toSettings x)).report (.invalidInput e)

/-- A solve from the check of the input to the report. The linearization may rely on there being at
least as many residuals as unknowns. -/
def run (nm : Numerics α) (c : Config α) (patience : Nat) (p : Problem σ α m n)
    (rows : n ≤ m → n ≤ r) (linearize : n ≤ m → Linearize σ α m r n) (x : Vec α n) (s : σ) :
    Report α m r n × σ :=
  if h : n ≤ m then
    match c.fault? n with
    | some e => (reject c x e, s)
    | none =>
      let budget := c.budget patience n
      let me := method nm c budget (rows h) p (linearize h)
      let (reason, st, s) := me.run nm c.toSettings budget p x s
      (st.report reason, s)
  else (reject c x (.notEnoughResiduals m n), s)

/-- Minimizes the sum of squares, starting at `x`, with the Jacobian of the problem. -/
def minimize (nm : Numerics α) (c : Config α) (p : JacobianProblem σ α m n) (x : Vec α n) (s : σ) :
    Report α m m n × σ :=
  run nm c 100 p.toProblem id (fun h => analytic nm h p) x s

/-- Minimizes the sum of squares, starting at `x`, with forward differences. -/
def minimizeNumerically (nm : Numerics α) (c : Config α) (p : Problem σ α m n) (x : Vec α n)
    (s : σ) : Report α m m n × σ :=
  run nm c 200 p id (fun h => numerical nm h c.toSettings p) x s

/-- Minimizes the sum of squares, starting at `x`, without ever holding the whole Jacobian. -/
def minimizeRowwise (nm : Numerics α) (c : Config α) (p : RowProblem σ α m n) (x : Vec α n)
    (s : σ) : Report α m n n × σ :=
  run nm c 100 p.toProblem (fun _ => Nat.le_refl n) (fun _ => rowwise nm p) x s

end LeastSquares

end NonlinearSolve

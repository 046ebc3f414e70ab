import NonlinearSolve.Equations.Linearization
import NonlinearSolve.Equations.Trial
import NonlinearSolve.TrustRegion.Method

/-! # Systems of equations

`solve` and `solveWithJacobian` look for a zero of `n` residuals in `n` unknowns by the hybrid
method. They differ only in how the Jacobian is obtained and in the budget they have by default;
`method` is the trust region method that they share. -/

namespace NonlinearSolve

namespace Equations

variable {σ α : Type} [Scalar α] {m n : Nat}

/-! ### Reports -/

/-- The outcome of a solve. The count of Jacobians does not include updates. -/
structure Report (α : Type) [Scalar α] (n : Nat) extends Summary α n n where
  /-- The orthogonal factor `Q` of the approximate Jacobian. -/
  q : Mat α n n
  /-- The transpose of the triangular factor `R` of the approximate Jacobian. -/
  r : Trapezoid α n n
  /-- The product `Qᵀ f`. -/
  rhs : Vec α n

/-- The report on a state in which the solve has ended. -/
def State.report (st : State α n) (termination : Termination) : Report α n where
  toSummary := st.toIterate.summary termination
  q := st.q
  r := st.r
  rhs := st.rhs

/-- The code of the termination. -/
def Report.code (rep : Report α n) : Int := rep.termination.equationsCode

/-! ### The method -/

/-- Computes the Jacobian and factors it, if it is stale. -/
def refresh (nm : Numerics α) (c : Config α) (linearize : Linearize σ α n) (st : State α n)
    (s : σ) : Except Abort Unit × State α n × σ :=
  if st.stale then
    match linearize st s with
    | (.error e, st, s) => (.error e, st, s)
    | (.ok _, st, s) => (.ok (), st.factorize nm c, s)
  else (.ok (), st, s)

/-- Prepares a trial step: the Jacobian, if it is stale, and a report, if one is due. -/
def prepare (nm : Numerics α) (c : Config α) (p : Problem σ α n n) (linearize : Linearize σ α n)
    (st : State α n) (s : σ) : Option Termination × State α n × σ :=
  match refresh nm c linearize st s with
  | (.error e, st, s) => (some (.user e), st, s)
  | (.ok _, st, s) =>
    match st.toIterate.reportIfDue c.toSettings p s with
    | (.error e, s) => (some (.user e), st, s)
    | (.ok _, s) => (none, st, s)

/-- The hybrid method with a given way to get the Jacobian. -/
def method (nm : Numerics α) (c : Config α) (budget : Nat) (p : Problem σ α n n)
    (linearize : Linearize σ α n) : Method σ α n n (State α n) where
  start := .ofIterate
  iterate := State.toIterate
  prepare := prepare nm c p linearize
  propose := State.propose nm
  judge := State.judge nm c budget

/-- The report on a solve at `x` whose input was rejected. -/
def reject (c : Config α) (x : Vec α n) (e : InputError) : Report α n :=
  (State.ofIterate (.start c.toSettings x)).report (.invalidInput e)

/-- A solve of a square problem from the check of the settings to the report. -/
def run (nm : Numerics α) (c : Config α) (patience : Nat) (p : Problem σ α n n)
    (linearize : Linearize σ α n) (x : Vec α n) (s : σ) : Report α n × σ :=
  match c.fault? n with
  | some e => (reject c x e, s)
  | none =>
    let budget := c.budget patience n
    let (reason, st, s) := (method nm c budget p linearize).run nm c.toSettings budget p x s
    (st.report reason, s)

/-- The fault of a system of `m` equations in `n` unknowns where `m` and `n` differ. -/
def shapeFault (m n : Nat) : InputError := if n = 0 then .noParameters else .notSquare m n

/-- Solves the system, starting at `x`, with forward differences. -/
def solve (nm : Numerics α) (c : Config α) (p : Problem σ α m n) (x : Vec α n) (s : σ) :
    Report α n × σ :=
  if h : m = n then
    let p : Problem σ α n n := h ▸ p
    run nm c 200 p (numerical nm c p) x s
  else (reject c x (shapeFault m n), s)

/-- Solves the system, starting at `x`, with the Jacobian of the problem. -/
def solveWithJacobian (nm : Numerics α) (c : Config α) (p : JacobianProblem σ α m n) (x : Vec α n)
    (s : σ) : Report α n × σ :=
  if h : m = n then
    let p : JacobianProblem σ α n n := h ▸ p
    run nm c 100 p.toProblem (analytic p) x s
  else (reject c x (shapeFault m n), s)

end Equations

end NonlinearSolve

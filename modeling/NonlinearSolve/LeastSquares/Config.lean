import NonlinearSolve.TrustRegion.Settings

/-! # Settings of the least squares methods -/

namespace NonlinearSolve

namespace LeastSquares

open Scalar

/-- The settings of the Levenberg-Marquardt method. -/
structure Config (α : Type) extends Settings α where
  /-- The tolerance for the relative reduction of the sum of squares. -/
  ftol : α
  /-- The tolerance for the cosines between the residuals and the columns of the Jacobian. -/
  gtol : α

namespace Config

variable {α : Type} [Scalar α]

/-- The settings to start from: all tolerances are thirty times the precision. -/
def default (nm : Numerics α) : Config α where
  toSettings := .default (nm.epsilon * 30.0)
  ftol := nm.epsilon * 30.0
  gtol := nm.epsilon * 30.0

/-- Sets the tolerances of the sum of squares and of the iterate, and that of the cosines to
zero. -/
def withTol (c : Config α) (tol : α) : Config α :=
  { c with ftol := tol, xtol := tol, gtol := 0 }

/-- The first fault of the settings for `n` unknowns. -/
def fault? (c : Config α) (n : Nat) : Option InputError :=
  (if n = 0 then some .noParameters else none)
    <|> Tolerance.ftol.fault? c.ftol
    <|> Tolerance.xtol.fault? c.xtol
    <|> Tolerance.gtol.fault? c.gtol
    <|> c.toSettings.fault? n

end Config

end LeastSquares

end NonlinearSolve

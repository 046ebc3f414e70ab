import NonlinearSolve.TrustRegion.Settings

/-! # Settings of the equation solvers -/

namespace NonlinearSolve

namespace Equations

open Scalar

/-- The settings of the hybrid method. -/
structure Config (α : Type) extends Settings α where
  /-- The numbers of sub- and superdiagonals of a banded Jacobian. -/
  band : Option (Nat × Nat)

namespace Config

variable {α : Type} [Scalar α]

/-- The settings to start from: the tolerance is the root of the precision. -/
def default (nm : Numerics α) : Config α where
  toSettings := .default (sqrt nm.epsilon)
  band := none

/-- The first fault of the settings for as many equations as the `n` unknowns. -/
def fault? (c : Config α) (n : Nat) : Option InputError :=
  (if n = 0 then some .noParameters else none)
    <|> Tolerance.xtol.fault? c.xtol
    <|> c.toSettings.fault? n

/-- The numbers of sub- and superdiagonals for `n` unknowns. Without a band they are all there. -/
def bandFor (c : Config α) (n : Nat) : Nat × Nat := c.band.getD (n - 1, n - 1)

end Config

end Equations

end NonlinearSolve

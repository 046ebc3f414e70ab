import Mathlib.Analysis.SpecialFunctions.Sqrt
import NonlinearSolve.Equations.Config
import NonlinearSolve.LeastSquares.Config
import NonlinearSolve.Proofs.Exact.Arithmetic

/-! # Default settings in exact arithmetic

The default settings have no fault, whatever the precision is. -/

namespace NonlinearSolve

open Scalar

variable {n : Nat}

/-- The step bound, the budget and the scaling that all methods have by default are in order. -/
theorem Settings.fault?_default (xtol : ℝ) : (Settings.default xtol).fault? n = none := by
  have hpatience : (Settings.default xtol).patience ≠ some 0 := by
    intro hzero
    cases hzero
  have hbound : 0 < (Settings.default xtol).stepBound := by
    change (0 : ℝ) < 100.0
    norm_num
  simp only [Settings.fault?, Option.orElse_eq_orElse, Option.orElse_eq_or]
  rw [if_neg hpatience, if_pos hbound]
  rfl

/-- A tolerance that is not negative has no fault. -/
theorem Tolerance.fault?_of_nonneg (t : Tolerance) {x : ℝ} (hx : 0 ≤ x) : t.fault? x = none := by
  rw [Tolerance.fault?, if_pos hx]

variable {ε τ : ℝ} {z : Bool}

/-- The default configuration of the minimizers has no fault. -/
theorem LeastSquares.Config.fault?_default (hn : n ≠ 0) (hε : 0 ≤ ε) :
    (LeastSquares.Config.default (Numerics.exact ε τ z)).fault? n = none := by
  have htol : (0 : ℝ) ≤ ε * 30.0 := mul_nonneg hε (by norm_num)
  have hftol := Tolerance.ftol.fault?_of_nonneg htol
  have hxtol := Tolerance.xtol.fault?_of_nonneg htol
  have hgtol := Tolerance.gtol.fault?_of_nonneg htol
  have hsettings := Settings.fault?_default (n := n) (ε * 30.0)
  rw [fault?, if_neg hn]
  change (none <|> Tolerance.ftol.fault? (ε * 30.0) <|> Tolerance.xtol.fault? (ε * 30.0) <|>
    Tolerance.gtol.fault? (ε * 30.0) <|> (Settings.default (ε * 30.0)).fault? n) = none
  rw [hftol, hxtol, hgtol, hsettings]
  rfl

/-- The default configuration of the solvers of equations has no fault. -/
theorem Equations.Config.fault?_default (hn : n ≠ 0) :
    (Equations.Config.default (Numerics.exact ε τ z)).fault? n = none := by
  have hxtol := Tolerance.xtol.fault?_of_nonneg (Real.sqrt_nonneg ε)
  have hsettings := Settings.fault?_default (n := n) √ε
  rw [fault?, if_neg hn]
  change (none <|> Tolerance.xtol.fault? √ε <|> (Settings.default √ε).fault? n) = none
  rw [hxtol, hsettings]
  rfl

end NonlinearSolve

import Mathlib.Analysis.SpecialFunctions.Sqrt
import Mathlib.Tactic.FieldSimp
import Mathlib.Tactic.Linarith
import Mathlib.Tactic.LinearCombination
import NonlinearSolve.Proofs.Exact.Arithmetic
import NonlinearSolve.TrustRegion.Dogleg

/-! # Lengths on a broken line

The second part of a dogleg goes from a point of the length `s` to one of the length `q`, and the
square of the length of its points is a quadratic in their share of the second end (`legSq`). If the
line sets off outwards, then the quadratic increases (`legSq_lt`). The share that the dogleg takes
is where the length is that of the radius (`legSq_boundaryShare`), provided that the scalar product
of the two ends is `correlation`. -/

namespace NonlinearSolve

namespace Dogleg

open Scalar

/-- The square of the length of `(1 - a) v + a w`, where `v` and `w` have the lengths `s` and `q`
and the scalar product `k`. -/
def legSq (s q k a : ℝ) : ℝ := s ^ 2 + 2 * a * (k - s ^ 2) + a ^ 2 * (q ^ 2 - 2 * k + s ^ 2)

/-- What another scalar product of the ends changes. -/
theorem legSq_eq_add (s q k k' a : ℝ) :
    legSq s q k a = legSq s q k' a + 2 * a * (1 - a) * (k - k') := by
  rw [legSq, legSq]
  ring

section Growth

variable {s q k a a' : ℝ}

/-- A line that sets off outwards does not come back. -/
theorem sq_le_legSq (hk : s ^ 2 ≤ k) (hcurve : 0 ≤ q ^ 2 - 2 * k + s ^ 2) (ha : 0 ≤ a) :
    s ^ 2 ≤ legSq s q k a := by
  have hslope : 0 ≤ 2 * a * (k - s ^ 2) :=
    mul_nonneg (mul_nonneg zero_le_two ha) (sub_nonneg.2 hk)
  have hbend : 0 ≤ a ^ 2 * (q ^ 2 - 2 * k + s ^ 2) := mul_nonneg (sq_nonneg a) hcurve
  rw [legSq]
  linarith

/-- If it has two ends, then only its first end has the length there. -/
theorem sq_lt_legSq (hk : s ^ 2 ≤ k) (hcurve : 0 < q ^ 2 - 2 * k + s ^ 2) (ha : 0 < a) :
    s ^ 2 < legSq s q k a := by
  have hslope : 0 ≤ 2 * a * (k - s ^ 2) :=
    mul_nonneg (mul_nonneg zero_le_two ha.le) (sub_nonneg.2 hk)
  have hbend : 0 < a ^ 2 * (q ^ 2 - 2 * k + s ^ 2) := mul_pos (pow_pos ha 2) hcurve
  rw [legSq]
  linarith

/-- Along it the length increases. -/
theorem legSq_lt (hk : s ^ 2 ≤ k) (hcurve : 0 < q ^ 2 - 2 * k + s ^ 2) (ha : 0 ≤ a)
    (hlt : a < a') : legSq s q k a < legSq s q k a' := by
  have hgain : 0 < (a' - a) * (2 * (k - s ^ 2) + (a + a') * (q ^ 2 - 2 * k + s ^ 2)) := by
    refine mul_pos (sub_pos.2 hlt) (add_pos_of_nonneg_of_pos ?_ ?_)
    · exact mul_nonneg zero_le_two (sub_nonneg.2 hk)
    · exact mul_pos (by linarith) hcurve
  have hdiff : legSq s q k a' - legSq s q k a =
      (a' - a) * (2 * (k - s ^ 2) + (a + a') * (q ^ 2 - 2 * k + s ^ 2)) := by
    rw [legSq, legSq]
    ring
  linarith

end Growth

/-! ### The share of the second end -/

/-- The scalar product of the Cauchy step with a step that solves the system. Here `s`, `b` and `g`
are the lengths of the Cauchy step, of the right hand side and of the scaled gradient. -/
noncomputable def correlation (s b g : ℝ) : ℝ := s * b ^ 2 / g

/-- What the dogleg takes the root of. -/
noncomputable def radicand (radius q s b g : ℝ) : ℝ :=
  square (b / g * (b / q) * (s / radius) - radius / q) +
    (1 - radius / q * (radius / q)) * (1 - s / radius * (s / radius))

/-- The divisor of the share. -/
noncomputable def shareDivisor (radius q s b g : ℝ) : ℝ :=
  b / g * (b / q) * (s / radius) - radius / q * (s / radius) * (s / radius) +
    √(radicand radius q s b g)

section Share

variable {radius q s b g : ℝ}

/-- The share is a quotient by `shareDivisor`. -/
theorem boundaryShare_eq (radius q s b g : ℝ) :
    boundaryShare radius q s b g =
      radius / q * (1 - s / radius * (s / radius)) / shareDivisor radius q s b g := rfl

/-- The cosine that the dogleg computes, in terms of the scalar product of the ends. -/
theorem cosine_eq (radius q s b g : ℝ) :
    b / g * (b / q) * (s / radius) = correlation s b g / (radius * q) := by
  rw [correlation]
  ring

variable (hs : 0 ≤ s) (hsr : s < radius) (hrq : radius < q)

include hs hsr

/-- The Cauchy point lies inside the boundary, so there is length to gain. -/
theorem gain_pos : 0 < radius ^ 2 - s ^ 2 :=
  sub_pos.2 (pow_lt_pow_left₀ hsr hs two_ne_zero)

include hrq

/-- The dogleg takes the root of a positive number. -/
theorem radicand_pos : 0 < radicand radius q s b g := by
  have hradius : 0 < radius := hs.trans_lt hsr
  have hq : 0 < q := hradius.trans hrq
  -- both quotients are below one
  have hdq : radius / q * (radius / q) < 1 := by
    have hlt : radius / q < 1 := (div_lt_one hq).2 hrq
    exact mul_lt_one_of_nonneg_of_lt_one_left (div_nonneg hradius.le hq.le) hlt hlt.le
  have hsd : s / radius * (s / radius) < 1 := by
    have hlt : s / radius < 1 := (div_lt_one hradius).2 hsr
    exact mul_lt_one_of_nonneg_of_lt_one_left (div_nonneg hs hradius.le) hlt hlt.le
  exact add_pos_of_nonneg_of_pos (mul_self_nonneg _) (mul_pos (sub_pos.2 hdq) (sub_pos.2 hsd))

/-- The root, in the units of the squares of the lengths. -/
theorem exists_root_eq : ∃ w, 0 < w ∧ √(radicand radius q s b g) = w / (radius * q) ∧
    w ^ 2 = (correlation s b g - radius ^ 2) ^ 2 +
      (q ^ 2 - radius ^ 2) * (radius ^ 2 - s ^ 2) := by
  have hradius : 0 < radius := hs.trans_lt hsr
  have hq : 0 < q := hradius.trans hrq
  have hpos := radicand_pos (b := b) (g := g) hs hsr hrq
  refine ⟨√(radicand radius q s b g) * (radius * q),
    mul_pos (Real.sqrt_pos.2 hpos) (mul_pos hradius hq),
    (mul_div_cancel_right₀ _ (mul_pos hradius hq).ne').symm, ?_⟩
  rw [mul_pow, Real.sq_sqrt hpos.le, radicand, cosine_eq, square]
  field_simp

variable (hk : s ^ 2 ≤ correlation s b g)

include hk

/-- The share with the units of the lengths cancelled: a quotient of what the square of the length
has to gain. -/
theorem exists_boundaryShare_eq : ∃ x, radius ^ 2 - s ^ 2 < x ∧
    shareDivisor radius q s b g = x / (radius * q) ∧
    boundaryShare radius q s b g = (radius ^ 2 - s ^ 2) / x ∧
    x ^ 2 = 2 * x * (correlation s b g - s ^ 2) +
      (q ^ 2 - 2 * correlation s b g + s ^ 2) * (radius ^ 2 - s ^ 2) := by
  have hradius : 0 < radius := hs.trans_lt hsr
  have hq : 0 < q := hradius.trans hrq
  obtain ⟨w, hw, hroot, hsq⟩ := exists_root_eq (b := b) (g := g) hs hsr hrq
  set k := correlation s b g with hkdef
  have hdivisor : shareDivisor radius q s b g = (k - s ^ 2 + w) / (radius * q) := by
    rw [shareDivisor, cosine_eq, hroot, ← hkdef]
    field_simp
  -- the root exceeds the distance of the scalar product from the square of the radius
  have hlarge : radius ^ 2 - k < w := by
    have hgain : 0 < (q ^ 2 - radius ^ 2) * (radius ^ 2 - s ^ 2) :=
      mul_pos (gain_pos hradius.le hrq) (gain_pos hs hsr)
    refine lt_of_pow_lt_pow_left₀ 2 hw.le ?_
    calc (radius ^ 2 - k) ^ 2 = (k - radius ^ 2) ^ 2 := by ring
      _ < w ^ 2 := by linarith
  have hx : radius ^ 2 - s ^ 2 < k - s ^ 2 + w := by linarith
  have hpos : 0 < k - s ^ 2 + w := add_pos_of_nonneg_of_pos (sub_nonneg.2 hk) hw
  refine ⟨k - s ^ 2 + w, hx, hdivisor, ?_, ?_⟩
  · rw [boundaryShare_eq, hdivisor]
    field_simp
  · linear_combination hsq

/-- The dogleg does not divide by zero. -/
theorem shareDivisor_pos : 0 < shareDivisor radius q s b g := by
  have hradius : 0 < radius := hs.trans_lt hsr
  obtain ⟨x, hx, hdivisor, -, -⟩ := exists_boundaryShare_eq hs hsr hrq hk
  rw [hdivisor]
  exact div_pos ((gain_pos hs hsr).trans hx) (mul_pos hradius (hradius.trans hrq))

/-- The step leaves the Cauchy point behind. -/
theorem boundaryShare_pos : 0 < boundaryShare radius q s b g := by
  obtain ⟨x, hx, -, hshare, -⟩ := exists_boundaryShare_eq hs hsr hrq hk
  rw [hshare]
  exact div_pos (gain_pos hs hsr) ((gain_pos hs hsr).trans hx)

/-- The step does not reach the Gauss-Newton point. -/
theorem boundaryShare_lt_one : boundaryShare radius q s b g < 1 := by
  obtain ⟨x, hx, -, hshare, -⟩ := exists_boundaryShare_eq hs hsr hrq hk
  rw [hshare]
  exact (div_lt_one ((gain_pos hs hsr).trans hx)).2 hx

/-- At the share that the dogleg takes, the length is that of the radius. -/
theorem legSq_boundaryShare :
    legSq s q (correlation s b g) (boundaryShare radius q s b g) = radius ^ 2 := by
  obtain ⟨x, hx, -, hshare, hsq⟩ := exists_boundaryShare_eq hs hsr hrq hk
  have hpos : 0 < x := (gain_pos hs hsr).trans hx
  rw [legSq, hshare]
  field_simp
  linear_combination (s ^ 2 - radius ^ 2) * hsq

end Share

end Dogleg

end NonlinearSolve

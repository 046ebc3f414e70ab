import Mathlib.Analysis.Convex.Segment
import NonlinearSolve.Proofs.Checked.Dogleg

/-! # The dogleg as a path

With a regular triangular matrix the Gauss-Newton step solves the system, and then the scaled length
increases along the broken line from the origin over the Cauchy point to the Gauss-Newton point. So
there is one point of the line that is as long as the radius, if the Gauss-Newton point is not short
enough, and that is the step (`Regular.mem_path_iff`). It leaves a residual that is not longer than
at the best point along the scaled gradient in the trust region (`Regular.length_residual_le`). -/

namespace NonlinearSolve

open Matrix Scalar Secular

variable {n : Nat} {ε τ : ℝ} {z : Bool}

namespace Dogleg

/-! ### The second part of the line -/

section Leg

variable {s : Trapezoid ℝ n n} {scale b : Vec ℝ n} (hscale : ∀ j, scale j ≠ 0) (y : Fin n → ℝ)

include hscale

/-- The scaled length of the points between the Cauchy point and another point. -/
theorem length_sq_leg (a : ℝ) :
    length (scale.get * ((1 - a) • cauchy s scale b + a • y)) ^ 2 =
      legSq (reach s scale b) (length (scale.get * y))
        (stretch s scale b * (b.get ⬝ᵥ (s.upper *ᵥ y))) a := by
  have hdot := cauchy_dot (s := s) (b := b) hscale y
  have hreach := length_sq (scale.get * cauchy s scale b)
  rw [length_cauchy hscale] at hreach
  rw [legSq, length_sq, length_sq, hreach, mul_add, mul_smul_comm, mul_smul_comm, ← hdot]
  simp only [add_dotProduct, dotProduct_add, smul_dotProduct, dotProduct_smul, smul_eq_mul,
    dotProduct_comm (scale.get * y) (scale.get * cauchy s scale b)]
  ring

/-- The curvature of the quadratic is the square of the scaled distance of the ends. -/
theorem curvature_eq : length (scale.get * y) ^ 2 -
      2 * (stretch s scale b * (b.get ⬝ᵥ (s.upper *ᵥ y))) + reach s scale b ^ 2 =
    length (scale.get * y - scale.get * cauchy s scale b) ^ 2 := by
  have hdot := cauchy_dot (s := s) (b := b) hscale y
  have hreach := length_sq (scale.get * cauchy s scale b)
  rw [length_cauchy hscale] at hreach
  rw [length_sq, length_sq, hreach, ← hdot]
  simp only [sub_dotProduct, dotProduct_sub,
    dotProduct_comm (scale.get * y) (scale.get * cauchy s scale b)]
  ring

/-- Two points of different scaled lengths are apart. -/
theorem curvature_pos (hlt : reach s scale b < length (scale.get * y)) :
    0 < length (scale.get * y) ^ 2 -
      2 * (stretch s scale b * (b.get ⬝ᵥ (s.upper *ᵥ y))) + reach s scale b ^ 2 := by
  have happart : scale.get * y - scale.get * cauchy s scale b ≠ 0 := by
    intro hzero
    rw [sub_eq_zero.1 hzero, length_cauchy hscale] at hlt
    exact lt_irrefl _ hlt
  rw [curvature_eq hscale]
  exact pow_pos (length_pos happart) 2

end Leg

/-- The scaled length of the points before the Cauchy point. -/
theorem length_firstLeg {s : Trapezoid ℝ n n} {scale b : Vec ℝ n} (hscale : ∀ j, scale j ≠ 0)
    {a : ℝ} (ha : 0 ≤ a) :
    length (scale.get * (a • cauchy s scale b)) = a * reach s scale b := by
  rw [mul_smul_comm, length_smul, abs_of_nonneg ha, length_cauchy hscale]

/-- The first leg consists of the multiples of the Cauchy point by numbers between zero and one. -/
theorem mem_firstLeg_iff {c y : Fin n → ℝ} :
    y ∈ segment ℝ 0 c ↔ ∃ a : ℝ, 0 ≤ a ∧ a ≤ 1 ∧ y = a • c := by
  rw [segment_eq_image]
  constructor
  · rintro ⟨a, ⟨hpos, hle⟩, rfl⟩
    exact ⟨a, hpos, hle, by simp only [smul_zero, zero_add]⟩
  · rintro ⟨a, hpos, hle, rfl⟩
    exact ⟨a, ⟨hpos, hle⟩, by simp only [smul_zero, zero_add]⟩

/-- The second leg consists of the mixtures of the Cauchy point and the Gauss-Newton point. -/
theorem mem_secondLeg_iff {c w y : Fin n → ℝ} :
    y ∈ segment ℝ c w ↔ ∃ a : ℝ, 0 ≤ a ∧ a ≤ 1 ∧ y = (1 - a) • c + a • w := by
  rw [segment_eq_image]
  constructor
  · rintro ⟨a, ⟨hpos, hle⟩, rfl⟩
    exact ⟨a, hpos, hle, rfl⟩
  · rintro ⟨a, hpos, hle, rfl⟩
    exact ⟨a, ⟨hpos, hle⟩, rfl⟩

/-! ### Regular systems -/

/-- A triangular system without zeros on its diagonal, with positive scaling factors and a positive
radius. -/
structure Regular (s : Trapezoid ℝ n n) (scale : Vec ℝ n) (radius : ℝ) : Prop where
  diag_ne_zero (j : Fin n) : s j j ≠ 0
  scale_pos (j : Fin n) : 0 < scale j
  radius_pos : 0 < radius

/-- Where the residual is shortest along the direction `h`. -/
structure IsLineMinimizer (r : Matrix (Fin n) (Fin n) ℝ) (b h y : Fin n → ℝ) : Prop where
  on_line : ∃ t : ℝ, y = t • h
  le (t : ℝ) : length (b - r *ᵥ y) ≤ length (b - r *ᵥ (t • h))

namespace Regular

variable {s : Trapezoid ℝ n n} {scale b : Vec ℝ n} {radius : ℝ} {y : Fin n → ℝ}
  (h : Regular s scale radius)

include h

/-- A positive scale factor may be divided by. -/
theorem scale_ne_zero (j : Fin n) : scale j ≠ 0 := (h.scale_pos j).ne'

/-- The pivots of a regular triangle are not replaced, so they are not zero. -/
theorem pivot_ne_zero (nm : Numerics ℝ) (j : Fin n) : pivot nm s j ≠ 0 := by
  rw [pivot_of_ne_zero (h.diag_ne_zero j)]
  exact h.diag_ne_zero j

/-- The Gauss-Newton step is the solution of the system. -/
theorem mulVec_eq_iff (nm : Numerics ℝ) :
    s.upper *ᵥ y = b.get ↔ y = (gaussNewton nm s b).get := by
  have hsame : pivoted nm s = s.upper := pivoted_eq h.diag_ne_zero
  rw [← hsame]
  exact Dogleg.mulVec_eq_iff (h.pivot_ne_zero nm)

/-- The Gauss-Newton step solves the linear model exactly. -/
theorem mulVec_gaussNewton (nm : Numerics ℝ) : s.upper *ᵥ (gaussNewton nm s b).get = b.get :=
  (h.mulVec_eq_iff nm).2 rfl

/-- Where the gradient is zero, the Gauss-Newton step is zero. -/
theorem slope_ne_zero (hlt : radius < length (scale.get * (gaussNewton (Numerics.exact ε τ z) s
    b).get)) : slope s scale b ≠ 0 := by
  intro hslope
  have hdot := slope_dot (s := s) (b := b) h.scale_ne_zero
    (gaussNewton (Numerics.exact ε τ z) s b).get
  rw [hslope, zero_dotProduct, h.mulVec_gaussNewton] at hdot
  have hrhs : b.get = 0 := dotProduct_self_eq_zero.1 hdot.symm
  have hzero : (0 : Fin n → ℝ) = (gaussNewton (Numerics.exact ε τ z) s b).get :=
    (h.mulVec_eq_iff _).1 (by rw [mulVec_zero, hrhs])
  rw [← hzero, mul_zero, length_eq_zero.2 rfl] at hlt
  exact lt_asymm hlt h.radius_pos

omit h in
/-- No other multiple of steepest descent leaves a smaller residual than the Cauchy point. -/
theorem length_residual_cauchy_le (hscale : ∀ j, scale j ≠ 0) (t : ℝ) :
    length (b.get - s.upper *ᵥ cauchy s scale b) ≤
      length (b.get - s.upper *ᵥ (t • steepest s scale b)) := by
  rw [← pow_le_pow_iff_left₀ (length_nonneg _) (length_nonneg _) two_ne_zero,
    residual_sq_eq hscale t]
  exact le_add_of_nonneg_right (mul_nonneg (sq_nonneg _) (dot_self_nonneg _))

omit h in
/-- The Cauchy point is the only minimizer of the model along steepest descent. -/
theorem isLineMinimizer_iff (hscale : ∀ j, scale j ≠ 0) :
    IsLineMinimizer s.upper b.get (steepest s scale b) y ↔ y = cauchy s scale b := by
  constructor
  · rintro ⟨⟨t, rfl⟩, hmin⟩
    -- the residual at the point is not longer than at the Cauchy point, so nothing is added
    have hadded := residual_sq_eq (s := s) (b := b) hscale t
    rw [le_antisymm (hmin (stretch s scale b)) (length_residual_cauchy_le hscale t), ← cauchy]
      at hadded
    have hzero := left_eq_add.1 hadded
    rcases mul_eq_zero.1 hzero with hstretch | hmul
    · rw [sub_eq_zero.1 (pow_eq_zero_iff two_ne_zero |>.1 hstretch), cauchy]
    · have hslope : slope s scale b = 0 := by
        by_contra hne
        exact mulVec_steepest_ne_zero hscale hne (dotProduct_self_eq_zero.1 hmul)
      have hsteepest : steepest s scale b = 0 := by
        funext j
        rw [steepest, hslope]
        exact zero_div _
      rw [cauchy, hsteepest, smul_zero, smul_zero]
  · rintro rfl
    exact ⟨⟨_, rfl⟩, length_residual_cauchy_le hscale⟩

/-! ### Where the line leaves the trust region -/

section Path

variable (hlt : radius < length (scale.get * (gaussNewton (Numerics.exact ε τ z) s b).get))

include hlt

omit hlt in
/-- With a regular system the scalar product that the dogleg takes is that of the two steps. -/
theorem correlation_eq_dot (nm : Numerics ℝ) (hslope : slope s scale b ≠ 0) :
    correlation (reach s scale b) (length b.get) (length (slope s scale b)) =
      stretch s scale b * (b.get ⬝ᵥ (s.upper *ᵥ (gaussNewton nm s b).get)) := by
  rw [correlation_eq hslope, h.mulVec_gaussNewton]

/-- If the Cauchy step is too long, then the line leaves the trust region before it. -/
theorem mem_path_iff_of_le (hle : radius ≤ reach s scale b) :
    (y ∈ segment ℝ 0 (cauchy s scale b) ∪
        segment ℝ (cauchy s scale b) (gaussNewton (Numerics.exact ε τ z) s b).get ∧
      length (scale.get * y) = radius) ↔
    y = (radius / reach s scale b) • cauchy s scale b := by
  have hslope := h.slope_ne_zero hlt
  have hreach : 0 < reach s scale b := h.radius_pos.trans_le hle
  have hk := reach_sq_le h.scale_ne_zero hslope
  rw [h.correlation_eq_dot (Numerics.exact ε τ z) hslope] at hk
  constructor
  · rintro ⟨hfirst | hsecond, hlength⟩
    · obtain ⟨a, ha, -, rfl⟩ := mem_firstLeg_iff.1 hfirst
      rw [length_firstLeg h.scale_ne_zero ha] at hlength
      rw [← hlength, mul_div_cancel_right₀ _ hreach.ne']
    · obtain ⟨a, ha, -, rfl⟩ := mem_secondLeg_iff.1 hsecond
      have hsq := length_sq_leg (s := s) (b := b) h.scale_ne_zero
        (gaussNewton (Numerics.exact ε τ z) s b).get a
      rw [hlength] at hsq
      -- behind the Cauchy point the line is longer, so the Cauchy point is on the boundary
      have hcurve := curvature_eq (s := s) (b := b) h.scale_ne_zero
        (gaussNewton (Numerics.exact ε τ z) s b).get
      have houtside := sq_le_legSq hk (hcurve ▸ sq_nonneg _) ha
      rw [← hsq, pow_le_pow_iff_left₀ hreach.le h.radius_pos.le two_ne_zero] at houtside
      obtain rfl : radius = reach s scale b := le_antisymm hle houtside
      rcases ha.eq_or_lt with rfl | hpos
      · rw [sub_zero, one_smul, zero_smul, add_zero, div_self hreach.ne', one_smul]
      · have hgrow := sq_lt_legSq hk (curvature_pos h.scale_ne_zero _ hlt) hpos
        exact absurd hsq hgrow.ne
  · rintro rfl
    refine ⟨Or.inl (mem_firstLeg_iff.2 ⟨_, (div_pos h.radius_pos hreach).le,
      (div_le_one hreach).2 hle, rfl⟩), ?_⟩
    rw [length_firstLeg h.scale_ne_zero (div_pos h.radius_pos hreach).le,
      div_mul_cancel₀ _ hreach.ne']

/-- If the Cauchy step is not too long, then the line leaves the trust region after it. -/
theorem mem_path_iff_of_lt (hshort : reach s scale b < radius) :
    let w := (gaussNewton (Numerics.exact ε τ z) s b).get
    let a := boundaryShare radius (length (scale.get * w)) (reach s scale b) (length b.get)
      (length (slope s scale b))
    (y ∈ segment ℝ 0 (cauchy s scale b) ∪ segment ℝ (cauchy s scale b) w ∧
      length (scale.get * y) = radius) ↔ y = (1 - a) • cauchy s scale b + a • w := by
  intro w a
  have hslope := h.slope_ne_zero hlt
  have hk := reach_sq_le h.scale_ne_zero hslope
  have hnonneg : 0 ≤ reach s scale b := reach_nonneg
  have hpos : 0 < a := boundaryShare_pos hnonneg hshort hlt hk
  have hle : a < 1 := boundaryShare_lt_one hnonneg hshort hlt hk
  have hroot := legSq_boundaryShare hnonneg hshort hlt hk
  have hcurve := curvature_pos h.scale_ne_zero w (hshort.trans hlt)
  rw [h.correlation_eq_dot (Numerics.exact ε τ z) hslope] at hk hroot
  constructor
  · rintro ⟨hfirst | hsecond, hlength⟩
    · obtain ⟨a', ha', hle', rfl⟩ := mem_firstLeg_iff.1 hfirst
      rw [length_firstLeg h.scale_ne_zero ha'] at hlength
      have hle := mul_le_of_le_one_left hnonneg hle'
      exact absurd hshort (not_lt.2 (hlength ▸ hle))
    · obtain ⟨a', ha', -, rfl⟩ := mem_secondLeg_iff.1 hsecond
      have hsame : legSq (reach s scale b) (length (scale.get * w))
          (stretch s scale b * (b.get ⬝ᵥ (s.upper *ᵥ w))) a' = radius ^ 2 := by
        rw [← length_sq_leg h.scale_ne_zero, hlength]
      rcases lt_trichotomy a' a with hlt' | rfl | hgt
      · have hgrow := legSq_lt hk hcurve ha' hlt'
        exact absurd (hsame.trans hroot.symm) hgrow.ne
      · rfl
      · have hgrow := legSq_lt hk hcurve hpos.le hgt
        exact absurd (hsame.trans hroot.symm) hgrow.ne'
  · rintro rfl
    refine ⟨Or.inr (mem_secondLeg_iff.2 ⟨a, hpos.le, hle.le, rfl⟩), ?_⟩
    refine (pow_left_inj₀ (length_nonneg _) h.radius_pos.le two_ne_zero).1 ?_
    rw [length_sq_leg h.scale_ne_zero]
    exact hroot

/-- The step is the point where the line leaves the trust region. -/
theorem mem_path_iff :
    (y ∈ segment ℝ 0 (cauchy s scale b) ∪
        segment ℝ (cauchy s scale b) (gaussNewton (Numerics.exact ε τ z) s b).get ∧
      length (scale.get * y) = radius) ↔
    y = (dogleg (Numerics.exact ε τ z) s scale b radius).get := by
  rcases dogleg_of_lt h.scale_ne_zero hlt with ⟨hslope, -⟩ | ⟨-, hle, hx⟩ | ⟨-, hshort, hx⟩
  · exact absurd hslope (h.slope_ne_zero hlt)
  · rw [hx]
    exact h.mem_path_iff_of_le hlt hle
  · rw [hx]
    exact h.mem_path_iff_of_lt hlt hshort

end Path

/-! ### The residual -/

omit h in
/-- Before the Cauchy point the residual becomes shorter along the steepest descent direction. -/
theorem length_residual_anti (hscale : ∀ j, scale j ≠ 0) {t t' : ℝ} (htt' : t ≤ t')
    (ht' : t' ≤ stretch s scale b) :
    length (b.get - s.upper *ᵥ (t' • steepest s scale b)) ≤
      length (b.get - s.upper *ᵥ (t • steepest s scale b)) := by
  rw [← pow_le_pow_iff_left₀ (length_nonneg _) (length_nonneg _) two_ne_zero,
    residual_sq_eq hscale t, residual_sq_eq hscale t']
  refine add_le_add_right (mul_le_mul_of_nonneg_right ?_ (dot_self_nonneg _)) _
  calc (t' - stretch s scale b) ^ 2 = (stretch s scale b - t') ^ 2 := sub_sq_comm _ _
    _ ≤ (stretch s scale b - t) ^ 2 :=
      pow_le_pow_left₀ (sub_nonneg.2 ht') (sub_le_sub_left htt' _) 2
    _ = (t - stretch s scale b) ^ 2 := sub_sq_comm _ _

/-- The step leaves a residual that is not longer than that of any point along the scaled gradient
in the trust region. -/
theorem length_residual_le {t : ℝ} (ht : length (scale.get * (t • steepest s scale b)) ≤ radius) :
    length (b.get - s.upper *ᵥ (dogleg (Numerics.exact ε τ z) s scale b radius).get) ≤
      length (b.get - s.upper *ᵥ (t • steepest s scale b)) := by
  set w := (gaussNewton (Numerics.exact ε τ z) s b).get with hw
  rcases le_or_gt (length (scale.get * w)) radius with hle | hlt
  · -- the Gauss-Newton step leaves no residual
    rw [dogleg_of_le hle, h.mulVec_gaussNewton, sub_self, length_eq_zero.2 rfl]
    exact length_nonneg _
  · have hslope := h.slope_ne_zero hlt
    have hg : 0 < length (slope s scale b) := length_pos hslope
    rcases dogleg_of_lt h.scale_ne_zero hlt with ⟨hzero, -⟩ | ⟨-, hle, hx⟩ | ⟨-, hshort, hx⟩
    · exact absurd hzero hslope
    · -- the Cauchy step is cut off after the point
      have hstretch := stretch_pos h.scale_ne_zero hslope
      have hmultiple : radius / reach s scale b * stretch s scale b =
          radius / length (slope s scale b) := by
        rw [reach]
        field_simp
      rw [hx, cauchy, smul_smul, hmultiple]
      refine length_residual_anti h.scale_ne_zero ?_ ?_
      · rw [mul_smul_comm, scale_mul_steepest h.scale_ne_zero, length_smul] at ht
        exact (le_abs_self t).trans ((le_div_iff₀ hg).2 ht)
      · exact (div_le_iff₀ hg).2 hle
    · -- between the Cauchy step and the Gauss-Newton step the residual becomes shorter
      have hk := reach_sq_le h.scale_ne_zero hslope
      have hpos := boundaryShare_pos reach_nonneg hshort hlt hk
      have hlt_one := boundaryShare_lt_one reach_nonneg hshort hlt hk
      set a := boundaryShare radius (length (scale.get * w)) (reach s scale b) (length b.get)
        (length (slope s scale b)) with ha
      have hresidual : b.get - s.upper *ᵥ ((1 - a) • cauchy s scale b + a • w) =
          (1 - a) • (b.get - s.upper *ᵥ cauchy s scale b) := by
        rw [mulVec_add, mulVec_smul, mulVec_smul, hw, h.mulVec_gaussNewton]
        module
      rw [hx, hresidual, length_smul, abs_of_pos (sub_pos.2 hlt_one)]
      calc (1 - a) * length (b.get - s.upper *ᵥ cauchy s scale b)
          ≤ 1 * length (b.get - s.upper *ᵥ cauchy s scale b) :=
            mul_le_mul_of_nonneg_right (by linarith) (length_nonneg _)
        _ = length (b.get - s.upper *ᵥ cauchy s scale b) := one_mul _
        _ ≤ length (b.get - s.upper *ᵥ (t • steepest s scale b)) :=
          length_residual_cauchy_le h.scale_ne_zero t

end Regular

end Dogleg

open Dogleg

/-- In exact arithmetic, with a triangular matrix `R` without a zero on its diagonal: let `w` be the
solution of `R w = b`, and let `c` be the point along `D⁻² Rᵀ b` where the residual is shortest. The
dogleg is `w` if this is in the trust region, and otherwise the only point of the broken line from
zero over `c` to `w` that is as long as the radius. The residual there is not longer than at any
point along `D⁻² Rᵀ b` in the trust region. The dogleg never divides by zero and never takes the
root of a negative number. -/
theorem dogleg_follows_path (ε τ : ℝ) (z : Bool) {s : Trapezoid ℝ n n} {scale : Vec ℝ n}
    {radius : ℝ} (hdiag : ∀ j, s j j ≠ 0) (hscale : ∀ j, 0 < scale j) (hradius : 0 < radius)
    (b : Vec ℝ n) :
    let nm := Numerics.exact ε τ z
    let R := s.upper
    let D := scale.get
    let h := (Rᵀ *ᵥ b.get) / D ^ 2
    let x := (dogleg nm s scale b radius).get
    ∃ w c : Fin n → ℝ, (∀ y, R *ᵥ y = b.get ↔ y = w) ∧
      (∀ y, IsLineMinimizer R b.get h y ↔ y = c) ∧
      (length (D * w) ≤ radius → x = w) ∧
      (radius < length (D * w) → ∀ y,
        (y ∈ segment ℝ 0 c ∪ segment ℝ c w ∧ length (D * y) = radius) ↔ y = x) ∧
      (∀ t : ℝ, length (D * (t • h)) ≤ radius →
        length (b.get - R *ᵥ x) ≤ length (b.get - R *ᵥ (t • h))) ∧
      dogleg? nm s scale b radius = some (dogleg nm s scale b radius) := by
  intro nm R D h x
  have hregular : Regular s scale radius := ⟨hdiag, hscale, hradius⟩
  have hne := hregular.scale_ne_zero
  have hh : h = steepest s scale b := (steepest_eq s scale b).symm
  rw [hh]
  refine ⟨(gaussNewton nm s b).get, cauchy s scale b, fun y => hregular.mulVec_eq_iff nm,
    fun y => Regular.isLineMinimizer_iff hne, ?_, fun hlt y => hregular.mem_path_iff hlt,
    fun t ht => hregular.length_residual_le ht, dogleg?_eq (hregular.pivot_ne_zero nm) hne hradius⟩
  intro hle
  exact congrArg Vec.get (dogleg_of_le hle)

/-- With `R = diag(1, 2)` and `b = (2, 1)` the Gauss-Newton step `(2, 1/2)` is longer than `3/2`, so
that is the length of the dogleg. -/
theorem dogleg_follows_path_diagonal :
    let s := Trapezoid.ofPacked 2 2 [1, 0, (2 : ℝ)]
    let scale := Vec.const 2 (1 : ℝ)
    (∀ j, s j j ≠ 0) ∧ (∀ j, 0 < scale j) ∧ (0 : ℝ) < 3 / 2 ∧
      length (dogleg (Numerics.exact 0 1 false) s scale (Vec.of ![2, 1]) (3 / 2)).get = 3 / 2 := by
  intro s scale
  have hdiag : ∀ j, s j j ≠ 0 := by
    intro j
    fin_cases j <;> simp [s, Trapezoid.ofPacked]
  have hscale : ∀ j, 0 < scale j := by
    intro j
    rw [Vec.const_apply]
    exact one_pos
  have hradius : (0 : ℝ) < 3 / 2 := by norm_num
  obtain ⟨w, c, hw, -, -, hpath, -⟩ :=
    dogleg_follows_path 0 1 false hdiag hscale hradius (Vec.of ![2, 1])
  have hone : scale.get = 1 := funext fun j => Vec.const_apply 1 j
  have hsolution : ![2, 1 / 2] = w := by
    refine (hw _).1 ?_
    funext i
    fin_cases i <;> simp [s, Trapezoid.ofPacked, mulVec, dotProduct]
  have hlong : 3 / 2 < length (scale.get * w) := by
    rw [hone, one_mul, ← hsolution, length]
    refine Real.lt_sqrt_of_sq_lt ?_
    simp [dotProduct]
    norm_num
  refine ⟨hdiag, hscale, hradius, ?_⟩
  have hlength := ((hpath hlong _).2 rfl).2
  rwa [hone, one_mul] at hlength

end NonlinearSolve

import NonlinearSolve.Proofs.TrustRegion.BrokenLine
import NonlinearSolve.Proofs.TrustRegion.Newton

/-! # The points of a dogleg

What the parts of the dogleg compute, as vectors and matrices. The Gauss-Newton step solves the
triangular system with its zero pivots replaced (`mulVec_gaussNewton`). The Cauchy point is the
multiple of the steepest descent direction at which the residual of the system is shortest
(`residual_sq_eq`). The step is one of four combinations of these (`dogleg_of_le`,
`dogleg_of_lt`). -/

namespace NonlinearSolve

open Matrix Scalar Secular

variable {n : Nat} {ε τ : ℝ} {z : Bool}

namespace Dogleg

/-! ### Back substitution -/

section BackSubstitution

variable {nm : Numerics ℝ} {s : Trapezoid ℝ n n}

/-- The triangular matrix with the divisors of the back substitution on its diagonal. -/
noncomputable def pivoted (nm : Numerics ℝ) (s : Trapezoid ℝ n n) : Matrix (Fin n) (Fin n) ℝ :=
  Matrix.of fun i j => if i = j then pivot nm s j else s.upper i j

/-- The triangle that a trapezoid stores is upper triangular. -/
theorem isUpperTriangular_upper (s : Trapezoid ℝ n n) : s.upper.IsUpperTriangular :=
  fun _ _ hji => s.apply_of_lt hji

/-- With other pivots it is upper triangular as well. -/
theorem isUpperTriangular_pivoted : (pivoted nm s).IsUpperTriangular := by
  intro i j hji
  exact (if_neg hji.ne').trans (isUpperTriangular_upper s hji)

/-- A diagonal entry that is not zero is the divisor itself. -/
theorem pivot_of_ne_zero {j : Fin n} (h : s j j ≠ 0) : pivot nm s j = s j j :=
  if_neg (mt (Exact.beq_iff _ _).1 h)

/-- A zero is replaced by something else. -/
theorem pivot_ne_zero (hε : ε ≠ 0) (s : Trapezoid ℝ n n) (j : Fin n) :
    pivot (Numerics.exact ε τ z) s j ≠ 0 := by
  simp only [pivot]
  split
  · split
    · exact hε
    · next hzero => exact mt (Exact.beq_iff _ _).2 hzero
  · next hzero => exact mt (Exact.beq_iff _ _).2 hzero

/-- Without zeros on the diagonal nothing is replaced. -/
theorem pivoted_eq (h : ∀ j, s j j ≠ 0) : pivoted nm s = s.upper := by
  ext i j
  by_cases hij : i = j
  · subst hij
    exact (if_pos rfl).trans (pivot_of_ne_zero (h i))
  · exact if_neg hij

/-- The state of the substitution when the components from `k` on are known: the equations from `k`
on hold. -/
def Substituted (nm : Numerics ℝ) (s : Trapezoid ℝ n n) (b : Vec ℝ n) (k : Nat) (x : Vec ℝ n) :
    Prop :=
  ∀ l : Fin n, k ≤ l.val →
    pivot nm s l * x l + (∑ i : Fin n, if l.val + 1 ≤ i.val then s i l * x i else 0) = b l

/-- One step of the substitution. -/
theorem Substituted.step {b x : Vec ℝ n} {j : Fin n} (h : Substituted nm s b (j + 1) x)
    (hpivot : pivot nm s j ≠ 0) :
    Substituted nm s b j
      (x.set j ((b j - sumWhere (j < ·) (fun i => s i j * x i)) / pivot nm s j)) := by
  set t := (b j - sumWhere (j < ·) (fun i => s i j * x i)) / pivot nm s j with ht
  have htail : ∀ l : Fin n, j ≤ l →
      (∑ i : Fin n, if l.val + 1 ≤ i.val then s i l * x.set j t i else 0) =
        ∑ i : Fin n, if l.val + 1 ≤ i.val then s i l * x i else 0 := by
    intro l hl
    refine Exact.sum_ite_congr ?_
    intro i hi
    have hne : i ≠ j := Fin.ne_of_val_ne (by omega)
    rw [Vec.set_apply, if_neg hne]
  intro l hjl
  rw [htail l hjl, Vec.set_apply]
  obtain heq | hlt := Nat.eq_or_lt_of_le hjl
  · obtain rfl : j = l := Fin.ext heq
    rw [if_pos rfl, ht, mul_div_cancel₀ _ hpivot, Exact.sumWhere_eq]
    exact sub_add_cancel _ _
  · have hne : l ≠ j := Fin.ne_of_val_ne hlt.ne'
    rw [if_neg hne]
    exact h l hlt

/-- The Gauss-Newton step solves the system with the replaced pivots. -/
theorem mulVec_gaussNewton (hpivot : ∀ j, pivot nm s j ≠ 0) (b : Vec ℝ n) :
    pivoted nm s *ᵥ (gaussNewton nm s b).get = b.get := by
  have hloop : Substituted nm s b 0 (gaussNewton nm s b) :=
    foldr_invariant (motive := Substituted nm s b)
      (fun l hl => absurd l.isLt (Nat.not_lt.2 hl)) fun j x hx => hx.step (hpivot j)
  funext l
  have hsum : (∑ i : Fin n, if l.val + 1 ≤ i.val then
      pivoted nm s l i * (gaussNewton nm s b).get i else 0) =
        ∑ i : Fin n, if l.val + 1 ≤ i.val then s i l * gaussNewton nm s b i else 0 := by
    refine Exact.sum_ite_congr ?_
    intro i hi
    have hne : l ≠ i := Fin.ne_of_val_ne (by omega)
    exact congrArg (· * gaussNewton nm s b i) (if_neg hne)
  have hdiag : pivoted nm s l l = pivot nm s l := if_pos rfl
  rw [mulVec_triangular isUpperTriangular_pivoted, hsum, hdiag]
  exact hloop l (Nat.zero_le _)

/-- No other vector solves it. -/
theorem mulVec_eq_iff (hpivot : ∀ j, pivot nm s j ≠ 0) {b : Vec ℝ n} {y : Fin n → ℝ} :
    pivoted nm s *ᵥ y = b.get ↔ y = (gaussNewton nm s b).get := by
  have hdiag : ∀ j, pivoted nm s j j ≠ 0 := by
    intro j
    have hj : pivoted nm s j j = pivot nm s j := if_pos rfl
    rw [hj]
    exact hpivot j
  have hdet := NormalEquations.det_ne_zero_of_triangular isUpperTriangular_pivoted hdiag
  have hunit : IsUnit (pivoted nm s) := (isUnit_iff_isUnit_det _).2 hdet.isUnit
  constructor
  · intro hy
    exact mulVec_injective_of_isUnit hunit (hy.trans (mulVec_gaussNewton hpivot b).symm)
  · rintro rfl
    exact mulVec_gaussNewton hpivot b

end BackSubstitution

/-! ### The gradient -/

section Gradient

variable (s : Trapezoid ℝ n n) (scale b : Vec ℝ n)

/-- The scaled gradient. -/
noncomputable def slope : Fin n → ℝ := (s.upperᵀ *ᵥ b.get) / scale.get

/-- The direction of steepest descent in the unknowns. -/
noncomputable def steepest : Fin n → ℝ := slope s scale b / scale.get

/-- Steepest descent in the unknowns is the gradient divided twice by the scaling. -/
theorem steepest_eq : steepest s scale b = (s.upperᵀ *ᵥ b.get) / scale.get ^ 2 := by
  funext j
  change _ / scale j / scale j = _ / scale j ^ 2
  rw [pow_two, div_div]

/-- The gradient that the dogleg computes is the scaled one. -/
theorem gradient_get : (gradient s scale b).get = slope s scale b := by
  funext j
  rw [gradient, Vec.get_of, slope, Pi.div_apply, Exact.sumWhere_eq]
  congr 1
  change _ = ∑ i, s.upper i j * b i
  refine Finset.sum_congr rfl ?_
  intro i _
  by_cases hij : i ≤ j
  · exact if_pos hij
  · have hzero : s.upper i j = 0 := isUpperTriangular_upper s (not_le.1 hij)
    rw [if_neg hij, hzero, zero_mul]

/-- The product that the dogleg computes is that with the triangle. -/
theorem product_get (x : Vec ℝ n) : (product s x).get = s.upper *ᵥ x.get := by
  funext i
  rw [product, Vec.get_of, Exact.sumWhere_eq]
  change _ = ∑ j, s.upper i j * x j
  refine Finset.sum_congr rfl ?_
  intro j _
  by_cases hij : i ≤ j
  · exact if_pos hij
  · have hzero : s.upper i j = 0 := isUpperTriangular_upper s (not_le.1 hij)
    rw [if_neg hij, hzero, zero_mul]

end Gradient

/-! ### The Cauchy point -/

section Cauchy

/-- The multiple of the steepest descent direction that leads to the Cauchy point. -/
noncomputable def stretch (s : Trapezoid ℝ n n) (scale b : Vec ℝ n) : ℝ :=
  (slope s scale b ⬝ᵥ slope s scale b) /
    ((s.upper *ᵥ steepest s scale b) ⬝ᵥ (s.upper *ᵥ steepest s scale b))

/-- The Cauchy point. -/
noncomputable def cauchy (s : Trapezoid ℝ n n) (scale b : Vec ℝ n) : Fin n → ℝ :=
  stretch s scale b • steepest s scale b

/-- The scaled length of the Cauchy point. -/
noncomputable def reach (s : Trapezoid ℝ n n) (scale b : Vec ℝ n) : ℝ :=
  stretch s scale b * length (slope s scale b)

variable {s : Trapezoid ℝ n n} {scale b : Vec ℝ n} (hscale : ∀ j, scale j ≠ 0)

include hscale

/-- In scaled units steepest descent is the scaled gradient. -/
theorem scale_mul_steepest : scale.get * steepest s scale b = slope s scale b := by
  funext j
  exact mul_div_cancel₀ _ (hscale j)

/-- In the units of the scaling the scaled gradient is the gradient of the residual. -/
theorem slope_dot (y : Fin n → ℝ) :
    slope s scale b ⬝ᵥ (scale.get * y) = b.get ⬝ᵥ (s.upper *ᵥ y) := by
  have hcancel : slope s scale b ⬝ᵥ (scale.get * y) = (s.upperᵀ *ᵥ b.get) ⬝ᵥ y := by
    refine Finset.sum_congr rfl ?_
    intro j _
    have hj : scale.get j ≠ 0 := hscale j
    rw [slope, Pi.div_apply, Pi.mul_apply, ← mul_assoc, div_mul_cancel₀ _ hj]
  rw [hcancel, mulVec_transpose, dotProduct_mulVec]

/-- The square of the scaled gradient is the decrease of the model along steepest descent. -/
theorem slope_dot_self : slope s scale b ⬝ᵥ slope s scale b =
    b.get ⬝ᵥ (s.upper *ᵥ steepest s scale b) := by
  rw [← slope_dot hscale, scale_mul_steepest hscale]

/-- Along the steepest descent direction the model changes, unless the gradient is zero. -/
theorem mulVec_steepest_ne_zero (hslope : slope s scale b ≠ 0) :
    s.upper *ᵥ steepest s scale b ≠ 0 := by
  intro hzero
  have hself := slope_dot_self (s := s) (b := b) hscale
  rw [hzero, dotProduct_zero] at hself
  exact hslope (dotProduct_self_eq_zero.1 hself)

/-- The stretch is where the derivative of the residual vanishes. -/
theorem stretch_mul : stretch s scale b *
    ((s.upper *ᵥ steepest s scale b) ⬝ᵥ (s.upper *ᵥ steepest s scale b)) =
      slope s scale b ⬝ᵥ slope s scale b := by
  by_cases hslope : slope s scale b = 0
  · rw [stretch, hslope, dotProduct_zero, zero_div, zero_mul]
  · have hne := mt dotProduct_self_eq_zero.1 (mulVec_steepest_ne_zero hscale hslope)
    exact div_mul_cancel₀ _ hne

/-- Along the steepest descent direction the residual is shortest at the Cauchy point. -/
theorem residual_sq_eq (t : ℝ) :
    length (b.get - s.upper *ᵥ (t • steepest s scale b)) ^ 2 =
      length (b.get - s.upper *ᵥ cauchy s scale b) ^ 2 +
        (t - stretch s scale b) ^ 2 *
          ((s.upper *ᵥ steepest s scale b) ⬝ᵥ (s.upper *ᵥ steepest s scale b)) := by
  have hself := slope_dot_self (s := s) (b := b) hscale
  have hstretch := stretch_mul (s := s) (b := b) hscale
  rw [length_sq, length_sq, cauchy, mulVec_smul, mulVec_smul]
  simp only [sub_dotProduct, dotProduct_sub, smul_dotProduct, dotProduct_smul, smul_eq_mul,
    dotProduct_comm (s.upper *ᵥ steepest s scale b) b.get]
  rw [← hself]
  linear_combination (2 * t - 2 * stretch s scale b) * hstretch

/-- The scaled Cauchy point. -/
theorem scale_mul_cauchy :
    scale.get * cauchy s scale b = stretch s scale b • slope s scale b := by
  rw [cauchy, mul_smul_comm, scale_mul_steepest hscale]

/-- The scalar product of the Cauchy point with another point, in scaled units. -/
theorem cauchy_dot (y : Fin n → ℝ) : (scale.get * cauchy s scale b) ⬝ᵥ (scale.get * y) =
    stretch s scale b * (b.get ⬝ᵥ (s.upper *ᵥ y)) := by
  rw [scale_mul_cauchy hscale, smul_dotProduct, slope_dot hscale, smul_eq_mul]

omit hscale in
/-- The Cauchy point is a nonnegative multiple of steepest descent. -/
theorem stretch_nonneg : 0 ≤ stretch s scale b :=
  div_nonneg (dot_self_nonneg _) (dot_self_nonneg _)

omit hscale in
/-- The length of the Cauchy point is not negative. -/
theorem reach_nonneg : 0 ≤ reach s scale b := mul_nonneg stretch_nonneg (length_nonneg _)

/-- The length that the dogleg computes for the Cauchy point is its scaled length. -/
theorem length_cauchy : length (scale.get * cauchy s scale b) = reach s scale b := by
  rw [scale_mul_cauchy hscale, length_smul, abs_of_nonneg stretch_nonneg, reach]

variable (hslope : slope s scale b ≠ 0)

include hslope

/-- With a gradient that does not vanish the multiple is positive. -/
theorem stretch_pos : 0 < stretch s scale b :=
  div_pos (dot_self_pos hslope) (dot_self_pos (mulVec_steepest_ne_zero hscale hslope))

omit hscale in
/-- The scalar product that the dogleg takes for that of the Cauchy point and the Gauss-Newton
step. -/
theorem correlation_eq :
    correlation (reach s scale b) (length b.get) (length (slope s scale b)) =
      stretch s scale b * (b.get ⬝ᵥ b.get) := by
  have hne : length (slope s scale b) ≠ 0 := (length_pos hslope).ne'
  rw [correlation, reach, length_sq, mul_right_comm, mul_div_cancel_right₀ _ hne]

/-- From the Cauchy point towards a solution the scaled length does not decrease. -/
theorem reach_sq_le : reach s scale b ^ 2 ≤
    correlation (reach s scale b) (length b.get) (length (slope s scale b)) := by
  rw [correlation_eq hslope, reach, mul_pow, length_sq, pow_two, mul_assoc]
  refine mul_le_mul_of_nonneg_left ?_ stretch_nonneg
  -- the derivative of the residual is bounded by the Cauchy-Schwarz inequality
  set w := s.upper *ᵥ steepest s scale b
  have hw : 0 < w ⬝ᵥ w := dot_self_pos (mulVec_steepest_ne_zero hscale hslope)
  refine le_of_mul_le_mul_right ?_ hw
  have hself := slope_dot_self (s := s) (b := b) hscale
  have hstretch := stretch_mul (s := s) (b := b) hscale
  have hnonneg : 0 ≤ b.get ⬝ᵥ w := hself ▸ dot_self_nonneg _
  calc stretch s scale b * (slope s scale b ⬝ᵥ slope s scale b) * (w ⬝ᵥ w)
      = (stretch s scale b * (w ⬝ᵥ w)) * (slope s scale b ⬝ᵥ slope s scale b) := by ring
    _ = (b.get ⬝ᵥ w) ^ 2 := by rw [hstretch, hself, pow_two]
    _ ≤ (length b.get * length w) ^ 2 :=
      pow_le_pow_left₀ hnonneg (dot_le_length_mul_length _ _) 2
    _ = b.get ⬝ᵥ b.get * (w ⬝ᵥ w) := by rw [mul_pow, length_sq, length_sq]

end Cauchy

/-! ### The combination -/

section Combination

variable {s : Trapezoid ℝ n n} {scale b : Vec ℝ n} {radius q : ℝ}

/-- The scaled norm is the length in scaled units. -/
theorem scaledNorm_eq (d v : Vec ℝ n) :
    (Numerics.exact ε τ z).scaledNorm d v = length (d.get * v.get) := by
  rw [Numerics.scaledNorm, Subproblem.vecNorm_eq_length]
  congr 1
  funext j
  exact Vec.diagMul_apply d v j

/-- The norm of the gradient is its length. -/
theorem gradientNorm_eq : (Numerics.exact ε τ z).vecNorm (gradient s scale b) =
    length (slope s scale b) := by
  rw [Subproblem.vecNorm_eq_length, gradient_get]

/-- The direction along the scaled gradient that the dogleg takes. -/
theorem direction_get {g : ℝ} :
    (Vec.of fun j => gradient s scale b j / g / scale j).get = g⁻¹ • steepest s scale b := by
  funext j
  have hj : gradient s scale b j = slope s scale b j := congrFun (gradient_get s scale b) j
  rw [Vec.of_apply, hj, Pi.smul_apply, steepest, Pi.div_apply, smul_eq_mul]
  ring

/-- The length that the dogleg computes for the Cauchy step. -/
theorem cauchyLength_eq (hscale : ∀ j, scale j ≠ 0) (hslope : slope s scale b ≠ 0) :
    let g := length (slope s scale b)
    let t := (Numerics.exact ε τ z).vecNorm
      (product s (Vec.of fun j => gradient s scale b j / g / scale j))
    t ≠ 0 ∧ g / t / t = reach s scale b := by
  intro g t
  have hg : 0 < g := length_pos hslope
  have hw := length_pos (mulVec_steepest_ne_zero hscale hslope)
  have ht : t = g⁻¹ * length (s.upper *ᵥ steepest s scale b) := by
    change (Numerics.exact ε τ z).vecNorm _ = _
    rw [Subproblem.vecNorm_eq_length, product_get, direction_get, mulVec_smul, length_smul,
      abs_of_pos (inv_pos.2 hg)]
  refine ⟨?_, ?_⟩
  · rw [ht]
    exact (mul_pos (inv_pos.2 hg) hw).ne'
  · have hcancel : g / (g⁻¹ * length (s.upper *ᵥ steepest s scale b)) /
        (g⁻¹ * length (s.upper *ᵥ steepest s scale b)) =
          g ^ 2 / length (s.upper *ᵥ steepest s scale b) ^ 2 * g := by
      field_simp
    rw [ht, hcancel, reach, stretch, ← length_sq, ← length_sq]

/-- The combination where the gradient is zero. -/
theorem blend_of_eq_zero (hslope : slope s scale b = 0) :
    blend (Numerics.exact ε τ z) s scale b radius q =
      { direction := gradient s scale b, reach := 0, share := radius / q } := by
  have hzero : ((Numerics.exact ε τ z).vecNorm (gradient s scale b) == 0) = true := by
    rw [Exact.beq_iff, gradientNorm_eq, hslope, length_eq_zero]
  simp only [blend, hzero, if_true]

/-- The combination where the gradient is not zero. -/
theorem blend_of_ne_zero (hscale : ∀ j, scale j ≠ 0) (hslope : slope s scale b ≠ 0) :
    blend (Numerics.exact ε τ z) s scale b radius q =
      { direction := Vec.of fun j =>
          gradient s scale b j / length (slope s scale b) / scale j
        reach := reach s scale b
        share := if reach s scale b < radius then
          boundaryShare radius q (reach s scale b) (length b.get)
            (length (slope s scale b)) else 0 } := by
  have hne : (length (slope s scale b) == 0) = false :=
    (Exact.beq_eq_false_iff _ _).2 (length_pos hslope).ne'
  obtain ⟨-, hreach⟩ := cauchyLength_eq (ε := ε) (τ := τ) (z := z) hscale hslope
  have hrhs := Subproblem.vecNorm_eq_length (ε := ε) (τ := τ) (z := z) b
  simp only [blend, gradientNorm_eq, hne, Bool.false_eq_true, if_false, hreach, hrhs]

end Combination

end Dogleg

open Dogleg

variable {s : Trapezoid ℝ n n} {scale b : Vec ℝ n} {radius : ℝ}

/-- A Gauss-Newton step inside the trust region is taken as it is. -/
theorem dogleg_of_le (hle : length (scale.get * (gaussNewton (Numerics.exact ε τ z) s b).get) ≤
    radius) : dogleg (Numerics.exact ε τ z) s scale b radius =
      gaussNewton (Numerics.exact ε τ z) s b := by
  rw [← scaledNorm_eq (ε := ε) (τ := τ) (z := z)] at hle
  simp only [dogleg, if_pos hle]

/-- If it is too long, then it is combined with the direction along the scaled gradient. -/
theorem dogleg_get_of_lt {w : Blend ℝ n}
    (hlt : radius < length (scale.get * (gaussNewton (Numerics.exact ε τ z) s b).get))
    (hb : blend (Numerics.exact ε τ z) s scale b radius
      (length (scale.get * (gaussNewton (Numerics.exact ε τ z) s b).get)) = w) :
    (dogleg (Numerics.exact ε τ z) s scale b radius).get =
      ((1 - w.share) * min w.reach radius) • w.direction.get +
        w.share • (gaussNewton (Numerics.exact ε τ z) s b).get := by
  simp only [dogleg, scaledNorm_eq, if_neg (not_le.2 hlt), hb, Exact.minNum_eq, Vec.get_of]
  rfl

/-- So it is one of three points: the Gauss-Newton step cut off, if the gradient is zero, the Cauchy
step cut off, if this is too long as well, and otherwise a point between the two steps. -/
theorem dogleg_of_lt (hscale : ∀ j, scale j ≠ 0)
    (hlt : radius < length (scale.get * (gaussNewton (Numerics.exact ε τ z) s b).get)) :
    let nm := Numerics.exact ε τ z
    let y := (gaussNewton nm s b).get
    let x := (dogleg nm s scale b radius).get
    (slope s scale b = 0 ∧ x = (radius / length (scale.get * y)) • y) ∨
    (slope s scale b ≠ 0 ∧ radius ≤ reach s scale b ∧
      x = (radius / reach s scale b) • cauchy s scale b) ∨
    (slope s scale b ≠ 0 ∧ reach s scale b < radius ∧
      let a := boundaryShare radius (length (scale.get * y)) (reach s scale b) (length b.get)
        (length (slope s scale b))
      x = (1 - a) • cauchy s scale b + a • y) := by
  intro nm y x
  by_cases hslope : slope s scale b = 0
  · have hx := dogleg_get_of_lt hlt (blend_of_eq_zero hslope)
    rw [gradient_get, hslope, smul_zero, zero_add] at hx
    exact Or.inl ⟨hslope, hx⟩
  · refine Or.inr ?_
    have hg : length (slope s scale b) ≠ 0 := (length_pos hslope).ne'
    have hx := dogleg_get_of_lt hlt (blend_of_ne_zero hscale hslope)
    rw [direction_get, smul_smul] at hx
    rcases lt_or_ge (reach s scale b) radius with hlt | hge
    · refine Or.inr ⟨hslope, hlt, ?_⟩
      simp only [if_pos hlt, min_eq_left hlt.le] at hx
      refine hx.trans ?_
      rw [cauchy, smul_smul, reach, mul_assoc, mul_inv_cancel_right₀ hg]
    · refine Or.inl ⟨hslope, hge, ?_⟩
      simp only [if_neg (not_lt.2 hge), min_eq_right hge, sub_zero, one_mul, zero_smul,
        add_zero] at hx
      refine hx.trans ?_
      have hstretch : stretch s scale b ≠ 0 := (stretch_pos hscale hslope).ne'
      rw [cauchy, smul_smul, reach]
      congr 1
      field_simp

end NonlinearSolve

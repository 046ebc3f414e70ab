import NonlinearSolve.Proofs.TrustRegion.DoglegPath

/-! # Doglegs with zero pivots

With a zero on the diagonal the Gauss-Newton step solves another system, in which the zero has been
replaced, but the share of it that the dogleg takes is computed as if it solved the given one. So a
point between the Cauchy step and the Gauss-Newton step is as long as the radius only if the model
`R w` and the right hand side have the same product with the right hand side as this has with itself
(`length_sq_between`). The dogleg obeys the trust region exactly if that product is not larger, or
if there is nothing to combine (`length_dogleg_le_iff`). It is not larger if all rows with a zero on
the diagonal are zero (`dot_mulVec_le`), but in general it can be (`dogleg_leaves_trust_region`). -/

namespace NonlinearSolve

open Matrix Scalar Secular

variable {n : Nat} {ε τ : ℝ} {z : Bool}

namespace Dogleg

variable {s : Trapezoid ℝ n n} {scale b : Vec ℝ n} {radius : ℝ} {w : Fin n → ℝ}

section Between

variable (hscale : ∀ j, scale j ≠ 0) (hslope : slope s scale b ≠ 0)
  (hshort : reach s scale b < radius)

include hscale hslope hshort

/-- The scaled length of the point that the dogleg takes between the Cauchy step and a step `w`. -/
theorem length_sq_between (hlt : radius < length (scale.get * w)) :
    let a := boundaryShare radius (length (scale.get * w)) (reach s scale b) (length b.get)
      (length (slope s scale b))
    length (scale.get * ((1 - a) • cauchy s scale b + a • w)) ^ 2 = radius ^ 2 +
      2 * a * (1 - a) * (stretch s scale b * (b.get ⬝ᵥ (s.upper *ᵥ w) - b.get ⬝ᵥ b.get)) := by
  intro a
  have hroot := legSq_boundaryShare reach_nonneg hshort hlt (reach_sq_le hscale hslope)
  rw [correlation_eq hslope] at hroot
  rw [length_sq_leg hscale, legSq_eq_add _ _ _ (stretch s scale b * (b.get ⬝ᵥ b.get)), hroot,
    ← mul_sub]

/-- It is in the trust region exactly if the model does not reach beyond the right hand side. -/
theorem length_between_le_iff (hradius : 0 ≤ radius) (hlt : radius < length (scale.get * w)) :
    let a := boundaryShare radius (length (scale.get * w)) (reach s scale b) (length b.get)
      (length (slope s scale b))
    length (scale.get * ((1 - a) • cauchy s scale b + a • w)) ≤ radius ↔
      b.get ⬝ᵥ (s.upper *ᵥ w) ≤ b.get ⬝ᵥ b.get := by
  intro a
  have hk := reach_sq_le hscale hslope
  have hpos : 0 < a := boundaryShare_pos reach_nonneg hshort hlt hk
  have hle : a < 1 := boundaryShare_lt_one reach_nonneg hshort hlt hk
  have hfactor : 0 < 2 * a * (1 - a) * stretch s scale b :=
    mul_pos (mul_pos (mul_pos two_pos hpos) (sub_pos.2 hle)) (stretch_pos hscale hslope)
  rw [← pow_le_pow_iff_left₀ (length_nonneg _) hradius two_ne_zero,
    length_sq_between hscale hslope hshort hlt, ← mul_assoc, add_le_iff_nonpos_right,
    ← sub_nonpos (a := b.get ⬝ᵥ (s.upper *ᵥ w))]
  exact ⟨fun h => nonpos_of_mul_nonpos_right h hfactor,
    fun h => mul_nonpos_of_nonneg_of_nonpos hfactor.le h⟩

end Between

/-- When the dogleg obeys the trust region. -/
theorem length_dogleg_le_iff (hscale : ∀ j, scale j ≠ 0) (hradius : 0 < radius) :
    let w := (gaussNewton (Numerics.exact ε τ z) s b).get
    length (scale.get * (dogleg (Numerics.exact ε τ z) s scale b radius).get) ≤ radius ↔
      length (scale.get * w) ≤ radius ∨ slope s scale b = 0 ∨ radius ≤ reach s scale b ∨
        b.get ⬝ᵥ (s.upper *ᵥ w) ≤ b.get ⬝ᵥ b.get := by
  intro w
  rcases le_or_gt (length (scale.get * w)) radius with hle | hlt
  · rw [dogleg_of_le hle]
    exact ⟨Or.inl, fun _ => hle⟩
  · have hlong : ¬ length (scale.get * w) ≤ radius := not_le.2 hlt
    rcases dogleg_of_lt hscale hlt with ⟨hzero, hx⟩ | ⟨hslope, hle, hx⟩ | ⟨hslope, hshort, hx⟩
    · -- the Gauss-Newton step is cut off
      have hq : 0 < length (scale.get * w) := hradius.trans hlt
      rw [hx, mul_smul_comm, length_smul, abs_of_pos (div_pos hradius hq),
        div_mul_cancel₀ _ hq.ne']
      exact ⟨fun _ => Or.inr (Or.inl hzero), fun _ => le_rfl⟩
    · -- the Cauchy step is cut off
      have hreach : 0 < reach s scale b := hradius.trans_le hle
      rw [hx, length_firstLeg hscale (div_pos hradius hreach).le, div_mul_cancel₀ _ hreach.ne']
      exact ⟨fun _ => Or.inr (Or.inr (Or.inl hle)), fun _ => le_rfl⟩
    · rw [hx]
      refine (length_between_le_iff hscale hslope hshort hradius.le hlt).trans ?_
      simp only [hlong, hslope, not_le.2 hshort, false_or]

/-- If the rows with a zero on the diagonal are zero, then the model does not reach beyond the right
hand side. -/
theorem dot_mulVec_le {nm : Numerics ℝ} (hw : pivoted nm s *ᵥ w = b.get)
    (hrows : ∀ j, s j j = 0 → s.upper j = 0) :
    b.get ⬝ᵥ (s.upper *ᵥ w) ≤ b.get ⬝ᵥ b.get := by
  refine Finset.sum_le_sum ?_
  intro i _
  by_cases hi : s i i = 0
  · have hzero : (s.upper *ᵥ w) i = 0 := by
      rw [mulVec, hrows i hi, zero_dotProduct]
    rw [hzero, mul_zero]
    exact mul_self_nonneg _
  · -- nothing is replaced in this row
    have hrow : pivoted nm s i = s.upper i := by
      funext j
      by_cases hij : i = j
      · subst hij
        exact (if_pos rfl).trans (pivot_of_ne_zero hi)
      · exact if_neg hij
    have hvalue : (s.upper *ᵥ w) i = b.get i := by
      rw [← hw, mulVec, mulVec, hrow]
    rw [hvalue]

/-- Steepest descent leads nowhere exactly where the gradient vanishes. -/
theorem steepest_eq_zero_iff (hscale : ∀ j, scale j ≠ 0) :
    steepest s scale b = 0 ↔ slope s scale b = 0 := by
  constructor
  · intro hzero
    rw [← scale_mul_steepest hscale, hzero, mul_zero]
  · intro hzero
    funext j
    rw [steepest, hzero]
    exact zero_div _

end Dogleg

open Dogleg

/-- In exact arithmetic, whatever is on the diagonal of the triangular matrix `R`: let `w` be the
solution of `R w = b` with the zeros on the diagonal replaced, and let `c` be the point along `D⁻²
Rᵀ b` where the residual is shortest. The dogleg is in the trust region if and only if `w` is, or
`D⁻² Rᵀ b` is zero, or `c` is not inside, or `b ⬝ R w ≤ b ⬝ b`. This is so if all rows of `R` with a
zero on the diagonal are zero. If `w` is outside and `c` is inside, then the dogleg is a point
between `c` and `w`, and the square of its length differs from that of the radius by a positive
multiple of `b ⬝ R w - b ⬝ b`. The dogleg never divides by zero and never takes the root of a
negative number. -/
theorem dogleg_obeys_trust_region_iff {ε : ℝ} (hε : ε ≠ 0) (τ : ℝ) (z : Bool)
    (s : Trapezoid ℝ n n) {scale : Vec ℝ n} {radius : ℝ} (hscale : ∀ j, 0 < scale j)
    (hradius : 0 < radius) (b : Vec ℝ n) :
    let nm := Numerics.exact ε τ z
    let R := s.upper
    let D := scale.get
    let h := (Rᵀ *ᵥ b.get) / D ^ 2
    let x := (dogleg nm s scale b radius).get
    ∃ w c : Fin n → ℝ, (∀ y, pivoted nm s *ᵥ y = b.get ↔ y = w) ∧
      (∀ y, IsLineMinimizer R b.get h y ↔ y = c) ∧
      (length (D * x) ≤ radius ↔ length (D * w) ≤ radius ∨ h = 0 ∨ radius ≤ length (D * c) ∨
        b.get ⬝ᵥ (R *ᵥ w) ≤ b.get ⬝ᵥ b.get) ∧
      ((∀ j, s j j = 0 → R j = 0) → length (D * x) ≤ radius) ∧
      (radius < length (D * w) → h ≠ 0 → length (D * c) < radius →
        ∃ a t : ℝ, 0 < a ∧ a < 1 ∧ 0 < t ∧ c = t • h ∧ x = (1 - a) • c + a • w ∧
          length (D * x) ^ 2 = radius ^ 2 +
            2 * a * (1 - a) * (t * (b.get ⬝ᵥ (R *ᵥ w) - b.get ⬝ᵥ b.get))) ∧
      dogleg? nm s scale b radius = some (dogleg nm s scale b radius) := by
  intro nm R D h x
  have hne : ∀ j, scale j ≠ 0 := fun j => (hscale j).ne'
  have hpivot : ∀ j, pivot nm s j ≠ 0 := pivot_ne_zero hε s
  have hh : h = steepest s scale b := (steepest_eq s scale b).symm
  have hiff := length_dogleg_le_iff (ε := ε) (τ := τ) (z := z) (s := s) (b := b) hne hradius
  rw [hh]
  refine ⟨(gaussNewton nm s b).get, cauchy s scale b, fun y => Dogleg.mulVec_eq_iff hpivot,
    fun y => Regular.isLineMinimizer_iff hne, ?_, ?_, ?_, dogleg?_eq hpivot hne hradius⟩
  · rw [steepest_eq_zero_iff hne, length_cauchy hne]
    exact hiff
  · intro hrows
    exact hiff.2 (Or.inr (Or.inr (Or.inr (dot_mulVec_le (mulVec_gaussNewton hpivot b) hrows))))
  · intro hlt hsteepest hshort
    have hslope : slope s scale b ≠ 0 := mt (steepest_eq_zero_iff hne).2 hsteepest
    rw [length_cauchy hne] at hshort
    have hk := reach_sq_le hne hslope
    obtain ⟨hzero, -⟩ | ⟨-, hle, -⟩ | ⟨-, -, hx⟩ := dogleg_of_lt hne hlt
    · exact absurd hzero hslope
    · exact absurd hshort (not_lt.2 hle)
    · refine ⟨_, stretch s scale b, boundaryShare_pos reach_nonneg hshort hlt hk,
        boundaryShare_lt_one reach_nonneg hshort hlt hk, stretch_pos hne hslope, rfl, hx, ?_⟩
      rw [show x = _ from hx]
      exact length_sq_between hne hslope hshort hlt

/-- With `R = [1 1; 0 0]` and `b = (1, 1)` the second row is zero, so the dogleg is in the trust
region with the radius `2`. -/
theorem dogleg_obeys_trust_region_iff_zero_row :
    let ε := (1 : ℝ) / 2 ^ 52
    let s := Trapezoid.ofPacked 2 2 [1, 1, (0 : ℝ)]
    let scale := Vec.const 2 (1 : ℝ)
    ε ≠ 0 ∧ (∀ j, 0 < scale j) ∧ (0 : ℝ) < 2 ∧ s 1 1 = 0 ∧
      length (scale.get * (dogleg (Numerics.exact ε 1 false) s scale (Vec.const 2 1) 2).get) ≤
        2 := by
  intro ε s scale
  have hε : ε ≠ 0 := by norm_num [ε]
  have hscale : ∀ j, 0 < scale j := by
    intro j
    rw [Vec.const_apply]
    exact one_pos
  obtain ⟨w, c, -, -, -, hrows, -, -⟩ :=
    dogleg_obeys_trust_region_iff hε 1 false s hscale two_pos (Vec.const 2 1)
  refine ⟨hε, hscale, two_pos, by simp [s, Trapezoid.ofPacked], hrows ?_⟩
  intro j hj
  funext i
  fin_cases j
  · simp [s, Trapezoid.ofPacked] at hj
  · fin_cases i <;> simp [s, Trapezoid.ofPacked]

/-! ### A dogleg that is too long -/

namespace Dogleg

section Overshooting

/-- The matrix `[0 ε; 0 ε]`. -/
noncomputable def overshooting (ε : ℝ) : Trapezoid ℝ 2 2 := Trapezoid.ofPacked 2 2 [0, ε, ε]

/-- The right hand side `(ε, 3 ε)`. -/
noncomputable def overshootingRhs (ε : ℝ) : Vec ℝ 2 := Vec.of ![ε, 3 * ε]

/-- The scaling by ones as a function. -/
theorem const_one_get : (Vec.const 2 (1 : ℝ)).get = 1 := funext fun j => Vec.const_apply 1 j

/-- The triangle of the example as a matrix, with a zero pivot. -/
theorem overshooting_upper (ε : ℝ) : (overshooting ε).upper = !![0, ε; 0, ε] := by
  ext i j
  fin_cases i <;> fin_cases j <;> simp [overshooting, Trapezoid.ofPacked]

/-- The right hand side of the example as a function. -/
theorem overshootingRhs_get (ε : ℝ) : (overshootingRhs ε).get = ![ε, 3 * ε] := Vec.get_of _

variable {ε : ℝ} (hε : 0 < ε)

include hε

/-- The zero on the diagonal is replaced by `ε`, as its column is zero. -/
theorem overshooting_pivoted :
    pivoted (Numerics.exact ε τ z) (overshooting ε) = !![ε, ε; 0, ε] := by
  have hreplaced : pivot (Numerics.exact ε τ z) (overshooting ε) 0 = ε := by
    have hzero : overshooting ε 0 0 = 0 := by simp [overshooting, Trapezoid.ofPacked]
    have hcolumn : columnMax (overshooting ε) 0 = 0 := by
      simp [columnMax, Fin.foldl_succ, hzero, Exact.maxNum_eq, Exact.mag_eq]
    have hbeq : ((0 : ℝ) == 0) = true := (Exact.beq_iff _ _).2 rfl
    simp only [pivot, hcolumn, hzero, mul_zero, hbeq, if_true]
    rfl
  have hkept : pivot (Numerics.exact ε τ z) (overshooting ε) 1 = ε := by
    have hone : overshooting ε 1 1 = ε := by simp [overshooting, Trapezoid.ofPacked]
    rw [pivot_of_ne_zero (hone ▸ hε.ne'), hone]
  ext i j
  rw [pivoted, overshooting_upper]
  fin_cases i <;> fin_cases j <;> simp [hreplaced, hkept]

/-- The Gauss-Newton step is `(-2, 3)`. -/
theorem overshooting_gaussNewton :
    (gaussNewton (Numerics.exact ε τ z) (overshooting ε) (overshootingRhs ε)).get = ![-2, 3] := by
  refine ((mulVec_eq_iff (pivot_ne_zero hε.ne' _)).1 ?_).symm
  rw [overshooting_pivoted hε, overshootingRhs_get]
  ext i
  fin_cases i <;> simp [mulVec, dotProduct] <;> ring

omit hε in
/-- The scaled gradient is `(0, 4 ε ^ 2)`. -/
theorem overshooting_slope :
    slope (overshooting ε) (Vec.const 2 1) (overshootingRhs ε) = ![0, 4 * ε ^ 2] := by
  rw [slope, overshooting_upper, overshootingRhs_get, const_one_get, div_one]
  ext i
  rw [mulVec, dotProduct, Fin.sum_univ_two]
  fin_cases i
  · change 0 * ε + 0 * (3 * ε) = 0
    ring
  · change ε * ε + ε * (3 * ε) = 4 * ε ^ 2
    ring

/-- The Cauchy step is `(0, 2)`. -/
theorem overshooting_cauchy :
    cauchy (overshooting ε) (Vec.const 2 1) (overshootingRhs ε) = ![0, 2] := by
  have hsteepest : steepest (overshooting ε) (Vec.const 2 1) (overshootingRhs ε) =
      ![0, 4 * ε ^ 2] := by
    rw [steepest, overshooting_slope, const_one_get, div_one]
  rw [cauchy, stretch, hsteepest, overshooting_slope, overshooting_upper]
  ext i
  fin_cases i
  · simp
  · simp [mulVec, dotProduct]
    field_simp
    norm_num

/-- With the radius `3` the dogleg is between the two steps, where the product of the right hand
side with the model exceeds that with itself by `2 ε ^ 2`. -/
theorem overshooting_length : ¬ length ((Vec.const 2 (1 : ℝ)).get *
    (dogleg (Numerics.exact ε τ z) (overshooting ε) (Vec.const 2 1) (overshootingRhs ε) 3).get) ≤
      3 := by
  have hscale : ∀ j, Vec.const 2 (1 : ℝ) j ≠ 0 := by
    intro j
    rw [Vec.const_apply]
    exact one_ne_zero
  refine mt (length_dogleg_le_iff hscale three_pos).1 ?_
  simp only [overshooting_gaussNewton hε, overshooting_slope, ← length_cauchy hscale,
    overshooting_cauchy hε, overshooting_upper, overshootingRhs_get, const_one_get, one_mul]
  rintro (hle | hzero | hle | hle)
  · -- the Gauss-Newton step has the length `√13`
    rw [length, Real.sqrt_le_left (by norm_num)] at hle
    norm_num [dotProduct] at hle
  · have hlast : 4 * ε ^ 2 = 0 := congrFun hzero 1
    exact absurd hlast (by positivity)
  · -- the Cauchy step has the length `2`
    rw [length, Real.le_sqrt' three_pos] at hle
    norm_num [dotProduct] at hle
  · have hsq : 0 < ε * ε := mul_pos hε hε
    simp [mulVec, dotProduct] at hle
    linarith

end Overshooting

end Dogleg

/-- A dogleg with a zero pivot that is longer than the radius: for `R = [0 ε; 0 ε]`, `D = 1`,
`b = (ε, 3 ε)` and the radius `3`. -/
theorem dogleg_leaves_trust_region :
    let ε := (1 : ℝ) / 2 ^ 52
    let s := Trapezoid.ofPacked 2 2 [0, ε, ε]
    let scale := Vec.const 2 (1 : ℝ)
    s 0 0 = 0 ∧ (∀ j, 0 < scale j) ∧ (0 : ℝ) < 3 ∧
      ¬ length (scale.get *
        (dogleg (Numerics.exact ε 1 false) s scale (Vec.of ![ε, 3 * ε]) 3).get) ≤ 3 := by
  intro ε s scale
  have hε : 0 < ε := by norm_num [ε]
  refine ⟨by simp [s, Trapezoid.ofPacked], ?_, three_pos, overshooting_length hε⟩
  intro j
  rw [Vec.const_apply]
  exact one_pos

end NonlinearSolve

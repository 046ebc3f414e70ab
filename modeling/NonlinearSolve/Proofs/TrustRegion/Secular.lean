import Mathlib.Algebra.Order.Star.Real
import Mathlib.Analysis.Real.Sqrt
import Mathlib.LinearAlgebra.Matrix.PosDef
import Mathlib.LinearAlgebra.SesquilinearForm.Basic
import Mathlib.Topology.Instances.Matrix
import Mathlib.Topology.Order.IntermediateValue
import NonlinearSolve.Proofs.Linear.NormalEquations

/-! # The secular equation

Let `M` be positive definite, and let `w` be the solution of `(M + l) w = h` for a damping `l ≥ 0`.
The secular equation asks for the damping at which `w` has a given length. Everything about it comes
from one inequality between the solutions at two dampings (`Point.length_cube_le`), which says that
the reciprocal of the length is concave: the length decreases (`Point.length_lt`), so there is
exactly one root (`exists_root`), and Newton's method for the reciprocal never steps over it
(`Point.newton_le`). -/

namespace NonlinearSolve

open Matrix

variable {n : Nat}

namespace Secular

/-! ### Lengths -/

/-- The Euclidean length of a vector. -/
noncomputable def length (w : Fin n → ℝ) : ℝ := √(w ⬝ᵥ w)

/-- A square is not negative. -/
theorem dot_self_nonneg (w : Fin n → ℝ) : 0 ≤ w ⬝ᵥ w :=
  Finset.sum_nonneg fun i _ => mul_self_nonneg (w i)

/-- A length is not negative. -/
theorem length_nonneg (w : Fin n → ℝ) : 0 ≤ length w := Real.sqrt_nonneg _

/-- The square of a length. -/
theorem length_sq (w : Fin n → ℝ) : length w ^ 2 = w ⬝ᵥ w := Real.sq_sqrt (dot_self_nonneg w)

/-- The square of a vector other than zero is positive. -/
theorem dot_self_pos {w : Fin n → ℝ} (hw : w ≠ 0) : 0 < w ⬝ᵥ w := by
  refine lt_of_le_of_ne (dot_self_nonneg w) ?_
  intro hzero
  exact hw (dotProduct_self_eq_zero.1 hzero.symm)

/-- The length of a vector other than zero is positive. -/
theorem length_pos {w : Fin n → ℝ} (hw : w ≠ 0) : 0 < length w := Real.sqrt_pos.2 (dot_self_pos hw)

/-- Only the zero vector has no length. -/
theorem length_eq_zero {w : Fin n → ℝ} : length w = 0 ↔ w = 0 := by
  constructor
  · intro hzero
    by_contra hw
    exact (length_pos hw).ne' hzero
  · rintro rfl
    rw [length, dotProduct_zero, Real.sqrt_zero]

/-- Lengths of multiples. -/
theorem length_smul (a : ℝ) (w : Fin n → ℝ) : length (a • w) = |a| * length w := by
  rw [length, smul_dotProduct, dotProduct_smul, smul_eq_mul, smul_eq_mul, ← mul_assoc, ← pow_two,
    Real.sqrt_mul (sq_nonneg a), Real.sqrt_sq_eq_abs]
  rfl

/-- The Cauchy-Schwarz inequality. -/
theorem dot_le_length_mul_length (v w : Fin n → ℝ) : v ⬝ᵥ w ≤ length v * length w := by
  have hle := Real.sum_mul_le_sqrt_mul_sqrt Finset.univ v w
  simp only [pow_two] at hle
  exact hle

/-! ### Shifted matrices -/

variable {M : Matrix (Fin n) (Fin n) ℝ} {h : Fin n → ℝ} {k l : ℝ}

/-- A damped matrix applied to a vector. -/
theorem shift_mulVec (M : Matrix (Fin n) (Fin n) ℝ) (l : ℝ) (x : Fin n → ℝ) :
    (M + l • (1 : Matrix (Fin n) (Fin n) ℝ)) *ᵥ x = M *ᵥ x + l • x := by
  rw [add_mulVec, smul_mulVec, one_mulVec]

/-- Damping keeps a matrix positive definite. -/
theorem posDef_shift (hM : M.PosDef) (hl : 0 ≤ l) : (M + l • 1).PosDef :=
  hM.add_posSemidef (PosSemidef.one.smul hl)

/-- A symmetric matrix may be moved to the other factor of a scalar product. -/
theorem mulVec_dot (hM : M.IsHermitian) (x y : Fin n → ℝ) : (M *ᵥ x) ⬝ᵥ y = x ⬝ᵥ (M *ᵥ y) := by
  have htranspose : Mᵀ = M := hM
  rw [dotProduct_mulVec, ← mulVec_transpose, htranspose]

/-- A damped system has at most one solution. -/
theorem mulVec_injective (hM : M.PosDef) (hl : 0 ≤ l) {x y : Fin n → ℝ}
    (heq : (M + l • 1) *ᵥ x = (M + l • 1) *ᵥ y) : x = y :=
  mulVec_injective_of_isUnit (posDef_shift hM hl).isUnit heq

/-- Multiplied out, the form of the product of two shifts is a sum of forms that are symmetric and
not negative. -/
theorem shift_dot_shift (hM : M.PosDef) (k l : ℝ) (x y : Fin n → ℝ) :
    ((M + k • 1) *ᵥ x) ⬝ᵥ ((M + l • 1) *ᵥ y) =
      (M *ᵥ x) ⬝ᵥ (M *ᵥ y) + (k + l) * (x ⬝ᵥ M *ᵥ y) + k * l * (x ⬝ᵥ y) := by
  rw [shift_mulVec, shift_mulVec, add_dotProduct, dotProduct_add, dotProduct_add, dotProduct_smul,
    smul_dotProduct, smul_dotProduct, dotProduct_smul, mulVec_dot hM.isHermitian x y]
  simp only [smul_eq_mul]
  ring

/-- Matrices at two dampings commute, so they may change places in a scalar product. -/
theorem shift_dot_shift_comm (hM : M.PosDef) (k l : ℝ) (x y : Fin n → ℝ) :
    ((M + k • 1) *ᵥ x) ⬝ᵥ ((M + l • 1) *ᵥ y) = ((M + k • 1) *ᵥ y) ⬝ᵥ ((M + l • 1) *ᵥ x) := by
  rw [shift_dot_shift hM, shift_dot_shift hM, dotProduct_comm (M *ᵥ x), dotProduct_comm x (M *ᵥ y),
    mulVec_dot hM.isHermitian y x, dotProduct_comm x y]

/-- Matrices at two dampings define a form that is not negative. -/
theorem shift_dot_shift_nonneg (hM : M.PosDef) (hk : 0 ≤ k) (hl : 0 ≤ l) (x : Fin n → ℝ) :
    0 ≤ ((M + k • 1) *ᵥ x) ⬝ᵥ ((M + l • 1) *ᵥ x) := by
  have hform : 0 ≤ x ⬝ᵥ M *ᵥ x := hM.posSemidef.dotProduct_mulVec_nonneg x
  rw [shift_dot_shift hM]
  exact add_nonneg (add_nonneg (dot_self_nonneg _) (mul_nonneg (add_nonneg hk hl) hform))
    (mul_nonneg (mul_nonneg hk hl) (dot_self_nonneg x))

/-- The Cauchy-Schwarz inequality for the form of the product of two shifts. -/
theorem shift_dot_shift_sq_le (hM : M.PosDef) (hk : 0 ≤ k) (hl : 0 ≤ l) (x y : Fin n → ℝ) :
    (((M + k • 1) *ᵥ x) ⬝ᵥ ((M + l • 1) *ᵥ y)) ^ 2 ≤
      (((M + k • 1) *ᵥ x) ⬝ᵥ ((M + l • 1) *ᵥ x)) * (((M + k • 1) *ᵥ y) ⬝ᵥ ((M + l • 1) *ᵥ y)) := by
  have hform : ∀ x y, toBilin' ((M + k • 1) * (M + l • 1)) x y =
      ((M + k • 1) *ᵥ x) ⬝ᵥ ((M + l • 1) *ᵥ y) := by
    intro x y
    rw [toBilin'_apply', ← mulVec_mulVec, mulVec_dot (posDef_shift hM hk).isHermitian]
  have hsymm : LinearMap.IsSymm (toBilin' ((M + k • 1) * (M + l • 1))) := by
    refine ⟨fun x y => ?_⟩
    rw [RingHom.id_apply, hform, hform]
    exact shift_dot_shift_comm hM k l x y
  have hnonneg : ∀ x, 0 ≤ toBilin' ((M + k • 1) * (M + l • 1)) x x := by
    intro x
    rw [hform]
    exact shift_dot_shift_nonneg hM hk hl x
  have hle := LinearMap.BilinForm.apply_sq_le_of_symm _ hnonneg hsymm x y
  rwa [hform, hform, hform] at hle

/-! ### Solutions at two dampings -/

/-- The solution `w` at the damping `l`, and the rate `v` at which it decreases there. -/
structure Point (M : Matrix (Fin n) (Fin n) ℝ) (h : Fin n → ℝ) (l : ℝ) (w v : Fin n → ℝ) :
    Prop where
  nonneg : 0 ≤ l
  solves : (M + l • 1) *ᵥ w = h
  rate : (M + l • 1) *ᵥ v = w

/-- The solution at the damping `l`. -/
noncomputable def solution (M : Matrix (Fin n) (Fin n) ℝ) (h : Fin n → ℝ) (l : ℝ) : Fin n → ℝ :=
  (M + l • 1)⁻¹ *ᵥ h

/-- At every damping there is a solution and a rate. -/
theorem exists_point (hM : M.PosDef) (h : Fin n → ℝ) (hl : 0 ≤ l) :
    ∃ v, Point M h l (solution M h l) v := by
  have hunit := (posDef_shift hM hl).isUnit
  obtain ⟨v, hv⟩ := mulVec_surjective_iff_isUnit.2 hunit (solution M h l)
  refine ⟨v, hl, ?_, hv⟩
  rw [solution, mulVec_mulVec, mul_nonsing_inv _ ((isUnit_iff_isUnit_det _).1 hunit), one_mulVec]

namespace Point

variable {w v w' v' : Fin n → ℝ}

/-- The solution for a right hand side other than zero is not zero. -/
theorem ne_zero (hp : Point M h l w v) (hh : h ≠ 0) : w ≠ 0 := by
  rintro rfl
  exact hh (hp.solves.symm.trans (mulVec_zero _))

/-- A solution of positive length has a right hand side other than zero. -/
theorem rhs_ne_zero (hM : M.PosDef) (hp : Point M h l w v) (hw : 0 < length w) : h ≠ 0 := by
  rintro rfl
  have hzero : w = 0 := mulVec_injective hM hp.nonneg (hp.solves.trans (mulVec_zero _).symm)
  rw [hzero, length, dotProduct_zero, Real.sqrt_zero] at hw
  exact lt_irrefl 0 hw

/-- The solution becomes shorter with more damping. -/
theorem rate_dot_pos (hM : M.PosDef) (hp : Point M h l w v) (hh : h ≠ 0) : 0 < v ⬝ᵥ w := by
  have hv : v ≠ 0 := by
    rintro rfl
    exact hp.ne_zero hh (hp.rate.symm.trans (mulVec_zero _))
  have hpos : 0 < v ⬝ᵥ (M + l • 1) *ᵥ v := (posDef_shift hM hp.nonneg).dotProduct_mulVec_pos hv
  rwa [hp.rate] at hpos

section Comparison

variable (hM : M.PosDef) (hp : Point M h k w v) (hp' : Point M h l w' v')

include hM hp

omit hM in
/-- The rate at one damping, seen at another one. -/
theorem shift_rate (l : ℝ) : (M + l • 1) *ᵥ v = w + (l - k) • v := by
  have hrate := hp.rate
  rw [shift_mulVec] at hrate
  rw [shift_mulVec, ← hrate]
  module

/-- The tangent of the reciprocal is positive where it is used. -/
theorem tangent_nonneg (hl : 0 ≤ l) : 0 ≤ w ⬝ᵥ w + (l - k) * (v ⬝ᵥ w) := by
  have hnonneg := shift_dot_shift_nonneg hM hp.nonneg hl v
  rwa [hp.rate, hp.shift_rate, dotProduct_add, dotProduct_smul, smul_eq_mul,
    dotProduct_comm w v] at hnonneg

include hp'

/-- The inequality for the squares, from the Cauchy-Schwarz inequality for the rate at `k` and the
difference of the solutions. -/
theorem dot_sq_le : (w ⬝ᵥ w) ^ 2 ≤ (w ⬝ᵥ w + (l - k) * (v ⬝ᵥ w)) * (w ⬝ᵥ w') := by
  have hw : M *ᵥ w = h - k • w := by
    rw [← hp.solves, shift_mulVec, add_sub_cancel_right]
  have hw' : M *ᵥ w' = h - l • w' := by
    rw [← hp'.solves, shift_mulVec, add_sub_cancel_right]
  have hleft : (M + k • 1) *ᵥ (w - w') = (l - k) • w' := by
    rw [shift_mulVec, mulVec_sub, hw, hw']
    module
  have hright : (M + l • 1) *ᵥ (w - w') = (l - k) • w := by
    rw [shift_mulVec, mulVec_sub, hw, hw']
    module
  by_cases heq : l = k
  · -- at the same damping there is only one solution
    subst heq
    obtain rfl : w = w' := mulVec_injective hM hp.nonneg (hp.solves.trans hp'.solves.symm)
    rw [sub_self, zero_mul, add_zero, ← pow_two]
  · have hpos : 0 < (l - k) ^ 2 := sq_pos_of_ne_zero (sub_ne_zero.2 heq)
    have hle := shift_dot_shift_sq_le hM hp.nonneg hp'.nonneg v (w - w')
    rw [hp.rate, hp.shift_rate, hleft, hright] at hle
    simp only [dotProduct_add, dotProduct_smul, smul_dotProduct, smul_eq_mul] at hle
    rw [dotProduct_comm w v, dotProduct_comm w' w] at hle
    refine le_of_mul_le_mul_left ?_ hpos
    calc (l - k) ^ 2 * (w ⬝ᵥ w) ^ 2 = ((l - k) * (w ⬝ᵥ w)) ^ 2 := by ring
      _ ≤ (w ⬝ᵥ w + (l - k) * (v ⬝ᵥ w)) * ((l - k) * ((l - k) * (w ⬝ᵥ w'))) := hle
      _ = (l - k) ^ 2 * ((w ⬝ᵥ w + (l - k) * (v ⬝ᵥ w)) * (w ⬝ᵥ w')) := by ring

variable (hh : h ≠ 0)

include hh

/-- The reciprocal of the length is below its tangent: divided by `‖w‖ ^ 3` and `‖w'‖` this is
`1 / ‖w'‖ ≤ 1 / ‖w‖ + (l - k) (v ⬝ᵥ w) / ‖w‖ ^ 3`. -/
theorem length_cube_le :
    length w ^ 3 ≤ (length w ^ 2 + (l - k) * (v ⬝ᵥ w)) * length w' := by
  have hsq := hp.dot_sq_le hM hp'
  have htangent := hp.tangent_nonneg hM hp'.nonneg
  rw [← length_sq w] at hsq htangent
  refine le_of_mul_le_mul_left ?_ (length_pos (hp.ne_zero hh))
  calc length w * length w ^ 3 = (length w ^ 2) ^ 2 := by ring
    _ ≤ (length w ^ 2 + (l - k) * (v ⬝ᵥ w)) * (w ⬝ᵥ w') := hsq
    _ ≤ (length w ^ 2 + (l - k) * (v ⬝ᵥ w)) * (length w * length w') :=
      mul_le_mul_of_nonneg_left (dot_le_length_mul_length w w') htangent
    _ = length w * ((length w ^ 2 + (l - k) * (v ⬝ᵥ w)) * length w') := by ring

/-- More damping makes the solution shorter. -/
theorem length_lt (hlt : k < l) : length w' < length w := by
  have hpos' := length_pos (hp'.ne_zero hh)
  have hle := hp'.length_cube_le hM hp hh
  have hrate := mul_pos (sub_pos.2 hlt) (hp'.rate_dot_pos hM hh)
  have hpos := length_pos (hp.ne_zero hh)
  have hstrict : length w' ^ 2 * length w' < length w' ^ 2 * length w := by
    calc length w' ^ 2 * length w' = length w' ^ 3 := by ring
      _ ≤ (length w' ^ 2 + (k - l) * (v' ⬝ᵥ w')) * length w := hle
      _ = length w' ^ 2 * length w - (l - k) * (v' ⬝ᵥ w') * length w := by ring
      _ < length w' ^ 2 * length w := sub_lt_self _ (mul_pos hrate hpos)
  exact lt_of_mul_lt_mul_left hstrict (sq_nonneg _)

/-- The lengths of solutions are ordered as the dampings are, the other way round. -/
theorem length_le_iff : length w' ≤ length w ↔ k ≤ l := by
  constructor
  · intro hle
    by_contra hlt
    exact absurd (hp'.length_lt hM hp hh (not_le.1 hlt)) hle.not_gt
  · intro hle
    obtain hlt | rfl := hle.lt_or_eq
    · exact (hp.length_lt hM hp' hh hlt).le
    · obtain rfl : w = w' := mulVec_injective hM hp.nonneg (hp.solves.trans hp'.solves.symm)
      exact le_rfl

/-- A Newton step for the reciprocal of the length, from anywhere, does not pass the damping at
which the solution has the wanted length. -/
theorem newton_le :
    k + (length w - length w') / length w' * (length w ^ 2 / (v ⬝ᵥ w)) ≤ l := by
  have hpos := length_pos (hp'.ne_zero hh)
  have hrate := hp.rate_dot_pos hM hh
  have hle := hp.length_cube_le hM hp' hh
  have hstep : (length w - length w') / length w' * (length w ^ 2 / (v ⬝ᵥ w)) ≤ l - k := by
    rw [div_mul_div_comm, div_le_iff₀ (mul_pos hpos hrate)]
    calc (length w - length w') * length w ^ 2 = length w ^ 3 - length w ^ 2 * length w' := by ring
      _ ≤ (l - k) * (v ⬝ᵥ w) * length w' := by linarith
      _ = (l - k) * (length w' * (v ⬝ᵥ w)) := by ring
  linarith

end Comparison

/-- The damping is at most the length of the right hand side over that of the solution. -/
theorem mul_length_le (hM : M.PosDef) (hp : Point M h l w v) : l * length w ≤ length h := by
  by_cases hw : length w = 0
  · rw [hw, mul_zero]
    exact length_nonneg h
  · have hpos : 0 < length w := lt_of_le_of_ne (length_nonneg w) (Ne.symm hw)
    have hform : 0 ≤ w ⬝ᵥ M *ᵥ w := hM.posSemidef.dotProduct_mulVec_nonneg w
    have hdot : w ⬝ᵥ h = w ⬝ᵥ M *ᵥ w + l * length w ^ 2 := by
      rw [← hp.solves, shift_mulVec, dotProduct_add, dotProduct_smul, smul_eq_mul, length_sq]
    refine le_of_mul_le_mul_left ?_ hpos
    calc length w * (l * length w) = l * length w ^ 2 := by ring
      _ ≤ w ⬝ᵥ h := by linarith
      _ ≤ length w * length h := dot_le_length_mul_length w h

end Point

/-! ### The root -/

/-- The length of the solution depends continuously on the damping. -/
theorem continuousOn_length (hM : M.PosDef) (h : Fin n → ℝ) :
    ContinuousOn (fun l => length (solution M h l)) (Set.Ici 0) := by
  intro l hl
  have hdet : (M + l • 1).det ≠ 0 :=
    ((isUnit_iff_isUnit_det _).1 (posDef_shift hM hl).isUnit).ne_zero
  have hshift : Continuous fun l : ℝ => M + l • (1 : Matrix (Fin n) (Fin n) ℝ) := by fun_prop
  have hinv : ContinuousAt (fun l : ℝ => (M + l • (1 : Matrix (Fin n) (Fin n) ℝ))⁻¹) l := by
    refine ContinuousAt.comp (f := fun l : ℝ => M + l • 1) (continuousAt_matrix_inv _ ?_)
      hshift.continuousAt
    rw [Ring.inverse_eq_inv']
    exact continuousAt_inv₀ hdet
  have hlength : Continuous fun a : Matrix (Fin n) (Fin n) ℝ => length (a *ᵥ h) := by
    unfold length
    fun_prop
  exact (hlength.continuousAt.comp hinv).continuousWithinAt

/-- If the undamped solution is longer than wanted, then at some damping the solution has the wanted
length. -/
theorem exists_root (hM : M.PosDef) {w v : Fin n → ℝ} (hp : Point M h 0 w v) {Δ : ℝ} (hΔ : 0 < Δ)
    (hlong : Δ < length w) : ∃ l, 0 < l ∧ ∃ w' v', Point M h l w' v' ∧ length w' = Δ := by
  have hupper : 0 ≤ length h / Δ := div_nonneg (length_nonneg h) hΔ.le
  have hstart : solution M h 0 = w := by
    obtain ⟨v₀, hp₀⟩ := exists_point hM h le_rfl
    exact mulVec_injective hM le_rfl (hp₀.solves.trans hp.solves.symm)
  -- at the upper end of the bracket the solution is short enough
  have hshort : length (solution M h (length h / Δ)) ≤ Δ := by
    obtain ⟨v', hp'⟩ := exists_point hM h hupper
    have hle := hp'.mul_length_le hM
    rw [div_mul_eq_mul_div, div_le_iff₀ hΔ] at hle
    exact le_of_mul_le_mul_left hle (length_pos (hp.rhs_ne_zero hM (hΔ.trans hlong)))
  have hcont : ContinuousOn (fun l => length (solution M h l)) (Set.Icc 0 (length h / Δ)) :=
    (continuousOn_length hM h).mono Set.Icc_subset_Ici_self
  obtain ⟨l, ⟨hl, -⟩, hlength⟩ := intermediate_value_Icc' hupper hcont
    ⟨hshort, hstart.symm ▸ hlong.le⟩
  have hlength : length (solution M h l) = Δ := hlength
  obtain ⟨v', hp'⟩ := exists_point hM h hl
  refine ⟨l, lt_of_le_of_ne hl ?_, solution M h l, v', hp', hlength⟩
  rintro rfl
  rw [hstart] at hlength
  exact hlong.ne' hlength

end Secular

/-! ### Normal equations -/

/-- Normal equations with a regular factor have a positive definite matrix. -/
theorem NormalEquations.Factored.posDef {eqs : NormalEquations n} {r : Matrix (Fin n) (Fin n) ℝ}
    {order : Vec (Fin n) n} {b : Fin n → ℝ} (h : eqs.Factored r order b) (hdiag : ∀ j, r j j ≠ 0) :
    eqs.matrix.PosDef := by
  have hunit : IsUnit r :=
    (isUnit_iff_isUnit_det r).2 (det_ne_zero_of_triangular h.triangular hdiag).isUnit
  have hgram := PosDef.conjTranspose_mul_self r (mulVec_injective_of_isUnit hunit)
  rw [conjTranspose_eq_transpose_of_trivial, h.gram] at hgram
  -- the order of the unknowns does not matter
  have hsub := hgram.submatrix (Equiv.ofBijective order.get h.bijective).symm.injective
  rw [submatrix_submatrix] at hsub
  have hid : order.get ∘ (Equiv.ofBijective order.get h.bijective).symm = id :=
    (Equiv.ofBijective order.get h.bijective).self_comp_symm
  rwa [hid, submatrix_id_id] at hsub

end NonlinearSolve

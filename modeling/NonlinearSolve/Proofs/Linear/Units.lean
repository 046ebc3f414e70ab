import Mathlib.Algebra.BigOperators.Field
import Mathlib.Tactic.FieldSimp
import NonlinearSolve.Proofs.Linear.NormalEquations

/-! # Units of the unknowns

Let the unknowns be measured in other units, so that the value of the unknown `i` becomes `t i`
times as large. Then column `i` of a Jacobian has to be divided by `t i` (`Mat.perUnit`), and the
normal equations change with it (`NormalEquations.inUnits`). Their solutions are the old ones in the
new units (`Solves.inUnits`), and a factor of the old equations becomes one of the new equations if
its columns are divided as well (`Factored.inUnits`). So lengths that are determined by the normal
equations do not depend on the units. -/

namespace NonlinearSolve

open Matrix

variable {m n : Nat}

/-! ### Vectors and matrices -/

/-- The entries of `v` for units that are smaller by the factors `t i`. -/
noncomputable def Vec.perUnit (v t : Vec ℝ n) : Vec ℝ n := Vec.of fun i => v i / t i

/-- The matrix whose columns are divided by the factors `t j`. -/
noncomputable def Mat.perUnit (a : Mat ℝ m n) (t : Vec ℝ n) : Mat ℝ m n :=
  Mat.of fun i j => a i j / t j

section Vectors

variable (v w t : Vec ℝ n)

/-- An entry in other units. -/
@[simp] theorem Vec.perUnit_apply (i : Fin n) : v.perUnit t i = v i / t i := Vec.of_apply _ _

/-- An entry of a matrix whose columns are in other units. -/
@[simp] theorem Mat.perUnit_apply (a : Mat ℝ m n) (i : Fin m) (j : Fin n) :
    a.perUnit t i j = a i j / t j := Mat.of_apply _ _ _

/-- Units of one change nothing. -/
@[simp] theorem Vec.perUnit_one : v.perUnit (Vec.const n 1) = v := by
  ext i
  rw [Vec.perUnit_apply, Vec.const_apply, div_one]

/-- Scaling by one changes nothing. -/
@[simp] theorem Vec.one_diagMul : (Vec.const n (1 : ℝ)).diagMul v = v := by
  ext i
  rw [Vec.diagMul_apply, Vec.const_apply, one_mul]

/-- Scaling commutes with a change of sign. -/
theorem Vec.diagMul_neg : (t.diagMul v).map (fun x => -x) = t.diagMul (v.map fun x => -x) := by
  ext i
  simp only [Vec.map_apply, Vec.diagMul_apply, mul_neg]

variable {t} (ht : ∀ i, t i ≠ 0)

include ht

/-- Changing the units back undoes the change. -/
theorem Vec.perUnit_diagMul : (t.diagMul v).perUnit t = v := by
  ext i
  rw [Vec.perUnit_apply, Vec.diagMul_apply, mul_div_cancel_left₀ _ (ht i)]

/-- What is scaled does not depend on the units. -/
theorem Vec.perUnit_diagMul_diagMul : (v.perUnit t).diagMul (t.diagMul w) = v.diagMul w := by
  ext i
  rw [Vec.diagMul_apply, Vec.perUnit_apply, Vec.diagMul_apply, Vec.diagMul_apply, ← mul_assoc,
    div_mul_cancel₀ _ (ht i)]

end Vectors

namespace NormalEquations

/-- The normal equations if the value of the unknown `i` is `t i` times as large. -/
noncomputable def inUnits (eqs : NormalEquations n) (t : Fin n → ℝ) : NormalEquations n :=
  ⟨Matrix.of fun i j => eqs.matrix i j / (t i * t j), fun i => eqs.rhs i / t i⟩

variable {eqs : NormalEquations n} {t : Fin n → ℝ}

/-- In units of one the equations are the same. -/
theorem inUnits_one (eqs : NormalEquations n) : eqs.inUnits (fun _ => 1) = eqs := by
  simp only [inUnits, mul_one, div_one]
  rfl

/-- The normal equations for a Jacobian with divided columns. -/
theorem ofProblem_perUnit (a : Mat ℝ m n) (t : Vec ℝ n) (f : Fin m → ℝ) :
    ofProblem (a.perUnit t).toMatrix f = (ofProblem a.toMatrix f).inUnits t.get := by
  rw [ofProblem, ofProblem, inUnits]
  congr 1
  · ext i j
    change ∑ k, (a.perUnit t).toMatrix k i * (a.perUnit t).toMatrix k j =
      (∑ k, a.toMatrix k i * a.toMatrix k j) / (t i * t j)
    rw [Finset.sum_div]
    refine Finset.sum_congr rfl ?_
    intro k _
    simp only [Mat.toMatrix_apply, Mat.perUnit_apply]
    exact div_mul_div_comm _ _ _ _
  · funext i
    change ∑ k, (a.perUnit t).toMatrix k i * f k = (∑ k, a.toMatrix k i * f k) / t i
    rw [Finset.sum_div]
    refine Finset.sum_congr rfl ?_
    intro k _
    rw [Mat.toMatrix_apply, Mat.toMatrix_apply, Mat.perUnit_apply]
    exact div_mul_eq_mul_div _ _ _

/-- Damping the equations in other units. -/
theorem damped_inUnits (eqs : NormalEquations n) (d t : Fin n → ℝ) :
    (eqs.damped d).inUnits t = (eqs.inUnits t).damped fun i => d i / t i := by
  rw [inUnits, damped, damped]
  congr 1
  ext i j
  simp only [inUnits, Matrix.of_apply, Matrix.add_apply, add_div]
  congr 1
  by_cases hij : i = j
  · subst hij
    rw [diagonal_apply_eq, diagonal_apply_eq, div_pow, ← pow_two]
  · rw [diagonal_apply_ne _ hij, diagonal_apply_ne _ hij, zero_div]

section Units

variable (ht : ∀ i, t i ≠ 0)

include ht

/-- The equations in other units, at a vector in those units. -/
theorem inUnits_mulVec (x : Fin n → ℝ) :
    ((eqs.inUnits t).matrix *ᵥ fun i => t i * x i) = fun i => (eqs.matrix *ᵥ x) i / t i := by
  funext i
  change ∑ j, eqs.matrix i j / (t i * t j) * (t j * x j) = (∑ j, eqs.matrix i j * x j) / t i
  rw [Finset.sum_div]
  refine Finset.sum_congr rfl ?_
  intro j _
  have hj := ht j
  field_simp

/-- A solution in other units. -/
theorem mulVec_inUnits_eq {x : Fin n → ℝ} (hx : eqs.matrix *ᵥ x = eqs.rhs) :
    ((eqs.inUnits t).matrix *ᵥ fun i => t i * x i) = (eqs.inUnits t).rhs := by
  rw [inUnits_mulVec ht, hx]
  rfl

/-- A basic solution in other units. -/
theorem Solves.inUnits {s : Set (Fin n)} {x : Fin n → ℝ} (hx : eqs.Solves s x) :
    (eqs.inUnits t).Solves s fun i => t i * x i where
  outside i hi := by rw [hx.outside i hi, mul_zero]
  inside i hi := by
    rw [inUnits_mulVec ht]
    exact congrArg (· / t i) (hx.inside i hi)

end Units

namespace Factored

variable {r r' : Matrix (Fin n) (Fin n) ℝ} {order order' : Vec (Fin n) n} {b b' : Fin n → ℝ}

/-- A factor for other units has the columns divided. -/
theorem inUnits (h : eqs.Factored r order b) (t : Fin n → ℝ) :
    (eqs.inUnits t).Factored (r * diagonal fun j => (t (order j))⁻¹) order b where
  bijective := h.bijective
  triangular := by
    intro i j hij
    rw [mul_diagonal, h.triangular hij, zero_mul]
  gram := by
    rw [transpose_mul, diagonal_transpose, Matrix.mul_assoc, ← Matrix.mul_assoc rᵀ, h.gram]
    ext i j
    rw [diagonal_mul, mul_diagonal, submatrix_apply, submatrix_apply]
    change _ = eqs.matrix (order i) (order j) / (t (order i) * t (order j))
    rw [div_eq_mul_inv, mul_inv, mul_comm (t (order i))⁻¹, mul_assoc, mul_comm (t (order j))⁻¹]
  gradient := by
    rw [transpose_mul, diagonal_transpose, ← mulVec_mulVec, h.gradient]
    funext j
    rw [mulVec_diagonal]
    exact inv_mul_eq_div _ _

variable (h : eqs.Factored r order b) (h' : (eqs.inUnits t).Factored r' order' b')
  (ht : ∀ i, t i ≠ 0)

include h h' ht

/-- Factors are regular or not whatever the units are. -/
theorem diag_ne_zero_inUnits : (∀ j, r j j ≠ 0) ↔ ∀ j, r' j j ≠ 0 := by
  have hdiag : ∀ j, (r * diagonal fun j => (t (order j))⁻¹) j j = r j j * (t (order j))⁻¹ :=
    fun j => mul_diagonal _ _ _ _
  constructor
  · intro hne
    refine (h.inUnits t).diag_ne_zero h' ?_
    intro j
    rw [hdiag]
    exact mul_ne_zero (hne j) (inv_ne_zero (ht _))
  · intro hne j
    have hj := h'.diag_ne_zero (h.inUnits t) hne j
    rw [hdiag] at hj
    exact left_ne_zero_of_mul hj

/-- Scalar products of changes do not depend on the units. -/
theorem mulVec_dot_mulVec_inUnits (x y : Fin n → ℝ) :
    (r' *ᵥ ((fun i => t i * x i) ∘ order'.get)) ⬝ᵥ (r' *ᵥ ((fun i => t i * y i) ∘ order'.get)) =
      (r *ᵥ (x ∘ order.get)) ⬝ᵥ (r *ᵥ (y ∘ order.get)) := by
  rw [h'.mulVec_dot_mulVec, h.mulVec_dot_mulVec, inUnits_mulVec ht]
  refine Finset.sum_congr rfl ?_
  intro i _
  have hi := ht i
  field_simp

/-- The length of the solution of a transposed system does not depend on the units. -/
theorem dot_eq_dot_of_transpose_inUnits (hdiag : ∀ j, r j j ≠ 0) {u z z' : Fin n → ℝ}
    (hz : rᵀ *ᵥ z = u ∘ order.get) (hz' : r'ᵀ *ᵥ z' = (fun i => u i / t i) ∘ order'.get) :
    z ⬝ᵥ z = z' ⬝ᵥ z' := by
  have hfactor := h.inUnits t
  have hne := (h.diag_ne_zero_inUnits hfactor ht).1 hdiag
  -- with the divided columns the same vector solves the system for the divided right hand side
  have hdivided : (r * diagonal fun j => (t (order j))⁻¹)ᵀ *ᵥ z =
      (fun i => u i / t i) ∘ order.get := by
    rw [transpose_mul, diagonal_transpose, ← mulVec_mulVec, hz]
    funext j
    rw [mulVec_diagonal]
    exact inv_mul_eq_div _ _
  exact hfactor.dot_eq_dot_of_transpose h' hne hdivided hz'

end Factored

end NormalEquations

end NonlinearSolve

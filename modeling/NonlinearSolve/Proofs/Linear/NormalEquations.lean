import Mathlib.LinearAlgebra.Matrix.Block
import Mathlib.LinearAlgebra.Matrix.DotProduct
import Mathlib.LinearAlgebra.Matrix.ToLinearEquiv
import NonlinearSolve.Proofs.Exact.Matrices

/-! # Factored normal equations

A least squares problem can be factored in many ways: the triangular factors differ in signs and in
the ordering of the columns. All of them belong to the same normal equations
(`NormalEquations.Factored`; those of a given factor are `NormalEquations.ofFactor`), and what is
computed with a factor is determined by these: a basic solution (`Factored.solves_unique`), the
length of a predicted change (`Factored.mulVec_dot_mulVec`) and the length of the solution of a
transposed system (`Factored.dot_eq_of_transpose`). -/

namespace NonlinearSolve

open Matrix

variable {m n : Nat}

/-- Normal equations in `n` unknowns. -/
structure NormalEquations (n : Nat) where
  /-- The matrix. -/
  matrix : Matrix (Fin n) (Fin n) ℝ
  /-- The right hand side. -/
  rhs : Fin n → ℝ

/-- The unknowns at the first `k` positions of an ordering. -/
def basis (order : Vec (Fin n) n) (k : Nat) : Set (Fin n) := { i | ∃ j, j.val < k ∧ order j = i }

/-- All positions together have all unknowns. -/
theorem basis_univ {order : Vec (Fin n) n} (h : Function.Bijective order.get) :
    basis order n = Set.univ := by
  refine Set.eq_univ_of_forall ?_
  intro i
  obtain ⟨j, hj⟩ := h.surjective i
  exact ⟨j, j.isLt, hj⟩

/-! ### Permutation matrices -/

namespace Vec

/-- The permutation matrix of an ordering: column `j` of a product with it is column `p j` of the
other factor. -/
def permutation (p : Vec (Fin n) n) : Matrix (Fin n) (Fin n) ℝ :=
  (1 : Matrix (Fin n) (Fin n) ℝ).submatrix id p.get

variable (p : Vec (Fin n) n)

/-- A permutation matrix on the right reorders columns. -/
theorem mul_permutation (a : Matrix (Fin m) (Fin n) ℝ) :
    a * p.permutation = a.submatrix id p.get :=
  mul_submatrix_one (Equiv.refl _) p.get a

/-- The transpose of a permutation matrix on the left reorders rows. -/
theorem permutation_transpose_mul (a : Matrix (Fin n) (Fin m) ℝ) :
    p.permutationᵀ * a = a.submatrix p.get id := by
  rw [← transpose_inj, transpose_mul, transpose_transpose, mul_permutation, transpose_submatrix]

/-- The transpose of a permutation matrix reorders the entries of a vector. -/
theorem permutation_transpose_mulVec (v : Fin n → ℝ) : p.permutationᵀ *ᵥ v = v ∘ p.get := by
  funext j
  change ∑ i, (1 : Matrix (Fin n) (Fin n) ℝ) i (p j) * v i = v (p j)
  simp only [Matrix.one_apply, ite_mul, one_mul, zero_mul, Finset.sum_ite_eq', Finset.mem_univ,
    if_true]

variable {p}

/-- The permutation matrix is orthogonal. -/
theorem permutation_transpose_mul_self (hp : Function.Bijective p.get) :
    p.permutationᵀ * p.permutation = 1 := by
  rw [mul_permutation, permutation, transpose_submatrix, transpose_one, submatrix_submatrix]
  exact submatrix_one p.get hp.injective

end Vec

namespace NormalEquations

/-- The normal equations of the problem to minimize the length of `a x - f`. -/
def ofProblem (a : Matrix (Fin m) (Fin n) ℝ) (f : Fin m → ℝ) : NormalEquations n :=
  ⟨aᵀ * a, aᵀ *ᵥ f⟩

/-- The normal equations with the squares of the `d i` added on the diagonal. -/
def damped (eqs : NormalEquations n) (d : Fin n → ℝ) : NormalEquations n :=
  ⟨eqs.matrix + diagonal fun i => d i ^ 2, eqs.rhs⟩

/-- A basic solution: the unknowns outside of `s` are zero, and the equations in `s` hold. -/
structure Solves (eqs : NormalEquations n) (s : Set (Fin n)) (x : Fin n → ℝ) : Prop where
  outside (i : Fin n) : i ∉ s → x i = 0
  inside (i : Fin n) : i ∈ s → (eqs.matrix *ᵥ x) i = eqs.rhs i

/-- If all unknowns are in the basis, a basic solution is a solution. -/
theorem solves_basis_iff {eqs : NormalEquations n} {order : Vec (Fin n) n}
    (horder : Function.Bijective order.get) {x : Fin n → ℝ} :
    eqs.Solves (basis order n) x ↔ eqs.matrix *ᵥ x = eqs.rhs := by
  rw [basis_univ horder]
  constructor
  · intro hx
    exact funext fun i => hx.inside i (Set.mem_univ i)
  · intro hx
    exact ⟨fun i hi => absurd (Set.mem_univ i) hi, fun i _ => congrFun hx i⟩

/-- Normal equations are factored by a triangular matrix and a right hand side that belong to them
after a reordering. -/
structure Factored (eqs : NormalEquations n) (r : Matrix (Fin n) (Fin n) ℝ) (order : Vec (Fin n) n)
    (b : Fin n → ℝ) : Prop where
  bijective : Function.Bijective order.get
  triangular : r.IsUpperTriangular
  gram : rᵀ * r = eqs.matrix.submatrix order.get order.get
  gradient : rᵀ *ᵥ b = eqs.rhs ∘ order.get

/-! ### The equations of a factor -/

/-- The normal equations that a factor, a right hand side and an order of the unknowns belong to. -/
def ofFactor (r : Matrix (Fin n) (Fin n) ℝ) (order : Vec (Fin n) n) (b : Fin n → ℝ) :
    NormalEquations n :=
  ⟨order.permutation * (rᵀ * r) * order.permutationᵀ, order.permutation *ᵥ (rᵀ *ᵥ b)⟩

/-- The normal equations of a factor are factored by it. -/
theorem factored_ofFactor {r : Matrix (Fin n) (Fin n) ℝ} (hr : r.IsUpperTriangular)
    {order : Vec (Fin n) n} (horder : Function.Bijective order.get) (b : Fin n → ℝ) :
    (ofFactor r order b).Factored r order b where
  bijective := horder
  triangular := hr
  gram := by
    have horth := Vec.permutation_transpose_mul_self horder
    have hsub : (ofFactor r order b).matrix.submatrix order.get order.get =
        order.permutationᵀ * (ofFactor r order b).matrix * order.permutation := by
      rw [Vec.mul_permutation, Vec.permutation_transpose_mul, submatrix_submatrix]
      rfl
    -- on both sides the permutation meets its transpose
    rw [hsub, ofFactor, Matrix.mul_assoc, Matrix.mul_assoc, horth, Matrix.mul_one,
      ← Matrix.mul_assoc, horth, Matrix.one_mul]
  gradient := by
    rw [← Vec.permutation_transpose_mulVec, ofFactor, mulVec_mulVec,
      Vec.permutation_transpose_mul_self horder, one_mulVec]

/-! ### Triangular matrices -/

/-- The upper triangle of a matrix is upper triangular. -/
theorem isUpperTriangular_upper (a : Mat ℝ n n) : a.upper.IsUpperTriangular :=
  fun _ _ hij => a.upper_of_lt hij

/-- A vector that a triangular matrix takes to zero is zero, if it is so from position `k` on and no
diagonal entry before is zero. -/
theorem eq_zero_of_triangular {r : Matrix (Fin n) (Fin n) ℝ} (hr : r.IsUpperTriangular) {k : Nat}
    (hdiag : ∀ j : Fin n, j.val < k → r j j ≠ 0) {y : Fin n → ℝ}
    (hy : ∀ j : Fin n, k ≤ j.val → y j = 0) (hzero : r *ᵥ y = 0) : y = 0 := by
  funext j
  -- by induction from the last position to the first
  induction j using WellFoundedGT.induction with
  | ind j ih =>
    rcases Nat.lt_or_ge j.val k with hjk | hjk
    · -- the row of `j` has no entries before the diagonal, and the components after it are zero
      have hrow : (r *ᵥ y) j = r j j * y j := by
        refine Finset.sum_eq_single j ?_ fun hj => absurd (Finset.mem_univ j) hj
        intro l _ hl
        rcases lt_or_gt_of_ne hl with hlt | hgt
        · exact mul_eq_zero_of_left (hr hlt) _
        · exact mul_eq_zero_of_right _ (ih l hgt)
      rw [hzero] at hrow
      exact (mul_eq_zero.1 hrow.symm).resolve_left (hdiag j hjk)
    · exact hy j hjk

/-- A triangular matrix without zero pivots is regular. -/
theorem det_ne_zero_of_triangular {r : Matrix (Fin n) (Fin n) ℝ} (hr : r.IsUpperTriangular)
    (hdiag : ∀ j, r j j ≠ 0) : r.det ≠ 0 := by
  rw [det_of_isUpperTriangular hr]
  exact Finset.prod_ne_zero_iff.2 fun j _ => hdiag j

namespace Factored

variable {eqs : NormalEquations n} {r r' : Matrix (Fin n) (Fin n) ℝ} {order order' : Vec (Fin n) n}
  {b b' : Fin n → ℝ}

/-! ### What the factor does -/

/-- The factor and its transpose apply the matrix of the equations, up to the order of the unknowns.
-/
theorem transpose_mulVec (h : eqs.Factored r order b) (x : Fin n → ℝ) :
    rᵀ *ᵥ (r *ᵥ (x ∘ order.get)) = (eqs.matrix *ᵥ x) ∘ order.get := by
  have hsub := submatrix_mulVec_equiv eqs.matrix (x ∘ order.get) order.get
    (Equiv.ofBijective order.get h.bijective)
  have hx : (x ∘ order.get) ∘ (Equiv.ofBijective order.get h.bijective).symm = x := by
    funext i
    exact congrArg x ((Equiv.ofBijective order.get h.bijective).apply_symm_apply i)
  rw [mulVec_mulVec, h.gram]
  rw [hx] at hsub
  exact hsub

/-- Scalar products do not depend on the order of the unknowns. -/
theorem dotProduct_comp (h : eqs.Factored r order b) (x y : Fin n → ℝ) :
    (x ∘ order.get) ⬝ᵥ (y ∘ order.get) = x ⬝ᵥ y :=
  comp_equiv_dotProduct_comp_equiv x y (Equiv.ofBijective order.get h.bijective)

/-- Scalar products of changes are determined by the normal equations. -/
theorem mulVec_dot_mulVec (h : eqs.Factored r order b) (x y : Fin n → ℝ) :
    (r *ᵥ (x ∘ order.get)) ⬝ᵥ (r *ᵥ (y ∘ order.get)) = x ⬝ᵥ eqs.matrix *ᵥ y := by
  rw [← h.dotProduct_comp x, ← h.transpose_mulVec y, dotProduct_mulVec _ rᵀ, vecMul_transpose]

/-- The determinant of the normal equations is the square of that of the factor. -/
theorem det_eq (h : eqs.Factored r order b) : eqs.matrix.det = (∏ j, r j j) ^ 2 := by
  have hdet := congrArg Matrix.det h.gram
  have hsub := det_submatrix_equiv_self (Equiv.ofBijective order.get h.bijective) eqs.matrix
  rw [det_mul, det_transpose, det_of_isUpperTriangular h.triangular, ← pow_two] at hdet
  rw [hdet]
  exact hsub.symm

/-- If one factor has a zero on the diagonal, then all of them have. -/
theorem diag_ne_zero (h : eqs.Factored r order b) (h' : eqs.Factored r' order' b')
    (hdiag : ∀ j, r j j ≠ 0) (j : Fin n) : r' j j ≠ 0 := by
  have hne : eqs.matrix.det ≠ 0 := by
    rw [h.det_eq]
    exact pow_ne_zero 2 (Finset.prod_ne_zero_iff.2 fun j _ => hdiag j)
  rw [h'.det_eq] at hne
  exact Finset.prod_ne_zero_iff.1 ((pow_ne_zero_iff two_ne_zero).1 hne) j (Finset.mem_univ j)

/-! ### Basic solutions -/

/-- There is one basic solution only, if no diagonal entry that belongs to the basis is zero. -/
theorem solves_unique (h : eqs.Factored r order b) {k : Nat}
    (hdiag : ∀ j : Fin n, j.val < k → r j j ≠ 0) {x y : Fin n → ℝ}
    (hx : eqs.Solves (basis order k) x) (hy : eqs.Solves (basis order k) y) : x = y := by
  -- the difference is taken to zero by the factor, since the equations hold where it is not zero
  have hself : (r *ᵥ ((x - y) ∘ order.get)) ⬝ᵥ (r *ᵥ ((x - y) ∘ order.get)) = 0 := by
    rw [h.mulVec_dot_mulVec]
    refine Finset.sum_eq_zero ?_
    intro i _
    by_cases hi : i ∈ basis order k
    · rw [mulVec_sub, Pi.sub_apply (eqs.matrix *ᵥ x), hx.inside i hi, hy.inside i hi, sub_self,
        mul_zero]
    · rw [Pi.sub_apply, hx.outside i hi, hy.outside i hi, sub_self, zero_mul]
  -- so it is zero, as the leading part of the factor is regular
  have hpositions : (x - y) ∘ order.get = 0 := by
    refine eq_zero_of_triangular h.triangular hdiag ?_ (dotProduct_self_eq_zero.1 hself)
    intro j hj
    have hout : order j ∉ basis order k := by
      rintro ⟨l, hl, hlj⟩
      have heq : l = j := h.bijective.injective hlj
      rw [heq] at hl
      exact absurd hl (Nat.not_lt.2 hj)
    change x (order j) - y (order j) = 0
    rw [hx.outside _ hout, hy.outside _ hout, sub_self]
  funext i
  obtain ⟨j, rfl⟩ := h.bijective.surjective i
  exact sub_eq_zero.1 (congrFun hpositions j)

/-- Regular normal equations have one solution only. -/
theorem eq_of_mulVec_eq (h : eqs.Factored r order b) (hdiag : ∀ j, r j j ≠ 0) {x y : Fin n → ℝ}
    (hx : eqs.matrix *ᵥ x = eqs.rhs) (hy : eqs.matrix *ᵥ y = eqs.rhs) : x = y :=
  h.solves_unique (fun j _ => hdiag j) ((solves_basis_iff h.bijective).2 hx)
    ((solves_basis_iff h.bijective).2 hy)

/-- The reordered solution of the leading triangular system is a basic solution. -/
theorem solves_of_leading (h : eqs.Factored r order b) {k : Nat} {x : Fin n → ℝ}
    (hout : ∀ j : Fin n, k ≤ j.val → x (order j) = 0)
    (hin : ∀ j : Fin n, j.val < k → (r *ᵥ (x ∘ order.get)) j = b j) :
    eqs.Solves (basis order k) x where
  outside i hi := by
    obtain ⟨j, rfl⟩ := h.bijective.surjective i
    exact hout j (Nat.not_lt.1 fun hj => hi ⟨j, hj, rfl⟩)
  inside i hi := by
    obtain ⟨j, hj, rfl⟩ := hi
    have hleft := congrFun (h.transpose_mulVec x) j
    have hright := congrFun h.gradient j
    rw [Function.comp_apply] at hleft hright
    change (eqs.matrix *ᵥ x) (order.get j) = eqs.rhs (order.get j)
    rw [← hleft, ← hright]
    change ∑ i, rᵀ j i * (r *ᵥ (x ∘ order.get)) i = ∑ i, rᵀ j i * b i
    refine Finset.sum_congr rfl ?_
    intro i _
    -- below the diagonal the factor has zeros, so later rows do not matter
    rcases lt_or_ge j i with hji | hij
    · have hzero : rᵀ j i = 0 := h.triangular hji
      rw [hzero, zero_mul, zero_mul]
    · rw [hin i (lt_of_le_of_lt hij hj)]

/-! ### Transposed systems -/

/-- Without zero pivots the equations can be solved for every right hand side. -/
theorem exists_mulVec (h : eqs.Factored r order b) (hdiag : ∀ j, r j j ≠ 0) (u : Fin n → ℝ) :
    ∃ v, eqs.matrix *ᵥ v = u := by
  have hdet : IsUnit eqs.matrix.det := by
    rw [h.det_eq]
    exact (pow_ne_zero 2 (Finset.prod_ne_zero_iff.2 fun j _ => hdiag j)).isUnit
  exact ⟨eqs.matrix⁻¹ *ᵥ u, by rw [mulVec_mulVec, mul_nonsing_inv _ hdet, one_mulVec]⟩

/-- The length of the solution of a transposed system is determined by the normal equations. -/
theorem dot_eq_of_transpose (h : eqs.Factored r order b) (hdiag : ∀ j, r j j ≠ 0)
    {u v z : Fin n → ℝ} (hz : rᵀ *ᵥ z = u ∘ order.get) (hv : eqs.matrix *ᵥ v = u) :
    z ⬝ᵥ z = v ⬝ᵥ u := by
  have hdet : rᵀ.det ≠ 0 := by
    rw [det_transpose]
    exact det_ne_zero_of_triangular h.triangular hdiag
  have hsub : rᵀ *ᵥ (r *ᵥ (v ∘ order.get) - z) = 0 := by
    rw [mulVec_sub, h.transpose_mulVec, hv, hz, sub_self]
  have heq : r *ᵥ (v ∘ order.get) = z := sub_eq_zero.1 (eq_zero_of_mulVec_eq_zero hdet hsub)
  rw [← heq, h.mulVec_dot_mulVec, hv]

/-- Transposed systems with different factors have solutions of the same length. -/
theorem dot_eq_dot_of_transpose (h : eqs.Factored r order b) (h' : eqs.Factored r' order' b')
    (hdiag : ∀ j, r j j ≠ 0) {u z z' : Fin n → ℝ} (hz : rᵀ *ᵥ z = u ∘ order.get)
    (hz' : r'ᵀ *ᵥ z' = u ∘ order'.get) : z ⬝ᵥ z = z' ⬝ᵥ z' := by
  obtain ⟨v, hv⟩ := h.exists_mulVec hdiag u
  rw [h.dot_eq_of_transpose hdiag hz hv,
    h'.dot_eq_of_transpose (h.diag_ne_zero h' hdiag) hz' hv]

/-! ### Damping -/

/-- Damping the system of a factor damps the normal equations. -/
theorem damped (h : eqs.Factored r order b) {d : Fin n → ℝ} (hr' : r'.IsUpperTriangular)
    (heq : ofProblem r' b' = (ofProblem r b).damped (d ∘ order.get)) :
    (eqs.damped d).Factored r' order b' where
  bijective := h.bijective
  triangular := hr'
  gram := by
    have hmatrix : r'ᵀ * r' = rᵀ * r + diagonal fun i => d (order i) ^ 2 :=
      congrArg NormalEquations.matrix heq
    rw [hmatrix, h.gram, NormalEquations.damped, submatrix_add]
    congr 1
    exact (submatrix_diagonal (fun i => d i ^ 2) order.get h.bijective.injective).symm
  gradient := by
    have hrhs : r'ᵀ *ᵥ b' = rᵀ *ᵥ b := congrArg NormalEquations.rhs heq
    rw [hrhs]
    exact h.gradient

/-- A factor of damped equations has no zero on the diagonal, if no entry of the damping is zero. -/
theorem diag_ne_zero_of_damped (h : eqs.Factored r order b) {d : Fin n → ℝ} (hd : ∀ i, d i ≠ 0)
    (h' : (eqs.damped d).Factored r' order' b') (j : Fin n) : r' j j ≠ 0 := by
  have hdet : (eqs.damped d).matrix.det ≠ 0 := by
    intro hzero
    obtain ⟨v, hne, hv⟩ := exists_mulVec_eq_zero_iff.2 hzero
    -- the quadratic form is a sum of two squares
    have hform : v ⬝ᵥ (eqs.damped d).matrix *ᵥ v =
        (r *ᵥ (v ∘ order.get)) ⬝ᵥ (r *ᵥ (v ∘ order.get)) + ∑ i, (d i * v i) ^ 2 := by
      rw [h.mulVec_dot_mulVec, NormalEquations.damped, add_mulVec, dotProduct_add]
      congr 1
      refine Finset.sum_congr rfl ?_
      intro i _
      rw [mulVec_diagonal]
      ring
    rw [hv, dotProduct_zero] at hform
    have hfirst : 0 ≤ (r *ᵥ (v ∘ order.get)) ⬝ᵥ (r *ᵥ (v ∘ order.get)) :=
      Finset.sum_nonneg fun i _ => mul_self_nonneg _
    have hsecond : ∑ i, (d i * v i) ^ 2 = 0 := by
      have hnonneg : 0 ≤ ∑ i, (d i * v i) ^ 2 := Finset.sum_nonneg fun i _ => sq_nonneg _
      linarith
    refine hne (funext ?_)
    intro i
    have hi := (Finset.sum_eq_zero_iff_of_nonneg fun i _ => sq_nonneg (d i * v i)).1 hsecond i
      (Finset.mem_univ i)
    exact (mul_eq_zero.1 ((pow_eq_zero_iff two_ne_zero).1 hi)).resolve_left (hd i)
  rw [h'.det_eq] at hdet
  exact Finset.prod_ne_zero_iff.1 ((pow_ne_zero_iff two_ne_zero).1 hdet) j (Finset.mem_univ j)

end Factored

end NormalEquations

end NonlinearSolve

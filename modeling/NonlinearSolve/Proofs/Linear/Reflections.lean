import Mathlib.Analysis.SpecialFunctions.Sqrt
import NonlinearSolve.Linear.Householder
import NonlinearSolve.Proofs.Exact.Matrices

/-! # Householder reflections are orthogonal

In exact arithmetic the reflection by a vector is the product with a symmetric matrix
(`reflect_eq_mulVec`), which is its own inverse if the vector is a reflector
(`reflection_mul_self`). The orthogonal factor of a factored matrix is the product of these matrices
(`toMatrix_orthogonalFactor`), and `applyTranspose` multiplies with its transpose
(`applyTranspose_eq_mulVec`). -/

namespace NonlinearSolve

namespace Householder

open Matrix Scalar

variable {m n : Nat}

/-! ### One reflection -/

/-- The part of `w` from row `k` on, with zeros before it. -/
def tail (w : Vec ℝ m) (k : Fin m) : Fin m → ℝ := fun i => if k ≤ i then w i else 0

/-- The matrix of the reflection by `w` in the rows from `k` on. -/
noncomputable def reflection (w : Vec ℝ m) (k : Fin m) : Matrix (Fin m) (Fin m) ℝ :=
  1 - (w k)⁻¹ • vecMulVec (tail w k) (tail w k)

/-- A vector that reflects the rows from `k` on: its squared length there is twice its entry `k`,
which is not zero. -/
structure IsReflector (w : Vec ℝ m) (k : Fin m) : Prop where
  pivot_ne : w k ≠ 0
  dot_self : tail w k ⬝ᵥ tail w k = 2 * w k

/-- A reflection is symmetric. -/
theorem reflection_transpose (w : Vec ℝ m) (k : Fin m) : (reflection w k)ᵀ = reflection w k := by
  rw [reflection, transpose_sub, transpose_one, transpose_smul, transpose_vecMulVec]

/-- A reflection undoes itself. -/
theorem reflection_mul_self {w : Vec ℝ m} {k : Fin m} (h : IsReflector w k) :
    reflection w k * reflection w k = 1 := by
  have hne := h.pivot_ne
  -- in the square the term that is taken off twice comes back twice
  have hvv : vecMulVec (tail w k) (tail w k) * vecMulVec (tail w k) (tail w k) =
      (2 * w k) • vecMulVec (tail w k) (tail w k) := by
    rw [vecMulVec_mul_vecMulVec, h.dot_self, vecMulVec_smul]
  have hcoef : (w k)⁻¹ * ((w k)⁻¹ * (2 * w k)) = 2 * (w k)⁻¹ := by
    field_simp
  rw [reflection, sub_mul, one_mul, mul_sub, mul_one, smul_mul_smul_comm, hvv, smul_smul,
    mul_assoc, hcoef, two_mul, add_smul]
  abel

/-- The sum in a reflection is a scalar product. -/
theorem sumWhere_eq_tail_dotProduct (w : Vec ℝ m) (k : Fin m) (c : Vec ℝ m) :
    sumWhere (k ≤ ·) (fun i => w i * c i) = tail w k ⬝ᵥ c.get := by
  rw [Exact.sumWhere_eq, dotProduct]
  refine Finset.sum_congr rfl ?_
  intro i _
  rw [tail, ite_mul, zero_mul]

/-- The reflection as a product with its matrix. -/
theorem reflect_eq_mulVec (w : Vec ℝ m) (k : Fin m) (c : Vec ℝ m) :
    (reflect w k c).get = reflection w k *ᵥ c.get := by
  ext i
  rw [reflection, sub_mulVec, one_mulVec, smul_mulVec, vecMulVec_mulVec,
    ← sumWhere_eq_tail_dotProduct]
  simp only [reflect, Vec.of_apply, Pi.sub_apply, Pi.smul_apply, tail]
  by_cases hi : k ≤ i
  · rw [if_pos hi, if_pos hi, op_smul_eq_smul, smul_eq_mul, smul_eq_mul, div_eq_inv_mul,
      mul_assoc]
  · rw [if_neg hi, if_neg hi, smul_zero, smul_zero, sub_zero]

/-- Rows before `k` are left alone. -/
theorem reflection_apply_of_lt (w : Vec ℝ m) {k i : Fin m} (h : i < k) (j : Fin m) :
    reflection w k i j = (1 : Matrix (Fin m) (Fin m) ℝ) i j := by
  rw [reflection, Matrix.sub_apply, Matrix.smul_apply, vecMulVec_apply, tail,
    if_neg (not_le.2 h), zero_mul, smul_zero, sub_zero]

/-- A reflection leaves the unit vectors before row `k` alone. -/
theorem reflection_mulVec_single (w : Vec ℝ m) {k l : Fin m} (h : l < k) :
    reflection w k *ᵥ Pi.single l 1 = Pi.single l 1 := by
  have hsymm : reflection w k = (reflection w k)ᵀ := (reflection_transpose w k).symm
  ext i
  rw [mulVec_single_one, hsymm, col_apply, transpose_apply, reflection_apply_of_lt w h,
    Matrix.one_apply, Pi.single_apply]
  simp only [eq_comm]

/-- A reflection leaves a vector alone that is zero from row `k` on. -/
theorem reflection_mulVec_of_tail (w : Vec ℝ m) {k : Fin m} {v : Fin m → ℝ}
    (hv : ∀ i, k ≤ i → v i = 0) : reflection w k *ᵥ v = v := by
  have hdot : tail w k ⬝ᵥ v = 0 := by
    refine Finset.sum_eq_zero ?_
    intro i _
    rw [tail]
    by_cases hi : k ≤ i
    · rw [hv i hi, mul_zero]
    · rw [if_neg hi, zero_mul]
  rw [reflection, sub_mulVec, one_mulVec, smul_mulVec, vecMulVec_mulVec, hdot, MulOpposite.op_zero,
    zero_smul, smul_zero, sub_zero]

/-! ### The product of the reflections -/

/-- The matrix of the reflection kept in column `j` of `a`. -/
noncomputable def stored (a : Mat ℝ m n) (j : Nat) : Matrix (Fin m) (Fin m) ℝ :=
  if h : j < n ∧ j < m then
    if a ⟨j, h.2⟩ ⟨j, h.1⟩ = 0 then 1 else reflection (a.col ⟨j, h.1⟩) ⟨j, h.2⟩
  else 1

/-- A column whose pivot entry is zero keeps no reflection. -/
theorem stored_of_val_eq (a : Mat ℝ m n) {i : Fin m} {j : Fin n} (hij : i.val = j.val) :
    stored a j = if a i j = 0 then 1 else reflection (a.col j) i := by
  obtain ⟨k, hk⟩ := i
  obtain rfl : k = j.val := hij
  rw [stored, dif_pos ⟨j.isLt, hk⟩]

/-- The product of the reflections kept in the first `k` columns of `a`. -/
noncomputable def product (a : Mat ℝ m n) : Nat → Matrix (Fin m) (Fin m) ℝ
  | 0 => 1
  | k + 1 => product a k * stored a k

/-- The first `k` columns of `a` keep reflectors, unless there was nothing to eliminate. -/
def Reflectors (a : Mat ℝ m n) (k : Nat) : Prop :=
  ∀ (i : Fin m) (j : Fin n), i.val = j.val → j.val < k → a i j = 0 ∨ IsReflector (a.col j) i

/-- What a column keeps is symmetric. -/
theorem stored_transpose (a : Mat ℝ m n) (j : Nat) : (stored a j)ᵀ = stored a j := by
  rw [stored]
  split
  · split
    · exact transpose_one
    · exact reflection_transpose _ _
  · exact transpose_one

/-- What a column keeps is its own inverse. -/
theorem stored_mul_self {a : Mat ℝ m n} {k j : Nat} (h : Reflectors a k) (hj : j < k) :
    stored a j * stored a j = 1 := by
  rw [stored]
  split
  · next hnm =>
    split
    · exact one_mul 1
    · next hne =>
      obtain hzero | hrefl := h ⟨j, hnm.2⟩ ⟨j, hnm.1⟩ rfl hj
      · exact absurd hzero hne
      · exact reflection_mul_self hrefl
  · exact one_mul 1

/-- The product of reflections is orthogonal. -/
theorem product_transpose_mul {a : Mat ℝ m n} {k : Nat} (h : Reflectors a k) :
    (product a k)ᵀ * product a k = 1 := by
  induction k with
  | zero => rw [product, transpose_one, one_mul]
  | succ k ih =>
    -- the earlier reflections cancel in the middle, and then the last one with itself
    have hk : Reflectors a k := fun i j hij hj => h i j hij (Nat.lt_succ_of_lt hj)
    rw [product, transpose_mul, stored_transpose, mul_assoc, ← mul_assoc (product a k)ᵀ, ih hk,
      one_mul, stored_mul_self h (Nat.lt_succ_self k)]

/-- Columns past the last row keep no reflection. -/
theorem product_of_le (a : Mat ℝ m n) {k : Nat} (hk : m ≤ k) : product a k = product a m := by
  induction hk with
  | refl => rfl
  | step hmk ih => rw [product, stored, dif_neg fun h => Nat.not_lt.2 hmk h.2, mul_one, ih]

/-- Columns beyond the last row keep no reflection. -/
theorem product_min (a : Mat ℝ m n) : product a (min m n) = product a n := by
  obtain hmn | hnm := Nat.le_total m n
  · rw [min_eq_left hmn, product_of_le a hmn]
  · rw [min_eq_right hnm]

/-- A diagonal entry lies in the first `min m n` columns. -/
theorem Reflectors.of_min {a : Mat ℝ m n} (h : Reflectors a (min m n)) : Reflectors a n :=
  fun i j hij _ => h i j hij (lt_min (hij ▸ i.isLt) j.isLt)

/-- A reflection does not depend on the rows before it. -/
theorem reflection_congr {v w : Vec ℝ m} {k : Fin m} (h : ∀ i, k ≤ i → v i = w i) :
    reflection v k = reflection w k := by
  have htail : tail v k = tail w k := by
    funext i
    rw [tail, tail]
    by_cases hi : k ≤ i
    · rw [if_pos hi, if_pos hi, h i hi]
    · rw [if_neg hi, if_neg hi]
  rw [reflection, reflection, htail, h k le_rfl]

/-- The product depends on the entries on and below the diagonal only. -/
theorem product_congr {a b : Mat ℝ m n} {k : Nat}
    (h : ∀ (i : Fin m) (j : Fin n), j.val < k → j.val ≤ i.val → a i j = b i j) :
    product a k = product b k := by
  induction k with
  | zero => rfl
  | succ k ih =>
    have hstored : stored a k = stored b k := by
      rw [stored, stored]
      split
      · next hnm =>
        have hk : k < k + 1 := Nat.lt_succ_self k
        have hrefl : reflection (a.col ⟨k, hnm.1⟩) ⟨k, hnm.2⟩ =
            reflection (b.col ⟨k, hnm.1⟩) ⟨k, hnm.2⟩ :=
          reflection_congr fun i hi => h i ⟨k, hnm.1⟩ hk hi
        rw [h ⟨k, hnm.2⟩ ⟨k, hnm.1⟩ hk le_rfl, hrefl]
      · rfl
    rw [product, product, ih fun i j hj => h i j (Nat.lt_succ_of_lt hj), hstored]

/-! ### Applying and forming the product -/

/-- What is done with a vector for column `j` is the product with the matrix kept there. -/
theorem reflect_eq_stored_mulVec (a : Mat ℝ m n) (j : Fin n) (b : Vec ℝ m) :
    (if h : j.val < m then
      if a ⟨j, h⟩ j == 0 then b else reflect (a.col j) ⟨j, h⟩ b
    else b).get = stored a j *ᵥ b.get := by
  rw [stored]
  by_cases h : j.val < m
  · rw [dif_pos h, dif_pos ⟨j.isLt, h⟩]
    by_cases hzero : a ⟨j, h⟩ j = 0
    · rw [if_pos ((Exact.beq_iff _ _).2 hzero), if_pos hzero, one_mulVec]
    · rw [if_neg (mt (Exact.beq_iff _ _).1 hzero), if_neg hzero]
      exact reflect_eq_mulVec _ _ b
  · rw [dif_neg h, dif_neg fun hnm => h hnm.2, one_mulVec]

/-- Applying the reflections one after the other multiplies with the transpose of their product. -/
theorem applyTranspose_eq_mulVec (a : Mat ℝ m n) (b : Vec ℝ m) :
    (applyTranspose a b).get = (product a n)ᵀ *ᵥ b.get := by
  rw [applyTranspose]
  refine foldl_invariant (motive := fun j (c : Vec ℝ m) => c.get = (product a j)ᵀ *ᵥ b.get) ?_
    fun j c hc => ?_
  · rw [product, transpose_one, one_mulVec]
  · rw [reflect_eq_stored_mulVec, hc, product, transpose_mul, stored_transpose, mulVec_mulVec]

/-- Columns before `j` are left alone. -/
theorem col_accumulate_of_lt (a : Mat ℝ m n) (j : Fin n) (q : Mat ℝ m m) {k : Fin m}
    (hk : k.val < j.val) : (accumulate a j q).col k = q.col k := by
  rw [accumulate]
  split
  · split
    · rfl
    · rw [Mat.col_ofCols, if_neg (Nat.not_le.2 hk)]
  · rfl

/-- Putting a reflection in front of a matrix whose columns before it are those of the identity. -/
theorem toMatrix_accumulate (a : Mat ℝ m n) (j : Fin n) {q : Mat ℝ m m}
    (hq : ∀ k : Fin m, k.val < j.val → (q.col k).get = Pi.single k 1) :
    (accumulate a j q).toMatrix = stored a j * q.toMatrix := by
  rw [accumulate, stored]
  by_cases h : j.val < m
  · rw [dif_pos h, dif_pos ⟨j.isLt, h⟩]
    by_cases hzero : a ⟨j, h⟩ j = 0
    · rw [if_pos ((Exact.beq_iff _ _).2 hzero), if_pos hzero, one_mul]
    · rw [if_neg (mt (Exact.beq_iff _ _).1 hzero), if_neg hzero]
      ext i k
      change _ = (reflection (a.col j) ⟨j, h⟩ *ᵥ (q.col k).get) i
      rw [Mat.toMatrix_apply, Mat.ofCols_apply]
      by_cases hk : j.val ≤ k.val
      · rw [if_pos hk, reflect_eq_mulVec]
      · -- earlier columns are unit vectors, which the reflection leaves alone
        have hlt : k < ⟨j, h⟩ := Nat.not_le.1 hk
        rw [if_neg hk, hq k hlt, reflection_mulVec_single _ hlt]
  · rw [dif_neg h, dif_neg fun hnm => h hnm.2, one_mul]

/-- The orthogonal factor is the product of the reflections. -/
theorem toMatrix_orthogonalFactor (a : Mat ℝ m n) :
    (orthogonalFactor a).toMatrix = product a n := by
  -- from the last column on: the reflections before column `j` times the matrix make the product
  have hfactor := foldr_invariant (f := accumulate a) (b := Mat.identity m)
    (motive := fun j (q : Mat ℝ m m) => product a j * q.toMatrix = product a n ∧
      ∀ k : Fin m, k.val < j → (q.col k).get = Pi.single k 1) ?_ fun j q hq => ?_
  · rw [product, one_mul] at hfactor
    exact hfactor.1
  · refine ⟨by rw [Mat.toMatrix_identity, mul_one], ?_⟩
    intro k _
    ext i
    rw [Pi.single_apply]
    exact Mat.identity_apply i k
  · obtain ⟨hmul, hunit⟩ := hq
    constructor
    · rw [toMatrix_accumulate a j fun k hk => hunit k (Nat.lt_succ_of_lt hk), ← mul_assoc]
      exact hmul
    · intro k hk
      rw [← hunit k (Nat.lt_succ_of_lt hk)]
      exact congrArg Vec.get (col_accumulate_of_lt a j q hk)

end Householder

end NonlinearSolve

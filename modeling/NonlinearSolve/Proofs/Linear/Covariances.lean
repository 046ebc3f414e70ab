import Mathlib.LinearAlgebra.Matrix.Rank
import NonlinearSolve.Proofs.Linear.Arrangement
import NonlinearSolve.Proofs.Linear.RowSequences
import NonlinearSolve.Proofs.Linear.Substitution

/-! # The covariance of a factor

The loop that inverts a triangle column by column inverts its leading block
(`leadingInverse_mul_upper`), and the loop after it takes the place of that inverse by its product
with its transpose (`gram_inverse`). In the order of the unknowns this is the covariance
(`ofFactor_matrix`). If the normal equations are regular, then all of the
triangle is inverted, and the covariance is the inverse of their matrix (`ofFactor_eq_inv`).

What is below the diagonal of a factor has no influence on its covariance, in any arithmetic
(`ofFactor_congr`). -/

namespace NonlinearSolve

open Matrix Scalar

variable {n : Nat}

/-! ### Regular normal equations -/

/-- The matrix of the normal equations of a problem with full column rank is regular. -/
theorem NormalEquations.det_ofProblem_ne_zero {m : Nat} {a : Matrix (Fin m) (Fin n) ℝ}
    (ha : a.rank = n) (f : Fin m → ℝ) : (ofProblem a f).matrix.det ≠ 0 := by
  have hrank : (aᵀ * a).rank = n := by rw [rank_transpose_mul_self, ha]
  have hcols : LinearIndependent ℝ (aᵀ * a).col := by
    rw [linearIndependent_iff_card_eq_finrank_span, Fintype.card_fin, Set.finrank,
      ← rank_eq_finrank_span_cols, hrank]
  exact ((isUnit_iff_isUnit_det _).1 (linearIndependent_cols_iff_isUnit.1 hcols)).ne_zero

/-- A factor of regular normal equations has no zero on the diagonal. -/
theorem NormalEquations.Factored.firstZero_eq {eqs : NormalEquations n} {r : Mat ℝ n n}
    {order : Vec (Fin n) n} {b : Fin n → ℝ} (h : eqs.Factored r.upper order b)
    (hdet : eqs.matrix.det ≠ 0) : r.diagonal.firstZero = n := by
  rw [Vec.firstZero_eq_iff]
  intro j
  rw [h.det_eq] at hdet
  have hj := Finset.prod_ne_zero_iff.1 ((pow_ne_zero_iff two_ne_zero).1 hdet) j (Finset.mem_univ j)
  rwa [r.upper_of_le le_rfl, ← Mat.diagonal_apply] at hj

namespace Covariance

/-! ### What is read -/

section Reads

variable {α : Type} [Scalar α] {r r' : Mat α n n}

/-- One pass adds the products with column `k`. -/
theorem accumulate_of_lt (b : Mat α n n) {i j k : Fin n} (hij : i ≤ j)
    (hjk : j < k) : accumulate b k i j = b i j + b j k * b i k := by
  rw [accumulate, Mat.of_apply, if_pos ⟨hij, hjk⟩]

/-- Column `k` itself is multiplied by its diagonal entry. -/
theorem accumulate_self (b : Mat α n n) {i k : Fin n} (hik : i ≤ k) :
    accumulate b k i k = b i k * b k k := by
  rw [accumulate, Mat.of_apply, if_neg fun h => lt_irrefl _ h.2, if_pos ⟨hik, rfl⟩]

/-- The columns after `k` are left alone. -/
theorem accumulate_of_gt (b : Mat α n n) (i : Fin n) {j k : Fin n}
    (hkj : k < j) : accumulate b k i j = b i j := by
  rw [accumulate, Mat.of_apply, if_neg fun h => hkj.not_gt h.2, if_neg fun h => hkj.ne' h.2]

/-- The numerical rank is that of the diagonal. -/
theorem numericalRank_congr (h : r.SameUpper r') (tol : α) :
    numericalRank r tol = numericalRank r' tol := by
  cases n with
  | zero => rfl
  | succ n => rw [numericalRank, numericalRank, h.diagonal_eq, h 0 0 le_rfl]

/-- On and above the diagonal, a column of the inverse depends on what is there. -/
theorem inverseColumn_sameUpper {b b' : Mat α n n} (h : r.SameUpper r') (hb : b.SameUpper b')
    {i k : Fin n} (hik : i ≤ k) : inverseColumn r b k i = inverseColumn r' b' k i := by
  have hstep : (fun (s : α) (j : Fin n) =>
        if i ≤ j ∧ j < k then s - 1 / r k k * r j k * b i j else s) =
      fun s j => if i ≤ j ∧ j < k then s - 1 / r' k k * r' j k * b' i j else s := by
    funext s j
    by_cases hj : i ≤ j ∧ j < k
    · rw [if_pos hj, if_pos hj, h k k le_rfl, h j k hj.2.le, hb i j hj.1]
    · rw [if_neg hj, if_neg hj]
  simp only [inverseColumn, Vec.of_apply]
  rw [hstep, h k k le_rfl, h i k hik]

/-- Inverting reads the upper triangle only. -/
theorem inverse_sameUpper (h : r.SameUpper r') (rank : Nat) :
    (inverse r rank).SameUpper (inverse r' rank) := by
  refine foldl_relation (R := Mat.SameUpper) h fun k b b' hb => ?_
  split
  · intro i j hij
    rw [Mat.setCol_apply, Mat.setCol_apply]
    by_cases hjk : j = k
    · rw [if_pos hjk, if_pos hjk, inverseColumn_sameUpper h hb (hjk ▸ hij)]
    · rw [if_neg hjk, if_neg hjk, hb i j hij]
  · exact hb

/-- Multiplying with the transpose reads the upper triangle only. -/
theorem gram_sameUpper (h : r.SameUpper r') (rank : Nat) :
    (gram r rank).SameUpper (gram r' rank) := by
  refine foldl_relation (R := Mat.SameUpper) h fun k b b' hb => ?_
  split
  · intro i j hij
    rcases lt_trichotomy j k with hlt | rfl | hgt
    · rw [accumulate_of_lt b hij hlt, accumulate_of_lt b' hij hlt, hb i j hij, hb j k hlt.le,
        hb i k (hij.trans hlt.le)]
    · rw [accumulate_self b hij, accumulate_self b' hij, hb i j hij, hb j j le_rfl]
    · rw [accumulate_of_gt b i hgt, accumulate_of_gt b' i hgt, hb i j hij]
  · exact hb

/-- The covariance of a factor depends only on what is on and above the diagonal. -/
theorem ofFactor_congr (h : r.SameUpper r') {order : Vec (Fin n) n}
    (horder : Function.Bijective order.get) (tol : α) :
    ofFactor r order tol = ofFactor r' order tol := by
  set l := numericalRank r' tol with hl
  have hgram : (gram (inverse r l) l).SameUpper (gram (inverse r' l) l) :=
    gram_sameUpper (inverse_sameUpper h l) l
  have hmatrix : (arrange (gram (inverse r l) l) order l).symmetric =
      (arrange (gram (inverse r' l) l) order l).symmetric := by
    ext i j
    obtain ⟨i, rfl⟩ := horder.surjective i
    obtain ⟨j, rfl⟩ := horder.surjective j
    have hbetween := symmetric_arrange horder.injective (gram (inverse r l) l) l i j
    have hbetween' := symmetric_arrange horder.injective (gram (inverse r' l) l) l i j
    rw [between] at hbetween hbetween'
    exact hbetween.trans (hgram _ _ min_le_max ▸ hbetween'.symm)
  simp only [ofFactor, numericalRank_congr h, ← hl, hmatrix]

end Reads

/-! ### The columns of the inverse -/

/-- A column of the inverse depends on the columns before it only. -/
theorem inverseColumn_congr (r : Mat ℝ n n) {b b' : Mat ℝ n n} {k : Fin n}
    (h : ∀ i j, j < k → b i j = b' i j) : inverseColumn r b k = inverseColumn r b' k := by
  refine Vec.ext ?_
  intro i
  simp only [inverseColumn, Vec.of_apply]
  congr 2
  funext s j
  by_cases hj : i ≤ j ∧ j < k
  · rw [if_pos hj, if_pos hj, h i j hj.2]
  · rw [if_neg hj, if_neg hj]

/-- The columns of the inverse are computed from one another. -/
theorem inverse_col (r : Mat ℝ n n) {l : Nat} {k : Fin n} (hk : k.val < l) (i : Fin n) :
    inverse r l i k = inverseColumn r (inverse r l) k i := by
  -- the invariant: the columns before `c` are final
  have hloop := foldl_invariant
    (f := fun (b : Mat ℝ n n) k => if k.val < l then b.setCol k (inverseColumn r b k) else b)
    (b := r)
    (motive := fun c (b : Mat ℝ n n) => ∀ k : Fin n, k.val < c → k.val < l → ∀ i,
      b i k = inverseColumn r b k i)
    (fun k hk => absurd hk (Nat.not_lt_zero _)) fun c b hb k hkc hkl i => by
      by_cases hcl : c.val < l
      · have hsame : ∀ i j, j < c → b i j = b.setCol c (inverseColumn r b c) i j := by
          intro i j hj
          rw [Mat.setCol_apply, if_neg hj.ne]
        rw [if_pos hcl]
        by_cases hck : k = c
        · subst hck
          rw [← inverseColumn_congr r hsame, Mat.setCol_apply, if_pos rfl]
        · have hlt : k < c := Fin.lt_def.2 (by have := Fin.val_ne_of_ne hck; omega)
          rw [← hsame i k hlt, hb k hlt hkl i,
            inverseColumn_congr r fun i j hj => hsame i j (hj.trans hlt)]
      · rw [if_neg hcl]
        exact hb k (by omega) hkl i
  exact hloop k k.isLt hk i

/-- The pivots of the inverse are the reciprocals of the pivots. -/
theorem inverse_diag (r : Mat ℝ n n) {l : Nat} {k : Fin n} (hk : k.val < l) :
    inverse r l k k = 1 / r k k := by
  rw [inverse_col r hk, inverseColumn, Vec.of_apply, if_neg (lt_irrefl k), if_pos rfl]

/-- Above the diagonal, a column of the inverse makes up for the products with the columns
before. -/
theorem inverse_above (r : Mat ℝ n n) {l : Nat} {i k : Fin n} (hik : i < k) (hk : k.val < l) :
    inverse r l i k =
      -∑ j, if i ≤ j ∧ j < k then 1 / r k k * r j k * inverse r l i j else 0 := by
  have hsum := Exact.foldl_addWhere (fun j => i ≤ j ∧ j < k)
    (fun j => -(1 / r k k * r j k * inverse r l i j)) 0
  simp only [← sub_eq_add_neg] at hsum
  rw [inverse_col r hk, inverseColumn, Vec.of_apply, if_pos hik, hsum, zero_add,
    ← Finset.sum_neg_distrib]
  refine Finset.sum_congr rfl ?_
  intro j _
  split
  · rfl
  · exact neg_zero.symm

/-! ### The inverse of the leading block -/

/-- The inverse of the leading block of size `l`, completed by zeros. -/
noncomputable def leadingInverse (r : Mat ℝ n n) (l : Nat) : Matrix (Fin n) (Fin n) ℝ :=
  Matrix.of fun i j => if i ≤ j ∧ j.val < l then inverse r l i j else 0

/-- Within the leading block the entries are those of the inverse. -/
theorem leadingInverse_of_le (r : Mat ℝ n n) {l : Nat} {i j : Fin n} (hij : i ≤ j)
    (hj : j.val < l) : leadingInverse r l i j = inverse r l i j := if_pos ⟨hij, hj⟩

/-- Below the diagonal there are zeros. -/
theorem leadingInverse_of_lt (r : Mat ℝ n n) (l : Nat) {i j : Fin n} (hji : j < i) :
    leadingInverse r l i j = 0 := if_neg fun h => absurd h.1 (not_le.2 hji)

/-- The columns beyond the block are zero. -/
theorem leadingInverse_of_ge (r : Mat ℝ n n) {l : Nat} (i : Fin n) {j : Fin n} (hj : l ≤ j.val) :
    leadingInverse r l i j = 0 := if_neg fun h => absurd h.2 (Nat.not_lt.2 hj)

/-- In the leading block, the product with the triangle is the identity. -/
theorem leadingInverse_mul_upper (r : Mat ℝ n n) {l : Nat}
    (hdiag : ∀ j : Fin n, j.val < l → r j j ≠ 0) (i : Fin n) {k : Fin n} (hk : k.val < l) :
    (leadingInverse r l * r.upper) i k = if i = k then 1 else 0 := by
  -- the terms outside of `i ≤ j ≤ k` vanish
  have hterm : ∀ j, leadingInverse r l i j * r.upper j k =
      (if i ≤ j ∧ j < k then inverse r l i j * r j k else 0) +
        if j = k then leadingInverse r l i k * r k k else 0 := by
    intro j
    rcases lt_trichotomy j k with hlt | rfl | hgt
    · rw [if_neg hlt.ne, add_zero, r.upper_of_le hlt.le]
      by_cases hij : i ≤ j
      · rw [if_pos ⟨hij, hlt⟩, leadingInverse_of_le r hij (lt_trans hlt hk)]
      · rw [if_neg fun h => hij h.1, leadingInverse_of_lt r l (not_le.1 hij), zero_mul]
    · rw [if_neg fun h => lt_irrefl _ h.2, if_pos rfl, zero_add, r.upper_of_le le_rfl]
    · rw [if_neg fun h => hgt.not_gt h.2, if_neg hgt.ne', r.upper_of_lt hgt, mul_zero, add_zero]
  have hne := hdiag k hk
  rw [Matrix.mul_apply, Finset.sum_congr rfl fun j _ => hterm j, Finset.sum_add_distrib,
    Finset.sum_ite_eq' Finset.univ k, if_pos (Finset.mem_univ k)]
  rcases lt_trichotomy i k with hlt | rfl | hgt
  · rw [if_neg hlt.ne, leadingInverse_of_le r hlt.le hk, inverse_above r hlt hk, neg_mul,
      Finset.sum_mul, ← sub_eq_add_neg, sub_eq_zero]
    refine Finset.sum_congr rfl ?_
    intro j _
    split
    · field_simp
    · exact (zero_mul _).symm
  · have hempty : ∀ j : Fin n, ¬ (i ≤ j ∧ j < i) := fun j h => h.1.not_gt h.2
    simp only [if_neg (hempty _), Finset.sum_const_zero, zero_add, if_true]
    rw [leadingInverse_of_le r le_rfl hk, inverse_diag r hk, one_div, inv_mul_cancel₀ hne]
  · have hempty : ∀ j : Fin n, ¬ (i ≤ j ∧ j < k) := fun j h => (h.1.trans_lt h.2).not_gt hgt
    simp only [if_neg (hempty _), Finset.sum_const_zero, zero_add]
    rw [leadingInverse_of_lt r l hgt, zero_mul, if_neg hgt.ne']

/-- If no diagonal entry is zero, all of the triangle is inverted. -/
theorem leadingInverse_eq_inv {r : Mat ℝ n n} (hdiag : ∀ j, r j j ≠ 0) :
    leadingInverse r n = r.upper⁻¹ := by
  have hone : leadingInverse r n * r.upper = 1 := by
    ext i k
    rw [leadingInverse_mul_upper r (fun j _ => hdiag j) i k.isLt, Matrix.one_apply]
  exact (Matrix.inv_eq_left_inv hone).symm

/-! ### The covariance matrix -/

/-- On and above the diagonal, the columns before `c` of `b` hold the product of the first `c`
columns of `v` with their transposes, and the others are those of `v`. -/
def GramUpTo (v : Matrix (Fin n) (Fin n) ℝ) (l c : Nat) (b : Mat ℝ n n) : Prop :=
  ∀ i j : Fin n, i ≤ j → j.val < l →
    b i j = if j.val < c then ∑ k, if k.val < c then v i k * v j k else 0 else v i j

/-- One pass adds the products with the next column. -/
theorem GramUpTo.accumulate {v : Matrix (Fin n) (Fin n) ℝ} (hv : ∀ i j, j < i → v i j = 0) {l : Nat}
    {c : Fin n} {b : Mat ℝ n n} (h : GramUpTo v l c b) (hc : c.val < l) :
    GramUpTo v l (c + 1) (accumulate b c) := by
  -- column `c` is still that of `v`
  have hcol : ∀ i ≤ c, b i c = v i c := fun i hi => by rw [h i c hi hc, if_neg (lt_irrefl _)]
  intro i j hij hj
  rcases lt_trichotomy j c with hlt | rfl | hgt
  · have hjc : j.val < c.val := hlt
    rw [accumulate_of_lt b hij hlt, h i j hij hj, if_pos hjc, if_pos (Nat.lt_succ_of_lt hjc),
      Exact.sum_lt_succ, hcol j hlt.le, hcol i (hij.trans hlt.le), mul_comm]
  · have hbefore : ∑ k : Fin n, (if k.val < j.val then v i k * v j k else 0) = 0 := by
      refine Finset.sum_eq_zero fun k _ => ?_
      split
      · rw [hv j k ‹_›, mul_zero]
      · rfl
    rw [accumulate_self b hij, hcol i hij, hcol j le_rfl, if_pos (Nat.lt_succ_self _),
      Exact.sum_lt_succ, hbefore, zero_add]
  · have hcj : c.val < j.val := hgt
    rw [accumulate_of_gt b i hgt, h i j hij hj, if_neg hcj.not_gt,
      if_neg (Nat.not_lt.2 (Nat.succ_le_of_lt hcj))]

/-- The entries of the product of the inverse with its transpose. -/
theorem gram_inverse (r : Mat ℝ n n) {l : Nat} {i j : Fin n} (hij : i ≤ j) (hj : j.val < l) :
    gram (inverse r l) l i j = (leadingInverse r l * (leadingInverse r l)ᵀ) i j := by
  have hloop : GramUpTo (leadingInverse r l) l n (gram (inverse r l) l) := by
    refine foldl_invariant (motive := GramUpTo (leadingInverse r l) l) ?_ ?_
    · intro i j hij hj
      rw [if_neg (Nat.not_lt_zero _), leadingInverse_of_le r hij hj]
    · intro c b hb
      by_cases hc : c.val < l
      · rw [if_pos hc]
        exact hb.accumulate (fun i j => leadingInverse_of_lt r l) hc
      · rw [if_neg hc]
        intro i j hij hj
        have hjc : j.val < c.val := hj.trans_le (Nat.not_lt.1 hc)
        rw [hb i j hij hj, if_pos hjc, if_pos (Nat.lt_succ_of_lt hjc), Exact.sum_lt_succ,
          leadingInverse_of_ge r i (Nat.not_lt.1 hc), zero_mul, add_zero]
  rw [hloop i j hij hj, if_pos j.isLt, Matrix.mul_apply]
  exact Finset.sum_congr rfl fun k _ => if_pos k.isLt

/-- In the order of the factor, the covariance is the product of the inverse of the leading block
with its transpose. -/
theorem ofFactor_matrix (r : Mat ℝ n n) {order : Vec (Fin n) n}
    (horder : Function.Injective order.get) (tol : ℝ) :
    (ofFactor r order tol).matrix.toMatrix.submatrix order.get order.get =
      leadingInverse r (numericalRank r tol) * (leadingInverse r (numericalRank r tol))ᵀ := by
  set l := numericalRank r tol with hl
  set v := leadingInverse r l with hv
  have hupper : ∀ i j : Fin n, i ≤ j → between (gram (inverse r l) l) l i j = (v * vᵀ) i j := by
    intro i j hij
    by_cases hj : j.val < l
    · rw [between_of_le _ _ hij, if_pos hj, gram_inverse r hij hj]
    · -- rows beyond the leading block are zero
      rw [between_eq_zero _ _ (Nat.not_lt.1 hj), Matrix.mul_apply]
      refine (Finset.sum_eq_zero fun k _ => ?_).symm
      rw [transpose_apply]
      rcases lt_or_ge k j with hkj | hjk
      · rw [hv, leadingInverse_of_lt r l hkj, mul_zero]
      · rw [hv, leadingInverse_of_ge r j ((Nat.not_lt.1 hj).trans hjk), mul_zero]
  have hsymm : ∀ i j, (v * vᵀ) i j = (v * vᵀ) j i := by
    intro i j
    rw [← Matrix.transpose_apply (v * vᵀ) j i, transpose_mul, transpose_transpose]
  ext i j
  rw [submatrix_apply, Mat.toMatrix_apply, ofFactor]
  refine (symmetric_arrange horder _ l i j).trans ?_
  rcases le_total i j with hij | hji
  · exact hupper i j hij
  · rw [between_comm, hsymm]
    exact hupper j i hji

/-! ### The numerical rank -/

/-- The rank is at most the number of columns. -/
theorem numericalRank_le {α : Type} [Scalar α] (r : Mat α n n) (tol : α) :
    numericalRank r tol ≤ n := by
  cases n with
  | zero => exact le_rfl
  | succ n =>
    rw [numericalRank]
    exact List.findIdx_le_length.trans_eq (Vec.length_toList _)

/-- A diagonal entry before the position of the numerical rank is large. -/
theorem lt_of_lt_numericalRank {r : Mat ℝ n n} {tol : ℝ} {first k : Fin n} (hfirst : first.val = 0)
    (hk : k.val < numericalRank r tol) : tol * |r first first| < |r k k| := by
  cases n with
  | zero => exact k.elim0
  | succ n =>
    obtain rfl : first = 0 := Fin.ext hfirst
    have hnot := List.not_of_lt_findIdx hk
    rw [Vec.getElem_toList, Mat.diagonal_apply, decide_eq_false_iff_not, not_le] at hnot
    exact hnot

/-- The diagonal entry at the position of the numerical rank is small. -/
theorem le_of_eq_numericalRank {r : Mat ℝ n n} {tol : ℝ} {first k : Fin n} (hfirst : first.val = 0)
    (hk : k.val = numericalRank r tol) : |r k k| ≤ tol * |r first first| := by
  cases n with
  | zero => exact k.elim0
  | succ n =>
    obtain rfl : first = 0 := Fin.ext hfirst
    rw [numericalRank] at hk
    have hlt : k.val < r.diagonal.toList.length := by
      rw [Vec.length_toList]
      exact k.isLt
    have hfound := List.findIdx_getElem (w := hk ▸ hlt)
    simp only [← hk, Vec.getElem_toList, Mat.diagonal_apply, decide_eq_true_iff] at hfound
    exact hfound

/-- The diagonal entries that count for the numerical rank are not zero. -/
theorem ne_zero_of_lt_numericalRank {r : Mat ℝ n n} {tol : ℝ} (htol : 0 ≤ tol) {k : Fin n}
    (hk : k.val < numericalRank r tol) : r k k ≠ 0 := by
  have hlt : tol * |r ⟨0, k.pos⟩ ⟨0, k.pos⟩| < |r k k| := lt_of_lt_numericalRank rfl hk
  exact abs_pos.1 ((mul_nonneg htol (abs_nonneg _)).trans_lt hlt)

/-! ### Full rank -/

/-- With the tolerance zero, the numerical rank is the position of the first zero on the
diagonal. -/
theorem numericalRank_zero (r : Mat ℝ n n) : numericalRank r 0 = r.diagonal.firstZero := by
  cases n with
  | zero => exact (Nat.le_zero.1 (Vec.firstZero_le _)).symm
  | succ n =>
    have htest : (fun d : ℝ => decide (mag d ≤ 0 * mag (r 0 0))) = fun d => d == 0 := by
      funext d
      rw [Bool.eq_iff_iff, decide_eq_true_iff, Exact.beq_iff, Exact.mag_eq, zero_mul,
        abs_nonpos_iff]
    rw [numericalRank, Vec.firstZero, htest]

/-- The covariance of a factor of regular normal equations has full rank and is the inverse of
their matrix. -/
theorem ofFactor_eq_inv {eqs : NormalEquations n} {r : Mat ℝ n n} {order : Vec (Fin n) n}
    {b : Fin n → ℝ} (h : eqs.Factored r.upper order b) (hdet : eqs.matrix.det ≠ 0) :
    (ofFactor r order 0).rank = n ∧ (ofFactor r order 0).matrix.toMatrix = eqs.matrix⁻¹ := by
  have hfirst := h.firstZero_eq hdet
  have hdiag : ∀ j, r j j ≠ 0 := fun j => r.diagonal_apply j ▸ Vec.firstZero_eq_iff.1 hfirst j
  have hrank : numericalRank r 0 = n := (numericalRank_zero r).trans hfirst
  refine ⟨hrank, ?_⟩
  -- the inverse of the reordered matrix is the reordered inverse
  have hinv : r.upper⁻¹ * (r.upper⁻¹)ᵀ = eqs.matrix⁻¹.submatrix order.get order.get := by
    have hsub := inv_submatrix_equiv eqs.matrix (Equiv.ofBijective order.get h.bijective)
      (Equiv.ofBijective order.get h.bijective)
    rw [Equiv.coe_ofBijective] at hsub
    rw [← hsub, ← h.gram, Matrix.mul_inv_rev, transpose_nonsing_inv]
  have hmatrix := ofFactor_matrix r h.bijective.injective 0
  rw [hrank, leadingInverse_eq_inv hdiag, hinv] at hmatrix
  ext i j
  obtain ⟨i, rfl⟩ := h.bijective.surjective i
  obtain ⟨j, rfl⟩ := h.bijective.surjective j
  exact congrFun (congrFun hmatrix i) j

end Covariance

end NonlinearSolve

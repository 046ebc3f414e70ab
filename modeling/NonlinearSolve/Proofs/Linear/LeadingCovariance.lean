import NonlinearSolve.Proofs.Checked.Covariance

/-! # The covariance of a leading block

Whatever the numbers are, a covariance is symmetric entry by entry (`ofFactor_symm`), and the
unknowns beyond the numerical rank have none (`ofFactor_eq_zero`). In exact arithmetic the rest of
it is the inverse of `Rₗᵀ Rₗ` for the leading block `Rₗ` of the factor
(`leading_ofFactor_mul_gram`). `ofFactor_inverts_leading` puts this together. -/

namespace NonlinearSolve

open Matrix Scalar

variable {n : Nat}

/-- If only the first `l` columns of the left factor are not zero, a product is one of leading
parts. -/
theorem submatrix_mul_of_leading {m k p q l : Nat} (hl : l ≤ n) {a : Matrix (Fin m) (Fin n) ℝ}
    (ha : ∀ i j, l ≤ j.val → a i j = 0) (b : Matrix (Fin n) (Fin k) ℝ) (e : Fin p → Fin m)
    (f : Fin q → Fin k) :
    (a * b).submatrix e f =
      a.submatrix e (Fin.castLE hl) * b.submatrix (Fin.castLE hl) f := by
  ext i j
  rw [submatrix_apply, mul_apply, mul_apply]
  refine (Fintype.sum_of_injective (Fin.castLE hl) (Fin.castLE_injective hl) _ _ ?_ ?_).symm
  · intro k hk
    have hge : l ≤ k.val := by
      by_contra hlt
      exact hk ⟨⟨k, Nat.not_le.1 hlt⟩, rfl⟩
    rw [ha _ k hge, zero_mul]
  · intro k
    rfl

namespace Covariance

/-! ### Any arithmetic -/

section Arithmetic

variable {α : Type} [Scalar α] (r : Mat α n n) {order : Vec (Fin n) n} (tol : α)

/-- A covariance is symmetric. -/
theorem ofFactor_symm (order : Vec (Fin n) n) (i j : Fin n) :
    (ofFactor r order tol).matrix i j = (ofFactor r order tol).matrix j i :=
  Arranged.symmetric_comm _ i j

/-- The unknowns beyond the numerical rank have the covariance zero. -/
theorem ofFactor_eq_zero (horder : Function.Bijective order.get) {j : Fin n}
    (hj : (ofFactor r order tol).rank ≤ j.val) (i : Fin n) :
    (ofFactor r order tol).matrix i (order j) = 0 := by
  obtain ⟨i, rfl⟩ := horder.surjective i
  exact (symmetric_arrange horder.injective _ _ i j).trans (between_eq_zero _ i hj)

end Arithmetic

/-! ### Exact arithmetic -/

variable (r : Mat ℝ n n) {order : Vec (Fin n) n} {tol : ℝ}

/-- The leading block of the inverse is the inverse of the leading block. -/
theorem leadingInverse_mul_leading {l : Nat} (hl : l ≤ n)
    (hdiag : ∀ j : Fin n, j.val < l → r j j ≠ 0) :
    (leadingInverse r l).submatrix (Fin.castLE hl) (Fin.castLE hl) *
      r.upper.submatrix (Fin.castLE hl) (Fin.castLE hl) = 1 := by
  rw [← submatrix_mul_of_leading hl fun i _ hj => leadingInverse_of_ge r i hj]
  ext i k
  rw [submatrix_apply, leadingInverse_mul_upper r hdiag _ k.isLt, one_apply]
  exact if_congr Fin.castLE_inj rfl rfl

/-- In the order of the factor the leading block of a covariance is the inverse of the Gram matrix
of the leading block of the factor. -/
theorem leading_ofFactor_mul_gram (horder : Function.Bijective order.get) (htol : 0 ≤ tol) :
    let leading : Fin (ofFactor r order tol).rank → Fin n := Fin.castLE (numericalRank_le r tol)
    let R := r.upper.submatrix leading leading
    (ofFactor r order tol).matrix.toMatrix.submatrix (order.get ∘ leading) (order.get ∘ leading) *
      (Rᵀ * R) = 1 := by
  intro leading R
  set V := (leadingInverse r (numericalRank r tol)).submatrix leading leading
  have hVR : V * R = 1 := leadingInverse_mul_leading r (numericalRank_le r tol)
    fun k hk => ne_zero_of_lt_numericalRank htol hk
  have hRV : R * V = 1 := mul_eq_one_comm.1 hVR
  have hblock : (ofFactor r order tol).matrix.toMatrix.submatrix (order.get ∘ leading)
      (order.get ∘ leading) = V * Vᵀ := by
    rw [← submatrix_submatrix, ofFactor_matrix r horder.injective,
      submatrix_mul_of_leading (numericalRank_le r tol)
        fun i _ hj => leadingInverse_of_ge r i hj]
    rfl
  calc _ = V * (Vᵀ * Rᵀ) * R := by rw [hblock]; simp only [Matrix.mul_assoc]
    _ = V * R := by rw [← transpose_mul, hRV, transpose_one, Matrix.mul_one]
    _ = 1 := hVR

/-- Whatever the numbers are, a covariance is symmetric, and the unknowns beyond its rank have the
covariance zero. In exact arithmetic its rank is the position of the first diagonal entry of the
factor whose magnitude is at most `tol` times that of the first one, nothing is divided by zero, and
in the order of the factor its leading block is the inverse of `Rᵀ R` for the leading block `R` of
the factor. -/
theorem ofFactor_inverts_leading :
    (∀ {α : Type} [Scalar α] (r : Mat α n n) (order : Vec (Fin n) n) (tol : α),
      Function.Bijective order.get →
      let c := ofFactor r order tol
      (∀ i j, c.matrix i j = c.matrix j i) ∧
      ∀ i j : Fin n, c.rank ≤ j.val → c.matrix i (order j) = 0 ∧ c.matrix (order j) i = 0) ∧
    ∀ (r : Mat ℝ n n) (order : Vec (Fin n) n) (tol : ℝ),
      Function.Bijective order.get → 0 ≤ tol →
      let c := ofFactor r order tol
      (∀ first : Fin n, first.val = 0 →
        (∀ k : Fin n, k.val < c.rank → tol * |r first first| < |r k k|) ∧
        ∀ k : Fin n, k.val = c.rank → |r k k| ≤ tol * |r first first|) ∧
      ofFactor? r order tol = some c ∧
      ∃ hrank : c.rank ≤ n,
        let leading : Fin c.rank → Fin n := Fin.castLE hrank
        let R := r.upper.submatrix leading leading
        let C := c.matrix.toMatrix.submatrix (order.get ∘ leading) (order.get ∘ leading)
        C * (Rᵀ * R) = 1 ∧ (Rᵀ * R) * C = 1 := by
  refine ⟨?_, ?_⟩
  · intro α _ r order tol horder c
    refine ⟨fun i j => ofFactor_symm r tol order i j, ?_⟩
    intro i j hj
    have hzero := ofFactor_eq_zero r tol horder hj i
    exact ⟨hzero, (ofFactor_symm r tol order _ _).trans hzero⟩
  · intro r order tol horder htol c
    have hleft := leading_ofFactor_mul_gram r horder htol
    refine ⟨?_, ofFactor?_eq htol order, numericalRank_le r tol, hleft, mul_eq_one_comm.1 hleft⟩
    intro first hfirst
    exact ⟨fun k hk => lt_of_lt_numericalRank hfirst hk,
      fun k hk => le_of_eq_numericalRank hfirst hk⟩

/-- A factor whose second row is zero, for unknowns in reversed order: the rank is one, and the
first unknown has the covariance zero. -/
theorem ofFactor_inverts_leading_singular :
    let r : Mat ℝ 2 2 := Mat.of !![2, 1; 0, 0]
    let order : Vec (Fin 2) 2 := Vec.of ![1, 0]
    Function.Bijective order.get ∧ (0 : ℝ) ≤ 0 ∧ (ofFactor r order 0).rank = 1 ∧
      ∀ i, (ofFactor r order 0).matrix i 0 = 0 := by
  intro r order
  have hbij : Function.Bijective order.get := by
    rw [Vec.get_of]
    decide
  have hentry : ∀ i j, r i j = !![2, 1; 0, 0] i j := Mat.of_apply _
  obtain ⟨hany, hexact⟩ := ofFactor_inverts_leading (n := 2)
  obtain ⟨hrank, -⟩ := hexact r order 0 hbij le_rfl
  obtain ⟨hlarge, hsmall⟩ := hrank 0 rfl
  simp only [zero_mul, abs_nonpos_iff, abs_pos, hentry] at hlarge hsmall
  have hone : (ofFactor r order 0).rank = 1 := by
    have hfirst : (ofFactor r order 0).rank ≠ 0 := fun h => two_ne_zero (hsmall 0 h.symm)
    have hsecond : ¬ 1 < (ofFactor r order 0).rank := fun h => hlarge 1 h rfl
    omega
  have horder : order 1 = 0 := Vec.of_apply _ _
  refine ⟨hbij, le_rfl, hone, ?_⟩
  intro i
  exact horder ▸ ((hany r order 0 hbij).2 i 1 hone.le).1

end Covariance

end NonlinearSolve

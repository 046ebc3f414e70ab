import NonlinearSolve.Proofs.Drivers.LastJacobian
import NonlinearSolve.Proofs.LeastSquares.Soundness
import NonlinearSolve.Proofs.Linear.RowSequences

/-! # The factorization of a Jacobian by rows

A linearization by rows is completed whenever all rows can be computed, since folding them in is
folding in the rows of the gathered Jacobian (`foldRows_of_gather`). It then holds a triangular
factor of the Jacobian, with its columns in the order it reports, the transformed residuals, and the
norms of the columns. If the factor is singular it has been factored once more, so that there is
nothing from the first zero on its diagonal on (`completes_rowwise`). Together with what is known of
sequences of rows this is `folded_rows_factor_jacobian`. -/

namespace NonlinearSolve

open Matrix Scalar

variable {σ : Type} {m n : Nat}

namespace LeastSquares

/-! ### Gathered rows -/

section Gathered

variable {p : RowProblem σ ℝ m n} {x : Vec ℝ n} {rows : List (Fin m)} {a a' : Mat ℝ m n}
  {s : σ}

/-- If rows can be gathered, then folding them in is folding in the rows of the matrix that is
gathered. -/
theorem foldRows_of_gather (hrows : rows.Nodup) (hgather : (p.gather x rows a s).1 = .ok a')
    (f : Vec ℝ m) (r : Mat ℝ n n) (b : Vec ℝ n) :
    foldRows p x f rows r b s =
      (.ok (), (foldEquations r b (rows.map fun i => (a'.row i, f i))).1,
        (foldEquations r b (rows.map fun i => (a'.row i, f i))).2.1, (p.gather x rows a s).2) := by
  induction rows generalizing r b a s with
  | nil => rfl
  | cons i rows ih =>
    obtain ⟨hi, hrows⟩ := List.nodup_cons.1 hrows
    rw [RowProblem.gather] at hgather ⊢
    rw [foldRows]
    rcases hrow : p.jacobianRow x i s with ⟨e | w, s'⟩
    · rw [hrow] at hgather
      cases hgather
    · rw [hrow] at hgather
      -- no later row overwrites this one
      have hw : a'.row i = w := by
        ext j
        have hkept := congrFun (gather_row_of_notMem hgather hi) j
        exact (a'.row_apply i j).trans (hkept.trans ((a.setRow_apply i i w j).trans (if_pos rfl)))
      rw [List.map_cons, hw, foldEquations_cons]
      exact ih hrows hgather _ _

end Gathered

/-! ### Completed linearizations -/

/-- The state holds a factorization of the Jacobian `a`, with the residuals `f`: its triangular
factor belongs to the columns in the order of the state, and from a zero on the diagonal on it has
no rows but zeros. -/
structure State.Triangularizes (st : State ℝ m n n) (a : Mat ℝ m n) (f : Vec ℝ m) : Prop where
  bijective : Function.Bijective st.order.get
  gram : (st.factor.upper)ᵀ * st.factor.upper =
    st.order.permutationᵀ * a.toMatrixᵀ * a.toMatrix * st.order.permutation
  gradient : (st.factor.upper)ᵀ *ᵥ st.rhs.get = st.order.permutationᵀ *ᵥ (a.toMatrixᵀ *ᵥ f.get)
  row_eq_zero (j : Fin n) : st.factor.upper j j = 0 → ∀ i, j ≤ i → st.factor.upper i = 0

/-- The factor of a state is its own leading block. -/
theorem State.leading_factor (st : State ℝ m n n) : st.factor.leading le_rfl = st.factor :=
  Mat.ext fun i j => Mat.leading_apply le_rfl st.factor i j

/-- The factors of a Jacobian whose triangle is tapered are a factorization of it. -/
theorem State.Factors.triangularizes {st : State ℝ m n n} {a : Mat ℝ m n} {f : Vec ℝ m}
    (hst : st.Factors le_rfl a f) (htapered : (st.factor.leading le_rfl).Tapered) :
    st.Triangularizes a f := by
  rw [State.Factors, st.leading_factor] at hst
  rw [st.leading_factor] at htapered
  refine ⟨hst.bijective, ?_, ?_, ?_⟩
  · rw [hst.gram, Vec.mul_permutation, Matrix.mul_assoc, Vec.permutation_transpose_mul,
      submatrix_submatrix]
    rfl
  · rw [hst.gradient, Vec.permutation_transpose_mulVec]
    rfl
  · intro j hzero i hji
    rw [st.factor.upper_of_le le_rfl] at hzero
    -- the first zero of the diagonal is not after this one
    have hfirst : st.factor.diagonal.firstZero ≤ j.val :=
      Nat.le_of_not_lt fun hlt => Mat.ne_zero_of_lt_firstZero hlt hzero
    funext l
    rcases le_or_gt i l with hil | hli
    · rw [st.factor.upper_of_le hil]
      exact htapered i l (hfirst.trans hji) hil
    · exact st.factor.upper_of_lt hli

variable (ε τ : ℝ) (z : Bool)

/-- If all rows can be computed, then the linearization is completed, with the norms of the columns
and a factorization of the Jacobian. -/
theorem completes_rowwise (p : RowProblem σ ℝ m n) {st : State ℝ m n n} {s : σ} {a : Mat ℝ m n}
    (hjac : rowwiseJacobian p st s = .ok a) :
    (rowwise (Numerics.exact ε τ z) p st s).1 = .ok (columnNorms (Numerics.exact ε τ z) a) ∧
      (rowwise (Numerics.exact ε τ z) p st s).2.1.Triangularizes a st.residuals := by
  have hfold := foldRows_of_gather (List.nodup_finRange m) hjac st.residuals (Mat.zero n n)
    (Vec.zero n)
  obtain ⟨norms, hok⟩ : ∃ norms, (rowwise (Numerics.exact ε τ z) p st s).1 = .ok norms := by
    rw [rowwise, hfold]
    exact ⟨_, rfl⟩
  obtain ⟨a', st', hjac', htri, heq, hnorms, -⟩ := rowwise_completed ε τ z p hok
  obtain ⟨a'', hjac'', hfactors⟩ := factors_rowwise ε τ z p st s norms hok
  obtain rfl : a = a' := Except.ok.inj (hjac.symm.trans hjac')
  obtain rfl : a = a'' := Except.ok.inj (hjac.symm.trans hjac'')
  refine ⟨?_, hfactors.triangularizes ((tapers_rowwise ε τ z p).tapered st s norms hok)⟩
  rw [hok, hnorms, settle_norms htri (congrArg NormalEquations.matrix heq).symm]

end LeastSquares

open LeastSquares

/-- In exact arithmetic, folding a sequence of rows into a triangular system, whatever is stored
below the diagonal, adds their products to the normal equations, keeps the sum of the squares of all
right hand sides, and neither writes nor reads anything below the diagonal. If a linearization by
rows gets all rows, then it is completed; it returns the norms of the columns of the Jacobian, and
leaves a triangular factor of the Jacobian, which need not have full rank, with the columns in the
order it reports, and the transformed residuals. From a zero on its diagonal on the factor has no
rows but zeros. -/
theorem folded_rows_factor_jacobian (ε τ : ℝ) (z : Bool) :
    (∀ {n : Nat} (r : Mat ℝ n n) (b : Vec ℝ n) (rows : List (Vec ℝ n × ℝ)),
      let r' := (foldEquations r b rows).1
      let b' := (foldEquations r b rows).2.1
      let residues := (foldEquations r b rows).2.2
      r'.upperᵀ * r'.upper =
          r.upperᵀ * r.upper + (rows.map fun e => vecMulVec e.1.get e.1.get).sum ∧
        r'.upperᵀ *ᵥ b'.get = r.upperᵀ *ᵥ b.get + (rows.map fun e => e.2 • e.1.get).sum ∧
        b'.get ⬝ᵥ b'.get + (residues.map (· ^ 2)).sum =
          b.get ⬝ᵥ b.get + (rows.map fun e => e.2 ^ 2).sum ∧
        residues.length = rows.length ∧
        (∀ i j : Fin n, j < i → r' i j = r i j) ∧
        ∀ r₀ : Mat ℝ n n, r.SameUpper r₀ → r'.SameUpper (foldEquations r₀ b rows).1 ∧
          (foldEquations r₀ b rows).2 = (b', residues)) ∧
    ∀ {σ : Type} {m n : Nat} (p : RowProblem σ ℝ m n) (st : State ℝ m n n) (s : σ) (a : Mat ℝ m n),
      rowwiseJacobian p st s = .ok a → ∃ norms : Vec ℝ n,
        let nm := Numerics.exact ε τ z
        let out := (rowwise nm p st s).2.1
        let r := out.factor.upper
        let P := out.order.permutation
        (rowwise nm p st s).1 = .ok norms ∧ (∀ j, norms j = √(∑ i, a i j ^ 2)) ∧
          Function.Bijective out.order.get ∧ rᵀ * r = Pᵀ * a.toMatrixᵀ * a.toMatrix * P ∧
          rᵀ *ᵥ out.rhs.get = Pᵀ *ᵥ (a.toMatrixᵀ *ᵥ st.residuals.get) ∧
          ∀ j, r j j = 0 → ∀ i, j ≤ i → r i = 0 := by
  refine ⟨?_, ?_⟩
  · intro n r b rows r' b' residues
    obtain ⟨hgram, hgradient⟩ := foldEquations_gram_gradient r b rows
    refine ⟨hgram, hgradient, foldEquations_squares r b rows, foldEquations_length r b rows,
      fun i j => foldEquations_r_of_lt r b rows, ?_⟩
    intro r₀ hr₀
    obtain ⟨hupper, hrest⟩ := foldEquations_reads_upper hr₀ b rows
    exact ⟨hupper, hrest.symm⟩
  · intro σ m n p st s a hjac
    obtain ⟨hok, hout⟩ := completes_rowwise ε τ z p hjac
    refine ⟨columnNorms (Numerics.exact ε τ z) a, hok, ?_, hout.bijective, hout.gram,
      hout.gradient, hout.row_eq_zero⟩
    intro j
    rw [columnNorms, Vec.of_apply, Numerics.vecNorm_exact]
    rfl

/-- The Jacobian of `sumTwiceByRows` has rank one, so its factor has a last row of zeros. Both of
its columns have the norm `√2`. -/
theorem folded_rows_factor_jacobian_sumTwiceByRows :
    let nm := Numerics.exact 1 1 false
    let st : State ℝ 2 2 2 :=
      .ofIterate (.start (Config.default nm).toSettings (Vec.const 2 1))
    rowwiseJacobian sumTwiceByRows st () = .ok (Mat.of fun _ _ => 1) ∧
      (rowwise nm sumTwiceByRows st ()).1 = .ok (Vec.const 2 √2) ∧
      (rowwise nm sumTwiceByRows st ()).2.1.factor.upper 1 = 0 := by
  intro nm st
  have hjac := rowwiseJacobian_sumTwiceByRows st ()
  obtain ⟨-, hrows⟩ := folded_rows_factor_jacobian 1 1 false
  obtain ⟨norms, hok, hnorms, -, hgram, -, hzero⟩ := hrows sumTwiceByRows st () _ hjac
  set r := (rowwise nm sumTwiceByRows st ()).2.1.factor.upper
  refine ⟨hjac, ?_, ?_⟩
  · rw [hok]
    congr 1
    ext j
    rw [hnorms, Vec.const_apply]
    simp
  · -- the determinant of the Jacobian is zero, so there is a zero on the diagonal of the factor
    have hones : (Mat.of fun _ _ => 1 : Mat ℝ 2 2).toMatrix.det = 0 := by
      rw [Matrix.det_fin_two]
      simp
    have hdet : r.det = 0 := by
      have hsq := congrArg Matrix.det hgram
      rw [det_mul, det_mul, det_mul, det_transpose, hones, mul_zero, zero_mul] at hsq
      exact mul_self_eq_zero.1 hsq
    obtain ⟨j, hj⟩ : ∃ j, r j j = 0 := by
      by_contra hne
      exact NormalEquations.det_ne_zero_of_triangular (NormalEquations.isUpperTriangular_upper _)
        (fun j hj => hne ⟨j, hj⟩) hdet
    exact hzero j hj 1 (Fin.le_last j)

end NonlinearSolve

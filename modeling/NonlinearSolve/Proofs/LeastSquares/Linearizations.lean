import Mathlib.Analysis.SpecialFunctions.Sqrt
import NonlinearSolve.LeastSquares.Linearization
import NonlinearSolve.Proofs.Linear.Pivoting
import NonlinearSolve.Proofs.Linear.RowFolding
import NonlinearSolve.Proofs.Linear.Substitution

/-! # Two linearizations of one problem

The Jacobian can be factored as a whole, or its rows can be folded into a triangle one after the
other. In exact arithmetic both linearizations factor the same normal equations with the same basis,
also if the Jacobian is rank deficient (`sameEquations_settle`); they report the same norms of the
columns (`rowwise_of_ok`). -/

namespace NonlinearSolve

open Matrix Scalar Householder

variable {σ : Type} {m n : Nat}

/-! ### The leading rows -/

/-- If the entries from `n` on are zero, then the first `n` entries have the same sum. -/
theorem Exact.sum_castLE (h : n ≤ m) {f : Fin m → ℝ} (hf : ∀ i : Fin m, n ≤ i.val → f i = 0) :
    ∑ i, f i = ∑ i : Fin n, f (i.castLE h) := by
  obtain ⟨d, rfl⟩ := Nat.exists_eq_add_of_le h
  have hrest : ∑ i : Fin d, f (Fin.natAdd n i) = 0 :=
    Finset.sum_eq_zero fun i _ => hf _ (Nat.le_add_right n i)
  rw [Fin.sum_univ_add, hrest, add_zero]
  rfl

section Factors

variable {a : Mat ℝ m n} {qr : QR ℝ m n}

/-- The leading rows of the triangular factor. -/
theorem QR.leading_upper (qr : QR ℝ m n) (h : n ≤ m) (i j : Fin n) :
    ((qr.a.withDiagonal qr.rdiag).leading h).upper i j = qr.triangle (i.castLE h) j := by
  rw [Mat.upper, QR.triangle, Matrix.of_apply, Matrix.of_apply, Mat.leading_apply,
    Mat.withDiagonal_apply]
  simp only [Fin.val_castLE, Fin.le_def]
  rcases lt_trichotomy i.val j.val with hlt | heq | hgt
  · rw [if_pos hlt.le, if_neg hlt.ne, if_pos hlt]
  · rw [if_pos heq.le, if_pos heq, if_neg heq.not_lt, if_pos heq]
  · rw [if_neg hgt.not_ge, if_neg hgt.not_gt, if_neg hgt.ne']

/-- The rows below the leading ones add nothing to the products with the triangular factor. -/
theorem QR.leading_transpose_mulVec (qr : QR ℝ m n) (h : n ≤ m) (v : Fin m → ℝ) :
    (((qr.a.withDiagonal qr.rdiag).leading h).upper)ᵀ *ᵥ (fun i => v (i.castLE h)) =
      qr.triangleᵀ *ᵥ v := by
  have hbelow : ∀ (r : Fin m) (j : Fin n), n ≤ r.val → qr.triangle r j = 0 := by
    intro r j hr
    rw [QR.triangle, Matrix.of_apply, if_neg (by omega), if_neg (by omega)]
  funext j
  change ∑ i, ((qr.a.withDiagonal qr.rdiag).leading h).upper i j * v (i.castLE h) =
    ∑ r, qr.triangle r j * v r
  simp only [QR.leading_upper]
  have hzero : ∀ r : Fin m, n ≤ r.val → qr.triangle r j * v r = 0 := by
    intro r hr
    rw [hbelow r j hr, zero_mul]
  exact (Exact.sum_castLE h hzero).symm

/-- A factored matrix factors its normal equations. -/
theorem QR.Factors.factored (hq : QR.Factors a qr) (h : n ≤ m) (f : Vec ℝ m) :
    (NormalEquations.ofProblem a.toMatrix f.get).Factored
      ((qr.a.withDiagonal qr.rdiag).leading h).upper qr.order
      ((applyTranspose qr.a f).leading h).get := by
  set u := ((qr.a.withDiagonal qr.rdiag).leading h).upper with hu
  -- the orthogonal factor cancels from both sides of the normal equations
  have hsub : (product qr.a n * qr.triangle)ᵀ * product qr.a n = qr.triangleᵀ := by
    rw [transpose_mul, Matrix.mul_assoc, hq.orthogonal, Matrix.mul_one]
  refine ⟨hq.bijective, NormalEquations.isUpperTriangular_upper _, ?_, ?_⟩
  · have hgram : uᵀ * u = qr.triangleᵀ * qr.triangle := by
      ext j l
      have hcol := congrFun (qr.leading_transpose_mulVec h fun r => qr.triangle r l) j
      simp only [← QR.leading_upper] at hcol
      exact hcol
    have hsame : (product qr.a n * qr.triangle)ᵀ * (product qr.a n * qr.triangle) =
        qr.triangleᵀ * qr.triangle := by
      rw [← Matrix.mul_assoc, hsub]
    rw [hgram, ← hsame, ← hq.eq]
    rfl
  · have hrhs : ((applyTranspose qr.a f).leading h).get =
        fun i : Fin n => ((product qr.a n)ᵀ *ᵥ f.get) (i.castLE h) := by
      funext i
      rw [Vec.leading_apply, ← applyTranspose_eq_mulVec]
    have hsame : qr.triangleᵀ * (product qr.a n)ᵀ = (product qr.a n * qr.triangle)ᵀ :=
      (transpose_mul _ _).symm
    rw [hrhs, hu, qr.leading_transpose_mulVec h, mulVec_mulVec, hsame, ← hq.eq]
    rfl

end Factors

/-! ### Folding in all rows -/

namespace NormalEquations

/-- A problem without rows has the equations `0 = 0`. -/
theorem ofProblem_zero : ofProblem (0 : Matrix (Fin m) (Fin n) ℝ) 0 = ⟨0, 0⟩ := by
  rw [ofProblem, Matrix.mul_zero, mulVec_zero]

/-- All rows of a problem together make up its normal equations. -/
theorem foldl_addRow_finRange (a : Matrix (Fin m) (Fin n) ℝ) (f : Fin m → ℝ) :
    (List.finRange m).foldl (fun eqs i => eqs.addRow (a.row i) (f i)) ⟨0, 0⟩ = ofProblem a f := by
  rw [foldl_addRow, ← Fin.sum_univ_def, ← Fin.sum_univ_def, zero_add, zero_add, ofProblem]
  congr 1
  · ext i j
    rw [Matrix.sum_apply]
    rfl
  · funext j
    rw [Finset.sum_apply]
    refine Finset.sum_congr rfl ?_
    intro i _
    rw [Pi.smul_apply, smul_eq_mul, mul_comm]
    rfl

end NormalEquations

namespace LeastSquares

/-- The Jacobian is the same whether it is computed as a whole or row by row, and neither touches
the state of the callbacks. If it cannot be computed, then neither can its rows. -/
structure SameJacobian (p : JacobianProblem σ ℝ m n) (q : RowProblem σ ℝ m n)
    (jac : Vec ℝ n → Except Abort (Mat ℝ m n)) : Prop where
  jacobian (x : Vec ℝ n) (s : σ) : p.jacobian x s = (jac x, s)
  row (x : Vec ℝ n) (i : Fin m) (s : σ) : q.jacobianRow x i s = ((jac x).map (·.row i), s)

variable {p : JacobianProblem σ ℝ m n} {q : RowProblem σ ℝ m n}
  {jac : Vec ℝ n → Except Abort (Mat ℝ m n)} {x : Vec ℝ n}

/-- Folding in rows adds them to the normal equations. -/
theorem foldRows_of_ok (h : SameJacobian p q jac) {a : Mat ℝ m n} (hjac : jac x = .ok a)
    (f : Vec ℝ m) (rows : List (Fin m)) {r : Mat ℝ n n} (hr : r.toMatrix.IsUpperTriangular)
    (b : Vec ℝ n) (s : σ) :
    ∃ r' b', foldRows q x f rows r b s = (.ok (), r', b', s) ∧ r'.toMatrix.IsUpperTriangular ∧
      NormalEquations.ofProblem r'.toMatrix b'.get =
        rows.foldl (fun eqs i => eqs.addRow (a.toMatrix.row i) (f i))
          (NormalEquations.ofProblem r.toMatrix b.get) := by
  induction rows generalizing r b with
  | nil => exact ⟨r, b, rfl, hr, rfl⟩
  | cons i rows ih =>
    -- the triangle stays one after the first row, so the other rows can follow
    obtain ⟨htri, heq⟩ := equations_rowUpdate hr (a.row i) b (f i)
    obtain ⟨r', b', hrows, htri', heq'⟩ := ih htri (rowUpdate r (a.row i) b (f i)).b
    have hrow : q.jacobianRow x i s = (.ok (a.row i), s) := by
      rw [h.row, hjac]
      rfl
    have hget : (a.row i).get = a.toMatrix.row i := funext fun j => a.row_apply i j
    refine ⟨r', b', ?_, htri', ?_⟩
    · simp only [foldRows, hrow]
      exact hrows
    · rw [heq', heq, hget, List.foldl_cons]

/-- Without a Jacobian there is no first row. -/
theorem foldRows_of_error (h : SameJacobian p q jac) {e : Abort} (hjac : jac x = .error e)
    (f : Vec ℝ m) (hm : 0 < m) (r : Mat ℝ n n) (b : Vec ℝ n) (s : σ) :
    foldRows q x f (List.finRange m) r b s = (.error e, r, b, s) := by
  obtain ⟨k, rfl⟩ := Nat.exists_eq_add_of_lt hm
  have hrow : q.jacobianRow x 0 s = (.error e, s) := by
    rw [h.row, hjac]
    rfl
  rw [List.finRange_succ]
  simp only [foldRows, hrow]

/-! ### The two linearizations -/

variable {r r' : Nat}

/-- The state with another factorization, everything else being the same. -/
def State.refactor (st : State ℝ m r n) (factor : Mat ℝ r' n) (order : Vec (Fin n) n)
    (rhs : Vec ℝ n) : State ℝ m r' n where
  toIterate := st.toIterate
  factor := factor
  order := order
  rhs := rhs
  cosine := st.cosine
  damping := st.damping
  fresh := st.fresh

/-- The factorizations in two states belong to the same normal equations and have the same basis. -/
def SameEquations (h : n ≤ r) (h' : n ≤ r') (st : State ℝ m r n) (st' : State ℝ m r' n) : Prop :=
  ∃ eqs : NormalEquations n,
    eqs.Factored (st.factor.leading h).upper st.order st.rhs.get ∧
    eqs.Factored (st'.factor.leading h').upper st'.order st'.rhs.get ∧
    basis st.order (st.factor.leading h).diagonal.firstZero =
      basis st'.order (st'.factor.leading h').diagonal.firstZero

/-- The norms of the columns of a matrix. -/
noncomputable def columnNorms (nm : Numerics ℝ) (a : Mat ℝ r n) : Vec ℝ n :=
  Vec.of fun j => nm.vecNorm (a.col j)

variable (ε τ : ℝ) (z : Bool)

/-- The norms of columns are not negative. -/
theorem columnNorms_nonneg (a : Mat ℝ r n) (j : Fin n) :
    0 ≤ columnNorms (Numerics.exact ε τ z) a j := by
  rw [columnNorms, Vec.of_apply]
  exact Numerics.vecNorm_exact_nonneg ε τ z _

/-- Columns with the same scalar products have the same norms. -/
theorem columnNorms_congr {a : Mat ℝ r n} {b : Mat ℝ r' n}
    (hab : a.toMatrixᵀ * a.toMatrix = b.toMatrixᵀ * b.toMatrix) :
    columnNorms (Numerics.exact ε τ z) a = columnNorms (Numerics.exact ε τ z) b := by
  have hnorm : ∀ {k : Nat} (c : Mat ℝ k n) (j : Fin n),
      columnNorms (Numerics.exact ε τ z) c j = √((c.toMatrixᵀ * c.toMatrix) j j) := by
    intro k c j
    rw [columnNorms, Vec.of_apply, Numerics.vecNorm_exact, Matrix.mul_apply]
    simp only [pow_two]
    rfl
  exact Vec.ext fun j => by rw [hnorm, hnorm, hab]

/-- The diagonal of the factor is that of the factorization. -/
theorem diagonal_withDiagonal (h : n ≤ r) (a : Mat ℝ r n) (d : Vec ℝ n) :
    ((a.withDiagonal d).leading h).diagonal = d := by
  refine Vec.ext ?_
  intro j
  rw [Mat.diagonal_apply, Mat.leading_apply, Mat.withDiagonal_apply]
  exact if_pos rfl

/-- The norms of the columns of a triangle, of which only the entries up to the diagonal are
read. -/
theorem columnNorms_triangle {a : Mat ℝ n n} (ha : a.toMatrix.IsUpperTriangular) :
    (Vec.of fun j => (Numerics.exact ε τ z).norm ((a.col j).toList.take (j + 1))) =
      columnNorms (Numerics.exact ε τ z) a := by
  refine Vec.ext ?_
  intro j
  rw [Vec.of_apply, columnNorms, Vec.of_apply, Numerics.norm_take_exact, Numerics.vecNorm_exact]
  congr 1
  refine Finset.sum_congr rfl ?_
  intro i _
  by_cases hij : i.val < j.val + 1
  · rw [if_pos hij]
  · -- below the diagonal there are zeros
    have hji : j < i := Fin.lt_def.2 (by omega)
    have hzero : a i j = 0 := ha hji
    rw [if_neg hij, Mat.col_apply, hzero, zero_pow two_ne_zero]

variable {ε τ z}

/-- A triangle without a zero on the diagonal is a factor in the given order. -/
theorem factored_triangle {a : Mat ℝ n n} (ha : a.toMatrix.IsUpperTriangular) (b : Vec ℝ n) :
    (NormalEquations.ofProblem a.toMatrix b.get).Factored (a.leading le_rfl).upper (Vec.identity n)
      b.get := by
  have hupper : (a.leading le_rfl).upper = a.toMatrix := by
    ext i j
    rcases le_or_gt i j with hij | hji
    · rw [Mat.upper_of_le _ hij, Mat.leading_apply]
      rfl
    · rw [Mat.upper_of_lt _ hji]
      exact (ha hji).symm
  have hid : (Vec.identity n).get = id := funext fun j => Vec.identity_apply j
  refine ⟨?_, ?_, ?_, ?_⟩
  · rw [hid]
    exact Function.bijective_id
  · rw [hupper]
    exact ha
  · rw [hupper, hid, submatrix_id_id]
    rfl
  · rw [hupper, hid, Function.comp_id]
    rfl

section Settle

variable (h : n ≤ m) (st : State ℝ m m n) (st' : State ℝ m n n) {a : Mat ℝ m n}
  (htri : st'.factor.toMatrix.IsUpperTriangular)
  (heq : NormalEquations.ofProblem st'.factor.toMatrix st'.rhs.get =
    NormalEquations.ofProblem a.toMatrix st.residuals.get)

include heq

/-- A singular triangle is factored with pivoting as well, in the same order as the Jacobian. -/
theorem sameEquations_settle_of_lt (hsingular : st'.factor.diagonal.firstZero < n) :
    SameEquations h le_rfl (st.factorize (Numerics.exact ε τ z) h a).2
      (st'.settle (Numerics.exact ε τ z)).2 := by
  set qr := QR.factor (Numerics.exact ε τ z) true a with hqr
  set qr' := QR.factor (Numerics.exact ε τ z) true st'.factor with hqr'
  have hdense := (QR.factor_factors ε τ z true a).factored h st.residuals
  have hrow := (QR.factor_factors ε τ z true st'.factor).factored le_rfl st'.rhs
  have hgram : a.toMatrixᵀ * a.toMatrix = st'.factor.toMatrixᵀ * st'.factor.toMatrix :=
    (congrArg NormalEquations.matrix heq).symm
  -- equal scalar products of the columns make the two factorizations go in lockstep
  obtain ⟨horder, hsq⟩ := QR.factor_lockstep ε τ z h le_rfl hgram
  have hrhs : (applyTranspose qr'.a st'.rhs).leading le_rfl = applyTranspose qr'.a st'.rhs :=
    Vec.ext fun i => Vec.leading_apply le_rfl _ i
  have hdiag : ((qr.a.withDiagonal qr.rdiag).leading h).diagonal = qr.rdiag :=
    diagonal_withDiagonal h qr.a qr.rdiag
  have hdiag' : ((qr'.a.withDiagonal qr'.rdiag).leading le_rfl).diagonal = qr'.rdiag :=
    diagonal_withDiagonal le_rfl qr'.a qr'.rdiag
  -- the diagonals differ in signs only, so they have their first zero at the same position
  have hrank : qr.rdiag.firstZero = qr'.rdiag.firstZero := by
    refine Vec.firstZero_congr ?_
    intro j
    rw [← pow_eq_zero_iff (two_ne_zero (α := ℕ)), hqr, hsq j, pow_eq_zero_iff two_ne_zero]
  rw [← hqr] at hdense
  rw [heq, ← hqr', hrhs] at hrow
  simp only [State.settle, if_pos hsingular, State.factorize]
  refine ⟨NormalEquations.ofProblem a.toMatrix st.residuals.get, hdense, hrow, ?_⟩
  rw [hdiag, hdiag', ← hqr, ← hqr', hrank, horder]

include htri

/-- A regular triangle is a factor as it is, and both bases have all unknowns. -/
theorem sameEquations_settle_of_le (hregular : ¬ st'.factor.diagonal.firstZero < n) :
    SameEquations h le_rfl (st.factorize (Numerics.exact ε τ z) h a).2
      (st'.settle (Numerics.exact ε τ z)).2 := by
  set qr := QR.factor (Numerics.exact ε τ z) true a with hqr
  have hdense := (QR.factor_factors ε τ z true a).factored h st.residuals
  have hrow := factored_triangle htri st'.rhs
  rw [← hqr] at hdense
  rw [heq] at hrow
  have hrank : st'.factor.diagonal.firstZero = n :=
    le_antisymm (Vec.firstZero_le _) (Nat.not_lt.1 hregular)
  have hleading : (st'.factor.leading le_rfl).diagonal = st'.factor.diagonal :=
    Vec.ext fun j => by rw [Mat.diagonal_apply, Mat.leading_apply, Mat.diagonal_apply]; rfl
  have hne : ∀ j, (st'.factor.leading le_rfl).upper j j ≠ 0 := by
    intro j
    have hj := Vec.firstZero_eq_iff.1 hrank j
    rw [← hleading, Mat.diagonal_apply] at hj
    rwa [Mat.upper_of_le _ le_rfl]
  -- with one factor regular, so is the other
  have hrank_dense : ((qr.a.withDiagonal qr.rdiag).leading h).diagonal.firstZero = n := by
    rw [Vec.firstZero_eq_iff]
    intro j
    have hj := hrow.diag_ne_zero hdense hne j
    rw [Mat.upper_of_le _ le_rfl] at hj
    rwa [Mat.diagonal_apply]
  simp only [State.settle, if_neg hregular, State.factorize]
  refine ⟨NormalEquations.ofProblem a.toMatrix st.residuals.get, hdense, hrow, ?_⟩
  rw [← hqr, hrank_dense, hleading, hrank, basis_univ hdense.bijective,
    basis_univ hrow.bijective]

/-- What the factorization of a triangle leaves belongs to the same normal equations as the
factorization of a Jacobian, if the triangle does. -/
theorem sameEquations_settle :
    SameEquations h le_rfl (st.factorize (Numerics.exact ε τ z) h a).2
      (st'.settle (Numerics.exact ε τ z)).2 := by
  by_cases hsingular : st'.factor.diagonal.firstZero < n
  · exact sameEquations_settle_of_lt h st st' heq hsingular
  · exact sameEquations_settle_of_le h st st' htri heq hsingular

end Settle

/-- Both report the norms of the columns of the Jacobian. -/
theorem settle_norms {st' : State ℝ m n n} {a : Mat ℝ m n}
    (htri : st'.factor.toMatrix.IsUpperTriangular)
    (hgram : a.toMatrixᵀ * a.toMatrix = st'.factor.toMatrixᵀ * st'.factor.toMatrix) :
    (st'.settle (Numerics.exact ε τ z)).1 = columnNorms (Numerics.exact ε τ z) a := by
  rw [columnNorms_congr ε τ z hgram]
  by_cases hsingular : st'.factor.diagonal.firstZero < n
  · simp only [State.settle, if_pos hsingular, QR.factor_colNorm]
    rfl
  · simp only [State.settle, if_neg hsingular]
    exact columnNorms_triangle ε τ z htri

/-! ### Linearizations of states -/

variable (ε τ z)

/-- A Jacobian that is computed is factored. -/
theorem analytic_of_eq {p : JacobianProblem σ ℝ m n} (h : n ≤ m) {st : State ℝ m m n}
    {a : Mat ℝ m n} {s s' : σ} (hcall : p.jacobian st.x s = (.ok a, s')) :
    analytic (Numerics.exact ε τ z) h p st s =
      (.ok (columnNorms (Numerics.exact ε τ z) a),
        (st.factorize (Numerics.exact ε τ z) h a).2, s') := by
  simp only [analytic, hcall, State.factorize, QR.factor_colNorm]
  rfl

omit ε τ z in
/-- A Jacobian that cannot be computed leaves the state alone. -/
theorem analytic_of_abort (nm : Numerics ℝ) {p : JacobianProblem σ ℝ m n} (h : n ≤ m)
    {st : State ℝ m m n} {e : Abort} {s s' : σ} (hcall : p.jacobian st.x s = (.error e, s')) :
    analytic nm h p st s = (.error e, st, s') := by
  simp only [analytic, hcall]

/-- What linearizing with the Jacobian of the problem comes to where that Jacobian is answered. -/
theorem analytic_of_ok (hp : SameJacobian p q jac) (h : n ≤ m) {st : State ℝ m m n} {a : Mat ℝ m n}
    (hjac : jac st.x = .ok a) (s : σ) :
    analytic (Numerics.exact ε τ z) h p st s =
      (.ok (columnNorms (Numerics.exact ε τ z) a),
        (st.factorize (Numerics.exact ε τ z) h a).2, s) := by
  refine analytic_of_eq ε τ z h ?_
  rw [hp.jacobian, hjac]

/-- Row by row, the same Jacobian yields the same norms and a state that is the same but for the
factorization, which belongs to the same normal equations. -/
theorem rowwise_of_ok (hp : SameJacobian p q jac) (h : n ≤ m) {st : State ℝ m m n} {a : Mat ℝ m n}
    (hjac : jac st.x = .ok a) (factor : Mat ℝ n n) (order : Vec (Fin n) n) (rhs : Vec ℝ n) (s : σ) :
    ∃ factor' order' rhs',
      rowwise (Numerics.exact ε τ z) q (st.refactor factor order rhs) s =
        (.ok (columnNorms (Numerics.exact ε τ z) a),
          (st.factorize (Numerics.exact ε τ z) h a).2.refactor factor' order' rhs', s) ∧
      SameEquations h le_rfl (st.factorize (Numerics.exact ε τ z) h a).2
        ((st.factorize (Numerics.exact ε τ z) h a).2.refactor factor' order' rhs') := by
  have hzero : (Mat.zero n n : Mat ℝ n n).toMatrix = 0 := by
    ext i j
    exact Mat.zero_apply i j
  have hvec : (Vec.zero n : Vec ℝ n).get = 0 := funext Vec.zero_apply
  have hstart : (Mat.zero n n : Mat ℝ n n).toMatrix.IsUpperTriangular := by
    rw [hzero]
    exact fun _ _ _ => rfl
  obtain ⟨r, b, hrows, htri, heq⟩ := foldRows_of_ok hp hjac st.residuals (List.finRange m) hstart
    (Vec.zero n) s
  rw [hzero, hvec, NormalEquations.ofProblem_zero, NormalEquations.foldl_addRow_finRange] at heq
  -- the state with the triangle, before it is factored if it is singular
  set st₀ : State ℝ m n n := { st.refactor factor order rhs with factor := r, rhs := b } with hst₀
  have hsettle : rowwise (Numerics.exact ε τ z) q (st.refactor factor order rhs) s =
      (.ok (st₀.settle (Numerics.exact ε τ z)).1, (st₀.settle (Numerics.exact ε τ z)).2, s) := by
    have hrows' : foldRows q (st.refactor factor order rhs).x
        (st.refactor factor order rhs).residuals (List.finRange m) (Mat.zero n n) (Vec.zero n) s =
        (.ok (), r, b, s) := hrows
    simp only [rowwise, hrows']
    rfl
  have hnorms : (st₀.settle (Numerics.exact ε τ z)).1 = columnNorms (Numerics.exact ε τ z) a :=
    settle_norms htri (congrArg NormalEquations.matrix heq).symm
  have hsame := sameEquations_settle (ε := ε) (τ := τ) (z := z) h st st₀ htri heq
  have hrefactor : (st₀.settle (Numerics.exact ε τ z)).2 =
      (st.factorize (Numerics.exact ε τ z) h a).2.refactor
        (st₀.settle (Numerics.exact ε τ z)).2.factor (st₀.settle (Numerics.exact ε τ z)).2.order
        (st₀.settle (Numerics.exact ε τ z)).2.rhs := by
    rw [State.settle]
    simp only
    split <;> rfl
  refine ⟨(st₀.settle (Numerics.exact ε τ z)).2.factor, (st₀.settle (Numerics.exact ε τ z)).2.order,
    (st₀.settle (Numerics.exact ε τ z)).2.rhs, ?_, ?_⟩
  · rw [hsettle, hnorms, ← hrefactor]
  · rw [← hrefactor]
    exact hsame

/-- Without a Jacobian both fail in the same way. -/
theorem linearize_of_error (hp : SameJacobian p q jac) (h : n ≤ m) (hm : 0 < m)
    {st : State ℝ m m n} {e : Abort} (hjac : jac st.x = .error e) (factor : Mat ℝ n n)
    (order : Vec (Fin n) n) (rhs : Vec ℝ n) (s : σ) :
    analytic (Numerics.exact ε τ z) h p st s = (.error e, st, s) ∧
      rowwise (Numerics.exact ε τ z) q (st.refactor factor order rhs) s =
        (.error e, st.refactor (Mat.zero n n) order (Vec.zero n), s) := by
  have hcall : p.jacobian st.x s = (.error e, s) := by rw [hp.jacobian, hjac]
  have hrows : foldRows q (st.refactor factor order rhs).x
      (st.refactor factor order rhs).residuals (List.finRange m) (Mat.zero n n) (Vec.zero n) s =
      (.error e, Mat.zero n n, Vec.zero n, s) :=
    foldRows_of_error hp hjac st.residuals hm _ _ s
  refine ⟨analytic_of_abort _ h hcall, ?_⟩
  simp only [rowwise, hrows]
  rfl

end LeastSquares

end NonlinearSolve

import NonlinearSolve.Proofs.TrustRegion.Steps

/-! # The parts of a solution belong together

Whatever way the search for the damping takes, the step, the damping and the factor it returns are
those of one system (`Subproblem.solve_consistent`): the step solves the normal equations with
the returned damping, and the returned triangular matrix is a factor of them. There is no damping
exactly if the Gauss-Newton step, the only basic solution (`Subproblem.basicSolution_iff`), is
short enough. -/

namespace NonlinearSolve

open Matrix Scalar NormalEquations

variable {n : Nat} {ε τ : ℝ} {z : Bool} {eqs : NormalEquations n} {sp : Subproblem ℝ n}

/-! ### Damping by a scaling -/

/-- Damping by a multiple of a scaling adds a multiple of its square. -/
theorem NormalEquations.matrix_damped_smul (eqs : NormalEquations n) {damping : ℝ}
    (h : 0 ≤ damping) (d : Vec ℝ n) :
    (eqs.damped (d.map (√damping * ·)).get).matrix =
      eqs.matrix + damping • diagonal d.get ^ 2 := by
  have hentries : (fun i => (d.map (√damping * ·)) i ^ 2) = damping • d.get ^ 2 := by
    funext i
    rw [Vec.map_apply, mul_pow, Real.sq_sqrt h]
    rfl
  rw [damped, hentries, diagonal_smul, diagonal_pow]

namespace Subproblem

/-- The normal equations that a subproblem is about. -/
def normalEquations (sp : Subproblem ℝ n) : NormalEquations n :=
  ofFactor sp.r.upper sp.order sp.rhs.get

/-- The factor of a subproblem factors its normal equations if its order has every unknown once. -/
theorem factored_normalEquations (h : Function.Bijective sp.order.get) :
    sp.normalEquations.Factored sp.r.upper sp.order sp.rhs.get :=
  factored_ofFactor (isUpperTriangular_upper sp.r) h sp.rhs.get

/-- The length of a vector of unknowns in the units of the scaling. -/
noncomputable def scaledLength (sp : Subproblem ℝ n) (x : Fin n → ℝ) : ℝ :=
  √(∑ i, (sp.scale i * x i) ^ 2)

/-- The scaled norm is the scaled length. -/
theorem scaledNorm_eq (sp : Subproblem ℝ n) (x : Vec ℝ n) :
    (Numerics.exact ε τ z).scaledNorm sp.scale x = sp.scaledLength x.get := by
  rw [Numerics.scaledNorm, Numerics.vecNorm_exact, scaledLength]
  simp only [Vec.diagMul_apply]

/-! ### The Gauss-Newton step -/

/-- A basic solution of the undamped problem: from the first zero on the diagonal of the factor on
its components are zero, and the rows of the triangular system before are satisfied. -/
structure BasicSolution (sp : Subproblem ℝ n) (x : Fin n → ℝ) : Prop where
  outside (j : Fin n) : sp.r.diagonal.firstZero ≤ j.val → x (sp.order j) = 0
  leading (j : Fin n) : j.val < sp.r.diagonal.firstZero →
    (sp.r.upper *ᵥ (x ∘ sp.order.get)) j = sp.rhs j

/-- There is one basic solution, the Gauss-Newton step. -/
theorem basicSolution_iff (h : Function.Bijective sp.order.get) (x : Fin n → ℝ) :
    BasicSolution sp x ↔ x = sp.gaussNewton.get := by
  have hfactored := factored_normalEquations h
  constructor
  · intro hx
    exact hfactored.solves_unique (fun j => upper_ne_zero_of_lt_rank)
      (hfactored.solves_of_leading hx.outside hx.leading) (solves_gaussNewton hfactored)
  · rintro rfl
    exact ⟨fun j => (mulVec_gaussNewton h j).1, fun j => (mulVec_gaussNewton h j).2⟩

/-- If the factor is tapered, the Gauss-Newton step solves all of the normal equations. -/
theorem mulVec_gaussNewton_of_tapered (h : eqs.Factored sp.r.upper sp.order sp.rhs.get)
    (ht : sp.r.Tapered) : eqs.matrix *ᵥ sp.gaussNewton.get = eqs.rhs := by
  have hcomp : (eqs.matrix *ᵥ sp.gaussNewton.get) ∘ sp.order.get = eqs.rhs ∘ sp.order.get := by
    rw [← h.transpose_mulVec, ← h.gradient]
    exact ht.transpose_mulVec_congr fun i => (mulVec_gaussNewton h.bijective i).2
  funext i
  obtain ⟨j, rfl⟩ := h.bijective.surjective i
  exact congrFun hcomp j

/-! ### Probes -/

section Probes

variable (h : eqs.Factored sp.r.upper sp.order sp.rhs.get) (hscale : ∀ i, 0 < sp.scale i)
  (hτ : 0 < τ) {b : Bracket ℝ} (hb : b.Nonneg)

include h hscale hτ hb

/-- A probe solves the normal equations with its damping. -/
theorem mulVec_probe :
    (eqs.matrix + (sp.probe (Numerics.exact ε τ z) b).damping • diagonal sp.scale.get ^ 2) *ᵥ
      (sp.probe (Numerics.exact ε τ z) b).solution.x.get = eqs.rhs := by
  have hpos := probe_damping_pos (ε := ε) (z := z) hτ sp hb
  rw [← eqs.matrix_damped_smul hpos.le, probe_solution]
  exact solves_dampedSolve h (Probe.diag_ne_zero hpos hscale)

omit hscale in
/-- A probe comes with a factor of the normal equations with its damping. -/
theorem gram_probe :
    (factor (sp.probe (Numerics.exact ε τ z) b).solution)ᵀ *
        factor (sp.probe (Numerics.exact ε τ z) b).solution =
      (eqs.matrix + (sp.probe (Numerics.exact ε τ z) b).damping •
        diagonal sp.scale.get ^ 2).submatrix sp.order.get sp.order.get := by
  have hpos := probe_damping_pos (ε := ε) (z := z) hτ sp hb
  rw [← eqs.matrix_damped_smul hpos.le]
  exact (h.dampedSolve _).gram

end Probes

/-- A solution solves the normal equations with its damping. -/
theorem mulVec_solve (h : eqs.Factored sp.r.upper sp.order sp.rhs.get) (ht : sp.r.Tapered)
    (hscale : ∀ i, 0 < sp.scale i) (hradius : 0 ≤ sp.radius) (hτ : 0 < τ) (estimate : ℝ) :
    (eqs.matrix + (sp.solve (Numerics.exact ε τ z) estimate).damping •
        diagonal sp.scale.get ^ 2) *ᵥ
      (sp.solve (Numerics.exact ε τ z) estimate).step.get = eqs.rhs := by
  obtain ⟨-, hsolve⟩ | ⟨hlong, last, -, hsolve⟩ := sp.solve_cases (Numerics.exact ε τ z) estimate
  · rw [hsolve, zero_smul, add_zero]
    exact mulVec_gaussNewton_of_tapered h ht
  · rw [hsolve]
    exact mulVec_probe h hscale hτ
      ((nonneg_firstBracket hτ hradius hlong estimate).trail sp _ last)

/-! ### The solution -/

/-- A damped step all parts of which belong to the subproblem and to its damping. The normal
equations are those with `N = P Rᵀ R Pᵀ` and `g = P Rᵀ b`. -/
structure Consistent (sp : Subproblem ℝ n) (d : DampedStep ℝ n) : Prop where
  /-- On and above the diagonal the factor is returned as it was. -/
  upper (i j : Fin n) : i ≤ j → d.r i j = sp.r i j
  damping_nonneg : 0 ≤ d.damping
  /-- The step solves `(N + λ D²) x = g`. -/
  solves : (sp.normalEquations.matrix + d.damping • diagonal sp.scale.get ^ 2) *ᵥ d.step.get =
    sp.normalEquations.rhs
  /-- There is no damping exactly if the only basic solution is short enough, and then it is the
  step. -/
  basic : ∃ y : Fin n → ℝ, (∀ x, BasicSolution sp x ↔ x = y) ∧
    (d.damping = 0 ↔ sp.scaledLength y ≤ 1.1 * sp.radius) ∧ (d.damping = 0 → d.step.get = y)
  /-- With damping, the returned `S` satisfies `Sᵀ S = Pᵀ (N + λ D²) P`. -/
  gram : 0 < d.damping →
    (factor { x := d.step, sdiag := d.sdiag, r := d.r })ᵀ *
        factor { x := d.step, sdiag := d.sdiag, r := d.r } =
      sp.order.permutationᵀ * (sp.normalEquations.matrix + d.damping • diagonal sp.scale.get ^ 2) *
        sp.order.permutation

/-- The Gauss-Newton step without damping, if it is short enough. -/
theorem consistent_gaussNewton (horder : Function.Bijective sp.order.get)
    (htapered : sp.r.Tapered) (hshort : sp.scaledLength sp.gaussNewton.get ≤ 1.1 * sp.radius) :
    Consistent sp { damping := 0, step := sp.gaussNewton, sdiag := Vec.zero n, r := sp.r } where
  upper i j _ := rfl
  damping_nonneg := le_rfl
  solves := by
    rw [zero_smul, add_zero]
    exact mulVec_gaussNewton_of_tapered (factored_normalEquations horder) htapered
  basic := ⟨sp.gaussNewton.get, basicSolution_iff horder, iff_of_true rfl hshort, fun _ => rfl⟩
  gram hpos := absurd hpos (lt_irrefl 0)

/-- A probe with a positive damping, if the Gauss-Newton step is too long. -/
theorem consistent_probe (horder : Function.Bijective sp.order.get) (hscale : ∀ i, 0 < sp.scale i)
    (hτ : 0 < τ) (hlong : 1.1 * sp.radius < sp.scaledLength sp.gaussNewton.get) {b : Bracket ℝ}
    (hb : b.Nonneg) : Consistent sp (sp.probe (Numerics.exact ε τ z) b).toDampedStep where
  upper i j hij := dampedSolve_r_of_le _ _ _ _ hij
  damping_nonneg := (probe_damping_pos hτ sp hb).le
  solves := mulVec_probe (factored_normalEquations horder) hscale hτ hb
  basic :=
    have hne : (sp.probe (Numerics.exact ε τ z) b).damping ≠ 0 := (probe_damping_pos hτ sp hb).ne'
    ⟨sp.gaussNewton.get, basicSolution_iff horder, iff_of_false hne hlong.not_ge,
      fun hzero => absurd hzero hne⟩
  gram _ := by
    rw [Vec.permutation_transpose_mul, Vec.mul_permutation, submatrix_submatrix]
    exact gram_probe (factored_normalEquations horder) hτ hb

/-- All parts of a solution belong together, however the search ends, if the factor is regular or
has nothing in the rows from the first zero on its diagonal on. -/
theorem solve_consistent (hτ : 0 < τ) (sp : Subproblem ℝ n)
    (horder : Function.Bijective sp.order.get) (htapered : sp.r.Tapered)
    (hscale : ∀ i, 0 < sp.scale i) (hradius : 0 < sp.radius) (estimate : ℝ) :
    Consistent sp (sp.solve (Numerics.exact ε τ z) estimate) := by
  have hlength := sp.scaledNorm_eq (ε := ε) (τ := τ) (z := z) sp.gaussNewton
  obtain ⟨hshort, hsolve⟩ | ⟨hlong, last, -, hsolve⟩ :=
    sp.solve_cases (Numerics.exact ε τ z) estimate
  · rw [hsolve]
    refine consistent_gaussNewton horder htapered ?_
    rw [← hlength]
    linarith
  · have hb := (nonneg_firstBracket hτ hradius.le hlong estimate).trail sp
      (Numerics.exact ε τ z) last
    rw [hsolve]
    refine consistent_probe horder hscale hτ ?_ hb
    rw [← hlength]
    linarith

/-- A singular factor, whose second row is zero. -/
theorem solve_consistent_singular :
    let sp : Subproblem ℝ 2 :=
      { r := Mat.of !![1, 2; 0, 0], order := Vec.of ![1, 0], scale := Vec.const 2 1
        rhs := Vec.of ![3, 4], radius := 1 }
    Function.Bijective sp.order.get ∧ sp.r.Tapered ∧ (∀ i, 0 < sp.scale i) ∧ 0 < sp.radius ∧
      Consistent sp (sp.solve (Numerics.exact 0 1 false) 0) := by
  intro sp
  have hbij : Function.Bijective sp.order.get := by
    rw [Vec.get_of]
    decide
  have hentry : ∀ i j, sp.r i j = !![1, 2; 0, 0] i j := Mat.of_apply _
  have htapered : sp.r.Tapered := by
    intro i j hi hij
    rw [hentry]
    fin_cases i
    · -- the first diagonal entry is not zero
      have hzero := Vec.eq_zero_of_eq_firstZero (v := sp.r.diagonal) (j := 0)
        (Nat.le_zero.1 hi).symm
      rw [Mat.diagonal_apply, hentry] at hzero
      exact absurd hzero one_ne_zero
    · fin_cases j <;> rfl
  have hscale : ∀ i, 0 < sp.scale i := by
    intro i
    rw [Vec.const_apply]
    exact one_pos
  exact ⟨hbij, htapered, hscale, one_pos,
    solve_consistent one_pos sp hbij htapered hscale one_pos 0⟩

end Subproblem

end NonlinearSolve

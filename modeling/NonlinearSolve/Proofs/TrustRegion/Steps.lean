import NonlinearSolve.Proofs.Linear.Tapering
import NonlinearSolve.Proofs.TrustRegion.Trail

/-! # Steps are not zero

As long as the gradient of the sum of squares is not zero, the solution of the trust region
subproblem is a step that leads somewhere (`Subproblem.Posed.solve_ne_zero`). For a damped step
this is seen from the normal equations. The Gauss-Newton step of a singular factor solves a part of
them only, and there it matters that the factor has nothing in the rows that are left out
(`Mat.Tapered`). -/

namespace NonlinearSolve

open Matrix Scalar NormalEquations

variable {n : Nat} {ε τ : ℝ} {z : Bool}

/-- The norm of a vector is zero only if the vector is. -/
theorem Numerics.vecNorm_pos {v : Vec ℝ n} (hv : v.get ≠ 0) : 0 < (exact ε τ z).vecNorm v := by
  rw [vecNorm_eq_sqrt_dot, Real.sqrt_pos]
  refine lt_of_le_of_ne (Finset.sum_nonneg fun i _ => mul_self_nonneg (v i)) ?_
  exact fun hzero => hv (dotProduct_self_eq_zero.1 hzero.symm)

/-- Scaling by positive factors takes no other vector to zero. -/
theorem Vec.diagMul_ne_zero {d v : Vec ℝ n} (hd : ∀ i, 0 < d i) (hv : v.get ≠ 0) :
    (d.diagMul v).get ≠ 0 := by
  intro hzero
  refine hv (funext ?_)
  intro i
  have hi := congrFun hzero i
  rw [Vec.diagMul_apply] at hi
  exact (mul_eq_zero.1 hi).resolve_left (hd i).ne'

/-- Whether a matrix is tapered depends on what is on and above the diagonal. -/
theorem Mat.Tapered.congr {r r' : Mat ℝ n n} (hr : r.Tapered) (h : r.SameUpper r') :
    r'.Tapered := by
  intro i j hi hij
  rw [← h.diagonal_eq] at hi
  exact (h i j hij).symm.trans (hr i j hi hij)

namespace Subproblem

/-- A subproblem that is posed by a tapered factor of the normal equations, with positive scaling
factors, a positive radius and a gradient that is not zero. -/
structure Posed (eqs : NormalEquations n) (sp : Subproblem ℝ n) : Prop where
  factored : eqs.Factored sp.r.upper sp.order sp.rhs.get
  tapered : sp.r.Tapered
  rhs_ne_zero : eqs.rhs ≠ 0
  scale_pos (i : Fin n) : 0 < sp.scale i
  radius_pos : 0 < sp.radius

variable {eqs : NormalEquations n} {sp : Subproblem ℝ n}

/-- What is below the diagonal does not matter. -/
theorem Posed.congr (h : Posed eqs sp) {r : Mat ℝ n n} (hr : sp.r.SameUpper r) :
    Posed eqs { sp with r } where
  factored := hr.upper_eq ▸ h.factored
  tapered := h.tapered.congr hr
  rhs_ne_zero := h.rhs_ne_zero
  scale_pos := h.scale_pos
  radius_pos := h.radius_pos

/-! ### The Gauss-Newton step -/

/-- If the Gauss-Newton step were zero, so would be all of the right hand side that counts. -/
theorem Posed.gaussNewton_ne_zero (h : Posed eqs sp) : sp.gaussNewton.get ≠ 0 := by
  intro hzero
  have hrhs : ∀ i : Fin n, i.val < sp.rank → sp.rhs i = 0 := by
    intro i hi
    rw [← (mulVec_gaussNewton h.factored.bijective i).2 hi, hzero]
    exact congrFun (mulVec_zero sp.r.upper) i
  -- the right hand side that counts is all that the gradient is made of
  have hgradient : eqs.rhs ∘ sp.order.get = 0 := by
    rw [← h.factored.gradient, h.tapered.transpose_mulVec_congr (w := 0) hrhs, mulVec_zero]
  refine h.rhs_ne_zero (funext ?_)
  intro i
  obtain ⟨j, rfl⟩ := h.factored.bijective.surjective i
  exact congrFun hgradient j

/-! ### Directions -/

/-- The direction of a step that is not zero is not zero. -/
theorem Posed.scaledDirection_ne_zero (h : Posed eqs sp) {dx : Vec ℝ n} (hdx : dx.get ≠ 0)
    {norm : ℝ} (hnorm : norm ≠ 0) : (sp.scaledDirection dx norm).get ≠ 0 := by
  intro hzero
  refine hdx (funext ?_)
  intro i
  obtain ⟨j, rfl⟩ := h.factored.bijective.surjective i
  rw [scaledDirection_get] at hzero
  have hj := (mul_eq_zero.1 (congrFun hzero j)).resolve_left (h.scale_pos _).ne'
  exact (div_eq_zero_iff.1 hj).resolve_right hnorm

/-- A solution of a linear system with a right hand side that is not zero has a positive norm. -/
theorem vecNorm_pos_of_mulVec {a : Matrix (Fin n) (Fin n) ℝ} {v w : Vec ℝ n}
    (hsol : a *ᵥ v.get = w.get) (hw : w.get ≠ 0) : 0 < (Numerics.exact ε τ z).vecNorm v := by
  refine Numerics.vecNorm_pos ?_
  intro hv
  rw [hv, mulVec_zero] at hsol
  exact hw hsol.symm

/-! ### Damped steps -/

section Probes

variable (h : Posed eqs sp) (hτ : 0 < τ) {b : Bracket ℝ} (hb : b.Nonneg)

include h hτ hb

/-- A gradient that does not vanish leaves no probe with a zero solution. -/
theorem Posed.probe_ne_zero : (sp.probe (Numerics.exact ε τ z) b).solution.x.get ≠ 0 := by
  intro hzero
  set d := (sp.probe (Numerics.exact ε τ z) b).diag sp.scale with hd
  have hne : ∀ i, d i ≠ 0 := Probe.diag_ne_zero (probe_damping_pos hτ sp hb) h.scale_pos
  have hsolves := solves_dampedSolve h.factored hne
  rw [hd, ← probe_solution, hzero] at hsolves
  rw [mulVec_zero] at hsolves
  exact h.rhs_ne_zero hsolves.symm

/-- The scaled step of a probe is not zero either. -/
theorem Posed.probe_dx_ne_zero : (sp.probe (Numerics.exact ε τ z) b).dx.get ≠ 0 := by
  rw [probe_dx]
  exact Vec.diagMul_ne_zero h.scale_pos (h.probe_ne_zero hτ hb)

/-- Hence a probe has a positive norm. -/
theorem Posed.probe_norm_pos : 0 < (sp.probe (Numerics.exact ε τ z) b).norm := by
  rw [probe_norm]
  exact Numerics.vecNorm_pos (h.probe_dx_ne_zero hτ hb)

/-- The factor of a damped system has no zero on the diagonal. -/
theorem Posed.probe_sdiag_ne_zero (j : Fin n) :
    (sp.probe (Numerics.exact ε τ z) b).solution.sdiag j ≠ 0 := by
  rw [← factor_self]
  exact factor_probe_ne_zero h.factored h.scale_pos hτ hb j

end Probes

/-! ### The solution -/

/-- The solution is not zero, and its damping is not negative. -/
theorem Posed.solve_ne_zero (h : Posed eqs sp) (hτ : 0 < τ) (estimate : ℝ) :
    (sp.solve (Numerics.exact ε τ z) estimate).step.get ≠ 0 ∧
      0 ≤ (sp.solve (Numerics.exact ε τ z) estimate).damping := by
  obtain ⟨-, hsolve⟩ | ⟨hlong, last, -, hsolve⟩ := sp.solve_cases (Numerics.exact ε τ z) estimate
  · rw [hsolve]
    exact ⟨h.gaussNewton_ne_zero, le_rfl⟩
  · have hb := (nonneg_firstBracket hτ h.radius_pos.le hlong estimate).trail sp
      (Numerics.exact ε τ z) last
    rw [hsolve]
    exact ⟨h.probe_ne_zero hτ hb, (probe_damping_pos hτ sp hb).le⟩

end Subproblem

end NonlinearSolve

import NonlinearSolve.Proofs.Drivers.Updates
import NonlinearSolve.Proofs.Equations.FirstStep

/-! # The last step of the equation solvers

Both equation solvers end with a trial step unless they are aborted, and report the factorization as
it was before that step (`solvers_report_last_step`). If the step is accepted, the product that is
reported is not that for the reported residuals (`stale_product_rootAtZero`). -/

namespace NonlinearSolve

open Equations Matrix Scalar

variable {σ : Type} {n : Nat}

/-! ### The equation `x = 0` -/

section RootAtZero

/-- The equation `x = 0`, with its Jacobian. -/
noncomputable def rootAtZero : JacobianProblem Unit ℝ 1 1 where
  evaluate x s := (.ok x, s)
  jacobian _ s := (.ok (Mat.identity 1), s)

/-- The residual of `x = 0` is the unknown. -/
theorem rootAtZero_computes : rootAtZero.Computes id := by
  intro x s v s' h
  cases h
  rfl

/-- The equation `x = 0`, starting at one, is solved by the first step, which is accepted. -/
theorem lastStep_rootAtZero :
    let nm := Numerics.exact 1 1 false
    let c := Config.default nm
    let x := Vec.const 1 (1 : ℝ)
    let mo := course nm c 100 rootAtZero.toProblem (analytic rootAtZero) x () 2
    let rep := (solveWithJacobian nm c rootAtZero x ()).1
    ∃ t, mo.stage = .proposed t ∧ t.point = Vec.zero 1 ∧
      mo.state.residualNorm = nm.vecNorm mo.state.residuals ∧
      accepts nm mo.state t (Vec.zero 1) = true ∧
      rep = (mo.state.after nm t (Vec.zero 1)).report (.converged false true) := by
  intro nm c x mo rep
  have hc : c.fault? 1 = none := Config.fault?_default one_ne_zero
  -- the first round, up to its step
  obtain ⟨st, hq, hit, hx, hres, hnorm, hmo⟩ : ∃ st : State ℝ 1, st.q = Mat.identity 1 ∧
      st.iteration = 1 ∧ st.x = x ∧ st.residuals = x ∧ st.residualNorm = nm.vecNorm x ∧
      mo = ⟨.proposed ((st.factorize nm c).propose nm).1, ((st.factorize nm c).propose nm).2, (),
        x⟩ := by
    simp only [mo, course_eq hc]
    exact ⟨_, rfl, rfl, rfl, rfl, rfl, rfl⟩
  have hones : AtOnes 1 st := by
    refine ⟨?_, hit, hx, hres, ?_⟩
    · rw [hq, Mat.toMatrix_identity, one_smul]
    · rw [hnorm, Numerics.vecNorm_const, abs_one, one_mul]
  obtain ⟨-, hpoint, -, hmodel⟩ :=
    hones.propose_factorize (ε := 1) (τ := 1) (z := false) le_rfl one_pos
  rw [inv_one, sub_self] at hpoint
  have hposition : (st.factorize nm c).position = st.position := position_factorize nm c st
  have hresidualNorm : (st.factorize nm c).residualNorm = nm.vecNorm x :=
    (congrArg Position.residualNorm hposition).trans hnorm
  have hresiduals : (st.factorize nm c).residuals = x :=
    (congrArg Position.residuals hposition).trans hres
  set t := ((st.factorize nm c).propose nm).1
  have hpos : 0 < nm.vecNorm x := by
    refine Numerics.vecNorm_pos fun hzero => ?_
    have hentry := congrFun hzero 0
    rw [Vec.const_apply] at hentry
    exact one_ne_zero hentry
  have haccepted : accepts nm mo.state t (Vec.zero 1) = true := by
    rw [hmo]
    exact accepts_of_zero (hresidualNorm.symm ▸ hpos) hmodel
  have hstage : mo.stage = .proposed t := by rw [hmo]
  have heval : rootAtZero.evaluate t.point mo.world = (.ok (Vec.zero 1), ()) := by
    rw [hpoint]
    rfl
  have hreport := report_of_zero (recounts_analytic rootAtZero) (by decide) hstage heval haccepted
  refine ⟨t, hstage, hpoint, ?_, haccepted, ?_⟩
  · rw [hmo]
    exact hresidualNorm.trans (congrArg nm.vecNorm hresiduals.symm)
  rw [← hreport]
  simp only [rep, solveWithJacobian, dif_pos]
  rfl

/-- The solve of `x = 0` is not aborted. -/
theorem termination_rootAtZero (e : Abort) :
    let nm := Numerics.exact 1 1 false
    (solveWithJacobian nm (Config.default nm) rootAtZero (Vec.const 1 (1 : ℝ)) ()).1.termination ≠
      .user e := by
  intro nm he
  obtain ⟨t, -, -, -, -, hrep⟩ := lastStep_rootAtZero
  have htermination := congrArg (·.termination) hrep
  cases htermination.symm.trans he

end RootAtZero

/-! ### Both solvers -/

/-- In exact arithmetic both equation solvers report on the last step, whatever the settings and the
problem are. -/
theorem solvers_report_last_step (ε τ : ℝ) (z : Bool) (c : Config ℝ) (x : Vec ℝ n) (s : σ) :
    let nm := Numerics.exact ε τ z
    (∀ p : Problem σ ℝ n n,
      ReportsLastStep nm (course nm c 200 p (numerical nm c p) x s) p (solve nm c p x s).1) ∧
    (∀ p : JacobianProblem σ ℝ n n,
      ReportsLastStep nm (course nm c 100 p.toProblem (analytic p) x s) p.toProblem
        (solveWithJacobian nm c p x s).1) := by
  intro nm
  constructor
  · intro p
    rw [solve, dif_pos rfl]
    exact reportsLastStep_run (recounts_numerical nm c p) (by decide)
  · intro p
    rw [solveWithJacobian, dif_pos rfl]
    exact reportsLastStep_run (recounts_analytic p) (by decide)

/-- The last step for `x = 0`, starting at one. -/
theorem solvers_report_last_step_rootAtZero :
    let nm := Numerics.exact 1 1 false
    let c := Config.default nm
    let x := Vec.const 1 (1 : ℝ)
    let mo := course nm c 100 rootAtZero.toProblem (analytic rootAtZero) x ()
    let rep := (solveWithJacobian nm c rootAtZero x ()).1
    rep.residuals = rep.x ∧ ∃ k t v, LastStep mo rootAtZero.toProblem rep k t v ∧
      rep.Lags (mo k).state.residuals (accepts nm (mo k).state t v) := by
  intro nm c x mo rep
  obtain ⟨t, hstage, -⟩ := lastStep_rootAtZero
  exact (solvers_report_last_step 1 1 false c x ()).2 rootAtZero id rootAtZero_computes
    ⟨2, t, hstage⟩ termination_rootAtZero

/-- The product that is reported for `x = 0`, starting at one, is not that for the reported
residuals, although a step is tried and the solve is not aborted. -/
theorem stale_product_rootAtZero :
    let nm := Numerics.exact 1 1 false
    let c := Config.default nm
    let x := Vec.const 1 (1 : ℝ)
    let mo := course nm c 100 rootAtZero.toProblem (analytic rootAtZero) x ()
    let rep := (solveWithJacobian nm c rootAtZero x ()).1
    rootAtZero.Computes id ∧ (∃ j t, (mo j).stage = .proposed t) ∧
      (∀ e, rep.termination ≠ .user e) ∧ rep.residuals = rep.x ∧
      rep.q.toMatrixᵀ * rep.q.toMatrix = 1 ∧
      rep.rhs.get ≠ rep.q.toMatrixᵀ *ᵥ rep.residuals.get := by
  intro nm c x mo rep
  obtain ⟨t, hstage, hpoint, hnorm, hacc, hrep⟩ := lastStep_rootAtZero
  have hholds : Holds nm
      (approximationOf nm c 100 rootAtZero.toProblem (analytic rootAtZero)
        (Linearize.jacobian (analytic rootAtZero)) x () 2) (mo 2) :=
    holds_course 2
  rw [Holds, hstage] at hholds
  obtain ⟨-, hrepresents, -⟩ := hholds
  have hlags := lags_after hrepresents hnorm t (Vec.zero 1) (.converged false true)
  have hposition := position_after nm (mo 2).state t (Vec.zero 1)
  rw [hacc] at hlags hposition
  rw [← hrep] at hlags
  have hx : rep.x = Vec.zero 1 :=
    ((congrArg (·.x) hrep).trans (congrArg Position.x hposition)).trans hpoint
  have hresiduals : rep.residuals = Vec.zero 1 :=
    (congrArg (·.residuals) hrep).trans (congrArg Position.residuals hposition)
  refine ⟨rootAtZero_computes, ⟨2, t, hstage⟩, termination_rootAtZero, hresiduals.trans hx.symm,
    hlags.orthogonal, ?_⟩
  intro heq
  have hrejected := hlags.rhs_iff.1 heq
  cases hrejected

end NonlinearSolve

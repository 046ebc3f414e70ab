import NonlinearSolve.Proofs.Drivers.Iterates
import NonlinearSolve.Proofs.Equations.FirstStep

/-! # The approximate Jacobian of the equation solvers

Both ways to solve a system of equations keep an orthogonal and a triangular factor of the last
Jacobian that was computed, updated for every step since. In exact arithmetic
`solvers_maintain_factors` says of both what `Equations.MaintainsFactors` says of one. -/

namespace NonlinearSolve

open Matrix

variable {σ : Type} {n : Nat}

/-- In exact arithmetic, both equation solvers maintain the factors of the approximate Jacobian,
whatever the settings and the problem are. -/
theorem solvers_maintain_factors (ε τ : ℝ) (z : Bool) (c : Equations.Config ℝ) (x : Vec ℝ n)
    (s : σ) :
    let nm := Numerics.exact ε τ z
    (∀ p : Problem σ ℝ n n,
      Equations.MaintainsFactors nm c 200 p (Equations.numerical nm c p)
        (Equations.numericalJacobian nm c p) x s (Equations.solve nm c p x s).1) ∧
    (∀ p : JacobianProblem σ ℝ n n,
      Equations.MaintainsFactors nm c 100 p.toProblem (Equations.analytic p)
        (Equations.analyticJacobian p) x s (Equations.solveWithJacobian nm c p x s).1) := by
  intro nm
  constructor
  · intro p
    rw [Equations.solve, dif_pos rfl, ← Equations.jacobian_numerical]
    exact Equations.maintainsFactors_run (Equations.recounts_numerical nm c p) (by decide)
  · intro p
    rw [Equations.solveWithJacobian, dif_pos rfl, ← Equations.jacobian_analytic]
    exact Equations.maintainsFactors_run (Equations.recounts_analytic p) (by decide)

/-- The first round for `x = 0` with twice its Jacobian, starting at one: the step goes half the
way, the Jacobian is updated for it, and another round begins. -/
theorem firstRound_rootAtZeroTimes_two :
    let nm := Numerics.exact 0 1 false
    let c := Equations.Config.default nm
    let p := rootAtZeroTimes 2
    let moments :=
      Equations.course nm c 100 p.toProblem (Equations.analytic p) (Vec.const 2 (1 : ℝ)) ()
    Equations.jacobianAt? (Equations.analyticJacobian p) (moments 0) =
        some (Mat.of fun i j => if i = j then 2 else 0) ∧
      (∃ t, Equations.update? nm c (c.budget 100 2) p.toProblem (moments 2) =
          some (t, Vec.const 2 (1 / 2)) ∧
        t.step = Vec.const 2 (-2⁻¹) ∧ t.length = √(2 : ℕ) ∧
        (moments 2).state.residuals = Vec.const 2 1) ∧
      (moments 3).stage = .ready ∧ (moments 3).state.stale = false := by
  intro nm c p moments
  have hc : c.fault? 2 = none := Equations.Config.fault?_default two_ne_zero
  -- up to the step
  obtain ⟨hfirst, st, hq, hit, hx, hres, hnorm, hevals, hmo⟩ :
      Equations.jacobianAt? (Equations.analyticJacobian p) (moments 0) =
          some (Mat.of fun i j => if i = j then 2 else 0) ∧
        ∃ st : Equations.State ℝ 2, st.q = (Mat.of fun i j => if i = j then 2 else 0) ∧
          st.iteration = 1 ∧ st.x = Vec.const 2 1 ∧ st.residuals = Vec.const 2 1 ∧
          st.residualNorm = nm.vecNorm (Vec.const 2 1) ∧ st.evaluations = 1 ∧
          moments 2 = ⟨.proposed ((st.factorize nm c).propose nm).1,
            ((st.factorize nm c).propose nm).2, (), Vec.const 2 1⟩ := by
    simp only [moments, Equations.course_eq hc]
    exact ⟨rfl, _, rfl, rfl, rfl, rfl, rfl, rfl, rfl⟩
  have hones : Equations.AtOnes 2 st := by
    refine ⟨hq ▸ toMatrix_times 2, hit, hx, hres, ?_⟩
    rw [hnorm, Numerics.vecNorm_const, abs_one, one_mul]
  set t := ((st.factorize nm c).propose nm).1
  set st' := ((st.factorize nm c).propose nm).2
  obtain ⟨hstep, hpoint, hlength, -⟩ : t.step = Vec.const 2 (-2⁻¹) ∧
    t.point = Vec.const 2 (1 - 2⁻¹) ∧ t.length = √(2 : ℕ) ∧ _ :=
    hones.propose_factorize one_le_two two_pos
  have heval : p.evaluate t.point () = (.ok (Vec.const 2 (1 / 2)), ()) := by
    rw [hpoint]
    norm_num [p, rootAtZeroTimes]
  have hbefore : st'.residuals = Vec.const 2 1 :=
    (congrArg Position.residuals (Equations.position_factorize nm c st)).trans hres
  -- the step is accepted, and the solve goes on with an update
  obtain ⟨hgo, hkept⟩ : (st'.judge nm c (c.budget 100 2) t (Vec.const 2 (1 / 2))).1 = none ∧
      (st'.judge nm c (c.budget 100 2) t (Vec.const 2 (1 / 2))).2.stale = false :=
    hones.judge_two two_pos (by rw [hevals]; decide)
  have hnext : (moments 3).stage =
        .ofVerdict (st'.judge nm c (c.budget 100 2) t (Vec.const 2 (1 / 2))).1 ∧
      (moments 3).state = (st'.judge nm c (c.budget 100 2) t (Vec.const 2 (1 / 2))).2 := by
    have hsucc : moments 3 = (Equations.method nm c (c.budget 100 2) p.toProblem
        (Equations.analytic p)).next (Equations.accepts nm) p.toProblem (moments 2) := by
      simp only [moments, Equations.course_eq hc]
      exact Method.course_succ 2
    rw [hsucc, hmo, Method.next_proposed_of_ok heval]
    exact ⟨rfl, rfl⟩
  rcases hjudge : st'.judge nm c (c.budget 100 2) t (Vec.const 2 (1 / 2)) with ⟨verdict, st₃⟩
  rw [hjudge] at hgo hkept hnext
  obtain rfl : verdict = none := hgo
  change st₃.stale = false at hkept
  refine ⟨hfirst, ⟨t, ?_, hstep, hlength, ?_⟩, hnext.1, ?_⟩
  · simp only [Equations.update?, hmo, heval, hjudge, hkept, Bool.false_eq_true, if_false]
  · rw [hmo]
    exact hbefore
  · rw [hnext.2]
    exact hkept

/-- When `x = 0` is solved with twice its Jacobian, starting at one, the approximate Jacobian is the
doubled one at first. It is updated for the first step, and maps it to itself then, as the identity
does. The factors are true to the updated matrix in the second round. -/
theorem solvers_maintain_factors_doubled :
    let nm := Numerics.exact 0 1 false
    let c := Equations.Config.default nm
    let p := rootAtZeroTimes 2
    let x := Vec.const 2 (1 : ℝ)
    let moments := Equations.course nm c 100 p.toProblem (Equations.analytic p) x ()
    let b := Equations.approximationOf nm c 100 p.toProblem (Equations.analytic p)
      (Equations.analyticJacobian p) x ()
    b 1 = (2 : ℝ) • 1 ∧
      (∃ t f, Equations.update? nm c (c.budget 100 2) p.toProblem (moments 2) = some (t, f) ∧
        t.step = Vec.const 2 (-2⁻¹) ∧ b 3 *ᵥ t.step.get = t.step.get) ∧
      ∃ st, Equations.refresh nm c (Equations.analytic p) (moments 3).state (moments 3).world =
          (.ok (), st, ()) ∧
        Equations.Represents st (b 4) := by
  intro nm c p x moments b
  have hmaintains := (solvers_maintain_factors 0 1 false c x ()).2 p
  obtain ⟨hfirst, ⟨t, hupdate, hstep, hlength, hbefore⟩, hready, hkept⟩ :=
    firstRound_rootAtZeroTimes_two
  have hrefresh : Equations.refresh nm c (Equations.analytic p) (moments 3).state
      (moments 3).world = (.ok (), (moments 3).state, ()) := by
    rw [Equations.refresh, hkept, if_neg Bool.false_ne_true]
  refine ⟨(hmaintains.computed 0 _ hfirst).trans (toMatrix_times 2), ⟨t, _, hupdate, hstep, ?_⟩,
    _, hrefresh, hmaintains.represents 3 _ () hready hrefresh⟩
  refine ((hmaintains.secant 2 t _ hupdate).2 ?_).trans ?_
  · rw [hlength]
    positivity
  · -- the residuals change by the step, as they are the unknowns
    rw [hbefore, hstep]
    funext i
    rw [Pi.sub_apply, Vec.const_apply, Vec.const_apply, Vec.const_apply]
    norm_num

end NonlinearSolve

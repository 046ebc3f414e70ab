import NonlinearSolve.Proofs.Drivers.Iterates
import NonlinearSolve.Proofs.LeastSquares.Units

/-! # Minimizing in other units

With the scaling by the Jacobian, `minimize` does not depend on the units of the unknowns
(`minimize_independent_of_units`). -/

namespace NonlinearSolve

open LeastSquares

/-- In exact arithmetic and with the scaling by the Jacobian, whatever the other settings and the
problem are: if all Jacobians that a minimization linearizes by have full column rank, then a
minimization of the same problem in units in which the unknown `i` has a value `t i` times as large
makes the same calls at the converted points. It asks for the residuals at the converted points, one
after the other, and reports the same, with the final iterate converted as well. -/
theorem minimize_independent_of_units (ε : ℝ) {τ : ℝ} (hτ : 0 < τ) (z : Bool) {σ : Type} {m n : Nat}
    {t : Vec ℝ n} (ht : ∀ i, 0 < t i) {c : Config ℝ} (hc : c.scaling = .jacobian)
    (p : JacobianProblem σ ℝ m n) (x : Vec ℝ n) (s : σ)
    (hrank : ∀ k a,
      jacobianAt? c.toSettings p.traced.toProblem (analyticJacobian p.traced)
        (course (Numerics.exact ε τ z) c 100 p.traced.toProblem id
          (fun h => analytic (Numerics.exact ε τ z) h p.traced) x (s, #[]) k) = some a →
        a.toMatrix.rank = n) :
    let nm := Numerics.exact ε τ z
    let rep := (minimize nm c p x s).1
    let rep' := (minimize nm c (p.inUnits t) (t.diagMul x) s).1
    let calls := (minimize nm c p.traced x (s, #[])).2.2
    let calls' := (minimize nm c (p.inUnits t).traced (t.diagMul x) (s, #[])).2.2
    calls' = callsInUnits t calls ∧
      evaluatedPoints calls' = (evaluatedPoints calls).map t.diagMul ∧
      rep'.termination = rep.termination ∧ rep'.evaluations = rep.evaluations ∧
      rep'.jacobians = rep.jacobians ∧ rep'.residuals = rep.residuals ∧
      rep'.residualNorm = rep.residualNorm ∧ rep'.x = t.diagMul rep.x := by
  intro nm rep rep' calls calls'
  have hunits := (p.inUnits_inUnits ht).traced
  obtain ⟨scale, hsummary, hworld, -⟩ := run_inStep (ε := ε) (z := z) c (by decide : 0 < 100) id id
    (recounts_analytic nm · p.traced) (recounts_analytic nm · (p.inUnits t).traced) ht
    hunits.toInUnits hτ x (s, #[]) fun h k s₁ _ hready hs =>
      analytic_inStep ht hunits hc h fun a ha => hrank k a (jacobianAt?_of_ready hready hs ha)
  simp only [id, callsInUnits_empty] at hsummary hworld
  have hcalls : calls' = callsInUnits t calls := congrArg Prod.snd hworld
  have hpoints : evaluatedPoints calls' = (evaluatedPoints calls).map t.diagMul := by
    rw [hcalls, evaluatedPoints_callsInUnits]
  -- recording the calls does not change the reports
  have hrep : rep'.toSummary = rep.toSummary.inUnits t scale := by
    have hleft := congrArg Report.toSummary (minimize_traced nm c x s p)
    have hright := congrArg Report.toSummary (minimize_traced nm c (t.diagMul x) s (p.inUnits t))
    rw [← hleft, ← hright]
    exact hsummary
  rw [hrep]
  exact ⟨hcalls, hpoints, rfl, rfl, rfl, rfl, rfl, rfl⟩

/-- Minimizing the sum of squares of two unknowns in units that double the values of one and treble
those of the other. -/
theorem minimize_independent_of_units_twoUnknowns :
    let nm := Numerics.exact 1 1 false
    let c := Config.default nm
    let p := rootAtZeroTimes 1
    let x := Vec.const 2 (1 : ℝ)
    let t := Vec.of ![(2 : ℝ), 3]
    let rep := (minimize nm c p x ()).1
    let rep' := (minimize nm c (p.inUnits t) (t.diagMul x) ()).1
    let calls := (minimize nm c p.traced x ((), #[])).2.2
    let calls' := (minimize nm c (p.inUnits t).traced (t.diagMul x) ((), #[])).2.2
    evaluatedPoints calls' = (evaluatedPoints calls).map t.diagMul ∧
      rep'.termination = rep.termination ∧ rep'.residuals = rep.residuals := by
  intro nm c p x t rep rep' calls calls'
  have ht : ∀ i, 0 < t i := by
    intro i
    rw [Vec.of_apply]
    fin_cases i
    · exact two_pos
    · exact three_pos
  have hrank : ∀ k a, jacobianAt? c.toSettings p.traced.toProblem (analyticJacobian p.traced)
      (course nm c 100 p.traced.toProblem id (fun h => analytic nm h p.traced) x ((), #[]) k) =
        some a → a.toMatrix.rank = 2 := by
    intro k a hjac
    obtain rfl := eq_of_jacobianAt? (analyticJacobian p.traced) (fun _ _ => rfl) hjac
    exact rank_times one_ne_zero
  obtain ⟨-, hpoints, htermination, -, -, hresiduals, -⟩ :=
    minimize_independent_of_units 1 one_pos false ht rfl p x () hrank
  exact ⟨hpoints, htermination, hresiduals⟩

end NonlinearSolve

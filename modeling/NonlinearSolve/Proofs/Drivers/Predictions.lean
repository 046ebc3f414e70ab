import NonlinearSolve.Proofs.Drivers.LastJacobian
import NonlinearSolve.Proofs.Drivers.WellDefined
import NonlinearSolve.Proofs.LeastSquares.Predictions

/-! # The linear model in minimizations

Whichever way a minimization linearizes, it measures every trial step by the linear model of the
residuals with the current Jacobian (`minimizers_predict_by_model`). -/

namespace NonlinearSolve

open LeastSquares

variable {σ : Type} {m n : Nat}

/-- In exact arithmetic every trial step of a minimization is judged by the linear model, whatever
the rank of the Jacobian is and whether the step is damped or not. -/
theorem minimizers_predict_by_model (ε : ℝ) {τ : ℝ} (hτ : 0 < τ) (z : Bool) (c : Config ℝ)
    (x : Vec ℝ n) (s : σ) (h : n ≤ m) :
    let nm := Numerics.exact ε τ z
    (∀ p : JacobianProblem σ ℝ m n,
      PredictsByModel nm (course nm c 100 p.toProblem id (fun h => analytic nm h p) x s)
        (attempts c p.toProblem fun h => analytic nm h p)
        (jacobianAt? c.toSettings p.toProblem (analyticJacobian p)) h p.toProblem) ∧
    (∀ p : Problem σ ℝ m n,
      PredictsByModel nm (course nm c 200 p id (fun h => numerical nm h c.toSettings p) x s)
        (attempts c p fun h => numerical nm h c.toSettings p)
        (jacobianAt? c.toSettings p (numericalJacobian nm c.toSettings p)) h p) ∧
    (∀ p : RowProblem σ ℝ m n,
      PredictsByModel nm
        (course nm c 100 p.toProblem (fun _ => Nat.le_refl n) (fun _ => rowwise nm p) x s)
        (attempts c p.toProblem fun _ => rowwise nm p)
        (jacobianAt? c.toSettings p.toProblem (rowwiseJacobian p)) (Nat.le_refl n)
        p.toProblem) := by
  intro nm
  refine ⟨?_, ?_, ?_⟩
  · intro p
    exact predictsByModel_run id hτ c p.toProblem (recounts_analytic nm · p)
      (tapers_analytic ε τ z · p) h (factors_analytic ε τ z h p) x s
  · intro p
    exact predictsByModel_run id hτ c p (recounts_numerical nm · c.toSettings p)
      (tapers_numerical ε τ z · c.toSettings p) h (factors_numerical ε τ z h c.toSettings p) x s
  · intro p
    exact predictsByModel_run (fun _ => Nat.le_refl n) hτ c p.toProblem
      (fun _ => recounts_rowwise nm p) (fun _ => tapers_rowwise ε τ z p) h
      (factors_rowwise ε τ z p) x s

/-- The first step for `sumTwice`, whose Jacobian of ones has not full rank, row by row or not. -/
theorem minimizers_predict_by_model_sumTwice :
    let nm := Numerics.exact (1 / 100) 1 false
    let c := Config.default nm
    let x := Vec.const 2 (1 : ℝ)
    let mo := course nm c 100 sumTwice.toProblem id (fun h => analytic nm h sumTwice) x ()
    let mo' := course nm c 100 sumTwiceByRows.toProblem (fun _ => Nat.le_refl 2)
      (fun _ => rowwise nm sumTwiceByRows) x ()
    (∃ t v, (mo 2).stage = .proposed t ∧
      sumTwice.evaluate t.point (mo 2).world = (.ok v, ()) ∧
      (mo 2).state.FollowsModel nm (le_refl 2) (Mat.of fun _ _ => 1) t v (mo 3).state) ∧
    ∃ t v, (mo' 2).stage = .proposed t ∧
      sumTwiceByRows.evaluate t.point (mo' 2).world = (.ok v, ()) ∧
      (mo' 2).state.FollowsModel nm (le_refl 2) (Mat.of fun _ _ => 1) t v (mo' 3).state := by
  intro nm c x mo mo'
  have hc : c.fault? 2 = none := Config.fault?_default two_ne_zero (by norm_num)
  obtain ⟨hmin, -, hmin'⟩ := minimizers_predict_by_model (σ := Unit) (m := 2) (1 / 100) one_pos
    false c x () le_rfl
  obtain ⟨hprepared, hprepared'⟩ :
      (mo 1).stage = .prepared ∧ (mo' 1).stage = .prepared := prepared_sumTwice
  constructor
  · obtain ⟨t, hstage⟩ : ∃ t, (mo 2).stage = .proposed t :=
      ⟨_, congrArg Moment.stage (course_succ_of_prepared le_rfl hc rfl hprepared)⟩
    obtain ⟨a, ⟨j, -, hjac, -, -⟩, hfollows⟩ := hmin sumTwice 2 t _ () hstage rfl
    obtain rfl := eq_of_jacobianAt? (analyticJacobian sumTwice) (fun _ _ => rfl) hjac
    exact ⟨t, _, hstage, rfl, hfollows⟩
  · obtain ⟨t, hstage⟩ : ∃ t, (mo' 2).stage = .proposed t :=
      ⟨_, congrArg Moment.stage (course_succ_of_prepared le_rfl hc rfl hprepared')⟩
    obtain ⟨a, ⟨j, -, hjac, -, -⟩, hfollows⟩ := hmin' sumTwiceByRows 2 t _ () hstage rfl
    obtain rfl := eq_of_jacobianAt? _ rowwiseJacobian_sumTwiceByRows hjac
    exact ⟨t, _, hstage, rfl, hfollows⟩

end NonlinearSolve

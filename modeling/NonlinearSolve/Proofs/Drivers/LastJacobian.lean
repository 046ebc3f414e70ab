import NonlinearSolve.Proofs.Drivers.Iterates
import NonlinearSolve.Proofs.LeastSquares.LastJacobian

/-! # The report of a minimization

Each of the three minimizations reports a factorization of the last Jacobian it has linearized by,
and with it the covariance of the parameters (`minimizers_describe_last_jacobian`). -/

namespace NonlinearSolve

open LeastSquares

variable {σ : Type} {m n : Nat}

/-- In exact arithmetic the report of a minimization describes the last Jacobian, whatever the
problem and the settings are and however many trial steps came after it. -/
theorem minimizers_describe_last_jacobian (ε τ : ℝ) (z : Bool) (c : Config ℝ) (x : Vec ℝ n) (s : σ)
    (h : n ≤ m) :
    let nm := Numerics.exact ε τ z
    (∀ p : JacobianProblem σ ℝ m n,
      DescribesLast (course nm c 100 p.toProblem id (fun h => analytic nm h p) x s)
        (attempts c p.toProblem fun h => analytic nm h p)
        (jacobianAt? c.toSettings p.toProblem (analyticJacobian p)) h
        (minimize nm c p x s).1) ∧
    (∀ p : Problem σ ℝ m n,
      DescribesLast (course nm c 200 p id (fun h => numerical nm h c.toSettings p) x s)
        (attempts c p fun h => numerical nm h c.toSettings p)
        (jacobianAt? c.toSettings p (numericalJacobian nm c.toSettings p)) h
        (minimizeNumerically nm c p x s).1) ∧
    (∀ p : RowProblem σ ℝ m n,
      DescribesLast
        (course nm c 100 p.toProblem (fun _ => Nat.le_refl n) (fun _ => rowwise nm p) x s)
        (attempts c p.toProblem fun _ => rowwise nm p)
        (jacobianAt? c.toSettings p.toProblem (rowwiseJacobian p)) (Nat.le_refl n)
        (minimizeRowwise nm c p x s).1) := by
  intro nm
  refine ⟨?_, ?_, ?_⟩
  · intro p
    exact describesLast_run id (fun h => analytic nm h p) (recounts_analytic nm · p) h
      (factors_analytic ε τ z h p) (by decide)
  · intro p
    exact describesLast_run id (fun h => numerical nm h c.toSettings p)
      (recounts_numerical nm · c.toSettings p) h (factors_numerical ε τ z h c.toSettings p)
      (by decide)
  · intro p
    exact describesLast_run (fun _ => Nat.le_refl n) (fun _ => rowwise nm p)
      (fun _ => recounts_rowwise nm p) h (factors_rowwise ε τ z p) (by decide)

/-- The rows of the Jacobian of `sumTwiceByRows` are gathered into a matrix of ones. -/
theorem rowwiseJacobian_sumTwiceByRows (st : State ℝ 2 2 2) (s : Unit) :
    rowwiseJacobian sumTwiceByRows st s = .ok (Mat.of fun _ _ => 1) := by
  refine congrArg Except.ok ?_
  ext i j
  fin_cases i <;> simp [Mat.setRow_apply, Mat.row_apply]

/-- The covariance that is reported for `x = 0` with twice its Jacobian is a quarter of the
identity. -/
theorem minimizers_describe_last_jacobian_doubled :
    let nm := Numerics.exact 1 1 false
    let c := Config.default nm
    let p := rootAtZeroTimes 2
    let x := Vec.const 2 (1 : ℝ)
    let rep := (minimize nm c p x ()).1
    (∃ i, attempts c p.toProblem (fun h => analytic nm h p)
      (course nm c 100 p.toProblem id (fun h => analytic nm h p) x () i) = .completed) ∧
    (rep.covariance 0).rank = 2 ∧ (rep.covariance 0).matrix.toMatrix = (4 : ℝ)⁻¹ • 1 := by
  intro nm c p x rep
  have hc : c.fault? 2 = none := Config.fault?_default two_ne_zero zero_le_one
  have hfirst : attempts c p.toProblem (fun h => analytic nm h p)
      (course nm c 100 p.toProblem id (fun h => analytic nm h p) x () 0) = .completed := by
    rw [course_eq le_rfl hc]
    rfl
  obtain ⟨hmin, -, -⟩ := minimizers_describe_last_jacobian (σ := Unit) 1 1 false c x () (le_refl 2)
  -- the Jacobian can always be computed, so no linearization aborts
  obtain ⟨k, a, hjac, -, hdescribes⟩ := hmin p ⟨0, hfirst⟩ fun j =>
    attempts_ne_aborted (fun _ _ _ => ⟨_, rfl⟩) _
  obtain rfl := eq_of_jacobianAt? (analyticJacobian p) (fun _ _ => rfl) hjac
  obtain ⟨hfull, hmatrix⟩ := hdescribes.covariance (rank_times two_ne_zero)
  refine ⟨⟨0, hfirst⟩, hfull, hmatrix.trans (Matrix.inv_eq_left_inv ?_)⟩
  rw [toMatrix_times, Matrix.transpose_smul, Matrix.transpose_one, smul_mul_smul_comm,
    smul_mul_smul_comm, Matrix.one_mul, Matrix.one_mul]
  norm_num

end NonlinearSolve

import NonlinearSolve.Proofs.Drivers.Iterates
import NonlinearSolve.Proofs.Equations.Scaling
import NonlinearSolve.Proofs.LeastSquares.Scaling

/-! # The scaling of every solver

With the scaling by the Jacobian, the scaling factors of every solver are the largest norms that the
columns of its Jacobians have had so far (`solvers_scale_by_jacobians`). -/

namespace NonlinearSolve

variable {σ : Type} {m n : Nat}

/-- In exact arithmetic every solver scales by its Jacobians. The minimizations do so whatever the
problem is. A solve of equations starts its scaling afresh as long as no step is accepted, so there
the residuals and the Jacobian have to be functions of the point. -/
theorem solvers_scale_by_jacobians (ε τ : ℝ) (z : Bool) (c : LeastSquares.Config ℝ)
    (d : Equations.Config ℝ) (x : Vec ℝ n) (s : σ) :
    let nm := Numerics.exact ε τ z
    (c.scaling = .jacobian →
      (∀ p : JacobianProblem σ ℝ m n,
        ScalesByJacobians
          (LeastSquares.jacobianAt? c.toSettings p.toProblem (LeastSquares.analyticJacobian p))
          LeastSquares.State.toIterate
          (LeastSquares.course nm c 100 p.toProblem id (fun h => LeastSquares.analytic nm h p) x s)
          (LeastSquares.minimize nm c p x s).1.toSummary) ∧
      (∀ p : Problem σ ℝ m n,
        ScalesByJacobians
          (LeastSquares.jacobianAt? c.toSettings p
            (LeastSquares.numericalJacobian nm c.toSettings p))
          LeastSquares.State.toIterate
          (LeastSquares.course nm c 200 p id
            (fun h => LeastSquares.numerical nm h c.toSettings p) x s)
          (LeastSquares.minimizeNumerically nm c p x s).1.toSummary) ∧
      (∀ p : RowProblem σ ℝ m n,
        ScalesByJacobians
          (LeastSquares.jacobianAt? c.toSettings p.toProblem (LeastSquares.rowwiseJacobian p))
          LeastSquares.State.toIterate
          (LeastSquares.course nm c 100 p.toProblem (fun _ => Nat.le_refl n)
            (fun _ => LeastSquares.rowwise nm p) x s)
          (LeastSquares.minimizeRowwise nm c p x s).1.toSummary)) ∧
    (d.scaling = .jacobian → ∀ f : Vec ℝ n → Vec ℝ n,
      (∀ p : Problem σ ℝ n n, p.Computes f →
        ScalesByJacobians (Equations.jacobianAt? (Equations.numericalJacobian nm d p))
          Equations.State.toIterate (Equations.course nm d 200 p (Equations.numerical nm d p) x s)
          (Equations.solve nm d p x s).1.toSummary) ∧
      (∀ (p : JacobianProblem σ ℝ n n) (jac : Vec ℝ n → Mat ℝ n n), p.Computes f →
        p.ComputesJacobian jac →
        ScalesByJacobians (Equations.jacobianAt? (Equations.analyticJacobian p))
          Equations.State.toIterate
          (Equations.course nm d 100 p.toProblem (Equations.analytic p) x s)
          (Equations.solveWithJacobian nm d p x s).1.toSummary)) := by
  intro nm
  refine ⟨fun hc => ⟨?_, ?_, ?_⟩, fun hd f => ⟨?_, ?_⟩⟩
  · intro p
    exact LeastSquares.scalesByJacobians_run id (LeastSquares.measures_analytic ε τ z · p)
      (LeastSquares.recounts_analytic nm · p) (by decide) hc x s
  · intro p
    exact LeastSquares.scalesByJacobians_run id
      (LeastSquares.measures_numerical ε τ z · c.toSettings p)
      (LeastSquares.recounts_numerical nm · c.toSettings p) (by decide) hc x s
  · intro p
    exact LeastSquares.scalesByJacobians_run (fun _ => Nat.le_refl n)
      (fun _ => LeastSquares.measures_rowwise ε τ z p)
      (fun _ => LeastSquares.recounts_rowwise nm p) (by decide) hc x s
  · intro p hp
    obtain ⟨jac, hjac⟩ := Equations.exists_computes_numerical nm d hp
    rw [Equations.solve, dif_pos rfl, ← Equations.jacobian_numerical]
    exact Equations.scalesByJacobians_run (Equations.recounts_numerical nm d p) hjac (by decide) hd
      hp x s
  · intro p jac hp hjac
    rw [Equations.solveWithJacobian, dif_pos rfl, ← Equations.jacobian_analytic]
    exact Equations.scalesByJacobians_run (Equations.recounts_analytic p)
      (Equations.computes_analytic f hjac) (by decide) hd hp x s

/-- The Jacobian of `sumTwice` is the same everywhere. -/
theorem sumTwice_computesJacobian : sumTwice.ComputesJacobian fun _ => Mat.of fun _ _ => 1 := by
  intro x s a s' h
  cases h
  rfl

/-- The solvers scale by their Jacobians when they solve `sumTwice` from where both unknowns are
one. The first trial step of a solve with the Jacobian has the scaling factors `√2`. -/
theorem solvers_scale_by_jacobians_sumTwice :
    let nm := Numerics.exact 1 1 false
    let c := LeastSquares.Config.default nm
    let d := Equations.Config.default nm
    let x := Vec.const 2 (1 : ℝ)
    let moments :=
      Equations.course nm d 100 sumTwice.toProblem (Equations.analytic sumTwice) x ()
    (c.scaling = .jacobian ∧
      ScalesByJacobians
        (LeastSquares.jacobianAt? c.toSettings sumTwice.toProblem
          (LeastSquares.analyticJacobian sumTwice))
        LeastSquares.State.toIterate
        (LeastSquares.course nm c 100 sumTwice.toProblem id
          (fun h => LeastSquares.analytic nm h sumTwice) x ())
        (LeastSquares.minimize nm c sumTwice x ()).1.toSummary ∧
      ScalesByJacobians
        (LeastSquares.jacobianAt? c.toSettings sumTwiceByRows.toProblem
          (LeastSquares.rowwiseJacobian sumTwiceByRows))
        LeastSquares.State.toIterate
        (LeastSquares.course nm c 100 sumTwiceByRows.toProblem (fun _ => Nat.le_refl 2)
          (fun _ => LeastSquares.rowwise nm sumTwiceByRows) x ())
        (LeastSquares.minimizeRowwise nm c sumTwiceByRows x ()).1.toSummary) ∧
    d.scaling = .jacobian ∧
      ScalesByJacobians (Equations.jacobianAt? (Equations.analyticJacobian sumTwice))
        Equations.State.toIterate moments
        (Equations.solveWithJacobian nm d sumTwice x ()).1.toSummary ∧
      ∃ t, (moments 2).stage = .proposed t ∧ ∀ j, (moments 2).state.scale j = √2 := by
  intro nm c d x moments
  obtain ⟨hls, heq⟩ := solvers_scale_by_jacobians (m := 2) 1 1 false c d x ()
  obtain ⟨hanalytic, -, hrowwise⟩ := hls rfl
  have hsolve := (heq rfl fun y => Vec.const 2 (y 0 + y 1)).2 sumTwice _ sumTwice_computes
    sumTwice_computesJacobian
  have hd : d.fault? 2 = none := Equations.Config.fault?_default two_ne_zero
  -- the first two moves compute the Jacobian and propose a step
  have hmoves : (∃ t, (moments 2).stage = .proposed t) ∧
      linearized (Equations.jacobianAt? (Equations.analyticJacobian sumTwice)) moments 2 =
        [Mat.of fun _ _ => 1] := by
    simp only [moments, Equations.course_eq hd]
    exact ⟨⟨_, rfl⟩, rfl⟩
  obtain ⟨⟨t, ht⟩, hjacs⟩ := hmoves
  have hnorm (j : Fin 2) : colNorm (Mat.of fun _ _ => 1 : Mat ℝ 2 2) j = √2 := by
    rw [colNorm, Fin.sum_univ_two, Mat.of_apply, Mat.of_apply, one_pow, one_add_one_eq_two]
  have hlargest (j : Fin 2) :
      IsLargestNorm [(Mat.of fun _ _ => 1 : Mat ℝ 2 2)] j ((moments 2).state.scale j) := by
    rw [← hjacs]
    exact hsolve.largest 2 t j ht
  refine ⟨⟨rfl, hanalytic sumTwice, hrowwise sumTwiceByRows⟩, rfl, hsolve, t, ht, ?_⟩
  intro j
  obtain ⟨a, ha, hmem, -⟩ := hlargest j
  cases ha
  rcases hmem with hown | ⟨b, hb, hcol⟩
  · rw [hown, ownScale, hnorm, if_neg (Real.sqrt_ne_zero'.2 two_pos)]
  · rw [← hcol, List.mem_singleton.1 hb, hnorm]

end NonlinearSolve

import NonlinearSolve.Proofs.Drivers.Aborts
import NonlinearSolve.Proofs.Drivers.Iterates
import NonlinearSolve.Proofs.LeastSquares.Reporting

/-! # The reports of every minimization

What `ReportsIterations` says of one minimization holds for all three ways to minimize
(`minimizers_report_iterations`). They differ in the calls of a linearization only. -/

namespace NonlinearSolve

variable {σ α : Type} [Scalar α]

/-- Whatever the arithmetic and the problem are, as long as no callback aborts: a minimization with
proper input evaluates the residuals at the start, goes through its outer iterations, with one
linearization in each, at its iterate and after the report of it if that is due, and makes a last
report if there are reports at all. With improper input nothing is called. -/
theorem minimizers_report_iterations (nm : Numerics α) {m n : Nat} (c : LeastSquares.Config α)
    (x : Vec α n) (s : σ) :
    (∀ h : n ≤ m, c.fault? n = none →
      (∀ p : JacobianProblem σ α m n, p.NeverAborts →
        ReportsIterations (LeastSquares.accepts nm h) p.traced.toProblem x (s, #[])
          (fun y => [.jacobian y]) c.reportEvery
          (LeastSquares.course nm c 100 p.traced.toProblem id
            (fun h => LeastSquares.analytic nm h p.traced) x (s, #[]))
          (LeastSquares.minimize nm c p x s).1.toSummary
          (LeastSquares.minimize nm c p.traced x (s, #[])).2.2) ∧
      (∀ p : Problem σ α m n, p.NeverAborts →
        ReportsIterations (LeastSquares.accepts nm h) p.traced x (s, #[])
          (LeastSquares.differenceCalls nm c.toSettings) c.reportEvery
          (LeastSquares.course nm c 200 p.traced id
            (fun h => LeastSquares.numerical nm h c.toSettings p.traced) x (s, #[]))
          (LeastSquares.minimizeNumerically nm c p x s).1.toSummary
          (LeastSquares.minimizeNumerically nm c p.traced x (s, #[])).2.2) ∧
      (∀ p : RowProblem σ α m n, p.NeverAborts →
        ReportsIterations (LeastSquares.accepts nm (Nat.le_refl n)) p.traced.toProblem x (s, #[])
          (fun y => (List.finRange m).map (.jacobianRow y)) c.reportEvery
          (LeastSquares.course nm c 100 p.traced.toProblem (fun _ => Nat.le_refl n)
            (fun _ => LeastSquares.rowwise nm p.traced) x (s, #[]))
          (LeastSquares.minimizeRowwise nm c p x s).1.toSummary
          (LeastSquares.minimizeRowwise nm c p.traced x (s, #[])).2.2)) ∧
    (¬ (n ≤ m ∧ c.fault? n = none) →
      (∀ p : JacobianProblem σ α m n,
        (LeastSquares.minimize nm c p.traced x (s, #[])).2.2 = #[]) ∧
      (∀ p : Problem σ α m n,
        (LeastSquares.minimizeNumerically nm c p.traced x (s, #[])).2.2 = #[]) ∧
      (∀ p : RowProblem σ α m n,
        (LeastSquares.minimizeRowwise nm c p.traced x (s, #[])).2.2 = #[])) := by
  refine ⟨fun h hc => ⟨?_, ?_, ?_⟩, fun hbad => ⟨?_, ?_, ?_⟩⟩
  · intro p hp
    have hsame := LeastSquares.minimize_traced nm c x s p
    have hreports := LeastSquares.reportsIterations_run nm c 100 id x s h hc
      (LeastSquares.makes_analytic nm · hp) (LeastSquares.recounts_analytic nm · p.traced)
      hp.toNeverAborts (by decide)
    exact hsame ▸ hreports
  · intro p hp
    have hsame := LeastSquares.run_traced nm c p id x s
      (LeastSquares.recounts_numerical nm · c.toSettings p)
      (LeastSquares.recorded_numerical nm · c.toSettings p)
      (fun h k => congrArg (LeastSquares.numerical nm h c.toSettings) (p.answering_traced k))
      (by decide : 0 < 200)
    have hreports := LeastSquares.reportsIterations_run nm c 200 id x s h hc
      (LeastSquares.makes_numerical nm · c.toSettings hp)
      (LeastSquares.recounts_numerical nm · c.toSettings p.traced) hp (by decide)
    exact hsame ▸ hreports
  · intro p hp
    have hsame := LeastSquares.run_traced nm c p.toProblem (fun _ => Nat.le_refl _) x s
      (fun _ => LeastSquares.recounts_rowwise nm p) (fun _ => LeastSquares.recorded_rowwise nm p)
      (fun _ k => congrArg (LeastSquares.rowwise nm) (p.answering_traced k)) (by decide : 0 < 100)
    have hreports := LeastSquares.reportsIterations_run nm c 100 (fun _ => Nat.le_refl n) x s h hc
      (fun _ => LeastSquares.makes_rowwise nm hp)
      (fun _ => LeastSquares.recounts_rowwise nm p.traced)
      hp.toNeverAborts (by decide)
    exact hsame ▸ hreports
  · intro p
    exact congrArg Prod.snd (LeastSquares.world_run_of_improper nm c 100 id x (s, #[])
      p.traced.toProblem (fun h => LeastSquares.analytic nm h p.traced) hbad)
  · intro p
    exact congrArg Prod.snd (LeastSquares.world_run_of_improper nm c 200 id x (s, #[]) p.traced
      (fun h => LeastSquares.numerical nm h c.toSettings p.traced) hbad)
  · intro p
    exact congrArg Prod.snd (LeastSquares.world_run_of_improper nm c 100 (fun _ => Nat.le_refl n) x
      (s, #[]) p.traced.toProblem (fun _ => LeastSquares.rowwise nm p.traced) hbad)

/-- No call for `sumTwice` aborts. -/
theorem sumTwice_neverAborts : sumTwice.NeverAborts where
  evaluate _ _ := ⟨_, (), rfl⟩
  report _ _ _ _ := ⟨(), (), rfl⟩
  jacobian _ _ := ⟨_, (), rfl⟩

/-- No call for `sumTwiceByRows` aborts. -/
theorem sumTwiceByRows_neverAborts : sumTwiceByRows.NeverAborts where
  evaluate _ _ := ⟨_, (), rfl⟩
  report _ _ _ _ := ⟨(), (), rfl⟩
  jacobianRow _ _ _ := ⟨_, (), rfl⟩

/-- The minimizers report every second iteration when they minimize the sum of squares of
`sumTwice`, starting where both unknowns are one. Without residuals nothing is called. -/
theorem minimizers_report_iterations_sumTwice :
    let nm := Numerics.exact 1 1 false
    let c := { LeastSquares.Config.default nm with reportEvery := 2 }
    let x := Vec.const 2 (1 : ℝ)
    2 ≤ 2 ∧ c.fault? 2 = none ∧ sumTwice.NeverAborts ∧ sumTwiceByRows.NeverAborts ∧
      ReportsIterations (LeastSquares.accepts nm (Nat.le_refl 2)) sumTwice.traced.toProblem x
        ((), #[]) (fun y => [.jacobian y]) 2
        (LeastSquares.course nm c 100 sumTwice.traced.toProblem id
          (fun h => LeastSquares.analytic nm h sumTwice.traced) x ((), #[]))
        (LeastSquares.minimize nm c sumTwice x ()).1.toSummary
        (LeastSquares.minimize nm c sumTwice.traced x ((), #[])).2.2 ∧
      ReportsIterations (LeastSquares.accepts nm (Nat.le_refl 2)) sumTwice.toProblem.traced x
        ((), #[]) (LeastSquares.differenceCalls nm c.toSettings) 2
        (LeastSquares.course nm c 200 sumTwice.toProblem.traced id
          (fun h => LeastSquares.numerical nm h c.toSettings sumTwice.toProblem.traced) x
          ((), #[]))
        (LeastSquares.minimizeNumerically nm c sumTwice.toProblem x ()).1.toSummary
        (LeastSquares.minimizeNumerically nm c sumTwice.toProblem.traced x ((), #[])).2.2 ∧
      ReportsIterations (LeastSquares.accepts nm (Nat.le_refl 2)) sumTwiceByRows.traced.toProblem
        x ((), #[]) (fun y => (List.finRange 2).map (.jacobianRow y)) 2
        (LeastSquares.course nm c 100 sumTwiceByRows.traced.toProblem (fun _ => Nat.le_refl 2)
          (fun _ => LeastSquares.rowwise nm sumTwiceByRows.traced) x ((), #[]))
        (LeastSquares.minimizeRowwise nm c sumTwiceByRows x ()).1.toSummary
        (LeastSquares.minimizeRowwise nm c sumTwiceByRows.traced x ((), #[])).2.2 ∧
      ¬ (1 ≤ 0 ∧ c.fault? 1 = none) ∧
      (LeastSquares.minimizeNumerically nm c (refusal 0).traced (Vec.const 1 1) ((), #[])).2.2 =
        #[] := by
  intro nm c x
  have hc : c.fault? 2 = none := LeastSquares.Config.fault?_default two_ne_zero zero_le_one
  have hbad : ¬ (1 ≤ 0 ∧ c.fault? 1 = none) := fun h => absurd h.1 (by decide)
  obtain ⟨hproper, -⟩ := minimizers_report_iterations (m := 2) nm c x ()
  obtain ⟨-, himproper⟩ := minimizers_report_iterations (m := 0) nm c (Vec.const 1 1) ()
  obtain ⟨h₁, h₂, h₃⟩ := hproper (Nat.le_refl 2) hc
  exact ⟨Nat.le_refl 2, hc, sumTwice_neverAborts, sumTwiceByRows_neverAborts,
    h₁ sumTwice sumTwice_neverAborts,
    h₂ sumTwice.toProblem sumTwice_neverAborts.toNeverAborts,
    h₃ sumTwiceByRows sumTwiceByRows_neverAborts, hbad, (himproper hbad).2.1 (refusal 0)⟩

end NonlinearSolve

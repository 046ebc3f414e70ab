import NonlinearSolve.Proofs.Drivers.Aborts
import NonlinearSolve.Proofs.Equations.Accounts
import NonlinearSolve.Proofs.LeastSquares.Accounts

/-! # The accounts of every solver

What `Accounts` says of one solve holds for all five ways to solve a problem
(`solvers_keep_accounts`): the solve ends, and it reports how many evaluations and linearizations
there were. The trace tells both: a linearization has one answer about the Jacobian, or one for
every row, or is made of evaluations only. -/

namespace NonlinearSolve

variable {σ α : Type} [Scalar α]

/-- Whatever the arithmetic, the settings and the problem are: the accounts of every solver are in
order. With a Jacobian the evaluations stay within the budget, and the linearizations counted are
the Jacobians that the trace says were given, or a number of rows apiece; with forward differences
the evaluations may exceed the budget by the number of unknowns, and no Jacobian is asked for. Being
traced changes nothing in the report. -/
theorem solvers_keep_accounts (nm : Numerics α) :
    (∀ {m n : Nat} (c : LeastSquares.Config α) (x : Vec α n) (s : σ),
      (∀ p : JacobianProblem σ α m n,
        (LeastSquares.minimize nm c p.traced x (s, #[])).1 = (LeastSquares.minimize nm c p x s).1 ∧
        Accounts
          (LeastSquares.course nm c 100 p.traced.toProblem id
            (fun h => LeastSquares.analytic nm h p.traced) x (s, #[]))
          (LeastSquares.attempts c p.traced.toProblem
            fun h => LeastSquares.analytic nm h p.traced)
          (c.budget 100 n) 0 1 (LeastSquares.minimize nm c p x s).1.toSummary
          (LeastSquares.minimize nm c p.traced x (s, #[])).2.2) ∧
      (∀ p : Problem σ α m n,
        (LeastSquares.minimizeNumerically nm c p.traced x (s, #[])).1 =
          (LeastSquares.minimizeNumerically nm c p x s).1 ∧
        Accounts
          (LeastSquares.course nm c 200 p.traced id
            (fun h => LeastSquares.numerical nm h c.toSettings p.traced) x (s, #[]))
          (LeastSquares.attempts c p.traced
            fun h => LeastSquares.numerical nm h c.toSettings p.traced)
          (c.budget 200 n) n 0 (LeastSquares.minimizeNumerically nm c p x s).1.toSummary
          (LeastSquares.minimizeNumerically nm c p.traced x (s, #[])).2.2) ∧
      (∀ p : RowProblem σ α m n,
        (LeastSquares.minimizeRowwise nm c p.traced x (s, #[])).1 =
          (LeastSquares.minimizeRowwise nm c p x s).1 ∧
        Accounts
          (LeastSquares.course nm c 100 p.traced.toProblem (fun _ => Nat.le_refl n)
            (fun _ => LeastSquares.rowwise nm p.traced) x (s, #[]))
          (LeastSquares.attempts c p.traced.toProblem
            fun _ => LeastSquares.rowwise nm p.traced)
          (c.budget 100 n) 0 m (LeastSquares.minimizeRowwise nm c p x s).1.toSummary
          (LeastSquares.minimizeRowwise nm c p.traced x (s, #[])).2.2)) ∧
    (∀ {n : Nat} (c : Equations.Config α) (x : Vec α n) (s : σ),
      (∀ p : Problem σ α n n,
        (Equations.solve nm c p.traced x (s, #[])).1 = (Equations.solve nm c p x s).1 ∧
        Accounts
          (Equations.course nm c 200 p.traced (Equations.numerical nm c p.traced) x (s, #[]))
          (Moment.attempt (Equations.attempt (Equations.numerical nm c p.traced)))
          (c.budget 200 n) n 0 (Equations.solve nm c p x s).1.toSummary
          (Equations.solve nm c p.traced x (s, #[])).2.2) ∧
      (∀ p : JacobianProblem σ α n n,
        (Equations.solveWithJacobian nm c p.traced x (s, #[])).1 =
          (Equations.solveWithJacobian nm c p x s).1 ∧
        Accounts
          (Equations.course nm c 100 p.traced.toProblem (Equations.analytic p.traced) x (s, #[]))
          (Moment.attempt (Equations.attempt (Equations.analytic p.traced)))
          (c.budget 100 n) 0 1 (Equations.solveWithJacobian nm c p x s).1.toSummary
          (Equations.solveWithJacobian nm c p.traced x (s, #[])).2.2)) := by
  refine ⟨fun c x s => ⟨?_, ?_, ?_⟩, fun c x s => ⟨?_, ?_⟩⟩
  · intro p
    have hsame := LeastSquares.run_traced nm c p.toProblem id x s
      (LeastSquares.recounts_analytic nm · p) (LeastSquares.recorded_analytic nm · p)
      (fun h k => congrArg (LeastSquares.analytic nm h) (p.answering_traced k))
      (by decide : 0 < 100)
    have haccounts := LeastSquares.accounts_run nm c p.toProblem id x s
      (LeastSquares.recounts_analytic nm · p.traced) (LeastSquares.metered_analytic nm · p)
      (by decide : 0 < 100)
    exact ⟨hsame, hsame ▸ haccounts⟩
  · intro p
    have hsame := LeastSquares.run_traced nm c p id x s
      (LeastSquares.recounts_numerical nm · c.toSettings p)
      (LeastSquares.recorded_numerical nm · c.toSettings p)
      (fun h k => congrArg (LeastSquares.numerical nm h c.toSettings) (p.answering_traced k))
      (by decide : 0 < 200)
    have haccounts := LeastSquares.accounts_run nm c p id x s
      (LeastSquares.recounts_numerical nm · c.toSettings p.traced)
      (LeastSquares.metered_numerical nm · c.toSettings p) (by decide : 0 < 200)
    exact ⟨hsame, hsame ▸ haccounts⟩
  · intro p
    have hsame := LeastSquares.run_traced nm c p.toProblem (fun _ => Nat.le_refl _) x s
      (fun _ => LeastSquares.recounts_rowwise nm p) (fun _ => LeastSquares.recorded_rowwise nm p)
      (fun _ k => congrArg (LeastSquares.rowwise nm) (p.answering_traced k)) (by decide : 0 < 100)
    have haccounts := LeastSquares.accounts_run nm c p.toProblem (fun _ => Nat.le_refl _) x s
      (fun _ => LeastSquares.recounts_rowwise nm p.traced)
      (fun _ => LeastSquares.metered_rowwise nm p) (by decide : 0 < 100)
    exact ⟨hsame, hsame ▸ haccounts⟩
  · intro p
    have hsame := Equations.run_traced nm c p x s (Equations.recounts_numerical nm c p)
      (Equations.recorded_numerical nm c p)
      (fun k => congrArg (Equations.numerical nm c) (p.answering_traced k)) (by decide : 0 < 200)
    have haccounts := Equations.accounts_run nm c p x s (Equations.recounts_numerical nm c p.traced)
      (Equations.metered_numerical nm c p) (by decide : 0 < 200)
    simp only [Equations.solve, dif_pos]
    exact ⟨hsame, hsame ▸ haccounts⟩
  · intro p
    have hsame := Equations.run_traced nm c p.toProblem x s (Equations.recounts_analytic p)
      (Equations.recorded_analytic p)
      (fun k => congrArg Equations.analytic (p.answering_traced k)) (by decide : 0 < 100)
    have haccounts := Equations.accounts_run nm c p.toProblem x s
      (Equations.recounts_analytic p.traced) (Equations.metered_analytic p) (by decide : 0 < 100)
    simp only [Equations.solveWithJacobian, dif_pos]
    exact ⟨hsame, hsame ▸ haccounts⟩

end NonlinearSolve

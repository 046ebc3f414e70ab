import Mathlib.Analysis.SpecialFunctions.Sqrt
import NonlinearSolve.Proofs.Equations.Aborts
import NonlinearSolve.Proofs.Exact.Defaults
import NonlinearSolve.Proofs.LeastSquares.Aborts

/-! # Every solver stops at an abort

What `StopsAtAbort` says of one solve holds for all five ways to solve a problem, and in all of them
nothing depends on the answer to the last report (`solvers_stop_at_abort`). -/

namespace NonlinearSolve

variable {σ α : Type} [Scalar α]

/-- Whatever the arithmetic, the settings and the problem are: every solver stops at the first call
that aborts, wherever that happens, with the unknowns at the starting point or at the point of the
last accepted step. It ends by an abort for no other reason. Its report does not depend on the
answer to the last report, nor on being traced. A system without as many equations as unknowns is
rejected before any call. -/
theorem solvers_stop_at_abort (nm : Numerics α) :
    (∀ {m n : Nat} (c : LeastSquares.Config α) (x : Vec α n) (s : σ),
      (∀ p : JacobianProblem σ α m n, ∃ calls : Array (Event α m n),
        StopsAtAbort
          (LeastSquares.course nm c 100 p.toProblem id (fun h => LeastSquares.analytic nm h p) x s)
          c.reportEvery (LeastSquares.minimize nm c p x s).1.toSummary
          (LeastSquares.minimize nm c p x s).1.code calls
          (LeastSquares.minimize nm c p.traced x (s, #[])).2.2 ∧
        ∀ answer, (LeastSquares.minimize nm c (p.answering calls.size answer) x (s, #[])).1 =
          (LeastSquares.minimize nm c p x s).1) ∧
      (∀ p : Problem σ α m n, ∃ calls : Array (Event α m n),
        StopsAtAbort
          (LeastSquares.course nm c 200 p id (fun h => LeastSquares.numerical nm h c.toSettings p)
            x s)
          c.reportEvery (LeastSquares.minimizeNumerically nm c p x s).1.toSummary
          (LeastSquares.minimizeNumerically nm c p x s).1.code calls
          (LeastSquares.minimizeNumerically nm c p.traced x (s, #[])).2.2 ∧
        ∀ answer,
          (LeastSquares.minimizeNumerically nm c (p.answering calls.size answer) x (s, #[])).1 =
          (LeastSquares.minimizeNumerically nm c p x s).1) ∧
      (∀ p : RowProblem σ α m n, ∃ calls : Array (Event α m n),
        StopsAtAbort
          (LeastSquares.course nm c 100 p.toProblem (fun _ => Nat.le_refl n)
            (fun _ => LeastSquares.rowwise nm p) x s)
          c.reportEvery (LeastSquares.minimizeRowwise nm c p x s).1.toSummary
          (LeastSquares.minimizeRowwise nm c p x s).1.code calls
          (LeastSquares.minimizeRowwise nm c p.traced x (s, #[])).2.2 ∧
        ∀ answer,
          (LeastSquares.minimizeRowwise nm c (p.answering calls.size answer) x (s, #[])).1 =
          (LeastSquares.minimizeRowwise nm c p x s).1)) ∧
    (∀ {n : Nat} (c : Equations.Config α) (x : Vec α n) (s : σ),
      (∀ p : Problem σ α n n, ∃ calls : Array (Event α n n),
        StopsAtAbort (Equations.course nm c 200 p (Equations.numerical nm c p) x s)
          c.reportEvery (Equations.solve nm c p x s).1.toSummary
          (Equations.solve nm c p x s).1.code calls
          (Equations.solve nm c p.traced x (s, #[])).2.2 ∧
        ∀ answer, (Equations.solve nm c (p.answering calls.size answer) x (s, #[])).1 =
          (Equations.solve nm c p x s).1) ∧
      (∀ p : JacobianProblem σ α n n, ∃ calls : Array (Event α n n),
        StopsAtAbort (Equations.course nm c 100 p.toProblem (Equations.analytic p) x s)
          c.reportEvery (Equations.solveWithJacobian nm c p x s).1.toSummary
          (Equations.solveWithJacobian nm c p x s).1.code calls
          (Equations.solveWithJacobian nm c p.traced x (s, #[])).2.2 ∧
        ∀ answer, (Equations.solveWithJacobian nm c (p.answering calls.size answer) x (s, #[])).1 =
          (Equations.solveWithJacobian nm c p x s).1)) ∧
    (∀ {m n : Nat} (c : Equations.Config α) (x : Vec α n) (s : σ), m ≠ n →
      (∀ p : Problem σ α m n, Equations.solve nm c p.traced x (s, #[]) =
        (Equations.reject c x (Equations.shapeFault m n), s, #[])) ∧
      (∀ p : JacobianProblem σ α m n, Equations.solveWithJacobian nm c p.traced x (s, #[]) =
        (Equations.reject c x (Equations.shapeFault m n), s, #[]))) := by
  -- in each case the problem that answers the last report as usual is the traced problem
  refine ⟨fun c x s => ⟨?_, ?_, ?_⟩, fun c x s => ⟨?_, ?_⟩, fun c x s hmn => ⟨?_, ?_⟩⟩
  · intro p
    obtain ⟨calls, hstop, hanswer⟩ := LeastSquares.stopsAtAbort_run nm c p.toProblem id x s
      (LeastSquares.recounts_analytic nm · p)
      (LeastSquares.recorded_analytic nm · p) (by decide : 0 < 100)
    have htraced := p.answering_traced calls.size
    exact ⟨calls, htraced ▸ hstop, hanswer⟩
  · intro p
    obtain ⟨calls, hstop, hanswer⟩ := LeastSquares.stopsAtAbort_run nm c p id x s
      (LeastSquares.recounts_numerical nm · c.toSettings p)
      (LeastSquares.recorded_numerical nm · c.toSettings p) (by decide : 0 < 200)
    have htraced := p.answering_traced calls.size
    exact ⟨calls, htraced ▸ hstop, hanswer⟩
  · intro p
    obtain ⟨calls, hstop, hanswer⟩ := LeastSquares.stopsAtAbort_run nm c p.toProblem
      (fun _ => Nat.le_refl _) x s (fun _ => LeastSquares.recounts_rowwise nm p)
      (fun _ => LeastSquares.recorded_rowwise nm p) (by decide : 0 < 100)
    have htraced := p.answering_traced calls.size
    exact ⟨calls, htraced ▸ hstop, hanswer⟩
  · intro p
    obtain ⟨calls, hstop, hanswer⟩ := Equations.stopsAtAbort_run nm c p x s
      (Equations.recounts_numerical nm c p) (Equations.recorded_numerical nm c p)
      (by decide : 0 < 200)
    have htraced := p.answering_traced calls.size
    simp only [Equations.solve, dif_pos]
    exact ⟨calls, htraced ▸ hstop, hanswer⟩
  · intro p
    obtain ⟨calls, hstop, hanswer⟩ := Equations.stopsAtAbort_run nm c p.toProblem x s
      (Equations.recounts_analytic p) (Equations.recorded_analytic p) (by decide : 0 < 100)
    have htraced := p.answering_traced calls.size
    simp only [Equations.solveWithJacobian, dif_pos]
    exact ⟨calls, htraced ▸ hstop, hanswer⟩
  · intro p
    rw [Equations.solve, dif_neg hmn]
  · intro p
    rw [Equations.solveWithJacobian, dif_neg hmn]

/-- Residuals of one unknown that can never be evaluated. -/
def refusal (m : Nat) : Problem Unit ℝ m 1 where
  evaluate _ s := (.error (.ofStatus (-1)), s)

/-- The equation `refusal 1` is given up at the first call, with the status of the abort. Two
equations for one unknown are rejected before any call. -/
theorem solvers_stop_at_abort_refusal :
    let nm := Numerics.exact 1 1 false
    let c := Equations.Config.default nm
    let x := Vec.const 1 (1 : ℝ)
    let rep := (Equations.solve nm c (refusal 1) x ()).1
    rep.termination = .user {} ∧ rep.code = -1 ∧ 2 ≠ 1 ∧
      Equations.solve nm c (refusal 2).traced x ((), #[]) =
        (Equations.reject c x (Equations.shapeFault 2 1), (), #[]) := by
  intro nm c x rep
  have hc : c.fault? 1 = none := Equations.Config.fault?_default one_ne_zero
  have hend : rep.termination = .user {} := by
    simp only [rep, Equations.solve, dif_pos, Equations.run, hc]
    rfl
  have hne : 2 ≠ 1 := by decide
  obtain ⟨-, hsquare, hshape⟩ := solvers_stop_at_abort (σ := Unit) nm
  obtain ⟨calls, hstop, -⟩ := (hsquare c x ()).1 (refusal 1)
  exact ⟨hend, (hstop.code_eq {} hend).1, hne, (hshape c x () hne).1 (refusal 2)⟩

end NonlinearSolve

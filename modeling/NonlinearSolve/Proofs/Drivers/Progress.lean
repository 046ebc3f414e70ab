import NonlinearSolve.Proofs.Drivers.Aborts
import NonlinearSolve.Proofs.Drivers.Iterates
import NonlinearSolve.Proofs.Equations.Progress

/-! # The progress of every solve of equations

What `WatchesProgress` says of one solve holds for both ways to solve equations
(`solvers_watch_progress`): Jacobians are rare, and a solve that makes no progress does not go on
for long. -/

namespace NonlinearSolve

variable {σ α : Type} [Scalar α]

/-- Whatever the arithmetic, the settings and the problem are: both solvers of equations watch their
progress. A system without as many equations as unknowns is rejected before any step. -/
theorem solvers_watch_progress (nm : Numerics α) :
    (∀ {n : Nat} (c : Equations.Config α) (x : Vec α n) (s : σ),
      (∀ p : Problem σ α n n,
        Equations.WatchesProgress nm p (Equations.numerical nm c p)
          (Equations.course nm c 200 p (Equations.numerical nm c p) x s)
          (Equations.solve nm c p x s).1) ∧
      (∀ p : JacobianProblem σ α n n,
        Equations.WatchesProgress nm p.toProblem (Equations.analytic p)
          (Equations.course nm c 100 p.toProblem (Equations.analytic p) x s)
          (Equations.solveWithJacobian nm c p x s).1)) ∧
    (∀ {m n : Nat} (c : Equations.Config α) (x : Vec α n) (s : σ), m ≠ n →
      (∀ p : Problem σ α m n,
        Equations.solve nm c p x s = (Equations.reject c x (Equations.shapeFault m n), s)) ∧
      (∀ p : JacobianProblem σ α m n,
        Equations.solveWithJacobian nm c p x s =
          (Equations.reject c x (Equations.shapeFault m n), s))) := by
  refine ⟨fun c x s => ⟨?_, ?_⟩, fun c x s hmn => ⟨?_, ?_⟩⟩
  · intro p
    have hprogress := Equations.watchesProgress_run nm c p x s
      (Equations.recounts_numerical nm c p) (Equations.keepsRecord_numerical nm c p)
      (by decide : 0 < 200)
    simp only [Equations.solve, dif_pos]
    exact hprogress
  · intro p
    have hprogress := Equations.watchesProgress_run nm c p.toProblem x s
      (Equations.recounts_analytic p) (Equations.keepsRecord_analytic p) (by decide : 0 < 100)
    simp only [Equations.solveWithJacobian, dif_pos]
    exact hprogress
  · intro p
    rw [Equations.solve, dif_neg hmn]
  · intro p
    rw [Equations.solveWithJacobian, dif_neg hmn]

/-- The solvers watch their progress when they solve `sumTwice` from where both unknowns are one,
and reject two equations for one unknown. -/
theorem solvers_watch_progress_sumTwice :
    let nm := Numerics.exact 1 1 false
    let c := Equations.Config.default nm
    let x := Vec.const 2 (1 : ℝ)
    Equations.WatchesProgress nm sumTwice.toProblem (Equations.analytic sumTwice)
        (Equations.course nm c 100 sumTwice.toProblem (Equations.analytic sumTwice) x ())
        (Equations.solveWithJacobian nm c sumTwice x ()).1 ∧
      2 ≠ 1 ∧ Equations.solve nm c (refusal 2) (Vec.const 1 1) () =
        (Equations.reject c (Vec.const 1 1) (Equations.shapeFault 2 1), ()) := by
  intro nm c x
  have hne : 2 ≠ 1 := by decide
  obtain ⟨hsquare, hshape⟩ := solvers_watch_progress (σ := Unit) nm
  exact ⟨(hsquare c x ()).2 sumTwice, hne, (hshape c (Vec.const 1 1) () hne).1 (refusal 2)⟩

end NonlinearSolve
